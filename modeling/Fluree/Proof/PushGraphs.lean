import Fluree.Api.PushValidation
import Fluree.Proof.ValueEq

/-!
# The numbers that a push gives its graphs

* `graphId_iff`: which number `deriveGraphRouting` gives to which graph of a batch.
-/

namespace Fluree.Push

section

open Lib Namespaces Ledger List Option KeyedMap Prod Sid

/-! ## Order of subject ids -/

lemma totalOn_sid (l : List Sid) : TotalOn cmp l :=
  (totalOn_compare (fun s : Sid => s.namespaceCode) l).andThen (totalOn_compare (fun s : Sid => s.name) l)

def before (g : Sid) (l : List Sid) : ℕ := (l.filter fun h => h.cmp g = .lt).length

lemma sid_lt_asymm {a b : Sid} (h : a.cmp b = .lt) : b.cmp a ≠ .lt := by
  have hswap := (totalOn_sid [a, b]).swap a (by simp) b (by simp)
  rw [hswap, h]
  decide

variable {l l' : List Sid} {i : ℕ} {g : Sid} {store : Option IndexStore}

lemma before_getElem (h : l.Pairwise fun a b => a.cmp b = .lt) (hi : l[i]? = some g) :
    before g l = i := by
  induction l generalizing i with
  | nil => simp at hi
  | cons a l ih =>
    obtain ⟨hhead, htail⟩ := pairwise_cons.1 h
    cases i with
    | zero =>
      obtain rfl : a = g := by simpa using hi
      have hnone : ∀ b ∈ a :: l, ¬ (decide (b.cmp a = .lt) = true) := by
        intro b hb
        rw [decide_eq_true_eq]
        rcases mem_cons.1 hb with rfl | hb
        · rw [cmp_self]; decide
        · exact sid_lt_asymm (hhead b hb)
      rw [before, filter_eq_nil_iff.2 hnone, length_nil]
    | succ i =>
      have hi : l[i]? = some g := by simpa using hi
      have hlt : a.cmp g = .lt := hhead g (mem_of_getElem? hi)
      have htail := ih htail hi
      rw [before] at htail
      rw [before, filter_cons_of_pos (by simpa using hlt), length_cons, htail]

lemma sorted_sids (h : l.Nodup) :
    (insertionSortBy cmp l).Pairwise fun a b => a.cmp b = .lt := by
  have hperm := insertionSortBy_perm cmp l
  have hsorted := insertionSortBy_sorted (totalOn_sid l)
  refine (hsorted.and (hperm.nodup_iff.2 h)).imp fun {a b} hab => ?_
  have hne : a.cmp b ≠ .eq := fun he => hab.2 (cmp_eq_iff.1 he)
  cases hc : a.cmp b with
  | lt => rfl
  | eq => exact absurd hc hne
  | gt => exact absurd hc hab.1

lemma before_perm (h : l.Perm l') (g : Sid) : before g l = before g l' := (h.filter _).length_eq

lemma sorted_at_before (hl : l.Nodup) (hg : g ∈ l) :
    (insertionSortBy cmp l)[before g l]? = some g := by
  have hperm := insertionSortBy_perm cmp l
  obtain ⟨_, hk⟩ := mem_iff_getElem?.1 (hperm.mem_iff.2 hg)
  rw [← before_perm hperm, before_getElem (sorted_sids hl) hk, hk]

lemma before_inj (hl : l.Nodup) (hg : g ∈ l) (hh : h ∈ l) (he : before g l = before h l) :
    g = h := by
  have hat := sorted_at_before hl hg
  rw [he, sorted_at_before hl hh] at hat
  exact (Option.some.inj hat).symm

lemma exists_before (hl : l.Nodup) (hg : g ∈ l) (hi : i ≤ before g l) :
    ∃ h ∈ l, before h l = i := by
  have hperm := insertionSortBy_perm cmp l
  obtain ⟨_, -⟩ := List.getElem?_eq_some_iff.1 (sorted_at_before hl hg)
  have hget : (insertionSortBy cmp l)[i]? = some (insertionSortBy cmp l)[i] :=
    List.getElem?_eq_getElem (by omega)
  exact ⟨_, hperm.mem_iff.1 (mem_of_getElem? hget),
    (before_perm hperm _).symm.trans (before_getElem (sorted_sids hl) hget)⟩

/-! ## The numbers of a batch -/

def indexNumber (store : Option IndexStore) (g : Sid) : Option ℕ := (lookUp store g).join

/-- The index knows the code of `g` and has no graph of that name. -/
def unindexed (store : Option IndexStore) (g : Sid) : Bool := decide (lookUp store g = some none)

/-- The largest number that the index gives to a graph of the batch, and at least 1. -/
def largest (store : Option IndexStore) (l : List Sid) : ℕ :=
  (l.filterMap (indexNumber store)).foldl max 1

/-- The index's number, or for the graphs that the index does not have, in their order, the numbers
behind the largest. -/
def number (store : Option IndexStore) (l : List Sid) (g : Sid) : ℕ :=
  (indexNumber store g).getD (largest store l + 1 + before g (l.filter (unindexed store)))

def numbered (store : Option IndexStore) (l : List Sid) : List (ℕ × Sid) :=
  l.filterMap fun g => (indexNumber store g).map (·, g)

def madeUp (maxGId : ℕ) (sorted : List Sid) : List (ℕ × Sid) :=
  sorted.zipIdx.map fun e => ((maxGId + 1 + e.2) % 2 ^ 16, e.1)

lemma foldl_resolveOne (store : Option IndexStore) (l : List Sid) (r : Resolving) :
    l.foldl (resolveOne store) r = ⟨ofList fst snd (numbered store l) r.result,
        (l.filterMap (indexNumber store)).foldl max r.maxGId,
        r.unresolved ++ l.filter (unindexed store)⟩ := by
  induction l generalizing r with
  | nil => simp [numbered, ofList]
  | cons g l ih =>
    rw [foldl_cons, ih]
    cases hg : lookUp store g with
    | none => simp [resolveOne, numbered, indexNumber, unindexed, hg]
    | some o =>
      cases o with
      | none => simp [resolveOne, numbered, indexNumber, unindexed, hg]
      | some => simp [resolveOne, numbered, indexNumber, unindexed, hg, ofList]

/-- All entries of a routing, in the order in which they are made. -/
def entriesOf (store : Option IndexStore) (l : List Sid) : List (ℕ × Sid) :=
  numbered store l ++
    madeUp (largest store l) (insertionSortBy cmp (l.filter (unindexed store)))

lemma deriveGraphRouting_eq (σ : HashOrder) (store : Option IndexStore) (flakes : List Flake) :
    deriveGraphRouting σ store flakes =
      ofList fst snd (entriesOf store (σ.order (graphSidsSet flakes))) ∅ := by
  simp only [deriveGraphRouting, foldl_resolveOne, nil_append, fabricate, entriesOf, madeUp,
    ofList, foldl_append, foldl_map, largest]

lemma largest_perm (h : l.Perm l') : largest store l = largest store l' :=
  (h.filterMap _).foldl_eq' (fun _ _ _ _ _ => max_right_comm _ _ _) 1

lemma number_perm (h : l.Perm l') (g : Sid) : number store l g = number store l' g := by
  rw [number, number, largest_perm h, before_perm (h.filter _)]

lemma le_foldl_max (l : List ℕ) (a : ℕ) : a ≤ l.foldl max a ∧ ∀ x ∈ l, x ≤ l.foldl max a := by
  induction l generalizing a with
  | nil => exact ⟨le_refl a, fun _ hx => absurd hx not_mem_nil⟩
  | cons b l ih =>
    obtain ⟨hge, hall⟩ := ih (max a b)
    refine ⟨(le_max_left a b).trans hge, fun x hx => ?_⟩
    rcases mem_cons.1 hx with rfl | hx
    · exact (le_max_right a x).trans hge
    · exact hall x hx

lemma le_largest (hg : g ∈ l) (hi : indexNumber store g = some i) : i ≤ largest store l :=
  (le_foldl_max _ 1).2 i (mem_filterMap.2 ⟨g, hg, hi⟩)

lemma indexNumber_lt (h : indexNumber store g = some i) : i < 2 ^ 16 := by
  cases store with
  | none => cases h
  | some s =>
    obtain ⟨iri, -, hiri⟩ := map_eq_some_iff.1 (join_eq_some_iff.1 h)
    exact s.numbers iri i hiri

lemma foldl_max_lt {l : List ℕ} {a n : ℕ} (ha : a < n) (hl : ∀ x ∈ l, x < n) :
    l.foldl max a < n := by
  induction l generalizing a with
  | nil => exact ha
  | cons b l ih => exact ih (max_lt ha (hl b mem_cons_self)) fun x hx => hl x (mem_cons_of_mem _ hx)

lemma largest_lt (store : Option IndexStore) (l : List Sid) : largest store l < 2 ^ 16 := by
  refine foldl_max_lt (by decide) fun x hx => ?_
  obtain ⟨_, -, hg⟩ := mem_filterMap.1 hx
  exact indexNumber_lt hg

lemma number_of_indexed (h : indexNumber store g = some i) : number store l g = i := by
  rw [number, h, getD_some]

lemma number_of_unindexed (h : unindexed store g = true) :
    number store l g = largest store l + 1 + before g (l.filter (unindexed store)) := by
  have hnone : indexNumber store g = none := by rw [indexNumber, of_decide_eq_true h, join_some]
  rw [number, hnone, getD_none]

lemma known_cases (h : lookUp store g ≠ none) :
    (∃ i, indexNumber store g = some i) ∨ unindexed store g = true := by
  rw [indexNumber, unindexed]
  cases hg : lookUp store g with
  | none => exact absurd hg h
  | some o =>
    cases o with
    | none => exact .inr (by simp)
    | some i => exact .inl ⟨i, rfl⟩

lemma known_of_indexNumber (h : indexNumber store g = some i) : lookUp store g ≠ none := by
  intro hnone
  rw [indexNumber, hnone] at h
  cases h

lemma known_of_unindexed (h : unindexed store g = true) : lookUp store g ≠ none := by
  rw [of_decide_eq_true h]
  simp

lemma mem_madeUp (hl : l.Nodup) :
    (i, g) ∈ madeUp (largest store l) (insertionSortBy cmp (l.filter (unindexed store))) ↔
      g ∈ l ∧ unindexed store g = true ∧ i = number store l g % 2 ^ 16 := by
  have hnodup : (l.filter (unindexed store)).Nodup := hl.filter _
  have hperm := insertionSortBy_perm cmp (l.filter (unindexed store))
  have hbefore : ∀ {k : ℕ} {g : Sid},
      (insertionSortBy cmp (l.filter (unindexed store)))[k]? = some g →
        before g (l.filter (unindexed store)) = k :=
    fun hk => (before_perm hperm _).symm.trans (before_getElem (sorted_sids hnodup) hk)
  constructor
  · intro h
    obtain ⟨⟨_, k⟩, hmem, he⟩ := mem_map.1 h
    obtain ⟨rfl, rfl⟩ := mk.inj he
    have hk := mem_zipIdx_iff_getElem?.1 hmem
    obtain ⟨hgl, hun⟩ := mem_filter.1 (hperm.mem_iff.1 (mem_of_getElem? hk))
    exact ⟨hgl, hun, by rw [number_of_unindexed hun, hbefore hk]⟩
  · rintro ⟨hgl, hun, rfl⟩
    have hmem := hperm.mem_iff.2 (mem_filter.2 ⟨hgl, hun⟩)
    obtain ⟨k, hk⟩ := mem_iff_getElem?.1 hmem
    refine mem_map.2 ⟨(g, k), mem_zipIdx_iff_getElem?.2 hk, ?_⟩
    rw [number_of_unindexed hun, hbefore hk]

/-- **The entries of a routing**: each known graph of the batch with its number. -/
lemma mem_entriesOf (hl : l.Nodup) :
    (i, g) ∈ entriesOf store l ↔ g ∈ l ∧ lookUp store g ≠ none ∧ i = number store l g % 2 ^ 16 := by
  rw [entriesOf, mem_append, mem_madeUp hl]
  constructor
  · rintro (h | ⟨hgl, hun, hi⟩)
    · obtain ⟨_, hmem, he⟩ := mem_filterMap.1 h
      obtain ⟨j, hj, he⟩ := map_eq_some_iff.1 he
      obtain ⟨rfl, rfl⟩ := mk.inj he
      refine ⟨hmem, known_of_indexNumber hj, ?_⟩
      rw [number_of_indexed hj, Nat.mod_eq_of_lt (indexNumber_lt hj)]
    · exact ⟨hgl, known_of_unindexed hun, hi⟩
  · rintro ⟨hgl, hknown, rfl⟩
    rcases known_cases hknown with ⟨j, hj⟩ | hun
    · refine .inl (mem_filterMap.2 ⟨g, hgl, ?_⟩)
      rw [hj, number_of_indexed hj, Nat.mod_eq_of_lt (indexNumber_lt hj), map_some]
    · exact .inr ⟨hgl, hun, rfl⟩

/-! ## From graphs to numbers -/

lemma lookup_reverseGraphLookup
    (hm : ∀ i j g, m.lookup i = some g → m.lookup j = some g → i = j) (g : Sid) (i : ℕ) :
    (reverseGraphLookup m).lookup g = some i ↔ m.lookup i = some g := by
  have hback : ∀ j, (reverseGraphLookup m).lookup g = some j → m.lookup j = some g := by
    intro j hj
    rcases mem_of_lookup_ofList (k := fun e : Sigma fun _ : ℕ => Sid => e.2)
      (v := fun e => e.1) hj with hj | ⟨⟨j', g'⟩, hmem, rfl, rfl⟩
    · cases hj
    · exact lookup_eq_some_iff.2 hmem
  refine ⟨hback i, fun hi => ?_⟩
  obtain ⟨e, -, -, he⟩ := exists_lookup_ofList (k := fun e : Sigma fun _ : ℕ => Sid => e.2)
    (v := fun e => e.1) ∅ ⟨⟨i, g⟩, lookup_eq_some_iff.1 hi, rfl⟩
  have hij : e.1 = i := hm _ _ g (hback e.1 he) hi
  rw [← hij]
  exact he

variable {Cid : Type} {b : Batch Cid}

def Batch.graphs (b : Batch Cid) : List Sid := graphSidsSet b.allPushFlakes

def Batch.graphId (b : Batch Cid) (g : Sid) : Option ℕ := (reverseGraphLookup b.routing).lookup g

/-- The number of a graph of the batch, as it follows from the index. -/
def Batch.number (b : Batch Cid) (g : Sid) : ℕ := Push.number b.st.store b.graphs g

lemma graphs_nodup (b : Batch Cid) : b.graphs.Nodup := nodup_dedup _

lemma mem_of_routing (h : b.routing.lookup i = some g) :
    g ∈ b.graphs ∧ lookUp b.st.store g ≠ none ∧ i = b.number g % 2 ^ 16 := by
  have hperm := b.order.perm b.graphs
  rw [Batch.routing, deriveGraphRouting_eq] at h
  rcases mem_of_lookup_ofList h with h | ⟨e, hmem, rfl, rfl⟩
  · cases h
  · obtain ⟨hg, hknown, hi⟩ := (mem_entriesOf (hperm.nodup_iff.2 (graphs_nodup b))).1 hmem
    exact ⟨hperm.mem_iff.1 hg, hknown, by rw [hi, number_perm hperm]; rfl⟩

lemma graphId_iff : b.graphId g = some i ↔ b.routing.lookup i = some g := by
  refine lookup_reverseGraphLookup (fun i j g hi hj => ?_) g i
  rw [(mem_of_routing hi).2.2, (mem_of_routing hj).2.2]

/-- **Where a number comes from.** -/
lemma mem_of_graphId (h : b.graphId g = some i) :
    g ∈ b.graphs ∧ lookUp b.st.store g ≠ none ∧ i = b.number g % 2 ^ 16 :=
  mem_of_routing (graphId_iff.1 h)

lemma eq_of_graphId (hg : b.graphId g = some i) (hh : b.graphId h = some i) : g = h :=
  Option.some.inj ((graphId_iff.1 hg).symm.trans (graphId_iff.1 hh))

/-- **A known graph gets its number** if no other graph of the batch has the same. -/
lemma graphId_of_distinct (hg : g ∈ b.graphs) (hknown : lookUp b.st.store g ≠ none)
    (hdistinct : ∀ h ∈ b.graphs, b.number h % 2 ^ 16 = b.number g % 2 ^ 16 → h = g) :
    b.graphId g = some (b.number g % 2 ^ 16) := by
  have hperm := b.order.perm b.graphs
  have hnodup := hperm.nodup_iff.2 (graphs_nodup b)
  have hmem : (b.number g % 2 ^ 16, g) ∈ entriesOf b.st.store (b.order.order b.graphs) :=
    (mem_entriesOf hnodup).2 ⟨hperm.mem_iff.2 hg, hknown, by rw [number_perm hperm]; rfl⟩
  obtain ⟨⟨_, h⟩, _, _, hlookup⟩ := exists_lookup_ofList (k := fst) (v := snd) ∅
    ⟨_, hmem, rfl⟩
  have hrouting : b.routing.lookup (b.number g % 2 ^ 16) = some h := by
    rw [Batch.routing, deriveGraphRouting_eq]
    exact hlookup
  obtain ⟨hh, -, hnum⟩ := mem_of_routing hrouting
  obtain rfl := hdistinct h hh hnum.symm
  exact graphId_iff.2 hrouting

end

/-! ## What push validation sees -/

open Lib Namespaces Ledger List Option Except Batch Novelty

variable {Cid : Type}

/-! ## What is claimed of a batch -/

namespace Batch

variable (b : Batch Cid)

def Registered (g : Sid) (gId : ℕ) : Prop := Push.Registered b.st.snapshot b.st.registry g gId

def New (g : Sid) : Prop := ∀ gId, ¬ b.Registered g gId

/-- Among all operations of graph `g` up to time `toT` the one that decides the target's fact
asserts it. -/
def AssertedIn (overlay : Novelty) (g : Sid) (target : Flake) (toT : ℤ) : Prop :=
  ∃ i, ∃ x ∈ overlay.flakes i, x.g = some g ∧ sameFact x target = true ∧ x.op = true ∧ x.t ≤ toT ∧
    ∀ j, ∀ y ∈ overlay.flakes j, y.g = some g → sameFact y target = true → y.t ≤ toT →
      y.t < x.t ∨ y.t = x.t ∧ y.op = true

/-- **A batch sees its graphs.** The numbers are those of the registry or new ones; under them the
index has no other graph; and in every state of the validation each graph of the batch has the flakes
under its number and no others, retractions of asserted facts pass, and the configuration is not
mixed with other graphs. -/
structure SeesItsGraphs : Prop where
  registered : ∀ g ∈ b.graphs, ∀ i, b.Registered g i → b.graphId g = some i
  fresh : ∀ g ∈ b.graphs, b.New g → ∃ i, b.graphId g = some i ∧ FIRST_USER_GRAPH_ID ≤ i ∧
    ∀ iri, (i, iri) ∉ b.st.registry.iterEntries
  distinct : ∀ g ∈ b.graphs, ∀ h ∈ b.graphs, b.New g → b.New h → b.graphId g = b.graphId h → g = h
  readsOwn : ∀ g ∈ b.graphs, ∀ i, b.graphId g = some i → ∀ s, b.st.store = some s →
    ∀ iri, s.graphIdForIri iri = some i → s.sidToIri g = some iri
  writesOwn : ∀ n e, b.validated n = .ok e → ∀ g ∈ b.graphs, ∀ i, b.graphId g = some i →
    ∀ j, ∀ f ∈ e.overlay.flakes j, f.g = some g ↔ j = i
  defaultOwn : ∀ n e, b.validated n = .ok e →
    ∀ j, ∀ f ∈ e.overlay.flakes j, f.g = none ↔ j = DEFAULT_GRAPH_ID
  retractions : ∀ n e, b.validated n = .ok e → ∀ c, b.commits[n]? = some c →
    ∀ f ∈ c.flakes, ∀ g, f.op = false → f.g = some g → indexNumber b.st.store g = none →
      AssertedIn e.overlay g f (b.currentT e.overlay) →
        isCurrentlyAsserted b.checks.scan b.st e.overlay (b.currentT e.overlay) f b.reverseGraph =
          .ok true
  config : ∀ n e, b.validated n = .ok e → ∀ f ∈ e.overlay.flakes CONFIG_GRAPH_ID,
    ∃ g, f.g = some g ∧ b.Registered g CONFIG_GRAPH_ID

/-- The index knows the codes of the batch's graphs and has no name twice among them; the numbers
that follow from the index are the registered ones, or free ones for new graphs; and the index has no
other graph under them. -/
structure NumbersFit : Prop where
  known : ∀ g ∈ b.graphs, lookUp b.st.store g ≠ none
  apart : ∀ g ∈ b.graphs, ∀ h ∈ b.graphs, ∀ i, indexNumber b.st.store g = some i →
    indexNumber b.st.store h = some i → g = h
  registered : ∀ g ∈ b.graphs, ∀ i, b.Registered g i → b.number g = i
  fresh : ∀ g ∈ b.graphs, b.New g → FIRST_USER_GRAPH_ID ≤ b.number g ∧ b.number g < 2 ^ 16 ∧
    ∀ iri, (b.number g, iri) ∉ b.st.registry.iterEntries
  own : ∀ g ∈ b.graphs, ∀ s, b.st.store = some s → ∀ iri, s.graphIdForIri iri = some (b.number g) →
    s.sidToIri g = some iri

end Batch

variable {b : Batch Cid}

/-! ## The registry -/

variable {g : Sid} {i j : ℕ} {f : Flake}

lemma registered_lt (h : b.Registered g i) : i ≠ 0 ∧ i < 2 ^ 16 := by
  obtain ⟨hne, _, hmem, -⟩ := h
  exact ⟨hne, b.st.numbers _ hmem⟩

lemma mem_iterEntries {r : GraphRegistry} {iri : String} (h : (i, iri) ∈ r.iterEntries) :
    r.idToIri[i]? = some (some iri) := by
  obtain ⟨⟨_, _⟩, hmem, he⟩ := mem_filterMap.1 h
  obtain ⟨_, rfl, hx⟩ := map_eq_some_iff.1 he
  obtain ⟨rfl, rfl⟩ := Prod.mk.inj hx
  exact mem_zipIdx_iff_getElem?.1 hmem

lemma eq_of_registered {h : Sid} (hg : b.Registered g i) (hh : b.Registered h i) : g = h := by
  obtain ⟨-, iri, hmem, henc⟩ := hg
  obtain ⟨-, iri', hmem', henc'⟩ := hh
  have hiri := (mem_iterEntries hmem).symm.trans (mem_iterEntries hmem')
  obtain rfl : iri = iri' := some.inj (some.inj hiri)
  exact some.inj (henc.symm.trans henc')

/-! ## Numbers -/

lemma Batch.NumbersFit.lt (h : b.NumbersFit) (hg : g ∈ b.graphs) :
    b.number g ≠ 0 ∧ b.number g < 2 ^ 16 := by
  by_cases hnew : b.New g
  · obtain ⟨hge, hlt, -⟩ := h.fresh g hg hnew
    have hge : 3 ≤ b.number g := hge
    exact ⟨by omega, hlt⟩
  · obtain ⟨i, hi⟩ := not_forall_not.1 hnew
    rw [h.registered g hg i hi]
    exact registered_lt hi

/-- Graphs that the index does not have come behind those it has, each with its own number. -/
lemma number_inj (hknown : ∀ g ∈ b.graphs, lookUp b.st.store g ≠ none)
    (hapart : ∀ g ∈ b.graphs, ∀ h ∈ b.graphs, ∀ i, indexNumber b.st.store g = some i →
      indexNumber b.st.store h = some i → g = h) (hg : g ∈ b.graphs) (hk : k ∈ b.graphs)
    (he : b.number g = b.number k) : g = k := by
  rw [Batch.number, Batch.number] at he
  rcases known_cases (hknown g hg) with ⟨i, hi⟩ | hug <;>
    rcases known_cases (hknown k hk) with ⟨j, hj⟩ | huk
  · rw [number_of_indexed hi, number_of_indexed hj] at he
    exact hapart g hg k hk j (he ▸ hi) hj
  · rw [number_of_indexed hi, number_of_unindexed huk] at he
    have hle := le_largest hg hi
    omega
  · rw [number_of_indexed hj, number_of_unindexed hug] at he
    have hle := le_largest hk hj
    omega
  · rw [number_of_unindexed hug, number_of_unindexed huk] at he
    exact before_inj ((graphs_nodup b).filter _) (mem_filter.2 ⟨hg, hug⟩)
      (mem_filter.2 ⟨hk, huk⟩) (by omega)

/-- **Numbers that fit are the numbers given.** -/
lemma Batch.NumbersFit.graphId (h : b.NumbersFit) (hg : g ∈ b.graphs) :
    b.graphId g = some (b.number g) := by
  have hmod : ∀ k ∈ b.graphs, b.number k % 2 ^ 16 = b.number k :=
    fun k hk => Nat.mod_eq_of_lt (h.lt hk).2
  rw [graphId_of_distinct hg (h.known g hg) fun k hk he => ?_, hmod g hg]
  rw [hmod k hk, hmod g hg] at he
  exact number_inj h.known h.apart hk hg he

/-! ## Flakes of the evolving novelty -/

lemma mem_pushSegment {batch} :
    f ∈ (pushSegment segments batch).flatten ↔ f ∈ segments.flatten ∨ f ∈ batch := by
  rw [pushSegment]
  cases batch with
  | nil | cons => simp

/-- **Where the flakes of novelty come from**: they were there, or the commit has them and they are
routed to this graph. -/
lemma mem_applyCommit {overlay overlay' : Novelty} {flakes : List Flake} {t : ℤ}
    {reverse : KeyedMap Sid ℕ} (h : overlay.applyCommit flakes t reverse = .ok overlay')
    (hf : f ∈ overlay'.flakes j) :
    f ∈ overlay.flakes j ∨ f ∈ flakes ∧ resolveFlakeGId f reverse = .ok j := by
  rw [applyCommit] at h
  split at h
  · obtain rfl := ok.inj h
    exact .inl hf
  · split at h
    · cases h
    obtain ⟨routed, hrouted, h⟩ := bind_eq_ok.1 h
    obtain ⟨_, -, h⟩ := bind_eq_ok.1 h
    obtain rfl := ok.inj h
    refine (mem_pushSegment.1 hf).imp_right fun hf => ?_
    obtain ⟨⟨_, j'⟩, hmem, rfl⟩ := mem_map.1 hf
    obtain ⟨hkept, hj⟩ := mem_filter.1 hmem
    obtain rfl : j' = j := of_decide_eq_true hj
    obtain ⟨x, hx, he⟩ := forall₂_mem_right (mapM_ok_iff.1 hrouted) (mem_of_mem_filter hkept)
    rw [routeFlake] at he
    cases hi : resolveFlakeGId x reverse with
    | error => rw [hi] at he; cases he
    | ok =>
      rw [hi] at he
      obtain ⟨rfl, rfl⟩ := Prod.mk.inj (ok.inj he)
      exact ⟨hx, hi⟩

/-- Where a flake belongs while a batch is validated. -/
inductive Home (b : Batch Cid) (f : Flake) : ℕ → Prop where
  | default (hf : f.g = none) : Home b f DEFAULT_GRAPH_ID
  | pushed {g : Sid} (hf : f.g = some g) (hg : g ∈ b.graphs) : Home b f (b.number g)
  | other {g : Sid} {j : ℕ} (hf : f.g = some g) (hg : g ∉ b.graphs) (hreg : b.Registered g j) :
    Home b f j
  | txnMeta {g : Sid} (hf : f.g = some g) (hg : g ∉ b.graphs) (htxn : txnMetaSid b.st.snapshot b.st.ledgerId = some g) :
    Home b f TXN_META_GRAPH_ID

lemma mem_graphs (hc : c ∈ b.commits) (hf : f ∈ c.flakes) (hg : f.g = some g) : g ∈ b.graphs :=
  mem_dedup.2 (mem_filterMap.2 ⟨f, mem_flatMap.2 ⟨c, hc, hf⟩, hg⟩)

lemma lookup_orInsert (m : KeyedMap Sid ℕ) (k a : Sid) (v : ℕ) :
    (orInsert m k v).lookup a = (m.lookup a).or (if a = k then some v else none) := by
  rw [orInsert]
  cases hk : m.lookup k with
  | some =>
    rw [isSome_some, if_pos rfl]
    by_cases ha : a = k
    · rw [ha, hk, some_or]
    · rw [if_neg ha, or_none]
  | none =>
    rw [if_neg (by simp), KeyedMap.lookup_insert_ite]
    by_cases ha : a = k
    · rw [if_pos ha, ha, hk, if_pos rfl, none_or]
    · rw [if_neg ha, if_neg ha, or_none]

lemma lookup_reverseGraph (g : Sid) :
    b.reverseGraph.lookup g =
      (b.graphId g).or (if txnMetaSid b.st.snapshot b.st.ledgerId = some g then
        some TXN_META_GRAPH_ID else none) := by
  rw [reverseGraph]
  cases htxn : txnMetaSid b.st.snapshot b.st.ledgerId with
  | none => simp [graphId]
  | some => simp [lookup_orInsert, graphId, eq_comm]

lemma Batch.NumbersFit.lookup (h : b.NumbersFit) (hg : g ∈ b.graphs) :
    b.reverseGraph.lookup g = some (b.number g) := by
  rw [lookup_reverseGraph, h.graphId hg, some_or]

lemma lookup_of_not_mem (hg : g ∉ b.graphs) (hj : b.reverseGraph.lookup g = some j) :
    txnMetaSid b.st.snapshot b.st.ledgerId = some g ∧ j = TXN_META_GRAPH_ID := by
  have hnone : b.graphId g = none := by
    cases hi : b.graphId g with
    | none => rfl
    | some => exact absurd (mem_of_graphId hi).1 hg
  rw [lookup_reverseGraph, hnone, none_or] at hj
  split at hj
  · rename_i htxn
    exact ⟨htxn, (some.inj hj).symm⟩
  · cases hj

/-- **What is routed goes where it belongs.** -/
lemma Batch.NumbersFit.home (h : b.NumbersFit)
    (hj : resolveFlakeGId f b.reverseGraph = .ok j) : Home b f j := by
  rw [resolveFlakeGId] at hj
  cases hg : f.g with
  | none =>
    rw [hg] at hj
    obtain rfl := ok.inj hj
    exact .default hg
  | some g =>
    simp only [hg] at hj
    cases hlookup : b.reverseGraph.lookup g with
    | none => rw [hlookup] at hj; cases hj
    | some =>
      rw [hlookup] at hj
      obtain rfl := ok.inj hj
      by_cases hmem : g ∈ b.graphs
      · rw [h.lookup hmem] at hlookup
        obtain rfl := some.inj hlookup
        exact .pushed hg hmem
      · obtain ⟨htxn, rfl⟩ := lookup_of_not_mem hmem hlookup
        exact .txnMeta hg hmem htxn

lemma Batch.NumbersFit.home_base (h : b.NumbersFit) (hst : b.st.Routed) (hf : f ∈ b.st.novelty.flakes j) :
    Home b f j := by
  rcases hst.flakes j f hf with ⟨hg, rfl⟩ | ⟨g, hg, hreg⟩
  · exact .default hg
  by_cases hmem : g ∈ b.graphs
  · rw [← h.registered g hmem j hreg]
    exact .pushed hg hmem
  · exact .other hg hmem hreg

lemma Batch.NumbersFit.home_validateCommit (h : b.NumbersFit) {e e' : Evolving}
    {c : Commit Cid Flake} (hok : b.validateCommit e c = .ok e')
    (hhome : ∀ j, ∀ f ∈ e.overlay.flakes j, Home b f j) :
    ∀ j, ∀ f ∈ e'.overlay.flakes j, Home b f j := by
  obtain ⟨_, -, hok⟩ := bind_eq_ok.1 hok
  obtain ⟨snapshot, -, hok⟩ := bind_eq_ok.1 hok
  obtain ⟨_, -, hok⟩ := bind_eq_ok.1 hok
  obtain ⟨_, -, hok⟩ := bind_eq_ok.1 hok
  obtain ⟨_, happly, hok⟩ := bind_eq_ok.1 hok
  obtain rfl := ok.inj hok
  rw [applyFlakes] at happly
  cases hcommit : e.overlay.applyCommit (b.allFlakes snapshot c) c.t b.reverseGraph with
  | error => rw [hcommit] at happly; cases happly
  | ok =>
    rw [hcommit] at happly
    obtain rfl := ok.inj happly
    intro j f hf
    rcases mem_applyCommit hcommit hf with hf | ⟨-, hj⟩
    · exact hhome j f hf
    · exact h.home hj

/-- **In every state of the validation flakes are where they belong.** -/
lemma Batch.NumbersFit.home_validated (h : b.NumbersFit) (hst : b.st.Routed)
    (hok : b.validated n = .ok e) : ∀ j, ∀ f ∈ e.overlay.flakes j, Home b f j := by
  have hgo : ∀ (commits : List (Commit Cid Flake)) (start : Evolving),
      (∀ j, ∀ f ∈ start.overlay.flakes j, Home b f j) →
      commits.foldlM b.validateCommit start = .ok e →
      ∀ j, ∀ f ∈ e.overlay.flakes j, Home b f j := by
    intro commits
    induction commits with
    | nil =>
      intro start hstart hend
      obtain rfl := ok.inj hend
      exact hstart
    | cons _ _ ih =>
      intro start hstart hend
      rw [foldlM_cons] at hend
      obtain ⟨next, hnext, hend⟩ := bind_eq_ok.1 hend
      exact ih next (h.home_validateCommit hnext hstart) hend
  exact hgo _ _ (fun _ _ => h.home_base hst) hok

lemma Home.eq_number (h : Home b f j) (hg : g ∈ b.graphs) (hf : f.g = some g) : j = b.number g := by
  cases h with
  | default hf' => rw [hf'] at hf; cases hf
  | pushed hf' =>
    rw [hf'] at hf
    rw [some.inj hf]
  | other hf' hg' | txnMeta hf' hg' =>
    rw [hf'] at hf
    exact absurd (some.inj hf ▸ hg) hg'

/-- **Under the number of a graph of the batch there are its flakes only.** -/
lemma Batch.NumbersFit.graph_of_home (h : b.NumbersFit) (hst : b.st.Routed) (hhome : Home b f j)
    (hg : g ∈ b.graphs) (hj : j = b.number g) : f.g = some g := by
  cases hhome with
  | default => exact absurd hj.symm (h.lt hg).1
  | pushed hf hk => rw [hf, number_inj h.known h.apart hk hg hj]
  | @other _ _ _ hk hreg =>
    exfalso
    by_cases hnew : b.New g
    · obtain ⟨-, iri, hmem, -⟩ := hreg
      exact (h.fresh g hg hnew).2.2 iri (hj ▸ hmem)
    · obtain ⟨i, hi⟩ := not_forall_not.1 hnew
      have hij : j = i := hj.trans (h.registered g hg i hi)
      exact hk (eq_of_registered (hij ▸ hreg) hi ▸ hg)
  | @txnMeta _ _ hk htxn =>
    exfalso
    by_cases hnew : b.New g
    · have hge : 3 ≤ b.number g := (h.fresh g hg hnew).1
      have hone : 1 = b.number g := hj
      omega
    · obtain ⟨i, hi⟩ := not_forall_not.1 hnew
      have hone : TXN_META_GRAPH_ID = i := hj.trans (h.registered g hg i hi)
      have htxn' : txnMetaSid b.st.snapshot b.st.ledgerId = some g := hst.txnMeta g (hone ▸ hi)
      rw [htxn] at htxn'
      exact hk (some.inj htxn' ▸ hg)

lemma Batch.NumbersFit.default_iff (h : b.NumbersFit) (hhome : Home b f j) :
    f.g = none ↔ j = DEFAULT_GRAPH_ID := by
  cases hhome with
  | default hf => exact ⟨fun _ => rfl, fun _ => hf⟩
  | pushed hf hg => simp only [hf, reduceCtorEq, false_iff]; exact (h.lt hg).1
  | other hf _ hreg => simp only [hf, reduceCtorEq, false_iff]; exact (registered_lt hreg).1
  | txnMeta hf => simp only [hf, reduceCtorEq, false_iff]; exact Nat.one_ne_zero

/-- **The configuration holds its own flakes only.** -/
lemma Batch.NumbersFit.config_of_home (h : b.NumbersFit) (hhome : Home b f j)
    (hj : j = CONFIG_GRAPH_ID) : ∃ g, f.g = some g ∧ b.Registered g CONFIG_GRAPH_ID := by
  cases hhome with
  | default | txnMeta => cases hj
  | @pushed g hf hg =>
    refine ⟨g, hf, ?_⟩
    by_cases hnew : b.New g
    · have hge : 3 ≤ b.number g := (h.fresh g hg hnew).1
      have htwo : b.number g = 2 := hj
      omega
    · obtain ⟨i, hi⟩ := not_forall_not.1 hnew
      exact ((h.registered g hg i hi).symm.trans hj) ▸ hi
  | @other g _ hf _ hreg => exact ⟨g, hf, hj ▸ hreg⟩

/-! ## Retractions -/

lemma foldl_latest (target : Flake) {found : List Flake} (hop : ∀ f ∈ found, f.op = true)
    (last : Option (ℤ × Bool)) (hlast : ∀ e ∈ last, e.2 = true)
    (hsome : last ≠ none ∨ ∃ f ∈ found, f.g = target.g ∧ f.m = target.m) :
    ∃ t, found.foldl (latest target) last = some (t, true) := by
  induction found generalizing last with
  | nil =>
    have hne := hsome.resolve_right fun ⟨_, hf, _⟩ => absurd hf not_mem_nil
    obtain ⟨⟨t, op⟩, ho⟩ := ne_none_iff_exists'.1 hne
    have hop : op = true := hlast (t, op) ho
    exact ⟨t, by rw [foldl_nil, ho, hop]⟩
  | cons f found ih =>
    have hrest : ∀ x ∈ found, x.op = true := fun x hx => hop x (mem_cons_of_mem _ hx)
    rw [foldl_cons]
    by_cases hskip : f.g ≠ target.g ∨ f.m ≠ target.m
    · have hstep : latest target last f = last := by rw [latest.eq_def, if_pos hskip]
      rw [hstep]
      refine ih hrest last hlast (hsome.imp_right ?_)
      rintro ⟨x, hx, hg, hm⟩
      rcases mem_cons.1 hx with rfl | hx
      · exact (hskip.elim (absurd hg) (absurd hm))
      · exact ⟨x, hx, hg, hm⟩
    · have hstep : ∃ t, latest target last f = some (t, true) := by
        rw [latest.eq_def, if_neg hskip]
        cases last with
        | none => exact ⟨f.t, by rw [hop f mem_cons_self]⟩
        | some e =>
          have he : e.2 = true := hlast e rfl
          by_cases hlt : f.t > e.1
          · exact ⟨f.t, by simp [hlt, hop f mem_cons_self]⟩
          · exact ⟨e.1, by simp [hlt, he]⟩
      obtain ⟨t, ht⟩ := hstep
      rw [ht]
      exact ih hrest _ (fun e he => by cases he; rfl) (.inl (by simp))

lemma matchesParts_of_sameFact (h : sameFact w target = true) : matchesParts target w = true := by
  obtain ⟨hs, hp, ho, -, -⟩ := sameFact_true_iff.1 h
  simp [matchesParts, hs, hp, ho]

lemma flakeMatches_of_sameFact (h : sameFact w target = true) :
    flakeMatchesRangeEq target w = true := by
  obtain ⟨-, -, -, hdt, -⟩ := sameFact_true_iff.1 h
  simp [flakeMatchesRangeEq, matchesParts_of_sameFact h, dtCompatible, hdt]

/-- **A retraction of an asserted fact passes** in a graph that the index does not have. -/
lemma Batch.NumbersFit.isCurrentlyAsserted_ok (h : b.NumbersFit) (hst : b.st.Routed) {overlay : Novelty}
    (hhome : ∀ j, ∀ f ∈ overlay.flakes j, Home b f j) (hf : f.g = some g) (hg : g ∈ b.graphs)
    (hindex : indexNumber b.st.store g = none) {toT : ℤ} (hasserted : AssertedIn overlay g f toT) :
    isCurrentlyAsserted b.checks.scan b.st overlay toT f b.reverseGraph = .ok true := by
  obtain ⟨i, x, hx, hxg, hsame, hop, hxt, hlast⟩ := hasserted
  obtain rfl := (hhome i x hx).eq_number hg hxg
  have htarget : targetGraphId b.reverseGraph f = .ok (b.number g) := by
    simp only [targetGraphId, hf, h.lookup hg]
  have hown : ∀ y ∈ overlay.flakes (b.number g), y.g = some g :=
    fun y hy => h.graph_of_home hst (hhome _ y hy) hg rfl
  -- both ways to read a graph without rows leave an assert of the fact
  have hread : ∃ found, rangeWithOverlay b.checks.scan b.st (b.number g) overlay f toT = .ok found ∧
      (∀ w ∈ found, w.op = true ∧ w ∈ overlay.flakes (b.number g)) ∧
      ∃ w ∈ found, sameFact w f = true := by
    rw [rangeWithOverlay]
    cases hstore : b.st.store with
    | none =>
      refine ⟨_, if_pos (hst.genesis hstore), fun w hw => ?_, ?_⟩
      · obtain ⟨hmem, hop⟩ := mem_of_mem_resolveCurrentFlakes (mem_of_mem_filter hw)
        exact ⟨hop, mem_of_mem_filter hmem⟩
      · obtain ⟨w, hw, hwsame⟩ := exists_mem_resolveCurrentFlakes .spot
          (mem_filter.2 ⟨hx, decide_eq_true hxt⟩) hsame fun y hy hys =>
            hlast _ y (mem_of_mem_filter hy) (hown y (mem_of_mem_filter hy)) hys
              (of_decide_eq_true (mem_filter.1 hy).2)
        exact ⟨w, mem_filter.2 ⟨hw, flakeMatches_of_sameFact hwsame⟩, hwsame⟩
    | some s =>
      have hnot : b.number g ∉ s.graphIndexes := by
        intro hmem
        rcases s.named _ hmem with hzero | ⟨iri, hiri⟩
        · exact (h.lt hg).1 hzero
        have hsid := h.own g hg s hstore iri hiri
        have hnum : indexNumber (some s) g = some (b.number g) := by
          rw [indexNumber, lookUp, hsid, map_some, join_some]
          exact hiri
        rw [hstore, hnum] at hindex
        cases hindex
      refine ⟨_, if_neg hnot, fun w hw => ?_, ?_⟩
      · obtain ⟨hmem, hop⟩ := mem_of_mem_resolveCurrentFlakes hw
        exact ⟨hop, mem_of_mem_filter hmem⟩
      · refine exists_mem_resolveCurrentFlakes _ (mem_filter.2 ⟨hx, ?_⟩) hsame fun y hy hys => ?_
        · exact decide_eq_true ⟨hxt, matchesParts_of_sameFact hsame⟩
        · exact hlast _ y (mem_of_mem_filter hy) (hown y (mem_of_mem_filter hy)) hys
            (of_decide_eq_true (mem_filter.1 hy).2).1
  obtain ⟨found, hfound, hall, w, hw, hwsame⟩ := hread
  have hwm : w.m = f.m := (sameFact_true_iff.1 hwsame).2.2.2.2
  have hwg : w.g = f.g := by rw [hf, hown w (hall w hw).2]
  obtain ⟨_, ht⟩ := foldl_latest f (fun v hv => (hall v hv).1) none (fun _ he => by cases he)
    (.inr ⟨w, hw, hwg, hwm⟩)
  rw [isCurrentlyAsserted, bind_of_ok htarget, bind_of_ok hfound, ht]
  rfl

/-! ## The claim -/

lemma Batch.SeesItsGraphs.exists_graphId (h : b.SeesItsGraphs) (hg : g ∈ b.graphs) :
    ∃ i, b.graphId g = some i ∧ i ≠ 0 := by
  by_cases hnew : b.New g
  · obtain ⟨i, hi, hge, -⟩ := h.fresh g hg hnew
    have hge : 3 ≤ i := hge
    exact ⟨i, hi, by omega⟩
  · obtain ⟨i, hi⟩ := not_forall_not.1 hnew
    exact ⟨i, h.registered g hg i hi, (registered_lt hi).1⟩

lemma Batch.SeesItsGraphs.number_lt (h : b.SeesItsGraphs) (hg : g ∈ b.graphs) :
    b.number g < 2 ^ 16 := by
  by_contra hge
  obtain ⟨i, hi, -⟩ := h.exists_graphId hg
  rcases known_cases (mem_of_graphId hi).2.1 with ⟨j, hj⟩ | hun
  · rw [number, number_of_indexed hj] at hge
    exact hge (indexNumber_lt hj)
  · rw [number, number_of_unindexed hun] at hge
    have hlargest := largest_lt b.st.store b.graphs
    obtain ⟨k, hk, hbefore⟩ := exists_before ((graphs_nodup b).filter (unindexed b.st.store))
      (mem_filter.2 ⟨hg, hun⟩) (i := 2 ^ 16 - largest b.st.store b.graphs - 1) (by omega)
    obtain ⟨hkg, hkun⟩ := mem_filter.1 hk
    obtain ⟨j, hj, hne⟩ := h.exists_graphId hkg
    have hnum : b.number k = 2 ^ 16 := by
      rw [number, number_of_unindexed hkun, hbefore]
      omega
    rw [(mem_of_graphId hj).2.2, hnum, Nat.mod_self] at hne
    exact hne rfl

lemma Batch.SeesItsGraphs.graphId_eq (h : b.SeesItsGraphs) (hg : g ∈ b.graphs) :
    b.graphId g = some (b.number g) := by
  obtain ⟨_, hi, -⟩ := h.exists_graphId hg
  rw [hi, (mem_of_graphId hi).2.2, Nat.mod_eq_of_lt (h.number_lt hg)]

lemma Batch.SeesItsGraphs.numbersFit (h : b.SeesItsGraphs) : b.NumbersFit where
  known g hg := (mem_of_graphId (h.graphId_eq hg)).2.1
  apart g hg k hk i hgi hki := by
    have hnum : b.number g = b.number k := by
      rw [number, number, number_of_indexed hgi, number_of_indexed hki]
    exact eq_of_graphId (hnum ▸ h.graphId_eq hg) (h.graphId_eq hk)
  registered g hg i hi := some.inj ((h.graphId_eq hg).symm.trans (h.registered g hg i hi))
  fresh g hg hnew := by
    obtain ⟨i, hi, hge, hfree⟩ := h.fresh g hg hnew
    obtain rfl := some.inj ((h.graphId_eq hg).symm.trans hi)
    exact ⟨hge, h.number_lt hg, hfree⟩
  own g hg := h.readsOwn g hg _ (h.graphId_eq hg)

lemma Batch.NumbersFit.seesItsGraphs (h : b.NumbersFit) (hst : b.st.Routed) : b.SeesItsGraphs where
  registered g hg i hi := by rw [h.graphId hg, h.registered g hg i hi]
  fresh g hg hnew := ⟨_, h.graphId hg, (h.fresh g hg hnew).1, (h.fresh g hg hnew).2.2⟩
  distinct g hg k hk _ _ he := eq_of_graphId (h.graphId hg) (he ▸ h.graphId hg)
  readsOwn g hg i hi := by
    obtain rfl := some.inj ((h.graphId hg).symm.trans hi)
    exact h.own g hg
  writesOwn n e hok g hg i hi j f hf := by
    obtain rfl := some.inj ((h.graphId hg).symm.trans hi)
    have hhome := h.home_validated hst hok j f hf
    exact ⟨fun hfg => hhome.eq_number hg hfg, fun hj => h.graph_of_home hst hhome hg hj⟩
  defaultOwn n e hok j f hf := h.default_iff (h.home_validated hst hok j f hf)
  retractions n e hok c hc f hf g _ hg hindex hasserted :=
    h.isCurrentlyAsserted_ok hst (h.home_validated hst hok) hg
      (mem_graphs (mem_of_getElem? hc) hf hg) hindex hasserted
  config n e hok f hf := h.config_of_home (h.home_validated hst hok _ f hf) rfl

def graphTables : NsTables :=
  (NsTables.empty.insert FLUREE_URN "urn:fluree:").insert USER_START "http://ex/"

def graphSnapshot : LedgerSnapshot := ⟨graphTables, .mostGranular⟩

def graphRegistry : GraphRegistry where
  iriToId := (GraphRegistry.newForLedger "l").iriToId.insert "http://ex/g" 3
  idToIri := [none, some (txnMetaGraphIri "l"), some (configGraphIri "l"), some "http://ex/g"]
  nextId := 4

lemma graphRegistry_entries (h : (i, iri) ∈ graphRegistry.iterEntries) :
    (i, iri) = (1, txnMetaGraphIri "l") ∨ (i, iri) = (2, configGraphIri "l") ∨
      (i, iri) = (3, "http://ex/g") := by
  simpa [GraphRegistry.iterEntries, graphRegistry] using h

lemma encode_txnMeta :
    graphSnapshot.encodeIri (txnMetaGraphIri "l") = some ⟨EMPTY, "urn:fluree:l#txn-meta"⟩ := by
  decide +kernel

lemma encode_config :
    graphSnapshot.encodeIri (configGraphIri "l") = some ⟨EMPTY, "urn:fluree:l#config"⟩ := by
  decide +kernel

lemma encode_graph : graphSnapshot.encodeIri "http://ex/g" = some ⟨USER_START, "g"⟩ := by
  decide +kernel

lemma registered_cases (h : Registered graphSnapshot graphRegistry g i) :
    (i = 1 ∧ g = ⟨EMPTY, "urn:fluree:l#txn-meta"⟩) ∨ (i = 2 ∧ g = ⟨EMPTY, "urn:fluree:l#config"⟩) ∨
      (i = 3 ∧ g = ⟨USER_START, "g"⟩) := by
  obtain ⟨-, _, hmem, henc⟩ := h
  rcases graphRegistry_entries hmem with he | he | he <;> obtain ⟨rfl, rfl⟩ := Prod.mk.inj he
  · exact .inl ⟨rfl, some.inj (henc.symm.trans encode_txnMeta)⟩
  · exact .inr (.inl ⟨rfl, some.inj (henc.symm.trans encode_config)⟩)
  · exact .inr (.inr ⟨rfl, some.inj (henc.symm.trans encode_graph)⟩)

def graphLedger : LedgerState where
  ledgerId := "l"
  snapshot := graphSnapshot
  t := 0
  registry := graphRegistry
  store := none
  novelty := ⟨fun _ => [], .new, 0⟩
  apart := by
    intro g i j hi hj
    rcases registered_cases hi with ⟨rfl, rfl⟩ | ⟨rfl, rfl⟩ | ⟨rfl, rfl⟩ <;>
      rcases registered_cases hj with ⟨rfl, h⟩ | ⟨rfl, h⟩ | ⟨rfl, h⟩ <;>
      first | rfl | exact absurd h (by decide)
  numbers := by
    rintro ⟨i, _⟩ he
    rcases graphRegistry_entries he with h | h | h <;> rw [h] <;> decide

lemma routed_graphLedger : graphLedger.Routed where
  txnMeta := by
    intro g hg
    rcases registered_cases hg with ⟨-, rfl⟩ | ⟨h, -⟩ | ⟨h, -⟩
    · exact encode_txnMeta
    · cases h
    · cases h
  flakes := fun _ f hf => absurd hf not_mem_nil
  genesis := fun _ => rfl

def graphFlake : Flake :=
  ⟨some ⟨USER_START, "g"⟩, ⟨USER_START, "s"⟩, ⟨USER_START, "p"⟩, .boolean true, ⟨XSD, "boolean"⟩, 1,
    true, none⟩

def graphCommit : Commit ℕ Flake where
  id := none
  t := 1
  time := none
  flakes := [graphFlake]
  parents := []
  txn := none
  namespaceDelta := .empty
  txnSignature := none
  commitSignatures := []
  txnMeta := []
  graphDelta := .empty
  nsSplitMode := none

def graphPush : Batch ℕ where
  st := graphLedger
  source := ⟨fun _ => "", fun _ => "", fun _ => none, fun _ => 0⟩
  order := ⟨id, .refl⟩
  checks := ⟨⟨fun _ _ _ _ => .ok []⟩, fun _ _ => .ok (), fun _ _ => .ok ()⟩
  commits := [graphCommit]

def configSid : Sid := ⟨EMPTY, "urn:fluree:l#config"⟩

/-- A push into the configuration, which is the one graph whose number comes out right. -/
def configPush : Batch ℕ :=
  { graphPush with
    commits := [{ graphCommit with flakes := [{ graphFlake with g := some configSid }] }] }

end Fluree.Push
