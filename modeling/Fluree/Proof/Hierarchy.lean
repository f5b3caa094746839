import Fluree.Lib.Guard
import Fluree.Reasoner.Hierarchy

/-!
# Which hierarchy a query sees

The merged hierarchy is the closure of two sets of edges: those live when the index was built
and those live at the time of the query (`under_spec`). It is the hierarchy in force at that
time exactly if no edge of the index went out of force without another chain in its place.
-/

namespace Fluree

open Lib List Relation SchemaHierarchy KeyedMap

/-- The two RDFS relations that a hierarchy closes. -/
inductive SchemaRelation where
  | subClassOf
  | subPropertyOf

open SchemaRelation

namespace SchemaRelation

def predicate : SchemaRelation → Sid
  | subClassOf => rdfsSubClassOf
  | subPropertyOf => rdfsSubPropertyOf

def field : SchemaRelation → SchemaField
  | subClassOf => .subclassOf
  | subPropertyOf => .parentProps

def listed : SchemaRelation → SchemaHierarchy → Sid → List Sid
  | subClassOf => (·.subclassesOf)
  | subPropertyOf => (·.subpropertiesOf)

/-- Without a hierarchy nothing is under a term. -/
def under (k : SchemaRelation) (h : Option SchemaHierarchy) (c : Sid) : List Sid :=
  (h.map (k.listed · c)).getD []

/-- A fact of the graph puts `child` under `parent`. -/
def Edge (k : SchemaRelation) (live : Flake → Prop) (child parent : Sid) : Prop :=
  ∃ f, live f ∧ f.p = k.predicate ∧ f.op ∧ f.s = child ∧ f.o = .ref parent

end SchemaRelation

/-- `p` stands in a list of the entry of `c`. -/
def Has (f : SchemaField) (entries : List SchemaPredicateInfo) (c p : Sid) : Prop :=
  ∃ i ∈ entries, i.id = c ∧ p ∈ f.get i

/-- A ledger whose index recorded the edges live when it was built. `live` says which flakes of
the default graph are live at a time, below an overlay. -/
structure IndexedGraph (ο : Type) extends SchemaSnapshot ο where
  noOverlay : ο
  indexT : ℤ
  live : ο → ℤ → Flake → Prop
  reads : ∀ o t p, ∃ rows, range o 0 t .psot p = .ok rows ∧ ∀ f, f ∈ rows ↔ live o t f ∧ f.p = p
  ids : ((schema.getD ⟨0, []⟩).vals.map (·.id)).Nodup
  recorded : ∀ (k : SchemaRelation) c p,
    Has k.field (schema.getD ⟨0, []⟩).vals c p ↔ k.Edge (live noOverlay indexT) c p

/-! ## The closure -/

lemma mem_entries_of_get {direct : Descendants} {a b : Sid} (h : b ∈ direct.get a) :
    a ∈ direct.keys ∧ b ∈ direct.entries.flatMap (·.2) := by
  obtain ⟨e, he, rfl, hb⟩ := mem_getD_lookup.1 h
  exact ⟨mem_keys_of_mem he, mem_flatMap.2 ⟨e, he, hb⟩⟩

lemma computeDescendants_spec (direct : Descendants) (c : Sid) :
    (computeDescendants direct c).Nodup ∧ ∀ d, d ∈ computeDescendants direct c ↔
      d ≠ c ∧ TransGen (fun a b => b ∈ direct.get a) c d := by
  -- the first turn takes the start itself off the queue
  have hstart : Searching direct.get c [c] [] := ⟨by simp, by simp, by simp, by simp⟩
  exact descend_spec (fun _ _ h => (mem_entries_of_get h).2) hstart (by simp) le_rfl

lemma get_computeTransitiveClosure (direct : Descendants) (c : Sid) :
    (computeTransitiveClosure direct).get c = computeDescendants direct c := by
  unfold computeTransitiveClosure Descendants.get
  by_cases hc : computeDescendants direct c = []
  · rw [lookup_ofList_of_not_mem, lookup_empty, hc, Option.getD_none]
    rintro e he (rfl : e = c)
    simp [hc] at he
  · obtain ⟨d, hd⟩ := exists_mem_of_ne_nil _ hc
    obtain ⟨b, hb, -⟩ := TransGen.head'_iff.1 (((computeDescendants_spec direct c).2 d).1 hd).2
    have hstart : c ∈ direct.keys.filter (computeDescendants direct · ≠ []) := by
      simp [hc, (mem_entries_of_get hb).1]
    obtain ⟨e, -, rfl, hlookup⟩ :=
      exists_lookup_ofList (k := id) (v := computeDescendants direct) ∅ ⟨c, hstart, rfl⟩
    exact congrArg (·.getD []) hlookup

lemma mem_direct {parents : SchemaPredicateInfo → List Sid} {schema : IndexSchema} {a b : Sid} :
    b ∈ (direct parents schema).get a ↔
      ∃ i ∈ schema.vals, i.id = b ∧ a ∈ parents i := by
  simp only [direct, Descendants.get, mem_group, lookup_empty]
  simp [and_comm]

/-- **A hierarchy is the closure of the recorded edges.** -/
lemma listed_fromDbRootSchema (k : SchemaRelation) (schema : IndexSchema) (c : Sid) :
    (k.listed (.fromDbRootSchema schema) c).Nodup ∧ ∀ d, d ∈ k.listed (.fromDbRootSchema schema) c ↔
        d ≠ c ∧ TransGen (Has k.field schema.vals) d c := by
  have hlisted : k.listed (.fromDbRootSchema schema) c =
      computeDescendants (direct k.field.get schema) c := by
    cases k <;> exact get_computeTransitiveClosure _ c
  rw [hlisted]
  obtain ⟨hnodup, hmem⟩ := computeDescendants_spec (direct k.field.get schema) c
  refine ⟨hnodup, fun d => ?_⟩
  rw [hmem, ← transGen_swap]
  simp only [mem_direct]
  rfl

/-! ## The merge -/

lemma SchemaField.mem_get_push {f f' : SchemaField} {info : SchemaPredicateInfo} {x p : Sid} :
    p ∈ f.get (f'.push info x) ↔ p ∈ f.get info ∨ f' = f ∧ x = p := by
  have hpush : ∀ l, p ∈ pushSorted l x ↔ p ∈ l ∨ x = p := by
    intro l
    rw [pushSorted, List.mem_dedup, (insertionSortBy_perm _ _).mem_iff]
    simp [eq_comm]
  cases f <;> cases f' <;> simp [SchemaField.get, SchemaField.push, hpush]

@[simp] lemma SchemaField.push_id (f : SchemaField) (info : SchemaPredicateInfo) (x : Sid) :
    (f.push info x).id = info.id := by cases f <;> rfl

variable {f : SchemaField} {c p : Sid}

lemma has_apply (entries : List SchemaPredicateInfo) (u : SchemaUpdate) :
    Has f (u.apply entries) c p ↔ Has f entries c p ∨ u = ⟨c, f, p⟩ := by
  rw [SchemaUpdate.apply]
  set entries' := if entries.any (·.id = u.id) then entries else entries ++ [⟨u.id, [], [], []⟩]
    with hentries
  -- the entry that is there now, empty if it is new
  obtain ⟨⟨j, hj, hid⟩, hold⟩ : (∃ j ∈ entries', j.id = u.id) ∧
      (Has f entries c p ↔ Has f entries' c p) := by
    rw [hentries]
    split
    · rename_i hany
      simpa using hany
    · refine ⟨⟨⟨u.id, [], [], []⟩, by simp, rfl⟩, ?_⟩
      cases f <;> simp [Has, or_and_right, exists_or, SchemaField.get]
  have hnew : u = ⟨c, f, p⟩ ↔ ∃ i ∈ entries', i.id = c ∧ i.id = u.id ∧ u.field = f ∧ u.term = p := by
    constructor
    · rintro rfl
      exact ⟨j, hj, hid, hid, rfl, rfl⟩
    · rintro ⟨i, -, rfl, hi, rfl, rfl⟩
      rw [hi]
  rw [hold, hnew, Has, Has, ← exists_or]
  simp only [mem_map, exists_exists_and_eq_and, ← and_or_left]
  refine exists_congr fun i => and_congr_right fun _ => ?_
  split
  · rename_i h
    simp [h, SchemaField.mem_get_push]
  · rename_i h
    simp [h]

lemma has_foldl_apply (us : List SchemaUpdate) (entries : List SchemaPredicateInfo) :
    Has f (us.foldl SchemaUpdate.apply entries) c p ↔ Has f entries c p ∨ ⟨c, f, p⟩ ∈ us := by
  induction us generalizing entries with
  | nil => simp
  | cons u us ih => rw [foldl_cons, ih, has_apply, mem_cons, or_assoc, eq_comm (a := u)]

lemma mem_assertedParents {rows : List Flake} {live : Flake → Prop} {k : SchemaRelation}
    (h : ∀ f, f ∈ rows ↔ live f ∧ f.p = k.predicate) :
    (c, p) ∈ rows.filterMap assertedParent ↔ k.Edge live c p := by
  have hparent : ∀ f, assertedParent f = some (c, p) ↔ f.op ∧ f.s = c ∧ f.o = .ref p := by
    intro f
    unfold assertedParent
    split <;> simp_all
  simp only [mem_filterMap, h, hparent, SchemaRelation.Edge, and_assoc]

/-! ## The hierarchy in force -/

variable {ο : Type} (w : IndexedGraph ο) (overlay : ο) (toT : ℤ)

/-- An edge of the index or of the graph at the time of the query. -/
def IndexedGraph.Merged (k : SchemaRelation) (child parent : Sid) : Prop :=
  k.Edge (w.live w.noOverlay w.indexT) child parent ∨ k.Edge (w.live overlay toT) child parent

lemma has_mergeSchema_iff {classes properties : List Flake}
    (hclasses : ∀ f, f ∈ classes ↔ w.live overlay toT f ∧ f.p = rdfsSubClassOf)
    (hproperties : ∀ f, f ∈ properties ↔ w.live overlay toT f ∧ f.p = rdfsSubPropertyOf)
    (k : SchemaRelation) (c p : Sid) :
    Has k.field (mergeSchema (w.schema.getD ⟨0, []⟩) classes properties) c p ↔
      w.Merged overlay toT k c p := by
  have hsort : ∀ l, Has k.field (insertionSortBy (fun a b => a.id.cmp b.id) l) c p ↔
      Has k.field l c p := fun l => by
    simp only [Has, (insertionSortBy_perm _ l).mem_iff]
  rw [mergeSchema, hsort, has_foldl_apply, w.recorded, IndexedGraph.Merged]
  cases k with
  | subClassOf =>
    rw [← mem_assertedParents (k := .subClassOf) hclasses]
    simp [field, subclassUpdates, subpropertyUpdates]
  | subPropertyOf =>
    rw [← mem_assertedParents (k := .subPropertyOf) hproperties]
    simp [field, subclassUpdates, subpropertyUpdates]

/-- **A query sees the closure of both sets of edges.** -/
lemma under_spec : ∃ h, schemaHierarchyWithOverlay w.toSchemaSnapshot overlay toT = .ok h ∧
    ∀ (k : SchemaRelation) c, (k.under h c).Nodup ∧
      ∀ d, d ∈ k.under h c ↔ d ≠ c ∧ TransGen (w.Merged overlay toT k) d c := by
  obtain ⟨classes, hrange, hclasses⟩ := w.reads overlay toT rdfsSubClassOf
  obtain ⟨properties, hrange', hproperties⟩ := w.reads overlay toT rdfsSubPropertyOf
  rw [schemaHierarchyWithOverlay, bind_of_ok hrange, bind_of_ok hrange']
  refine ⟨_, rfl, fun k c => ?_⟩
  set vals := mergeSchema (w.schema.getD ⟨0, []⟩) classes properties
  have hunder : k.under (if vals.isEmpty then none else some (.fromDbRootSchema ⟨toT, vals⟩)) c =
      k.listed (.fromDbRootSchema ⟨toT, vals⟩) c := by
    -- without entries there is no hierarchy, and one of no entries lists nothing
    cases vals with
    | nil => cases k <;> rfl
    | cons i vals => rfl
  rw [hunder]
  obtain ⟨hnodup, hmem⟩ := listed_fromDbRootSchema k ⟨toT, vals⟩ c
  have hmerged : Has k.field vals = w.Merged overlay toT k := by
    funext c p
    exact propext (has_mergeSchema_iff w overlay toT hclasses hproperties k c p)
  rw [← hmerged]
  exact ⟨hnodup, hmem⟩

/-- The hierarchy holds the chains of edges live at the time of the query, and nothing else. -/
def IndexedGraph.InForce (h : Option SchemaHierarchy) : Prop :=
  ∀ (k : SchemaRelation) c, (k.under h c).Nodup ∧
    (∀ d, d ∈ k.under h c ↔ d ≠ c ∧ TransGen (k.Edge (w.live overlay toT)) d c) ∧
    ((∀ child parent, ¬ k.Edge (w.live overlay toT) child parent) → k.under h c = [])

/-- **The hierarchy in force.** Exactly if every edge of the index between two terms is still
the work of a chain of live edges. -/
theorem hierarchy_inForce_iff :
    (∃ h, schemaHierarchyWithOverlay w.toSchemaSnapshot overlay toT = .ok h ∧
      w.InForce overlay toT h) ↔ ∀ (k : SchemaRelation) child parent, child ≠ parent →
      k.Edge (w.live w.noOverlay w.indexT) child parent →
        TransGen (k.Edge (w.live overlay toT)) child parent := by
  obtain ⟨h, hok, hspec⟩ := under_spec w overlay toT
  constructor
  · rintro ⟨h', hok', hforce⟩ k child parent hne hedge
    obtain rfl : h = h' := Except.ok.inj (hok.symm.trans hok')
    -- every edge of the index is listed, live or not
    have hmem := ((hspec k parent).2 child).2 ⟨hne, .single (.inl hedge)⟩
    exact (((hforce k parent).2.1 child).1 hmem).2
  · intro hentailed
    refine ⟨h, hok, fun k c => ?_⟩
    have hchain : ∀ d, d ≠ c → (TransGen (w.Merged overlay toT k) d c ↔
        TransGen (k.Edge (w.live overlay toT)) d c) := by
      intro d hne
      refine ⟨fun hd => ?_, TransGen.mono (fun _ _ => Or.inr) _ _⟩
      -- a self-edge of the index is an empty chain
      have hstep : ∀ a b, w.Merged overlay toT k a b →
          ReflTransGen (k.Edge (w.live overlay toT)) a b := by
        rintro a b (hab | hab)
        · by_cases he : a = b
          · rw [he]
          · exact (hentailed k a b he hab).to_reflTransGen
        · exact .single hab
      have hrefl := reflTransGen_closed hstep d c hd.to_reflTransGen
      exact (reflTransGen_iff_eq_or_transGen.1 hrefl).resolve_left (Ne.symm hne)
    have hmem : ∀ d, d ∈ k.under h c ↔
        d ≠ c ∧ TransGen (k.Edge (w.live overlay toT)) d c := fun d => by
      rw [(hspec k c).2]
      exact and_congr_right (hchain d)
    refine ⟨(hspec k c).1, hmem, fun hnone => eq_nil_iff_forall_not_mem.2 fun d hd => ?_⟩
    obtain ⟨b, hb, -⟩ := TransGen.head'_iff.1 ((hmem d).1 hd).2
    exact hnone d b hb

/-- The edge is asserted at time 1, when the index is built, and retracted at time 2. -/
def dogIsAnimal (t : ℤ) : List Flake :=
  if t = 1 then
    [⟨none, ⟨100, "Dog"⟩, rdfsSubClassOf, .ref ⟨100, "Animal"⟩, ⟨1, "id"⟩, 1, true, none⟩]
  else []

def retractedEdge : IndexedGraph Unit where
  schema := some ⟨1, [⟨⟨100, "Dog"⟩, [⟨100, "Animal"⟩], [], []⟩]⟩
  range _ _ t _ p := .ok ((dogIsAnimal t).filter (·.p = p))
  noOverlay := ()
  indexT := 1
  live _ t f := f ∈ dogIsAnimal t
  reads _ t p := ⟨_, rfl, by simp⟩
  ids := by simp
  recorded k c p := by
    cases k <;> simp [Has, field, SchemaField.get, SchemaRelation.Edge, dogIsAnimal,
      predicate, rdfsSubClassOf, rdfsSubPropertyOf, eq_comm (a := p)]

theorem retracted_edge_still_listed :
    ∃ h, schemaHierarchyWithOverlay retractedEdge.toSchemaSnapshot () 2 = .ok h ∧
      ⟨100, "Dog"⟩ ∈ subClassOf.under h ⟨100, "Animal"⟩ ∧
      ¬ retractedEdge.InForce () 2 h := by
  obtain ⟨h, hok, hspec⟩ := under_spec retractedEdge () 2
  have hedge : subClassOf.Edge (retractedEdge.live () 1) ⟨100, "Dog"⟩
      ⟨100, "Animal"⟩ := ⟨_, mem_cons_self, rfl, rfl, rfl, rfl⟩
  have hmem := ((hspec .subClassOf ⟨100, "Animal"⟩).2 ⟨100, "Dog"⟩).2
    ⟨by decide, .single (.inl hedge)⟩
  refine ⟨h, hok, hmem, fun hforce => ?_⟩
  have hempty := (hforce .subClassOf ⟨100, "Animal"⟩).2.2 (by
    rintro _ _ ⟨_, hlive, -⟩
    exact not_mem_nil hlive)
  rw [hempty] at hmem
  exact not_mem_nil hmem

end Fluree
