import Fluree.Core.CommitGraph
import Fluree.Lib.HighestFirst
import Mathlib.Data.Finset.Card
import Fluree.Lib.Guard

/-!
# Commit graphs

A commit graph is a finite set of commits that holds the parents of its commits, without cycles,
in which `t` falls along first parents; a merged-in parent may carry any `t`. Everything the walks
load from it is there (`load_eq`), and what a head reaches stays in it (`Reach.mem`).

`Segment x l y` is the stretch `l` of a first-parent line from `x` down to `y`, `y` not included:

* `Segment.comparable`: two stretches from one commit continue each other;
* `Segment.lt`, `Segment.above`: what follows is older and an ancestor.
-/

namespace Fluree.Chain

open Lib Relation List

variable {Cid : Type} [DecidableEq Cid]

section

open Finset TransGen

/-- A finite acyclic history whose first-parent lines fall in `t`. -/
structure CommitGraph (Cid : Type) [DecidableEq Cid] where
  commits : Finset Cid
  envelope : Cid → Envelope Cid
  closed : ∀ c ∈ commits, ∀ p ∈ (envelope c).parents, p ∈ commits
  acyclic : ∀ c ∈ commits, ¬ TransGen (fun x y => y ∈ (envelope x).parents) c c
  decreasing : ∀ c ∈ commits, ∀ p ∈ (envelope c).parents.head?, (envelope p).t < (envelope c).t
  inRange : ∀ c ∈ commits, (envelope c).t ≤ i64Max

lemma acyclic_of_lt {envelope : ℕ → Envelope ℕ} (h : ∀ c, ∀ p ∈ (envelope c).parents, p < c)
    (c : ℕ) : ¬ TransGen (fun x y => y ∈ (envelope x).parents) c c := by
  have hlt : ∀ d, TransGen (fun x y => y ∈ (envelope x).parents) c d → d < c := by
    intro d hd
    induction hd with
    | single hp => exact h c _ hp
    | @tail m d _ hp ih => exact (h m d hp).trans ih
  exact fun hc => Nat.lt_irrefl c (hlt c hc)

namespace CommitGraph

variable (g : CommitGraph Cid)

def store : ContentStore Cid := fun c => if c ∈ g.commits then some (g.envelope c) else none

def t (c : Cid) : ℤ := (g.envelope c).t

def parents (c : Cid) : List Cid := (g.envelope c).parents

def Reach (h c : Cid) : Prop := HighestFirst.Reach g.parents h c

/-- `c` is an ancestor of `h` and not `h` itself. -/
def Above (h c : Cid) : Prop := TransGen (fun x y => y ∈ g.parents x) h c

variable {g}

variable {c h : Cid}

lemma store_of_mem (h : c ∈ g.commits) : g.store c = some (g.envelope c) := if_pos h

lemma store_of_not_mem (h : c ∉ g.commits) : g.store c = none := if_neg h

lemma load_eq (h : c ∈ g.commits) : loadCommitEnvelopeById g.store c = .ok (g.envelope c) := by
  rw [loadCommitEnvelopeById, store_of_mem h]

lemma Reach.refl (h : Cid) : g.Reach h h := ReflTransGen.refl

lemma Reach.trans (hm : g.Reach h m) (hc : g.Reach m c) : g.Reach h c :=
  ReflTransGen.trans hm hc

lemma Reach.parent (hc : g.Reach h c) (hp : p ∈ g.parents c) : g.Reach h p :=
  ReflTransGen.tail hc hp

lemma Reach.mem (hc : g.Reach h c) (hh : h ∈ g.commits) : c ∈ g.commits := by
  induction hc with
  | refl => exact hh
  | @tail m c _ hstep ih => exact g.closed m ih c hstep

lemma Reach.not_above (hc : g.Reach h c) (hh : h ∈ g.commits) : ¬ g.Above c h :=
  fun ha => g.acyclic h hh (trans_right hc ha)

lemma Above.reach (hc : g.Above h c) : g.Reach h c := to_reflTransGen hc

lemma Above.irrefl (ha : g.Above h c) (hh : h ∈ g.commits) : h ≠ c := by
  rintro rfl
  exact g.acyclic h hh ha

/-! ## First-parent lines -/

variable (g) in
def firstParent (c : Cid) : Option Cid := (g.parents c).head?

variable (g) in
/-- The first-parent line from `x` down to `y`, without `y`; `none` lies below genesis. -/
inductive Segment : Option Cid → List Cid → Option Cid → Prop
  | nil (x : Option Cid) : Segment x [] x
  | cons {c : Cid} {l : List Cid} {y : Option Cid} :
      Segment (g.firstParent c) l y → Segment (some c) (c :: l) y

variable (g) in
/-- `c` is on the first-parent line of `h`. -/
def OnLine (h c : Cid) : Prop := ∃ l, g.Segment (some h) l (some c)

lemma mem_parents_of_firstParent (h : g.firstParent c = some p) : p ∈ g.parents c :=
  mem_of_mem_head? h

namespace Segment

variable {x y z : Option Cid} {l m : List Cid}

lemma trans (hl : g.Segment x l y) (hm : g.Segment y m z) : g.Segment x (l ++ m) z := by
  induction hl with
  | nil => exact hm
  | cons _ ih => exact .cons (ih hm)

variable {c : Cid}

lemma snoc (hl : g.Segment x l (some c)) : g.Segment x (l ++ [c]) (g.firstParent c) :=
  hl.trans (.cons (.nil _))

/-- **Two stretches from one commit**: one continues the other. -/
lemma comparable (hl : g.Segment x l y) (hm : g.Segment x m z) :
    (∃ k, m = l ++ k ∧ g.Segment y k z) ∨ (∃ k, l = m ++ k ∧ g.Segment z k y) := by
  induction hl generalizing m with
  | nil => exact .inl ⟨m, rfl, hm⟩
  | @cons c l y hl ih =>
    cases hm with
    | nil => exact .inr ⟨_, rfl, .cons hl⟩
    | cons hm =>
      rcases ih hm with ⟨k, rfl, hk⟩ | ⟨k, rfl, hk⟩
      · exact .inl ⟨k, rfl, hk⟩
      · exact .inr ⟨k, rfl, hk⟩

lemma append_iff : g.Segment x (l ++ m) z ↔ ∃ y, g.Segment x l y ∧ g.Segment y m z := by
  refine ⟨fun h => ?_, fun ⟨y, hl, hm⟩ => hl.trans hm⟩
  induction l generalizing x with
  | nil => exact ⟨x, .nil x, h⟩
  | cons c l ih =>
    cases h with
    | cons h =>
      obtain ⟨y, hl, hm⟩ := ih h
      exact ⟨y, .cons hl, hm⟩

lemma nil_iff : g.Segment x [] y ↔ x = y := ⟨fun h => by cases h; rfl, fun h => h ▸ .nil x⟩

lemma cons_iff : g.Segment x (c :: l) y ↔ x = some c ∧ g.Segment (g.firstParent c) l y :=
  ⟨fun h => by cases h with | cons h => exact ⟨rfl, h⟩, fun ⟨hx, h⟩ => hx ▸ .cons h⟩

lemma from_none (h : g.Segment none l y) : l = [] ∧ y = none := by
  cases h
  exact ⟨rfl, rfl⟩

lemma split_of_mem (h : g.Segment x l y) (hc : c ∈ l) :
    ∃ l₁ l₂, l = l₁ ++ c :: l₂ ∧ g.Segment x l₁ (some c) ∧ g.Segment (some c) (c :: l₂) y := by
  obtain ⟨l₁, l₂, rfl⟩ := append_of_mem hc
  obtain ⟨_, h₁, h₂⟩ := append_iff.1 h
  obtain ⟨rfl, -⟩ := cons_iff.1 h₂
  exact ⟨l₁, l₂, rfl, h₁, h₂⟩

lemma onLine_of_mem (hl : g.Segment (some h) l y) (hc : c ∈ l) : g.OnLine h c := by
  obtain ⟨l₁, _, -, h₁, -⟩ := hl.split_of_mem hc
  exact ⟨l₁, h₁⟩

lemma reach (h : g.Segment (some a) l (some b)) : g.Reach a b := by
  generalize hx : some a = x at h
  generalize hy : some b = y at h
  induction h generalizing a with
  | nil =>
    cases hx
    cases hy
    exact .refl _
  | @cons c l y hl ih =>
    cases hx
    cases hp : g.firstParent c with
    | none =>
      rw [hp] at hl
      rw [hl.from_none.2] at hy
      cases hy
    | some => exact ((Reach.refl c).parent (mem_parents_of_firstParent hp)).trans (ih hp.symm hy)

lemma above (h : g.Segment x l (some d)) (hc : c ∈ l) : g.Above c d := by
  obtain ⟨_, _, -, -, h₂⟩ := h.split_of_mem hc
  obtain ⟨-, h₂⟩ := cons_iff.1 h₂
  cases hp : g.firstParent c with
  | none =>
    rw [hp] at h₂
    cases h₂.from_none.2
  | some =>
    rw [hp] at h₂
    exact head' (mem_parents_of_firstParent hp) h₂.reach

/-- **Times fall** along a stretch. -/
lemma lt (h : g.Segment x l (some d)) (hx : ∀ a ∈ x, a ∈ g.commits) (hc : c ∈ l) :
    g.t d < g.t c := by
  generalize hy : some d = y at h
  induction h generalizing c with
  | nil => cases hc
  | @cons b l y hl ih =>
    have hb : b ∈ g.commits := hx b rfl
    have hp : ∀ p ∈ g.firstParent b, p ∈ g.commits := fun p hp =>
      g.closed b hb p (mem_parents_of_firstParent hp)
    rcases mem_cons.1 hc with rfl | hc
    · cases l with
      | nil =>
        have hd : g.firstParent c = some d := (nil_iff.1 hl).trans hy.symm
        exact g.decreasing c hb d hd
      | cons p => exact (ih hp mem_cons_self hy).trans (g.decreasing c hb p (cons_iff.1 hl).1)
    · exact ih hp hc hy

lemma pairwise (h : g.Segment x l y) (hx : ∀ a ∈ x, a ∈ g.commits) :
    l.Pairwise fun a b => g.t b < g.t a := by
  induction h with
  | nil => exact .nil
  | @cons c l y hl ih =>
    have hc : c ∈ g.commits := hx c rfl
    refine pairwise_cons.2 ⟨fun b hb => ?_, ih fun p hp =>
      g.closed c hc p (mem_parents_of_firstParent hp)⟩
    obtain ⟨_, _, -, h₁, -⟩ := hl.split_of_mem hb
    exact (Segment.cons h₁).lt hx mem_cons_self

lemma nodup (h : g.Segment x l y) (hx : ∀ a ∈ x, a ∈ g.commits) : l.Nodup :=
  (h.pairwise hx).imp fun hlt heq => (heq ▸ hlt).false

end Segment

variable {c : Cid}

/-- A commit of a line that is not on a stretch of it lies at its end or below. -/
lemma OnLine.below (hc : g.OnLine h c) (hl : g.Segment (some h) l y) (hnot : c ∉ l) :
    ∃ d k, y = some d ∧ g.Segment (some d) k (some c) := by
  obtain ⟨_, hm⟩ := hc
  rcases hl.comparable hm with ⟨k, rfl, hk⟩ | ⟨k, rfl, hk⟩
  · cases y with
    | none => cases hk.from_none.2
    | some d => exact ⟨d, k, rfl, hk⟩
  · cases k with
    | nil => exact ⟨c, [], (Segment.nil_iff.1 hk).symm, .nil _⟩
    | cons =>
      obtain ⟨rfl⟩ := Option.some.inj (Segment.cons_iff.1 hk).1
      exact absurd (mem_append_right _ mem_cons_self) hnot

lemma OnLine.refl (h : Cid) : g.OnLine h h := ⟨[], .nil _⟩

lemma OnLine.trans (hm : g.OnLine h m) (hc : g.OnLine m c) : g.OnLine h c := by
  obtain ⟨l, hl⟩ := hm
  obtain ⟨k, hk⟩ := hc
  exact ⟨l ++ k, hl.trans hk⟩

lemma OnLine.reach (hc : g.OnLine h c) : g.Reach h c := hc.elim fun _ h => h.reach

/-- **Every line ends.** A parent has fewer ancestors than its child. -/
lemma exists_line (hc : c ∈ g.commits) : ∃ l, g.Segment (some c) l none := by
  classical
  induction hn : (g.commits.filter (g.Reach c)).card using Nat.strong_induction_on
    generalizing c with
  | _ n ih =>
    cases hp : g.firstParent c with
    | none => exact ⟨[c], .cons (hp ▸ .nil _)⟩
    | some p =>
      have hpar := mem_parents_of_firstParent hp
      have hpc : p ∈ g.commits := g.closed c hc p hpar
      have hcp : g.Reach c p := (Reach.refl c).parent hpar
      have hsub : g.commits.filter (g.Reach p) ⊂ g.commits.filter (g.Reach c) := by
        refine Finset.ssubset_iff_subset_ne.2 ⟨fun d hd => ?_, fun heq => ?_⟩
        · obtain ⟨hd, hreach⟩ := Finset.mem_filter.1 hd
          exact mem_filter.2 ⟨hd, hcp.trans hreach⟩
        · have hself : c ∈ g.commits.filter (g.Reach p) :=
            heq ▸ mem_filter.2 ⟨hc, .refl c⟩
          exact (mem_filter.1 hself).2.not_above hpc (single hpar)
      obtain ⟨l, hl⟩ := ih _ (hn ▸ card_lt_card hsub) hpc rfl
      exact ⟨c :: l, .cons (hp ▸ hl)⟩

end CommitGraph

end

/-!
## The merge base of two heads

`findCommonAncestor` runs two highest-first searches that take turns, and returns the first commit
that both have visited. What it returns is determined by levels (`Lib.HighestFirst`), because the
transaction times it compares come from different branches and do not order the graph.
-/

open ReflTransGen Nat

/-! ## Taking the highest entry -/

section Frontier

variable {α : Type}

variable {l : List (ℤ × α)}

lemma maxByKey_eq_none : maxByKey l = none ↔ l = [] := by
  cases l with
  | nil => exact ⟨fun _ => rfl, fun _ => rfl⟩
  | cons =>
    simp only [maxByKey, reduceCtorEq, iff_false]
    split
    · simp
    · split <;> simp

lemma maxByKey_spec (h : maxByKey l = some (i, m)) :
    (∃ x, l[i]? = some (m, x)) ∧ ∀ y ∈ l, y.1 ≤ m := by
  induction l generalizing i m with
  | nil => cases h
  | cons x l ih =>
    obtain ⟨t, a⟩ := x
    simp only [maxByKey] at h
    cases hl : maxByKey l with
    | none =>
      rw [hl] at h
      cases h
      rw [maxByKey_eq_none.1 hl]
      simp
    | some im =>
      obtain ⟨j, m'⟩ := im
      obtain ⟨⟨x, hx⟩, hmax⟩ := ih hl
      rw [hl] at h
      simp only at h
      split at h
      · rename_i hle
        cases h
        refine ⟨⟨x, by simpa using hx⟩, fun y hy => ?_⟩
        rcases mem_cons.1 hy with rfl | hy
        · exact hle
        · exact hmax y hy
      · rename_i hlt
        cases h
        refine ⟨⟨a, rfl⟩, fun y hy => ?_⟩
        rcases mem_cons.1 hy with rfl | hy
        · exact le_refl _
        · have := hmax y hy
          omega

lemma swapRemove_spec {l : List α} {i : ℕ} {x : α} (h : l[i]? = some x) :
    ∃ rest, swapRemove l i = some (x, rest) ∧ l.Perm (x :: rest) := by
  obtain ⟨hi, rfl⟩ := List.getElem?_eq_some_iff.1 h
  obtain ⟨init, last, rfl⟩ : ∃ init last, l = init ++ [last] :=
    ⟨l.dropLast, l.getLast (ne_nil_of_length_pos (by omega)),
      (dropLast_append_getLast _).symm⟩
  refine ⟨((init ++ [last]).set i last).dropLast, ?_, ?_⟩
  · rw [swapRemove, h, List.getLast?_concat]
  · rcases lt_or_ge i init.length with hlt | hge
    · rw [set_append_left _ _ hlt, dropLast_concat, getElem_append_left hlt,
        set_eq_take_append_cons_drop, if_pos hlt]
      have hsplit : init = init.take i ++ init[i] :: init.drop (i + 1) := by
        rw [cons_getElem_drop_succ, take_append_drop]
      have hfront : (init ++ [last]).Perm
          (last :: init[i] :: (init.take i ++ init.drop (i + 1))) := by
        refine (perm_append_singleton last init).trans ?_
        conv_lhs => rw [hsplit]
        exact perm_middle.cons last
      exact hfront.trans ((List.Perm.swap ..).trans (perm_middle.symm.cons _))
    · obtain rfl : i = init.length := by
        rw [length_append, length_singleton] at hi
        omega
      simp [perm_append_singleton]

/-- **The highest entry is taken out**, the others stay in some order. -/
lemma popHighest_spec (h : l ≠ []) :
    ∃ x rest, popHighest l = some (x, rest) ∧ maxT l = some x.1 ∧ l.Perm (x :: rest) ∧
      ∀ y ∈ l, y.1 ≤ x.1 := by
  cases hm : maxByKey l with
  | none => exact absurd (maxByKey_eq_none.1 hm) h
  | some im =>
    obtain ⟨_, m⟩ := im
    obtain ⟨⟨a, ha⟩, hmax⟩ := maxByKey_spec hm
    obtain ⟨rest, hrest, hperm⟩ := swapRemove_spec ha
    exact ⟨(m, a), rest, by rw [popHighest, hm]; exact hrest, by rw [maxT, hm]; rfl, hperm, hmax⟩

end Frontier

/-! ## One search on its own -/

namespace CommitGraph

variable (g : CommitGraph Cid)

def entry (c : Cid) : ℤ × Cid := (g.t c, c)

/-- A search that expands its highest commit, with no other side to meet. -/
def expand (side : Side Cid) : Side Cid :=
  match popHighest side.frontier with
  | none => side
  | some ((_, c), rest) =>
    let new := fresh side.visited (g.parents c)
    ⟨side.visited ++ new, rest ++ new.map g.entry⟩

/-- The search from `h` alone after `n` expansions. -/
def alone (h : Cid) : ℕ → Side Cid
  | 0 => ⟨[h], [g.entry h]⟩
  | n + 1 => g.expand (alone h n)

/-- The search from `h` alone visits `e` before `e'`. -/
def Earlier (h e e' : Cid) : Prop :=
  ∃ n, (g.alone h n).visited.idxOf e < (g.alone h n).visited.idxOf e'

variable {g}

lemma expand_isPrefix (side : Side Cid) : side.visited <+: (g.expand side).visited := by
  unfold expand
  split
  · exact prefix_refl _
  · exact prefix_append _ _

lemma alone_isPrefix (h : Cid) (hnm : n ≤ m) : (g.alone h n).visited <+: (g.alone h m).visited := by
  induction m, hnm using le_induction with
  | base => exact prefix_refl _
  | succ m _ ih => exact ih.trans (expand_isPrefix _)

variable {e e' x : Cid} {side : Side Cid} {rest : List (ℤ × Cid)}

lemma idxOf_lt_of_isPrefix (h : l <+: l') (hlt : l.idxOf e < l.idxOf e') :
    l'.idxOf e < l'.idxOf e' := by
  obtain ⟨_, rfl⟩ := h
  have he : e ∈ l := idxOf_lt_length_iff.1 (hlt.trans_le idxOf_le_length)
  rw [idxOf_append_of_mem he]
  by_cases he' : e' ∈ l
  · rwa [idxOf_append_of_mem he']
  · rw [idxOf_append_of_notMem he']
    exact (idxOf_lt_length_iff.2 he).trans_le (le_add_right _ _)

lemma Earlier.asymm (he : g.Earlier h e e') : ¬ g.Earlier h e' e := by
  obtain ⟨n, hn⟩ := he
  rintro ⟨m, hm⟩
  rcases le_total n m with hle | hle
  · exact lt_asymm (idxOf_lt_of_isPrefix (alone_isPrefix h hle) hn) hm
  · exact lt_asymm (idxOf_lt_of_isPrefix (alone_isPrefix h hle) hm) hn

lemma earlier_of_found
    (hn : (g.alone h (n + 1)).visited = (g.alone h n).visited ++ (pre ++ e :: post))
    (hv : e' ∉ (g.alone h n).visited) (hpre : e' ∉ pre) (hne : e' ≠ e) : g.Earlier h e e' := by
  refine ⟨n + 1, ?_⟩
  rw [hn, ← append_assoc]
  have hnot : e' ∉ (g.alone h n).visited ++ pre := fun hm => (mem_append.1 hm).elim hv hpre
  rw [idxOf_append_of_notMem hnot, idxOf_cons_ne _ hne.symm]
  by_cases he : e ∈ (g.alone h n).visited ++ pre
  · rw [idxOf_append_of_mem he]
    exact (idxOf_lt_length_iff.2 he).trans_le (le_add_right _ _)
  · rw [idxOf_append_of_notMem he, idxOf_cons_self]
    omega

/-! ## Advancing a side -/

def ids (side : Side Cid) : List Cid := side.frontier.map (·.2)

variable (g) in
/-- A side that holds commits of the graph, entered under their own times. -/
structure SideOk (side : Side Cid) : Prop where
  entries : ∀ y ∈ side.frontier, y = g.entry y.2
  frontier_mem : ∀ c ∈ ids side, c ∈ g.commits
  visited_mem : ∀ c ∈ side.visited, c ∈ g.commits

variable (g) in
/-- `x` is the commit a side expands next, `rest` is what stays in its frontier. -/
structure Top (side : Side Cid) (x : Cid) (rest : List (ℤ × Cid)) : Prop where
  pop : popHighest side.frontier = some (g.entry x, rest)
  max : maxT side.frontier = some (g.t x)
  ids_iff : ∀ y, y ∈ ids side ↔ y = x ∨ y ∈ rest.map (·.2)
  highest : ∀ y ∈ ids side, g.t y ≤ g.t x
  entries : ∀ y ∈ rest, y = g.entry y.2
  length : rest.length + 1 = side.frontier.length

lemma SideOk.exists_top (h : g.SideOk side) (hne : side.frontier ≠ []) :
    ∃ x rest, g.Top side x rest := by
  obtain ⟨y, rest, hpop, hmax, hperm, hle⟩ := popHighest_spec hne
  have hmem : ∀ z, z ∈ side.frontier ↔ z = y ∨ z ∈ rest := fun z => by
    rw [hperm.mem_iff, mem_cons]
  have hy : y = g.entry y.2 := h.entries y ((hmem y).2 (.inl rfl))
  refine ⟨y.2, rest, ⟨hy ▸ hpop, ?_, fun z => ?_, fun z hz => ?_, fun z hz => ?_, ?_⟩⟩
  · rw [hmax, congrArg Prod.fst hy]
    rfl
  · rw [ids, (hperm.map (·.2)).mem_iff, map_cons, mem_cons]
  · obtain ⟨u, hu, rfl⟩ := mem_map.1 hz
    have := hle u hu
    rw [h.entries u hu, congrArg Prod.fst hy] at this
    exact this
  · exact h.entries z ((hmem z).2 (.inr hz))
  · rw [hperm.length_eq, length_cons]

lemma visitParents_eq (other : List Cid) (hps : ∀ p ∈ ps, p ∈ g.commits)
    (side : Side Cid) :
    visitParents g.store other ps side =
      .ok (match (fresh side.visited ps).find? (· ∈ other) with
        | some e => .leave ⟨e, g.t e⟩
        | none => .again ⟨side.visited ++ fresh side.visited ps,
            side.frontier ++ (fresh side.visited ps).map g.entry⟩) := by
  induction ps generalizing side with
  | nil => simp [visitParents]
  | cons p ps ih =>
    have hps' : ∀ q ∈ ps, q ∈ g.commits := fun q hq => hps q (mem_cons_of_mem _ hq)
    by_cases hp : p ∈ side.visited
    · rw [visitParents, if_pos hp, ih hps', fresh_cons_of_mem hp]
    rw [visitParents, if_neg hp, bind_of_ok (load_eq (hps p mem_cons_self)),
      fresh_cons_of_not_mem hp]
    by_cases hother : p ∈ other
    · rw [if_pos hother, List.find?_cons_of_pos (by simpa using hother)]
      rfl
    · rw [if_neg hother, ih hps', List.find?_cons_of_neg (by simpa using hother)]
      simp [entry, t]

lemma expand_of_top (h : g.Top side x rest) : g.expand side =
      ⟨side.visited ++ fresh side.visited (g.parents x),
        rest ++ (fresh side.visited (g.parents x)).map g.entry⟩ := by
  rw [expand, h.pop]
  rfl

lemma Top.mem (h : g.Top side x rest) (hok : g.SideOk side) : x ∈ g.commits :=
  hok.frontier_mem x ((h.ids_iff x).2 (.inl rfl))

/-- **Advancing a side** meets the other side or is the expansion of that side alone. -/
lemma advanceFrontier_eq (h : g.Top side x rest) (hok : g.SideOk side) (other : List Cid) :
    advanceFrontier g.store side other =
      .ok (match (fresh side.visited (g.parents x)).find? (· ∈ other) with
        | some e => .leave ⟨e, g.t e⟩
        | none => .again (g.expand side)) := by
  rw [advanceFrontier, h.pop]
  show (loadCommitEnvelopeById g.store x >>= _) = _
  rw [bind_of_ok (load_eq (h.mem hok)), expand_of_top h]
  exact visitParents_eq other (g.closed x (h.mem hok)) _

variable (g) in
/-- Expanding `x` finds `e`, the first of its new parents that is among `other`. -/
structure Finds (side : Side Cid) (x : Cid) (other pre : List Cid) (e : Cid) (post : List Cid) :
    Prop where
  parents : addNew side.visited (g.parents x) = side.visited ++ (pre ++ e :: post)
  new : e ∉ side.visited
  before : ∀ c ∈ pre, c ∉ other
  met : e ∈ other

lemma advanceFrontier_cases (h : g.Top side x rest) (hok : g.SideOk side) (other : List Cid) :
    (∃ e pre post, advanceFrontier g.store side other = .ok (.leave ⟨e, g.t e⟩) ∧
      g.Finds side x other pre e post) ∨
    (advanceFrontier g.store side other = .ok (.again (g.expand side)) ∧
      ∀ e ∈ fresh side.visited (g.parents x), e ∉ other) := by
  rw [advanceFrontier_eq h hok]
  cases hfind : (fresh side.visited (g.parents x)).find? (· ∈ other) with
  | some e =>
    obtain ⟨he, pre, post, hsplit, hpre⟩ := List.find?_eq_some_iff_append.1 hfind
    refine .inl ⟨e, pre, post, rfl, ?_, ?_, fun c hc => by simpa using hpre c hc, by simpa using he⟩
    · rw [addNew_eq_append_fresh, hsplit]
    · exact (fresh_spec side.visited (g.parents x)).2 e (hsplit ▸ by simp)
  | none => exact .inr ⟨rfl, fun e he => by simpa using List.find?_eq_none.1 hfind e he⟩

lemma Finds.earlier (hf : g.Finds side x other pre e post)
    (hx : g.Top side x rest) (halone : ∃ n, side = g.alone h n) :
    ∀ c, c ∉ side.visited → c ∉ pre → c ≠ e → g.Earlier h e c := by
  obtain ⟨n, hn⟩ := halone
  have hwalk : (g.alone h (n + 1)).visited = (g.alone h n).visited ++ (pre ++ e :: post) := by
    rw [alone, ← hn, expand_of_top hx, ← hf.parents, addNew_eq_append_fresh]
  exact fun c hv hp hc => earlier_of_found hwalk (hn ▸ hv) hp hc

lemma exists_alone_expand (halone : ∃ n, side = g.alone h n) :
    ∃ n, g.expand side = g.alone h n := by
  obtain ⟨n, hn⟩ := halone
  exact ⟨n + 1, congrArg g.expand hn⟩

lemma SideOk.expand (hok : g.SideOk side) (h : g.Top side x rest) : g.SideOk (g.expand side) := by
  have hnew : ∀ c ∈ fresh side.visited (g.parents x), c ∈ g.commits := fun c hc =>
    g.closed x (h.mem hok) c (mem_of_mem_fresh hc)
  rw [expand_of_top h]
  refine ⟨fun y hy => ?_, fun c hc => ?_, fun c hc => ?_⟩
  · rcases mem_append.1 hy with hy | hy
    · exact h.entries y hy
    · obtain ⟨c, -, rfl⟩ := mem_map.1 hy
      rfl
  · rw [ids, List.map_append, List.mem_append, List.map_map] at hc
    rcases hc with hc | hc
    · exact hok.frontier_mem c ((h.ids_iff c).2 (.inr hc))
    · obtain ⟨d, hd, rfl⟩ := mem_map.1 hc
      exact hnew d hd
  · exact (mem_append.1 hc).elim (hok.visited_mem c) (hnew c)

lemma ids_expand (h : g.Top side x rest) :
    ids (g.expand side) = rest.map (·.2) ++ fresh side.visited (g.parents x) := by
  rw [expand_of_top h, ids, List.map_append, List.map_map]
  congr 1
  exact map_id _

variable (g) in
def toDo (side : Side Cid) : ℕ :=
  remaining g.commits (fun _ => 2) side.visited + side.frontier.length

lemma toDo_expand (hok : g.SideOk side) (h : g.Top side x rest) :
    g.toDo (g.expand side) < g.toDo side := by
  obtain ⟨hnodup, hfresh⟩ := fresh_spec side.visited (g.parents x)
  have hrem : remaining g.commits (fun _ => 2) (side.visited ++ fresh side.visited (g.parents x)) +
      ((fresh side.visited (g.parents x)).map fun _ => 2).sum =
        remaining g.commits (fun _ => 2) side.visited :=
    remaining_append (fun c hc => g.closed x (h.mem hok) c (mem_of_mem_fresh hc)) hnodup hfresh
  have hlen := h.length
  rw [map_const', sum_replicate_nat] at hrem
  rw [expand_of_top h]
  simp only [toDo, length_append, length_map]
  omega

/-! ## The two searches -/

variable (g) in
/-- The state of the search for a common ancestor of `a` and `b`, before the sides meet. -/
structure Searching (a b : Cid) (s : Side Cid × Side Cid) : Prop where
  okA : g.SideOk s.1
  okB : g.SideOk s.2
  aloneA : ∃ n, s.1 = g.alone a n
  aloneB : ∃ n, s.2 = g.alone b n
  pair : ∃ lowA lowB, HighestFirst.Pair g.t g.parents a b lowA lowB s.1.visited (ids s.1)
    s.2.visited (ids s.2)

variable (g) in
def Common (a b e : Cid) : Prop := g.Reach a e ∧ g.Reach b e

variable (g) in
/-- The order in which the common ancestors of two heads are met. -/
def MetBefore (a b e e' : Cid) : Prop :=
  HighestFirst.MetBefore g.t g.parents (g.Earlier a) (g.Earlier b) a b e e'

variable (g) in
/-- Some path from `a` to `e` stays, before `e`, at or above the time of a commit of `b`. -/
def InSight (a b e : Cid) : Prop :=
  ∃ y, g.Reach b y ∧ HighestFirst.Through g.t g.parents (g.t y) a e

variable (g) in
/-- `e` is the common ancestor that the search meets. -/
structure Met (a b e : Cid) : Prop where
  common : g.Common a b e
  inSight : g.InSight a b e
  first : ∀ e', e' ≠ e → g.MetBefore a b e e'

variable {a b : Cid} {s : Side Cid × Side Cid} {x : Cid} {rest : List (ℤ × Cid)}

/-- **A turn of the left side.** -/
lemma advanceA_cases (hs : g.Searching a b s) (hx : g.Top s.1 x rest) (hB : ids s.2 ≠ [])
    (hother : ∀ y ∈ ids s.2, g.t y ≤ g.t x) :
    (∃ e, advanceA g.store s.1 s.2 = .ok (.leave ⟨e, g.t e⟩) ∧ g.Met a b e) ∨
    (advanceA g.store s.1 s.2 = .ok (.again (g.expand s.1, s.2)) ∧
      g.Searching a b (g.expand s.1, s.2)) := by
  obtain ⟨lowA, lowB, hpair⟩ := hs.pair
  rw [advanceA]
  rcases advanceFrontier_cases hx hs.okA s.2.visited with ⟨e, pre, post, hadv, hf⟩ | ⟨hadv, hapart⟩
  · left
    have hstep := hpair.left.step hx.ids_iff hx.highest hf.parents
    have heA := hstep.through e (by simp)
    refine ⟨e, by rw [hadv]; rfl, ⟨⟨heA.reach, hpair.right.reach_of_mem hf.met⟩, ?_, fun e' => ?_⟩⟩
    · rcases le_total lowA (g.t x : WithTop ℤ) with hle | hle
      · obtain ⟨y, hy, hlow⟩ := hpair.floor
        rw [min_eq_left hle] at heA
        exact ⟨y, hy, heA.mono hlow⟩
      · obtain ⟨y, hy⟩ := exists_mem_of_ne_nil _ hB
        rw [min_eq_right hle] at heA
        exact ⟨y, hpair.right.reach_of_mem (hpair.right.sub y hy),
          heA.mono (WithTop.coe_le_coe.2 (hother y hy))⟩
    · exact hpair.met_left hx.ids_iff hx.highest hother hf.parents hf.new hf.before hf.met
        (hf.earlier hx hs.aloneA)
  · right
    refine ⟨by rw [hadv]; rfl, ⟨hs.okA.expand hx, hs.okB, exists_alone_expand hs.aloneA, hs.aloneB,
      min lowA (g.t x), lowB, ?_⟩⟩
    rw [ids_expand hx]
    have := hpair.stepLeft hx.ids_iff hx.highest hother hB (addNew_eq_append_fresh _ _) hapart
    simpa only [expand_of_top hx] using this

/-- **A turn of the right side.** -/
lemma advanceB_cases (hs : g.Searching a b s) (hx : g.Top s.2 x rest)
    (hother : ∀ y ∈ ids s.1, g.t y < g.t x) :
    (∃ e, advanceB g.store s.1 s.2 = .ok (.leave ⟨e, g.t e⟩) ∧ g.Met a b e) ∨
    (advanceB g.store s.1 s.2 = .ok (.again (s.1, g.expand s.2)) ∧
      g.Searching a b (s.1, g.expand s.2)) := by
  obtain ⟨lowA, lowB, hpair⟩ := hs.pair
  rw [advanceB]
  rcases advanceFrontier_cases hx hs.okB s.1.visited with ⟨e, pre, post, hadv, hf⟩ | ⟨hadv, hapart⟩
  · left
    have hstep := hpair.right.step hx.ids_iff hx.highest hf.parents
    have heB := hstep.through e (by simp)
    refine ⟨e, by rw [hadv]; rfl, ⟨⟨hpair.left.reach_of_mem hf.met, heB.reach⟩, ?_, fun e' => ?_⟩⟩
    · obtain ⟨y, hy, hlow⟩ := hpair.floor
      exact ⟨y, hy, (hpair.left.through e hf.met).mono hlow⟩
    · exact hpair.met_right hx.ids_iff hx.highest hother hf.parents hf.new hf.before hf.met
        (hf.earlier hx hs.aloneB)
  · right
    refine ⟨by rw [hadv]; rfl, ⟨hs.okA, hs.okB.expand hx, hs.aloneA, exists_alone_expand hs.aloneB,
      lowA, min lowB (g.t x), ?_⟩⟩
    rw [ids_expand hx]
    have := hpair.stepRight hx.ids_iff hx.highest hother (addNew_eq_append_fresh _ _) hapart
    simpa only [expand_of_top hx] using this

omit [DecidableEq Cid] in
lemma ids_eq_nil : ids side = [] ↔ side.frontier = [] := map_eq_nil_iff

omit [DecidableEq Cid] in
lemma maxT_nil : maxT ([] : List (ℤ × Cid)) = none := rfl

/-- How one turn of the search ends. -/
inductive TurnOf (g : CommitGraph Cid) (a b : Cid) (s : Side Cid × Side Cid) : Prop
  | meets (e : Cid) (turn : searchTurn g.store s = .ok (.leave ⟨e, g.t e⟩)) (met : g.Met a b e)
  | expands (s' : Side Cid × Side Cid) (turn : searchTurn g.store s = .ok (.again s'))
      (searching : g.Searching a b s') (less : g.toDo s'.1 + g.toDo s'.2 < g.toDo s.1 + g.toDo s.2)
  | exhausted (turn : searchTurn g.store s = .error (.failed .noCommonAncestor))
      (left : s.1.frontier = []) (right : s.2.frontier = [])
  /-- The right side has nothing left to expand and is advanced all the same. -/
  | stuck (turn : searchTurn g.store s = .ok (.again s)) (left : s.1.frontier ≠ [])
      (right : s.2.frontier = [])

lemma Searching.turnB (hs : g.Searching a b s) (hx : g.Top s.2 x rest)
    (hother : ∀ y ∈ ids s.1, g.t y < g.t x)
    (hturn : searchTurn g.store s = advanceB g.store s.1 s.2) : TurnOf g a b s := by
  rcases advanceB_cases hs hx hother with ⟨e, hadv, hmet⟩ | ⟨hadv, hs'⟩
  · exact .meets e (hturn.trans hadv) hmet
  · exact .expands _ (hturn.trans hadv) hs' (Nat.add_lt_add_left (toDo_expand hs.okB hx) _)

/-- **Every turn** meets, expands one side, finds both sides exhausted, or changes nothing. -/
lemma Searching.turn (hs : g.Searching a b s) : TurnOf g a b s := by
  by_cases hA : s.1.frontier = [] <;> by_cases hB : s.2.frontier = []
  · exact .exhausted (by rw [searchTurn, hA, hB, maxT_nil]) hA hB
  · obtain ⟨y, rest, hy⟩ := hs.okB.exists_top hB
    refine hs.turnB hy (fun z hz => ?_) (by rw [searchTurn, hA, maxT_nil, hy.max])
    rw [ids_eq_nil.2 hA] at hz
    cases hz
  · obtain ⟨x, rest, hx⟩ := hs.okA.exists_top hA
    refine .stuck ?_ hA hB
    have hpop : popHighest s.2.frontier = none := by rw [hB]; rfl
    rw [searchTurn, hx.max, hB, maxT_nil]
    rw [advanceB, advanceFrontier, hpop]
    rfl
  · obtain ⟨x, _, hx⟩ := hs.okA.exists_top hA
    obtain ⟨y, _, hy⟩ := hs.okB.exists_top hB
    by_cases hle : g.t y ≤ g.t x
    · have hturn : searchTurn g.store s = advanceA g.store s.1 s.2 := by
        rw [searchTurn, hx.max, hy.max]
        exact if_pos hle
      rcases advanceA_cases hs hx (mt ids_eq_nil.1 hB) (fun z hz => (hy.highest z hz).trans hle)
        with ⟨e, hadv, hmet⟩ | ⟨hadv, hs'⟩
      · exact .meets e (hturn.trans hadv) hmet
      · exact .expands _ (hturn.trans hadv) hs' (Nat.add_lt_add_right (toDo_expand hs.okA hx) _)
    · refine hs.turnB hy (fun z hz => (hx.highest z hz).trans_lt (not_le.1 hle)) ?_
      rw [searchTurn, hx.max, hy.max]
      exact if_neg hle

/-- How the search ends. -/
inductive Outcome (g : CommitGraph Cid) (a b : Cid)
    (f : ℕ → Walk Cid (CommonAncestor Cid)) : Prop
  | met (e : Cid) (returns : Returns f (.ok ⟨e, g.t e⟩)) (met : g.Met a b e)
  | none (returns : Returns f (.error .noCommonAncestor)) (apart : ∀ e, ¬ g.Common a b e)
      (floor : ∃ y, g.Reach b y ∧ ∀ x, g.Reach a x → g.t y ≤ g.t x)
  | stuck (never : NeverReturns f) (hidden : ∀ e, g.Common a b e → ¬ g.InSight a b e)
      (lower : ∀ y, g.Reach b y → ∃ x, g.Reach a x ∧ g.t x < g.t y)

/-- **The search returns the commit met first, reports that there is none, or never returns.** -/
lemma Searching.outcome (hs : g.Searching a b s) :
    Outcome g a b (loop (fun _ => searchTurn g.store) · s) := by
  induction hn : g.toDo s.1 + g.toDo s.2 using Nat.strong_induction_on generalizing s with
  | _ n ih =>
    obtain ⟨_, _, hpair⟩ := hs.pair
    cases hs.turn with
    | meets e hturn hmet => exact .met e (.leave (returns_of_eq fun _ => hturn)) hmet
    | expands s' hturn hs' hless =>
      have hiff : ∀ r, Returns (loop (fun _ => searchTurn g.store) · s) r ↔
          Returns (loop (fun _ => searchTurn g.store) · s') r := fun _ =>
        Returns.again_iff (returns_of_eq fun _ => hturn)
      cases ih _ (hn ▸ hless) hs' rfl with
      | met e hreturns hmet => exact .met e ((hiff _).2 hreturns) hmet
      | none hreturns hapart hfloor => exact .none ((hiff _).2 hreturns) hapart hfloor
      | stuck hnever hhidden hlower =>
        exact .stuck (fun r hr => hnever r ((hiff r).1 hr)) hhidden hlower
    | exhausted hturn hA hB =>
      rw [ids_eq_nil.2 hA, ids_eq_nil.2 hB] at hpair
      refine .none ⟨1, fun n hn => ?_⟩ (fun e he => hpair.apart_of_exhausted he.1 he.2)
        hpair.floor_of_exhausted
      obtain ⟨m, rfl⟩ : ∃ m, n = m + 1 := ⟨n - 1, by omega⟩
      show loop _ (m + 1) s = _
      rw [loop, hturn]
      rfl
    | stuck hturn hA hB =>
      rw [ids_eq_nil.2 hB] at hpair
      exact .stuck (neverReturns_of_fixed fun _ => hturn)
        (by rintro e he ⟨y, hy, hthrough⟩; exact hpair.stuck he.2 hy hthrough)
        (fun y hy => hpair.stuck_lower (mt ids_eq_nil.1 hA) hy)

lemma searching_init (hab : a ≠ b) (ha : a ∈ g.commits) (hb : b ∈ g.commits) :
    g.Searching a b (⟨[a], [(g.t a, a)]⟩, ⟨[b], [(g.t b, b)]⟩) := by
  have hok : ∀ h, h ∈ g.commits → g.SideOk ⟨[h], [(g.t h, h)]⟩ := fun h hh => by
    have hmem : ∀ c ∈ [h], c ∈ g.commits := fun c hc => mem_singleton.1 hc ▸ hh
    refine ⟨fun y hy => ?_, hmem, hmem⟩
    rw [mem_singleton.1 hy]
    rfl
  exact ⟨hok a ha, hok b hb, ⟨0, rfl⟩, ⟨0, rfl⟩, ⊤, ⊤, .init hab⟩

/-! ## The merge base -/

variable (g) in
/-- A common ancestor with no proper descendant that is one too. -/
def Best (a b e : Cid) : Prop := g.Common a b e ∧ ∀ d, g.Common a b d → ¬ g.Above d e

variable (g) in
/-- The search ends; it reports an error exactly when the heads share no ancestor, and what it
returns is a best common ancestor. -/
structure MergeBaseRight (a b : Cid) : Prop where
  ends : ∃ r, Returns (findCommonAncestor g.store a b) r
  error_iff : (∃ err, Returns (findCommonAncestor g.store a b) (.error err)) ↔
    ∀ e, ¬ g.Common a b e
  best : ∀ r, Returns (findCommonAncestor g.store a b) (.ok r) → g.Best a b r.commitId

variable (g) in
/-- The common ancestor that comes first in the order of meetings is in sight and is a best one;
and where there is none, no commit of `a` lies below all of `b`. -/
def MeetsBest (a b : Cid) : Prop :=
  (∃ e, g.Best a b e ∧ g.InSight a b e ∧ ∀ e', g.Common a b e' → e' ≠ e → g.MetBefore a b e e') ∨
  ((∀ e, ¬ g.Common a b e) ∧ ∃ y, g.Reach b y ∧ ∀ x, g.Reach a x → g.t y ≤ g.t x)

lemma findCommonAncestor_self (ha : a ∈ g.commits) :
    Returns (findCommonAncestor g.store a a) (.ok ⟨a, g.t a⟩) := by
  refine returns_of_eq fun n => ?_
  rw [findCommonAncestor, bind_of_ok (load_eq ha), if_pos rfl]
  rfl

lemma findCommonAncestor_outcome (hab : a ≠ b) (ha : a ∈ g.commits) (hb : b ∈ g.commits) :
    Outcome g a b (findCommonAncestor g.store a b) := by
  have hloop : findCommonAncestor g.store a b =
      (loop (fun _ => searchTurn g.store) · (⟨[a], [(g.t a, a)]⟩, ⟨[b], [(g.t b, b)]⟩)) := by
    funext n
    rw [findCommonAncestor, bind_of_ok (load_eq ha), if_neg hab, bind_of_ok (load_eq hb)]
    rfl
  rw [hloop]
  exact (searching_init hab ha hb).outcome

lemma findCommonAncestor_common (ha : a ∈ g.commits) (hb : b ∈ g.commits)
    (h : Returns (findCommonAncestor g.store a b) (.ok r)) :
    g.Common a b r.commitId ∧ r.t = g.t r.commitId := by
  by_cases hab : a = b
  · subst hab
    cases h.unique (findCommonAncestor_self ha)
    exact ⟨⟨.refl a, .refl a⟩, rfl⟩
  · cases findCommonAncestor_outcome hab ha hb with
    | met e hreturns hmet =>
      cases h.unique hreturns
      exact ⟨hmet.common, rfl⟩
    | none hreturns => cases h.unique hreturns
    | stuck hnever => exact absurd h (hnever _)

lemma met_self (a : Cid) (hne : e' ≠ a) : g.MetBefore a a a e' := by
  refine .inl ⟨⊤, ⟨refl, refl⟩, fun h => ?_⟩
  rcases cases_tail h.1 with h | ⟨m, -, hm⟩
  · exact hne h
  · exact absurd hm.1 (not_le.2 (WithTop.coe_lt_top _))

lemma MetBefore.not_both (h : g.MetBefore a b e e') : ¬ g.MetBefore a b e' e :=
  HighestFirst.MetBefore.asymm Earlier.asymm Earlier.asymm h

/-- **The merge base is a best common ancestor exactly when the search meets one first.** -/
theorem mergeBaseRight_iff (g : CommitGraph Cid) (a b : g.commits) :
    g.MergeBaseRight a b ↔ g.MeetsBest a b := by
  obtain ⟨a, ha⟩ := a
  obtain ⟨b, hb⟩ := b
  by_cases hab : a = b
  · subst hab
    have hself := findCommonAncestor_self ha
    have hbest : g.Best a a a := ⟨⟨.refl a, .refl a⟩, fun d hd => hd.1.not_above ha⟩
    refine ⟨fun _ => .inl ⟨a, hbest, ⟨a, .refl a, refl⟩,
      fun e' _ hne => met_self a hne⟩, fun _ => ⟨⟨_, hself⟩, ⟨?_, ?_⟩, ?_⟩⟩
    · rintro ⟨err, herr⟩
      cases herr.unique hself
    · intro h
      exact absurd ⟨.refl a, .refl a⟩ (h a)
    · intro r hr
      cases hr.unique hself
      exact hbest
  · cases findCommonAncestor_outcome hab ha hb with
    | met e hreturns hmet =>
      constructor
      · intro h
        exact .inl ⟨e, h.best _ hreturns, hmet.inSight, fun e' _ hne => hmet.first e' hne⟩
      · rintro (⟨e', hbest, -, hfirst⟩ | ⟨hapart, -⟩)
        · -- only one commit can be met before all the others
          obtain rfl : e' = e := by
            by_contra hne
            exact (hmet.first e' hne).not_both (hfirst e hmet.common (Ne.symm hne))
          refine ⟨⟨_, hreturns⟩, ⟨?_, fun h => absurd hmet.common (h e')⟩, fun r hr => ?_⟩
          · rintro ⟨err, herr⟩
            cases herr.unique hreturns
          · cases hr.unique hreturns
            exact hbest
        · exact absurd hmet.common (hapart e)
    | none hreturns hapart hfloor =>
      refine ⟨fun _ => .inr ⟨hapart, hfloor⟩, fun _ => ⟨⟨_, hreturns⟩,
        ⟨fun _ => hapart, fun _ => ⟨_, hreturns⟩⟩, fun r hr => ?_⟩⟩
      cases hr.unique hreturns
    | stuck hnever hhidden hlower =>
      constructor
      · rintro ⟨⟨r, hr⟩, -, -⟩
        exact absurd hr (hnever r)
      · rintro (⟨e, hbest, hsight, -⟩ | ⟨-, y, hy, hle⟩)
        · exact absurd hsight (hhidden e hbest.1)
        · obtain ⟨x, hx, hlt⟩ := hlower y hy
          exact absurd (hle x hx) (not_le.2 hlt)

open Classical in
/-- **The search for a common ancestor ends for one order of the heads at least**: with a common
ancestor and its time, or with the error that there is none and none exists. -/
theorem one_order_returns (g : CommitGraph Cid) (a b : g.commits) :
    ∃ r, (Returns (findCommonAncestor g.store a.1 b.1) r ∨
        Returns (findCommonAncestor g.store b.1 a.1) r) ∧
      ((∃ e, r = .ok ⟨e, g.t e⟩ ∧ g.Common a.1 b.1 e) ∨
        r = .error .noCommonAncestor ∧ ∀ e, ¬ g.Common a.1 b.1 e) := by
  obtain ⟨a, ha⟩ := a
  obtain ⟨b, hb⟩ := b
  by_cases hab : a = b
  · subst hab
    exact ⟨_, .inl (findCommonAncestor_self ha), .inl ⟨a, rfl, .refl a, .refl a⟩⟩
  cases findCommonAncestor_outcome hab ha hb with
  | met e hreturns hmet => exact ⟨_, .inl hreturns, .inl ⟨e, rfl, hmet.common⟩⟩
  | none hreturns hapart => exact ⟨_, .inl hreturns, .inr ⟨rfl, hapart⟩⟩
  | stuck _ _ hlower =>
    cases findCommonAncestor_outcome (Ne.symm hab) hb ha with
    | met e hreturns hmet => exact ⟨_, .inr hreturns, .inl ⟨e, rfl, hmet.common.symm⟩⟩
    | none hreturns hapart =>
      exact ⟨_, .inr hreturns, .inr ⟨rfl, fun e he => hapart e he.symm⟩⟩
    | stuck _ _ hlower' =>
      -- an oldest commit below `a` has an older one below `b`, and that an older one below `a`
      obtain ⟨x, hx, hmin⟩ := Finset.exists_min_image (g.commits.filter (g.Reach a)) g.t
        ⟨a, Finset.mem_filter.2 ⟨ha, .refl a⟩⟩
      obtain ⟨y, hy, hyx⟩ := hlower' x (Finset.mem_filter.1 hx).2
      obtain ⟨z, hz, hzy⟩ := hlower y hy
      exact absurd (hmin z (Finset.mem_filter.2 ⟨hz.mem ha, hz⟩)) (not_le.2 (hzy.trans hyx))

end CommitGraph

/-- A history of three branches that leave the main line `0 - 1 - 2 - 3` early (`5`) and late
(`4`). The early branch merges `4` in `6` and is merged in `7`. -/
def crossMerge : CommitGraph ℕ where
  commits := Finset.range 8
  envelope
    | 0 => ⟨1, []⟩
    | 1 => ⟨2, [0]⟩
    | 2 => ⟨3, [1]⟩
    | 3 => ⟨4, [2]⟩
    | 4 => ⟨4, [2]⟩
    | 5 => ⟨2, [0]⟩
    | 6 => ⟨3, [5, 4]⟩
    | 7 => ⟨5, [3, 6]⟩
    | _ => ⟨0, []⟩
  closed := by decide
  acyclic c _ := acyclic_of_lt (fun c p hp => by
    match c with
    | 0 | 1 | 2 | 3 | 4 | 5 | 6 | 7 => revert p; decide
    | _ + 8 => cases hp) c
  decreasing := by decide
  inRange := by decide

/-- **A merge over a slow clock is overlooked**: `4` is an ancestor of `7`, but the search settles
for the older commit `2`. -/
theorem crossMerge_not_best : ¬ crossMerge.MergeBaseRight 4 7 := by
  intro h
  have hreturns : Returns (findCommonAncestor crossMerge.store 4 7) (.ok ⟨2, 3⟩) :=
    returns_of_loop_eq (n := 10) (by decide)
  have hstep : ∀ {c p : ℕ}, p ∈ crossMerge.parents c → crossMerge.Reach c p := fun hp =>
    single hp
  have h6 : crossMerge.Reach 7 6 := hstep (by decide)
  have hcommon : crossMerge.Common 4 7 4 := ⟨.refl 4, h6.parent (by decide)⟩
  have habove : crossMerge.Above 4 2 := TransGen.single (by decide)
  exact (h.best _ hreturns).2 4 hcommon habove

end Fluree.Chain
