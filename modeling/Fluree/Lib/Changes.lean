import Mathlib.Data.List.Induction

/-!
# Batches of changes to a set of facts

A batch asserts and retracts facts: `(f, true)` asserts `f`, `(f, false)` retracts it, and a retract
wins over an assert of the same fact in the same batch. `replay held batches` applies batches,
oldest first, to what is held.
-/

namespace Fluree.Lib.Changes

open List

variable {φ : Type} [DecidableEq φ]

def apply (held : List φ) (batch : List (φ × Bool)) : List φ :=
  (held ++ (batch.filter (·.2)).map (·.1)).filter fun f => decide ((f, false) ∉ batch)

def replay (held : List φ) (batches : List (List (φ × Bool))) : List φ := batches.foldl apply held

/-- What a batch says about a fact. -/
def opIn (batch : List (φ × Bool)) (f : φ) : Option Bool :=
  if (f, false) ∈ batch then some false else if (f, true) ∈ batch then some true else none

/-- The last word on a fact in a range of batches, oldest first. -/
def lastOp : List (List (φ × Bool)) → φ → Option Bool
  | [], _ => none
  | batch :: batches, f => (lastOp batches f).or (opIn batch f)

def NoClash (batch : List (φ × Bool)) : Prop := ∀ f, (f, true) ∈ batch → (f, false) ∉ batch

/-! ## One batch -/

variable {batch : List (φ × Bool)} {f : φ} {held : List φ} {op : Bool}
  {batches : List (List (φ × Bool))}

omit [DecidableEq φ] in
lemma mem_asserts : f ∈ (batch.filter (·.2)).map (·.1) ↔ (f, true) ∈ batch := by
  constructor
  · intro h
    obtain ⟨⟨_, op⟩, hg, rfl⟩ := mem_map.1 h
    obtain ⟨hmem, hop⟩ := mem_filter.1 hg
    obtain rfl : op = true := hop
    exact hmem
  · intro h
    exact mem_map.2 ⟨(f, true), mem_filter.2 ⟨h, rfl⟩, rfl⟩

lemma mem_apply : f ∈ apply held batch ↔ (f ∈ held ∨ (f, true) ∈ batch) ∧ (f, false) ∉ batch := by
  rw [apply, mem_filter, mem_append, mem_asserts, decide_eq_true_iff]

lemma opIn_eq_false : opIn batch f = some false ↔ (f, false) ∈ batch := by
  unfold opIn
  split
  · simp [*]
  · split <;> simp [*]

lemma opIn_eq_none : opIn batch f = none ↔ ∀ op, (f, op) ∉ batch := by
  unfold opIn
  split
  · rename_i h
    exact ⟨fun h' => (nomatch h'), fun h' => absurd h (h' false)⟩
  · rename_i hfalse
    split
    · rename_i h
      exact ⟨fun h' => (nomatch h'), fun h' => absurd h (h' true)⟩
    · rename_i htrue
      refine ⟨fun _ op => ?_, fun _ => rfl⟩
      cases op with
      | false => exact hfalse
      | true => exact htrue

lemma opIn_eq_true : opIn batch f = some true ↔ (f, true) ∈ batch ∧ (f, false) ∉ batch := by
  unfold opIn
  split
  · simp [*]
  · split <;> simp [*]

lemma NoClash.opIn_eq (h : NoClash batch) : opIn batch f = some op ↔ (f, op) ∈ batch := by
  cases op with
  | false => exact opIn_eq_false
  | true => exact opIn_eq_true.trans ⟨And.left, fun hf => ⟨hf, h f hf⟩⟩

lemma mem_apply_iff_opIn :
    f ∈ apply held batch ↔ opIn batch f = some true ∨ opIn batch f = none ∧ f ∈ held := by
  rw [mem_apply, opIn_eq_true, opIn_eq_none]
  constructor
  · rintro ⟨hor, hnot⟩
    by_cases htrue : (f, true) ∈ batch
    · exact .inl ⟨htrue, hnot⟩
    refine .inr ⟨fun op => ?_, hor.resolve_right htrue⟩
    cases op with
    | false => exact hnot
    | true => exact htrue
  · rintro (⟨htrue, hnot⟩ | ⟨hnone, hheld⟩)
    · exact ⟨.inr htrue, hnot⟩
    · exact ⟨.inl hheld, hnone false⟩

/-! ## A range of batches -/

lemma lastOp_append (xs ys : List (List (φ × Bool))) (f : φ) :
    lastOp (xs ++ ys) f = (lastOp ys f).or (lastOp xs f) := by
  induction xs with
  | nil => simp [lastOp]
  | cons _ _ ih => rw [cons_append, lastOp, ih, lastOp, Option.or_assoc]

lemma lastOp_singleton (batch : List (φ × Bool)) (f : φ) : lastOp [batch] f = opIn batch f := by
  simp [lastOp]

lemma replay_append (held : List φ) (xs ys : List (List (φ × Bool))) :
    replay held (xs ++ ys) = replay (replay held xs) ys := foldl_append

lemma lastOp_eq_none : lastOp batches f = none ↔ ∀ batch ∈ batches, ∀ op, (f, op) ∉ batch := by
  induction batches with
  | nil => simp [lastOp]
  | cons _ _ ih =>
    rw [lastOp, Option.or_eq_none_iff, ih, opIn_eq_none, forall_mem_cons]
    exact and_comm

/-- **The last word decides** what a replay holds. -/
lemma mem_replay : f ∈ replay held batches ↔
      lastOp batches f = some true ∨ lastOp batches f = none ∧ f ∈ held := by
  induction batches using reverseRecOn with
  | nil => simp [replay, lastOp]
  | append_singleton batches batch ih =>
    rw [replay_append, show replay (replay held batches) [batch] = apply (replay held batches) batch
      from rfl, mem_apply_iff_opIn, ih, lastOp_append, lastOp_singleton]
    cases opIn batch f with
    | none => simp
    | some => simp

lemma mem_replay_of_lastOp_eq_none (h : lastOp batches f = none) :
    f ∈ replay held batches ↔ f ∈ held := by
  rw [mem_replay, h]
  simp

lemma mem_replay_of_lastOp_eq_some (h : lastOp batches f = some op) :
    f ∈ replay held batches ↔ op = true := by
  rw [mem_replay, h]
  simp

/-! ## The net change of a range -/

/-- Keep the first change of each fact (`entry(fact).or_insert`). -/
def keepFirst (kept : List (φ × Bool)) (change : φ × Bool) : List (φ × Bool) :=
  if change.1 ∈ kept.map (·.1) then kept else kept ++ [change]

lemma mem_foldl_keepFirst {changes kept : List (φ × Bool)} :
    (f, op) ∈ changes.foldl keepFirst kept ↔
      (f, op) ∈ kept ∨ f ∉ kept.map (·.1) ∧ changes.find? (·.1 == f) = some (f, op) := by
  induction changes generalizing kept with
  | nil => simp
  | cons change _ ih =>
    rw [foldl_cons, ih, keepFirst]
    obtain ⟨g, _⟩ := change
    by_cases hg : g ∈ kept.map (·.1)
    · have hne : f ∉ kept.map (·.1) → (g == f) = false := fun hf =>
        beq_false_of_ne fun h => hf (h ▸ hg)
      rw [if_pos hg]
      refine or_congr_right (and_congr_right fun hf => ?_)
      rw [find?_cons_of_neg (by simp [hne hf])]
    · rw [if_neg hg, mem_append, mem_singleton, map_append, mem_append, not_or]
      by_cases hfg : g = f
      · subst hfg
        rw [find?_cons_of_pos (by simp)]
        simp [eq_comm, hg]
      · rw [find?_cons_of_neg (by simpa using hfg)]
        simp [Ne.symm hfg]

lemma find?_of_noClash (h : NoClash batch) :
    batch.find? (·.1 == f) = (opIn batch f).map (f, ·) := by
  cases hfind : batch.find? (·.1 == f) with
  | none =>
    have hnone : opIn batch f = none := opIn_eq_none.2 fun op hmem => by
      have := find?_eq_none.1 hfind (f, op) hmem
      simp at this
    rw [hnone]
    rfl
  | some change =>
    obtain ⟨g, op⟩ := change
    obtain rfl : g = f := by simpa using find?_some hfind
    rw [h.opIn_eq.2 (mem_of_find?_eq_some hfind)]
    rfl

lemma find?_reverse_of_noClash (h : NoClash batch) :
    batch.reverse.find? (·.1 == f) = (opIn batch f).map (f, ·) := by
  have hreverse : NoClash batch.reverse := fun f htrue hfalse =>
    h f (mem_reverse.1 htrue) (mem_reverse.1 hfalse)
  have hop : opIn batch.reverse f = opIn batch f := by simp only [opIn, mem_reverse]
  rw [find?_of_noClash hreverse, hop]

/-- **The newest change of each fact**, taken newest batch first and last change first, is the last
word on it. -/
lemma mem_net (h : ∀ batch ∈ batches, NoClash batch) :
    (f, op) ∈ (batches.reverse.flatMap reverse).foldl keepFirst [] ↔
      lastOp batches f = some op := by
  have hfind : (batches.reverse.flatMap reverse).find? (·.1 == f) =
      (lastOp batches f).map (f, ·) := by
    induction batches with
    | nil => rfl
    | cons _ batches ih =>
      obtain ⟨hbatch, hrest⟩ := forall_mem_cons.1 h
      rw [reverse_cons, flatMap_append, find?_append, ih hrest, flatMap_singleton,
        find?_reverse_of_noClash hbatch, lastOp]
      cases lastOp batches f <;> rfl
  rw [mem_foldl_keepFirst, hfind]
  simp

lemma noClash_of_lastOp
    (h : ∀ f op, (f, op) ∈ changes → lastOp batches f = some op) : NoClash changes := by
  intro f htrue hfalse
  have := (h f true htrue).symm.trans (h f false hfalse)
  cases this

/-! ## Netting, newest batch first -/

/-! ## Undoing a range -/

/-- The first change of a fact in a range of batches, oldest first. -/
def firstOp (batches : List (List (φ × Bool))) (f : φ) : Option Bool :=
  (batches.flatten.find? (·.1 == f)).map (·.2)

/-- The other way round. -/
def invert (change : φ × Bool) : φ × Bool := (change.1, !change.2)

lemma firstOp_eq_none : firstOp batches f = none ↔ ∀ batch ∈ batches, ∀ op, (f, op) ∉ batch := by
  simp only [firstOp, Option.map_eq_none_iff, find?_eq_none, mem_flatten, beq_iff_eq]
  constructor
  · intro h batch hbatch op hmem
    exact h (f, op) ⟨batch, hbatch, hmem⟩ rfl
  · rintro h ⟨_, op⟩ ⟨batch, hbatch, hmem⟩ rfl
    exact h batch hbatch op hmem

/-- **The inverse of the oldest change** of each fact, taken oldest batch first. -/
lemma mem_undo : (f, op) ∈ (batches.flatMap (·.map invert)).foldl keepFirst [] ↔
    firstOp batches f = some !op := by
  have hinvert : batches.flatMap (·.map invert) = batches.flatten.map invert := by
    rw [map_flatten, flatMap_def]
  rw [mem_foldl_keepFirst, hinvert, find?_map,
    show ((·.1 == f) ∘ invert : φ × Bool → Bool) = (·.1 == f) from rfl, firstOp]
  cases hfind : batches.flatten.find? (·.1 == f) with
  | none => simp
  | some change =>
    obtain ⟨g, _⟩ := change
    obtain rfl : g = f := by simpa using find?_some hfind
    simp [invert, Bool.not_eq_eq_eq_not]

end Fluree.Lib.Changes
