import Mathlib.Order.Lattice
import Mathlib.Data.Prod.Lex
import Fluree.Lib.Slices

/-!
# The latest operation wins, a retraction at the same time before an assertion

`RetractWins S`: the latest time in `S` holds assertions only. Any rule that picks an operation
no other one beats (`Unbeaten`) decides this, in particular scanning the operations in any order
and keeping the better one (`foldl_keepBetter`).
-/

namespace Fluree.Lib

section

variable {α T : Type*} [LinearOrder T] (time : α → T) (op : α → Bool)

/-- The latest time in `S` holds assertions and no retraction. -/
def RetractWins (S : α → Prop) : Prop :=
  ∃ a, S a ∧ op a = true ∧ ∀ b, S b → time b ≤ time a ∧ (time b = time a → op b = true)

/-- `a` replaces `cur`: it is later, or a retraction of an assertion of the same time. -/
def better (a cur : α) : Bool :=
  decide (time cur < time a) || (decide (time a = time cur) && !op a && op cur)

def keepBetter (cur a : α) : α := if better time op a cur then a else cur

/-- Nothing in `S` beats `r`. -/
structure Unbeaten (r : α) (S : α → Prop) : Prop where
  mem : S r
  later : ∀ b, S b → time b ≤ time r
  tie : ∀ b, S b → time b = time r → op r = true → op b = true

variable {time op} {r : α} {S : α → Prop}

lemma Unbeaten.retractWins (h : Unbeaten time op r S) : op r = true ↔ RetractWins time op S := by
  constructor
  · intro hr
    exact ⟨r, h.mem, hr, fun b hb => ⟨h.later b hb, fun he => h.tie b hb he hr⟩⟩
  · rintro ⟨a, ha, -, hall⟩
    exact (hall r h.mem).2 (le_antisymm (hall r h.mem).1 (h.later a ha))

lemma retractWins_image {β U : Type*} [LinearOrder U] {time' : β → U} {op' : β → Bool} (f : β → α)
    {S' : β → Prop} (hS : ∀ a, S a ↔ ∃ b, S' b ∧ f b = a)
    (htime : ∀ b c, time (f b) ≤ time (f c) ↔ time' b ≤ time' c) (hop : ∀ b, op (f b) = op' b) :
    RetractWins time op S ↔ RetractWins time' op' S' := by
  have heq : ∀ b c, time (f b) = time (f c) ↔ time' b = time' c := fun b c => by
    rw [le_antisymm_iff, le_antisymm_iff, htime, htime]
  constructor
  · rintro ⟨a, ha, hass, hall⟩
    obtain ⟨b, hb, rfl⟩ := (hS a).1 ha
    refine ⟨b, hb, hop b ▸ hass, fun c hc => ?_⟩
    obtain ⟨h1, h2⟩ := hall (f c) ((hS _).2 ⟨c, hc, rfl⟩)
    exact ⟨(htime c b).1 h1, fun ht => hop c ▸ h2 ((heq c b).2 ht)⟩
  · rintro ⟨b, hb, hass, hall⟩
    refine ⟨f b, (hS _).2 ⟨b, hb, rfl⟩, (hop b).trans hass, fun a ha => ?_⟩
    obtain ⟨c, hc, rfl⟩ := (hS a).1 ha
    obtain ⟨h1, h2⟩ := hall c hc
    exact ⟨(htime c b).2 h1, fun ht => (hop c).trans (h2 ((heq c b).1 ht))⟩

lemma better_eq_false : better time op a cur = false ↔ time a ≤ time cur ∧
      (time a = time cur → op cur = true → op a = true) := by
  unfold better
  rw [Bool.or_eq_false_iff, decide_eq_false_iff_not, not_lt]
  refine and_congr_right fun _ => ?_
  by_cases ht : time a = time cur <;> cases op a <;> cases op cur <;> simp [ht]

lemma better_eq_true (h : better time op a cur = true) :
    time cur ≤ time a ∧ (time cur = time a → op a = true → op cur = true) := by
  unfold better at h
  rw [Bool.or_eq_true, decide_eq_true_eq] at h
  rcases h with h | h
  · exact ⟨h.le, fun he => absurd he h.ne⟩
  · simp only [Bool.and_eq_true, decide_eq_true_eq, Bool.not_eq_true'] at h
    exact ⟨h.1.1.ge, fun _ ha => by rw [h.1.2] at ha; cases ha⟩

lemma Unbeaten.keepBetter (h : Unbeaten time op r S) (a : α) :
    Unbeaten time op (keepBetter time op r a) (fun b => S b ∨ b = a) := by
  unfold Lib.keepBetter
  cases hb : better time op a r with
  | true =>
    obtain ⟨h1, h2⟩ := better_eq_true hb
    rw [if_pos rfl]
    refine ⟨.inr rfl, ?_, ?_⟩
    · rintro b (hS | rfl)
      · exact (h.later b hS).trans h1
      · exact le_rfl
    · rintro b (hS | rfl) hbt hop
      · have hrt : time r = time a := le_antisymm h1 (hbt ▸ h.later b hS)
        exact h.tie b hS (hbt.trans hrt.symm) (h2 hrt hop)
      · exact hop
  | false =>
    obtain ⟨h1, h2⟩ := better_eq_false.1 hb
    rw [if_neg (by simp)]
    refine ⟨.inl h.mem, ?_, ?_⟩
    · rintro b (hS | rfl)
      · exact h.later b hS
      · exact h1
    · rintro b (hS | rfl) hbt hop
      · exact h.tie b hS hbt hop
      · exact h2 hbt hop

/-- **Scanning in any order ends with an unbeaten operation.** -/
lemma foldl_keepBetter (first : α) (l : List α) :
    Unbeaten time op (l.foldl (keepBetter time op) first) (· ∈ first :: l) := by
  have hgen : ∀ (l : List α) (r : α) (S : α → Prop), Unbeaten time op r S →
      Unbeaten time op (l.foldl (keepBetter time op) r) (fun b => S b ∨ b ∈ l) := by
    intro l
    induction l with
    | nil =>
      intro r S h
      simpa using h
    | cons a l ih =>
      intro r S h
      have hstep := ih _ _ (h.keepBetter a)
      rw [List.foldl_cons]
      have hS : (fun b => (S b ∨ b = a) ∨ b ∈ l) = fun b => S b ∨ b ∈ a :: l := by
        funext b
        simp [or_assoc]
      rwa [hS] at hstep
  have hfirst : Unbeaten time op first (fun b => b = first) :=
    ⟨rfl, by rintro b rfl; exact le_rfl, by rintro b rfl _ h; exact h⟩
  have hall := hgen l first _ hfirst
  simpa only [List.mem_cons] using hall

end

/-!
## Timelines of assertions and retractions

One fact over time: a list of items, each with an operation (`true` asserts, `false`
retracts) and a time. Items are ordered by time, and at one time a retraction stands
before an assertion (`rank`).

* `endState p l`: presence after the items of `l`, starting from presence `p`;
* `transitions p l`: the items that change presence; `FlipsFrom p l` says that all do;
* `stateAt p l τ`: presence after the items up to time `τ`.
-/

open List Prod Prod.Lex

variable {α T : Type*}

section Ops

variable (op : α → Bool)

/-- Presence after the items of a list, starting from `p`. -/
def endState (p : Bool) : List α → Bool
  | [] => p
  | a :: l => endState (op a) l

/-- The items that change presence, starting from `p`. -/
def transitions (p : Bool) : List α → List α
  | [] => []
  | a :: l => if op a = p then transitions p l else a :: transitions (op a) l

/-- Every item changes presence, starting from `p`. -/
def FlipsFrom (p : Bool) : List α → Prop
  | [] => True
  | a :: l => op a ≠ p ∧ FlipsFrom (op a) l

variable {op} {p : Bool} {l l₁ l₂ : List α}

@[simp] lemma endState_nil : endState op p [] = p := rfl

@[simp] lemma endState_append : endState op p (l₁ ++ l₂) = endState op (endState op p l₁) l₂ := by
  induction l₁ generalizing p with
  | nil => rfl
  | cons a l ih => exact ih

lemma endState_eq_getLast (h : l ≠ []) : endState op p l = op (l.getLast h) := by
  induction l generalizing p with
  | nil => exact absurd rfl h
  | cons a l ih =>
    by_cases hl : l = []
    · subst hl; rfl
    · rw [getLast_cons hl]; exact ih hl

@[simp] lemma transitions_append :
    transitions op p (l₁ ++ l₂) = transitions op p l₁ ++ transitions op (endState op p l₁) l₂ := by
  induction l₁ generalizing p with
  | nil => rfl
  | cons a l ih =>
    simp only [cons_append, transitions, endState]
    split
    · rename_i h; rw [ih, h]
    · rw [ih, cons_append]

lemma transitions_sublist : (transitions op p l).Sublist l := by
  induction l generalizing p with
  | nil => exact List.Sublist.refl _
  | cons a l ih =>
    unfold transitions
    split
    · exact ih.trans (sublist_cons_self a l)
    · exact ih.cons_cons a

@[simp] lemma endState_transitions : endState op p (transitions op p l) = endState op p l := by
  induction l generalizing p with
  | nil => rfl
  | cons a l ih =>
    unfold transitions
    split
    · rename_i h; rw [ih, ← h]; rfl
    · exact ih

lemma flipsFrom_transitions : FlipsFrom op p (transitions op p l) := by
  induction l generalizing p with
  | nil => trivial
  | cons a l ih =>
    unfold transitions
    split
    · exact ih
    · rename_i h; exact ⟨h, ih⟩

lemma transitions_map {β : Type*} (f : β → α) (l : List β) :
    transitions op p (l.map f) = (transitions (fun b => op (f b)) p l).map f := by
  induction l generalizing p with
  | nil => rfl
  | cons b l ih =>
    simp only [map_cons, transitions]
    split
    · exact ih
    · rw [ih, map_cons]

lemma endState_map {β : Type*} (f : β → α) (l : List β) :
    endState op p (l.map f) = endState (fun b => op (f b)) p l := by
  induction l generalizing p with
  | nil => rfl
  | cons b l ih => exact ih

lemma flipsFrom_append :
    FlipsFrom op p (l₁ ++ l₂) ↔ FlipsFrom op p l₁ ∧ FlipsFrom op (endState op p l₁) l₂ := by
  induction l₁ generalizing p with
  | nil => simp [FlipsFrom]
  | cons a l ih => simp [FlipsFrom, endState, ih, and_assoc]

end Ops

section Times

variable [LinearOrder T] (time : α → T) (op : α → Bool)

/-- Items are ordered by time, a retraction before an assertion of the same time. -/
def rank (a : α) : T ×ₗ Bool := toLex (time a, op a)

def upTo (τ : T) (l : List α) : List α := l.filter (fun a => decide (time a ≤ τ))

def after (τ : T) (l : List α) : List α := l.filter (fun a => !decide (time a ≤ τ))

def stateAt (p : Bool) (l : List α) (τ : T) : Bool := endState op p (upTo time τ l)

/-- The latest time up to `τ` holds an assertion. -/
def LastAssert (S : α → Prop) (τ : T) : Prop :=
  ∃ a, S a ∧ op a = true ∧ time a ≤ τ ∧ ∀ b, S b → time b ≤ τ → time b ≤ time a

variable {time op} {p : Bool} {l l₁ l₂ : List α} {τ : T}

variable {a : α}

lemma time_le_of_rank_le (h : rank time op a ≤ rank time op b) : time a ≤ time b := by
  rcases le_iff.1 h with h | h
  · exact le_of_lt h
  · exact le_of_eq h.1

lemma rank_le_of_time_le (h : time a ≤ time b) (hb : op b = true) :
    rank time op a ≤ rank time op b := by
  refine le_iff.2 ?_
  rcases lt_or_eq_of_le h with h | h
  · exact .inl h
  refine .inr ⟨h, ?_⟩
  show op a ≤ op b
  rw [hb]; exact Bool.le_true _

lemma rank_le_iff {time b} :
    rank time op a ≤ rank time op b ↔ time a * 2 + (op a).toNat ≤ time b * 2 + (op b).toNat := by
  have h1 := Bool.toNat_le (op a)
  have h2 := Bool.toNat_le (op b)
  have hop : op a ≤ op b ↔ (op a).toNat ≤ (op b).toNat := by cases op a <;> cases op b <;> decide
  have hlex : rank time op a ≤ rank time op b ↔ time a < time b ∨ time a = time b ∧ op a ≤ op b :=
    le_iff
  rw [hlex, hop]
  omega

lemma Asc.of_rank (h : Asc (rank time op) l) : Asc time l := h.imp time_le_of_rank_le

@[simp] lemma upTo_append : upTo time τ (l₁ ++ l₂) = upTo time τ l₁ ++ upTo time τ l₂ :=
  filter_append ..

@[simp] lemma mem_upTo : a ∈ upTo time τ l ↔ a ∈ l ∧ time a ≤ τ := by simp [upTo]

@[simp] lemma mem_after : a ∈ after time τ l ↔ a ∈ l ∧ τ < time a := by simp [after]

lemma upTo_eq_self (h : ∀ a ∈ l, time a ≤ τ) : upTo time τ l = l :=
  filter_eq_self.2 fun a ha => by simpa using h a ha

lemma upTo_eq_nil (h : ∀ a ∈ l, τ < time a) : upTo time τ l = [] :=
  filter_eq_nil_iff.2 fun a ha => by simpa using h a ha

lemma upTo_append_after (h : Asc time l) : upTo time τ l ++ after time τ l = l := by
  rw [upTo, after, ← (h.splits_le τ).takeWhile_eq, ← (h.splits_le τ).dropWhile_eq,
    takeWhile_append_dropWhile]

lemma stateAt_append :
    stateAt time op p (l₁ ++ l₂) τ = stateAt time op (stateAt time op p l₁ τ) l₂ τ := by
  simp [stateAt]

lemma stateAt_cons : stateAt time op p (a :: l) τ =
    if time a ≤ τ then stateAt time op (op a) l τ else stateAt time op p l τ := by
  by_cases h : time a ≤ τ <;> simp [stateAt, upTo, h, endState]

lemma stateAt_map {β : Type*} (f : β → α) (l : List β) :
    stateAt time op p (l.map f) τ = stateAt (fun b => time (f b)) (fun b => op (f b)) p l τ := by
  rw [stateAt, upTo, filter_map, endState_map]
  rfl

lemma stateAt_of_lt (h : ∀ a ∈ l, τ < time a) : stateAt time op p l τ = p := by
  rw [stateAt, upTo_eq_nil h, endState_nil]

lemma stateAt_of_le (h : ∀ a ∈ l, time a ≤ τ) : stateAt time op p l τ = endState op p l := by
  rw [stateAt, upTo_eq_self h]

/-- **Dropping the items that change nothing changes presence at no time.** -/
lemma stateAt_transitions (h : Asc time l) :
    stateAt time op p (transitions op p l) τ = stateAt time op p l τ := by
  have hsplit := congrArg (transitions op p) (upTo_append_after (τ := τ) h)
  rw [transitions_append] at hsplit
  have hpast : ∀ a ∈ transitions op p (upTo time τ l), time a ≤ τ :=
    fun a ha => (mem_upTo.1 (transitions_sublist.subset ha)).2
  have hfuture : ∀ a ∈ transitions op (endState op p (upTo time τ l)) (after time τ l), τ < time a :=
    fun a ha => (mem_after.1 (transitions_sublist.subset ha)).2
  rw [← hsplit, stateAt_append, stateAt_of_lt hfuture, stateAt_of_le hpast, endState_transitions,
    stateAt]

/-- **Presence from the end.** In a list of transitions, presence at `τ` is the opposite of
the first operation after `τ`, and the end state when there is none. -/
lemma stateAt_eq_undo (h : Asc time l) (hf : FlipsFrom op p l) :
    stateAt time op p l τ =
      match (after time τ l).head? with
      | some a => !op a
      | none => endState op p l := by
  have hsplit := upTo_append_after (τ := τ) h
  rw [← hsplit, flipsFrom_append] at hf
  cases ha : after time τ l with
  | nil =>
    rw [ha, append_nil] at hsplit
    simp [stateAt, hsplit]
  | cons a =>
    have hne : op a ≠ endState op p (upTo time τ l) := (ha ▸ hf.2).1
    simp only [List.head?_cons, stateAt]
    cases h1 : op a <;> cases h2 : endState op p (upTo time τ l) <;> simp_all

lemma endState_iff_lastAssert (h : Asc (rank time op) l) :
    endState op false l = true ↔ ∃ a ∈ l, op a = true ∧ ∀ b ∈ l, time b ≤ time a := by
  by_cases hn : l = []
  · subst hn
    simp
  · have hlast := getLast_mem hn
    have hmax : ∀ b ∈ l, rank time op b ≤ rank time op (l.getLast hn) := by
      intro b hb
      rw [← dropLast_append_getLast hn] at hb h
      rcases mem_append.1 hb with hb | hb
      · exact (pairwise_append.1 h).2.2 b hb _ (by simp)
      · rw [mem_singleton.1 hb]
    rw [endState_eq_getLast hn]
    constructor
    · intro hop
      exact ⟨_, hlast, hop, fun b hb => time_le_of_rank_le (hmax b hb)⟩
    · rintro ⟨a, ha, hop, hm⟩
      -- the last item is at most `a` in time, and `a`, an assertion, is at most the last item
      have h1 := hmax a ha
      have h2 := rank_le_of_time_le (hm _ hlast) hop
      have h3 := congrArg (fun r : T ×ₗ Bool => (ofLex r).2) (le_antisymm h1 h2)
      exact h3.symm.trans hop

/-- **Presence at `τ` means that the latest time up to `τ` holds an assertion.** -/
lemma stateAt_iff_lastAssert (h : Asc (rank time op) l) :
    stateAt time op false l τ = true ↔ LastAssert time op (· ∈ l) τ := by
  have hs : Asc (rank time op) (upTo time τ l) := h.sublist filter_sublist
  rw [stateAt, endState_iff_lastAssert hs]
  constructor
  · rintro ⟨a, ha, hop, hm⟩
    obtain ⟨hal, hτ⟩ := mem_upTo.1 ha
    exact ⟨a, hal, hop, hτ, fun b hb hbτ => hm b (mem_upTo.2 ⟨hb, hbτ⟩)⟩
  · rintro ⟨a, hal, hop, hτ, hm⟩
    refine ⟨a, mem_upTo.2 ⟨hal, hτ⟩, hop, fun b hb => ?_⟩
    obtain ⟨hbl, hbτ⟩ := mem_upTo.1 hb
    exact hm b hbl hbτ

end Times

/-! ## A timeline that follows another -/

section Tracks

variable [LinearOrder T]

/-- `L` shows the same presence as `R` at every time and uses no other times. -/
structure Tracks (L R : List (T × Bool)) : Prop where
  times : ∀ a ∈ L, ∃ b ∈ R, b.1 = a.1
  state : ∀ τ, stateAt fst snd false L τ = stateAt fst snd false R τ

lemma Tracks.nil : Tracks ([] : List (T × Bool)) [] := ⟨by simp, fun _ => rfl⟩

/-- **Extending both timelines by a later part.** It is enough that the two new parts agree when
started from the presence the first timeline ends in. -/
lemma Tracks.append {L R M E : List (T × Bool)} (h : Tracks L R)
    (hlt : ∀ a ∈ R, ∀ b ∈ E, a.1 < b.1) (hM : ∀ a ∈ M, ∃ b ∈ E, b.1 = a.1)
    (hst : ∀ τ, stateAt fst snd (endState snd false L) M τ =
      stateAt fst snd (endState snd false L) E τ) : Tracks (L ++ M) (R ++ E) := by
  refine ⟨?_, fun τ => ?_⟩
  · intro a ha
    rcases mem_append.1 ha with ha | ha
    · obtain ⟨b, hb, he⟩ := h.times a ha
      exact ⟨b, mem_append_left _ hb, he⟩
    · obtain ⟨b, hb, he⟩ := hM a ha
      exact ⟨b, mem_append_right _ hb, he⟩
  · rw [stateAt_append, stateAt_append]
    by_cases hτ : ∀ b ∈ E, τ < b.1
    · have hMτ : ∀ a ∈ M, τ < a.1 := fun a ha => by
        obtain ⟨b, hb, he⟩ := hM a ha
        exact he ▸ hτ b hb
      rw [stateAt_of_lt hMτ, stateAt_of_lt hτ, h.state]
    · -- some new item is at or before `τ`, so all old items are
      simp only [not_forall, not_lt] at hτ
      obtain ⟨e, he, heτ⟩ := hτ
      have hR : ∀ a ∈ R, a.1 ≤ τ := fun a ha => ((hlt a ha e he).trans_le heτ).le
      have hL : ∀ a ∈ L, a.1 ≤ τ := fun a ha => by
        obtain ⟨b, hb, hbe⟩ := h.times a ha
        exact hbe ▸ hR b hb
      have hend := h.state τ
      rw [stateAt_of_le hL, stateAt_of_le hR] at hend
      rw [stateAt_of_le hL, stateAt_of_le hR, ← hend, hst]

/-- `M` is a list of transitions from presence `p` that shows the same presence as `E` at every
time and uses no other times. -/
structure Condenses (p : Bool) (E M : List (T × Bool)) : Prop where
  asc : StrictAsc (rank fst snd) M
  flips : FlipsFrom snd p M
  times : ∀ a ∈ M, ∃ b ∈ E, b.1 = a.1
  state : ∀ τ, stateAt fst snd p M τ = stateAt fst snd p E τ

lemma StrictAsc.rank_of_time {α : Type*} {time : α → T} {op : α → Bool} {l : List α}
    (h : StrictAsc time l) : StrictAsc (rank time op) l := by
  refine List.Pairwise.imp ?_ h
  intro a b hab
  exact lt_iff.2 (.inl hab)

lemma Condenses.transitions {E : List (T × Bool)} (h : StrictAsc fst E) (p : Bool) :
    Condenses p E (transitions snd p E) := by
  have hs : StrictAsc fst (Lib.transitions snd p E) := h.sublist transitions_sublist
  refine ⟨hs.rank_of_time, flipsFrom_transitions, ?_, ?_⟩
  · intro a ha
    exact ⟨a, transitions_sublist.subset ha, rfl⟩
  · intro τ
    exact stateAt_transitions h.asc

/-- A renewed assertion may be written as a retraction and an assertion at one time. -/
lemma Condenses.renew (t : T) : Condenses true [(t, true)] [(t, false), (t, true)] := by
  refine ⟨?_, by simp [FlipsFrom], by simp, ?_⟩
  · have hlt : rank fst snd ((t, false) : T × Bool) < rank fst snd (t, true) :=
      lt_iff.2 (.inr ⟨rfl, show false < true from by decide⟩)
    simpa [StrictAsc] using hlt
  · intro τ
    simp only [stateAt_cons]
    split <;> rfl

end Tracks

end Fluree.Lib
