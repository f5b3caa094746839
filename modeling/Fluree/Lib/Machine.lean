import Mathlib.Data.List.Basic
import Mathlib.Data.Nat.Init

/-!
# Devices that lose what was not synced

An operation on a device is issued, and durable once its target has been synced. A crash keeps
what is durable; each operation still pending is lost, kept, or leaves a state in between
(`Device.torn`).

A program that syncs each operation before it issues the next (`durably`) has at most one
operation pending. `CrashSafe` is the rule for such programs: a property that holds before every
operation, after the last one, and in whatever an operation leaves behind when it is torn, holds
after a crash at any step (`crashSafe_sound`).
-/

namespace Fluree.Lib

open List

/-- A device with state `D`, operations `O` and targets of a sync `T`. -/
structure Device (D O T : Type*) where
  target : O → T
  apply : O → D → D
  /-- States that an operation can leave when it was not synced, besides lost and kept. -/
  torn : O → D → D → Prop

inductive DeviceStep (O T : Type*) where
  | issue (o : O)
  | sync (t : T)

/-- What is durable, and the operations issued since. -/
structure DeviceState (D O : Type*) where
  durable : D
  pending : List O

namespace Device

variable {D O T : Type*} [DecidableEq T] (dev : Device D O T)

def step (s : DeviceState D O) : DeviceStep O T → DeviceState D O
  | .issue o => { s with pending := s.pending ++ [o] }
  | .sync t =>
    { durable := (s.pending.filter (fun o => dev.target o = t)).foldl (fun d o => dev.apply o d) s.durable,
      pending := s.pending.filter (fun o => dev.target o ≠ t) }

/-- What the device holds after a crash with operations pending. -/
inductive Survives : List O → D → D → Prop where
  | nil (d : D) : Survives [] d d
  | lost {o : O} {os : List O} {d d' : D} : Survives os d d' → Survives (o :: os) d d'
  | kept {o : O} {os : List O} {d d' : D} : Survives os (dev.apply o d) d' → Survives (o :: os) d d'
  | torn {o : O} {os : List O} {d d₁ d' : D} : dev.torn o d d₁ → Survives os d₁ d' →
      Survives (o :: os) d d'

def exec (trace : List (DeviceStep O T)) (d : D) : DeviceState D O := trace.foldl dev.step ⟨d, []⟩

def CrashesTo (trace : List (DeviceStep O T)) (d d' : D) : Prop :=
  ∃ k, dev.Survives (dev.exec (trace.take k) d).pending (dev.exec (trace.take k) d).durable d'

def durably (o : O) : List (DeviceStep O T) := [.issue o, .sync (dev.target o)]

lemma foldl_step_durably (o : O) (d : D) :
    (dev.durably o).foldl dev.step ⟨d, []⟩ = ⟨dev.apply o d, []⟩ := by
  simp [durably, step]

lemma exec_durably (ops : List O) (d : D) :
    dev.exec (ops.flatMap dev.durably) d = ⟨ops.foldl (fun d o => dev.apply o d) d, []⟩ := by
  unfold exec
  induction ops generalizing d with
  | nil => rfl
  | cons _ _ ih => rw [flatMap_cons, foldl_append, foldl_step_durably, ih, foldl_cons]

/-- `Q` holds between the operations and in every torn state. -/
def CrashSafe (Q : D → Prop) : List O → D → Prop
  | [], d => Q d
  | o :: ops, d => Q d ∧ (∀ d', dev.torn o d d' → Q d') ∧ CrashSafe Q ops (dev.apply o d)

variable {dev}

variable {Q : D → Prop} {ops : List O} {d : D}

omit [DecidableEq T] in
lemma CrashSafe.here (h : dev.CrashSafe Q ops d) : Q d := by
  cases ops with
  | nil => exact h
  | cons => exact h.1

omit [DecidableEq T] in
lemma CrashSafe.append {ops' : List O} (h : dev.CrashSafe Q ops d)
    (h' : dev.CrashSafe Q ops' (ops.foldl (fun d o => dev.apply o d) d)) :
    dev.CrashSafe Q (ops ++ ops') d := by
  induction ops generalizing d with
  | nil => exact h'
  | cons _ _ ih => exact ⟨h.1, h.2.1, ih h.2.2 h'⟩

omit [DecidableEq T] in
lemma CrashSafe.mono {Q' : D → Prop} (hQ : ∀ d, Q d → Q' d) (h : dev.CrashSafe Q ops d) :
    dev.CrashSafe Q' ops d := by
  induction ops generalizing d with
  | nil => exact hQ d h
  | cons _ _ ih => exact ⟨hQ d h.1, fun d' hd' => hQ d' (h.2.1 d' hd'), ih h.2.2⟩

/-- **A crash at any step of a safe program leaves a state with the property.** -/
lemma crashSafe_sound {d' : D} (h : dev.CrashSafe Q ops d)
    (hcrash : dev.CrashesTo (ops.flatMap dev.durably) d d') : Q d' := by
  obtain ⟨k, hk⟩ := hcrash
  induction ops generalizing d k with
  | nil =>
    rw [flatMap_nil, take_nil] at hk
    cases hk
    exact h
  | cons o ops ih =>
    rw [flatMap_cons] at hk
    match k with
    | 0 =>
      cases hk
      exact h.1
    | 1 =>
      -- the operation is issued and not synced
      change dev.Survives [o] d d' at hk
      cases hk with
      | lost hrest => cases hrest; exact h.1
      | kept hrest => cases hrest; exact h.2.2.here
      | torn ht hrest => cases hrest; exact h.2.1 _ ht
    | k + 2 =>
      have htake : ((dev.durably o) ++ ops.flatMap dev.durably).take (k + 2) =
          dev.durably o ++ (ops.flatMap dev.durably).take k := rfl
      have hexec : dev.exec (((dev.durably o) ++ ops.flatMap dev.durably).take (k + 2)) d =
          dev.exec ((ops.flatMap dev.durably).take k) (dev.apply o d) := by
        rw [htake, exec, foldl_append, foldl_step_durably]
        rfl
      rw [hexec] at hk
      exact ih h.2.2 k hk

end Device

end Fluree.Lib

/-!
## Runs of a state machine

A machine is a step function and a start state, a run is a list of labels. `stateAt n` is the
state before label `n`.
-/

namespace Fluree.Lib.Machine

open List

variable {S L : Type*} (step : S → L → S) (start : S) (labels : List L)

def stateAt (n : ℕ) : S := (labels.take n).foldl step start

variable {step start labels}

lemma stateAt_succ (h : labels[n]? = some l) :
    stateAt step start labels (n + 1) = step (stateAt step start labels n) l := by
  unfold stateAt
  rw [take_add_one, h, Option.toList_some, foldl_append]
  rfl

lemma stateAt_succ_of_none (h : labels[n]? = none) :
    stateAt step start labels (n + 1) = stateAt step start labels n := by
  unfold stateAt
  rw [take_add_one, h, Option.toList_none, append_nil]

/-- **Invariants.** -/
lemma invariant (Inv : S → Prop) (ok : S → L → Prop) (hstart : Inv start)
    (hstep : ∀ s l, Inv s → ok s l → Inv (step s l))
    (hok : ∀ n l, labels[n]? = some l → ok (stateAt step start labels n) l) (n : ℕ) :
    Inv (stateAt step start labels n) := by
  induction n with
  | zero => exact hstart
  | succ n ih =>
    cases h : labels[n]? with
    | some l => rw [stateAt_succ h]; exact hstep _ _ ih (hok n l h)
    | none => rw [stateAt_succ_of_none h]; exact ih

/-- **From one position to a later one.** -/
lemma persists {P : S → Prop} (hnm : n ≤ m) (hn : P (stateAt step start labels n))
    (hstep : ∀ j l, n ≤ j → j < m → labels[j]? = some l → P (stateAt step start labels j) →
      P (step (stateAt step start labels j) l)) : P (stateAt step start labels m) := by
  induction m, hnm using Nat.le_induction with
  | base => exact hn
  | succ m hnm ih =>
    have hm := ih fun j l hj hjm => hstep j l hj (by omega)
    cases h : labels[m]? with
    | some l => rw [stateAt_succ h]; exact hstep m l hnm (by omega) h hm
    | none => rw [stateAt_succ_of_none h]; exact hm

/-- A property that holds at `n` and not at `m` fails for good after some step between them. -/
lemma exists_last {P : ℕ → Prop} (hnm : n ≤ m) (hn : P n) (hm : ¬ P m) :
    ∃ j, n ≤ j ∧ j < m ∧ P j ∧ ∀ l, j < l → l ≤ m → ¬ P l := by
  induction m, hnm using Nat.le_induction with
  | base => exact absurd hn hm
  | succ m hnm ih =>
    by_cases hp : P m
    · refine ⟨m, hnm, Nat.lt_succ_self m, hp, fun l hml hlm => ?_⟩
      obtain rfl : l = m + 1 := by omega
      exact hm
    · obtain ⟨j, hnj, hjm, hj, hlast⟩ := ih hp
      refine ⟨j, hnj, Nat.lt_succ_of_lt hjm, hj, fun l hjl hlm => ?_⟩
      rcases Nat.lt_or_ge m l with h | h
      · obtain rfl : l = m + 1 := by omega
        exact hm
      · exact hlast l hjl h

/-- Two lists of labels that differ in hidden labels only. -/
inductive Alike (hidden : L → Bool) : List L → List L → Prop
  | nil : Alike hidden [] []
  | left {l : L} {ls ms : List L} : hidden l = true → Alike hidden ls ms → Alike hidden (l :: ls) ms
  | right {l : L} {ls ms : List L} : hidden l = true → Alike hidden ls ms → Alike hidden ls (l :: ms)
  | both {l : L} {ls ms : List L} : hidden l = false → Alike hidden ls ms →
      Alike hidden (l :: ls) (l :: ms)

variable {hidden : L → Bool} {ls ms : List L}

lemma Alike.mem (h : Alike hidden ls ms) {l : L}
    (hl : l ∈ ls) (hvisible : hidden l = false) : l ∈ ms := by
  induction h with
  | nil => exact hl
  | left hhidden _ ih =>
    rcases mem_cons.1 hl with rfl | hl
    · rw [hhidden] at hvisible
      cases hvisible
    · exact ih hl
  | right _ _ ih => exact mem_cons_of_mem _ (ih hl)
  | both _ _ ih =>
    rcases mem_cons.1 hl with rfl | hl
    · exact mem_cons_self
    · exact mem_cons_of_mem _ (ih hl)

lemma alike_hidden (h : ∀ l ∈ ms, hidden l = true)
    (hl : Alike hidden ls []) : Alike hidden ls ms := by
  induction ms with
  | nil => exact hl
  | cons m _ ih => exact .right (h m mem_cons_self) (ih fun l hm => h l (mem_cons_of_mem _ hm))

/-- **The same visible labels.** -/
lemma alike_of_filter_eq
    (h : ls.filter (fun l => !hidden l) = ms.filter (fun l => !hidden l)) : Alike hidden ls ms := by
  induction ls generalizing ms with
  | nil =>
    refine alike_hidden (fun l hl => ?_) .nil
    simpa using filter_eq_nil_iff.1 h.symm l hl
  | cons l _ ih =>
    cases hl : hidden l with
    | true => exact .left hl (ih (by simpa [hl] using h))
    | false =>
      -- the hidden labels of the other list come first, then this one
      rw [filter_cons_of_pos (by simp [hl])] at h
      induction ms with
      | nil => simp at h
      | cons m _ ihm =>
        cases hm : hidden m with
        | true => exact .right hm (ihm (by simpa [hm] using h))
        | false =>
          rw [filter_cons_of_pos (by simp [hm])] at h
          obtain ⟨rfl, htail⟩ := List.cons.inj h
          exact .both hl (ih htail)

end Fluree.Lib.Machine
