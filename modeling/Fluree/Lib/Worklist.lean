import Mathlib.Order.Lattice
import Fluree.Lib.Numbering
import Mathlib.Algebra.Order.BigOperators.Group.Finset
import Mathlib.Algebra.Ring.Nat
import Mathlib.Logic.Relation

/-!
# Loops run with fuel

A loop of unknown length is a function of a fuel: `loop turn n s` takes at most `n` turns from
`s`, and gives each turn the fuel that is left for the loops inside it. A run that needs more fuel
ends in `Halt.outOfFuel`. `Returns f r` says that `f` ends in `r` once the fuel is large enough.

* `Returns.again`, `Returns.leave`, `Returns.fail`: what one turn says about the loop.
-/

namespace Fluree.Lib

section

/-- How a run ends without a value: it needs more fuel, or the program fails. -/
inductive Halt (ε : Type) where
  | outOfFuel
  | failed (e : ε)
deriving DecidableEq

/-- What a turn of a loop decides: another turn, or to leave with a value. -/
inductive Turn (σ ρ : Type) where
  | again (s : σ)
  | leave (r : ρ)

/-- The same decision over another type of states. -/
def Turn.map {σ τ ρ : Type} (f : σ → τ) : Turn σ ρ → Turn τ ρ
  | .again s => .again (f s)
  | .leave r => .leave r

variable {ε σ ρ α β : Type}

def loop (turn : ℕ → σ → Except (Halt ε) (Turn σ ρ)) : ℕ → σ → Except (Halt ε) ρ
  | 0, _ => .error .outOfFuel
  | n + 1, s =>
    match turn n s with
    | .error e => .error e
    | .ok (.again s') => loop turn n s'
    | .ok (.leave r) => .ok r

/-- A result of the program as the result of a run. -/
def ended : Except ε α → Except (Halt ε) α
  | .ok a => .ok a
  | .error e => .error (.failed e)

/-- `f` ends in `r` whenever the fuel is large enough. -/
def Returns (f : ℕ → Except (Halt ε) α) (r : Except ε α) : Prop := ∃ N, ∀ n, N ≤ n → f n = ended r

/-- No fuel lets `f` end. -/
def NeverReturns (f : ℕ → Except (Halt ε) α) : Prop := ∀ r, ¬ Returns f r

variable {r : Except ε α} {f : ℕ → Except (Halt ε) α}

lemma ended_injective (h : ended r = ended r') : r = r' := by
  cases r <;> cases r' <;> simp_all [ended]

/-- **A run ends in one way.** -/
lemma Returns.unique (h : Returns f r) (h' : Returns f r') : r = r' := by
  obtain ⟨N, hN⟩ := h
  obtain ⟨N', hN'⟩ := h'
  refine ended_injective ?_
  rw [← hN _ (Nat.le_max_left N N'), ← hN' _ (Nat.le_max_right N N')]

lemma returns_of_eq (h : ∀ n, f n = ended r) : Returns f r := ⟨0, fun n _ => h n⟩

variable {g : ℕ → α → Except (Halt ε) β} {r : Except ε β} {a : α}

lemma Returns.bind (hf : Returns f (.ok a)) (hg : Returns (fun n => g n a) r) :
    Returns (fun n => f n >>= g n) r := by
  obtain ⟨N, hN⟩ := hf
  obtain ⟨M, hM⟩ := hg
  refine ⟨max N M, fun n hn => ?_⟩
  show (f n >>= g n) = _
  rw [hN n (by omega)]
  exact hM n (by omega)

lemma Returns.bind_iff
    (hf : Returns f (.ok a)) : Returns (fun n => f n >>= g n) r ↔ Returns (fun n => g n a) r := by
  refine ⟨?_, hf.bind⟩
  obtain ⟨N, hN⟩ := hf
  rintro ⟨M, hM⟩
  refine ⟨max N M, fun n hn => ?_⟩
  have h := hM n (by omega)
  simp only [hN n (by omega)] at h
  exact h

lemma returns_const_iff {x : Except (Halt ε) α} : Returns (fun _ => x) (.ok a) ↔ x = .ok a :=
  ⟨fun ⟨N, hN⟩ => hN N (Nat.le_refl N), fun h => returns_of_eq fun _ => h⟩

section Loops

variable {turn : ℕ → σ → Except (Halt ε) (Turn σ ρ)} {s s' : σ}

/-- **A turn that goes on** leaves the loop to the new state. -/
lemma Returns.again_iff (h : Returns (turn · s) (.ok (.again s'))) {r} :
    Returns (loop turn · s) r ↔ Returns (loop turn · s') r := by
  obtain ⟨N, hN⟩ := h
  have hstep : ∀ n, N ≤ n → loop turn (n + 1) s = loop turn n s' := fun n hn => by
    rw [loop, show turn n s = .ok (.again s') from hN n hn]
  constructor
  · rintro ⟨M, hM⟩
    refine ⟨max N M, fun n hn => ?_⟩
    show loop turn n s' = _
    rw [← hstep n (by omega)]
    exact hM (n + 1) (by omega)
  · rintro ⟨M, hM⟩
    refine ⟨max N M + 1, fun n hn => ?_⟩
    obtain ⟨m, rfl⟩ : ∃ m, n = m + 1 := ⟨n - 1, by omega⟩
    show loop turn (m + 1) s = _
    rw [hstep m (by omega)]
    exact hM m (by omega)

lemma Returns.again (h : Returns (turn · s) (.ok (.again s'))) {r}
    (hr : Returns (loop turn · s') r) : Returns (loop turn · s) r :=
  (Returns.again_iff h).2 hr

lemma Returns.leave {r} (h : Returns (turn · s) (.ok (.leave r))) :
    Returns (loop turn · s) (.ok r) := by
  obtain ⟨N, hN⟩ := h
  refine ⟨N + 1, fun n hn => ?_⟩
  obtain ⟨m, rfl⟩ : ∃ m, n = m + 1 := ⟨n - 1, by omega⟩
  show loop turn (m + 1) s = _
  rw [loop, show turn m s = .ok (.leave r) from hN m (by omega)]
  rfl

/-- **Invariant and measure.** A loop whose every turn keeps the invariant, lowers the measure or
leaves with what is wanted, ends with what is wanted. -/
lemma loop_returns (Inv : σ → Prop) (Post : ρ → Prop) (measure : σ → ℕ) (hturn : ∀ s, Inv s →
      (∃ s', Returns (turn · s) (.ok (.again s')) ∧ Inv s' ∧ measure s' < measure s) ∨
      (∃ r, Returns (turn · s) (.ok (.leave r)) ∧ Post r))
    (hs : Inv s) : ∃ r, Returns (loop turn · s) (.ok r) ∧ Post r := by
  induction hm : measure s using Nat.strong_induction_on generalizing s with
  | _ m ih =>
    rcases hturn s hs with ⟨s', hagain, hinv, hlt⟩ | ⟨r, hleave, hpost⟩
    · obtain ⟨r, hr, hpost⟩ := ih (measure s') (hm ▸ hlt) hinv rfl
      exact ⟨r, hagain.again hr, hpost⟩
    · exact ⟨r, hleave.leave, hpost⟩

/-- **A turn that changes nothing** is taken forever. -/
lemma neverReturns_of_fixed (h : ∀ n, turn n s = .ok (.again s)) :
    NeverReturns (loop turn · s) := by
  have hout : ∀ n, loop turn n s = .error .outOfFuel := by
    intro n
    induction n with
    | zero => rfl
    | succ n ih => rw [loop, h n]; exact ih
  rintro r ⟨N, hN⟩
  have hend : Except.error .outOfFuel = ended r := (hout N).symm.trans (hN N (Nat.le_refl N))
  cases r <;> cases hend

/-- More fuel does not change a value that `f` has returned. -/
def Steady (f : ℕ → Except (Halt ε) α) : Prop := ∀ n a, f n = .ok a → ∀ m, n ≤ m → f m = .ok a

variable {f : ℕ → Except (Halt ε) α}

lemma Steady.returns (hf : Steady f) (h : f n = .ok a) :
    Returns f (.ok a) := ⟨n, fun m hm => hf n a h m hm⟩

lemma steady_const (x : Except (Halt ε) α) : Steady fun _ => x := fun _ _ h _ _ => h

lemma Steady.bind (hf : Steady f) (hg : ∀ a, Steady (g · a)) : Steady fun n => f n >>= g n := by
  intro n b h m hm
  cases hn : f n with
  | error =>
    simp only [hn] at h
    cases h
  | ok a =>
    simp only [hn] at h
    simp only [hf n a hn m hm]
    exact hg a n b h m hm

lemma Steady.exists_of_bind {g : α → Except (Halt ε) β} {b : β} (hf : Steady f)
    (h : Returns (fun n => f n >>= g) (.ok b)) : ∃ a, Returns f (.ok a) ∧ g a = .ok b := by
  obtain ⟨N, hN⟩ := h
  have hend := hN N (Nat.le_refl N)
  cases hn : f N with
  | error =>
    simp only [hn] at hend
    cases hend
  | ok a =>
    simp only [hn] at hend
    exact ⟨a, hf.returns hn, hend⟩

lemma steady_loop (turn : σ → Except (Halt ε) (Turn σ ρ)) (s : σ) :
    Steady (loop (fun _ => turn) · s) := by
  intro n a h m hm
  induction n generalizing s m with
  | zero => cases h
  | succ n ih =>
    obtain ⟨m, rfl⟩ : ∃ k, m = k + 1 := ⟨m - 1, by omega⟩
    simp only [loop] at h ⊢
    cases hturn : turn s with
    | error => rw [hturn] at h; cases h
    | ok decision =>
      rw [hturn] at h
      cases decision with
      | again s' => exact ih s' h m (by omega)
      | leave => exact h

/-- A turn that needs no fuel: a loop that has ended ends the same way with more fuel. -/
lemma returns_of_loop_eq {turn : σ → Except (Halt ε) (Turn σ ρ)} {s : σ} {n : ℕ} {r : ρ}
    (h : loop (fun _ => turn) n s = .ok r) : Returns (loop (fun _ => turn) · s) (.ok r) :=
  (steady_loop turn s).returns h

end Loops

end

/-!
## What a worklist has still to do

A traversal of a finite graph handles each vertex once and pushes some entries when it does.
`remaining` is the sum of the weights of the vertices not handled yet: a vertex that weighs more
than the entries it pushes pays for them.
-/

open List

section

variable {α : Type} [DecidableEq α]

def remaining (all : Finset α) (weight : α → ℕ) (handled : List α) : ℕ :=
  ∑ x ∈ all.filter (· ∉ handled), weight x

variable {all : Finset α} {weight : α → ℕ} {handled : List α}

variable {x : α} {l xs : List α}

lemma remaining_cons (hx : x ∈ all) (hnew : x ∉ handled) :
    remaining all weight (x :: handled) + weight x = remaining all weight handled := by
  have herase : all.filter (· ∉ x :: handled) = (all.filter (· ∉ handled)).erase x := by
    ext y
    simp only [Finset.mem_filter, Finset.mem_erase, mem_cons, not_or]
    tauto
  unfold remaining
  rw [herase]
  exact Finset.sum_erase_add _ _ (Finset.mem_filter.2 ⟨hx, hnew⟩)

lemma remaining_congr {handled' : List α} (h : ∀ x, x ∈ handled ↔ x ∈ handled') :
    remaining all weight handled = remaining all weight handled' := by
  unfold remaining
  congr 1
  exact Finset.filter_congr fun x _ => not_congr (h x)

lemma remaining_append {new : List α} (hnew : ∀ x ∈ new, x ∈ all) (hnodup : new.Nodup)
    (hfresh : ∀ x ∈ new, x ∉ handled) :
    remaining all weight (handled ++ new) + (new.map weight).sum =
      remaining all weight handled := by
  induction new generalizing handled with
  | nil => simp
  | cons x new ih =>
    obtain ⟨hx, hnodup⟩ := nodup_cons.1 hnodup
    have hcons : remaining all weight (x :: handled) + weight x = remaining all weight handled :=
      remaining_cons (hnew x mem_cons_self) (hfresh x mem_cons_self)
    have hih : remaining all weight (x :: handled ++ new) + (new.map weight).sum =
        remaining all weight (x :: handled) :=
      ih (fun y hy => hnew y (mem_cons_of_mem _ hy)) hnodup
        fun y hy hmem => (mem_cons.1 hmem).elim (fun h => hx (h ▸ hy))
          (hfresh y (mem_cons_of_mem _ hy))
    have hsame : remaining all weight (handled ++ x :: new) =
        remaining all weight (x :: handled ++ new) :=
      remaining_congr fun y => by simp; tauto
    rw [hsame, map_cons, sum_cons]
    omega

/-- The elements of a list that a numbering does not have, in order. -/
def fresh (l xs : List α) : List α := (addNew l xs).drop l.length

lemma addNew_eq_append_fresh (l xs : List α) : addNew l xs = l ++ fresh l xs :=
  (prefix_iff_eq_append.1 (prefix_addNew l xs)).symm

@[simp] lemma fresh_nil (l : List α) : fresh l [] = [] := by simp [fresh]

lemma fresh_cons_of_mem (h : x ∈ l) : fresh l (x :: xs) = fresh l xs := by
  rw [fresh, addNew_cons, addOne_of_mem h, fresh]

lemma fresh_cons_of_not_mem (h : x ∉ l) : fresh l (x :: xs) = x :: fresh (l ++ [x]) xs := by
  apply append_cancel_left
  rw [← addNew_eq_append_fresh, addNew_cons, addOne_of_not_mem h, addNew_eq_append_fresh,
    append_assoc, singleton_append]

lemma mem_of_mem_fresh (h : x ∈ fresh l xs) : x ∈ xs := by
  induction xs generalizing l with
  | nil => simp at h
  | cons y _ ih =>
    by_cases hy : y ∈ l
    · rw [fresh_cons_of_mem hy] at h
      exact mem_cons_of_mem _ (ih h)
    · rw [fresh_cons_of_not_mem hy] at h
      rcases mem_cons.1 h with rfl | h
      · exact mem_cons_self
      · exact mem_cons_of_mem _ (ih h)

lemma fresh_spec (l xs : List α) : (fresh l xs).Nodup ∧ ∀ x ∈ fresh l xs, x ∉ l := by
  induction xs generalizing l with
  | nil => simp
  | cons y _ ih =>
    by_cases hy : y ∈ l
    · rw [fresh_cons_of_mem hy]
      exact ih l
    · rw [fresh_cons_of_not_mem hy]
      obtain ⟨hnodup, hfresh⟩ := ih (l ++ [y])
      refine ⟨nodup_cons.2 ⟨fun h => hfresh y h (by simp), hnodup⟩, fun x hx => ?_⟩
      rcases mem_cons.1 hx with rfl | hx
      · exact hy
      · exact fun h => hfresh x hx (mem_append_left _ h)

end

/-!
## The descendants of a vertex

A breadth-first search lists a vertex when it queues it; the vertices it has visited are the
start and those listed. `descend_spec`: with fuel for every vertex the search lists, each once,
the vertices other than the start that a chain of edges reaches.
-/

open Relation

variable {α : Type} [DecidableEq α] {children : α → List α} {start : α} {queue result : List α}

/-- Children not visited before are queued and listed. -/
def descend (children : α → List α) (start : α) : ℕ → List α → List α → List α
  | 0, _, result => result
  | _, [], result => result
  | fuel + 1, current :: rest, result =>
    let new := fresh (start :: result) (children current)
    descend children start fuel (rest ++ new) (result ++ new)

/-- A vertex that is visited and no longer queued has all its children visited. -/
structure Searching (children : α → List α) (start : α) (queue result : List α) : Prop where
  nodup : (start :: result).Nodup
  queued : ∀ x ∈ queue, x ∈ start :: result
  reached : ∀ x ∈ result, TransGen (fun a b => b ∈ children a) start x
  closed : ∀ x ∈ start :: result, x ∈ queue ∨ ∀ y ∈ children x, y ∈ start :: result

lemma Searching.visit {current : α} (h : Searching children start (current :: queue) result) :
    let new := fresh (start :: result) (children current)
    Searching children start (queue ++ new) (result ++ new) := by
  intro new
  have hfresh := fresh_spec (start :: result) (children current)
  have hall : ∀ y ∈ children current, y ∈ start :: result ++ new := by
    intro y hy
    rw [← addNew_eq_append_fresh]
    exact mem_addNew.2 (.inr hy)
  refine ⟨?_, fun x hx => ?_, fun x hx => ?_, fun x hx => ?_⟩
  · exact nodup_append.2 ⟨h.nodup, hfresh.1, fun a ha b hb hab => hfresh.2 b hb (hab ▸ ha)⟩
  · rcases mem_append.1 hx with hx | hx
    · exact mem_append_left new (h.queued x (mem_cons_of_mem _ hx))
    · exact mem_append_right (start :: result) hx
  · rcases mem_append.1 hx with hx | hx
    · exact h.reached x hx
    · have hedge : x ∈ children current := mem_of_mem_fresh hx
      rcases mem_cons.1 (h.queued current mem_cons_self) with rfl | hcurrent
      · exact .single hedge
      · exact (h.reached current hcurrent).tail hedge
  · -- only `current` leaves the queue, and its children are visited now
    rcases mem_append.1 (show x ∈ (start :: result) ++ new from hx) with hx | hx
    · rcases h.closed x hx with hx | hx
      · rcases mem_cons.1 hx with rfl | hx
        · exact .inr hall
        · exact .inl (mem_append_left _ hx)
      · exact .inr fun y hy => mem_append_left new (hx y hy)
    · exact .inl (mem_append_right _ hx)

omit [DecidableEq α] in
/-- With nothing queued the visited vertices are closed under edges. -/
lemma Searching.mem_result_iff (h : Searching children start [] result) (x : α) :
    x ∈ result ↔ x ≠ start ∧ TransGen (fun a b => b ∈ children a) start x := by
  refine ⟨fun hx => ⟨fun he => (nodup_cons.1 h.nodup).1 (he ▸ hx), h.reached x hx⟩, ?_⟩
  rintro ⟨hne, hx⟩
  have hclosed : ∀ a ∈ start :: result, ∀ b ∈ children a, b ∈ start :: result := fun a ha =>
    (h.closed a ha).resolve_left not_mem_nil
  have hmem : x ∈ start :: result := by
    clear hne
    induction hx with
    | single hb => exact hclosed start mem_cons_self _ hb
    | tail _ hb ih => exact hclosed _ ih _ hb
  exact (mem_cons.1 hmem).resolve_left hne

/-- **Descendants.** Every turn takes one vertex off the queue, and a vertex is queued once. -/
lemma descend_spec {all : List α} (hall : ∀ a, ∀ b ∈ children a, b ∈ all) {fuel : ℕ}
    (h : Searching children start queue result) (hsub : ∀ x ∈ result, x ∈ all)
    (hfuel : all.length + queue.length ≤ fuel + result.length) :
    (descend children start fuel queue result).Nodup ∧
      ∀ x, x ∈ descend children start fuel queue result ↔
        x ≠ start ∧ TransGen (fun a b => b ∈ children a) start x := by
  have hnodup := (nodup_cons.1 h.nodup).2
  induction fuel generalizing queue result with
  | zero =>
    -- what is listed uses up `all`, so nothing is queued
    have hlen : result.length ≤ all.length := (hnodup.subperm hsub).length_le
    obtain rfl : queue = [] := length_eq_zero_iff.1 (by omega)
    exact ⟨hnodup, h.mem_result_iff⟩
  | succ fuel ih =>
    cases queue with
    | nil => exact ⟨hnodup, h.mem_result_iff⟩
    | cons current queue =>
      refine ih h.visit ?_ ?_ (nodup_cons.1 h.visit.nodup).2
      · intro x hx
        exact (mem_append.1 hx).elim (hsub x) fun hx => hall _ x (mem_of_mem_fresh hx)
      · simp only [length_cons, length_append] at hfuel ⊢
        omega

end Fluree.Lib
