import Mathlib.Data.List.Sort
import Mathlib.Tactic.Ring
import Mathlib.Tactic.Linarith
import Mathlib.Data.List.Forall2
import Mathlib.Data.List.Infix

/-!
# Fixed-width integers as bytes

Little- and big-endian byte strings of a natural number, and the number a byte string
denotes.

* `leNat_leBytes`, `leBytes_leNat` (and the big-endian pair): the two directions of
  the round trip at a fixed width.
-/

namespace Fluree.Lib

open List

/-- `w` bytes of `n`, least significant first. -/
def leBytes : ℕ → ℕ → List UInt8
  | 0, _ => []
  | w + 1, n => UInt8.ofNat (n % 256) :: leBytes w (n / 256)

/-- The number whose little-endian bytes are the given string. -/
def leNat : List UInt8 → ℕ
  | [] => 0
  | b :: bs => b.toNat + 256 * leNat bs

/-- `w` bytes of `n`, most significant first. -/
def beBytes (w n : ℕ) : List UInt8 := (leBytes w n).reverse

def beNat (bs : List UInt8) : ℕ := leNat bs.reverse

/-- Lexicographic comparison of byte strings, a proper initial part being smaller. -/
def memcmp : List UInt8 → List UInt8 → Ordering
  | [], [] => .eq
  | [], _ :: _ => .lt
  | _ :: _, [] => .gt
  | a :: as, b :: bs => (compare a.toNat b.toNat).then (memcmp as bs)

@[simp] lemma leBytes_length (w n : ℕ) : (leBytes w n).length = w := by
  induction w generalizing n with
  | zero => rfl
  | succ w ih => simp [leBytes, ih]

@[simp] lemma beBytes_length (w n : ℕ) : (beBytes w n).length = w := by simp [beBytes]

lemma leNat_leBytes (w n : ℕ) : leNat (leBytes w n) = n % 256 ^ w := by
  induction w generalizing n with
  | zero => simp [leBytes, leNat, Nat.mod_one]
  | succ w ih =>
    have h1 : (UInt8.ofNat (n % 256)).toNat = n % 256 := by simp
    rw [leBytes, leNat, ih, h1, pow_succ, Nat.mul_comm (256 ^ w), Nat.mod_mul]

lemma leBytes_leNat (bs : List UInt8) : leBytes bs.length (leNat bs) = bs := by
  induction bs with
  | nil => rfl
  | cons b bs ih =>
    have hb : b.toNat < 256 := b.toNat_lt
    have h1 : leNat (b :: bs) % 256 = b.toNat := by simp only [leNat]; omega
    have h2 : leNat (b :: bs) / 256 = leNat bs := by simp only [leNat]; omega
    rw [length_cons, leBytes, h1, h2, ih, UInt8.ofNat_toNat]

lemma leBytes_mod (w n : ℕ) : leBytes w (n % 256 ^ w) = leBytes w n := by
  have h := leBytes_leNat (leBytes w n)
  rwa [leBytes_length, leNat_leBytes] at h

lemma leNat_append (as bs : List UInt8) :
    leNat (as ++ bs) = leNat as + 256 ^ as.length * leNat bs := by
  induction as with
  | nil => simp [leNat]
  | cons _ _ ih => rw [cons_append, leNat, leNat, ih, length_cons, pow_succ]; ring

lemma beNat_beBytes (w n : ℕ) : beNat (beBytes w n) = n % 256 ^ w := by
  rw [beNat, beBytes, reverse_reverse, leNat_leBytes]

lemma beNat_append (as bs : List UInt8) :
    beNat (as ++ bs) = beNat as * 256 ^ bs.length + beNat bs := by
  rw [beNat, reverse_append, leNat_append, length_reverse, beNat, beNat]; ring

/-- Comparing leading digits and then trailing digits below `N` is comparing the numbers. -/
lemma compare_then {N a b c d : ℕ} (hc : c < N) (hd : d < N) :
    (compare a b).then (compare c d) = compare (a * N + c) (b * N + d) := by
  rcases lt_trichotomy a b with h | h | h
  · have hlt : a * N + c < b * N + d := by nlinarith
    rw [Nat.compare_eq_lt.2 h, Nat.compare_eq_lt.2 hlt]; rfl
  · subst h
    have hcc : compare (a * N + c) (a * N + d) = compare c d := by
      rcases lt_trichotomy c d with h | h | h
      · rw [Nat.compare_eq_lt.2 h, Nat.compare_eq_lt.2 (by omega)]
      · rw [h]; simp
      · rw [Nat.compare_eq_gt.2 h, Nat.compare_eq_gt.2 (by omega)]
    rw [hcc, Nat.compare_eq_eq.2 rfl]; rfl
  · have hlt : b * N + d < a * N + c := by nlinarith
    rw [Nat.compare_eq_gt.2 h, Nat.compare_eq_gt.2 hlt]; rfl

lemma beNat_lt (bs : List UInt8) : beNat bs < 256 ^ bs.length := by
  have h := leNat_leBytes bs.reverse.length (leNat bs.reverse)
  rw [leBytes_leNat] at h
  rw [beNat, h, length_reverse]
  exact Nat.mod_lt _ (by positivity)

/-- **Byte strings of one length compare as the numbers they denote.** -/
lemma memcmp_eq_compare (h : as.length = bs.length) :
    memcmp as bs = compare (beNat as) (beNat bs) := by
  induction as generalizing bs with
  | nil =>
    obtain rfl := length_eq_zero_iff.1 h.symm
    rfl
  | cons a as ih =>
    cases bs with
    | nil => cases h
    | cons b bs =>
      have hlen : as.length = bs.length := Nat.succ.inj h
      have ha := beNat_append [a] as
      have hb := beNat_append [b] bs
      have hlt := beNat_lt as
      rw [singleton_append] at ha hb
      rw [hlen] at hlt ha
      rw [memcmp, ih hlen, ha, hb, compare_then hlt (beNat_lt bs)]
      simp [beNat, leNat]

/-!
## Reading a byte string from the front

A reader takes a value off the front of a byte string or stops with an error.

* `Reads p bs a`: the reader takes exactly `bs` and returns `a`, whatever follows, and stops when
  the end comes earlier. This is closed under sequencing (`Reads.bind`) and repetition
  (`Reads.repeatRead`), so a round trip of a record is assembled from those of its fields.
-/

abbrev Reader (ε α : Type) := StateT (List UInt8) (Except ε) α

variable {ε α β : Type}

variable {p : Reader ε α} {f : α → Reader ε β} {bs rest : List UInt8}

lemma run_bind_of_ok (h : p.run bs = .ok (a, rest)) : (p >>= f).run bs = (f a).run rest := by
  rw [StateT.run_bind, h]
  rfl

lemma run_bind_of_error (h : p.run bs = .error e) : (p >>= f).run bs = .error e := by
  rw [StateT.run_bind, h]
  rfl

lemma run_bind_eq_ok : (p >>= f).run bs = .ok (b, rest) ↔
      ∃ a r, p.run bs = .ok (a, r) ∧ (f a).run r = .ok (b, rest) := by
  rw [StateT.run_bind]
  cases h : p.run bs with
  | error =>
    constructor
    · intro hb
      cases hb
    · rintro ⟨a, r, ha, -⟩
      cases ha
  | ok v =>
    constructor
    · intro hb
      exact ⟨v.1, v.2, rfl, hb⟩
    · rintro ⟨a, r, ha, hb⟩
      cases ha
      exact hb

/-- Read `n` values one after the other. -/
def repeatRead (p : Reader ε α) : ℕ → Reader ε (List α)
  | 0 => pure []
  | n + 1 => do
    let a ← p
    let as ← repeatRead p n
    pure (a :: as)

lemma length_repeatRead (h : (repeatRead p n).run bs = .ok (l, rest)) : l.length = n := by
  induction n generalizing bs rest l with
  | zero =>
    obtain ⟨rfl, -⟩ := Prod.ext_iff.1 (Except.ok.inj h)
    rfl
  | succ n ih =>
    obtain ⟨_, _, -, h⟩ := run_bind_eq_ok.1 h
    obtain ⟨_, _, has, h⟩ := run_bind_eq_ok.1 h
    obtain ⟨rfl, -⟩ := Prod.ext_iff.1 (Except.ok.inj h)
    rw [length_cons, ih has]

/-! ## What a reader takes -/

/-- The reader takes `bs` and returns `a`, whatever follows; it stops when `bs` is cut short. -/
structure Reads (p : Reader ε α) (bs : List UInt8) (a : α) : Prop where
  whole : ∀ rest, p.run (bs ++ rest) = .ok (a, rest)
  short : ∀ u, u <+: bs → u ≠ bs → ∃ e, p.run u = .error e

namespace Reads

lemma pure (a : α) : Reads (Pure.pure a : Reader ε α) [] a where
  whole := fun _ => rfl
  short := fun _ hu hne => absurd (prefix_nil.1 hu) hne

variable {p : Reader ε α} {bs : List UInt8} {a : α} {f : α → Reader ε β}

lemma exact (h : Reads p bs a) : p.run bs = .ok (a, []) := by
  have := h.whole []
  rwa [append_nil] at this

lemma bind (hp : Reads p bs a) (hf : Reads (f a) cs b) :
    Reads (p >>= f) (bs ++ cs) b where
  whole := fun rest => by
    rw [append_assoc, run_bind_of_ok (hp.whole _)]
    exact hf.whole rest
  short := fun u hu hne => by
    -- the cut lies in the first part or behind it
    obtain ⟨t, ht⟩ := hu
    rcases append_eq_append_iff.1 ht with ⟨as, rfl, hcs⟩ | ⟨as, rfl, hcs⟩
    · rcases eq_or_ne as [] with rfl | has
      · rw [append_nil] at *
        obtain ⟨e, he⟩ := hf.short [] nil_prefix fun h => hne (by rw [← h, append_nil])
        exact ⟨e, by rw [run_bind_of_ok hp.exact, he]⟩
      · obtain ⟨e, he⟩ := hp.short u (prefix_append _ _) fun h =>
          has (self_eq_append_right.1 h)
        exact ⟨e, run_bind_of_error he⟩
    · obtain ⟨e, he⟩ := hf.short as ⟨t, hcs.symm⟩ fun h => hne (by rw [h])
      exact ⟨e, by rw [run_bind_of_ok (hp.whole as), he]⟩

lemma bind_nil (hp : Reads p [] a) (hf : Reads (f a) cs b) : Reads (p >>= f) cs b := hp.bind hf

lemma bind_last (hp : Reads p bs a) (hf : Reads (f a) [] b) : Reads (p >>= f) bs b := by
  have h := hp.bind hf
  rwa [append_nil] at h

lemma map (g : α → β) (h : Reads p bs a) :
    Reads (do let x ← p; Pure.pure (g x)) bs (g a) := bind_last h (Reads.pure (g a))

lemma repeatRead (h : List.Forall₂ (fun a bs => Reads p bs a) l parts) :
    Reads (Lib.repeatRead p l.length) parts.flatten l := by
  induction h with
  | nil => exact Reads.pure []
  | cons ha _ ih => exact ha.bind (ih.map (_ :: ·))

lemma repeatRead_flatMap (h : ∀ a ∈ l, Reads p (enc a) a) :
    Reads (Lib.repeatRead p l.length) (l.flatMap enc) l := by
  rw [flatMap_def]
  exact repeatRead (forall₂_map_right_iff.2 (forall₂_same.2 h))

end Reads

/-- The reader stops on `bs`, whatever follows, and wherever it is cut. -/
def Refuses (p : Reader ε α) (bs : List UInt8) : Prop :=
  ∀ u, u <+: bs ∨ bs <+: u → ∃ e, p.run u = .error e

variable {p : Reader ε α} {bs : List UInt8}

lemma Refuses.bind (h : Refuses p bs) (f : α → Reader ε β) : Refuses (p >>= f) bs := by
  intro u hu
  obtain ⟨e, he⟩ := h u hu
  exact ⟨e, run_bind_of_error he⟩

lemma Refuses.append (h : Refuses p bs) (cs : List UInt8) : Refuses p (bs ++ cs) := by
  intro u hu
  rcases hu with hu | hu
  · exact h u ( prefix_or_prefix_of_prefix hu (prefix_append _ _))
  · exact h u (.inr ((prefix_append _ _).trans hu))

variable {f : α → Reader ε β}

lemma Reads.bind_refuses {cs : List UInt8} {a : α} (hp : Reads p bs a)
    (hf : Refuses (f a) cs) : Refuses (p >>= f) (bs ++ cs) := by
  intro u hu
  have hcut : u <+: bs ∨ bs <+: u := by
    rcases hu with hu | hu
    · exact prefix_or_prefix_of_prefix hu (prefix_append _ _)
    · exact .inr ((prefix_append _ _).trans hu)
  rcases hcut with hcut | ⟨t, rfl⟩
  · rcases eq_or_ne u bs with rfl | hne
    · obtain ⟨e, he⟩ := hf [] (.inl nil_prefix)
      exact ⟨e, by rw [run_bind_of_ok hp.exact, he]⟩
    · obtain ⟨e, he⟩ := hp.short u hcut hne
      exact ⟨e, run_bind_of_error he⟩
  · have ht : t <+: cs ∨ cs <+: t := by
      rcases hu with hu | hu
      · exact .inl ((prefix_append_right_inj bs).1 hu)
      · exact .inr ((prefix_append_right_inj bs).1 hu)
    obtain ⟨e, he⟩ := hf t ht
    exact ⟨e, by rw [run_bind_of_ok (hp.whole t), he]⟩

lemma Reads.bind_refuses_last {a : α} (hp : Reads p bs a)
    (hf : Refuses (f a) []) : Refuses (p >>= f) bs := by
  have h := hp.bind_refuses hf
  rwa [append_nil] at h

end Fluree.Lib
