import Fluree.Commit.Blob
import Fluree.Lib.Guard

/-!
# Where reading a commit can panic

The readers of a commit blob panic at a varint whose shift leaves 64 bits, at a capacity taken
from a count, and at offsets of the footer. For each reader a predicate on the bytes says exactly
when none of this happens; `room` is the capacity that an honest blob needs.
-/

namespace Fluree.Codec

open Lib (Reader repeatRead Variants Avoids Guarded GuardedReader Then Each avoids_ok avoids_error
  avoids_bind)

def strictBuild (room : ℕ) : Build := ⟨true, room⟩

/-- The builds with at least this room, against the strict one. -/
def builds (room : ℕ) : Variants Build Stop where
  strict := strictBuild room
  loose := fun b => room ≤ b.limit
  bad := (· = .panic)

variable {room : ℕ} {α β : Type}

abbrev GuardedDec (room : ℕ) (D : Build → Dec α) (safe : List UInt8 → Prop) : Prop :=
  GuardedReader (builds room) D safe

/-! ## Varints -/

/-- `k` more bytes that continue, then one at shift 63 that continues, then one that is shifted
out. -/
def OverlongFrom : ℕ → List UInt8 → Prop
  | 0, b :: c :: _ => 128 ≤ b.toNat ∧ b.toNat % 128 ≤ 1 ∧ c.toNat % 128 ≤ 1
  | k + 1, b :: rest => 128 ≤ b.toNat ∧ OverlongFrom k rest
  | _, _ => False

/-- A varint whose eleventh byte is reached and not refused. -/
def Overlong (bs : List UInt8) : Prop := OverlongFrom 9 bs

/-- The digits of a LEB128 number: all but the last have the high bit. -/
def LebDigits : List UInt8 → Prop
  | [] => False
  | b :: rest => if b.toNat < 128 then rest = [] else LebDigits rest

/-- The value of LEB128 digits, lowest first. -/
def lebValue : List UInt8 → ℕ
  | [] => 0
  | b :: rest => b.toNat % 128 + 128 * lebValue rest

section Varints

variable {build : Build} {j result : ℕ} {b : UInt8} {rest : List UInt8}

lemma decodeVarintLoop_low (hj : j < 9) (build : Build) (result : ℕ) (b : UInt8)
    (rest : List UInt8) : decodeVarintLoop build (7 * j) result (b :: rest) =
      if b.toNat < 128 then .ok (result ||| b.toNat % 128 * 2 ^ (7 * j), rest)
      else decodeVarintLoop build (7 * (j + 1)) (result ||| b.toNat % 128 * 2 ^ (7 * j)) rest := by
  have hpay : b.toNat % 128 < 2 ^ 7 := Nat.mod_lt _ (by norm_num)
  have hterm : b.toNat % 128 * 2 ^ (7 * j) < 2 ^ 64 := by
    calc b.toNat % 128 * 2 ^ (7 * j) < 2 ^ 7 * 2 ^ (7 * j) :=
          Nat.mul_lt_mul_of_pos_right hpay (by positivity)
      _ = 2 ^ (7 + 7 * j) := (pow_add _ _ _).symm
      _ ≤ 2 ^ 64 := Nat.pow_le_pow_right (by norm_num) (by omega)
  rw [decodeVarintLoop]
  simp only [if_neg (show ¬ (63 ≤ 7 * j ∧ 1 < b.toNat % 128) by omega), shlU64,
    if_pos (show 7 * j < 64 by omega), Nat.mod_eq_of_lt hterm, addU32,
    if_pos (show 7 * j + 7 < 2 ^ 32 by omega)]
  rw [Nat.mul_succ]

lemma decodeVarintLoop_high (build : Build) (result : ℕ) (b : UInt8) (rest : List UInt8) :
    decodeVarintLoop build 63 result (b :: rest) =
      if 1 < b.toNat % 128 then .error (.error (.invalidOp "varint overflow"))
      else if b.toNat < 128 then .ok (result ||| b.toNat % 128 * 2 ^ 63, rest)
      else decodeVarintLoop build 70 (result ||| b.toNat % 128 * 2 ^ 63) rest := by
  rw [decodeVarintLoop]
  by_cases h : 1 < b.toNat % 128
  · rw [if_pos ⟨Nat.le_refl 63, h⟩, if_pos h]
  have hterm : b.toNat % 128 * 2 ^ 63 % 2 ^ 64 = b.toNat % 128 * 2 ^ 63 :=
    Nat.mod_eq_of_lt (by omega)
  rw [if_neg (fun hc => h hc.2), if_neg h]
  simp only [shlU64, if_pos (show 63 < 64 by omega), hterm, addU32,
    if_pos (show 63 + 7 < 2 ^ 32 by omega)]

lemma guarded_varint_beyond (result : ℕ) (bs : List UInt8) :
    Guarded (builds room) (fun build => decodeVarintLoop build 70 result bs)
      (∀ c ∈ bs.head?, 1 < c.toNat % 128) := by
  cases bs with
  | nil => exact (Guarded.fixed (avoids_error.2 (by simp [builds]))).congr (by simp)
  | cons c rest =>
    by_cases h : 1 < c.toNat % 128
    · have hstep : ∀ build, decodeVarintLoop build 70 result (c :: rest)
          = .error (.error (.invalidOp "varint overflow")) := by
        intro build
        rw [decodeVarintLoop, if_pos ⟨by omega, h⟩]
      simp only [hstep]
      exact (Guarded.fixed (avoids_error.2 (by simp [builds]))).congr (by simp [h])
    · have hpanic : decodeVarintLoop (strictBuild room) 70 result (c :: rest) = .error .panic := by
        rw [decodeVarintLoop, if_neg (fun hc => h hc.2)]
        rfl
      have hfalse : ¬ ∀ c' ∈ (c :: rest).head?, 1 < c'.toNat % 128 := by simpa using h
      refine ⟨iff_of_false (fun hav => ?_) hfalse, fun hs => absurd hs hfalse⟩
      exact hav .panic hpanic rfl

lemma guarded_varint_from {k} (hk : k + j = 9) (result : ℕ) (bs : List UInt8) :
    Guarded (builds room) (fun build => decodeVarintLoop build (7 * j) result bs)
      (¬ OverlongFrom k bs) := by
  induction k generalizing j result bs with
  | zero =>
    obtain rfl : j = 9 := by omega
    cases bs with
    | nil =>
      exact (Guarded.fixed (avoids_error.2 (by simp [builds]))).congr
        (by simp [OverlongFrom])
    | cons b rest =>
      simp only [Nat.reduceMul, decodeVarintLoop_high]
      by_cases hp : 1 < b.toNat % 128
      · simp only [if_pos hp]
        refine (Guarded.fixed (avoids_error.2 (by simp [builds]))).congr (iff_of_true trivial ?_)
        intro ho
        cases rest with
        | nil => exact ho
        | cons => exact absurd ho.2.1 (by omega)
      · simp only [if_neg hp]
        by_cases hb : b.toNat < 128
        · simp only [if_pos hb]
          refine (Guarded.fixed (avoids_ok _)).congr (iff_of_true trivial ?_)
          intro ho
          cases rest with
          | nil => exact ho
          | cons => exact absurd ho.1 (by omega)
        · simp only [if_neg hb]
          refine (guarded_varint_beyond _ rest).congr ?_
          cases rest with
          | nil => simp [OverlongFrom]
          | cons =>
            simp only [List.head?_cons, Option.mem_some_iff, forall_eq', OverlongFrom]
            omega
  | succ k ih =>
    cases bs with
    | nil =>
      exact (Guarded.fixed (avoids_error.2 (by simp [builds]))).congr
        (by simp [OverlongFrom])
    | cons b rest =>
      simp only [decodeVarintLoop_low (show j < 9 by omega)]
      by_cases hb : b.toNat < 128
      · simp only [if_pos hb]
        exact (Guarded.fixed (avoids_ok _)).congr (iff_of_true trivial fun ho =>
          absurd ho.1 (by omega))
      · simp only [if_neg hb]
        refine (ih (by omega) _ rest).congr ?_
        rw [OverlongFrom]
        exact not_congr (iff_and_self.2 fun _ => by omega)

lemma guarded_varint : GuardedDec room decodeVarint fun bs => ¬ Overlong bs :=
  fun bs => guarded_varint_from (j := 0) rfl 0 bs

lemma or_digit {shift result digit} (h : result < 2 ^ shift) :
    result ||| digit * 2 ^ shift = result + 2 ^ shift * digit := by
  rw [Nat.or_comm, Nat.mul_comm digit, ← Nat.two_pow_add_eq_or_of_lt h, Nat.add_comm]

lemma decodeVarintLoop_exact {k v bs} (hk : k + j = 9) (hr : result < 2 ^ (7 * j))
    (ho : ¬ OverlongFrom k bs) (h : decodeVarintLoop build (7 * j) result bs = .ok (v, rest)) :
    ∃ ds, bs = ds ++ rest ∧ LebDigits ds ∧ v = result + 2 ^ (7 * j) * lebValue ds := by
  induction k generalizing j result bs with
  | zero =>
    obtain rfl : j = 9 := by omega
    cases bs with
    | nil => cases h
    | cons b rest' =>
      rw [show 7 * 9 = 63 from rfl] at h hr ⊢
      rw [decodeVarintLoop_high] at h
      split at h
      · cases h
      split at h
      · rename_i hb
        obtain ⟨rfl, rfl⟩ := Prod.ext_iff.1 (Except.ok.inj h)
        exact ⟨[b], rfl, by simp [LebDigits, hb], by
          simpa only [lebValue, Nat.mul_zero, Nat.add_zero] using or_digit hr⟩
      · -- the next byte is refused, or it would be overlong
        rename_i hp hb
        cases rest' with
        | nil => cases h
        | cons c =>
          have hc : 1 < c.toNat % 128 := by
            by_contra hc
            exact ho ⟨by omega, by omega, by omega⟩
          rw [decodeVarintLoop, if_pos ⟨by omega, hc⟩] at h
          cases h
  | succ k ih =>
    cases bs with
    | nil => cases h
    | cons b rest' =>
      rw [decodeVarintLoop_low (show j < 9 by omega), or_digit hr] at h
      split at h
      · rename_i hb
        obtain ⟨rfl, rfl⟩ := Prod.ext_iff.1 (Except.ok.inj h)
        exact ⟨[b], rfl, by simp [LebDigits, hb], by simp [lebValue]⟩
      · rename_i hb
        have hpow : 2 ^ (7 * (j + 1)) = 2 ^ (7 * j) * 128 := by
          rw [Nat.mul_succ, pow_add]
          norm_num
        have hbound : result + 2 ^ (7 * j) * (b.toNat % 128) < 2 ^ (7 * (j + 1)) := by
          have hd : b.toNat % 128 + 1 ≤ 128 := Nat.mod_lt _ (by norm_num)
          calc result + 2 ^ (7 * j) * (b.toNat % 128)
              < 2 ^ (7 * j) * (b.toNat % 128 + 1) := by rw [Nat.mul_succ]; omega
            _ ≤ 2 ^ (7 * j) * 128 := Nat.mul_le_mul_left _ hd
            _ = 2 ^ (7 * (j + 1)) := hpow.symm
        obtain ⟨ds, rfl, hds, rfl⟩ := ih (by omega) hbound (fun hov => ho ⟨by omega, hov⟩) h
        refine ⟨b :: ds, rfl, by rwa [LebDigits, if_neg hb], ?_⟩
        rw [hpow, lebValue]
        ring

end Varints

/-- `decodeVarint` does not panic here, and what it returns is the exact value of the digits it
took. -/
def VarintExact (bs : List UInt8) : Prop :=
  ∀ build, (decodeVarint build).run bs ≠ .error .panic ∧
    ∀ v rest, (decodeVarint build).run bs = .ok (v, rest) →
      ∃ ds, bs = ds ++ rest ∧ LebDigits ds ∧ v = lebValue ds

/-- **`decodeVarint` is exact and does not panic exactly when the bytes are not overlong.** -/
lemma varintExact_iff (bs : List UInt8) : VarintExact bs ↔ ¬ Overlong bs := by
  constructor
  · intro h
    refine (@guarded_varint 0 bs).avoids.1 ?_
    rintro e he rfl
    exact (h (strictBuild 0)).1 he
  · intro ho build
    have hg := @guarded_varint 0 bs
    refine ⟨fun hp => ?_, fun v rest h => ?_⟩
    · rw [hg.follows ho build (Nat.zero_le _)] at hp
      exact hg.avoids.2 ho .panic hp rfl
    · obtain ⟨ds, hbs, hds, hv⟩ :=
        decodeVarintLoop_exact (j := 0) (k := 9) rfl Nat.one_pos ho h
      exact ⟨ds, hbs, hds, by rw [hv]; simp⟩

/-! ## Readers without hazards -/

/-- The reader never panics. -/
def Calm (p : Dec α) : Prop := ∀ bs, Avoids (· = Stop.panic) (p.run bs)

namespace Calm

lemma pure (a : α) : Calm (Pure.pure a) := fun _ => avoids_ok _

lemma fail (e : CommitCodecError) : Calm (fail e : Dec α) := fun _ => avoids_error.2 (by simp)

variable {p : Dec α}

lemma bind {f : α → Dec β} (hp : Calm p) (hf : ∀ a, Calm (f a)) : Calm (p >>= f) := by
  intro bs
  rw [StateT.run_bind]
  exact avoids_bind.2 ⟨hp bs, fun r _ => hf r.1 r.2⟩

lemma ensure (c : Bool) (e : CommitCodecError) : Calm (ensure c e) := by
  cases c with
  | true => exact pure ()
  | false => exact fail e

lemma exact (n : ℕ) : Calm (readExact n) := by
  intro bs
  change Avoids _ (if bs.length < n then _ else _)
  split
  · exact avoids_error.2 (by simp)
  · exact avoids_ok _

lemma u8 : Calm readU8 := by
  intro bs
  cases bs with
  | nil => exact avoids_error.2 (by simp)
  | cons => exact avoids_ok _

lemma str (bad : CommitCodecError) (len : ℕ) : Calm (readStr bad len) := by
  refine (exact len).bind fun bytes => ?_
  cases fromUtf8 bytes with
  | none => exact fail bad
  | some s => exact pure s

lemma name (dict : StringDict) (id : ℕ) : Calm (getName dict id) := by
  rw [getName]
  cases dict.get id with
  | ok s => exact pure s
  | error e => exact fail e

lemma graphName (dict : StringDict) (id : ℕ) : Calm (getGraphName dict id) := by
  rw [getGraphName]
  split
  · exact pure ""
  · exact name dict id

lemma tag : Calm decodeTag := by
  refine u8.bind fun b => ?_
  cases OTag.fromU8 b with
  | ok t => exact pure t
  | error e => exact fail e

lemma flags : Calm decodeFlags := u8.bind fun _ => (ensure _ _).bind fun _ => pure _

lemma mode : Calm decodeMode := u8.bind fun _ => pure _

lemma u16 : Calm readU16 := (exact 2).bind fun _ => pure _

lemma metadata (n : ℕ) : Calm (decodeMetadata n) := by
  rw [decodeMetadata]
  split
  · exact (ensure _ _).bind fun _ => (exact n).bind fun _ => pure _
  · exact pure none

lemma repeatRead (hp : Calm p) (n : ℕ) : Calm (Lib.repeatRead p n) := by
  induction n with
  | zero => exact pure []
  | succ n ih => exact hp.bind fun _ => ih.bind fun _ => pure _

lemma signature : Calm decodeSignature := by
  refine u16.bind fun n => (ensure _ _).bind fun _ => (str _ _).bind fun signer => u8.bind fun algo =>
    (ensure _ _).bind fun _ => ?_
  intro bs
  rw [StateT.run_bind]
  refine avoids_bind.2 ⟨exact 64 bs, fun r hr => ?_⟩
  -- what `readExact` returned has the length it was asked for
  have hlen : r.1.length = 64 := by
    change (if bs.length < 64 then _ else _) = Except.ok r at hr
    split at hr
    · cases hr
    obtain rfl := Except.ok.inj hr
    rw [List.length_take]
    omega
  refine (u16.bind fun m => (metadata m).bind fun md => ?_ : Calm _) r.2
  rw [dif_pos hlen]
  exact pure _

lemma sigs : Calm decodeSigs :=
  u16.bind fun _ => (ensure _ _).bind fun _ => signature.repeatRead _

end Calm

lemma avoids_sigBlock (data : List UInt8) : Avoids (· = Stop.panic) (decodeSigBlock data) := by
  rw [decodeSigBlock]
  cases h : decodeSigs.run data with
  | error e => exact avoids_error.2 (Calm.sigs data e h)
  | ok r =>
    obtain ⟨_, _⟩ := r
    dsimp only
    split
    · exact avoids_ok _
    · exact avoids_error.2 (by simp)

/-! ## Single fields -/

lemma Calm.guarded (h : Calm p) : GuardedDec room (fun _ => p) fun _ => True := .fixed h

variable {safe : List UInt8 → Prop}

lemma then_ensure {c e bs} : Then (ensure c e) (fun _ => safe) bs ↔ (c = true → safe bs) := by
  cases c with
  | true => exact ⟨fun h _ => h () bs rfl, fun h a rest hr => by cases hr; exact h rfl⟩
  | false => exact ⟨fun _ hc => (nomatch hc), fun _ a rest hr => (nomatch hr)⟩

variable {D : Build → Dec α}

lemma guarded_ensure {c : Bool} {e : CommitCodecError} (hD : GuardedDec room D safe) :
    GuardedDec room (fun b => ensure c e >>= fun _ => D b)
      fun bs => c = true → safe bs :=
  (GuardedReader.fixed_bind (V := builds room) (p := ensure c e) (E := fun b _ => D b)
    (Calm.ensure c e) fun _ => hD).congr fun _ => then_ensure

lemma guarded_field {f : ℕ → Dec α} (hf : ∀ n, Calm (f n)) :
    GuardedDec room (fun b => decodeVarint b >>= f) fun bs => ¬ Overlong bs :=
  guarded_varint.bind_fixed hf

lemma guarded_str (bad : CommitCodecError) :
    GuardedDec room (fun b => decodeStr b bad) fun bs => ¬ Overlong bs :=
  guarded_field fun n => .str bad n

lemma guarded_u16 : GuardedDec room decodeU16 fun bs => ¬ Overlong bs :=
  guarded_field fun _ => .pure _

lemma guarded_id : GuardedDec room decodeId fun bs => ¬ Overlong bs :=
  guarded_field fun _ => .pure _

lemma guarded_zigzag : GuardedDec room decodeZigzag fun bs => ¬ Overlong bs :=
  guarded_field fun _ => .pure _

lemma guarded_index : GuardedDec room decodeIndex fun bs => ¬ Overlong bs :=
  guarded_field fun _ => (Calm.ensure _ _).bind fun _ => Calm.pure _

lemma guarded_version : GuardedDec room decodeVersion fun bs => ¬ Overlong bs :=
  guarded_zigzag.bind_fixed fun _ => (Calm.ensure _ _).bind fun _ => Calm.pure _

lemma guarded_lenStr : GuardedDec room decodeLenStr fun bs => ¬ Overlong bs :=
  guarded_str _

lemma guarded_shortStr (field : String) :
    GuardedDec room (fun b => decodeShortStr b field) fun bs => ¬ Overlong bs :=
  guarded_lenStr.bind_fixed fun _ => (Calm.ensure _ _).bind fun _ => Calm.pure _

variable (x : External)

lemma guarded_cid (what : String) :
    GuardedDec room (fun b => decodeCid x b what) fun bs => ¬ Overlong bs := by
  have hbytes : GuardedDec room decodeLenBytes fun bs => ¬ Overlong bs :=
    guarded_field fun n => (Calm.ensure _ _).bind fun _ => Calm.exact n
  refine hbytes.bind_fixed fun bytes => ?_
  cases x.cidFromBytes bytes with
  | ok id => exact Calm.pure id
  | error => exact Calm.fail _

lemma guarded_whenFlag {flags flag : UInt8} {absent : α} (hD : GuardedDec room D safe) :
    GuardedDec room (fun b => whenFlag flags flag absent (D b))
      fun bs => (flags &&& flag != 0) = true → safe bs := by
  cases h : flags &&& flag != 0 with
  | true =>
    simp only [whenFlag, h, if_true]
    exact hD.congr fun _ => (true_imp_iff).symm
  | false =>
    simp only [whenFlag, h, Bool.false_eq_true, if_false]
    exact (GuardedReader.pure absent).congr fun _ => (iff_of_true trivial fun hc => nomatch hc)

def PairSafe (room : ℕ) (bs : List UInt8) : Prop :=
  ¬ Overlong bs ∧ Then (decodeU16 (strictBuild room)) (fun _ rest => ¬ Overlong rest) bs

lemma guarded_pair {D : Build → UInt16 → Dec α}
    (hD : ∀ n, GuardedDec room (fun b => D b n) fun bs => ¬ Overlong bs) :
    GuardedDec room (fun b => decodeU16 b >>= D b) (PairSafe room) :=
  guarded_u16.bind hD

/-! ## Counted entries -/

def CountedSafe (room : ℕ) (entry : Dec α) (safe : List UInt8 → Prop) (bs : List UInt8) : Prop :=
  ¬ Overlong bs ∧ Then (decodeVarint (strictBuild room))
    (fun count rest => count ≤ room ∧ Each entry safe count rest) bs

lemma run_capacity {build n} (h : n ≤ build.limit) (bs : List UInt8) :
    (liftExcept (withCapacity build n)).run bs = .ok ((), bs) := by
  rw [withCapacity, if_pos h]
  rfl

lemma run_capacity_panic {build n} (h : ¬ n ≤ build.limit) (bs : List UInt8) :
    (liftExcept (withCapacity build n)).run bs = .error .panic := by
  rw [withCapacity, if_neg h]
  rfl

lemma guarded_capacity (n : ℕ) :
    GuardedDec room (fun b => liftExcept (withCapacity b n)) fun _ => n ≤ room := by
  intro bs
  by_cases h : n ≤ room
  · have hok := fun (b : Build) (hb : room ≤ b.limit) => run_capacity (Nat.le_trans h hb) bs
    have hstrict := hok (strictBuild room) (Nat.le_refl room)
    refine ⟨iff_of_true (fun e he => ?_) h, fun _ b hb => (hok b hb).trans hstrict.symm⟩
    cases hstrict.symm.trans he
  · exact ⟨iff_of_false (fun hav => hav .panic (run_capacity_panic h bs) rfl) h,
      fun hs => absurd hs h⟩

lemma guarded_counted {entry : Build → Dec α} {f : List α → Dec β}
    (hentry : GuardedDec room entry safe) (hf : ∀ l, Calm (f l)) :
    GuardedDec room (fun b => do
      let count ← decodeVarint b
      liftExcept (withCapacity b count)
      let entries ← repeatRead (entry b) count
      f entries) (CountedSafe room (entry (strictBuild room)) safe) := by
  refine guarded_varint.bind fun n => ?_
  refine ((guarded_capacity n).bind fun _ => (hentry.repeatRead n).bind_fixed hf).congr fun bs => ?_
  have hrun := @run_capacity (strictBuild room) n
  refine and_congr_right fun hn => ⟨fun h => h () bs (hrun hn bs), fun h a rest hr => ?_⟩
  cases (hrun hn bs).symm.trans hr
  exact h

/-! ## The envelope -/

section Envelope

variable (room) (bs : List UInt8)

/-- An entry of the graph delta: the number is checked before the name is read. -/
def GraphEntrySafe : Prop :=
  ¬ Overlong bs ∧ Then (decodeVarint (strictBuild room))
    (fun raw rest => raw < 2 ^ 16 → ¬ Overlong rest) bs

def TxnMetaBodySafe (tag : UInt8) : List UInt8 → Prop :=
  match tag.toNat with
  | 0 => fun bs => ¬ Overlong bs
  | 1 => fun bs =>
    ¬ Overlong bs ∧ Then (decodeLenStr (strictBuild room)) (fun _ => PairSafe room) bs
  | 2 => fun bs =>
    ¬ Overlong bs ∧ Then (decodeLenStr (strictBuild room)) (fun _ rest => ¬ Overlong rest) bs
  | 3 => PairSafe room
  | 4 => fun bs => ¬ Overlong bs
  | _ => fun _ => True

def TxnMetaEntrySafe : Prop :=
  ¬ Overlong bs ∧ Then (decodeU16 (strictBuild room)) (fun _ bs =>
    ¬ Overlong bs ∧ Then (decodeLenStr (strictBuild room))
      (fun _ => Then readU8 (TxnMetaBodySafe room)) bs) bs

def TxnMetaSafe : Prop :=
  ¬ Overlong bs ∧ Then (decodeVarint (strictBuild room)) (fun count rest =>
    count ≤ MAX_TXN_META_ENTRIES →
      Each (decodeTxnMetaEntry (strictBuild room)) (TxnMetaEntrySafe room) count rest) bs

def ParentsSafe (x : External) (v : ℤ) (bs : List UInt8) : Prop :=
  ¬ Overlong bs ∧ (v = 3 → Then (decodeVarint (strictBuild room)) (fun count rest =>
    count ≤ MAX_PARENTS →
      Each (decodeCommitId x (strictBuild room)) (fun r => ¬ Overlong r) count rest) bs)

def TxnSignatureSafe : Prop :=
  ¬ Overlong bs ∧ Then (decodeShortStr (strictBuild room) "signer")
    (fun _ => Then readU8 fun hasTxnId rest => (hasTxnId != 0) = true → ¬ Overlong rest) bs

end Envelope

lemma guarded_graphEntry : GuardedDec room decodeGraphEntry (GraphEntrySafe room) := by
  refine (guarded_varint.bind fun raw => guarded_ensure (guarded_lenStr.map _)).congr fun bs => ?_
  simp only [decide_eq_true_eq]
  exact Iff.rfl

lemma guarded_nsEntry : GuardedDec room decodeNsEntry (PairSafe room) :=
  guarded_pair fun _ => guarded_lenStr.map _

lemma guarded_txnMetaBody (tag : UInt8) :
    GuardedDec room (fun b => decodeTxnMetaBody b tag) (TxnMetaBodySafe room tag) := by
  simp only [decodeTxnMetaBody, TxnMetaBodySafe]
  generalize tag.toNat = n
  match n with
  | 0 => exact guarded_lenStr.map _
  | 1 => exact guarded_lenStr.bind fun _ => guarded_pair fun _ => guarded_lenStr.map _
  | 2 => exact guarded_lenStr.bind fun _ => guarded_lenStr.map _
  | 3 => exact guarded_pair fun _ => guarded_lenStr.map _
  | 4 => exact guarded_zigzag.map _
  | 5 => exact ((Calm.exact 8).bind fun _ => (Calm.ensure _ _).bind fun _ => Calm.pure _).guarded
  | 6 => exact (Calm.u8.bind fun _ => Calm.pure _).guarded
  | n + 7 => exact (Calm.fail _).guarded

lemma guarded_txnMetaEntry :
    GuardedDec room decodeTxnMetaEntry (TxnMetaEntrySafe room) := by
  have hvalue : GuardedDec room decodeTxnMetaValue
      (Then readU8 (TxnMetaBodySafe room)) :=
    GuardedReader.fixed_bind Calm.u8 guarded_txnMetaBody
  exact guarded_u16.bind fun _ => guarded_lenStr.bind fun _ => hvalue.map _

lemma guarded_txnMeta : GuardedDec room decodeTxnMeta (TxnMetaSafe room) := by
  refine (guarded_varint.bind fun n =>
    guarded_ensure (guarded_txnMetaEntry.repeatRead n)).congr fun bs => ?_
  simp only [decide_eq_true_eq]
  exact Iff.rfl

lemma guarded_parents (v : ℤ) :
    GuardedDec room (fun b => decodeParents x b v) (ParentsSafe room x v) := by
  simp only [decodeParents]
  split
  · rename_i hv
    refine (guarded_varint.bind fun n =>
      guarded_ensure ((guarded_cid x "commit id").repeatRead n)).congr fun bs => ?_
    simp only [decide_eq_true_eq]
    exact and_congr_right fun _ => ⟨fun h _ => h, fun h => h hv⟩
  · rename_i hv
    exact ((guarded_cid x "commit id").map _).congr fun bs =>
      (and_iff_left fun h => absurd h hv).symm

lemma guarded_txnSignature :
    GuardedDec room decodeTxnSignature (TxnSignatureSafe room) := by
  have hid : ∀ n, GuardedDec room (fun b => decodeTxnId b n)
      fun bs => (n != 0) = true → ¬ Overlong bs := by
    intro n
    simp only [decodeTxnId]
    split
    · rename_i hn
      exact ((guarded_shortStr "txn_id").map _).congr fun bs => ⟨fun h _ => h, fun h => h hn⟩
    · rename_i hn
      exact (GuardedReader.pure none).congr fun bs => iff_of_true trivial fun h => absurd h hn
  exact (guarded_shortStr "signer").bind fun signer =>
    GuardedReader.fixed_bind Calm.u8 fun n => (hid n).map _

section Envelope

variable (room) (x : External)

/-- The fields in the order of their flags. -/
def FieldsSafe (bs : List UInt8) : Prop :=
  let s := strictBuild room
  ¬ Overlong bs ∧ Then (decodeVersion s) (fun v => Then decodeFlags fun flags bs =>
    ((flags &&& FLAG_TXN_META != 0) = true → TxnMetaSafe room bs) ∧
    Then (whenFlag flags FLAG_TXN_META [] (decodeTxnMeta s)) (fun _ bs =>
      ((flags &&& FLAG_PARENT != 0) = true → ParentsSafe room x v bs) ∧
      Then (whenFlag flags FLAG_PARENT [] (decodeParents x s v)) (fun _ bs =>
        ((flags &&& FLAG_NAMESPACE_DELTA != 0) = true →
          CountedSafe room (decodeNsEntry s) (PairSafe room) bs) ∧
        Then (whenFlag flags FLAG_NAMESPACE_DELTA Lib.SortedMap.empty (decodeNsDelta s)) (fun _ bs =>
          ((flags &&& FLAG_TXN != 0) = true → ¬ Overlong bs) ∧
          Then (whenFlag flags FLAG_TXN none (decodeCid x s "txn" >>= fun id => pure (some id)))
            (fun _ bs => ((flags &&& FLAG_TIME != 0) = true → ¬ Overlong bs) ∧
              Then (whenFlag flags FLAG_TIME none (decodeLenStr s >>= fun t => pure (some t)))
                (fun _ bs =>
                  (flags &&& FLAG_TXN_SIGNATURE != 0) = true → TxnSignatureSafe room bs) bs) bs)
          bs) bs) bs) bs

/-- The graph delta behind the fields, when it is there. -/
def ExtensionsSafe : List UInt8 → Prop
  | [] => True
  | b :: rest => (b != 0) = true →
    CountedSafe room (decodeGraphEntry (strictBuild room)) (GraphEntrySafe room) rest

def EnvelopeSafe (data : List UInt8) : Prop :=
  FieldsSafe room x data ∧
    Then (decodeFields x (strictBuild room)) (fun _ => ExtensionsSafe room) data

end Envelope

lemma guarded_fields : GuardedDec room (decodeFields x) (FieldsSafe room x) := by
  refine guarded_version.bind fun v => .fixed_bind Calm.flags fun flags => ?_
  refine (guarded_whenFlag guarded_txnMeta).bind fun _ => ?_
  refine (guarded_whenFlag (guarded_parents x v)).bind fun _ => ?_
  refine (guarded_whenFlag (guarded_counted guarded_nsEntry fun _ => .pure _)).bind fun _ => ?_
  refine (guarded_whenFlag ((guarded_cid x "txn").map some)).bind fun _ => ?_
  refine (guarded_whenFlag (guarded_lenStr.map some)).bind fun _ => ?_
  exact (guarded_whenFlag (guarded_txnSignature.map some)).map _

lemma guarded_extension {safe : List UInt8 → Prop} (absent : α)
    (hD : GuardedDec room D safe) :
    GuardedDec room (fun b => extension absent (D b))
      fun bs => ∀ b rest, bs = b :: rest → (b != 0) = true → safe rest := by
  intro bs
  cases bs with
  | nil => exact (Guarded.fixed (avoids_ok _)).congr (iff_of_true trivial fun b rest h => nomatch h)
  | cons b rest =>
    simp only [StateT.run, extension]
    by_cases hb : (b != 0) = true
    · simp only [if_pos hb]
      refine (hD rest).congr ⟨fun h b' rest' heq _ => ?_, fun h => h b rest rfl hb⟩
      cases heq
      exact h
    · simp only [if_neg hb]
      refine (Guarded.fixed (avoids_ok _)).congr (iff_of_true trivial fun b' rest' heq hb' => ?_)
      cases heq
      exact absurd hb' hb

lemma Calm.extension {p} (absent : α) (hp : Calm p) : Calm (extension absent p) := by
  intro bs
  cases bs with
  | nil => exact avoids_ok _
  | cons b rest =>
    change Avoids _ (if b != 0 then p.run rest else _)
    split
    · exact hp rest
    · exact avoids_ok _

lemma guarded_extensions : GuardedDec room decodeExtensions (ExtensionsSafe room) := by
  refine ((guarded_extension Lib.SortedMap.empty (guarded_counted guarded_graphEntry fun _ =>
    Calm.pure _)).bind_fixed fun _ => (Calm.mode.extension none).bind fun _ =>
      Calm.pure _).congr fun bs => ?_
  cases bs with
  | nil => exact iff_of_true (fun b rest h => nomatch h) trivial
  | cons b rest =>
    refine ⟨fun h => h b rest rfl, fun h b' rest' heq => ?_⟩
    cases heq
    exact h

lemma avoids_require (c : Bool) (e : CommitCodecError) : Avoids (· = Stop.panic) (require c e) := by
  cases c with
  | true => exact avoids_ok ()
  | false => exact avoids_error.2 (by simp)

/-- **An envelope is read without a panic exactly when its bytes are safe.** -/
lemma guarded_envelope (data : List UInt8) :
    Guarded (builds room) (fun b => decodeEnvelope x b data) (EnvelopeSafe room x data) := by
  refine ((guarded_fields x data).bind (w := fun r => ExtensionsSafe room r.2)
    fun r _ => ?_).congr (and_congr_right fun _ => Prod.forall)
  exact (guarded_extensions r.2).bind_fixed fun q =>
    avoids_bind.2 ⟨avoids_require _ _, fun _ _ => avoids_ok _⟩

/-! ## Dictionaries -/

def DictSafe (room : ℕ) (data : List UInt8) : Prop :=
  CountedSafe room (StringDict.readEntry (strictBuild room)) (fun bs => ¬ Overlong bs) data

lemma guarded_entry : GuardedDec room StringDict.readEntry fun bs => ¬ Overlong bs := by
  refine guarded_field fun n => .bind (fun bs => ?_) fun bytes => ?_
  · change Avoids _ (if bs.length < n then _ else _)
    split
    · exact avoids_error.2 (by simp)
    · exact avoids_ok _
  · cases fromUtf8 bytes with
    | none => exact .fail _
    | some s => exact .pure s

/-- **A dictionary is read without a panic exactly when its bytes are safe.** -/
lemma guarded_dict (data : List UInt8) :
    Guarded (builds room) (fun b => StringDict.deserialize b data) (DictSafe room data) := by
  have hentries : GuardedDec room StringDict.readEntries (DictSafe room) := by
    have h := @guarded_counted room _ _ _ _ _ guarded_entry fun l => Calm.pure l
    simp only [bind_pure] at h
    exact h
  have heq : ∀ b, StringDict.deserialize b data
      = (StringDict.readEntries b).run data >>= fun r => .ok ⟨r.1⟩ := by
    intro b
    rw [StringDict.deserialize]
    cases (StringDict.readEntries b).run data with
    | error | ok => rfl
  simp only [heq]
  exact (hentries data).bind_fixed fun _ => avoids_ok _

/-! ## Ops -/

section Ops

variable (room) (dicts : ReadDicts)

def RawObjectSafe : OTag → List UInt8 → Prop
  | .ref => PairSafe room
  | .long | .string | .lexical _ | .json | .vector => fun bs => ¬ Overlong bs
  | .double | .boolean | .null | .geoPoint => fun _ => True

/-- The flags, the language tag and the list index. -/
def TailSafe : List UInt8 → Prop :=
  Then readU8 fun flags bs =>
    ((flags &&& OP_FLAG_HAS_LANG != 0) = true → ¬ Overlong bs) ∧
      Then (whenFlag flags OP_FLAG_HAS_LANG none
        (decodeInlineStr (strictBuild room) >>= fun s => pure (some s)))
        (fun _ bs => (flags &&& OP_FLAG_HAS_I != 0) = true → ¬ Overlong bs) bs

/-- One op, field by field. -/
def RawOpSafe (bs : List UInt8) : Prop :=
  let s := strictBuild room
  ¬ Overlong bs ∧ Then (decodeU16 s) (fun _ bs =>
    ¬ Overlong bs ∧ Then (decodeId s) (fun id => Then (getGraphName dicts.graph id) (fun _ bs =>
      PairSafe room bs ∧ Then (decodeRawSid s dicts.subject) (fun _ bs =>
        PairSafe room bs ∧ Then (decodeRawSid s dicts.predicate) (fun _ bs =>
          PairSafe room bs ∧ Then (decodeRawSid s dicts.datatype) (fun _ =>
            Then decodeTag fun tag bs =>
              RawObjectSafe room tag bs ∧ Then (decodeRawObject s dicts tag)
                (fun _ => TailSafe room) bs) bs) bs) bs)) bs) bs

end Ops

lemma guarded_inlineStr :
    GuardedDec room decodeInlineStr fun bs => ¬ Overlong bs := guarded_str _

lemma guarded_rawObject (dicts : ReadDicts) (tag : OTag) :
    GuardedDec room (fun b => decodeRawObject b dicts tag)
      (RawObjectSafe room tag) := by
  cases tag with
  | ref =>
    exact guarded_pair fun _ => guarded_id.bind_fixed fun id =>
      (Calm.name dicts.objectRef id).bind fun _ => Calm.pure _
  | long => exact guarded_zigzag.map _
  | double => exact ((Calm.exact 8).bind fun _ => Calm.pure _).guarded
  | string => exact guarded_inlineStr.map _
  | boolean => exact (Calm.u8.bind fun _ => Calm.pure _).guarded
  | lexical | json => exact guarded_inlineStr.map _
  | null => exact .pure _
  | geoPoint => exact ((Calm.exact 16).bind fun _ => Calm.pure _).guarded
  | vector => exact guarded_field fun n => (Calm.exact (n * 8)).bind fun _ => Calm.pure _

lemma guarded_tail : GuardedDec room decodeTail (TailSafe room) := by
  refine .fixed_bind Calm.u8 fun flags => ?_
  refine (guarded_whenFlag (guarded_inlineStr.map some)).bind fun _ => ?_
  exact (guarded_whenFlag guarded_index).map _

lemma guarded_rawSid (dict : StringDict) :
    GuardedDec room (fun b => decodeRawSid b dict) (PairSafe room) :=
  guarded_pair fun _ => guarded_id.bind_fixed fun id => (Calm.name dict id).bind fun _ => Calm.pure _

/-- **A raw op is read without a panic exactly when its bytes are safe.** -/
lemma guarded_rawOp (dicts : ReadDicts) :
    GuardedDec room (fun b => decodeRawOp b dicts) (RawOpSafe room dicts) := by
  refine guarded_u16.bind fun _ => guarded_id.bind fun id => ?_
  refine GuardedReader.fixed_bind (Calm.graphName dicts.graph id) fun _ => ?_
  refine (guarded_rawSid dicts.subject).bind fun s => ?_
  refine (guarded_rawSid dicts.predicate).bind fun p => ?_
  refine (guarded_rawSid dicts.datatype).bind fun dt => ?_
  refine .fixed_bind Calm.tag fun tag => ?_
  refine (guarded_rawObject dicts tag).bind fun o => ?_
  exact guarded_tail.map _

end Fluree.Codec
