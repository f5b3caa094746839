import Fluree.Commit.Ops
import Fluree.Proof.GeoPoint
import Fluree.Lib.Guard

/-!
# Round trips of the wire primitives

Each primitive is read back from its bytes by a reader that takes exactly these bytes and stops
when they are cut short (`Lib.Reads`), in every build.

* `zigzagDecode_zigzagEncode`: numbers with sign.
-/

namespace Fluree.Codec

section

open List Nat

open Lib (leBytes leNat Reads repeatRead)

variable {build : Build}

lemma reads_exact (bs : List UInt8) : Reads (readExact bs.length) bs bs where
  whole := fun rest => by
    change (if (bs ++ rest).length < bs.length then _ else _) = _
    rw [if_neg (by simp), take_left, drop_left]
  short := fun u hu hne => by
    have hlt : u.length < bs.length :=
      lt_of_le_of_ne hu.length_le fun h => hne (hu.eq_of_length h)
    refine ⟨.error .unexpectedEof, ?_⟩
    change (if u.length < bs.length then _ else _) = _
    rw [if_pos hlt]

lemma reads_exact_of_length {bs n} (h : bs.length = n) :
    Reads (readExact n) bs bs := h ▸ reads_exact bs

lemma reads_u8 (b : UInt8) : Reads readU8 [b] b where
  whole := fun _ => rfl
  short := fun u hu hne => by
    rcases prefix_cons_iff.1 hu with rfl | ⟨t, rfl, ht⟩
    · exact ⟨_, rfl⟩
    · exact absurd (by rw [prefix_nil.1 ht]) hne

lemma reads_ensure {c} (h : c = true) (e : CommitCodecError) : Reads (ensure c e) [] () := by
  rw [ensure, if_pos h]
  exact Reads.pure ()

lemma reads_lift {α : Type} {y : Except Stop α} {a : α} (h : y = .ok a) :
    Reads (liftExcept y) [] a where
  whole := fun _ => by subst h; rfl
  short := fun _ hu hne => absurd (prefix_nil.1 hu) hne

lemma reads_capacity {n} (h : n ≤ build.limit) : Reads (liftExcept (withCapacity build n)) [] () :=
  reads_lift (if_pos h)

/-! ## Varints -/

lemma shlU64_of_lt {x shift} (hs : shift < 64) (h : x * 2 ^ shift < 2 ^ 64) :
    shlU64 build x shift = .ok (x * 2 ^ shift) := by
  rw [shlU64, if_pos hs, mod_eq_of_lt h]

lemma or_shifted {result shift} (h : result < 2 ^ shift) (x : ℕ) :
    result ||| x * 2 ^ shift = x * 2 ^ shift + result := by
  rw [Nat.or_comm, ← Nat.shiftLeft_eq, Nat.shiftLeft_add_eq_or_of_lt h]

lemma addU32_of_lt {a b} (h : a + b < 2 ^ 32) : addU32 build a b = .ok (a + b) := if_pos h

lemma decodeVarintLoop_more {shift result payload} (rest : List UInt8)
    (hp : payload < 128) (hs : shift ≤ 56) (hr : result < 2 ^ shift) :
    decodeVarintLoop build shift result (UInt8.ofNat (payload + 128) :: rest)
      = decodeVarintLoop build (shift + 7) (payload * 2 ^ shift + result) rest := by
  have hbyte : (UInt8.ofNat (payload + 128)).toNat = payload + 128 := by
    rw [UInt8.toNat_ofNat']; omega
  have hlt : payload * 2 ^ shift < 2 ^ 64 := by
    have hpow : 2 ^ shift ≤ 2 ^ 56 := Nat.pow_le_pow_right (by norm_num) hs
    calc payload * 2 ^ shift ≤ 128 * 2 ^ 56 := Nat.mul_le_mul hp.le hpow
      _ < 2 ^ 64 := by norm_num
  have hmod : (payload + 128) % 128 = payload := by omega
  rw [decodeVarintLoop]
  simp only [hbyte, hmod]
  rw [if_neg (by omega), shlU64_of_lt (by omega) hlt]
  simp only
  rw [if_neg (by omega), addU32_of_lt (by omega), or_shifted hr]

lemma decodeVarintLoop_last {shift result payload : ℕ} (rest : List UInt8)
    (hp : payload < 128) (hs : shift ≤ 63) (hr : result < 2 ^ shift)
    (hfit : payload * 2 ^ shift < 2 ^ 64) :
    decodeVarintLoop build shift result (UInt8.ofNat payload :: rest)
      = .ok (payload * 2 ^ shift + result, rest) := by
  have hbyte : (UInt8.ofNat payload).toNat = payload := by rw [UInt8.toNat_ofNat']; omega
  have hone : ¬ (63 ≤ shift ∧ 1 < payload) := by
    rintro ⟨_, _⟩
    obtain rfl : shift = 63 := by omega
    omega
  rw [decodeVarintLoop]
  simp only [hbyte, mod_eq_of_lt hp]
  rw [if_neg hone, shlU64_of_lt (by omega) hfit]
  simp only
  rw [if_pos hp, or_shifted hr]

lemma add_lt_of_digit {payload shift result} (hp : payload < 128) (hr : result < 2 ^ shift) :
    payload * 2 ^ shift + result < 2 ^ (shift + 7) := by
  have h : (payload + 1) * 2 ^ shift ≤ 128 * 2 ^ shift := mul_le_mul_right _ hp
  rw [add_mul, one_mul] at h
  rw [pow_add]
  omega

lemma digit_split (v shift result : ℕ) :
    v / 128 * 2 ^ (shift + 7) + (v % 128 * 2 ^ shift + result) = v * 2 ^ shift + result := by
  have h : v * 2 ^ shift = (128 * (v / 128) + v % 128) * 2 ^ shift := by rw [div_add_mod]
  rw [h, pow_add]
  ring

/-- A number of one group has no second one. -/
lemma next_group {fuel v : ℕ} (hv : v < 128 ^ (fuel + 1)) (h0 : ¬ v / 128 = 0) :
    0 < fuel ∧ v / 128 < 128 ^ fuel := by
  rw [pow_succ] at hv
  refine ⟨pos_of_ne_zero ?_, by omega⟩
  rintro rfl
  omega

lemma decodeVarintLoop_encode {fuel v shift result} (hf : 0 < fuel)
    (hs : shift + 7 * fuel = 70) (hv : v < 128 ^ fuel) (hr : result < 2 ^ shift)
    (hfit : v * 2 ^ shift + result < 2 ^ 64) (rest : List UInt8) :
    decodeVarintLoop build shift result (encodeVarintLoop fuel v ++ rest)
      = .ok (v * 2 ^ shift + result, rest) := by
  induction fuel generalizing v shift result with
  | zero => omega
  | succ fuel ih =>
    rw [encodeVarintLoop]
    split
    · rename_i h0
      have hlt : v < 128 := by omega
      rw [mod_eq_of_lt hlt]
      exact decodeVarintLoop_last rest hlt (by omega) hr (by omega)
    · rename_i h0
      have hmod : v % 128 < 128 := mod_lt _ (by norm_num)
      obtain ⟨hfuel, hnext⟩ := next_group hv h0
      rw [cons_append, decodeVarintLoop_more _ hmod (by omega) hr,
        ih hfuel (by omega) hnext (add_lt_of_digit hmod hr)
          (by rw [digit_split]; exact hfit), digit_split]

lemma decodeVarintLoop_short {fuel v shift result} (hf : 0 < fuel)
    (hs : shift + 7 * fuel = 70) (hv : v < 128 ^ fuel) (hr : result < 2 ^ shift)
    {u} (hu : u <+: encodeVarintLoop fuel v) (hne : u ≠ encodeVarintLoop fuel v) :
    decodeVarintLoop build shift result u = .error (.error .unexpectedEof) := by
  induction fuel generalizing v shift result u with
  | zero => omega
  | succ fuel ih =>
    rw [encodeVarintLoop] at hu hne
    split at hu
    · rename_i h0
      rw [if_pos h0] at hne
      rcases prefix_cons_iff.1 hu with rfl | ⟨t, rfl, ht⟩
      · rfl
      · exact absurd (by rw [prefix_nil.1 ht]) hne
    · rename_i h0
      rw [if_neg h0] at hne
      have hmod : v % 128 < 128 := mod_lt _ (by norm_num)
      obtain ⟨hfuel, hnext⟩ := next_group hv h0
      rcases prefix_cons_iff.1 hu with rfl | ⟨t, rfl, ht⟩
      · rfl
      rw [decodeVarintLoop_more _ hmod (by omega) hr]
      exact ih hfuel (by omega) hnext (add_lt_of_digit hmod hr) ht
        fun h => hne (by rw [h])

/-- **A varint of a 64-bit number is read back.** -/
lemma reads_varint {v} (hv : v < 2 ^ 64) : Reads (decodeVarint build) (encodeVarint v) v where
  whole := fun rest => by
    have h := @decodeVarintLoop_encode build 10 v 0 0 (by omega) (by omega)
      (hv.trans (by norm_num)) (by norm_num) (by omega) rest
    rw [pow_zero, mul_one, add_zero] at h
    exact h
  short := fun u hu hne => ⟨_, @decodeVarintLoop_short build 10 v 0 0 (by omega) (by omega)
    (hv.trans (by norm_num)) (by norm_num) u hu hne⟩

lemma sshiftRight_63 (v : BitVec 64) :
    v.sshiftRight 63 = if v.msb then BitVec.allOnes 64 else 0#64 := by
  apply BitVec.eq_of_getLsbD_eq
  intro i hi
  rw [BitVec.getLsbD_sshiftRight]
  rcases Nat.eq_zero_or_pos i with rfl | hp
  · rw [if_pos (by omega), show v.getLsbD (63 + 0) = v.msb from rfl]
    cases h : v.msb <;> rfl
  · rw [if_neg (by omega)]
    cases h : v.msb
    · simp
    · rw [if_pos rfl, BitVec.getLsbD_allOnes, decide_eq_true hi]
      simp [hi]

lemma zigzag_bits (v : BitVec 64) :
    ((v <<< 1 ^^^ v.sshiftRight 63) >>> 1) ^^^ -((v <<< 1 ^^^ v.sshiftRight 63) &&& 1#64) = v := by
  have hlast : v.getLsbD 63 = v.msb := rfl
  have hodd : ∀ b : Bool, (v <<< 1 ^^^ (if b then BitVec.allOnes 64 else 0#64)) &&& 1#64
      = if b then 1#64 else 0#64 := by
    intro b
    apply BitVec.eq_of_getLsbD_eq
    intro i hi
    rcases Nat.eq_zero_or_pos i with rfl | hp
    · cases b <;> simp
    · cases b <;> simp [BitVec.getLsbD_one, hp.ne']
  have hneg : ∀ b : Bool, -(if b then 1#64 else 0#64) = if b then BitVec.allOnes 64 else 0#64 := by
    decide
  rw [sshiftRight_63, hodd, hneg]
  apply BitVec.eq_of_getLsbD_eq
  intro i hi
  simp only [BitVec.getLsbD_xor, BitVec.getLsbD_ushiftRight, BitVec.getLsbD_shiftLeft]
  -- the highest bit is shifted out and comes back from the sign
  rcases lt_or_ge (1 + i) 64 with hlt | hge
  · cases v.msb <;> simp [hlt, hi, -BitVec.reduceAllOnes]
  obtain rfl : i = 63 := by omega
  rw [hlast]
  cases v.msb <;> rfl

lemma zigzagDecode_zigzagEncode (n : Int64) : zigzagDecode (zigzagEncode n) = n := by
  apply Int64.toBitVec_inj.1
  exact zigzag_bits n.toBitVec

/-! ## Strings -/

lemma fromUtf8_asBytes (s : String) : fromUtf8 (asBytes s) = some s := by
  have h : (⟨(asBytes s).toArray⟩ : ByteArray) = s.toByteArray := by
    rw [asBytes, Array.toArray_toList]
    rfl
  rw [fromUtf8, h, String.fromUTF8?]
  simp only [dif_pos s.isValidUTF8]
  rfl

lemma reads_readStr (bad : CommitCodecError) (s : String) :
    Reads (readStr bad (asBytes s).length) (asBytes s) s := by
  refine Reads.bind_last (reads_exact (asBytes s)) ?_
  rw [fromUtf8_asBytes]
  exact Reads.pure s

/-- **A string behind its length is read back.** -/
lemma reads_str (bad : CommitCodecError) {s} (h : (asBytes s).length < 2 ^ 64) :
    Reads (decodeStr build bad) (encodeLenStr s) s :=
  (reads_varint h).bind (reads_readStr bad s)

/-! ## Numbers of fixed width -/

lemma leNat_leBytes_of_lt {w n} (h : n < 256 ^ w) : leNat (leBytes w n) = n := by
  rw [Lib.leNat_leBytes, mod_eq_of_lt h]

lemma reads_u16 {n} (h : n < 2 ^ 16) : Reads readU16 (leBytes 2 n) n := by
  refine Reads.bind_last (reads_exact_of_length (Lib.leBytes_length 2 n)) ?_
  rw [leNat_leBytes_of_lt (by omega)]
  exact Reads.pure n

/-! ## Dictionaries -/

lemma reads_readEntry {s} (h : (asBytes s).length < 2 ^ 64) :
    Reads (StringDict.readEntry build) (encodeLenStr s) s := by
  refine Reads.bind (reads_varint h) (Reads.bind_last (a := asBytes s) ?_ ?_)
  · constructor
    · intro rest
      change (if (asBytes s ++ rest).length < (asBytes s).length then _ else _) = _
      rw [if_neg (by simp), take_left, drop_left]
    · intro u hu hne
      have hlt : u.length < (asBytes s).length :=
        lt_of_le_of_ne hu.length_le fun h => hne (hu.eq_of_length h)
      refine ⟨.error (.invalidDictionary "string bytes extend past dictionary end"), ?_⟩
      change (if u.length < (asBytes s).length then _ else _) = _
      rw [if_pos hlt]
  · rw [fromUtf8_asBytes]
    exact Reads.pure s

/-- **A serialized dictionary is read back.** -/
lemma reads_dict {d : StringDictBuilder} (hlen : d.entries.length < 2 ^ 64)
    (hs : ∀ s ∈ d.entries, (asBytes s).length < 2 ^ 64) (hcap : d.entries.length ≤ build.limit) :
    Reads (StringDict.readEntries build) d.serialize d.entries := by
  have h := Reads.repeatRead_flatMap fun s hmem => @reads_readEntry build s (hs s hmem)
  exact Reads.bind (reads_varint hlen) (Reads.bind_nil (reads_capacity hcap) h)

end

/-!
## Round trips of ops

An op is written while the dictionaries grow and read with the final ones, so every fact is stated
for dictionaries that continue those the writer left (`Continues`).

* `encodeOp_spec`: **the flake reader gets the flake in the form a blob can carry**
  (`Flake.stored`): the transaction number of the commit, a normalized language tag, 60 bits of a
  point, and the raw reader gets the parts of the flake.
-/

open List Prod Codec.FlakeValue Except Int32

open Lib (leBytes leNat Reads repeatRead)

variable {x : External} {w build : Build}

/-! ## Dictionaries that grow -/

lemma insert_spec {d d' : StringDictBuilder} {s : String} {id : ℕ}
    (h : d.insert w s = .ok (id, d')) : d.entries <+: d'.entries ∧ s ∈ d'.entries ∧
      ∀ F : List String, d'.entries <+: F → F.length < 2 ^ 32 →
        0 < id ∧ id < 2 ^ 32 ∧ F[id - 1]? = some s := by
  simp only [StringDictBuilder.insert] at h
  split at h
  · cases h
  rename_i id' hid
  obtain ⟨rfl, rfl⟩ : id' = id ∧ (if s ∈ d.entries then d else ⟨d.entries ++ [s]⟩) = d' := by
    simpa using h
  have hgrow : d.entries <+: (if s ∈ d.entries then d else ⟨d.entries ++ [s]⟩).entries := by
    split
    · exact prefix_rfl
    · exact prefix_append _ _
  -- the string stands at the position that its id names
  have hat : (if s ∈ d.entries then d else ⟨d.entries ++ [s]⟩).entries[d.entries.idxOf s]?
      = some s := by
    split
    · rename_i hmem
      rw [List.getElem?_eq_getElem (idxOf_lt_length_of_mem hmem), getElem_idxOf]
    · rename_i hmem
      rw [idxOf_eq_length hmem]
      simp
  refine ⟨hgrow, mem_of_getElem? hat, fun F hF hlen => ?_⟩
  obtain ⟨t, rfl⟩ := hF
  have hlt := (List.getElem?_eq_some_iff.1 hat).1
  have hidx : d.entries.idxOf s < 2 ^ 32 - 1 := by
    rw [length_append] at hlen
    omega
  rw [Nat.mod_eq_of_lt (by omega), addU32_of_lt (by omega)] at hid
  obtain rfl := ok.inj hid
  refine ⟨Nat.succ_pos _, by omega, ?_⟩
  rw [Nat.add_sub_cancel, List.getElem?_append_left hlt]
  exact hat

lemma reads_getName {F id s} (h0 : 0 < id)
    (h : F[id - 1]? = some s) : Reads (getName ⟨F⟩ id) [] s := by
  have hget : StringDict.get ⟨F⟩ id = .ok s := by
    rw [StringDict.get, if_neg (by omega)]
    simp only [h]
  rw [getName, hget]
  exact .pure s

lemma reads_id {id} (h : id < 2 ^ 32) : Reads (decodeId build) (encodeVarint id) id := by
  refine .bind_last (reads_varint (by omega)) ?_
  rw [Nat.mod_eq_of_lt h]
  exact .pure id

lemma reads_codeU16 (n : UInt16) : Reads (decodeU16 build) (encodeVarint n.toNat) n := by
  have hn := n.toNat_lt
  refine .bind_last (reads_varint (by omega)) ?_
  rw [UInt16.ofNat_toNat]
  exact .pure n

lemma reads_nsCode (n : UInt16) : Reads (decodeNsCode build) (encodeVarint n.toNat) n := by
  have hn := n.toNat_lt
  refine .bind_last (reads_varint (by omega)) (.bind_nil (reads_ensure ?_ _) ?_)
  · exact decide_eq_true hn
  · rw [UInt16.ofNat_toNat]
    exact .pure n

lemma encodeSid_spec (build : Build) {d d' : StringDictBuilder} {sid : Sid} {bytes : List UInt8}
    (h : encodeSid w d sid = .ok (bytes, d')) :
    d.entries <+: d'.entries ∧ ∀ F : List String, d'.entries <+: F → F.length < 2 ^ 32 →
      Reads (decodeSid build ⟨F⟩) bytes sid ∧
        Reads (decodeRawSid build ⟨F⟩) bytes (sid.namespaceCode, sid.name) ∧
        ∃ id, 0 < id ∧ id < 2 ^ 32 ∧ F[id - 1]? = some sid.name ∧
          bytes = encodeVarint sid.namespaceCode.toNat ++ encodeVarint id := by
  obtain ⟨⟨id, d''⟩, hins, hrest⟩ := bind_eq_ok.1 h
  obtain ⟨rfl, rfl⟩ : encodeVarint sid.namespaceCode.toNat ++ encodeVarint id = bytes ∧ d'' = d' := by
    simpa using ok.inj hrest
  obtain ⟨hgrow, -, hid⟩ := insert_spec hins
  refine ⟨hgrow, fun F hF hlen => ?_⟩
  obtain ⟨h0, hlt, hget⟩ := hid F hF hlen
  refine ⟨?_, ?_, id, h0, hlt, hget, rfl⟩
  · exact .bind (reads_nsCode _) (.bind_last (reads_id hlt)
      (.bind_nil (reads_getName h0 hget) (.pure sid)))
  · exact .bind (reads_codeU16 _) (.bind_last (reads_id hlt)
      (.bind_nil (reads_getName h0 hget) (.pure _)))

/-- The second set of dictionaries continues the first. -/
structure Continues (d d' : CommitDicts) : Prop where
  graph : d.graph.entries <+: d'.graph.entries
  subject : d.subject.entries <+: d'.subject.entries
  predicate : d.predicate.entries <+: d'.predicate.entries
  datatype : d.datatype.entries <+: d'.datatype.entries
  objectRef : d.objectRef.entries <+: d'.objectRef.entries

namespace Continues

lemma rfl (d : CommitDicts) : Continues d d :=
  ⟨prefix_rfl, prefix_rfl, prefix_rfl, prefix_rfl, prefix_rfl⟩

lemma trans (h : Continues d d') (h' : Continues d' d'') : Continues d d'' :=
  ⟨h.graph.trans h'.graph, h.subject.trans h'.subject, h.predicate.trans h'.predicate,
    h.datatype.trans h'.datatype, h.objectRef.trans h'.objectRef⟩

end Continues

/-- The dictionaries of a reader: what the writer ended with, all ids in 32 bits. -/
structure Complete (d : CommitDicts) : Prop where
  graph : d.graph.entries.length < 2 ^ 32
  subject : d.subject.entries.length < 2 ^ 32
  predicate : d.predicate.entries.length < 2 ^ 32
  datatype : d.datatype.entries.length < 2 ^ 32
  objectRef : d.objectRef.entries.length < 2 ^ 32

def toRead (d : CommitDicts) : ReadDicts := d.map fun b => ⟨b.entries⟩

/-! ## Objects -/

/-- The object as the raw reader hands it out. -/
def FlakeValue.raw : FlakeValue x → RawObject
  | .ref sid => .ref sid.namespaceCode sid.name
  | .long n => .long n
  | .double d => .double d
  | .string s => .str s
  | .boolean b => .boolean b
  | .lexical kind v => .lexicalStr kind (x.display kind v)
  | .json s => .jsonStr s
  | .null => .null
  | .geoPoint bits => .geoPoint (decodeGeoPoint bits).1 (decodeGeoPoint bits).2
  | .vector elements => .vector elements

/-- The object that a blob can carry: 60 bits of a point. -/
def FlakeValue.stored : FlakeValue x → FlakeValue x
  | .geoPoint bits => .geoPoint (UInt64.ofNat (bits.toNat % 2 ^ 60))
  | v => v

def FlakeValue.tag : FlakeValue x → OTag
  | .ref _ => .ref
  | .long _ => .long
  | .double _ => .double
  | .string _ => .string
  | .boolean _ => .boolean
  | .lexical kind _ => .lexical kind
  | .json _ => .json
  | .null => .null
  | .geoPoint _ => .geoPoint
  | .vector _ => .vector

lemma fromU8_toU8 (tag : OTag) : OTag.fromU8 tag.toU8 = .ok tag := by
  cases tag with
  | lexical kind => cases kind <;> rfl
  | _ => rfl

lemma reads_tag (tag : OTag) : Reads decodeTag [tag.toU8] tag := by
  refine .bind_last (reads_u8 _) ?_
  rw [fromU8_toU8]
  exact .pure tag

lemma f64FromLe_encodeF64 (d : F64) : f64FromLe (encodeF64 d) = d := by
  have h := d.bits.toNat_lt
  rw [f64FromLe, encodeF64, leNat_leBytes_of_lt (by norm_num; omega), UInt64.ofNat_toNat]

@[simp] lemma encodeF64_length (d : F64) : (encodeF64 d).length = 8 := Lib.leBytes_length 8 _

lemma encodeF64s_length (ds : List F64) : (ds.flatMap encodeF64).length = ds.length * 8 := by
  induction ds with
  | nil => rfl
  | cons _ _ ih => rw [flatMap_cons, length_append, ih, encodeF64_length, length_cons]; omega

lemma f64sFromLe_encode (ds : List F64) : f64sFromLe ds.length (ds.flatMap encodeF64) = ds := by
  induction ds with
  | nil => rfl
  | cons d _ ih =>
    rw [length_cons, f64sFromLe, flatMap_cons, take_left' (encodeF64_length d),
      drop_left' (encodeF64_length d), ih, f64FromLe_encodeF64]

lemma display_eq_encodeLenStr (text : String) :
    encodeLenPrefixedDisplay text = encodeLenStr text := by
  rw [encodeLenPrefixedDisplay, encodeLenStr]
  split
  · rename_i h
    have hd : (asBytes text).length / 128 = 0 := by omega
    rw [encodeVarint, encodeVarintLoop, if_pos hd, Nat.mod_eq_of_lt h]
    rfl
  · rfl

lemma reads_inlineStr (h : (encodeLenStr s).length < 2 ^ 64) :
    Reads (decodeInlineStr build) (encodeLenStr s) s := by
  rw [encodeLenStr, length_append] at h
  exact reads_str _ (by omega)

lemma reads_zigzag (n : Int64) :
    Reads (decodeZigzag build) (encodeVarint (zigzagEncode n).toNat) n := by
  have hn := (zigzagEncode n).toNat_lt
  refine .bind_last (reads_varint (by omega)) ?_
  rw [UInt64.ofNat_toNat, zigzagDecode_zigzagEncode]
  exact .pure n

variable {d d' : CommitDicts} {bytes : List UInt8}

lemma encodeObject_spec (build : Build) {v} (h : encodeObject x w d v = .ok (bytes, d')) :
    Continues d d' ∧ ∃ payload, bytes = v.tag.toU8 :: payload ∧
      ∀ F : CommitDicts, Continues d' F → Complete F → bytes.length < 2 ^ 64 →
        Reads (decodeRawObject build (toRead F) v.tag) payload v.raw := by
  cases v with
  | ref =>
    obtain ⟨⟨bs, dict⟩, hsid, hrest⟩ := bind_eq_ok.1 h
    obtain ⟨rfl, rfl⟩ : OTag.ref.toU8 :: bs = bytes ∧ { d with objectRef := dict } = d' := by
      simpa using ok.inj hrest
    obtain ⟨hgrow, hF⟩ := encodeSid_spec build hsid
    refine ⟨⟨prefix_rfl, prefix_rfl, prefix_rfl, prefix_rfl, hgrow⟩, bs, rfl, fun F hc hd _ => ?_⟩
    obtain ⟨-, -, _, h0, hlt, hget, rfl⟩ := hF F.objectRef.entries hc.objectRef hd.objectRef
    exact .bind (reads_codeU16 _) (.bind_last (reads_id hlt)
      (.bind_nil (reads_getName h0 hget) (.pure _)))
  | long n =>
    obtain ⟨rfl, rfl⟩ := Prod.ext_iff.1 (ok.inj h)
    exact ⟨.rfl _, _, rfl, fun F _ _ _ => (reads_zigzag n).map _⟩
  | double n =>
    obtain ⟨rfl, rfl⟩ := Prod.ext_iff.1 (ok.inj h)
    refine ⟨.rfl _, _, rfl, fun F _ _ _ => ?_⟩
    have hr := (reads_exact_of_length (encodeF64_length n)).map fun bs => RawObject.double (f64FromLe bs)
    rw [f64FromLe_encodeF64] at hr
    exact hr
  | string | json =>
    obtain ⟨rfl, rfl⟩ := Prod.ext_iff.1 (ok.inj h)
    refine ⟨.rfl _, _, rfl, fun F _ _ hlen => ?_⟩
    exact (reads_inlineStr (by rw [length_cons] at hlen; omega)).map _
  | boolean b =>
    obtain ⟨rfl, rfl⟩ := Prod.ext_iff.1 (ok.inj h)
    refine ⟨.rfl _, _, rfl, fun F _ _ _ => ?_⟩
    have hr := (reads_u8 (if b then 1 else 0)).map fun c => RawObject.boolean (c != 0)
    cases b <;> exact hr
  | lexical =>
    obtain ⟨rfl, rfl⟩ := Prod.ext_iff.1 (ok.inj h)
    refine ⟨.rfl _, _, rfl, fun F _ _ hlen => ?_⟩
    rw [display_eq_encodeLenStr, length_cons] at hlen
    rw [display_eq_encodeLenStr]
    exact (reads_inlineStr (by omega)).map _
  | null =>
    obtain ⟨rfl, rfl⟩ := Prod.ext_iff.1 (ok.inj h)
    exact ⟨.rfl _, _, rfl, fun F _ _ _ => .pure _⟩
  | geoPoint bits =>
    obtain ⟨rfl, rfl⟩ := Prod.ext_iff.1 (ok.inj h)
    refine ⟨.rfl _, _, rfl, fun F _ _ _ => ?_⟩
    have hlen : (encodeF64 (decodeGeoPoint bits).1 ++ encodeF64 (decodeGeoPoint bits).2).length
        = 16 := by simp
    have hr := (reads_exact_of_length hlen).map fun bs =>
      RawObject.geoPoint (f64FromLe (bs.take 8)) (f64FromLe (bs.drop 8))
    rw [take_left' (encodeF64_length _), drop_left' (encodeF64_length _),
      f64FromLe_encodeF64, f64FromLe_encodeF64] at hr
    exact hr
  | vector elements =>
    obtain ⟨rfl, rfl⟩ := Prod.ext_iff.1 (ok.inj h)
    refine ⟨.rfl _, _, rfl, fun F _ _ hlen => ?_⟩
    have hcount : elements.length < 2 ^ 64 := by
      rw [length_cons, length_append, encodeF64s_length] at hlen
      omega
    have hr := (reads_exact_of_length (encodeF64s_length elements)).map fun bs =>
      RawObject.vector (f64sFromLe elements.length bs)
    rw [f64sFromLe_encode] at hr
    exact .bind (reads_varint hcount) hr

/-- The lexical form of a value is parsed to the value, in every build. -/
def ParsesBack (x : External) : Prop :=
  ∀ k v, x.parse k (x.display k v) = .ok v ∧
    ∀ build, (RawObject.lexicalStr k (x.display k v)).panics x build = false

lemma ParsesBack.panics_raw (hparse : ParsesBack x) (v : FlakeValue x) (build : Build) :
    v.raw.panics x build = false := by
  cases v with
  | lexical k v => exact (hparse k v).2 build
  | _ => rfl

lemma tryFrom_raw (hparse : ParsesBack x) (v : FlakeValue x) :
    tryFrom x v.raw = .ok v.stored := by
  cases v with
  | lexical k v =>
    simp only [raw, tryFrom, (hparse k v).1]
    rfl
  | geoPoint =>
    simp only [raw, tryFrom, encodeGeoPoint_decodeGeoPoint]
    rfl
  | _ => rfl


/-! ## Flags, language tag and list index -/

lemma int32_ofNat_toNat (h : ¬ i < 0) : i.toInt.toNat < 2 ^ 31 ∧ ofNat i.toInt.toNat = i := by
  have hle : 0 ≤ i.toInt := by
    have := Int32.le_iff_toInt_le.1 (Int32.not_lt.1 h)
    simpa using this
  have hlt := i.toInt_lt
  refine ⟨by omega, ?_⟩
  apply toInt_inj.1
  rw [toInt_ofNat_of_lt (by omega)]
  omega

lemma tail_flags : ∀ op hasLang hasI : Bool,
    let flags := (if op then OP_FLAG_ASSERT else 0) ||| (if hasLang then OP_FLAG_HAS_LANG else 0)
      ||| (if hasI then OP_FLAG_HAS_I else 0)
    (flags &&& OP_FLAG_ASSERT != 0) = op ∧ (flags &&& OP_FLAG_HAS_LANG != 0) = hasLang ∧
      (flags &&& OP_FLAG_HAS_I != 0) = hasI := by
  decide

lemma encodeTail_spec (build : Build) (h : encodeTail op lang i = .ok bytes)
    (hlen : bytes.length < 2 ^ 64) : Reads (decodeTail build) bytes (op, lang, i) := by
  have hflags := tail_flags op lang.isSome i.isSome
  simp only [encodeTail] at h hflags
  set flags := (if op then OP_FLAG_ASSERT else 0) ||| (if lang.isSome then OP_FLAG_HAS_LANG else 0)
    ||| (if i.isSome then OP_FLAG_HAS_I else 0)
  obtain ⟨hop, hlang, hi⟩ := hflags
  have hreadLang : (lang.elim [] encodeLenStr).length < 2 ^ 64 →
      Reads (whenFlag flags OP_FLAG_HAS_LANG none (do
        let s ← decodeInlineStr build
        pure (some s))) (lang.elim [] encodeLenStr) lang := by
    intro hle
    rw [whenFlag, hlang]
    cases lang with
    | none => exact .pure none
    | some => exact (reads_inlineStr hle).map some
  cases i with
  | none =>
    obtain rfl := ok.inj h
    rw [length_cons] at hlen
    refine .bind (reads_u8 flags) (.bind_last (hreadLang (by omega)) ?_)
    rw [whenFlag, hi, hop]
    exact .pure _
  | some i =>
    simp only at h
    split at h
    · cases h
    rename_i hneg
    obtain rfl := ok.inj h
    rw [length_cons, length_append] at hlen
    obtain ⟨hlt, hback⟩ := int32_ofNat_toNat hneg
    refine .bind (reads_u8 flags) (.bind (hreadLang (by omega)) (.bind_last
      (a := some i) ?_ ?_))
    · rw [whenFlag, hi]
      refine .bind_last (reads_varint (by omega)) (.bind_nil (reads_ensure ?_ _) ?_)
      · exact decide_eq_true hlt
      · rw [hback]
        exact .pure _
    · rw [hop]
      exact .pure _

/-! ## Ops -/

def storedMeta (m : Option FlakeMeta) : Option FlakeMeta := metaOf (m.bind (·.lang)) (m.bind (·.i))

def Flake.stored (t : ℤ) (f : Flake x) : Flake x :=
  { f with o := f.o.stored, t := t, m := storedMeta f.m }

/-- The op as the raw reader hands it out; the default graph has an empty name. -/
def Flake.rawOp (f : Flake x) : RawOp where
  gNsCode := f.g.elim 0 (·.namespaceCode)
  gName := f.g.elim "" (·.name)
  sNsCode := f.s.namespaceCode
  sName := f.s.name
  pNsCode := f.p.namespaceCode
  pName := f.p.name
  dtNsCode := f.dt.namespaceCode
  dtName := f.dt.name
  o := f.o.raw
  op := f.op
  lang := f.m.bind (·.lang)
  i := f.m.bind (·.i)

lemma encodeGraph_spec (build : Build) {g} (h : encodeGraph w d g = .ok (bytes, d')) :
    Continues d d' ∧ ∀ F : CommitDicts, Continues d' F → Complete F →
      Reads (decodeGraph build (toRead F).graph) bytes g ∧ ∃ id, id < 2 ^ 32 ∧
        bytes = encodeVarint (g.elim (0 : UInt16) (·.namespaceCode)).toNat ++ encodeVarint id ∧
        Reads (getGraphName (toRead F).graph id) [] (g.elim "" (·.name)) := by
  cases g with
  | none =>
    obtain ⟨rfl, rfl⟩ := Prod.ext_iff.1 (ok.inj h)
    refine ⟨.rfl _, fun F _ _ => ⟨?_, 0, by norm_num, rfl, .pure _⟩⟩
    exact .bind (reads_nsCode 0) (.bind_last (reads_id (by norm_num)) (.pure none))
  | some =>
    obtain ⟨⟨bs, dict⟩, hsid, hrest⟩ := bind_eq_ok.1 h
    obtain ⟨rfl, rfl⟩ : bs = bytes ∧ { d with graph := dict } = d' := by
      simpa using ok.inj hrest
    obtain ⟨hgrow, hF⟩ := encodeSid_spec build hsid
    refine ⟨⟨hgrow, prefix_rfl, prefix_rfl, prefix_rfl, prefix_rfl⟩, fun F hc hd => ?_⟩
    obtain ⟨-, -, id, h0, hlt, hget, rfl⟩ := hF F.graph.entries hc.graph hd.graph
    refine ⟨?_, id, hlt, rfl, ?_⟩
    · refine .bind (reads_nsCode _) (.bind_last (reads_id hlt) ?_)
      rw [if_neg (by omega)]
      exact .bind_nil (reads_ensure (by simpa using h0.ne') _)
        (.bind_nil (reads_getName h0 hget) (.pure _))
    · rw [getGraphName, if_neg (by omega)]
      exact reads_getName h0 hget

lemma encodeOp_spec (build : Build) {f} (h : encodeOp x w d f = .ok (bytes, d')) :
    Continues d d' ∧ 0 < bytes.length ∧
      ∀ F : CommitDicts, Continues d' F → Complete F → bytes.length < 2 ^ 64 →
      (∀ t, ParsesBack x →
        Reads (decodeOp x build (toRead F) t) bytes (f.stored t)) ∧
      Reads (decodeRawOp build (toRead F)) bytes f.rawOp := by
  obtain ⟨⟨g, d1⟩, hg, h⟩ := bind_eq_ok.1 h
  obtain ⟨⟨s, _⟩, hs, h⟩ := bind_eq_ok.1 h
  obtain ⟨⟨p, _⟩, hp, h⟩ := bind_eq_ok.1 h
  obtain ⟨⟨dt, _⟩, hdt, h⟩ := bind_eq_ok.1 h
  obtain ⟨⟨o, d2⟩, ho, h⟩ := bind_eq_ok.1 h
  obtain ⟨tail, htail, h⟩ := bind_eq_ok.1 h
  obtain ⟨rfl, rfl⟩ : g ++ (s ++ (p ++ (dt ++ (o ++ tail)))) = bytes ∧ d2 = d' := by
    simpa using ok.inj h
  obtain ⟨hgc, hgF⟩ := encodeGraph_spec build hg
  obtain ⟨hsc, hsF⟩ := encodeSid_spec build hs
  obtain ⟨hpc, hpF⟩ := encodeSid_spec build hp
  obtain ⟨hdc, hdF⟩ := encodeSid_spec build hdt
  obtain ⟨hoc, payload, rfl, hoF⟩ := encodeObject_spec build ho
  have hmid : Continues d1 d2 := by
    refine .trans ⟨?_, ?_, ?_, ?_, ?_⟩ hoc
    · exact prefix_rfl
    · exact hsc
    · exact hpc
    · exact hdc
    · exact prefix_rfl
  refine ⟨hgc.trans hmid, by simp, fun F hc hF hlen => ?_⟩
  simp only [length_append] at hlen
  obtain ⟨hgFlake, _, hgId, rfl, hgName⟩ := hgF F (hmid.trans hc) hF
  obtain ⟨hsFlake, hsRaw, -⟩ := hsF F.subject.entries (hoc.subject.trans hc.subject) hF.subject
  obtain ⟨hpFlake, hpRaw, -⟩ :=
    hpF F.predicate.entries (hoc.predicate.trans hc.predicate) hF.predicate
  obtain ⟨hdFlake, hdRaw, -⟩ := hdF F.datatype.entries (hoc.datatype.trans hc.datatype) hF.datatype
  have hraw := hoF F hc hF (by omega)
  have htailR := encodeTail_spec build htail (by omega)
  constructor
  · intro t hparse
    have hobj : Reads (decodeObject x build (toRead F) f.o.tag) payload f.o.stored := by
      refine .bind_last hraw ?_
      rw [hparse.panics_raw, if_neg Bool.false_ne_true, tryFrom_raw hparse]
      exact .pure _
    refine .bind hgFlake (.bind hsFlake (.bind hpFlake (.bind hdFlake ?_)))
    change Reads _ ([f.o.tag.toU8] ++ (payload ++ tail)) _
    exact .bind (reads_tag _)
      (.bind hobj (.bind_last htailR (.pure _)))
  · rw [append_assoc]
    refine .bind (reads_codeU16 _) (.bind (reads_id hgId) (.bind_nil hgName ?_))
    refine .bind hsRaw (.bind hpRaw (.bind hdRaw ?_))
    change Reads _ ([f.o.tag.toU8] ++ (payload ++ tail)) _
    exact .bind (reads_tag _)
      (.bind hraw (.bind_last htailR (.pure _)))

/-- **The op stream of a list of flakes**, read with the final dictionaries: as flakes and as raw
ops, and stopping when it is cut short. -/
lemma encodeOps_spec (build : Build)
    (h : encodeOps x w d fs = .ok (bytes, d')) : Continues d d' ∧ fs.length ≤ bytes.length ∧
      ∀ F : CommitDicts, Continues d' F → Complete F → bytes.length < 2 ^ 64 →
      (∀ t, ParsesBack x →
        Reads (repeatRead (decodeOp x build (toRead F) t) fs.length) bytes
          (fs.map (Flake.stored t))) ∧
      Reads (repeatRead (decodeRawOp build (toRead F)) fs.length) bytes (fs.map Flake.rawOp) := by
  induction fs generalizing d bytes with
  | nil =>
    obtain ⟨rfl, rfl⟩ : [] = bytes ∧ d = d' := by simpa using ok.inj h
    exact ⟨.rfl _, Nat.le_refl _, fun F _ _ _ => ⟨fun t _ => .pure [], .pure []⟩⟩
  | cons f _ ih =>
    obtain ⟨⟨op, _⟩, hop, h⟩ := bind_eq_ok.1 h
    obtain ⟨⟨ops, d2⟩, hops, h⟩ := bind_eq_ok.1 h
    obtain ⟨rfl, rfl⟩ : op ++ ops = bytes ∧ d2 = d' := by simpa using ok.inj h
    obtain ⟨hc1, _, hF1⟩ := encodeOp_spec build hop
    obtain ⟨hc2, _, hF2⟩ := ih hops
    rw [length_append]
    refine ⟨hc1.trans hc2, by rw [length_cons]; omega, fun F hc hF hlen => ?_⟩
    obtain ⟨hflake, hraw⟩ := hF1 F (hc2.trans hc) hF (by omega)
    obtain ⟨hflakes, hraws⟩ := hF2 F hc hF (by omega)
    constructor
    · intro t hparse
      exact .bind (hflake t hparse) ((hflakes t hparse).map (f.stored t :: ·))
    · exact .bind hraw (hraws.map (f.rawOp :: ·))

end Fluree.Codec
