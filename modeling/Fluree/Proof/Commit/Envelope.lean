import Fluree.Commit.Envelope
import Fluree.Proof.Commit.Ops
import Fluree.Lib.Slices

/-!
# Round trip of the envelope
-/

namespace Fluree.Codec

open List Except

open Lib (leBytes leNat Reads Refuses repeatRead SortedMap)

variable {x : External} {build : Build}

/-! ## Fields -/

lemma reads_lenStr (h : (encodeLenStr s).length < 2 ^ 64) :
    Reads (decodeLenStr build) (encodeLenStr s) s := by
  rw [encodeLenStr, length_append] at h
  exact reads_str _ (by omega)

variable {bytes : List UInt8} {γ : Type} {m : SortedMap UInt16 String}

lemma encodeLenBytes_spec (h : encodeLenBytes bs = .ok bytes) :
    bytes = encodeVarint bs.length ++ bs ∧ bs.length ≤ MAX_CID_BYTES := by
  simp only [encodeLenBytes] at h
  split at h
  · cases h
  · rename_i hle
    exact ⟨(ok.inj h).symm, by omega⟩

abbrev CidsRead (x : External) : Prop := ∀ c, x.cidFromBytes (x.cidToBytes c) = .ok c

lemma reads_cid (hcid : CidsRead x) (what : String)
    (h : encodeLenBytes (x.cidToBytes c) = .ok bytes) : Reads (decodeCid x build what) bytes c := by
  obtain ⟨rfl, hle⟩ := encodeLenBytes_spec h
  rw [MAX_CID_BYTES] at hle
  refine .bind_last (.bind (reads_varint (by omega))
    (.bind_nil (reads_ensure (decide_eq_true hle) _) (reads_exact _))) ?_
  rw [hcid]
  exact .pure c

lemma reads_txnMetaValue (h : encodeTxnMetaValue v = .ok bytes)
    (hlen : bytes.length < 2 ^ 64) : Reads (decodeTxnMetaValue build) bytes v := by
  cases v with
  | string s =>
    obtain rfl := ok.inj h
    rw [length_cons] at hlen
    exact .bind (reads_u8 0) ((reads_lenStr (by omega)).map _)
  | typedLiteral _ dtNs =>
    obtain rfl := ok.inj h
    simp only [length_cons, length_append] at hlen
    exact .bind (reads_u8 1) (.bind (reads_lenStr (by omega))
      (.bind (reads_codeU16 dtNs) ((reads_lenStr (by omega)).map _)))
  | langString =>
    obtain rfl := ok.inj h
    simp only [length_cons, length_append] at hlen
    exact .bind (reads_u8 2) (.bind (reads_lenStr (by omega))
      ((reads_lenStr (by omega)).map _))
  | ref ns =>
    obtain rfl := ok.inj h
    simp only [length_cons, length_append] at hlen
    exact .bind (reads_u8 3) (.bind (reads_codeU16 ns) ((reads_lenStr (by omega)).map _))
  | long n =>
    obtain rfl := ok.inj h
    exact .bind (reads_u8 4) ((reads_zigzag n).map _)
  | double d =>
    simp only [encodeTxnMetaValue] at h
    split at h
    · rename_i hfin
      obtain rfl := ok.inj h
      change Reads _ ([5] ++ encodeF64 d) _
      refine .bind (reads_u8 5) (.bind_last (reads_exact_of_length (encodeF64_length d)) ?_)
      refine .bind_nil (reads_ensure ?_ _) ?_
      · rw [f64FromLe_encodeF64]
        exact hfin
      · rw [f64FromLe_encodeF64]
        exact .pure _
    · cases h
  | boolean b =>
    obtain rfl := ok.inj h
    have hr := (reads_u8 (if b then 1 else 0)).map fun c => TxnMetaValue.boolean (c != 0)
    refine .bind (reads_u8 6) ?_
    cases b <;> exact hr

lemma reads_txnMetaEntry (h : encodeTxnMetaEntry e = .ok bytes)
    (hlen : bytes.length < 2 ^ 64) : Reads (decodeTxnMetaEntry build) bytes e := by
  obtain ⟨_, hv, h⟩ := bind_eq_ok.1 h
  obtain rfl := ok.inj h
  simp only [length_append] at hlen
  exact .bind (reads_codeU16 _) (.bind (reads_lenStr (by omega))
    (.bind_last (reads_txnMetaValue hv (by omega)) (.pure e)))

variable {parts : List (List UInt8)}

lemma length_le_flatten {p : List UInt8} (h : p ∈ parts) : p.length ≤ parts.flatten.length := by
  obtain ⟨_, _, rfl⟩ := append_of_mem h
  simp only [flatten_append, flatten_cons, length_append]
  omega

variable {l : List γ} {f : γ → List UInt8}

lemma forall₂_reads {f : γ → Except Stop (List UInt8)} {p : Dec γ} (h : l.mapM f = .ok parts)
    (hread : ∀ a bs, f a = .ok bs → bs.length ≤ parts.flatten.length → Reads p bs a) :
    List.Forall₂ (fun a bs => Reads p bs a) l parts := by
  have hall := Lib.mapM_ok_iff.1 h
  have hmem : ∀ bs ∈ parts, bs.length ≤ parts.flatten.length := fun bs => length_le_flatten
  generalize parts.flatten.length = n at hmem hread
  clear h
  induction hall with
  | nil => exact List.Forall₂.nil
  | cons ha _ ih =>
    refine List.Forall₂.cons (hread _ _ ha (hmem _ mem_cons_self)) ?_
    exact ih fun bs hbs => hmem bs (mem_cons_of_mem _ hbs)

lemma require_true (h : c = true) (e : CommitCodecError) : require c e = .ok () := if_pos h

lemma require_ok (h : require c e = .ok u) : c = true := by
  rw [require] at h
  split at h
  · assumption
  · cases h

lemma reads_txnMeta {entries : List TxnMetaEntry} (h : encodeTxnMeta entries = .ok bytes)
    (hlen : bytes.length < 2 ^ 64) : Reads (decodeTxnMeta build) bytes entries := by
  obtain ⟨_, hreq, h⟩ := bind_eq_ok.1 h
  have hle : entries.length ≤ MAX_TXN_META_ENTRIES := of_decide_eq_true (require_ok hreq)
  obtain ⟨_, hparts, h⟩ := bind_eq_ok.1 h
  obtain rfl := ok.inj h
  rw [length_append] at hlen
  rw [MAX_TXN_META_ENTRIES] at hle
  refine .bind (reads_varint (by omega)) (.bind_nil (reads_ensure (decide_eq_true hle) _)
    (.repeatRead (forall₂_reads hparts fun a bs ha hbs => ?_)))
  exact reads_txnMetaEntry ha (by omega)

lemma insertAll_entries (m : SortedMap UInt16 String) : insertAll m.entries = m := by
  have h := SortedMap.entries_foldl_insert (m := SortedMap.empty) (l := m.entries) (by
    rw [SortedMap.empty]
    exact m.sorted)
  have h' : (insertAll m.entries).entries = m.entries := h
  cases hm : insertAll m.entries
  cases m
  simp only [hm] at h'
  subst h'
  rfl

lemma reads_delta {p : Dec (UInt16 × String)}
    (hp : ∀ e ∈ m.entries, Reads p (encodeVarint e.1.toNat ++ encodeLenStr e.2) e)
    (hlen : m.entries.length < 2 ^ 64) (hcap : m.entries.length ≤ build.limit) : Reads (do
      let count ← decodeVarint build
      liftExcept (withCapacity build count)
      let entries ← repeatRead p count
      pure (insertAll entries)) (encodeDelta m) m := by
  refine .bind (reads_varint hlen) (.bind_nil (reads_capacity hcap)
    (.bind_last (.repeatRead_flatMap hp) ?_))
  rw [insertAll_entries]
  exact .pure m

lemma length_le_flatMap {a : γ} (h : a ∈ l) : (f a).length ≤ (l.flatMap f).length := by
  rw [flatMap_def]
  exact length_le_flatten (mem_map_of_mem h)

@[simp] lemma encodeVarintLoop_pos (fuel v : ℕ) : 0 < (encodeVarintLoop (fuel + 1) v).length := by
  rw [encodeVarintLoop]
  split <;> simp

lemma encodeVarint_pos (v : ℕ) : 0 < (encodeVarint v).length := encodeVarintLoop_pos 9 v

lemma length_le_flatMap_length (h : ∀ a ∈ l, 0 < (f a).length) :
    l.length ≤ (l.flatMap f).length := by
  induction l with
  | nil => exact Nat.zero_le _
  | cons a l ih =>
    have ha := h a mem_cons_self
    have hl := ih fun b hb => h b (mem_cons_of_mem _ hb)
    rw [flatMap_cons, length_append, length_cons]
    omega

lemma delta_length_le (m : SortedMap UInt16 String) :
    m.entries.length ≤ (encodeDelta m).length := by
  rw [encodeDelta, length_append]
  have h : m.entries.length
      ≤ (m.entries.flatMap fun e => encodeVarint e.1.toNat ++ encodeLenStr e.2).length := by
    refine length_le_flatMap_length fun e _ => ?_
    have := encodeVarint_pos e.1.toNat
    rw [length_append]
    omega
  omega

lemma delta_entry_length (h : e ∈ m.entries)
    (hlen : (encodeDelta m).length < 2 ^ 64) : (encodeLenStr e.2).length < 2 ^ 64 := by
  have hle := length_le_flatMap
    (f := fun e : UInt16 × String => encodeVarint e.1.toNat ++ encodeLenStr e.2) h
  rw [encodeDelta, length_append] at hlen
  rw [length_append] at hle
  omega

lemma reads_nsDelta (hlen : (encodeNsDelta m).length < 2 ^ 64)
    (hcap : m.entries.length ≤ build.limit) : Reads (decodeNsDelta build) (encodeNsDelta m) m := by
  rw [encodeNsDelta] at *
  have hcount := delta_length_le m
  refine reads_delta (fun e he => ?_) (by omega) hcap
  exact .bind (reads_codeU16 _) ((reads_lenStr (delta_entry_length he hlen)).map _)

lemma reads_graphDelta (hlen : (encodeGraphDelta m).length < 2 ^ 64)
    (hcap : m.entries.length ≤ build.limit) :
    Reads (decodeGraphDelta build) (encodeGraphDelta m) m := by
  rw [encodeGraphDelta] at *
  have hcount := delta_length_le m
  refine reads_delta (fun e he => ?_) (by omega) hcap
  have hn := e.1.toNat_lt
  refine .bind (reads_varint (by omega)) (.bind_nil (reads_ensure (decide_eq_true hn) _)
    (.bind_last (reads_lenStr (delta_entry_length he hlen)) ?_))
  rw [UInt16.ofNat_toNat]
  exact .pure e

/-! ## Parents and the signature -/

lemma reads_parents (hcid : CidsRead x) {parents : List x.Cid}
    (h : encodeParents x parents = .ok bytes) (hne : parents ≠ [])
    (hmax : parents.length ≤ MAX_PARENTS) :
    Reads (decodeParents x build (if parents.length ≤ 1 then 2 else 3)) bytes parents := by
  rw [MAX_PARENTS] at hmax
  match parents, hne with
  | [parent], _ => exact (reads_cid hcid "commit id" h).map fun id => [id]
  | p1 :: p2 :: ps, _ =>
    obtain ⟨_, hparts, h⟩ := bind_eq_ok.1 h
    obtain rfl := ok.inj h
    rw [if_neg (by simp), decodeParents, if_pos rfl]
    refine .bind (reads_varint (by omega)) (.bind_nil (reads_ensure (decide_eq_true hmax) _)
      (.repeatRead (forall₂_reads hparts fun a bs ha _ => ?_)))
    exact reads_cid hcid "commit id" ha

lemma reads_shortStr (h : (asBytes s).length ≤ 256) :
    Reads (decodeShortStr build field) (encodeLenStr s) s :=
  Reads.bind_last (reads_str _ (by omega))
    (.bind_nil (reads_ensure (decide_eq_true h) _) (.pure s))

lemma refuses_shortStr (h : ¬ (asBytes s).length ≤ 256) (hlen : (encodeLenStr s).length < 2 ^ 64) :
    Refuses (decodeShortStr build field) (encodeLenStr s) := by
  refine Reads.bind_refuses_last (reads_lenStr hlen) fun u _ => ?_
  simp only [ensure, decide_eq_false h]
  exact ⟨_, rfl⟩

/-- The signer and the transaction id fit the limit of the reader. -/
def ShortSignature (sig : TxnSignature) : Prop :=
  (asBytes sig.signer).length ≤ 256 ∧ ∀ id, sig.txnId = some id → (asBytes id).length ≤ 256


lemma reads_txnSignature (h : ShortSignature sig) :
    Reads (decodeTxnSignature build) (encodeTxnSignature sig) sig := by
  obtain ⟨_, txnId⟩ := sig
  refine .bind (reads_shortStr h.1) ?_
  cases txnId with
  | none => exact .bind_last (reads_u8 0) (.bind_nil (.pure none) (.pure _))
  | some id =>
    exact .bind (reads_u8 1) (.bind_last ((reads_shortStr (h.2 id rfl)).map some)
      (.pure _))

lemma refuses_txnSignature (h : ¬ ShortSignature sig)
    (hlen : (encodeTxnSignature sig).length < 2 ^ 64) :
    Refuses (decodeTxnSignature build) (encodeTxnSignature sig) := by
  obtain ⟨signer, txnId⟩ := sig
  simp only [encodeTxnSignature, length_append] at hlen
  rcases Classical.em ((asBytes signer).length ≤ 256) with hs | hs
  · refine Reads.bind_refuses (reads_shortStr hs) ?_
    cases txnId with
    | none => exact absurd ⟨hs, fun id hid => by cases hid⟩ h
    | some id =>
      have hid : ¬ (asBytes id).length ≤ 256 := fun hid =>
        h ⟨hs, fun id' h' => by cases h'; exact hid⟩
      rw [length_cons] at hlen
      exact Reads.bind_refuses (reads_u8 1) (((refuses_shortStr hid (by omega)).bind _).bind _)
  · exact Refuses.append ((refuses_shortStr hs (by omega)).bind _) _

/-! ## Presence flags -/

lemma presence_bits : ∀ a b c d e f : Bool,
    let flags := (if a then 0 else FLAG_TXN_META) ||| (if b then 0 else FLAG_PARENT)
      ||| (if c then 0 else FLAG_NAMESPACE_DELTA) ||| (if d then FLAG_TXN else 0)
      ||| (if e then FLAG_TIME else 0) ||| (if f then FLAG_TXN_SIGNATURE else 0)
    (flags &&& ~~~KNOWN_FLAGS == 0) = true ∧
      (flags &&& FLAG_TXN_META != 0) = !a ∧ (flags &&& FLAG_PARENT != 0) = !b ∧
      (flags &&& FLAG_NAMESPACE_DELTA != 0) = !c ∧ (flags &&& FLAG_TXN != 0) = d ∧
      (flags &&& FLAG_TIME != 0) = e ∧ (flags &&& FLAG_TXN_SIGNATURE != 0) = f := by
  decide

lemma presenceFlags_spec {Cid : Type} (e : CodecEnvelope Cid) :
    Reads decodeFlags [presenceFlags e] (presenceFlags e) ∧
      (presenceFlags e &&& FLAG_TXN_META != 0) = !e.txnMeta.isEmpty ∧
      (presenceFlags e &&& FLAG_PARENT != 0) = !e.parents.isEmpty ∧
      (presenceFlags e &&& FLAG_NAMESPACE_DELTA != 0) = !e.namespaceDelta.entries.isEmpty ∧
      (presenceFlags e &&& FLAG_TXN != 0) = e.txn.isSome ∧
      (presenceFlags e &&& FLAG_TIME != 0) = e.time.isSome ∧
      (presenceFlags e &&& FLAG_TXN_SIGNATURE != 0) = e.txnSignature.isSome := by
  obtain ⟨hknown, hrest⟩ := presence_bits e.txnMeta.isEmpty e.parents.isEmpty
    e.namespaceDelta.entries.isEmpty e.txn.isSome e.time.isSome e.txnSignature.isSome
  refine ⟨?_, hrest⟩
  exact .bind_last (reads_u8 _) (.bind_nil (reads_ensure hknown _) (.pure _))

lemma reads_version (parents : ℕ) :
    Reads (decodeVersion build)
      (encodeVarint (zigzagEncode (if parents ≤ 1 then 2 else 3)).toNat)
      (if parents ≤ 1 then 2 else 3) := by
  refine .bind_last (reads_zigzag _) ?_
  split <;> exact .bind_nil (reads_ensure (by decide) _) (.pure _)

lemma reads_whenFlag {α : Type} {flags flag : UInt8} {absent a : α} {p : Dec α} {c : Bool}
    (hf : (flags &&& flag != 0) = c) (hp : c = true → Reads p bytes a)
    (hn : c = false → bytes = [] ∧ a = absent) : Reads (whenFlag flags flag absent p) bytes a := by
  rw [whenFlag, hf]
  cases c with
  | true => exact hp rfl
  | false =>
    obtain ⟨rfl, rfl⟩ := hn rfl
    exact .pure a


/-! ## Extensions -/

lemma encodeVarintLoop_length_le (fuel v : ℕ) : (encodeVarintLoop fuel v).length ≤ fuel := by
  induction fuel generalizing v with
  | zero => exact Nat.le_refl _
  | succ _ ih =>
    rw [encodeVarintLoop]
    split
    · simp
    · rw [length_cons]
      exact Nat.succ_le_succ (ih _)

lemma encodeVarint_length_le (v : ℕ) : (encodeVarint v).length ≤ 10 :=
  encodeVarintLoop_length_le 10 v

lemma flatMap_length_le (h : ∀ a ∈ l, (f a).length ≤ b) : (l.flatMap f).length ≤ l.length * b := by
  induction l with
  | nil => exact Nat.zero_le _
  | cons a l ih =>
    have ha := h a mem_cons_self
    have hl := ih fun c hc => h c (mem_cons_of_mem _ hc)
    rw [flatMap_cons, length_append, length_cons, Nat.add_mul, one_mul]
    omega

lemma encodeGraphExtension_spec (h : encodeGraphExtension m = .ok bytes)
    (hcap : bytes.length ≤ build.limit) : bytes.length < 2 ^ 31 ∧ ∀ rest,
      (extension SortedMap.empty (decodeGraphDelta build)).run (bytes ++ rest) = .ok (m, rest) := by
  rw [encodeGraphExtension] at h
  split at h
  · rename_i hempty
    obtain rfl := ok.inj h
    have hm : m = SortedMap.empty := by
      cases m with
      | mk entries =>
        obtain rfl : entries = [] := isEmpty_iff.1 hempty
        rfl
    subst hm
    exact ⟨by simp, fun rest => rfl⟩
  · split at h
    · cases h
    rename_i hcount
    split at h
    · cases h
    rename_i hfind
    obtain rfl := ok.inj h
    rw [MAX_GRAPH_DELTA_ENTRIES, not_lt] at hcount
    have hiri : ∀ e ∈ m.entries, (asBytes e.2).length ≤ MAX_GRAPH_IRI_LENGTH := by
      intro e he
      have := List.find?_eq_none.1 hfind e he
      simpa using this
    have hdelta : (encodeGraphDelta m).length ≤ 10 + 256 * 8300 := by
      have hentries : (m.entries.flatMap
          fun e => encodeVarint e.1.toNat ++ encodeLenStr e.2).length ≤ m.entries.length * 8300 := by
        refine flatMap_length_le fun e he => ?_
        have h1 := encodeVarint_length_le e.1.toNat
        have h2 := encodeVarint_length_le (asBytes e.2).length
        have h3 := hiri e he
        rw [MAX_GRAPH_IRI_LENGTH] at h3
        simp only [encodeLenStr, length_append]
        omega
      have h4 := encodeVarint_length_le m.entries.length
      rw [encodeGraphDelta, encodeDelta, length_append]
      omega
    have hle := delta_length_le m
    rw [length_cons] at hcap
    have hread : Reads (decodeGraphDelta build) (encodeGraphDelta m) m :=
      reads_graphDelta (by omega) (by rw [encodeGraphDelta] at hcap; omega)
    refine ⟨by rw [length_cons]; omega, fun rest => ?_⟩
    exact hread.whole rest

lemma encodeModeExtension_spec (h : encodeModeExtension mode = .ok bytes) :
    bytes.length ≤ 2 ∧ (extension none decodeMode).run bytes = .ok (mode, []) := by
  cases mode with
  | none =>
    obtain rfl := ok.inj h
    exact ⟨by simp, rfl⟩
  | some m =>
    simp only [encodeModeExtension] at h
    split at h
    · rename_i b hb
      obtain rfl := ok.inj h
      refine ⟨by simp, ?_⟩
      change ok (some (NsSplitMode.fromByte b), []) = _
      rw [NsSplitMode.fromByte_of_toByte hb]
    · cases h

/-! ## The whole envelope -/

/-- The signature, if there is one, fits the limits of the reader. -/
def ShortTxnSignature (sig : Option TxnSignature) : Prop := ∀ s, sig = some s → ShortSignature s

def CodecEnvelope.fields {Cid : Type} (e : CodecEnvelope Cid) : CodecEnvelope Cid :=
  { e with t := 0, graphDelta := SortedMap.empty, nsSplitMode := none }

section OptionalFields

variable {e : CodecEnvelope x.Cid} {flags : UInt8} {bytes : List UInt8}

lemma reads_txnMetaField (hf : (flags &&& FLAG_TXN_META != 0) = !e.txnMeta.isEmpty)
    (h : encodeTxnMetaField e.txnMeta = .ok bytes) (hlen : bytes.length < 2 ^ 64) :
    Reads (whenFlag flags FLAG_TXN_META [] (decodeTxnMeta build)) bytes e.txnMeta := by
  rw [encodeTxnMetaField] at h
  refine reads_whenFlag hf (fun hc => ?_) (fun hc => ?_)
  · rw [if_neg (by simpa using hc)] at h
    exact reads_txnMeta h hlen
  · have hempty : e.txnMeta.isEmpty = true := by simpa using hc
    rw [if_pos hempty] at h
    exact ⟨(ok.inj h).symm, isEmpty_iff.1 hempty⟩

lemma reads_parentsField (hcid : CidsRead x)
    (hf : (flags &&& FLAG_PARENT != 0) = !e.parents.isEmpty)
    (h : encodeParents x e.parents = .ok bytes) (hmax : e.parents.length ≤ MAX_PARENTS) :
    Reads (whenFlag flags FLAG_PARENT []
      (decodeParents x build (if e.parents.length ≤ 1 then 2 else 3))) bytes e.parents := by
  refine reads_whenFlag hf (fun hc => ?_) (fun hc => ?_)
  · have hne : e.parents ≠ [] := by simpa using hc
    exact reads_parents hcid h hne hmax
  · have hempty : e.parents = [] := by simpa using hc
    rw [hempty] at h
    exact ⟨(ok.inj h).symm, hempty⟩

lemma reads_nsField
    (hf : (flags &&& FLAG_NAMESPACE_DELTA != 0) = !e.namespaceDelta.entries.isEmpty)
    (h : (if e.namespaceDelta.entries.isEmpty then [] else encodeNsDelta e.namespaceDelta) = bytes)
    (hlen : bytes.length < 2 ^ 64) (hcap : bytes.length ≤ build.limit) :
    Reads (whenFlag flags FLAG_NAMESPACE_DELTA SortedMap.empty (decodeNsDelta build)) bytes
      e.namespaceDelta := by
  refine reads_whenFlag hf (fun hc => ?_) (fun hc => ?_)
  · rw [if_neg (by simpa using hc)] at h
    subst h
    have hle : e.namespaceDelta.entries.length ≤ (encodeNsDelta e.namespaceDelta).length :=
      delta_length_le _
    exact reads_nsDelta hlen (by omega)
  · have hempty : e.namespaceDelta.entries.isEmpty = true := by simpa using hc
    rw [if_pos hempty] at h
    refine ⟨h.symm, ?_⟩
    rw [← insertAll_entries e.namespaceDelta, isEmpty_iff.1 hempty]
    rfl

lemma reads_txnField (hcid : CidsRead x)
    (hf : (flags &&& FLAG_TXN != 0) = e.txn.isSome) (h : encodeTxnField x e.txn = .ok bytes) :
    Reads (whenFlag flags FLAG_TXN none (do
      let id ← decodeCid x build "txn"
      pure (some id))) bytes e.txn := by
  cases htxn : e.txn with
  | none =>
    rw [htxn] at h hf
    exact reads_whenFlag hf (fun hc => nomatch hc) fun _ => ⟨(ok.inj h).symm, rfl⟩
  | some =>
    rw [htxn] at h hf
    exact reads_whenFlag hf (fun _ => (reads_cid hcid "txn" h).map some) fun hc => nomatch hc

lemma reads_timeField (hf : (flags &&& FLAG_TIME != 0) = e.time.isSome)
    (h : e.time.elim [] encodeLenStr = bytes) (hlen : bytes.length < 2 ^ 64) :
    Reads (whenFlag flags FLAG_TIME none (do
      let s ← decodeLenStr build
      pure (some s))) bytes e.time := by
  subst h
  cases htime : e.time with
  | none =>
    rw [htime] at hf
    exact reads_whenFlag hf (fun hc => nomatch hc) fun _ => ⟨rfl, rfl⟩
  | some =>
    rw [htime] at hf hlen
    exact reads_whenFlag hf (fun _ => (reads_lenStr hlen).map some) fun hc => nomatch hc

lemma reads_sigField (hf : (flags &&& FLAG_TXN_SIGNATURE != 0) = e.txnSignature.isSome)
    (hshort : ShortTxnSignature e.txnSignature) :
    Reads (whenFlag flags FLAG_TXN_SIGNATURE none (do
      let sig ← decodeTxnSignature build
      pure (some sig))) (e.txnSignature.elim [] encodeTxnSignature) e.txnSignature := by
  cases hsig : e.txnSignature with
  | none =>
    rw [hsig] at hf
    exact reads_whenFlag hf (fun hc => nomatch hc) fun _ => ⟨rfl, rfl⟩
  | some sig =>
    rw [hsig] at hf
    exact reads_whenFlag hf (fun _ => (reads_txnSignature (hshort sig hsig)).map some)
      fun hc => nomatch hc

lemma refuses_sigField (hf : (flags &&& FLAG_TXN_SIGNATURE != 0) = e.txnSignature.isSome)
    (hlong : ¬ ShortTxnSignature e.txnSignature)
    (hlen : (e.txnSignature.elim [] encodeTxnSignature).length < 2 ^ 64) :
    Refuses (whenFlag flags FLAG_TXN_SIGNATURE none (do
      let sig ← decodeTxnSignature build
      pure (some sig))) (e.txnSignature.elim [] encodeTxnSignature) := by
  cases hsig : e.txnSignature with
  | none => exact absurd (fun s hs => by rw [hsig] at hs; cases hs) hlong
  | some sig =>
    have hbad : ¬ ShortSignature sig := fun h =>
      hlong fun s hs => by rw [hsig] at hs; cases hs; exact h
    rw [hsig] at hf hlen
    rw [whenFlag, hf]
    exact (refuses_txnSignature hbad hlen).bind _

end OptionalFields

lemma encodeEnvelopeFields_spec (build : Build)
    (hcid : CidsRead x) (h : encodeEnvelopeFields x e = .ok bytes) (hlen : bytes.length < 2 ^ 64)
    (hcap : bytes.length ≤ build.limit) :
    ∃ fields ext, bytes = fields ++ ext ∧ ext.length < 2 ^ 32 ∧
      (ShortTxnSignature e.txnSignature → Reads (decodeFields x build) fields e.fields) ∧
      (¬ ShortTxnSignature e.txnSignature → Refuses (decodeFields x build) fields) ∧
      (decodeExtensions build).run ext = .ok ((e.graphDelta, e.nsSplitMode), []) := by
  obtain ⟨_, hreq, h⟩ := bind_eq_ok.1 h
  have hmax : e.parents.length ≤ MAX_PARENTS := of_decide_eq_true (require_ok hreq)
  obtain ⟨txnMeta, hmeta, h⟩ := bind_eq_ok.1 h
  obtain ⟨parents, hparents, h⟩ := bind_eq_ok.1 h
  obtain ⟨txn, htxn, h⟩ := bind_eq_ok.1 h
  obtain ⟨graphs, hgraphs, h⟩ := bind_eq_ok.1 h
  obtain ⟨mode, hmode, h⟩ := bind_eq_ok.1 h
  obtain rfl := ok.inj h
  simp only [length_append, length_cons] at hlen hcap
  obtain ⟨_, hgraphsRead⟩ := @encodeGraphExtension_spec build _ _ hgraphs (by omega)
  obtain ⟨_, hmodeRead⟩ := encodeModeExtension_spec hmode
  obtain ⟨hflags, hfMeta, hfParents, hfNs, hfTxn, hfTime, hfSig⟩ := presenceFlags_spec e
  have hversion := @reads_version build e.parents.length
  have hread1 := @reads_txnMetaField x build e _ _ hfMeta hmeta (by omega)
  have hread2 := @reads_parentsField x build e _ _ hcid hfParents hparents hmax
  have hread3 := @reads_nsField x build e _ _ hfNs rfl (by omega) (by omega)
  have hread4 := @reads_txnField x build e _ _ hcid hfTxn htxn
  have hread5 := @reads_timeField x build e _ _ hfTime rfl (by omega)
  refine ⟨encodeVarint (zigzagEncode (if e.parents.length ≤ 1 then 2 else 3)).toNat
      ++ ([presenceFlags e] ++ (txnMeta ++ (parents ++ ((if e.namespaceDelta.entries.isEmpty then []
        else encodeNsDelta e.namespaceDelta) ++ (txn ++ (e.time.elim [] encodeLenStr
          ++ e.txnSignature.elim [] encodeTxnSignature)))))),
    graphs ++ mode, by simp only [append_assoc, cons_append, nil_append],
    by rw [length_append]; omega, fun hshort => ?_, fun hlong => ?_, ?_⟩
  · exact Reads.bind hversion (Reads.bind hflags (Reads.bind hread1 (Reads.bind hread2
      (Reads.bind hread3 (Reads.bind hread4 (Reads.bind hread5
        (Reads.bind_last (reads_sigField hfSig hshort) (Reads.pure _))))))))
  · exact Reads.bind_refuses hversion (Reads.bind_refuses hflags (Reads.bind_refuses hread1
      (Reads.bind_refuses hread2 (Reads.bind_refuses hread3 (Reads.bind_refuses hread4
        (Reads.bind_refuses hread5 ((refuses_sigField hfSig hlong (by omega)).bind _)))))))
  · rw [decodeExtensions, Lib.run_bind_of_ok (hgraphsRead mode), Lib.run_bind_of_ok hmodeRead]
    rfl

/-! ## What the reader of an envelope makes of it -/

section Decode

variable (hcid : CidsRead x) {e : CodecEnvelope x.Cid}
  {bytes : List UInt8} (h : encodeEnvelopeFields x e = .ok bytes) (hlen : bytes.length < 2 ^ 64)
  (hcap : bytes.length ≤ build.limit)

include hcid h hlen hcap

/-- **An envelope is read back** when its signature fits the limits of the reader. -/
lemma decodeEnvelope_encode (hshort : ShortTxnSignature e.txnSignature) :
    decodeEnvelope x build bytes = .ok { e with t := 0 } := by
  obtain ⟨_, ext, rfl, -, hread, -, hext⟩ := encodeEnvelopeFields_spec build hcid h hlen hcap
  refine bind_eq_ok.2 ⟨(e.fields, ext), (hread hshort).whole ext, ?_⟩
  refine bind_eq_ok.2 ⟨((e.graphDelta, e.nsSplitMode), []), hext, ?_⟩
  rfl

/-- A signature beyond the limits of the reader makes the envelope unreadable, cut or not. -/
lemma decodeEnvelope_longSigner (hlong : ¬ ShortTxnSignature e.txnSignature) (n : ℕ) :
    ∃ err, decodeEnvelope x build (bytes.take n) = .error err := by
  obtain ⟨_, ext, rfl, -, -, hrefuse, -⟩ := encodeEnvelopeFields_spec build hcid h hlen hcap
  obtain ⟨err, he⟩ := (hrefuse hlong).append ext _ (.inl ( take_prefix n _))
  exact ⟨err, by rw [decodeEnvelope, he]; rfl⟩

/-- **An envelope that lost `2^32` bytes or more at its end is refused.** -/
lemma decodeEnvelope_cut (hn : n + 2 ^ 32 ≤ bytes.length) :
    ∃ err, decodeEnvelope x build (bytes.take n) = .error err := by
  by_cases hshort : ShortTxnSignature e.txnSignature
  · obtain ⟨fields, ext, rfl, _, hread, -, -⟩ :=
      encodeEnvelopeFields_spec build hcid h hlen hcap
    rw [length_append] at hn
    -- the extensions are shorter than what is missing, so the cut lies in the fields
    have htake : (fields ++ ext).take n = fields.take n := take_append_of_le_length (by omega)
    have hlt : (fields.take n).length < fields.length := by rw [length_take]; omega
    obtain ⟨err, he⟩ := (hread hshort).short (fields.take n) ( take_prefix n _) fun heq => by
      rw [heq] at hlt
      exact Nat.lt_irrefl _ hlt
    exact ⟨err, by rw [htake, decodeEnvelope, he]; rfl⟩
  · exact decodeEnvelope_longSigner hcid h hlen hcap hshort n

end Decode

end Fluree.Codec
