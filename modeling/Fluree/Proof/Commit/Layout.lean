import Fluree.Commit.Blob
import Fluree.Proof.Commit.Envelope

/-!
# The layout of a written blob

What the readers find at the places that header and footer name, for a blob that `writeCommit`
laid out: the header, the end of the body, the signature, the envelope, the dictionaries and the
op section. Lengths are stored in 32 bits, so each section is found up to that.
-/

namespace Fluree.Codec

open List CommitFooter StringDictBuilder StringDict Nat

open Lib (leBytes leNat Reads Refuses repeatRead)

variable {x : External} {build : Build}

/-! ## Slices -/

lemma slice_append {a b c n start stop} (hn : n ≤ b.length) (hstart : start = a.length)
    (hstop : stop = a.length + n) : slice (a ++ (b ++ c)) start stop = .ok (b.take n) := by
  subst hstart hstop
  rw [slice, if_pos (by simp; omega), drop_left, Nat.add_sub_cancel_left,
    take_append_of_le_length hn]

lemma slice_append_all {a b c start stop} (hstart : start = a.length)
    (hstop : stop = a.length + b.length) : slice (a ++ (b ++ c)) start stop = .ok b := by
  rw [slice_append (le_refl _) hstart hstop, take_length]

lemma subUsize_of_le {a b} (h : b ≤ a) : subUsize build a b = .ok (a - b) := if_pos h

lemma addUsize_of_lt {a b} (h : a + b < 2 ^ 64) : addUsize build a b = .ok (a + b) := if_pos h

/-! ## Header and footer -/

@[simp] lemma header_length (h : CommitHeader) : h.writeTo.length = HEADER_LEN := by
  simp [CommitHeader.writeTo, MAGIC, HEADER_LEN]

@[simp] lemma footer_length (f : CommitFooter) : f.writeTo.length = FOOTER_LEN := by
  simp [writeTo, writeLocation, Five.toList, FOOTER_LEN]

/-- The fields of a header fit their widths. -/
structure HeaderFits (h : CommitHeader) : Prop where
  version : h.version = VERSION
  t : 0 ≤ h.t ∧ h.t < 2 ^ 32
  opCount : h.opCount < 2 ^ 32
  envelopeLen : h.envelopeLen < 2 ^ 32
  sigBlockLen : h.sigBlockLen < 2 ^ 16

variable {h : CommitHeader}

lemma header_start (hv : h.version = VERSION) (rest : List UInt8) :
    ¬ (h.writeTo ++ rest).length < HEADER_LEN ∧ (h.writeTo ++ rest).take 4 = MAGIC ∧
      (h.writeTo ++ rest).getD 4 0 = VERSION := by
  refine ⟨?_, rfl, hv⟩
  rw [length_append, header_length]
  omega

lemma readFrom_header {h} (hf : HeaderFits h) (rest : List UInt8) :
    CommitHeader.readFrom (h.writeTo ++ rest) = .ok h := by
  obtain ⟨hlen, hmagic, hversion⟩ := header_start hf.version rest
  obtain ⟨_, flags, t, opCount, envelopeLen, sigBlockLen⟩ := h
  obtain ⟨rfl, ⟨ht0, ht⟩, hop, henv, hsig⟩ := hf
  simp only at ht0 ht hop henv hsig
  set buf := CommitHeader.writeTo ⟨VERSION, flags, t, opCount, envelopeLen, sigBlockLen⟩ ++ rest
  have hflags : buf.getD 5 0 = flags := rfl
  have h1 : (buf.drop 6).take 4 = leBytes 4 t.toNat := rfl
  have h2 : (buf.drop 10).take 4 = leBytes 4 opCount := rfl
  have h3 : (buf.drop 14).take 4 = leBytes 4 envelopeLen := rfl
  have h4 : (buf.drop 18).take 2 = leBytes 2 sigBlockLen := rfl
  rw [CommitHeader.readFrom, if_neg hlen, hmagic, if_neg (by simp)]
  simp only [hversion, hflags, h1, h2, h3, h4]
  rw [if_neg (by simp), leNat_leBytes_of_lt (by omega), leNat_leBytes_of_lt (by omega),
    leNat_leBytes_of_lt (by omega), leNat_leBytes_of_lt (by omega), Int.toNat_of_nonneg ht0]

lemma detectVersion_header (hv : h.version = VERSION) (rest : List UInt8) :
    detectVersion (h.writeTo ++ rest) = .ok .v4 := by
  obtain ⟨hlen, hmagic, hversion⟩ := header_start hv rest
  rw [detectVersion, if_neg hlen, hmagic, if_neg (by simp)]
  simp only [hversion]
  rfl

lemma readLocation_eq {buf pos d} (h8 : (buf.drop pos).take 8 = leBytes 8 d.offset)
    (h4 : (buf.drop (pos + 8)).take 4 = leBytes 4 d.len) (ho : d.offset < 2 ^ 64)
    (hl : d.len < 2 ^ 32) : readLocation buf pos = d := by
  rw [readLocation, h8, h4, leNat_leBytes_of_lt (by omega),
    leNat_leBytes_of_lt (by omega)]

lemma readFrom_footer {f} (hd : ∀ d ∈ f.dicts.toList, d.offset < 2 ^ 64 ∧ d.len < 2 ^ 32)
    (ho : f.opsSectionLen < 2 ^ 32) : readFrom f.writeTo = .ok f := by
  obtain ⟨⟨g, s, p, dt, o⟩, opsLen⟩ := f
  simp only [Five.toList, mem_cons, not_mem_nil, or_false, forall_eq_or_imp, forall_eq] at hd ho
  obtain ⟨hg, hs, hp, hdt, hor⟩ := hd
  rw [readFrom, if_neg (by rw [footer_length]; omega)]
  set buf := writeTo ⟨⟨g, s, p, dt, o⟩, opsLen⟩
  have h0 : readLocation buf 0 = g := readLocation_eq rfl rfl hg.1 hg.2
  have h1 : readLocation buf 12 = s := readLocation_eq rfl rfl hs.1 hs.2
  have h2 : readLocation buf 24 = p := readLocation_eq rfl rfl hp.1 hp.2
  have h3 : readLocation buf 36 = dt := readLocation_eq rfl rfl hdt.1 hdt.2
  have h4 : readLocation buf 48 = o := readLocation_eq rfl rfl hor.1 hor.2
  have h5 : (buf.drop 60).take 4 = leBytes 4 opsLen := rfl
  rw [h0, h1, h2, h3, h4, h5, leNat_leBytes_of_lt (by omega)]

/-! ## Signature block -/

/-- A signature as the writer makes it. -/
structure PlainSignature (sig : CommitSignature) : Prop where
  signer : (asBytes sig.signer).length ≤ MAX_SIGNER_LEN
  algo : sig.algo = ALGO_ED25519
  metadata : sig.metadata = none

lemma reads_signature {sig} (h : PlainSignature sig) :
    Reads decodeSignature (encodeSignature sig) sig := by
  obtain ⟨signer, _, ⟨_, h64⟩, _⟩ := sig
  obtain ⟨hs, ha, hm⟩ := h
  simp only at hs ha hm
  subst ha hm
  rw [MAX_SIGNER_LEN] at hs
  simp only [encodeSignature, append_assoc]
  refine .bind (reads_u16 (by omega)) (.bind_nil (reads_ensure (decide_eq_true hs) _)
    (.bind (reads_readStr _ signer) (.bind (reads_u8 _)
      (.bind_nil (reads_ensure (beq_self_eq_true _) _)
        (.bind (reads_exact_of_length h64) (.bind_last (reads_u16 (by norm_num)) ?_))))))
  refine .bind_nil (.pure none) ?_
  rw [dif_pos h64]
  exact .pure _

lemma decodeSigBlock_encode {sig} (h : PlainSignature sig) :
    decodeSigBlock (encodeSigBlock [sig]) = .ok [sig] := by
  have hsig : Reads (repeatRead decodeSignature [sig].length) ([sig].flatMap encodeSignature) [sig] :=
    Reads.repeatRead_flatMap fun a ha => by
      rw [mem_singleton] at ha
      subst ha
      exact reads_signature h
  have hread : Reads decodeSigs (encodeSigBlock [sig]) [sig] :=
    Reads.bind (reads_u16 (n := 1) (by norm_num))
      (.bind_nil (reads_ensure (by decide) _) hsig)
  rw [decodeSigBlock, hread.exact]
  rfl

lemma encodeSigBlock_length {sig} (h : sig.metadata = none) :
    (encodeSigBlock [sig]).length = sigBlockSize [sig] := by
  have h64 := sig.signature.2
  simp only [encodeSigBlock, sigBlockSize, encodeSignature, h, flatMap_cons, flatMap_nil,
    map_cons, map_nil, sum_cons, sum_nil, length_append,
    Lib.leBytes_length, length_cons, length_nil, h64, Option.elim_none]

/-! ## Dictionaries -/

lemma serialize_entries_le (d : StringDictBuilder) : d.entries.length ≤ d.serialize.length := by
  have h : d.entries.length ≤ (d.entries.flatMap encodeLenStr).length := by
    refine length_le_flatMap_length fun s _ => ?_
    have := encodeVarint_pos (asBytes s).length
    rw [encodeLenStr, length_append]
    omega
  rw [serialize, length_append]
  omega

lemma reads_serialized {d : StringDictBuilder} (hlen : d.serialize.length < 2 ^ 64)
    (hcap : d.serialize.length ≤ build.limit) :
    Reads (StringDict.readEntries build) d.serialize d.entries := by
  have hle := serialize_entries_le d
  refine reads_dict (by omega) (fun s hs => ?_) (by omega)
  have h1 : (encodeLenStr s).length ≤ (d.entries.flatMap encodeLenStr).length := length_le_flatMap hs
  rw [encodeLenStr, length_append] at h1
  rw [serialize, length_append] at hlen
  omega

lemma deserialize_found {d : StringDictBuilder} (hlen : d.serialize.length < 2 ^ 64)
    (hcap : d.serialize.length ≤ build.limit) : (d.serialize.length < 2 ^ 32 →
      deserialize build (d.serialize.take (d.serialize.length % 2 ^ 32))
        = .ok ⟨d.entries⟩) ∧ (¬ d.serialize.length < 2 ^ 32 →
      ∃ e, deserialize build (d.serialize.take (d.serialize.length % 2 ^ 32))
        = .error e) := by
  have hread := reads_serialized hlen hcap
  constructor
  · intro hlt
    rw [mod_eq_of_lt hlt, take_length, deserialize, hread.exact]
  · intro hge
    obtain ⟨e, he⟩ := hread.short (d.serialize.take (d.serialize.length % 2 ^ 32))
      ( take_prefix _ _) fun heq => by
        have h1 := congrArg List.length heq
        rw [length_take] at h1
        omega
    exact ⟨e, by rw [deserialize, he]⟩

lemma loadOne_found {pre d post validEnd prevEnd name}
    (hprev : prevEnd ≤ pre.length) (hend : pre.length + d.length ≤ validEnd)
    (hbound : validEnd < 2 ^ 64) :
    loadOne build (pre ++ (d ++ post)) validEnd name ⟨pre.length, d.length % 2 ^ 32⟩ prevEnd
      = (deserialize build (d.take (d.length % 2 ^ 32))).map
          (·, pre.length + d.length % 2 ^ 32) := by
  have hle : d.length % 2 ^ 32 ≤ d.length := mod_le _ _
  have hstop : addUsize build pre.length (d.length % 2 ^ 32)
      = .ok (pre.length + d.length % 2 ^ 32) := addUsize_of_lt (by omega)
  have hvalid : pre.length + d.length % 2 ^ 32 ≤ validEnd := by omega
  rw [loadOne, bind_of_ok hstop, bind_of_ok (require_true (decide_eq_true hprev) _),
    bind_of_ok (require_true (decide_eq_true hvalid) _), bind_of_ok (slice_append hle rfl rfl)]
  cases deserialize build (d.take (d.length % 2 ^ 32)) with
  | ok | error => rfl

def SmallDicts (dicts : CommitDicts) : Prop := ∀ d ∈ dicts.toList, d.serialize.length < 2 ^ 32

lemma SmallDicts.complete {dicts} (h : SmallDicts dicts) : Complete dicts := by
  have hd : ∀ d ∈ dicts.toList, d.entries.length < 2 ^ 32 := fun d hd =>
    lt_of_le_of_lt (serialize_entries_le d) (h d hd)
  simp only [Five.toList, mem_cons, not_mem_nil, or_false, forall_eq_or_imp, forall_eq] at hd
  obtain ⟨hg, hs, hp, hdt, ho⟩ := hd
  exact ⟨hg, hs, hp, hdt, ho⟩

lemma loadOne_serialized {pre post : List UInt8} {d : StringDictBuilder} {validEnd prevEnd : ℕ}
    {name : String} (hprev : prevEnd ≤ pre.length)
    (hend : pre.length + d.serialize.length ≤ validEnd) (hbound : validEnd < 2 ^ 64)
    (hcap : d.serialize.length ≤ build.limit) :
    (d.serialize.length < 2 ^ 32 → loadOne build (pre ++ (d.serialize ++ post)) validEnd name
        ⟨pre.length, d.serialize.length % 2 ^ 32⟩ prevEnd
        = .ok (⟨d.entries⟩, pre.length + d.serialize.length)) ∧
    (¬ d.serialize.length < 2 ^ 32 → ∃ e, loadOne build (pre ++ (d.serialize ++ post)) validEnd name
        ⟨pre.length, d.serialize.length % 2 ^ 32⟩ prevEnd = .error e) := by
  obtain ⟨hsmall, hbig⟩ := @deserialize_found build d (by omega) hcap
  have hfound := @loadOne_found build pre d.serialize post validEnd prevEnd name hprev hend hbound
  constructor
  · intro h
    rw [hfound, hsmall h, mod_eq_of_lt h]
    rfl
  · intro h
    obtain ⟨e, he⟩ := hbig h
    exact ⟨e, by rw [hfound, he]; rfl⟩

/-- **The dictionaries of a written blob** load exactly when their lengths fit 32 bits. -/
lemma loadDicts_written {front rest : List UInt8} {dicts : CommitDicts} {opsLen validStart : ℕ}
    {validEnd : ℕ} (hstart : validStart ≤ front.length)
    (hend : validEnd = front.length + (dicts.map serialize).toList.flatten.length)
    (hbound : validEnd < 2 ^ 64) (hcap : validEnd ≤ build.limit) :
    let bytes := front ++ ((dicts.map serialize).toList.flatten ++ rest)
    let footer : CommitFooter :=
      ⟨dictLocations front.length (dicts.map serialize), opsLen⟩
    (SmallDicts dicts → loadDicts build bytes footer validStart validEnd = .ok (toRead dicts)) ∧
    (¬ SmallDicts dicts → ∃ e, loadDicts build bytes footer validStart validEnd = .error e) := by
  obtain ⟨g, s, p, dt, o⟩ := dicts
  simp only [Five.map, Five.toList, flatten_cons, flatten_nil, length_append, append_nil] at hend
  have hbytes : front ++ ((Five.map serialize ⟨g, s, p, dt, o⟩).toList.flatten
      ++ rest) = front ++ (g.serialize ++ (s.serialize ++ (p.serialize ++ (dt.serialize
        ++ (o.serialize ++ rest))))) := by
    simp [Five.map, Five.toList]
  simp only [hbytes]
  -- each dictionary as a part of the blob
  have h1 := @loadOne_serialized build front (s.serialize ++ (p.serialize ++ (dt.serialize
    ++ (o.serialize ++ rest)))) g validEnd validStart "graph" hstart (by omega) hbound (by omega)
  have h2 := @loadOne_serialized build (front ++ g.serialize) (p.serialize ++ (dt.serialize
    ++ (o.serialize ++ rest))) s validEnd (front.length + g.serialize.length) "subject"
    (by simp) (by simp only [length_append]; omega) hbound (by omega)
  have h3 := @loadOne_serialized build (front ++ g.serialize ++ s.serialize) (dt.serialize
    ++ (o.serialize ++ rest)) p validEnd (front.length + g.serialize.length + s.serialize.length)
    "predicate" (by simp only [length_append]; omega)
    (by simp only [length_append]; omega) hbound (by omega)
  have h4 := @loadOne_serialized build (front ++ g.serialize ++ s.serialize ++ p.serialize)
    (o.serialize ++ rest) dt validEnd
    (front.length + g.serialize.length + s.serialize.length + p.serialize.length)
    "datatype" (by simp only [length_append]; omega)
    (by simp only [length_append]; omega) hbound (by omega)
  have h5 := @loadOne_serialized build
    (front ++ g.serialize ++ s.serialize ++ p.serialize ++ dt.serialize) rest o validEnd
    (front.length + g.serialize.length + s.serialize.length + p.serialize.length
      + dt.serialize.length)
    "object_ref" (by simp only [length_append]; omega)
    (by simp only [length_append]; omega) hbound (by omega)
  simp only [append_assoc, length_append, ← add_assoc] at h1 h2 h3 h4 h5
  simp only [SmallDicts, Five.toList, mem_cons, not_mem_nil, or_false, forall_eq_or_imp, forall_eq]
  constructor
  · rintro ⟨hg, hs, hp, hdt, ho⟩
    exact bind_eq_ok.2 ⟨_, h1.1 hg, bind_eq_ok.2 ⟨_, h2.1 hs, bind_eq_ok.2 ⟨_, h3.1 hp,
      bind_eq_ok.2 ⟨_, h4.1 hdt, bind_eq_ok.2 ⟨_, h5.1 ho, rfl⟩⟩⟩⟩⟩
  · intro hbig
    by_cases hg : g.serialize.length < 2 ^ 32
    · by_cases hs : s.serialize.length < 2 ^ 32
      · by_cases hp : p.serialize.length < 2 ^ 32
        · by_cases hdt : dt.serialize.length < 2 ^ 32
          · have ho : ¬ o.serialize.length < 2 ^ 32 := fun ho => hbig ⟨hg, hs, hp, hdt, ho⟩
            obtain ⟨e, he⟩ := h5.2 ho
            exact ⟨e, (bind_of_ok (h1.1 hg)).trans ((bind_of_ok (h2.1 hs)).trans
              ((bind_of_ok (h3.1 hp)).trans ((bind_of_ok (h4.1 hdt)).trans (bind_of_error he))))⟩
          · obtain ⟨e, he⟩ := h4.2 hdt
            exact ⟨e, (bind_of_ok (h1.1 hg)).trans ((bind_of_ok (h2.1 hs)).trans
              ((bind_of_ok (h3.1 hp)).trans (bind_of_error he)))⟩
        · obtain ⟨e, he⟩ := h3.2 hp
          exact ⟨e, (bind_of_ok (h1.1 hg)).trans ((bind_of_ok (h2.1 hs)).trans (bind_of_error he))⟩
      · obtain ⟨e, he⟩ := h2.2 hs
        exact ⟨e, (bind_of_ok (h1.1 hg)).trans (bind_of_error he)⟩
    · obtain ⟨e, he⟩ := h1.2 hg
      exact ⟨e, bind_of_error he⟩


end Fluree.Codec
