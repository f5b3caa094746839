import Fluree.Proof.Commit.Layout

/-!
# Commits that can be read back

`writeCommit` accepts commits that the readers refuse or change. `Readable` lists what a commit
must meet; the result is exact.

The first condition is the slip: the reader limits the signer and the transaction id of a
signature to 256 bytes, the writer does not.
-/

namespace Fluree.Codec

open List Option Prod StringDictBuilder Codec.FlakeValue Except Nat

open Lib (leBytes leNat Reads Refuses repeatRead)

variable {x : External} {w build : Build}

/-- What is assumed of the libraries: content ids and lexical forms are read back, compression
loses nothing and a cut stream does not decompress to the whole, base 58 at most doubles the
length. -/
structure Lawful (x : External) : Prop where
  cid : ∀ c, x.cidFromBytes (x.cidToBytes c) = .ok c
  lexical : ParsesBack x
  zstd : ∀ raw z, x.zstdEncode raw = .ok z → x.zstdDecode z = .ok raw
  zstdCut : ∀ raw z, x.zstdEncode raw = .ok z → ∀ n < z.length, ∀ out,
    x.zstdDecode (z.take n) = .ok out → out <+: raw ∧ (raw ≠ [] → out ≠ raw)
  base58 : ∀ bs, (asBytes (x.base58 bs)).length ≤ 2 * bs.length

/-- Libraries with one content id and nothing to compress or sign. -/
def External.plain : External where
  Cid := Unit
  cidToBytes _ := []
  cidFromBytes _ := .ok ()
  commitId _ := ()
  Val _ := Unit
  display _ _ := ""
  parse _ _ := .ok ()
  overflows _ _ := false
  zstdEncode := .ok
  zstdDecode := .ok
  SigningKey := Empty
  verifyingKey := nofun
  base58 _ := ""
  sha256 _ := []
  signCommitDigest := nofun

open External

lemma lawful_plain : Lawful plain := by
  have hquiet : ∀ k build, (RawObject.lexicalStr k "").panics plain build = false := by
    rintro k ⟨checks, _⟩
    cases k <;> cases checks <;> rfl
  refine ⟨fun _ => rfl, fun k _ => ⟨rfl, hquiet k⟩, fun raw z h => ?_, ?_, fun bs => zero_le _⟩
  · obtain rfl : raw = z := ok.inj h
    rfl
  intro raw z h n hn out hout
  obtain rfl : raw = z := ok.inj h
  obtain rfl : raw.take n = out := ok.inj hout
  refine ⟨ take_prefix _ _, fun _ heq => ?_⟩
  have hlen := congrArg List.length heq
  rw [length_take] at hlen
  omega

/-! ## The parts of a written blob -/

/-- The header that `writeCommit` makes. -/
def headerOf (c : Commit x.Cid (Flake x)) (env : List UInt8) (compressed : Bool)
    (signing : Option (x.SigningKey × String)) : CommitHeader where
  version := VERSION
  flags := (if compressed then FLAG_ZSTD else 0)
    ||| (if signing.isSome then FLAG_HAS_COMMIT_SIG else 0)
  t := c.t
  opCount := c.flakes.length % 2 ^ 32
  envelopeLen := env.length % 2 ^ 32
  sigBlockLen := preSigBlockLen x signing

/-- What `writeCommit` put together. -/
structure Laid (x : External) (w : Build) (c : Commit x.Cid (Flake x)) (compress : Bool)
    (signing : Option (x.SigningKey × String)) (env opsRaw ops body : List UInt8)
    (dicts : CommitDicts) (compressed : Bool) (bytes : List UInt8) : Prop where
  t : 0 ≤ c.t ∧ c.t < 2 ^ 32
  envelope : encodeEnvelope x c = .ok env
  opStream : encodeOps x w CommitDicts.new c.flakes = .ok (opsRaw, dicts)
  opsBound : opsRaw.length < 2 ^ 63
  opSection : opsSection x compress opsRaw = .ok (ops, compressed)
  body_eq : body = writeBody (headerOf c env compressed signing) env ops
    (dicts.map serialize)
  bytes_eq : bytes = body ++ signatureBlock x body signing
  bound : bytes.length < 2 ^ 63

lemma vec_ok (h : vec bs = .ok out) : out = bs ∧ bs.length < 2 ^ 63 := by
  rw [vec] at h
  split at h
  · exact ⟨(ok.inj h).symm, by assumption⟩
  · cases h

lemma writeCommit_laid (h : writeCommit x w c compress signing = .ok bytes) :
    ∃ env opsRaw ops body dicts compressed,
      Laid x w c compress signing env opsRaw ops body dicts compressed bytes := by
  obtain ⟨_, ht, h1⟩ := bind_eq_ok.1 h
  obtain ⟨env, henv, h2⟩ := bind_eq_ok.1 h1
  obtain ⟨⟨opsRaw, dicts⟩, hops, h3⟩ := bind_eq_ok.1 h2
  obtain ⟨opsRaw', hvec, h4⟩ := bind_eq_ok.1 h3
  obtain ⟨⟨ops, compressed⟩, hsec, h5⟩ := bind_eq_ok.1 h4
  obtain ⟨body, hbody, h6⟩ := bind_eq_ok.1 h5
  obtain ⟨rfl, hbound⟩ := vec_ok hvec
  obtain ⟨rfl, -⟩ := vec_ok hbody
  obtain ⟨rfl, hlen⟩ := vec_ok h6
  exact ⟨env, opsRaw', ops, _, dicts, compressed,
    ⟨by simpa using require_ok ht, henv, hops, hbound, hsec, rfl, rfl, hlen⟩⟩

lemma header_flags : ∀ z s : Bool,
    let flags := (if z then FLAG_ZSTD else 0) ||| (if s then FLAG_HAS_COMMIT_SIG else 0)
    (flags &&& FLAG_ZSTD != 0) = z ∧ (flags &&& FLAG_HAS_COMMIT_SIG != 0) = s := by
  decide

lemma asBytes_append (a b : String) : asBytes (a ++ b) = asBytes a ++ asBytes b := by
  simp [asBytes]

lemma blank_plain (hx : Lawful x) (key : x.SigningKey)
    (signature : { bs : List UInt8 // bs.length = 64 }) :
    PlainSignature { blankSignature x key with signature } := by
  refine ⟨?_, rfl, rfl⟩
  have h := hx.base58 ([0xed, 0x01] ++ (x.verifyingKey key).1)
  have hscheme : (asBytes "did:key:z").length = 9 := by decide
  have h32 := (x.verifyingKey key).2
  simp only [length_append, length_cons, length_nil, h32] at h
  simp only [blankSignature, didFromPubkey, asBytes_append, length_append, hscheme]
  rw [MAX_SIGNER_LEN]
  omega

lemma sigBlockSize_blank (hx : Lawful x) (key : x.SigningKey)
    (signature : { bs : List UInt8 // bs.length = 64 }) :
    0 < sigBlockSize [blankSignature x key] ∧ sigBlockSize [blankSignature x key] < 2 ^ 16 ∧
      (encodeSigBlock [{ blankSignature x key with signature }]).length
        = sigBlockSize [blankSignature x key] := by
  have hplain := (blank_plain hx key signature).signer
  rw [MAX_SIGNER_LEN] at hplain
  refine ⟨?_, ?_, ?_⟩
  · simp [sigBlockSize]
  · simp only [sigBlockSize, map_cons, map_nil, sum_cons, sum_nil,
      blankSignature, elim_none] at hplain ⊢
    omega
  · rw [encodeSigBlock_length rfl]
    rfl

def dictBytes (dicts : CommitDicts) : List UInt8 := (dicts.map serialize).toList.flatten

/-- Header, envelope and ops. -/
def frontOf (c : Commit x.Cid (Flake x)) (env ops : List UInt8) (compressed : Bool)
    (signing : Option (x.SigningKey × String)) : List UInt8 :=
  (headerOf c env compressed signing).writeTo ++ (env ++ ops)

def footerOf (start : ℕ) (ops : List UInt8) (dicts : CommitDicts) : CommitFooter :=
  ⟨dictLocations start (dicts.map serialize), ops.length % 2 ^ 32⟩

lemma dictBytes_length (dicts : CommitDicts) :
    (dictBytes dicts).length = dicts.graph.serialize.length + dicts.subject.serialize.length
      + dicts.predicate.serialize.length + dicts.datatype.serialize.length
      + dicts.objectRef.serialize.length := by
  simp only [dictBytes, Five.map, Five.toList, flatten_cons, flatten_nil, length_append, length_nil]
  omega

lemma readFrom_footerOf (h : start + (dictBytes dicts).length < 2 ^ 64) :
    CommitFooter.readFrom (footerOf start ops dicts).writeTo = .ok (footerOf start ops dicts) := by
  have hlen := dictBytes_length dicts
  have hmod : ∀ n : ℕ, n % 2 ^ 32 < 2 ^ 32 := fun n => mod_lt _ (by norm_num)
  refine readFrom_footer (fun d hd => ?_) (hmod _)
  simp only [footerOf, dictLocations, Five.map, Five.toList, mem_cons, not_mem_nil, or_false] at hd
  rcases hd with rfl | rfl | rfl | rfl | rfl <;> exact ⟨by simp only; omega, hmod _⟩

section Parts

variable {c : Commit x.Cid (Flake x)} {compress : Bool} {signing : Option (x.SigningKey × String)}
  {env opsRaw ops body : List UInt8} {dicts : CommitDicts} {compressed : Bool} {bytes : List UInt8}
  (hx : Lawful x) (laid : Laid x w c compress signing env opsRaw ops body dicts compressed bytes)

lemma signatureBlock_length (hx : Lawful x) (body : List UInt8)
    (signing : Option (x.SigningKey × String)) :
    (signatureBlock x body signing).length = preSigBlockLen x signing ∧
      preSigBlockLen x signing < 2 ^ 16 ∧ (0 < preSigBlockLen x signing ↔ signing.isSome) := by
  cases signing with
  | none => exact ⟨rfl, by simp [preSigBlockLen], by simp [preSigBlockLen]⟩
  | some s =>
    obtain ⟨key, ledgerId⟩ := s
    obtain ⟨hpos, hlt, hlen⟩ :=
      sigBlockSize_blank hx key (x.signCommitDigest key (x.sha256 body) ledgerId)
    have hpre : preSigBlockLen x (some (key, ledgerId)) = sigBlockSize [blankSignature x key] :=
      mod_eq_of_lt hlt
    rw [hpre]
    exact ⟨hlen, hlt, by simpa using hpos⟩

lemma headerOf_fits (hx : Lawful x) (ht : 0 ≤ c.t ∧ c.t < 2 ^ 32) (env : List UInt8)
    (compressed : Bool) (signing : Option (x.SigningKey × String)) :
    HeaderFits (headerOf c env compressed signing) where
  version := rfl
  t := ht
  opCount := mod_lt _ (by norm_num)
  envelopeLen := mod_lt _ (by norm_num)
  sigBlockLen := (signatureBlock_length hx [] signing).2.1

lemma hasSigBlock_headerOf (hx : Lawful x) :
    (headerOf c env compressed signing).hasSigBlock = signing.isSome := by
  have hflag := (header_flags compressed signing.isSome).2
  have hpos := (signatureBlock_length hx [] signing).2.2
  simp only [CommitHeader.hasSigBlock, headerOf] at hflag ⊢
  rw [hflag]
  cases h : signing.isSome with
  | false => rfl
  | true => exact (Bool.true_and _).trans (decide_eq_true (hpos.2 h))

lemma compressed_headerOf : (headerOf c env compressed signing).compressed = compressed :=
  (header_flags compressed signing.isSome).1

include laid

lemma bytes_split : ∃ rest, bytes = (headerOf c env compressed signing).writeTo ++ (env ++ (ops
    ++ rest)) := by
  rw [laid.bytes_eq, laid.body_eq, writeBody]
  simp only [append_assoc]
  exact ⟨_, rfl⟩

lemma body_length : body.length = HEADER_LEN + env.length + ops.length
    + (dictBytes dicts).length + FOOTER_LEN := by
  rw [laid.body_eq, writeBody, dictBytes]
  simp only [length_append, header_length, footer_length]
  omega

lemma bytes_parts : bytes = frontOf c env ops compressed signing ++ (dictBytes dicts
    ++ ((footerOf (frontOf c env ops compressed signing).length ops dicts).writeTo
      ++ signatureBlock x body signing)) := by
  have hbody : body = frontOf c env ops compressed signing ++ (dictBytes dicts
      ++ (footerOf (frontOf c env ops compressed signing).length ops dicts).writeTo) := laid.body_eq
  rw [laid.bytes_eq]
  generalize signatureBlock x body signing = sig
  rw [hbody]
  simp only [append_assoc]

include hx

lemma readFrom_bytes : CommitHeader.readFrom bytes = .ok (headerOf c env compressed signing) := by
  obtain ⟨_, rfl⟩ := bytes_split laid
  exact readFrom_header (headerOf_fits hx laid.t _ _ _) _

omit hx in
lemma detectVersion_bytes : detectVersion bytes = .ok .v4 := by
  obtain ⟨_, rfl⟩ := bytes_split laid
  exact detectVersion_header rfl _

lemma bytes_length : bytes.length = body.length + preSigBlockLen x signing := by
  rw [laid.bytes_eq, length_append, (signatureBlock_length hx body signing).1]

lemma readHeader_bytes : readHeader bytes = .ok (headerOf c env compressed signing) := by
  have hlen := bytes_length hx laid
  have hbody := body_length laid
  have hmin : MIN_COMMIT_LEN ≤ bytes.length := by rw [MIN_COMMIT_LEN]; omega
  rw [readHeader, bind_of_ok (require_true (decide_eq_true hmin) _), readFrom_bytes hx laid]
  rfl

lemma bodyEnd_bytes :
    bodyEnd build bytes (headerOf c env compressed signing) = .ok body.length := by
  have hlen := bytes_length hx laid
  rw [bodyEnd, hasSigBlock_headerOf hx]
  cases signing with
  | none =>
    rw [hlen]
    rfl
  | some s =>
    have hsig : (headerOf c env compressed (some s)).sigBlockLen = preSigBlockLen x (some s) := rfl
    have hle : (headerOf c env compressed (some s)).sigBlockLen ≤ bytes.length := by
      rw [hsig]
      omega
    rw [isSome_some, if_pos rfl, bind_of_ok (require_true (decide_eq_true hle) _),
      subUsize_of_le hle, hsig, hlen, Nat.add_sub_cancel]

lemma readSignatures_bytes :
    ∃ sigs, readSignatures bytes (headerOf c env compressed signing) body.length = .ok sigs := by
  rw [readSignatures, hasSigBlock_headerOf hx]
  cases signing with
  | none => exact ⟨[], rfl⟩
  | some s =>
    obtain ⟨key, ledgerId⟩ := s
    have hlen := (signatureBlock_length hx body (some (key, ledgerId))).1
    have hslice : slice bytes body.length
        (body.length + (headerOf c env compressed (some (key, ledgerId))).sigBlockLen)
        = .ok (signatureBlock x body (some (key, ledgerId))) := by
      have hall := @slice_append_all body (signatureBlock x body (some (key, ledgerId))) []
        body.length _ rfl rfl
      rw [append_nil, hlen, ← laid.bytes_eq] at hall
      exact hall
    rw [isSome_some, if_pos rfl, bind_of_ok hslice]
    exact ⟨_, decodeSigBlock_encode (blank_plain hx key _)⟩

lemma readEnvelope_bytes : readEnvelope x build bytes (headerOf c env compressed signing)
    = decodeEnvelope x build (env.take (env.length % 2 ^ 32)) := by
  have hle : env.length % 2 ^ 32 ≤ env.length := mod_le _ _
  have hend : envelopeEnd (headerOf c env compressed signing) = HEADER_LEN + env.length % 2 ^ 32 :=
    rfl
  have hlen := bytes_length hx laid
  have hbody := body_length laid
  have hbound : envelopeEnd (headerOf c env compressed signing) ≤ bytes.length := by
    rw [hend]
    omega
  have hslice : slice bytes HEADER_LEN (envelopeEnd (headerOf c env compressed signing))
      = .ok (env.take (env.length % 2 ^ 32)) := by
    obtain ⟨_, rfl⟩ := bytes_split laid
    refine slice_append hle (header_length _).symm ?_
    rw [hend, header_length]
  rw [readEnvelope, bind_of_ok (require_true (decide_eq_true hbound) _), bind_of_ok hslice]

omit hx in
lemma slice_ops (henv : env.length < 2 ^ 32) :
    slice bytes (envelopeEnd (headerOf c env compressed signing))
      (envelopeEnd (headerOf c env compressed signing) + ops.length % 2 ^ 32)
      = .ok (ops.take (ops.length % 2 ^ 32)) := by
  have hend : envelopeEnd (headerOf c env compressed signing) = HEADER_LEN + env.length := by
    rw [envelopeEnd, headerOf, mod_eq_of_lt henv]
  obtain ⟨_, rfl⟩ := bytes_split laid
  rw [← append_assoc]
  apply slice_append (mod_le _ _) <;> rw [hend, length_append, header_length]

/-- The sections behind the envelope: they are found when the dictionaries are small, and refused
otherwise. -/
lemma readSections_bytes (hcap : bytes.length ≤ build.limit) (henv : env.length < 2 ^ 32) :
    (SmallDicts dicts → readSections x build bytes (headerOf c env compressed signing) body.length
      = (decompress x (headerOf c env compressed signing) (ops.take (ops.length % 2 ^ 32))).map
          (toRead dicts, ·)) ∧ (¬ SmallDicts dicts → ∃ e,
      readSections x build bytes (headerOf c env compressed signing) body.length = .error e) := by
  have hlen := bytes_length hx laid
  have hbody := body_length laid
  have hbound := laid.bound
  have hmod := mod_le ops.length (2 ^ 32)
  have hfront : (frontOf c env ops compressed signing).length
      = HEADER_LEN + env.length + ops.length := by
    simp only [frontOf, length_append, header_length]
    omega
  have henvEnd : envelopeEnd (headerOf c env compressed signing) = HEADER_LEN + env.length := by
    rw [envelopeEnd, headerOf, mod_eq_of_lt henv]
  have hparts := bytes_parts laid
  have hopsSlice := slice_ops laid henv
  set h := headerOf c env compressed signing
  set front := frontOf c env ops compressed signing
  have hfs : subUsize build body.length FOOTER_LEN = .ok (front.length + (dictBytes dicts).length) := by
    rw [subUsize_of_le (by omega), hfront]
    congr 1
    omega
  have hslice : slice bytes (front.length + (dictBytes dicts).length) body.length
      = .ok (footerOf front.length ops dicts).writeTo := by
    rw [hparts, ← append_assoc]
    refine slice_append_all (by rw [length_append]) ?_
    rw [length_append, footer_length, hfront]
    omega
  have hopsEnd : envelopeEnd h + ops.length % 2 ^ 32
      ≤ front.length + (dictBytes dicts).length := by omega
  obtain ⟨hsmall, hbig⟩ := @loadDicts_written build front
    ((footerOf front.length ops dicts).writeTo ++ signatureBlock x body signing) dicts
    (ops.length % 2 ^ 32) (envelopeEnd h + ops.length % 2 ^ 32)
    (front.length + (dictBytes dicts).length) (by omega) rfl (by omega) (by omega)
  have hstart : readSections x build bytes h body.length = (do
      let dicts ← loadDicts build bytes (footerOf front.length ops dicts)
        (envelopeEnd h + ops.length % 2 ^ 32) (front.length + (dictBytes dicts).length)
      let opsBytes ← slice bytes (envelopeEnd h) (envelopeEnd h + ops.length % 2 ^ 32)
      let ops ← decompress x h opsBytes
      pure (dicts, ops)) := by
    rw [readSections, bind_of_ok hfs, bind_of_ok hslice, readFrom_footerOf (by omega)]
    exact bind_of_ok (require_true (decide_eq_true hopsEnd) _)
  constructor
  · intro hs
    have hload := hsmall hs
    rw [← dictBytes, ← hparts] at hload
    rw [hstart]
    refine (bind_of_ok hload).trans ((bind_of_ok hopsSlice).trans ?_)
    cases decompress x h (ops.take (ops.length % 2 ^ 32)) with
    | ok | error => rfl
  · intro hs
    obtain ⟨e, he⟩ := hbig hs
    rw [← dictBytes, ← hparts] at he
    exact ⟨e, by rw [hstart]; exact bind_of_error he⟩

end Parts

/-! ## What it means to come back -/

/-- The graph that a raw op names: an empty name in the empty namespace is the default graph. -/
def RawOp.graph (r : RawOp) : Option Sid :=
  if r.gNsCode = 0 ∧ r.gName = "" then none else some ⟨r.gNsCode, r.gName⟩

/-- A raw op with the graph, subject, predicate, datatype, object, op flag, language and list index
of a flake. -/
structure SameOp (f : Flake x) (r : RawOp) : Prop where
  graph : r.graph = f.g
  subject : (⟨r.sNsCode, r.sName⟩ : Sid) = f.s
  predicate : (⟨r.pNsCode, r.pName⟩ : Sid) = f.p
  datatype : (⟨r.dtNsCode, r.dtName⟩ : Sid) = f.dt
  object : tryFrom x r.o = .ok f.o
  op : r.op = f.op
  lang : r.lang = f.m.bind (·.lang)
  index : r.i = f.m.bind (·.i)

/-- **A blob gives its commit back**: the full reader, the envelope reader and the raw ops. -/
structure ComesBack (x : External) (build : Build) (legacy : LegacyV3 x)
    (c : Commit x.Cid (Flake x)) (bytes : List UInt8) : Prop where
  commit : ∃ c', readCommit x build legacy bytes = .ok c' ∧ c'.t = c.t ∧ c'.flakes = c.flakes ∧
    c'.parents = c.parents ∧ c'.namespaceDelta = c.namespaceDelta ∧ c'.graphDelta = c.graphDelta ∧
    c'.txn = c.txn ∧ c'.time = c.time ∧ c'.txnSignature = c.txnSignature ∧
    c'.txnMeta = c.txnMeta ∧ c'.nsSplitMode = c.nsSplitMode
  envelope : readCommitEnvelope x build legacy bytes = .ok {
    t := c.t, parents := c.parents, txn := c.txn, namespaceDelta := c.namespaceDelta,
    txnMeta := c.txnMeta, graphDelta := c.graphDelta, nsSplitMode := c.nsSplitMode }
  ops : ∃ loaded raws, loadCommitOps x build legacy bytes = .ok loaded ∧
    rawOps x build loaded = .ok raws ∧ List.Forall₂ SameOp c.flakes raws

/-- What a flake must meet: the transaction number of its commit, a language tag in lower case
unless it has a list index, a point of 60 bits, and not the graph that stands for the default. -/
structure Carried (t : ℤ) (f : Flake x) : Prop where
  t : f.t = t
  lang : ∀ m l, f.m = some m → m.lang = some l → m.i = none → normalizeLangTag l = l
  point : ∀ bits, f.o = .geoPoint bits → bits.toNat < 2 ^ 60
  graph : f.g ≠ some ⟨0, ""⟩

/-- What a commit must meet to come back: a short signature, flakes that a blob can carry, and
lengths of 32 bits for the ops, the envelope, the op section and the dictionaries. -/
structure Readable (x : External) (w : Build) (c : Commit x.Cid (Flake x)) (compress : Bool) :
    Prop where
  signature : ShortTxnSignature c.txnSignature
  flakes : ∀ f ∈ c.flakes, Carried c.t f
  opCount : c.flakes.length < 2 ^ 32
  envelope : ∀ env, encodeEnvelope x c = .ok env → env.length < 2 ^ 32
  sections : ∀ raw dicts, encodeOps x w CommitDicts.new c.flakes = .ok (raw, dicts) →
    SmallDicts dicts ∧ ∀ ops z, opsSection x compress raw = .ok (ops, z) → ops.length < 2 ^ 32

/-! ## Flakes that a blob can carry -/

lemma storedMeta_eq_iff (hm : m ≠ some ⟨none, none⟩) : storedMeta m = m ↔
      ∀ m' l, m = some m' → m'.lang = some l → m'.i = none → normalizeLangTag l = l := by
  cases m with
  | none => exact ⟨fun _ m' l h => (nomatch h), fun _ => rfl⟩
  | some m =>
    obtain ⟨lang, i⟩ := m
    cases lang with
    | none =>
      cases i with
      | none => exact absurd rfl hm
      | some => exact ⟨fun _ m' l h hl => (by cases h; cases hl), fun _ => rfl⟩
    | some l =>
      cases i with
      | none =>
        constructor
        · intro h m' l' hm' hl' _
          cases hm'
          cases hl'
          have := congrArg (fun o => o.bind FlakeMeta.lang) h
          exact Option.some.inj this
        · intro h
          have hl := h _ l rfl rfl rfl
          change some (FlakeMeta.withLang l) = _
          rw [FlakeMeta.withLang, hl]
      | some => exact ⟨fun _ m' l' h _ hi => (by cases h; cases hi), fun _ => rfl⟩

lemma stored_object_eq_iff {o : FlakeValue x} :
    o.stored = o ↔ ∀ bits, o = .geoPoint bits → bits.toNat < 2 ^ 60 := by
  cases o with
  | geoPoint bits =>
    have hlt := bits.toNat_lt
    constructor
    · intro h b hb
      cases hb
      have hbits := congrArg UInt64.toNat (geoPoint.inj h)
      rw [UInt64.toNat_ofNat'] at hbits
      omega
    · intro h
      have h60 := h bits rfl
      rw [stored, mod_eq_of_lt h60, UInt64.ofNat_toNat]
  | _ => exact ⟨fun _ b hb => (nomatch hb), fun _ => rfl⟩

lemma rawOp_graph_eq_iff {f : Flake x} : f.rawOp.graph = f.g ↔ f.g ≠ some ⟨0, ""⟩ := by
  cases hg : f.g with
  | none => exact ⟨fun _ h => (nomatch h), fun _ => by simp [RawOp.graph, Flake.rawOp, hg]⟩
  | some g =>
    obtain ⟨ns, name⟩ := g
    simp only [RawOp.graph, Flake.rawOp, hg, elim_some]
    split
    · rename_i h
      exact ⟨fun hn => (nomatch hn), fun hne => absurd (by rw [h.1, h.2]) hne⟩
    · rename_i h
      refine ⟨fun _ heq => h ?_, fun _ => rfl⟩
      cases heq
      exact ⟨rfl, rfl⟩

/-- **A flake is carried exactly when both readers return it.** -/
lemma carried_iff (hx : Lawful x) {t : ℤ} {f : Flake x} (hm : f.m ≠ some ⟨none, none⟩) :
    Carried t f ↔ f.stored t = f ∧ SameOp f f.rawOp := by
  constructor
  · intro h
    have ho := stored_object_eq_iff.2 h.point
    refine ⟨?_, ⟨rawOp_graph_eq_iff.2 h.graph, rfl, rfl, rfl, ?_, rfl, rfl, rfl⟩⟩
    · rw [Flake.stored, ho, (storedMeta_eq_iff hm).2 h.lang, ← h.t]
    · rw [Flake.rawOp, tryFrom_raw hx.lexical, ho]
  · rintro ⟨hs, hr⟩
    exact ⟨(congrArg Flake.t hs).symm, (storedMeta_eq_iff hm).1 (congrArg Flake.m hs),
      stored_object_eq_iff.1 (congrArg Flake.o hs), rawOp_graph_eq_iff.1 hr.graph⟩

/-! ## Raw ops -/

lemma run_forEachFrom (dicts : ReadDicts) (n : ℕ) (st : List RawOp) (bs : List UInt8) :
    (forEachFrom build dicts (fun st op => .ok (st ++ [op])) n st).run bs
      = ((repeatRead (decodeRawOp build dicts) n).run bs).map fun r => (st ++ r.1, r.2) := by
  induction n generalizing st bs with
  | zero =>
    change ok (st, bs) = ok (st ++ [], bs)
    rw [append_nil]
  | succ n ih =>
    rw [forEachFrom, repeatRead]
    cases h : (decodeRawOp build dicts).run bs with
    | error => rw [Lib.run_bind_of_error h, Lib.run_bind_of_error h]; rfl
    | ok v =>
      rw [Lib.run_bind_of_ok h, Lib.run_bind_of_ok h, ih]
      cases hr : (repeatRead (decodeRawOp build dicts) n).run v.2 with
      | error => rw [Lib.run_bind_of_error hr]; rfl
      | ok r =>
        rw [Lib.run_bind_of_ok hr]
        change ok (st ++ [v.1] ++ r.1, r.2) = ok (st ++ v.1 :: r.1, r.2)
        rw [append_assoc]
        rfl

lemma rawOps_of_reads
    (h : Reads (repeatRead (decodeRawOp build loaded.dicts) loaded.opCount) loaded.opsData raws) :
    rawOps x build loaded = .ok raws := by
  have hrun := @run_forEachFrom build loaded.dicts loaded.opCount [] loaded.opsData
  rw [h.exact] at hrun
  rw [rawOps, forEachOp, bind_of_ok hrun]
  simp

section Results

variable {c : Commit x.Cid (Flake x)} {compress : Bool} {signing : Option (x.SigningKey × String)}
  {env opsRaw ops body : List UInt8} {dicts : CommitDicts} {compressed : Bool} {bytes : List UInt8}
  (hx : Lawful x) (laid : Laid x w c compress signing env opsRaw ops body dicts compressed bytes)

include laid

lemma opsRaw_of_uncompressed (h : compressed = false) : ops = opsRaw := by
  have hsec := laid.opSection
  subst h
  rw [opsSection] at hsec
  split at hsec
  · split at hsec
    · cases hsec
    split at hsec
    · cases hsec
    · exact (Prod.ext_iff.1 (ok.inj hsec)).1.symm
  · exact (Prod.ext_iff.1 (ok.inj hsec)).1.symm

lemma zstd_of_compressed (h : compressed = true) : x.zstdEncode opsRaw = .ok ops ∧ opsRaw ≠ [] := by
  have hsec := laid.opSection
  subst h
  rw [opsSection] at hsec
  split at hsec
  · rename_i hc
    have hne : opsRaw ≠ [] := by
      rintro rfl
      simp at hc
    split at hsec
    · cases hsec
    rename_i z hz
    split at hsec
    · obtain ⟨rfl, -⟩ := Prod.ext_iff.1 (ok.inj hsec)
      exact ⟨hz, hne⟩
    · cases hsec
  · cases hsec

include hx

/-- The op stream comes out of the section that was found, or less than it when the section has
more than 32 bits of length. -/
lemma decompress_found : (ops.length < 2 ^ 32 → decompress x (headerOf c env compressed signing)
      (ops.take (ops.length % 2 ^ 32)) = .ok opsRaw) ∧
    (¬ ops.length < 2 ^ 32 → ∀ out, decompress x (headerOf c env compressed signing)
      (ops.take (ops.length % 2 ^ 32)) = .ok out → out <+: opsRaw ∧ out ≠ opsRaw) := by
  have hmod : ¬ ops.length < 2 ^ 32 → ops.length % 2 ^ 32 < ops.length := fun h => by omega
  cases hz : compressed with
  | true =>
    obtain ⟨henc, hne⟩ := zstd_of_compressed laid hz
    have hdec : ∀ bs out, decompress x (headerOf c env true signing) bs = .ok out ↔
        x.zstdDecode bs = .ok out := by
      intro bs out
      rw [decompress, if_pos compressed_headerOf]
      cases x.zstdDecode bs <;> simp
    constructor
    · intro h
      rw [mod_eq_of_lt h, take_length, hdec, hx.zstd _ _ henc]
    · intro h out hout
      obtain ⟨hpre, hneq⟩ := hx.zstdCut _ _ henc _ (hmod h) _ ((hdec _ _).1 hout)
      exact ⟨hpre, hneq hne⟩
  | false =>
    obtain rfl := opsRaw_of_uncompressed laid hz
    have hdec : ∀ bs, decompress x (headerOf c env false signing) bs = .ok bs := by
      intro bs
      rw [decompress, compressed_headerOf, if_neg (by simp)]
    constructor
    · intro h
      rw [hdec, mod_eq_of_lt h, take_length]
    · intro h out hout
      rw [hdec] at hout
      obtain rfl := ok.inj hout
      refine ⟨ take_prefix _ _, fun heq => ?_⟩
      have hl := congrArg List.length heq
      have := hmod h
      rw [length_take] at hl
      omega

variable (hcap : bytes.length ≤ build.limit)

include hcap

omit hcap in
lemma env_length_le : env.length ≤ bytes.length := by
  have h1 := bytes_length hx laid
  have h2 := body_length laid
  omega

lemma readEnvelope_ok (hshort : ShortTxnSignature c.txnSignature) (henv : env.length < 2 ^ 32) :
    readEnvelope x build bytes (headerOf c env compressed signing)
      = .ok { CodecEnvelope.fromCommit c with t := 0 } := by
  have hle := env_length_le hx laid
  have hbound := laid.bound
  rw [readEnvelope_bytes hx laid, mod_eq_of_lt henv, take_length]
  exact decodeEnvelope_encode hx.cid laid.envelope (by omega) (by omega) hshort

lemma readEnvelope_error (h : ¬ ShortTxnSignature c.txnSignature ∨ ¬ env.length < 2 ^ 32) :
    ∃ e, readEnvelope x build bytes (headerOf c env compressed signing) = .error e := by
  have hle := env_length_le hx laid
  have hbound := laid.bound
  rw [readEnvelope_bytes hx laid]
  rcases h with h | h
  · exact decodeEnvelope_longSigner hx.cid laid.envelope (by omega) (by omega) h _
  · exact decodeEnvelope_cut hx.cid laid.envelope (by omega) (by omega) (by omega)

lemma reads_blob (legacy : LegacyV3 x) (hroom : c.flakes.length ≤ build.limit)
    (hshort : ShortTxnSignature c.txnSignature) (hcount : c.flakes.length < 2 ^ 32)
    (henv : env.length < 2 ^ 32) (hdicts : SmallDicts dicts) (hops : ops.length < 2 ^ 32) :
    (∃ c', readCommit x build legacy bytes = .ok c' ∧
      c'.flakes = c.flakes.map (Flake.stored c.t) ∧ c'.t = c.t ∧ c'.parents = c.parents ∧
      c'.namespaceDelta = c.namespaceDelta ∧ c'.graphDelta = c.graphDelta ∧ c'.txn = c.txn ∧
      c'.time = c.time ∧ c'.txnSignature = c.txnSignature ∧ c'.txnMeta = c.txnMeta ∧
      c'.nsSplitMode = c.nsSplitMode) ∧ (readCommitEnvelope x build legacy bytes = .ok {
      t := c.t, parents := c.parents, txn := c.txn, namespaceDelta := c.namespaceDelta,
      txnMeta := c.txnMeta, graphDelta := c.graphDelta, nsSplitMode := c.nsSplitMode }) ∧
    ∃ loaded, loadCommitOps x build legacy bytes = .ok loaded ∧
      rawOps x build loaded = .ok (c.flakes.map Flake.rawOp) := by
  have hversion := detectVersion_bytes laid
  have hheader := readHeader_bytes hx laid
  have hbodyEnd := @bodyEnd_bytes x w build c compress signing env opsRaw ops body dicts compressed
    bytes hx laid
  obtain ⟨_, hsigs⟩ := readSignatures_bytes hx laid
  have henvelope := readEnvelope_ok hx laid hcap hshort henv
  have hsections : readSections x build bytes (headerOf c env compressed signing) body.length
      = .ok (toRead dicts, opsRaw) := by
    rw [(readSections_bytes hx laid hcap henv).1 hdicts, (decompress_found hx laid).1 hops]
    rfl
  obtain ⟨-, -, hread⟩ := encodeOps_spec build laid.opStream
  have hbound := laid.opsBound
  obtain ⟨hflakes, hraws⟩ := hread dicts (Continues.rfl _) hdicts.complete (by omega)
  have hopCount : (headerOf c env compressed signing).opCount = c.flakes.length :=
    mod_eq_of_lt hcount
  refine ⟨?_, ?_, ?_⟩
  · have hdecode : decodeFlakes x build (headerOf c env compressed signing) (toRead dicts) opsRaw
        = .ok (c.flakes.map (Flake.stored c.t)) := by
      rw [decodeFlakes, hopCount, bind_of_ok (show withCapacity build c.flakes.length = .ok () from
        if_pos hroom)]
      exact bind_of_ok (hflakes c.t hx.lexical).exact
    have hdispatch : readCommit x build legacy bytes = readCommitV4 x build bytes :=
      bind_of_ok hversion
    rw [hdispatch, readCommitV4, bind_of_ok hheader, bind_of_ok hbodyEnd, bind_of_ok hsigs,
      bind_of_ok henvelope, bind_of_ok hsections]
    exact ⟨_, bind_of_ok hdecode, rfl, rfl, rfl, rfl, rfl, rfl, rfl, rfl, rfl, rfl⟩
  · have hdispatch : readCommitEnvelope x build legacy bytes = readCommitEnvelopeV4 x build bytes :=
      bind_of_ok hversion
    rw [hdispatch, readCommitEnvelopeV4, readFrom_bytes hx laid]
    exact bind_of_ok henvelope
  · have hdispatch : loadCommitOps x build legacy bytes = loadCommitOpsV4 x build bytes :=
      bind_of_ok hversion
    rw [hdispatch, loadCommitOpsV4, bind_of_ok hheader, bind_of_ok hbodyEnd, bind_of_ok henvelope,
      bind_of_ok hsections]
    refine ⟨_, rfl, rawOps_of_reads ?_⟩
    rw [← hopCount] at hraws
    exact hraws

/-- What the full reader needs: whenever it returns flakes, the sections had lengths of 32 bits or
its flakes are fewer. -/
lemma sections_of_read (hcount : c.flakes.length < 2 ^ 32) (henv : env.length < 2 ^ 32)
    (hs : readSections x build bytes (headerOf c env compressed signing) body.length
      = .ok (ds, out))
    (hd : decodeFlakes x build (headerOf c env compressed signing) ds out = .ok flakes) :
    SmallDicts dicts ∧ ops.length < 2 ^ 32 := by
  obtain ⟨hsmall, hbig⟩ := readSections_bytes hx laid hcap henv
  have hdicts : SmallDicts dicts := by
    by_contra hn
    obtain ⟨e, he⟩ := hbig hn
    rw [he] at hs
    cases hs
  refine ⟨hdicts, ?_⟩
  by_contra hn
  rw [hsmall hdicts] at hs
  cases hdec : decompress x (headerOf c env compressed signing) (ops.take (ops.length % 2 ^ 32)) with
  | error =>
    rw [hdec] at hs
    cases hs
  | ok out' =>
    rw [hdec] at hs
    have hpair : (toRead dicts, out') = (ds, out) := ok.inj hs
    cases hpair
    -- the op stream was cut, so decoding it stops
    obtain ⟨hpre, hne⟩ := (decompress_found hx laid).2 hn out hdec
    obtain ⟨-, -, hread⟩ := encodeOps_spec build laid.opStream
    have hbound := laid.opsBound
    have hflakes := (hread dicts (Continues.rfl _) hdicts.complete (by omega)).1 c.t hx.lexical
    obtain ⟨e, he⟩ := hflakes.short out hpre hne
    have hopCount : (headerOf c env compressed signing).opCount = c.flakes.length :=
      mod_eq_of_lt hcount
    obtain ⟨_, -, hd⟩ := bind_eq_ok.1 hd
    obtain ⟨_, hr, -⟩ := bind_eq_ok.1 hd
    rw [hopCount] at hr
    cases he.symm.trans hr

end Results

/-- **A written commit comes back from all three readers exactly when it is readable.** -/
theorem readable_iff (hx : Lawful x) (legacy : LegacyV3 x) {c : Commit x.Cid (Flake x)}
    {compress : Bool} {signing : Option (x.SigningKey × String)} {bytes : List UInt8}
    (hm : ∀ f ∈ c.flakes, f.m ≠ some ⟨none, none⟩)
    (hw : writeCommit x w c compress signing = .ok bytes) (hcap : bytes.length ≤ build.limit)
    (hroom : c.flakes.length ≤ build.limit) :
    ComesBack x build legacy c bytes ↔ Readable x w c compress := by
  obtain ⟨env, _, _, _, _, _, laid⟩ := writeCommit_laid hw
  constructor
  · intro hback
    obtain ⟨c', hc', -, hflakes', -⟩ := hback.commit
    have hdispatch : readCommit x build legacy bytes = readCommitV4 x build bytes :=
      bind_of_ok (detectVersion_bytes laid)
    -- the steps of the full reader, all of which succeeded
    rw [hdispatch, readCommitV4, bind_of_ok (readHeader_bytes hx laid),
      bind_of_ok (bodyEnd_bytes hx laid)] at hc'
    obtain ⟨_, _, hc'⟩ := bind_eq_ok.1 hc'
    obtain ⟨_, he, hc'⟩ := bind_eq_ok.1 hc'
    obtain ⟨⟨_, _⟩, hs, hc'⟩ := bind_eq_ok.1 hc'
    obtain ⟨flakes, hd, hc'⟩ := bind_eq_ok.1 hc'
    have hflakes : flakes = c.flakes := by rw [← hflakes', ← ok.inj hc']
    have hcount : c.flakes.length < 2 ^ 32 := by
      obtain ⟨_, -, hd⟩ := bind_eq_ok.1 hd
      obtain ⟨r, hr, hd⟩ := bind_eq_ok.1 hd
      have hlen := Lib.length_repeatRead hr
      have hr1 : r.1 = flakes := ok.inj hd
      rw [hr1, hflakes] at hlen
      rw [hlen]
      exact mod_lt _ (by norm_num)
    have hshortEnv : ShortTxnSignature c.txnSignature ∧ env.length < 2 ^ 32 := by
      by_contra hn
      obtain ⟨_, herr⟩ := readEnvelope_error hx laid hcap (not_and_or.1 hn)
      rw [herr] at he
      cases he
    obtain ⟨hshort, henv⟩ := hshortEnv
    obtain ⟨hdicts, hops⟩ := sections_of_read hx laid hcap hcount henv hs hd
    obtain ⟨⟨_, hc'', hstored, -⟩, -, loaded, hloaded, hraws⟩ :=
      reads_blob hx laid hcap legacy hroom hshort hcount henv hdicts hops
    refine ⟨hshort, fun f hf => ?_, hcount, fun env' henv' => ?_, fun raw ds' hraw => ?_⟩
    · obtain ⟨_, hc₁, -, hf₁, -⟩ := hback.commit
      obtain rfl := ok.inj (hc₁.symm.trans hc'')
      have hmap : c.flakes.map (Flake.stored c.t) = c.flakes := hstored.symm.trans hf₁
      obtain ⟨_, _, hl', hr', hall⟩ := hback.ops
      obtain rfl := ok.inj (hloaded.symm.trans hl')
      obtain rfl := ok.inj (hraws.symm.trans hr')
      have hsame := forall₂_same.1 (forall₂_map_right_iff.1 hall) f hf
      have hst : f.stored c.t = f := map_inj_left.1 (hmap.trans (map_id' _).symm) f hf
      exact (carried_iff hx (hm f hf)).2 ⟨hst, hsame⟩
    · rw [laid.envelope] at henv'
      rw [← ok.inj henv']
      exact henv
    · rw [laid.opStream] at hraw
      obtain ⟨rfl, rfl⟩ := Prod.ext_iff.1 (ok.inj hraw)
      refine ⟨hdicts, fun ops' z hsec => ?_⟩
      rw [laid.opSection] at hsec
      cases hsec
      exact hops
  · intro hr
    obtain ⟨hdicts, hsecs⟩ := hr.sections _ _ laid.opStream
    obtain ⟨⟨c', hc', hf', hrest⟩, henvelope, loaded, hloaded, hraws⟩ :=
      reads_blob hx laid hcap legacy hroom hr.signature hr.opCount (hr.envelope _ laid.envelope)
        hdicts (hsecs _ _ laid.opSection)
    have hcarried := fun f hf => (carried_iff hx (hm f hf)).1 (hr.flakes f hf)
    have hmap : c.flakes.map (Flake.stored c.t) = c.flakes :=
      (map_congr_left fun f hf => (hcarried f hf).1).trans (map_id' _)
    refine ⟨⟨c', hc', hrest.1, hf'.trans hmap, hrest.2⟩, henvelope, loaded, _, hloaded, hraws, ?_⟩
    exact forall₂_map_right_iff.2 (forall₂_same.2 fun f hf => (hcarried f hf).2)

def signedBy (signer : String) : Commit Unit (Flake plain) where
  id := none
  t := 1
  time := none
  flakes := [⟨none, ⟨1, "a"⟩, ⟨1, "b"⟩, .boolean true, ⟨1, "c"⟩, 1, true, none⟩]
  parents := []
  txn := none
  namespaceDelta := .empty
  txnSignature := some ⟨signer, none⟩
  commitSignatures := []
  txnMeta := []
  graphDelta := .empty
  nsSplitMode := none

lemma ok_of_isSome {ε α : Type} {e : Except ε α} (h : e.toOption.isSome = true) :
    ∃ a, e = .ok a := by
  cases e with
  | ok a => exact ⟨a, rfl⟩
  | error => cases h

lemma of_all_ok {ε α : Type} {e : Except ε α} {p : α → Bool} (h : e.toOption.all p = true) {a : α}
    (ha : e = .ok a) : p a = true := by
  rwa [ha] at h

theorem comesBack_signedBy_k : ∃ bytes,
    writeCommit plain ⟨true, 0⟩ (signedBy "k") false none = .ok bytes ∧
      ∀ legacy, ComesBack plain ⟨true, 2 ^ 20⟩ legacy (signedBy "k") bytes := by
  obtain ⟨bytes, hw⟩ := ok_of_isSome (e := writeCommit plain ⟨true, 0⟩ (signedBy "k")
    false none) (by decide +kernel)
  have hlen := of_all_ok (p := fun bytes => decide (bytes.length ≤ 2 ^ 20)) (by decide +kernel) hw
  refine ⟨bytes, hw, fun legacy => (readable_iff lawful_plain legacy (by simp [signedBy]) hw
    (of_decide_eq_true hlen) (by decide)).2 ⟨?_, ?_, by decide, ?_, ?_⟩⟩
  · rintro _ ⟨⟩
    exact ⟨by decide, nofun⟩
  · intro f hf
    obtain rfl := mem_singleton.1 hf
    exact ⟨rfl, nofun, nofun, nofun⟩
  · intro env henv
    exact of_decide_eq_true (of_all_ok (p := fun env => decide (env.length < 2 ^ 32))
      (by decide +kernel) henv)
  · intro raw dicts hraw
    have hdicts := of_all_ok (p := fun out => out.1.length < 2 ^ 32 ∧
      ∀ d ∈ out.2.toList, d.serialize.length < 2 ^ 32) (by decide +kernel) hraw
    obtain ⟨hops, hdicts⟩ := of_decide_eq_true hdicts
    refine ⟨hdicts, fun ops z hz => ?_⟩
    cases hz
    exact hops

/-- A signer of 257 bytes: `writeCommit` returns a blob that `readCommit` refuses. -/
theorem writeCommit_longSigner : ∃ bytes, writeCommit plain ⟨true, 0⟩
        (signedBy (String.ofList (List.replicate 257 'a'))) false none = .ok bytes ∧
      ∀ legacy, readCommit plain ⟨true, 2 ^ 20⟩ legacy bytes = .error (.error
        (.envelopeDecode "txn_signature signer length 257 exceeds maximum 256")) := by
  obtain ⟨bytes, hw⟩ := ok_of_isSome (e := writeCommit plain ⟨true, 0⟩
    (signedBy (String.ofList (List.replicate 257 'a'))) false none) (by decide +kernel)
  obtain ⟨env, opsRaw, ops, body, dicts, compressed, laid⟩ := writeCommit_laid hw
  refine ⟨bytes, hw, fun legacy => ?_⟩
  have hdispatch : readCommit plain ⟨true, 2 ^ 20⟩ legacy bytes
      = readCommitV4 plain ⟨true, 2 ^ 20⟩ bytes :=
    bind_of_ok (detectVersion_bytes laid)
  have hread := of_all_ok (p := fun bytes =>
    match readCommitV4 plain ⟨true, 2 ^ 20⟩ bytes with
    | .ok _ => false
    | .error e => e = .error (.envelopeDecode
      "txn_signature signer length 257 exceeds maximum 256")) (by decide +kernel) hw
  rw [hdispatch]
  split at hread
  · cases hread
  · rename_i e heq
    rw [heq, of_decide_eq_true hread]

end Fluree.Codec
