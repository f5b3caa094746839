import Fluree.Proof.Commit.Hazards
import Fluree.Proof.Commit.RoundTrip

/-!
# Reading untrusted commits

`DecodesSafely`: no build panics on a blob, and what `readCommitV4` accepts, `forEachOp` reports op
for op. It fails on some blobs; `Sane` says on which, section by section.

The slip that a crafted header reaches: the length of the signature block is compared with the
length of the blob, but the footer is looked for 64 bytes before its start.
-/

namespace Fluree.Codec

open Calm CommitFooter Codec.FlakeValue Except Stop Nat

open Lib (Reader repeatRead Variants Avoids Guarded GuardedReader Then Each Mirrors MirrorsIf
  avoids_ok avoids_error avoids_eq_iff avoids_bind run_bind_eq_ok)

variable {x : External} {build : Build} {room : ℕ} {α β : Type}

/-! ## Two decoders of an op -/

lemma check_ensure (c : Bool) (e : CommitCodecError) (bs : List UInt8) :
    (ensure c e).run bs = .ok ((), bs) ∨
      ∃ e', (ensure c e).run bs = .error e' ∧ ¬ e' = panic := by
  cases c with
  | true => exact .inl rfl
  | false => exact .inr ⟨.error e, rfl, by simp⟩

lemma fail_mirrors (e : CommitCodecError) (q : Dec β) (rel : α → β → Prop) :
    Mirrors (· = panic) (fail e) q rel :=
  fun _ => ⟨fun _ => iff_of_true (avoids_error.2 nofun) trivial, fun _ _ ha => nomatch ha⟩

lemma nsCode_mirrors : Mirrors (· = panic) (decodeNsCode build) (decodeU16 build) Eq :=
  (Mirrors.refl _).bind fun n m hnm => Mirrors.check (check_ensure _ _) fun _ =>
    Mirrors.pure (by rw [hnm])

lemma sid_mirrors (dict : StringDict) :
    Mirrors (· = panic) (decodeSid build dict) (decodeRawSid build dict)
      fun sid r => sid = ⟨r.1, r.2⟩ := by
  refine nsCode_mirrors.bind ?_
  rintro ns _ rfl
  refine (Mirrors.refl _).bind ?_
  rintro id _ rfl
  refine (Mirrors.refl _).bind ?_
  rintro name _ rfl
  exact Mirrors.pure rfl

def decodeRawGraph (build : Build) (dict : StringDict) : Dec (UInt16 × String) := do
  let nsCode ← decodeU16 build
  let id ← decodeId build
  let name ← getGraphName dict id
  pure (nsCode, name)

lemma graph_mirrors (dict : StringDict) :
    Mirrors (· = panic) (decodeGraph build dict) (decodeRawGraph build dict)
      fun g r => g = none ∧ r = (0, "") ∨ g = some ⟨r.1, r.2⟩ := by
  refine nsCode_mirrors.bind ?_
  rintro ns _ rfl
  refine (Mirrors.refl _).bind ?_
  rintro id _ rfl
  by_cases h0 : ns = 0 ∧ id = 0
  · rw [if_pos h0, getGraphName, if_pos h0.2]
    exact Mirrors.pure (.inl ⟨rfl, by rw [h0.1]⟩)
  · rw [if_neg h0]
    refine Mirrors.check (check_ensure _ _) fun id => ?_
    obtain ⟨bs, hid⟩ := id
    have hne : id ≠ 0 := by
      rintro rfl
      cases hid
    rw [getGraphName, if_neg hne]
    refine (Mirrors.refl _).bind ?_
    rintro name _ rfl
    exact Mirrors.pure (.inr rfl)

variable (dicts : ReadDicts)

lemma object_mirrors (tag : OTag) :
    MirrorsIf (· = panic) (Then (decodeRawObject build dicts tag) fun raw _ =>
        raw.panics x build = false)
      (decodeObject x build dicts tag) (decodeRawObject build dicts tag)
      fun o r => tryFrom x r = .ok o := by
  have h : MirrorsIf (· = panic) (Then (decodeRawObject build dicts tag) fun raw _ =>
        raw.panics x build = false)
      (decodeObject x build dicts tag) (decodeRawObject build dicts tag >>= fun r => pure r)
      fun o r => tryFrom x r = .ok o := by
    refine (Mirrors.refl _).bindIf ?_
    rintro raw _ rfl
    cases hp : raw.panics x build with
    | true =>
      exact fun bs => ⟨fun _ => iff_of_false (fun h => h panic rfl rfl) (by simp),
        fun a rest ha => by cases ha⟩
    | false =>
      refine MirrorsIf.congr ?_ fun _ => (iff_of_true trivial rfl : True ↔ _)
      cases hv : tryFrom x raw with
      | ok => exact Mirrors.pure hv
      | error => exact fail_mirrors _ _ _
  rwa [bind_pure] at h

/-- The parser does not panic on the lexical form of the next op, should the flake decoder come to
it. -/
def TextSafe (x : External) (build : Build) : List UInt8 → Prop :=
  Then (decodeGraph build dicts.graph) fun _ => Then (decodeSid build dicts.subject) fun _ =>
    Then (decodeSid build dicts.predicate) fun _ => Then (decodeSid build dicts.datatype) fun _ =>
      Then decodeTag fun tag => Then (decodeRawObject build dicts tag) fun raw _ =>
        raw.panics x build = false

/-- A flake and the raw op that was read from the same bytes. -/
structure OfRaw (t : ℤ) (f : Flake x) (r : RawOp) : Prop where
  graph : f.g = none ∧ (r.gNsCode, r.gName) = (0, "") ∨ f.g = some ⟨r.gNsCode, r.gName⟩
  subject : f.s = ⟨r.sNsCode, r.sName⟩
  predicate : f.p = ⟨r.pNsCode, r.pName⟩
  datatype : f.dt = ⟨r.dtNsCode, r.dtName⟩
  object : tryFrom x r.o = .ok f.o
  t : f.t = t
  op : f.op = r.op
  m : f.m = metaOf r.lang r.i

lemma decodeRawOp_graph : decodeRawOp build dicts = (do
    let (gNsCode, gName) ← decodeRawGraph build dicts.graph
    let (sNsCode, sName) ← decodeRawSid build dicts.subject
    let (pNsCode, pName) ← decodeRawSid build dicts.predicate
    let (dtNsCode, dtName) ← decodeRawSid build dicts.datatype
    let tag ← decodeTag
    let o ← decodeRawObject build dicts tag
    let (op, lang, i) ← decodeTail build
    pure { gNsCode, gName, sNsCode, sName, pNsCode, pName, dtNsCode, dtName, o, op, lang, i }) := by
  simp only [decodeRawOp, decodeRawGraph, bind_assoc, pure_bind]

/-- **The flake decoder reads the bytes of the raw decoder, refuses them, or panics on a lexical
form.** -/
lemma decodeOp_mirrors (t : ℤ) : MirrorsIf (· = panic) (TextSafe dicts x build)
      (decodeOp x build dicts t) (decodeRawOp build dicts) (OfRaw t) := by
  rw [decodeRawOp_graph]
  refine (graph_mirrors dicts.graph).bindIf fun g rg hg => ?_
  refine (sid_mirrors dicts.subject).bindIf fun s rs hs => ?_
  refine (sid_mirrors dicts.predicate).bindIf fun p rp hp => ?_
  refine (sid_mirrors dicts.datatype).bindIf fun dt rdt hdt => ?_
  refine (Mirrors.refl _).bindIf ?_
  rintro tag _ rfl
  refine (object_mirrors dicts tag).bindMirrors fun o ro ho => ?_
  refine (Mirrors.refl _).bind ?_
  rintro tail _ rfl
  exact Mirrors.pure ⟨hg, hs, hp, hdt, ho, rfl, rfl, rfl⟩

lemma metaOf_lang_iff {lang i} : lang = (metaOf lang i).bind (·.lang) ↔
      (i = none → ∀ l, lang = some l → normalizeLangTag l = l) := by
  cases lang with
  | none => cases i <;> simp [metaOf, FlakeMeta.withIndex]
  | some =>
    cases i with
    | none => simp [metaOf, FlakeMeta.withLang, eq_comm]
    | some => simp [metaOf]

lemma metaOf_index (lang : Option String) (i : Option Int32) : i = (metaOf lang i).bind (·.i) := by
  cases lang <;> cases i <;> rfl

/-- The raw op reports its flake unless the graph is named by an empty string in namespace 0, or
the language tag was normalized. -/
lemma sameOp_iff {t : ℤ} {f : Flake x} {r : RawOp} (h : OfRaw t f r) :
    SameOp f r ↔ f.g ≠ some ⟨0, ""⟩ ∧
      (r.i = none → ∀ l, r.lang = some l → normalizeLangTag l = l) := by
  have hgraph : r.graph = f.g ↔ f.g ≠ some ⟨0, ""⟩ := by
    rcases h.graph with ⟨hg, hr⟩ | hg
    · obtain ⟨hns, hname⟩ := Prod.ext_iff.1 hr
      rw [hg, RawOp.graph, if_pos ⟨hns, hname⟩]
      simp
    · rw [hg, RawOp.graph]
      by_cases h0 : r.gNsCode = 0 ∧ r.gName = ""
      · rw [if_pos h0, h0.1, h0.2]
        simp
      · rw [if_neg h0]
        exact iff_of_true rfl fun heq => h0 (Sid.mk.inj (Option.some.inj heq))
  rw [← hgraph, ← metaOf_lang_iff, ← h.m]
  constructor
  · exact fun hs => ⟨hs.graph, hs.lang⟩
  · rintro ⟨hg, hl⟩
    refine ⟨hg, h.subject.symm, h.predicate.symm, h.datatype.symm, h.object, h.op.symm, hl, ?_⟩
    rw [h.m]
    exact metaOf_index _ _

section Plain

variable (room) (dicts : ReadDicts)

/-- An op that does not name its graph by an empty string in namespace 0. -/
def GraphNamed : List UInt8 → Prop :=
  Then (decodeU16 (strictBuild room)) fun ns => Then (decodeId (strictBuild room)) fun id _ =>
    ns = 0 → id ≠ 0 → dicts.graph.get id ≠ .ok ""

/-- An op that both decoders report alike: its graph is named, and a language tag without a list
index is in lower case. -/
def OpPlain (bs : List UInt8) : Prop :=
  GraphNamed room dicts bs ∧ Then (decodeRawOp (strictBuild room) dicts) (fun raw _ =>
    raw.i = none → ∀ l, raw.lang = some l → normalizeLangTag l = l) bs

end Plain

lemma graphNamed_iff {dicts t bs rest f}
    (h : (decodeOp x (strictBuild room) dicts t).run bs = .ok (f, rest)) :
    GraphNamed room dicts bs ↔ f.g ≠ some ⟨0, ""⟩ := by
  obtain ⟨g, r1, hgraph, h⟩ := run_bind_eq_ok.1 h
  have hfg : f.g = g := by
    -- the six fields behind the graph
    iterate 6 obtain ⟨_, _, -, h⟩ := run_bind_eq_ok.1 h
    cases h
    rfl
  rw [hfg]
  obtain ⟨ns, r2, hns, hgraph⟩ := run_bind_eq_ok.1 hgraph
  obtain ⟨id, r3, hid, hgraph⟩ := run_bind_eq_ok.1 hgraph
  obtain ⟨_, hns', rfl⟩ := (nsCode_mirrors bs).2 ns r2 hns
  have hiff : GraphNamed room dicts bs ↔ (ns = 0 → id ≠ 0 → dicts.graph.get id ≠ .ok "") := by
    refine ⟨fun hn => hn ns r2 hns' id r3 hid, fun hn ns' r2' h1 id' r3' h2 => ?_⟩
    cases hns'.symm.trans h1
    cases hid.symm.trans h2
    exact hn
  rw [hiff]
  split at hgraph
  · rename_i h0
    cases hgraph
    exact iff_of_true (fun _ hne => absurd h0.2 hne) (by simp)
  · obtain ⟨_, r4, hne, hgraph⟩ := run_bind_eq_ok.1 hgraph
    obtain ⟨name, r5, hname, hgraph⟩ := run_bind_eq_ok.1 hgraph
    have hne : id ≠ 0 := by
      rintro rfl
      cases hne
    have hget : dicts.graph.get id = .ok name := by
      rw [getName] at hname
      cases hg : dicts.graph.get id with
      | ok =>
        rw [hg] at hname
        cases hname
        rfl
      | error =>
        rw [hg] at hname
        cases hname
    cases hgraph
    rw [hget]
    refine ⟨fun hn heq => ?_, fun hn hns0 _ heq => hn ?_⟩
    · cases Option.some.inj heq
      exact hn rfl hne rfl
    · rw [hns0, ok.inj heq]

/-- **Where the flake decoder accepts ops, the raw decoder reports them alike exactly when they are
plain.** -/
lemma sameOps_iff {dicts : ReadDicts} {t : ℤ} {n : ℕ} {bs rest : List UInt8}
    {flakes : List (Flake x)} {raws : List RawOp}
    (h : (repeatRead (decodeOp x (strictBuild room) dicts t) n).run bs = .ok (flakes, rest))
    (hr : (repeatRead (decodeRawOp (strictBuild room) dicts) n).run bs = .ok (raws, rest)) :
    List.Forall₂ SameOp flakes raws ↔
      Each (decodeRawOp (strictBuild room) dicts) (OpPlain room dicts) n bs := by
  induction n generalizing bs flakes raws with
  | zero =>
    cases h
    cases hr
    exact iff_of_true List.Forall₂.nil trivial
  | succ n ih =>
    obtain ⟨f, r1, hf, h⟩ := run_bind_eq_ok.1 h
    obtain ⟨_, _, hfs, h⟩ := run_bind_eq_ok.1 h
    cases h
    obtain ⟨raw, hraw, hof⟩ := (decodeOp_mirrors dicts t bs).2 f r1 hf
    obtain ⟨_, _, hraw', hr1⟩ := run_bind_eq_ok.1 hr
    obtain ⟨_, _, hraws, hr2⟩ := run_bind_eq_ok.1 hr1
    cases hraw.symm.trans hraw'
    cases hr2
    have hthen : ∀ {P : RawOp → List UInt8 → Prop},
        Then (decodeRawOp (strictBuild room) dicts) P bs ↔ P raw r1 := by
      refine ⟨fun hp => hp raw r1 hraw, fun hp a rest' ha => ?_⟩
      cases hraw.symm.trans ha
      exact hp
    rw [List.forall₂_cons, ih hfs hraws, sameOp_iff hof, ← graphNamed_iff hf, Each, hthen, OpPlain,
      hthen]

/-! ## Sections of a blob -/

section Sections

variable (room) (bytes : List UInt8)

/-- A dictionary whose end is a `usize`, and whose bytes are safe should it lie in its region. -/
def LocationSafe (validEnd : ℕ) (loc : DictLocation) (prevEnd : ℕ) : Prop :=
  loc.offset + loc.len < 2 ^ 64 ∧ (prevEnd ≤ loc.offset → loc.offset + loc.len ≤ validEnd →
    DictSafe room ((bytes.drop loc.offset).take loc.len))

/-- The five dictionaries, each looked at when those before it were loaded. -/
def DictsSafe (footer : CommitFooter) (validStart validEnd : ℕ) : Prop :=
  let d := footer.dicts
  let load := loadOne (strictBuild room) bytes validEnd
  LocationSafe room bytes validEnd d.graph validStart ∧
    ∀ g, load "graph" d.graph validStart = .ok g →
  LocationSafe room bytes validEnd d.subject g.2 ∧
    ∀ s, load "subject" d.subject g.2 = .ok s →
  LocationSafe room bytes validEnd d.predicate s.2 ∧
    ∀ p, load "predicate" d.predicate s.2 = .ok p →
  LocationSafe room bytes validEnd d.datatype p.2 ∧
    ∀ dt, load "datatype" d.datatype p.2 = .ok dt →
  LocationSafe room bytes validEnd d.objectRef dt.2

variable (h : CommitHeader)

def bodyLen : ℕ := bytes.length - if h.hasSigBlock then h.sigBlockLen else 0

def SigFits : Prop := h.hasSigBlock = true → h.sigBlockLen ≤ bytes.length

def footerStart : ℕ := bodyLen bytes h - FOOTER_LEN

def footerBytes : List UInt8 := (bytes.drop (footerStart bytes h)).take FOOTER_LEN

/-- Room for a footer, and safe dictionaries should the ops end before it. -/
def SectionsSafe : Prop :=
  FOOTER_LEN ≤ bodyLen bytes h ∧ ∀ footer,
    readFrom (footerBytes bytes h) = .ok footer →
    envelopeEnd h + footer.opsSectionLen ≤ footerStart bytes h →
      DictsSafe room bytes footer (envelopeEnd h + footer.opsSectionLen) (footerStart bytes h)

/-- The envelope lies in the blob and its bytes are safe. -/
def EnvelopeAtSafe (x : External) (h : CommitHeader) : Prop :=
  envelopeEnd h ≤ bytes.length →
    EnvelopeSafe room x ((bytes.drop HEADER_LEN).take h.envelopeLen)

end Sections

variable {bytes : List UInt8}

variable {start : ℕ} {h hd : CommitHeader} {dicts : ReadDicts} {ops : List UInt8}

lemma slice_ok {stop} (h : start ≤ stop) (h' : stop ≤ bytes.length) :
    slice bytes start stop = .ok ((bytes.drop start).take (stop - start)) := if_pos ⟨h, h'⟩

lemma liftError_avoids (e : Except CommitCodecError α) : Avoids (· = panic) (liftError e) := by
  cases e with
  | ok a => exact avoids_ok a
  | error => exact avoids_error.2 (by simp)

lemma guarded_require {c : Bool} {e : CommitCodecError} {D : Build → Except Stop α} {safe : Prop}
    (hD : c = true → Guarded (builds room) D safe) :
    Guarded (builds room) (fun b => require c e >>= fun _ => D b) (c = true → safe) := by
  cases c with
  | true => exact (hD rfl).congr ⟨fun h _ => h, fun h => h rfl⟩
  | false =>
    exact (Guarded.fixed (avoids_error.2 (by simp [builds]))).congr
      (iff_of_true trivial fun h => nomatch h)

lemma guarded_addUsize (a b : ℕ) :
    Guarded (builds room) (fun build => addUsize build a b) (a + b < 2 ^ 64) := by
  by_cases h : a + b < 2 ^ 64
  · simp only [addUsize, if_pos h]
    exact (Guarded.fixed (avoids_ok _)).congr (iff_of_true trivial h)
  · refine ⟨iff_of_false (fun hav => hav .panic ?_ rfl) h, fun hs => absurd hs h⟩
    rw [addUsize, if_neg h]
    rfl

lemma guarded_subUsize (a b : ℕ) :
    Guarded (builds room) (fun build => subUsize build a b) (b ≤ a) := by
  by_cases h : b ≤ a
  · simp only [subUsize, if_pos h]
    exact (Guarded.fixed (avoids_ok _)).congr (iff_of_true trivial h)
  · refine ⟨iff_of_false (fun hav => hav .panic ?_ rfl) h, fun hs => absurd hs h⟩
    rw [subUsize, if_neg h]
    rfl

lemma guarded_slice {stop : ℕ} (h : start ≤ stop) (h' : stop ≤ bytes.length)
    {E : Build → List UInt8 → Except Stop α} (safe : List UInt8 → Prop)
    (hE : ∀ data, Guarded (builds room) (fun b => E b data) (safe data)) :
    Guarded (builds room) (fun b => slice bytes start stop >>= E b)
      (safe ((bytes.drop start).take (stop - start))) := by
  rw [slice_ok h h']
  exact hE _

lemma guarded_loadOne {validEnd prevEnd : ℕ} (hend : validEnd ≤ bytes.length) (name : String)
    (loc : DictLocation) :
    Guarded (builds room) (fun b => loadOne b bytes validEnd name loc prevEnd)
      (LocationSafe room bytes validEnd loc prevEnd) := by
  have hstop : ∀ stop, addUsize (strictBuild room) loc.offset loc.len = .ok stop ↔
      loc.offset + loc.len < 2 ^ 64 ∧ loc.offset + loc.len = stop := by
    intro stop
    rw [addUsize]
    split
    · exact ⟨fun h => ⟨by assumption, ok.inj h⟩, fun h => by rw [h.2]⟩
    · exact ⟨fun h => (nomatch h), fun h => absurd h.1 (by assumption)⟩
  refine ((guarded_addUsize loc.offset loc.len).bind (w := fun stop =>
    prevEnd ≤ loc.offset → stop ≤ validEnd →
      DictSafe room ((bytes.drop loc.offset).take (stop - loc.offset))) fun stop h => ?_).congr ?_
  · obtain ⟨-, rfl⟩ := (hstop stop).1 h
    refine (guarded_require fun _ => guarded_require fun hle => guarded_slice (le_add_right _ _)
      (le_trans (of_decide_eq_true hle) hend) (DictSafe room) fun data =>
        (guarded_dict data).bind_fixed fun _ => avoids_ok _).congr ?_
    simp only [decide_eq_true_eq]
  · refine and_congr_right fun hlt => ⟨fun h => ?_, fun h stop hs => ?_⟩
    · have := h _ ((hstop _).2 ⟨hlt, rfl⟩)
      rwa [Nat.add_sub_cancel_left] at this
    · obtain ⟨-, rfl⟩ := (hstop stop).1 hs
      rw [Nat.add_sub_cancel_left]
      exact h

lemma guarded_loadDicts {validStart validEnd} (hend : validEnd ≤ bytes.length)
    (footer : CommitFooter) :
    Guarded (builds room) (fun b => loadDicts b bytes footer validStart validEnd)
      (DictsSafe room bytes footer validStart validEnd) := by
  refine (guarded_loadOne hend "graph" _).bind fun g _ => ?_
  refine (guarded_loadOne hend "subject" _).bind fun s _ => ?_
  refine (guarded_loadOne hend "predicate" _).bind fun p _ => ?_
  refine (guarded_loadOne hend "datatype" _).bind fun dt _ => ?_
  exact (guarded_loadOne hend "object_ref" _).bind_fixed fun o => avoids_ok _

lemma bodyLen_le (bytes : List UInt8) (h : CommitHeader) : bodyLen bytes h ≤ bytes.length :=
  sub_le _ _

lemma decompress_avoids (h : CommitHeader) (ops : List UInt8) :
    Avoids (· = panic) (decompress x h ops) := by
  rw [decompress]
  split
  · cases x.zstdDecode ops with
    | ok out => exact avoids_ok out
    | error => exact avoids_error.2 (by simp)
  · exact avoids_ok ops

lemma guarded_behindFooter (x : External) (h : CommitHeader) (footer : CommitFooter)
    (hle : start ≤ bytes.length) : Guarded (builds room) (fun b => do
      let opsEnd := envelopeEnd h + footer.opsSectionLen
      require (opsEnd ≤ start) (.invalidOp "ops section extends into footer")
      let dicts ← loadDicts b bytes footer opsEnd start
      let opsBytes ← slice bytes (envelopeEnd h) opsEnd
      let ops ← decompress x h opsBytes
      pure (dicts, ops))
      (envelopeEnd h + footer.opsSectionLen ≤ start →
        DictsSafe room bytes footer (envelopeEnd h + footer.opsSectionLen) start) := by
  refine (guarded_require fun hops => (guarded_loadDicts hle footer).bind_fixed fun dicts => ?_).congr
    (by rw [decide_eq_true_eq])
  rw [slice_ok (le_add_right _ _) (le_trans (of_decide_eq_true hops) hle)]
  exact avoids_bind.2 ⟨avoids_ok _, fun _ _ =>
    avoids_bind.2 ⟨decompress_avoids h _, fun _ _ => avoids_ok _⟩⟩

/-- **The footer, the dictionaries and the ops are found without a panic exactly when the sections
are safe.** -/
lemma guarded_sections (x : External) (h : CommitHeader) :
    Guarded (builds room) (fun b => readSections x b bytes h (bodyLen bytes h))
      (SectionsSafe room bytes h) := by
  have hle := bodyLen_le bytes h
  have hsub : ∀ start, subUsize (strictBuild room) (bodyLen bytes h) FOOTER_LEN = .ok start ↔
      FOOTER_LEN ≤ bodyLen bytes h ∧ footerStart bytes h = start := by
    intro start
    rw [subUsize]
    split
    · exact ⟨fun hs => ⟨by assumption, ok.inj hs⟩, fun hs => by rw [← hs.2]; rfl⟩
    · exact ⟨fun hs => (nomatch hs), fun hs => absurd hs.1 (by assumption)⟩
  have hlen : FOOTER_LEN ≤ bodyLen bytes h →
      bodyLen bytes h - footerStart bytes h = FOOTER_LEN := by
    intro hfit
    rw [footerStart]
    omega
  refine ((guarded_subUsize _ FOOTER_LEN).bind (w := fun start => ∀ footer,
    readFrom ((bytes.drop start).take (bodyLen bytes h - start)) = .ok footer →
    envelopeEnd h + footer.opsSectionLen ≤ start →
      DictsSafe room bytes footer (envelopeEnd h + footer.opsSectionLen) start)
    fun start hs => ?_).congr ?_
  · obtain ⟨hfit, rfl⟩ := (hsub start).1 hs
    have hstart : footerStart bytes h ≤ bodyLen bytes h := sub_le _ _
    refine guarded_slice hstart hle (fun data => ∀ footer, readFrom data = .ok footer →
      envelopeEnd h + footer.opsSectionLen ≤ footerStart bytes h →
        DictsSafe room bytes footer (envelopeEnd h + footer.opsSectionLen) (footerStart bytes h))
      fun data => ?_
    refine (Guarded.fixed_bind (liftError_avoids _) fun footer _ =>
      guarded_behindFooter x h footer (le_trans hstart hle)).congr ?_
    cases readFrom data with
    | ok =>
      exact forall_congr' fun _ => imp_congr ⟨fun h => (by rw [ok.inj h]),
        fun h => (by rw [ok.inj h]; rfl)⟩ Iff.rfl
    | error => exact iff_of_true (fun _ h => nomatch h) (fun _ h => nomatch h)
  · refine and_congr_right fun hfit => ⟨fun hsafe => ?_, fun hsafe start hs => ?_⟩
    · have := hsafe _ ((hsub _).2 ⟨hfit, rfl⟩)
      rwa [hlen hfit] at this
    · obtain ⟨-, rfl⟩ := (hsub start).1 hs
      rw [hlen hfit]
      exact hsafe

/-! ## The readers of a blob -/

lemma guarded_readEnvelope (x : External) (h : CommitHeader) :
    Guarded (builds room) (fun b => readEnvelope x b bytes h) (EnvelopeAtSafe room bytes x h) := by
  refine (guarded_require fun hle => guarded_slice (le_add_right _ _) (of_decide_eq_true hle)
    (EnvelopeSafe room x) fun data => guarded_envelope x data).congr ?_
  rw [decide_eq_true_eq, Nat.add_sub_cancel_left]
  exact Iff.rfl

lemma bodyEnd_ok (build : Build) (hfit : SigFits bytes h) :
    bodyEnd build bytes h = .ok (bodyLen bytes h) := by
  rw [bodyEnd, bodyLen]
  split
  · have hle := hfit (by assumption)
    rw [bind_of_ok (require_true (decide_eq_true hle) _), subUsize, if_pos hle]
  · rfl

lemma bodyEnd_error (build : Build) (hfit : ¬ SigFits bytes h) :
    bodyEnd build bytes h = .error (.error (.tooSmall bytes.length h.sigBlockLen)) := by
  obtain ⟨hsig, hlt⟩ := Classical.not_imp.1 hfit
  rw [bodyEnd, if_pos hsig, require, if_neg (by simpa using hlt)]
  rfl

lemma guarded_body {E : Build → CommitHeader → ℕ → Except Stop α} {w : CommitHeader → Prop}
    (hE : ∀ h, SigFits bytes h → Guarded (builds room) (fun b => E b h (bodyLen bytes h)) (w h)) :
    Guarded (builds room) (fun b => do
      let h ← readHeader bytes
      let e ← bodyEnd b bytes h
      E b h e) (∀ h, readHeader bytes = .ok h → SigFits bytes h → w h) := by
  refine Guarded.fixed_bind ?_ fun h _ => ?_
  · exact avoids_bind.2 ⟨avoids_require _ _, fun _ _ => liftError_avoids _⟩
  · by_cases hfit : SigFits bytes h
    · simp only [bodyEnd_ok _ hfit]
      exact (hE h hfit).congr ⟨fun hw _ => hw, fun hw => hw hfit⟩
    · simp only [bodyEnd_error _ hfit]
      exact (Guarded.fixed (avoids_error.2 (by simp [builds]))).congr
        (iff_of_true trivial fun hf => absurd hf hfit)

lemma guarded_load (x : External) : Guarded (builds room) (fun b => loadCommitOpsV4 x b bytes)
      (∀ h, readHeader bytes = .ok h → SigFits bytes h → EnvelopeAtSafe room bytes x h ∧
        ∀ e, readEnvelope x (strictBuild room) bytes h = .ok e → SectionsSafe room bytes h) :=
  guarded_body fun h _ => (guarded_readEnvelope x h).bind fun _ _ =>
    (guarded_sections x h).bind_fixed fun _ => avoids_ok _

lemma guarded_readEnvelopeV4 (x : External) :
    Guarded (builds room) (fun b => readCommitEnvelopeV4 x b bytes)
      (∀ h, CommitHeader.readFrom bytes = .ok h → EnvelopeAtSafe room bytes x h) := by
  refine (Guarded.fixed_bind (liftError_avoids _) fun h _ =>
    (guarded_readEnvelope x h).bind_fixed fun _ => avoids_ok _).congr ?_
  cases CommitHeader.readFrom bytes with
  | ok h =>
    exact forall_congr' fun _ => imp_congr ⟨fun h => (by rw [ok.inj h]),
      fun h => (by rw [ok.inj h]; rfl)⟩ Iff.rfl
  | error => exact iff_of_true (fun _ h => nomatch h) (fun _ h => nomatch h)

lemma guarded_nsCode : GuardedDec room decodeNsCode fun bs => ¬ Overlong bs :=
  guarded_field fun _ => (Calm.ensure _ _).bind fun _ => Calm.pure _

/-- A build without overflow checks panics on less. -/
lemma panics_of_strict {raw : RawObject} (h : raw.panics x (strictBuild room) = false) (b : Build) :
    raw.panics x b = false := by
  unfold RawObject.panics at h ⊢
  split at h
  · exact h
  · rw [show x.overflows _ _ = false from h, Bool.and_false]
  · rfl

lemma guarded_tryFrom (raw : RawObject) :
    GuardedDec room (fun b => if raw.panics x b then liftExcept (.error .panic)
      else match tryFrom x raw with
        | .ok v => Pure.pure v
        | .error e => fail (.invalidOp ("Invalid commit: " ++ e)))
      fun _ => raw.panics x (strictBuild room) = false := by
  intro bs
  cases h : raw.panics x (strictBuild room) with
  | true =>
    refine ⟨iff_of_false (fun hav => hav .panic ?_ rfl) (by simp), fun hs => by cases hs⟩
    change (if raw.panics x (strictBuild room) then _ else _ : Dec _).run bs = _
    rw [h]
    rfl
  | false =>
    simp only [panics_of_strict h, Bool.false_eq_true, if_false]
    refine (Guarded.fixed ?_).congr (iff_of_true trivial trivial)
    cases tryFrom x raw with
    | ok v => exact Calm.pure v bs
    | error => exact Calm.fail _ bs

lemma guarded_op (x : External) (dicts : ReadDicts) (t : ℤ) :
    ∃ safe, GuardedDec room (fun b => decodeOp x b dicts t) safe := by
  have hsid : ∀ dict, ∃ safe, GuardedDec room (fun b => decodeSid b dict) safe :=
    fun dict => ⟨_, guarded_nsCode.bind fun _ => guarded_id.bind_fixed fun id =>
      (name dict id).bind fun _ => pure _⟩
  have hgraph : ∃ safe, GuardedDec room (fun b => decodeGraph b dicts.graph) safe := by
    refine ⟨_, guarded_nsCode.bind fun ns => guarded_id.bind_fixed fun id => ?_⟩
    split
    · exact pure none
    · exact (Calm.ensure _ _).bind fun _ => (Calm.name _ id).bind fun _ => Calm.pure _
  have hobject : ∀ tag, GuardedDec room (fun b => decodeObject x b dicts tag) _ :=
    fun tag => (guarded_rawObject dicts tag).bind guarded_tryFrom
  obtain ⟨_, hg⟩ := hgraph
  obtain ⟨_, hs⟩ := hsid dicts.subject
  obtain ⟨_, hp⟩ := hsid dicts.predicate
  obtain ⟨_, hdt⟩ := hsid dicts.datatype
  exact ⟨_, hg.bind fun _ => hs.bind fun _ => hp.bind fun _ => hdt.bind fun _ =>
    GuardedReader.fixed_bind tag fun tag => (hobject tag).bind fun _ => guarded_tail.map _⟩

lemma guarded_withCapacity (n : ℕ) :
    Guarded (builds room) (fun b => withCapacity b n) (n ≤ room) := by
  by_cases h : n ≤ room
  · refine ⟨iff_of_true ?_ h, fun _ b hb => ?_⟩
    · change Avoids _ (withCapacity (strictBuild room) n)
      rw [withCapacity, if_pos (show n ≤ (strictBuild room).limit from h)]
      exact avoids_ok ()
    · exact (if_pos (le_trans h hb)).trans (if_pos h).symm
  · exact ⟨iff_of_false (fun hav => hav .panic (if_neg h) rfl) h, fun hs => absurd hs h⟩

lemma guarded_flakes (x : External) (h : CommitHeader) (dicts : ReadDicts) (ops : List UInt8) :
    Guarded (builds room) (fun b => decodeFlakes x b h dicts ops)
      (h.opCount ≤ room ∧ Avoids (· = panic)
        ((repeatRead (decodeOp x (strictBuild room) dicts h.t) h.opCount).run ops)) := by
  obtain ⟨_, hop⟩ := @guarded_op room x dicts h.t
  refine ((guarded_withCapacity h.opCount).bind fun _ _ =>
    ((hop.repeatRead h.opCount) ops).self.bind_fixed fun _ => avoids_ok _).congr ?_
  refine and_congr_right fun hle => ⟨fun hs => hs () (if_pos hle), fun hs _ _ => hs⟩

lemma readSignatures_avoids (hfit : SigFits bytes h) :
    Avoids (· = panic) (readSignatures bytes h (bodyLen bytes h)) := by
  rw [readSignatures]
  split
  · rename_i hsig
    have hle := hfit hsig
    rw [slice_ok (le_add_right _ _) (by rw [bodyLen, if_pos hsig]; omega)]
    exact avoids_sigBlock _
  · exact avoids_ok _

lemma guarded_commit (x : External) : Guarded (builds room) (fun b => readCommitV4 x b bytes)
      (∀ h, readHeader bytes = .ok h → SigFits bytes h →
        ∀ sigs, readSignatures bytes h (bodyLen bytes h) = .ok sigs →
          EnvelopeAtSafe room bytes x h ∧ ∀ e, readEnvelope x (strictBuild room) bytes h = .ok e →
            SectionsSafe room bytes h ∧
            ∀ r, readSections x (strictBuild room) bytes h (bodyLen bytes h) = .ok r →
              h.opCount ≤ room ∧ Avoids (· = panic)
                ((repeatRead (decodeOp x (strictBuild room) r.1 h.t) h.opCount).run r.2)) := by
  refine guarded_body fun h hfit => Guarded.fixed_bind (readSignatures_avoids hfit) fun sigs _ => ?_
  refine (guarded_readEnvelope x h).bind fun e _ => (guarded_sections x h).bind fun r _ => ?_
  exact (guarded_flakes x h r.1 r.2).bind_fixed fun _ => avoids_ok _

/-! ## Handing out ops -/

/-- Whatever the callback does, the bytes are read as the raw decoder reads them. -/
lemma forEachFrom_mirrors {σ : Type} (dicts : ReadDicts)
    (f : σ → RawOp → Except CommitCodecError σ) (n : ℕ) (st : σ) :
    Mirrors (· = panic) (forEachFrom build dicts f n st)
      (repeatRead (decodeRawOp build dicts) n) fun _ _ => True := by
  induction n generalizing st with
  | zero => exact Mirrors.pure trivial
  | succ n ih =>
    refine (Mirrors.refl _).bind ?_
    rintro op _ rfl
    cases hf : f st op with
    | error e => exact fail_mirrors e _ _
    | ok st' =>
      have h : Mirrors (· = panic) (forEachFrom build dicts f n st' >>= pure)
          (repeatRead (decodeRawOp build dicts) n >>= fun as => pure (op :: as)) fun _ _ => True :=
        (ih st').bind fun _ _ _ => Mirrors.pure trivial
      rwa [bind_pure] at h

lemma rawOps_eq (x : External) (build : Build) (loaded : CommitOps x) :
    rawOps x build loaded = (do
      let (raws, rest) ←
        (repeatRead (decodeRawOp build loaded.dicts) loaded.opCount).run loaded.opsData
      if build.checks && !rest.isEmpty then .error .panic else .ok raws) := by
  rw [rawOps, forEachOp, run_forEachFrom]
  cases (repeatRead (decodeRawOp build loaded.dicts) loaded.opCount).run loaded.opsData with
  | error | ok => rfl

/-! ## Sane blobs -/

def opBytes (bytes : List UInt8) (h : CommitHeader) : List UInt8 :=
  (bytes.drop (envelopeEnd h)).take (Lib.leNat ((bytes.drop (bodyLen bytes h - 4)).take 4))

/-- The capacity that an honest blob asks for: an entry takes a byte at least, so no count is larger
than the blob or its inflated ops. -/
def roomOf (x : External) (bytes : List UInt8) : ℕ :=
  match CommitHeader.readFrom bytes with
  | .error _ => bytes.length
  | .ok h =>
    match decompress x h (opBytes bytes h) with
    | .ok ops => max bytes.length ops.length
    | .error _ => bytes.length

/-- The strict build with the room of the blob. -/
abbrev strictOn (x : External) (bytes : List UInt8) : Build := strictBuild (roomOf x bytes)

/-- **Safe decoding of a blob**: no reader panics in any build with the room of the blob, and what
the full reader accepts, the ops report alike. -/
structure DecodesSafely (x : External) (bytes : List UInt8) : Prop where
  commit : ∀ build, roomOf x bytes ≤ build.limit → readCommitV4 x build bytes ≠ .error .panic
  envelope : ∀ build, roomOf x bytes ≤ build.limit →
    readCommitEnvelopeV4 x build bytes ≠ .error .panic
  load : ∀ build, roomOf x bytes ≤ build.limit → loadCommitOpsV4 x build bytes ≠ .error .panic
  ops : ∀ build, roomOf x bytes ≤ build.limit → ∀ loaded,
    loadCommitOpsV4 x build bytes = .ok loaded →
      ∀ {σ : Type} (f : σ → RawOp → Except CommitCodecError σ) (st : σ),
        forEachOp x build loaded f st ≠ .error .panic
  same : ∀ build, roomOf x bytes ≤ build.limit → ∀ c, readCommitV4 x build bytes = .ok c →
    ∃ loaded raws, loadCommitOpsV4 x build bytes = .ok loaded ∧
      rawOps x build loaded = .ok raws ∧ List.Forall₂ SameOp c.flakes raws

/-- The header, the envelope and the sections of a blob are read. -/
structure Opened (x : External) (bytes : List UInt8) (h : CommitHeader) (dicts : ReadDicts)
    (ops : List UInt8) : Prop where
  header : readHeader bytes = .ok h
  sig : SigFits bytes h
  envelope : ∃ e, readEnvelope x (strictOn x bytes) bytes h = .ok e
  sections : readSections x (strictOn x bytes) bytes h (bodyLen bytes h)
    = .ok (dicts, ops)

/-- What a blob must meet, section by section: safe varints and counts in the envelope; room for the
footer and dictionaries whose ends are numbers of 64 bits, with safe varints and counts; ops with
safe varints that fill their section; as many ops as there is room for, and lexical forms on which
the parser does not panic; and plain ops where the full reader accepts them. -/
structure Sane (x : External) (bytes : List UInt8) : Prop where
  envelope : ∀ h, CommitHeader.readFrom bytes = .ok h →
    EnvelopeAtSafe (roomOf x bytes) bytes x h
  sections : ∀ h e, readHeader bytes = .ok h → SigFits bytes h →
    readEnvelope x (strictOn x bytes) bytes h = .ok e →
      SectionsSafe (roomOf x bytes) bytes h
  ops : ∀ h dicts ops, Opened x bytes h dicts ops →
    Each (decodeRawOp (strictOn x bytes) dicts) (RawOpSafe (roomOf x bytes) dicts)
      h.opCount ops
  filled : ∀ h dicts ops, Opened x bytes h dicts ops → ∀ raws rest,
    (repeatRead (decodeRawOp (strictOn x bytes) dicts) h.opCount).run ops
      = .ok (raws, rest) → rest = []
  count : ∀ h dicts ops sigs, Opened x bytes h dicts ops →
    readSignatures bytes h (bodyLen bytes h) = .ok sigs → h.opCount ≤ roomOf x bytes
  texts : ∀ h dicts ops sigs, Opened x bytes h dicts ops →
    readSignatures bytes h (bodyLen bytes h) = .ok sigs →
      Each (decodeOp x (strictOn x bytes) dicts h.t)
        (TextSafe dicts x (strictOn x bytes)) h.opCount ops
  plain : ∀ h dicts ops sigs flakes rest, Opened x bytes h dicts ops →
    readSignatures bytes h (bodyLen bytes h) = .ok sigs →
    (repeatRead (decodeOp x (strictOn x bytes) dicts h.t) h.opCount).run ops
      = .ok (flakes, rest) →
      Each (decodeRawOp (strictOn x bytes) dicts) (OpPlain (roomOf x bytes) dicts)
        h.opCount ops

lemma opened_of_load {loaded}
    (h : loadCommitOpsV4 x (strictOn x bytes) bytes = .ok loaded) :
    ∃ hd, Opened x bytes hd loaded.dicts loaded.opsData ∧ loaded.opCount = hd.opCount := by
  obtain ⟨hd, hheader, h⟩ := bind_eq_ok.1 h
  by_cases hfit : SigFits bytes hd
  · rw [bind_of_ok (bodyEnd_ok _ hfit)] at h
    obtain ⟨e, he, h⟩ := bind_eq_ok.1 h
    obtain ⟨⟨_, _⟩, hs, h⟩ := bind_eq_ok.1 h
    cases h
    exact ⟨hd, ⟨hheader, hfit, ⟨e, he⟩, hs⟩, rfl⟩
  · rw [bind_of_error (bodyEnd_error _ hfit)] at h
    cases h

lemma Opened.load (h : Opened x bytes hd dicts ops) :
    ∃ loaded, loadCommitOpsV4 x (strictOn x bytes) bytes = .ok loaded ∧
      loaded.dicts = dicts ∧ loaded.opsData = ops ∧ loaded.opCount = hd.opCount := by
  obtain ⟨e, he⟩ := h.envelope
  refine ⟨⟨{ e with t := hd.t }, hd.t, hd.opCount, dicts, ops⟩, ?_, rfl, rfl, rfl⟩
  rw [loadCommitOpsV4, bind_of_ok h.header, bind_of_ok (bodyEnd_ok _ h.sig), bind_of_ok he,
    bind_of_ok h.sections]
  rfl

lemma Opened.commit (h : Opened x bytes hd dicts ops) {sigs}
    (hsigs : readSignatures bytes hd (bodyLen bytes hd) = .ok sigs) {flakes}
    (hf : decodeFlakes x (strictOn x bytes) hd dicts ops = .ok flakes) :
    ∃ c, readCommitV4 x (strictOn x bytes) bytes = .ok c ∧ c.flakes = flakes := by
  obtain ⟨_, he⟩ := h.envelope
  rw [readCommitV4, bind_of_ok h.header, bind_of_ok (bodyEnd_ok _ h.sig), bind_of_ok hsigs,
    bind_of_ok he, bind_of_ok h.sections]
  exact ⟨_, bind_of_ok hf, rfl⟩

lemma opened_of_commit {c} (h : readCommitV4 x (strictOn x bytes) bytes = .ok c) :
    ∃ hd dicts ops sigs, Opened x bytes hd dicts ops ∧
      readSignatures bytes hd (bodyLen bytes hd) = .ok sigs ∧
      decodeFlakes x (strictOn x bytes) hd dicts ops = .ok c.flakes := by
  obtain ⟨hd, hheader, h⟩ := bind_eq_ok.1 h
  by_cases hfit : SigFits bytes hd
  · rw [bind_of_ok (bodyEnd_ok _ hfit)] at h
    obtain ⟨sigs, hsigs, h⟩ := bind_eq_ok.1 h
    obtain ⟨e, he, h⟩ := bind_eq_ok.1 h
    obtain ⟨⟨dicts, ops⟩, hs, h⟩ := bind_eq_ok.1 h
    obtain ⟨_, hf, h⟩ := bind_eq_ok.1 h
    cases h
    exact ⟨hd, dicts, ops, sigs, ⟨hheader, hfit, ⟨e, he⟩, hs⟩, hsigs, hf⟩
  · rw [bind_of_error (bodyEnd_error _ hfit)] at h
    cases h

lemma decodeFlakes_ok {room flakes} :
    decodeFlakes x (strictBuild room) hd dicts ops = .ok flakes ↔ hd.opCount ≤ room ∧ ∃ rest,
      (repeatRead (decodeOp x (strictBuild room) dicts hd.t) hd.opCount).run ops
        = .ok (flakes, rest) := by
  rw [decodeFlakes, withCapacity]
  by_cases hle : hd.opCount ≤ room
  · rw [if_pos (show hd.opCount ≤ (strictBuild room).limit from hle)]
    refine ⟨fun h => ⟨hle, ?_⟩, by rintro ⟨_, rest, h⟩; exact bind_of_ok h⟩
    obtain ⟨_, -, h⟩ := bind_eq_ok.1 h
    obtain ⟨⟨_, rest⟩, hr, hfs⟩ := bind_eq_ok.1 h
    cases hfs
    exact ⟨rest, hr⟩
  · rw [if_neg (show ¬ hd.opCount ≤ (strictBuild room).limit from hle)]
    exact ⟨fun h => (by cases h), fun h => absurd h.1 hle⟩

lemma readFrom_of_readHeader (hh : readHeader bytes = .ok h) :
    CommitHeader.readFrom bytes = .ok h := by
  obtain ⟨_, -, hh⟩ := bind_eq_ok.1 hh
  cases hr : CommitHeader.readFrom bytes with
  | ok =>
    rw [hr] at hh
    rw [ok.inj hh]
  | error =>
    rw [hr] at hh
    cases hh

section Sane

variable (hsane : Sane x bytes)

include hsane

lemma Sane.load_safe : ∀ h, readHeader bytes = .ok h → SigFits bytes h →
    EnvelopeAtSafe (roomOf x bytes) bytes x h ∧
      ∀ e, readEnvelope x (strictOn x bytes) bytes h = .ok e →
        SectionsSafe (roomOf x bytes) bytes h :=
  fun h hh hfit => ⟨hsane.envelope h (readFrom_of_readHeader hh),
    fun e he => hsane.sections h e hh hfit he⟩

lemma Sane.ops_avoid {hd dicts ops} (h : Opened x bytes hd dicts ops) :
    Avoids (· = panic) ((repeatRead (decodeRawOp (strictOn x bytes) dicts)
      hd.opCount).run ops) :=
  (((guarded_rawOp dicts).repeatRead hd.opCount) ops).avoids.2 (hsane.ops hd dicts ops h)

lemma Sane.ops_follow {hd dicts ops}
    (h : Opened x bytes hd dicts ops) (hroom : roomOf x bytes ≤ build.limit) :
    (repeatRead (decodeRawOp build dicts) hd.opCount).run ops
      = (repeatRead (decodeRawOp (strictOn x bytes) dicts) hd.opCount).run ops :=
  (((guarded_rawOp dicts).repeatRead hd.opCount) ops).follows (hsane.ops hd dicts ops h) build hroom

lemma Sane.load_follows (hroom : roomOf x bytes ≤ build.limit) :
    loadCommitOpsV4 x build bytes = loadCommitOpsV4 x (strictOn x bytes) bytes :=
  (guarded_load x).follows hsane.load_safe build hroom

lemma Sane.commit_safe : ∀ h, readHeader bytes = .ok h → SigFits bytes h →
    ∀ sigs, readSignatures bytes h (bodyLen bytes h) = .ok sigs →
      EnvelopeAtSafe (roomOf x bytes) bytes x h ∧
      ∀ e, readEnvelope x (strictOn x bytes) bytes h = .ok e →
        SectionsSafe (roomOf x bytes) bytes h ∧
        ∀ r, readSections x (strictOn x bytes) bytes h (bodyLen bytes h) = .ok r →
          h.opCount ≤ roomOf x bytes ∧ Avoids (· = panic)
            ((repeatRead (decodeOp x (strictOn x bytes) r.1 h.t) h.opCount).run r.2) := by
  intro h hh hfit sigs hsigs
  obtain ⟨henv, hsec⟩ := hsane.load_safe h hh hfit
  refine ⟨henv, fun e he => ⟨hsec e he, fun r hr => ?_⟩⟩
  have hopened : Opened x bytes h r.1 r.2 := ⟨hh, hfit, ⟨e, he⟩, hr⟩
  refine ⟨hsane.count h _ _ sigs hopened hsigs, ?_⟩
  -- where flakes panic, raw ops do, or the parser
  exact ((((decodeOp_mirrors r.1 h.t).repeatRead h.opCount) r.2).1 (hsane.ops_avoid hopened)).2
    (hsane.texts h _ _ sigs hopened hsigs)

lemma Sane.decodesSafely : DecodesSafely x bytes where
  commit := by
    intro b hb
    rw [(guarded_commit x).follows hsane.commit_safe b hb]
    exact avoids_eq_iff.1 ((guarded_commit x).avoids.2 hsane.commit_safe)
  envelope := by
    intro b hb
    rw [(guarded_readEnvelopeV4 x).follows hsane.envelope b hb]
    exact avoids_eq_iff.1 ((guarded_readEnvelopeV4 x).avoids.2 hsane.envelope)
  load := by
    intro b hb
    rw [hsane.load_follows hb]
    exact avoids_eq_iff.1 ((guarded_load x).avoids.2 hsane.load_safe)
  ops := by
    intro b hb loaded hload σ f st hpanic
    rw [hsane.load_follows hb] at hload
    obtain ⟨hd, hopened, hcount⟩ := opened_of_load hload
    have hm := @forEachFrom_mirrors b _ loaded.dicts f hd.opCount st loaded.opsData
    rw [hsane.ops_follow hopened hb] at hm
    rw [forEachOp, hcount] at hpanic
    cases hrun : (forEachFrom b loaded.dicts f hd.opCount st).run loaded.opsData with
    | error e =>
      rw [bind_of_error hrun] at hpanic
      exact (hm.1 (hsane.ops_avoid hopened)).2 trivial e hrun (error.inj hpanic)
    | ok r =>
      obtain ⟨raws, hraws, -⟩ := hm.2 r.1 r.2 hrun
      rw [bind_of_ok hrun] at hpanic
      have hrest := hsane.filled hd _ _ hopened raws r.2 hraws
      dsimp only at hpanic
      rw [hrest] at hpanic
      simp at hpanic
  same := by
    intro b hb c hc
    rw [(guarded_commit x).follows hsane.commit_safe b hb] at hc
    obtain ⟨hd, dicts, ops, sigs, hopened, hsigs, hf⟩ := opened_of_commit hc
    obtain ⟨-, rest, hflakes⟩ := decodeFlakes_ok.1 hf
    obtain ⟨raws, hraws, -⟩ :=
      (((decodeOp_mirrors dicts hd.t).repeatRead hd.opCount) ops).2 c.flakes rest hflakes
    obtain ⟨loaded, hload, rfl, rfl, hcount⟩ := hopened.load
    refine ⟨loaded, raws, (hsane.load_follows hb).trans hload, ?_, ?_⟩
    · have hrest := hsane.filled hd _ _ hopened raws rest hraws
      rw [rawOps_eq, hcount, hsane.ops_follow hopened hb, bind_of_ok hraws, hrest]
      simp
    · exact (sameOps_iff hflakes hraws).2 (hsane.plain hd _ _ sigs _ rest hopened hsigs hflakes)

end Sane

lemma DecodesSafely.sane (hsafe : DecodesSafely x bytes) : Sane x bytes := by
  have hroom := le_refl (roomOf x bytes)
  have hload := (guarded_load x).avoids.1
    (avoids_eq_iff.2 (hsafe.load (strictOn x bytes) hroom))
  have hcommit := (guarded_commit x).avoids.1
    (avoids_eq_iff.2 (hsafe.commit (strictOn x bytes) hroom))
  have hraw : ∀ hd dicts ops, Opened x bytes hd dicts ops →
      (repeatRead (decodeRawOp (strictOn x bytes) dicts) hd.opCount).run ops
        ≠ .error .panic ∧ ∀ raws rest,
      (repeatRead (decodeRawOp (strictOn x bytes) dicts) hd.opCount).run ops
        = .ok (raws, rest) → rest = [] := by
    intro hd dicts ops hopened
    obtain ⟨loaded, hl, rfl, rfl, hcount⟩ := hopened.load
    have hops : rawOps x _ loaded ≠ _ := hsafe.ops _ hroom loaded hl _ []
    rw [rawOps_eq, hcount] at hops
    refine ⟨fun hp => hops (bind_of_error hp), fun raws rest hr => ?_⟩
    rw [bind_of_ok hr] at hops
    by_contra hne
    exact hops (if_pos (by simp [strictBuild, hne]))
  refine ⟨?_, fun h e hh hfit he => (hload h hh hfit).2 e he, fun hd dicts ops hopened => ?_,
    fun hd dicts ops hopened => (hraw hd dicts ops hopened).2, ?_, ?_, ?_⟩
  · exact (guarded_readEnvelopeV4 x).avoids.1
      (avoids_eq_iff.2 (hsafe.envelope (strictOn x bytes) hroom))
  · exact (((guarded_rawOp dicts).repeatRead hd.opCount) ops).avoids.1
      (avoids_eq_iff.2 (hraw hd dicts ops hopened).1)
  · intro hd dicts ops sigs hopened hsigs
    obtain ⟨e, he⟩ := hopened.envelope
    exact (((hcommit hd hopened.header hopened.sig sigs hsigs).2 e he).2 _ hopened.sections).1
  · intro hd dicts ops sigs hopened hsigs
    obtain ⟨e, he⟩ := hopened.envelope
    have havoid :=
      (((hcommit hd hopened.header hopened.sig sigs hsigs).2 e he).2 _ hopened.sections).2
    exact ((((decodeOp_mirrors dicts hd.t).repeatRead hd.opCount) ops).1
      (avoids_eq_iff.2 (hraw hd dicts ops hopened).1)).1 havoid
  · intro hd dicts ops sigs flakes rest hopened hsigs hflakes
    obtain ⟨e, he⟩ := hopened.envelope
    have hcount :=
      (((hcommit hd hopened.header hopened.sig sigs hsigs).2 e he).2 _ hopened.sections).1
    obtain ⟨c, hc, rfl⟩ := hopened.commit hsigs (decodeFlakes_ok.2 ⟨hcount, rest, hflakes⟩)
    obtain ⟨loaded, raws, hl, hr, hsame⟩ := hsafe.same _ hroom c hc
    obtain ⟨_, hl', rfl, rfl, hn⟩ := hopened.load
    obtain rfl := ok.inj (hl.symm.trans hl')
    obtain ⟨raws', hraws, -⟩ :=
      (((decodeOp_mirrors loaded.dicts hd.t).repeatRead hd.opCount) loaded.opsData).2 _ rest hflakes
    rw [rawOps_eq, hn, bind_of_ok hraws, (hraw hd _ _ hopened).2 raws' rest hraws] at hr
    obtain rfl : raws' = raws := by simpa using hr
    exact (sameOps_iff hflakes hraws).1 hsame

/-- A blob of 96 bytes: flag and length announce a signature block of 40 bytes, so the footer would
start before the blob. -/
def shortBody : List UInt8 :=
  MAGIC ++ [4, 2, 0, 0, 0, 0, 0, 0, 0, 0, 2, 0, 0, 0, 40, 0] ++ List.replicate 12 0 ++ [4, 0]
    ++ List.replicate 62 0

end Fluree.Codec
