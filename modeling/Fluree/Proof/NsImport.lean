import Fluree.Lib.Machine
import Fluree.Proof.NsWriters

/-!
# Readers and writers encode alike

The workers of an import share a table, and each chunk brings the codes that its worker has tracked.
A worker tracks the codes from its own start on; those before must reach the readers without it.

* `ImportingOk.step`: what an import keeps while its workers step in any order.
-/

namespace Fluree.Transact

open Lib Namespaces List Option Machine Importing NamespaceCodes SharedNamespaceAllocator UInt16 Prod WorkerCache

/-! ## Several writers -/

/-- Readers know `code`, or a chunk up to `k` that is not yet committed brings it. -/
def Importing.Covered (s : Importing) (k : ℕ) (code : UInt16) : Prop :=
  (∃ text, s.snapshot.tables.Has code text) ∨
    ∃ j w, j ≤ k ∧ s.done ≤ j ∧ s.workers j = some w ∧ code ∈ w.cache.newCodes

/-- What holds of the worker of chunk `k` all along. -/
structure WorkerOk (s : Importing) (k : ℕ) (w : Worker) : Prop where
  mode : w.cache.splitMode = s.snapshot.nsSplitMode
  known : ∀ text code, w.cache.localCodes.lookup text = some code → Entry s.alloc.inner code text
  newCodes : ∀ code ∈ w.cache.newCodes, code < OVERFLOW ∧ ∃ text, Entry s.alloc.inner code text
  next : w.cache.snapshotNextCode ≤ s.alloc.inner.nextCode
  /-- A code that the worker would not track reaches the readers without it. -/
  cover : ∀ code text, Entry s.alloc.inner code text →
    s.Covered k code ∨ w.cache.snapshotNextCode ≤ code ∧ code < OVERFLOW
  written : ∀ e ∈ w.written,
    Fits (Entry s.alloc.inner) s.snapshot.nsSplitMode e.1 e.2 ∧ s.Covered k e.2.namespaceCode
  phase : ∀ iri text name, w.phase = .reading iri text name ∨ w.phase = .writing iri text name →
    canonicalSplit iri s.snapshot.nsSplitMode = some (text, name)
  busy : w.phase ≠ .idle → s.done ≤ k

/-- What holds of an import all along. -/
structure ImportingOk (s : Importing) : Prop where
  codes : Codes s.alloc.inner
  readers : Readers (Entry s.alloc.inner) s.snapshot s.store
  mode : s.alloc.mode = s.snapshot.nsSplitMode
  published : ∀ code ∈ s.published, ∃ text, s.snapshot.tables.Has code text
  workers : ∀ k w, s.workers k = some w → WorkerOk s k w
  committed : ∀ e ∈ s.committed, Fits s.snapshot.tables.Has s.snapshot.nsSplitMode e.1 e.2

/-- What no step of an import takes back. -/
structure Grows (s s' : Importing) : Prop where
  mode : s'.snapshot.nsSplitMode = s.snapshot.nsSplitMode
  keeps : ∀ code text, Entry s.alloc.inner code text → Entry s'.alloc.inner code text
  new : ∀ code text, Entry s'.alloc.inner code text →
    Entry s.alloc.inner code text ∨ s.alloc.inner.nextCode ≤ code ∧ code < OVERFLOW
  next : s.alloc.inner.nextCode ≤ s'.alloc.inner.nextCode
  covered : ∀ k code, s.Covered k code → s'.Covered k code

variable {s : Importing} {k : ℕ} {w : Worker} {alloc : SharedNamespaceAllocator}

lemma WorkerOk.grows (h : WorkerOk s k w) (hg : Grows s s')
    (hbusy : w.phase ≠ .idle → s'.done ≤ k) : WorkerOk s' k w where
  mode := h.mode.trans hg.mode.symm
  known text code hc := hg.keeps _ _ (h.known text code hc)
  newCodes code hc := (h.newCodes code hc).imp_right fun ⟨text, ht⟩ => ⟨text, hg.keeps _ _ ht⟩
  next := le_trans h.next hg.next
  cover code text hc := by
    rcases hg.new code text hc with hc | ⟨hle, hlt⟩
    · exact (h.cover code text hc).imp_left (hg.covered k code)
    · exact .inr ⟨le_trans h.next hle, hlt⟩
  written e he := by
    rw [hg.mode]
    exact ⟨(h.written e he).1.mono fun _ => hg.keeps _ _, hg.covered k _ (h.written e he).2⟩
  phase := by
    rw [hg.mode]
    exact h.phase
  busy := hbusy

/-- What a look-up does to a worker's cache. -/
structure Tracks (c c' : WorkerCache) (text : String) (code : UInt16) : Prop where
  mode : c'.splitMode = c.splitMode
  next : c'.snapshotNextCode = c.snapshotNextCode
  sub : ∀ x ∈ c.newCodes, x ∈ c'.newCodes
  only : ∀ x ∈ c'.newCodes, x ∈ c.newCodes ∨ x = code ∧ code < OVERFLOW
  mem : c.snapshotNextCode ≤ code → code < OVERFLOW → code ∈ c'.newCodes
  known : ∀ t x, c'.localCodes.lookup t = some x →
    c.localCodes.lookup t = some x ∨ t = text ∧ x = code

lemma tracks_trackCode (c : WorkerCache) (text : String) (code : UInt16) :
    Tracks c (c.trackCode code) text code := by
  rw [trackCode]
  split
  · rename_i hrange
    refine ⟨rfl, rfl, fun x hx => mem_cons_of_mem _ hx, fun x hx => ?_,
      fun _ _ => mem_cons_self, fun _ _ => .inl⟩
    rcases mem_cons.1 hx with rfl | hx
    · exact .inr ⟨rfl, hrange.2⟩
    · exact .inl hx
  · rename_i hrange
    exact ⟨rfl, rfl, fun _ => id, fun _ => .inl, fun hle hlt => absurd ⟨hle, hlt⟩ hrange,
      fun _ _ => .inl⟩

lemma tracks_keep (c : WorkerCache) (text : String) (code : UInt16) :
    Tracks c (c.keep text code) text code := by
  rw [keep]
  split
  · have h := tracks_trackCode { c with localCodes := c.localCodes.insert text code } text code
    refine { h with known := fun t x hx => ?_ }
    rcases h.known t x hx with hx | hx
    · have hx : (c.localCodes.insert text code).lookup t = some x := hx
      rcases KeyedMap.lookup_insert_some hx with ⟨ht, rfl⟩ | ⟨-, hx⟩
      · exact .inr ⟨ht, rfl⟩
      · exact .inl hx
    · exact .inr hx
  · rename_i hge
    exact ⟨rfl, rfl, fun _ => id, fun _ => .inl, fun _ hlt => absurd hlt hge, fun _ _ => .inl⟩

/-- **A worker writes an id** with a code of the shared table. -/
lemma WorkerOk.writes (h : WorkerOk s k w) (hcodes : Codes s.alloc.inner) (hk : s.done ≤ k)
   
    (hsplit : canonicalSplit iri s.snapshot.nsSplitMode = some (text, name))
    (hcode : Entry s.alloc.inner code text) (htracks : Tracks w.cache cache text code)
    (hw : s.workers k = some ⟨cache, .idle, (iri, sidOf code iri name) :: w.written⟩) :
    WorkerOk s k ⟨cache, .idle, (iri, sidOf code iri name) :: w.written⟩ where
  mode := htracks.mode.trans h.mode
  known t x hx := by
    rcases htracks.known t x hx with hx | ⟨rfl, rfl⟩
    · exact h.known t x hx
    · exact hcode
  newCodes x hx := by
    rcases htracks.only x hx with hx | ⟨rfl, hlt⟩
    · exact h.newCodes x hx
    · exact ⟨hlt, text, hcode⟩
  next := htracks.next ▸ h.next
  cover x t hx := htracks.next ▸ h.cover x t hx
  written e he := by
    rcases mem_cons.1 he with rfl | he
    · refine ⟨fits_sidOf hcodes hsplit hcode, ?_⟩
      rw [sidOf, if_neg (hcodes.proper _ _ hcode)]
      rcases h.cover code text hcode with hc | ⟨hle, hlt⟩
      · exact hc
      · exact .inr ⟨k, _, Nat.le_refl k, hk, hw, htracks.mem hle hlt⟩
    · exact h.written e he
  phase _ _ _ hp := by simp at hp
  busy hp := absurd rfl hp

/-- The state after a step of the worker of chunk `k`. -/
def Importing.after (s : Importing) (alloc : SharedNamespaceAllocator) (k : ℕ) (w : Worker) :
    Importing :=
  { s with alloc := alloc }.setWorker k w

lemma workers_after (s : Importing) (alloc : SharedNamespaceAllocator) (k j : ℕ) (w : Worker) :
    (s.after alloc k w).workers j = if j = k then some w else s.workers j := by
  simp only [Importing.after, Importing.setWorker, Function.update_apply]

/-- A shared table that has grown by free codes. -/
structure Extends (c c' : NamespaceCodes) : Prop where
  ok : Codes c'
  keeps : ∀ code text, Entry c code text → Entry c' code text
  new : ∀ code text, Entry c' code text → Entry c code text ∨ c.nextCode ≤ code ∧ code < OVERFLOW
  next : c.nextCode ≤ c'.nextCode

lemma Codes.extends_self (h : Codes c) : Extends c c :=
  ⟨h, fun _ _ => id, fun _ _ => .inl, le_refl _⟩

lemma Allocates.extends (h : Allocates c text code c') : Extends c c' :=
  ⟨h.ok, h.keeps, fun x y hx => (h.new x y hx).imp_right (·.2), h.next⟩

lemma grows_after (halloc : Extends s.alloc.inner alloc.inner)
    (hsub : ∀ v, s.workers k = some v → ∀ code ∈ v.cache.newCodes, code ∈ w.cache.newCodes) :
    Grows s (s.after alloc k w) := by
  refine ⟨rfl, halloc.keeps, halloc.new, halloc.next, fun i code hc => ?_⟩
  rcases hc with hc | ⟨j, v, hji, hdone, hv, hmem⟩
  · exact .inl hc
  by_cases hjk : j = k
  · subst hjk
    exact .inr ⟨j, w, hji, hdone, by rw [workers_after, if_pos rfl], hsub v hv code hmem⟩
  · exact .inr ⟨j, v, hji, hdone, by rw [workers_after, if_neg hjk]; exact hv, hmem⟩

/-- **One worker steps**: the others keep what they have. -/
lemma ImportingOk.after (h : ImportingOk s) (halloc : Extends s.alloc.inner alloc.inner)
    (hmode : alloc.mode = s.alloc.mode) (hg : Grows s (s.after alloc k w))
    (hw : WorkerOk (s.after alloc k w) k w) : ImportingOk (s.after alloc k w) := by
  refine ⟨halloc.ok, h.readers.mono halloc.keeps, hmode.trans h.mode, h.published,
    fun j v hv => ?_, h.committed⟩
  rw [workers_after] at hv
  split at hv
  · rename_i hjk
    subst hjk
    exact some.inj hv ▸ hw
  · exact (h.workers j v hv).grows hg (h.workers j v hv).busy

/-- When a worker starts, every code reaches the readers without it. -/
def Importing.NoneMissing (s : Importing) (k : ℕ) : Prop :=
  ∀ code text, Entry s.alloc.inner code text → (∃ t, s.snapshot.tables.Has code t) ∨
    ∃ j w, j < k ∧ s.done ≤ j ∧ s.workers j = some w ∧ code ∈ w.cache.newCodes

lemma lookup_new (a : SharedNamespaceAllocator) (text : String) :
    (new a).localCodes.lookup text = a.inner.getCode text := by
  show (a.inner.own.reverse ∪ a.inner.base.elim ∅ (·.reverse)).lookup text = _
  rw [getCode]
  cases hown : a.inner.own.reverse.lookup text with
  | some => exact AList.mem_lookup_union.2 (.inl hown)
  | none =>
    have hnot : text ∉ a.inner.own.reverse := AList.lookup_eq_none.1 hown
    rw [AList.lookup_union_right hnot]
    cases a.inner.base <;> simp

lemma ImportingOk.spawn (h : ImportingOk s) (hmissing : s.NoneMissing k) :
    ImportingOk (s.step (.spawn k)) := by
  rw [step]
  cases hw : s.workers k with
  | some => exact h
  | none =>
    have hg : Grows s (s.after s.alloc k ⟨.new s.alloc, .idle, []⟩) :=
      grows_after h.codes.extends_self fun v hv => by rw [hw] at hv; cases hv
    refine h.after h.codes.extends_self rfl hg ⟨h.mode, fun text code hc => ?_,
      fun _ hc => (nomatch hc), le_refl _, fun code text hc => .inl (hg.covered k code ?_),
      fun _ he => (nomatch he), fun _ _ _ hp => by simp at hp, fun hp => absurd rfl hp⟩
    · rw [lookup_new] at hc
      exact (h.codes.agree _ _).2 hc
    · exact (hmissing code text hc).imp_right
        fun ⟨j, w, hj, hrest⟩ => ⟨j, w, Nat.le_of_lt hj, hrest⟩

/-- **A worker takes a step of its own**, with the shared table it leaves behind. -/
lemma ImportingOk.replace (h : ImportingOk s) (halloc : Extends s.alloc.inner alloc.inner)
    (hmode : alloc.mode = s.alloc.mode) (hw : s.workers k = some w)
    (hsub : ∀ code ∈ w.cache.newCodes, code ∈ w'.cache.newCodes)
    (hok : WorkerOk (s.after alloc k w') k w → WorkerOk (s.after alloc k w') k w') :
    ImportingOk (s.after alloc k w') := by
  have hg : Grows s (s.after alloc k w') := by
    refine grows_after halloc fun v hv => ?_
    rw [hw] at hv
    exact some.inj hv ▸ hsub
  have hold := h.workers k w hw
  exact h.after halloc hmode hg (hok (hold.grows hg hold.busy))

lemma ImportingOk.ask (h : ImportingOk s) (k : ℕ) (iri : String) :
    ImportingOk (s.step (.ask k iri)) := by
  rw [step]
  cases hw : s.workers k with
  | none => exact h
  | some w =>
    have hold := h.workers k w hw
    show ImportingOk (if s.done ≤ k ∧ w.phase = .idle then s.setWorker k (w.ask iri) else s)
    by_cases hidle : s.done ≤ k ∧ w.phase = .idle
    · rw [if_pos hidle, Worker.ask]
      cases hsplit : canonicalSplit iri w.cache.splitMode with
      | none => exact h.replace h.codes.extends_self rfl hw (fun _ => id) id
      | some cut =>
        obtain ⟨text, _⟩ := cut
        rw [hold.mode] at hsplit
        cases hlocal : w.cache.localCodes.lookup text with
        | some code =>
          have htracks := tracks_trackCode w.cache text code
          simp only [hlocal, hidle.2]
          exact h.replace h.codes.extends_self rfl hw htracks.sub fun hok =>
            hok.writes h.codes hidle.1 hsplit (hold.known _ _ hlocal) htracks
              (by rw [workers_after, if_pos rfl])
        | none =>
          simp only [hlocal]
          refine h.replace h.codes.extends_self rfl hw (fun _ => id) fun hok =>
            { hok with phase := fun i t n hp => ?_, busy := fun _ => hidle.1 }
          simp only [Phase.reading.injEq, reduceCtorEq, or_false] at hp
          obtain ⟨rfl, rfl, rfl⟩ := hp
          exact hsplit
    · rw [if_neg hidle]
      exact h

lemma ImportingOk.read (h : ImportingOk s) (k : ℕ) : ImportingOk (s.step (.read k)) := by
  rw [step]
  cases hw : s.workers k with
  | none => exact h
  | some w =>
    have hold := h.workers k w hw
    cases hphase : w.phase with
    | idle | writing => simpa only [hphase] using h
    | reading iri text name =>
      have hsplit := hold.phase iri text name (.inl hphase)
      have hbusy := hold.busy (by rw [hphase]; exact Phase.noConfusion)
      simp only [hphase]
      cases hcode : s.alloc.inner.getCode text with
      | some =>
        exact h.replace h.codes.extends_self rfl hw (tracks_keep _ _ _).sub fun hok =>
          hok.writes h.codes hbusy hsplit ((h.codes.agree _ _).2 hcode) (tracks_keep _ _ _)
            (by rw [workers_after, if_pos rfl]; rfl)
      | none =>
        refine h.replace h.codes.extends_self rfl hw (fun _ => id) fun hok =>
          { hok with phase := fun i t n hp => ?_, busy := fun _ => hbusy }
        simp only [Phase.writing.injEq, reduceCtorEq, false_or] at hp
        obtain ⟨rfl, rfl, rfl⟩ := hp
        exact hsplit

lemma writeLocked_eq (a : SharedNamespaceAllocator) (text : String) :
    a.writeLocked text =
      ((getOrAllocate a.inner text).1, { a with inner := (getOrAllocate a.inner text).2 }) := by
  rw [writeLocked]
  cases hcode : a.inner.getCode text with
  | some => simp [getOrAllocate, allocatePrefix, hcode]
  | none => rfl

lemma ImportingOk.write (h : ImportingOk s)
    (hroom : ∀ w iri text name, s.workers k = some w → w.phase = .writing iri text name →
      HasRoom s.alloc.inner text) : ImportingOk (s.step (.write k)) := by
  rw [step]
  cases hw : s.workers k with
  | none => exact h
  | some w =>
    have hold := h.workers k w hw
    cases hphase : w.phase with
    | idle | reading => simpa only [hphase] using h
    | writing iri text name =>
      have hsplit := hold.phase iri text name (.inr hphase)
      have hbusy := hold.busy (by rw [hphase]; exact Phase.noConfusion)
      have halloc := h.codes.getOrAllocate (hroom w iri text name hw hphase)
      have hextends : Extends s.alloc.inner
          ({ s.alloc with inner := (getOrAllocate s.alloc.inner text).2 } :
            SharedNamespaceAllocator).inner := halloc.extends
      simp only [hphase, writeLocked_eq]
      exact h.replace hextends rfl hw (tracks_keep _ _ _).sub fun hok =>
        hok.writes halloc.ok hbusy hsplit halloc.entry (tracks_keep _ _ _)
          (by rw [workers_after, if_pos rfl]; rfl)

/-- **A chunk is committed**: its new codes reach the readers, and with them all it wrote. -/
lemma ImportingOk.commitChunk (h : ImportingOk s) (hw : s.workers s.done = some w)
    (hidle : w.phase = .idle) : ImportingOk (s.commitChunk w) := by
  have hold := h.workers s.done w hw
  have hdelta : ∀ e ∈ s.alloc.lookupCodes (s.unpublished w.cache.newCodes),
      Entry s.alloc.inner e.1 e.2 := by
    intro e he
    obtain ⟨code, -, he⟩ := mem_filterMap.1 he
    obtain ⟨text, ht, rfl⟩ := map_eq_some_iff.1 he
    exact ht
  obtain ⟨t, t', hok, hreaders, hsub, hmem⟩ := h.readers.publish h.codes.oneToOne hdelta
  have hnew : ∀ code ∈ w.cache.newCodes, ∃ text, t.Has code text := by
    intro code hcode
    obtain ⟨hlt, text, ht⟩ := hold.newCodes code hcode
    by_cases hpub : code ∈ s.published
    · obtain ⟨x, hx⟩ := h.published code hpub
      exact ⟨x, hsub _ _ hx⟩
    · refine ⟨text, hmem (code, text) (mem_filterMap.2 ⟨code, ?_, ?_⟩)⟩
      · exact mem_filter.2 ⟨hcode, by simpa using ⟨hlt, hpub⟩⟩
      · exact map_eq_some_iff.2 ⟨text, ht, rfl⟩
  simp only [Importing.commitChunk, hok]
  have hcovered : ∀ code, s.Covered s.done code → ∃ text, t.Has code text := by
    rintro code (⟨x, hx⟩ | ⟨j, v, hj, hdone, hv, hcode⟩)
    · exact ⟨x, hsub _ _ hx⟩
    · obtain rfl : j = s.done := by omega
      rw [hw] at hv
      exact hnew code (some.inj hv ▸ hcode)
  have hg : Grows s { s with
      snapshot := { s.snapshot with tables := t }, store := { s.store with tables := t' },
      published := s.unpublished w.cache.newCodes ++ s.published, done := s.done + 1,
      committed := w.written ++ s.committed } := by
    refine ⟨rfl, fun _ _ => id, fun _ _ => .inl, le_refl _, fun k code hc => ?_⟩
    rcases hc with ⟨x, hx⟩ | ⟨j, v, hjk, hdone, hv, hcode⟩
    · exact .inl ⟨x, hsub _ _ hx⟩
    by_cases hj : j = s.done
    · subst hj
      rw [hw] at hv
      exact .inl (hnew code (some.inj hv ▸ hcode))
    · exact .inr ⟨j, v, hjk, (by omega : s.done + 1 ≤ j), hv, hcode⟩
  refine ⟨h.codes, hreaders, h.mode, fun code hcode => ?_, fun k v hv => ?_, fun e he => ?_⟩
  · rcases mem_append.1 hcode with hcode | hcode
    · exact hnew code (mem_of_mem_filter hcode)
    · obtain ⟨x, hx⟩ := h.published code hcode
      exact ⟨x, hsub _ _ hx⟩
  · refine (h.workers k v hv).grows hg fun hbusy => ?_
    have hk := (h.workers k v hv).busy hbusy
    have hne : k ≠ s.done := by
      rintro rfl
      rw [hw] at hv
      exact hbusy (some.inj hv ▸ hidle)
    exact (by omega : s.done + 1 ≤ k)
  · rcases mem_append.1 he with he | he
    · obtain ⟨hfits, hc⟩ := hold.written e he
      obtain ⟨x, hx⟩ := hcovered _ hc
      refine hfits.mono fun text htext => ?_
      rw [h.codes.oneToOne.text_eq htext (hreaders.within.sub hx)]
      exact hx
    · exact (h.committed e he).mono fun _ => hsub _ _

/-- A code is free if the act needs one, and no worker starts from a table whose new codes only
later chunks bring. -/
def Importing.Safe (s : Importing) : ImportAct → Prop
  | .spawn k => s.NoneMissing k
  | .write k => ∀ w iri text name, s.workers k = some w → w.phase = .writing iri text name →
      HasRoom s.alloc.inner text
  | _ => True

lemma ImportingOk.step (h : ImportingOk s) (act : ImportAct) (hsafe : s.Safe act) :
    ImportingOk (s.step act) := by
  cases act with
  | spawn => exact h.spawn hsafe
  | ask k iri => exact h.ask k iri
  | read k => exact h.read k
  | write => exact h.write hsafe
  | commit =>
    rw [Importing.step]
    cases hw : s.workers s.done with
    | none => exact h
    | some w =>
      show ImportingOk (if w.phase = .idle then s.commitChunk w else s)
      by_cases hidle : w.phase = .idle
      · rw [if_pos hidle]
        exact h.commitChunk hw hidle
      · rw [if_neg hidle]
        exact h

/-- A ledger at rest, before an import's first worker starts. -/
structure Importing.Start (s : Importing) : Prop where
  sound : Sound s.snapshot.tables
  tables : s.store.tables = s.snapshot.tables
  mode : s.store.nsSplitMode = s.snapshot.nsSplitMode
  alloc : (NamespaceRegistry.fromDb s.snapshot).bind fromRegistry = some s.alloc
  published : ∀ code ∈ s.published, ∃ text, s.snapshot.tables.Has code text
  workers : ∀ k, s.workers k = none
  committed : s.committed = []

lemma fromRegistry_mode
    (h : fromRegistry r = some a) : a.inner = r.codes ∧ a.mode = r.splitMode := by
  obtain ⟨_, hb, rfl⟩ := map_eq_some_iff.1 h
  exact ⟨rfl, NsSplitMode.fromByte_of_toByte hb⟩

lemma Importing.Start.ok (h : s.Start) : ImportingOk s := by
  have halloc := h.alloc
  rw [fromDb_of_sound _ h.sound, bind_some] at halloc
  obtain ⟨hinner, hmode⟩ := fromRegistry_mode halloc
  refine ⟨?_, ?_, hmode, h.published, fun k w hw => ?_, ?_⟩
  · rw [hinner]; exact h.sound.codes
  · rw [hinner]; exact h.sound.readers h.tables h.mode
  · rw [h.workers k] at hw
    cases hw
  · rw [h.committed]; exact fun _ he => nomatch he

/-! ## Runs -/

/-- Every id in `early` is the one that readers compute, and among all ids committed it belongs to
its IRI alone. -/
def Encoded (snapshot : LedgerSnapshot) (store : BinaryIndexStore)
    (early committed : List (String × Sid)) : Prop :=
  ∀ e ∈ early, ReadAs snapshot store e.1 e.2 ∧
    e ∈ committed ∧ ∀ e' ∈ committed, e.1 = e'.1 ↔ e.2 = e'.2

lemma Readers.encoded {r : UInt16 → String → Prop} {snapshot store} (h : Readers r snapshot store) {early committed}
    (hearly : early ⊆ committed)
    (hfits : ∀ e ∈ committed, Fits snapshot.tables.Has snapshot.nsSplitMode e.1 e.2) :
    Encoded snapshot store early committed := by
  intro e he
  have hread := h.readAs (hfits e (hearly he))
  refine ⟨hread, hearly he, fun e' he' => ⟨fun hiri => ?_, fun hsid => ?_⟩⟩
  · have hread' := h.readAs (hfits e' he')
    exact some.inj (hread.encodeIri.symm.trans (hiri ▸ hread'.encodeIri))
  · have hread' := h.readAs (hfits e' he')
    exact some.inj (hread.decodeSid.symm.trans (hsid ▸ hread'.decodeSid))

lemma committed_subset_step (s : Writing) (act : WriteAct) :
    s.committed ⊆ (s.step act).committed := by
  intro e he
  cases act with
  | begin | sidForIri => rw [Writing.step]; split <;> exact he
  | commit =>
    simp only [Writing.step]
    split
    · exact mem_append_right _ he
    · exact he

lemma committed_subset_importStep (s : Importing) (act : ImportAct) :
    s.committed ⊆ (s.step act).committed := by
  intro e he
  cases act with
  | commit =>
    simp only [step, commitChunk]
    repeat' split
    all_goals first | exact he | exact mem_append_right _ he
  | _ =>
    simp only [step]
    repeat' split
    all_goals exact he

/-- **Readers and writers encode alike.** Let a writer, or the workers of an import, start over a
ledger whose table is sound, and let every act find a free code if it needs one; let no worker start
while a code is known to the shared table that neither readers know nor earlier chunks bring. Then
from the commit on, and in every later state, readers compute for an IRI the id that was written,
get the IRI back from it, and no two IRIs share an id. -/
theorem readers_agree (n m : ℕ) (hnm : n ≤ m) :
    (∀ (start : Writing) (acts : List WriteAct), start.Start →
      (∀ n act, acts[n]? = some act → (stateAt Writing.step start acts n).HasRoom act) →
      Encoded (stateAt Writing.step start acts m).snapshot (stateAt Writing.step start acts m).store
        (stateAt Writing.step start acts n).committed
        (stateAt Writing.step start acts m).committed) ∧
    (∀ (start : Importing) (acts : List ImportAct), start.Start →
      (∀ n act, acts[n]? = some act → (stateAt step start acts n).Safe act) →
      Encoded (stateAt step start acts m).snapshot (stateAt step start acts m).store
        (stateAt step start acts n).committed (stateAt step start acts m).committed) := by
  constructor
  · intro start acts hstart hroom
    have hok := invariant WritingOk Writing.HasRoom hstart.ok
      (fun s act hs hact => hs.step act hact) hroom m
    refine hok.readers.encoded ?_ hok.committed
    exact persists
      (P := fun s : Writing => (stateAt Writing.step start acts n).committed ⊆ s.committed) hnm
      (fun _ => id) fun _ _ _ _ _ h => List.Subset.trans h (committed_subset_step _ _)
  · intro start acts hstart hsafe
    have hok := invariant ImportingOk Importing.Safe hstart.ok
      (fun s act hs hact => hs.step act hact) hsafe m
    refine hok.readers.encoded ?_ hok.committed
    exact persists
      (P := fun s : Importing => (stateAt step start acts n).committed ⊆ s.committed) hnm
      (fun _ => id) fun _ _ _ _ _ h => List.Subset.trans h (committed_subset_importStep _ _)

/-! ## The last code is taken -/

def tablesOf (more : List (UInt16 × String)) : NsTables :=
  (builtinNamespaces ++ more).foldl (fun t e => t.insert e.1 e.2) .empty

lemma sound_tablesOf (hcodes : ((builtinNamespaces ++ more).map fst).Nodup)
    (htexts : ((builtinNamespaces ++ more).map snd).Nodup)
    (hproper : OVERFLOW ∉ more.map fst) : Sound (tablesOf more) := by
  have hr : OneToOne fun code text => (code, text) ∈ builtinNamespaces ++ more :=
    ⟨fun h h' => congrArg snd (inj_on_of_nodup_map hcodes h h' rfl),
      fun h h' => congrArg fst (inj_on_of_nodup_map htexts h h' rfl)⟩
  have hempty : NsTables.empty.Within fun code text => (code, text) ∈ builtinNamespaces ++ more :=
    ⟨fun _ _ => ⟨(nomatch ·), (nomatch ·)⟩, (nomatch ·)⟩
  have htakes := foldl_insert_takes hr hempty fun _ he => he
  refine ⟨htakes.within.agree, fun e he => htakes.mem e (mem_append_left _ he), fun text h => ?_⟩
  rcases mem_append.1 (htakes.within.sub h) with h | h
  · exact absurd (mem_map_of_mem h) (by decide : OVERFLOW ∉ builtinNamespaces.map fst)
  · exact hproper (mem_map_of_mem h)

/-- A ledger at rest over given tables. -/
def atRest (tables : NsTables) : Writing where
  snapshot := ⟨tables, .mostGranular⟩
  store := ⟨tables, .mostGranular⟩
  registry := ⟨layered tables, .mostGranular⟩
  pending := []
  committed := []

lemma Sound.atRest (h : Sound t) : (atRest t).Start :=
  ⟨h, rfl, rfl, fromDb_of_sound _ h, rfl, rfl⟩

lemma sound_genesis : Sound (tablesOf []) := sound_tablesOf (by decide) (by decide) (by decide)

def writeOne : List WriteAct := [.sidForIri "http://new/a", .commit]

def importOne : List ImportAct := [.spawn 0, .ask 0 "http://new/a", .read 0, .write 0, .commit]

/-- An import into a new ledger. -/
def importStart : Importing where
  snapshot := ⟨tablesOf [], .mostGranular⟩
  store := ⟨tablesOf [], .mostGranular⟩
  alloc := ⟨layered (tablesOf []), 0⟩
  published := []
  workers := fun _ => none
  done := 0
  committed := []

lemma importStart_start : importStart.Start := by
  refine ⟨sound_genesis, rfl, rfl, ?_, fun _ h => (nomatch h), fun _ => rfl, rfl⟩
  rw [fromDb_of_sound _ sound_genesis]
  rfl

/-- One id, written in a transaction and by an import. -/
theorem readers_agree_one : ("http://new/a", (⟨USER_START, "a"⟩ : Sid)) ∈
        (stateAt Writing.step (atRest (tablesOf [])) writeOne 2).committed ∧
      Encoded (stateAt Writing.step (atRest (tablesOf [])) writeOne 2).snapshot
        (stateAt Writing.step (atRest (tablesOf [])) writeOne 2).store
        (stateAt Writing.step (atRest (tablesOf [])) writeOne 2).committed
        (stateAt Writing.step (atRest (tablesOf [])) writeOne 2).committed ∧
      ("http://new/a", (⟨USER_START, "a"⟩ : Sid)) ∈
        (stateAt step importStart importOne 5).committed ∧
      Encoded (stateAt step importStart importOne 5).snapshot
        (stateAt step importStart importOne 5).store
        (stateAt step importStart importOne 5).committed
        (stateAt step importStart importOne 5).committed := by
  refine ⟨by decide +kernel, (readers_agree 2 2 (Nat.le_refl 2)).1 _ _ sound_genesis.atRest ?_,
    by decide +kernel, (readers_agree 5 5 (Nat.le_refl 5)).2 _ _ importStart_start ?_⟩
  · rintro (_ | _ | n) act hact
    · obtain rfl := some.inj hact
      exact fun _ _ => .inr (by decide +kernel)
    · obtain rfl := some.inj hact
      trivial
    · cases hact
  · rintro (_ | _ | _ | _ | _ | n) act hact <;> cases hact
    · exact fun code text hc => .inl ⟨text, (congrFun₂ (entry_layered (tablesOf [])) code text).mp hc⟩
    · trivial
    · trivial
    · exact fun _ _ _ _ _ _ => .inr (by decide +kernel)
    · trivial

/-- **Beyond the last code readers and writers differ**: the writer's id has the code `OVERFLOW`,
the readers' id the code `EMPTY`. -/
theorem overflow_not_readAs : (atRest (tablesOf [(0xFFFD, "http://last/")])).Start ∧ ¬ Encoded
        (stateAt Writing.step (atRest (tablesOf [(0xFFFD, "http://last/")])) writeOne 2).snapshot
        (stateAt Writing.step (atRest (tablesOf [(0xFFFD, "http://last/")])) writeOne 2).store
        (stateAt Writing.step (atRest (tablesOf [(0xFFFD, "http://last/")])) writeOne 2).committed
        (stateAt Writing.step (atRest (tablesOf [(0xFFFD, "http://last/")]))
          writeOne 2).committed := by
  refine ⟨(sound_tablesOf (by decide) (by decide) (by decide)).atRest, fun h => ?_⟩
  have hmem : ("http://new/a", (⟨OVERFLOW, "http://new/a"⟩ : Sid)) ∈
      (stateAt Writing.step (atRest (tablesOf [(0xFFFD, "http://last/")]))
        writeOne 2).committed := by decide +kernel
  have hread := (h _ hmem).1.encodeIri
  revert hread
  decide +kernel

end Fluree.Transact
