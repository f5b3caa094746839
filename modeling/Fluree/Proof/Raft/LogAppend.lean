import Fluree.Proof.Raft.LogOpen

/-!
# Appending to the log store

An append removes a leftover header, starts a segment if it has to and writes its frames behind the
last segment. The first two steps leave the entries where they are (`Tidied`); the write adds the
whole batch, or a front part of it if it is interrupted (`write_spec`).

`append_spec`: **an append that goes right behind what the segments hold is done in full, or in
part by a crash**. If it goes anywhere else the frames are written all the same, and read as torn
when the store is opened.
-/

namespace Fluree.Raft.LogStore

open Lib List Option

variable {env : Env}

variable {segs pre : List Seg} {d : Disk} {s : Seg} {entries : List LogEntry} {inner : Inner}

lemma lastIndex_getLast? (h : ∀ s ∈ segs, s.Ok) :
    ((segs.map (Seg.segment env)).filterMap (·.lastIndex)).getLast? =
      (physical segs).getLast?.map (·.logId.index) := by
  induction segs using reverseRecOn with
  | nil => rfl
  | append_singleton _ s ih =>
    have hs := h s (by simp)
    rw [map_append, filterMap_append, physical_append, physical_singleton]
    by_cases hnil : s.entries = []
    · have hseg : (s.segment env).lastIndex = none := if_pos (Seg.next_eq_first_iff.2 hnil)
      rw [hnil, append_nil]
      simpa [hseg] using ih fun t ht => h t (mem_append_left _ ht)
    · have hseg : (s.segment env).lastIndex = some (s.next - 1) :=
        if_neg (mt Seg.next_eq_first_iff.1 hnil)
      obtain ⟨e, he⟩ : ∃ e, s.entries.getLast? = some e := by
        cases hlast : s.entries.getLast? with
        | none => exact absurd (getLast?_eq_none_iff.1 hlast) hnil
        | some e => exact ⟨e, rfl⟩
      have hlast := hs.numbered.last he
      rw [getLast?_append_of_ne_nil _ hnil, he, map_some]
      simp [hseg, Seg.next]
      omega

/-- Operations that leave all entries where they are. -/
structure Tidied (env : Env) (d : Disk) (segs : List Seg) (ops : List DeviceOp) (segs' : List Seg) :
    Prop where
  layout : Layout env segs' [] (applyAll env ops d)
  purged : (applyAll env ops d).lastPurged = d.lastPurged
  physical : physical segs' = physical segs
  locs : segs'.flatMap (Seg.locs env) = segs.flatMap (Seg.locs env)
  safe : (device env).CrashSafe (Stores env d.lastPurged (LogStore.physical segs)) ops d

open Tidied

lemma Tidied.refl (h : Layout env segs [] d) : Tidied env d segs [] segs :=
  ⟨h, rfl, rfl, rfl, h.stores⟩

lemma Tidied.trans
    (h : Tidied env d segs ops segs') (h' : Tidied env (applyAll env ops d) segs' ops' segs'') :
    Tidied env d segs (ops ++ ops') segs'' := by
  refine ⟨?_, ?_, h'.physical.trans h.physical, h'.locs.trans h.locs, h.safe.append ?_⟩
  · rw [applyAll_append]
    exact h'.layout
  · rw [applyAll_append, h'.purged, h.purged]
  · have hsafe := h'.safe
    rw [h.purged, h.physical] at hsafe
    exact hsafe

lemma segment_lastIndex_isNone : (s.segment env).lastIndex.isNone ↔ s.entries = [] := by
  rw [← Seg.next_eq_first_iff, Seg.segment]
  split <;> simp [*]

lemma getLast?_append_singleton {α : Type*} {l : List α} {a b : α} (h : b ∈ (l ++ [a]).getLast?) :
    b = a := by
  rw [getLast?_append_of_ne_nil _ (by simp)] at h
  exact (Option.some.inj h).symm

/-- **A leftover header goes**; what is then last ends where the append starts. -/
lemma popLeftover_spec (h : Layout env segs [] d) {first : ℕ}
    (hcont : ∀ e ∈ (physical segs).getLast?, first = e.logId.index + 1) :
    ∃ segs' ops, popLeftover env first (segs.map (Seg.segment env)) =
        (segs'.map (Seg.segment env), ops.flatMap (device env).durably) ∧
      Tidied env d segs ops segs' ∧ ∀ t ∈ segs'.getLast?, t.next = first := by
  -- a segment with entries that is last ends at the append's index
  have hend : ∀ pre t, Chained (pre ++ [t]) → physical (pre ++ [t]) = physical segs →
      t.entries ≠ [] → t.next = first := by
    intro pre t hc hphys hne
    obtain ⟨e, he⟩ : ∃ e, t.entries.getLast? = some e := by
      cases hlast : t.entries.getLast? with
      | none => exact absurd (getLast?_eq_none_iff.1 hlast) hne
      | some e => exact ⟨e, rfl⟩
    have hmem : e ∈ (physical segs).getLast? := by
      rw [← hphys, physical_append, physical_singleton, getLast?_append_of_ne_nil _ hne, he]
      rfl
    rw [hcont e hmem, Seg.next]
    exact (hc.last.1.numbered.last he).symm
  rcases eq_nil_or_concat segs with rfl | ⟨pre, t, rfl⟩
  · exact ⟨[], [], rfl, refl h, by simp⟩
  rw [concat_eq_append] at h hend ⊢
  have hpop : popLeftover env first ((pre ++ [t]).map (Seg.segment env)) =
      if (t.segment env).lastIndex.isNone && (t.segment env).firstIndex ≠ first then
        (pre.map (Seg.segment env), (device env).durably (.unlink t.first))
      else ((pre ++ [t]).map (Seg.segment env), []) := by
    simp only [popLeftover, map_append, map_cons, map_nil, getLast?_concat,
      dropLast_concat, segment_firstIndex]
  rw [hpop]
  by_cases hnil : t.entries = []
  · by_cases hfirst : t.first = first
    · refine ⟨pre ++ [t], [], by simp [segment_firstIndex, hfirst], refl h, fun u hu => ?_⟩
      rw [getLast?_append_singleton hu, Seg.next, hnil, hfirst]
      rfl
    · have hphys : physical (pre ++ [t]) = physical pre := by
        rw [physical_append, physical_singleton, hnil, append_nil]
      have hun := h.unlinkLast
      have hstores := hun.stores
      rw [← hphys] at hstores
      refine ⟨pre, [.unlink t.first], ?_, ⟨hun, rfl, hphys.symm, ?_, h.stores, fun d' hd' => hd'.elim,
        hstores⟩, fun u hu => ?_⟩
      · simp [segment_lastIndex_isNone.2 hnil, segment_firstIndex, hfirst]
      · simp [flatMap_append, Seg.locs, hnil, locsFrom]
      · obtain ⟨pre', rfl⟩ := getLast?_eq_some_iff.1 hu
        exact hend pre' u hun.chained hphys.symm (h.chained.last.2 u hu).1
  · refine ⟨pre ++ [t], [], ?_, refl h, fun u hu => ?_⟩
    · simp [Bool.eq_false_iff.2 (mt segment_lastIndex_isNone.1 hnil)]
    · rw [getLast?_append_singleton hu]
      exact hend pre t h.chained rfl hnil

/-- **A new segment if the last one is full.** -/
lemma startSegment_spec (h : Layout env segs [] d)
    (hsize : SEGMENT_HEADER < env.segmentBytes) (hfirst : first < 2 ^ 64)
    (hend : ∀ t ∈ segs.getLast?, t.next = first) :
    ∃ pre s ops, (if needsSegment env (segs.map (Seg.segment env)) then
          startSegment env first (segs.map (Seg.segment env)) else (segs.map (Seg.segment env), [])) =
        ((pre ++ [s]).map (Seg.segment env), ops.flatMap (device env).durably) ∧
      Tidied env d segs ops (pre ++ [s]) ∧ s.next = first := by
  by_cases hneeds : needsSegment env (segs.map (Seg.segment env)) = true
  · have hlast : ∀ t ∈ segs.getLast?, t.entries ≠ [] ∧ first = t.next := by
      intro t ht
      refine ⟨fun hnil => ?_, (hend t ht).symm⟩
      -- a segment that holds nothing is not full
      have hlen : env.segmentBytes ≤ (t.bytes env).length := by
        rw [needsSegment, getLast?_map, mem_def.1 ht] at hneeds
        simpa [Seg.segment] using hneeds
      rw [Seg.bytes_length, hnil] at hlen
      simp [encodeFrames] at hlen
      omega
    have hpub := h.publish hfirst hlast
    have hphys : physical (segs ++ [⟨first, []⟩]) = physical segs := by
      rw [physical_append, physical_singleton, append_nil]
    have hstores := hpub.stores
    rw [hphys] at hstores
    refine ⟨segs, ⟨first, []⟩, [.publish first], ?_, ⟨hpub, rfl, hphys, ?_, h.stores,
      fun d' hd' => hd'.elim, hstores⟩, rfl⟩
    · rw [if_pos hneeds]
      simp [startSegment, Seg.segment, Seg.next, Seg.bytes_length, encodeFrames]
    · simp [flatMap_append, Seg.locs, locsFrom]
  · rw [if_neg hneeds]
    rcases eq_nil_or_concat segs with rfl | ⟨pre, t, rfl⟩
    · exact absurd rfl hneeds
    · rw [concat_eq_append] at h hend ⊢
      exact ⟨pre, t, [], rfl, refl h, hend t (by simp)⟩

/-! ## The write -/

def Seg.extend (s : Seg) (entries : List LogEntry) : Seg := ⟨s.first, s.entries ++ entries⟩

open Seg

lemma Seg.extend_bytes (s : Seg) (entries : List LogEntry) :
    (s.extend entries).bytes env = s.bytes env ++ encodeFrames env entries := by
  simp only [bytes, extend, encodeFrames_append, append_assoc]

lemma Seg.extend_next (s : Seg) (entries : List LogEntry) :
    (s.extend entries).next = s.next + entries.length := by
  simp only [Seg.next, Seg.extend, length_append, Nat.add_assoc]

lemma Seg.Ok.extend (h : s.Ok) (hnum : Numbered s.next entries) (hfits : ∀ e ∈ entries, e.Fits) :
    (s.extend entries).Ok := by
  refine ⟨h.first, numbered_append.2 ⟨h.numbered, hnum⟩, fun e he => ?_⟩
  rcases mem_append.1 he with he | he
  · exact h.fits e he
  · exact hfits e he

lemma physical_extend (pre : List Seg) (s : Seg) (entries : List LogEntry) :
    physical (pre ++ [s.extend entries]) = physical (pre ++ [s]) ++ entries := by
  simp only [physical_append, physical_singleton, extend, append_assoc]

lemma Seg.extend_locs (s : Seg) (entries : List LogEntry) :
    (s.extend entries).locs env = s.locs env ++ locsFrom env s.first (s.bytes env).length entries := by
  rw [bytes_length]
  exact locsFrom_append _ _ _ _

lemma Seg.extend_segment (hnum : Numbered s.next entries)
    (hlast : entries.getLast? = some last) : (s.extend entries).segment env =
      { s.segment env with
          len := (s.segment env).len + (encodeFrames env entries).length,
          lastIndex := some last.logId.index } := by
  have hindex := hnum.last hlast
  have hpos : entries ≠ [] := by
    rintro rfl
    cases hlast
  have hlen := length_pos_iff.2 hpos
  have hne : (s.extend entries).next ≠ (s.extend entries).first := by
    rw [Seg.extend_next, Seg.next, Seg.extend]
    simp only
    omega
  rw [Seg.segment, if_neg hne, Seg.extend_next, Seg.extend_bytes, length_append, ← hindex]
  rfl

lemma Reaches.extend (h : Reaches lastPurged (pre ++ [s]))
    (hnew : physical (pre ++ [s]) = [] → ∀ p ∈ lastPurged, ∀ e ∈ entries.head?,
      e.logId.index ≤ p.index + 1) : Reaches lastPurged (pre ++ [s.extend entries]) := by
  intro p hp e he
  rw [physical_extend, head?_append] at he
  cases hhead : (physical (pre ++ [s])).head? with
  | none =>
    rw [hhead, none_or] at he
    exact hnew (head?_eq_none_iff.1 hhead) p hp e he
  | some =>
    rw [hhead, some_or] at he
    exact h p hp e (by rw [hhead]; exact he)

/-- **The write adds the batch, or a front part of it.** -/
lemma write_spec (h : Layout env (pre ++ [s]) [] d) (hne : entries ≠ [])
    (hnum : Numbered s.next entries) (hfits : ∀ e ∈ entries, e.Fits)
    (hnew : physical (pre ++ [s]) = [] → ∀ p ∈ d.lastPurged, ∀ e ∈ entries.head?,
      e.logId.index ≤ p.index + 1) (hop : op = .write s.first (s.bytes env).length entries) :
    Layout env (pre ++ [s.extend entries]) [] ((device env).apply op d) ∧
      ((device env).apply op d).lastPurged = d.lastPurged ∧ (device env).CrashSafe
        (fun d' => ∃ k, Stores env d.lastPurged (physical (pre ++ [s]) ++ entries.take k) d') [op] d := by
  subst hop
  have hs := h.chained.last.1
  have hget : d.segments.get? s.first = some (s.bytes env) := by rw [h.get?_last, append_nil]
  -- any number of frames, and bytes behind them that are not the next one
  have hpart : ∀ k junk, k ≤ entries.length → NoFrame env junk (s.next + k) →
      Layout env (pre ++ [s.extend (entries.take k)]) junk
        { d with segments := d.segments.insert s.first ((s.extend (entries.take k)).bytes env ++ junk) } := by
    intro k junk hk hjunk
    refine h.rewriteLast rfl (hs.extend (hnum.take k) fun e he => hfits e (mem_of_mem_take he)) ?_
      (h.reaches.extend fun hnil p hp e he => hnew hnil p hp e ?_)
    · rwa [extend_next, length_take, Nat.min_eq_left hk]
    · cases entries with
      | nil => simp at he
      | cons =>
        cases k with
        | zero => cases he
        | succ => exact he
  have happly : (device env).apply (.write s.first (s.bytes env).length entries) d =
      { d with segments := d.segments.insert s.first ((s.extend (entries.take entries.length)).bytes env ++ []) } := by
    change DeviceOp.apply env (.write s.first (s.bytes env).length entries) d = _
    simp only [DeviceOp.apply, hget, take_length, extend_bytes, append_nil]
    rw [drop_eq_nil_of_le (Nat.le_add_right _ _), append_nil]
  have hfull := hpart entries.length [] le_rfl (noFrame_nil _)
  rw [← happly] at hfull
  have hpurged : ((device env).apply (.write s.first (s.bytes env).length entries) d).lastPurged =
      d.lastPurged := by rw [happly]
  have hstores := hfull.stores
  rw [hpurged, physical_extend] at hstores
  refine ⟨by rwa [take_length] at hfull, hpurged, ⟨0, ?_⟩, ?_, entries.length, hstores⟩
  · rw [take_zero, append_nil]
    exact h.stores
  · rintro d' ⟨bytes, k, junk, hbytes, hk, hjunk, rfl⟩
    obtain rfl : s.bytes env = bytes := Option.some.inj (hget.symm.trans hbytes)
    have hnext : NoFrame env junk (s.next + k) := by
      cases entries with
      | nil => exact absurd rfl hne
      | cons =>
        rw [← hnum.1]
        exact hjunk
    have hstores := (hpart k junk hk hnext).stores
    rw [physical_extend, extend_bytes] at hstores
    rw [take_length]
    exact ⟨k, hstores⟩

lemma writeEntries_eq (hne : entries ≠ []) (hnum : Numbered s.next entries) :
    writeEntries env inner ((pre ++ [s]).map (Seg.segment env)) entries =
      (.ok { inner with
          segments := (pre ++ [s.extend entries]).map (Seg.segment env),
          index := (locsFrom env s.first (s.bytes env).length entries).foldl
            (fun m l => m.insert l.1 l.2) inner.index },
        (device env).durably (.write s.first (s.bytes env).length entries)) := by
  obtain ⟨last, hlast⟩ : ∃ last, entries.getLast? = some last := by
    cases h : entries.getLast? with
    | none => exact absurd (getLast?_eq_none_iff.1 h) hne
    | some last => exact ⟨last, rfl⟩
  rw [map_append, map_append, map_singleton, map_singleton, extend_segment hnum hlast]
  simp only [writeEntries, getLast?_concat, dropLast_concat, hlast]
  rfl

/-! ## The whole append -/

lemma live_of_promised (h : Loaded env inner d segs) {e : LogEntry}
    (hnum : Numbered e.logId.index entries)
    (hempty : inner.index.entries = [] → ∀ p ∈ inner.lastPurged, e.logId.index = p.index + 1)
    (hgap : ∀ last ∈ inner.index.entries.getLast?, e.logId.index = last.1 + 1) :
    ∀ x ∈ entries, live d.lastPurged x.logId.index := by
  intro x hx
  have hx := (hnum.bounds hx).1
  cases hp : d.lastPurged with
  | none => rfl
  | some p =>
    rw [live_some, decide_eq_true_iff]
    cases hlast : inner.index.entries.getLast? with
    | none =>
      have := hempty (getLast?_eq_none_iff.1 hlast) p (by rw [h.purged, hp]; rfl)
      omega
    | some last =>
      have hmem : last ∈ inner.index.entries := mem_of_getLast? hlast
      rw [h.index, mem_filter, hp, live_some, decide_eq_true_iff] at hmem
      have := hgap last hlast
      have := hmem.2
      omega

lemma index_after_write {lastPurged : Option LogId} {index : SortedMap ℕ Loc}
    (hindex : index.entries = (segs.flatMap (locs env)).filter (fun l => live lastPurged l.1))
    (hlocs : (pre ++ [s]).flatMap (locs env) = segs.flatMap (locs env))
    (hchained : Chained (pre ++ [s.extend entries]))
    (hlive : ∀ e ∈ entries, live lastPurged e.logId.index) :
    ((locsFrom env s.first (s.bytes env).length entries).foldl (fun m l => m.insert l.1 l.2)
        index).entries =
      ((pre ++ [s.extend entries]).flatMap (locs env)).filter (fun l => live lastPurged l.1) := by
  have hnew : ∀ l ∈ locsFrom env s.first (s.bytes env).length entries, live lastPurged l.1 := by
    intro l hl
    have hmem : l.1 ∈ (locsFrom env s.first (s.bytes env).length entries).map (·.1) :=
      mem_map_of_mem hl
    rw [locsFrom_keys] at hmem
    obtain ⟨x, hx, hxl⟩ := mem_map.1 hmem
    rw [← hxl]
    exact hlive x hx
  have hfilter : ((pre ++ [s.extend entries]).flatMap (locs env)).filter
      (fun l => live lastPurged l.1) =
        index.entries ++ locsFrom env s.first (s.bytes env).length entries := by
    rw [flatMap_append, flatMap_singleton, extend_locs, ← append_assoc,
      ← flatMap_singleton (locs env) s, ← flatMap_append, hlocs, filter_append,
      ← hindex, filter_eq_self.2 hnew]
  rw [hfilter]
  refine SortedMap.entries_foldl_insert ?_
  rw [← hfilter]
  exact locs_pairwise hchained _

/-- **An append right behind what the segments hold is done in full, or in part by a crash.** -/
lemma append_spec (h : Loaded env inner d segs) (hsize : SEGMENT_HEADER < env.segmentBytes)
    (hp : (Op.append entries).Promised inner) (hc : (Op.append entries).Continues inner) :
    (∃ e, append env inner entries = (.error e, [])) ∨
      ∃ inner' ops segs', append env inner entries = (.ok inner', ops.flatMap (device env).durably) ∧
        Loaded env inner' (applyAll env ops d) segs' ∧
        (applyAll env ops d).lastPurged = d.lastPurged ∧ physical segs' = physical segs ++ entries ∧
        (∀ e ∈ entries, live d.lastPurged e.logId.index) ∧ (device env).CrashSafe
          (fun d' => ∃ k, Stores env d.lastPurged (physical segs ++ entries.take k) d') ops d := by
  cases hhead : entries.head? with
  | none =>
    have hnil := head?_eq_none_iff.1 hhead
    subst hnil
    refine Or.inr ⟨inner, [], segs, rfl, h, rfl, (append_nil _).symm, by simp, 0, ?_⟩
    rw [take_nil, append_nil]
    exact h.layout.stores
  | some e =>
    have hne : entries ≠ [] := by
      rintro rfl
      cases hhead
    obtain ⟨hnum, hfits, hempty⟩ := hp e hhead
    cases hgap : inner.index.entries.getLast?.filter (fun last => e.logId.index ≠ last.1 + 1) with
    | some =>
      left
      simp only [append, hhead, hgap]
      exact ⟨_, rfl⟩
    | none =>
      right
      have hlastLive : ∀ last ∈ inner.index.entries.getLast?, e.logId.index = last.1 + 1 := by
        intro last hlast
        rw [filter_eq_none_iff] at hgap
        simpa using hgap last hlast
      have hlive := live_of_promised h hnum hempty hlastLive
      have hcont : ∀ x ∈ (physical segs).getLast?, e.logId.index = x.logId.index + 1 := by
        intro x hx
        refine hc x.logId.index ?_ e hhead
        rw [h.segments, lastIndex_getLast? h.layout.chained.ok, mem_def.1 hx]
        rfl
      have hfirst : e.logId.index < 2 ^ 64 := (hfits e (mem_of_mem_head? hhead)).index
      obtain ⟨_, ops₁, hpop, htidy₁, hend⟩ := popLeftover_spec h.layout hcont
      obtain ⟨pre, s, ops₂, hstart, htidy₂, hnext⟩ :=
        startSegment_spec htidy₁.layout hsize hfirst hend
      have htidy := htidy₁.trans htidy₂
      have hnum' : Numbered s.next entries := by rwa [hnext]
      have hnew : physical (pre ++ [s]) = [] → ∀ p ∈ (applyAll env (ops₁ ++ ops₂) d).lastPurged,
          ∀ x ∈ entries.head?, x.logId.index ≤ p.index + 1 := by
        intro hnil p hpp x hx
        rw [htidy.purged] at hpp
        rw [hhead] at hx
        obtain rfl := Option.some.inj hx
        have hkeys := h.keys
        rw [liveEntries, ← htidy.physical, hnil] at hkeys
        rw [hempty (map_eq_nil_iff.1 hkeys) p (by rw [h.purged]; exact hpp)]
      obtain ⟨hlayout, hpurged, hsafe⟩ := write_spec htidy.layout hne hnum' hfits hnew rfl
      rw [htidy.purged] at hpurged hsafe
      rw [htidy.physical] at hsafe
      have happend : append env inner entries = ((writeEntries env inner
          ((pre ++ [s]).map (Seg.segment env)) entries).1, (ops₁ ++ ops₂ ++
            [DeviceOp.write s.first (s.bytes env).length entries]).flatMap (device env).durably) := by
        simp only [append, hhead, hgap, h.segments, hpop, hstart, writeEntries_eq hne hnum',
          flatMap_append, flatMap_singleton]
      refine ⟨_, _, pre ++ [s.extend entries], by rw [happend, writeEntries_eq hne hnum'], ⟨?_, ?_, rfl, ?_⟩,
        ?_, ?_, hlive, ?_⟩
      · rw [applyAll_append]
        exact hlayout
      · rw [applyAll_append]
        exact h.purged.trans hpurged.symm
      · rw [applyAll_append]
        refine (index_after_write h.index htidy.locs hlayout.chained hlive).trans ?_
        rw [← hpurged]
        rfl
      · rw [applyAll_append]
        exact hpurged
      · rw [physical_extend, htidy.physical]
      · refine (htidy.safe.mono fun d' hd' => ⟨0, ?_⟩).append hsafe
        rwa [take_zero, append_nil]

end Fluree.Raft.LogStore
