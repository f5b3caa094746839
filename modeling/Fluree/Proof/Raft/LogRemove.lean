import Fluree.Proof.Raft.LogOpen

/-!
# Truncating the log store

A truncation unlinks segments from the newest on and shortens the one that holds the cut last, so
the device holds a front part of the entries at each step (`cutAt_spec`).

`truncateFrom_spec`: **a truncation removes the entries from an index on, or a part of them from
the end if a crash interrupts it.**
-/

namespace Fluree.Raft.LogStore

section Removal

open Lib List Option Seg DeviceOp

variable {env : Env}

/-! ## Removing from the end -/

variable {d : Disk} {segs pre post : List Seg} {s : Seg} {a b : List LogEntry} {fromIndex : ℕ}
  {inner : Inner}

/-- **Segments that are unlinked from the newest on** leave a front part of the entries. -/
lemma unlinkAll_spec (h : Layout env (kept ++ removed) [] d) :
    let ops := removed.reverse.map (fun s => unlink s.first)
    Layout env kept [] (applyAll env ops d) ∧ (applyAll env ops d).lastPurged = d.lastPurged ∧
      (device env).CrashSafe (fun d' => ∃ part, part <+: removed ∧
        Stores env d.lastPurged (physical (kept ++ part)) d') ops d := by
  induction removed using reverseRecOn generalizing d with
  | nil =>
    rw [append_nil] at h
    refine ⟨h, rfl, [], prefix_refl _, ?_⟩
    rw [append_nil]
    exact h.stores
  | append_singleton removed s ih =>
    rw [← append_assoc] at h
    obtain ⟨hlayout, hpurged, hsafe⟩ := ih h.unlinkLast
    have hops : (removed ++ [s]).reverse.map (fun s => unlink s.first) =
        .unlink s.first :: removed.reverse.map (fun s => unlink s.first) := by
      rw [reverse_append]
      rfl
    rw [hops]
    refine ⟨hlayout, hpurged, ⟨removed ++ [s], prefix_refl _, ?_⟩,
      fun d' hd' => hd'.elim, hsafe.mono ?_⟩
    · rw [← append_assoc]
      exact h.stores
    · rintro d' ⟨part, hpart, hstores⟩
      exact ⟨part, hpart.trans (prefix_append _ _), hstores⟩

lemma removeAbove_eq (env : Env) {kept removed : List Seg} {cut : ℕ} (hremoved : ∀ s ∈ removed, cut < s.first)
    (hkept : ∀ s ∈ kept.getLast?, s.first ≤ cut) :
    removeAbove env cut ((kept ++ removed).map (segment env)).reverse =
      ((kept.map (segment env)).reverse,
        (removed.reverse.map (fun s => unlink s.first)).flatMap (device env).durably) := by
  induction removed using reverseRecOn with
  | nil =>
    rw [append_nil]
    rcases eq_nil_or_concat kept with rfl | ⟨pre, s, rfl⟩
    · rfl
    rw [concat_eq_append] at hkept ⊢
    have hs : ¬ cut < (s.segment env).firstIndex := Nat.not_lt.2 (hkept s (by simp))
    rw [map_append, reverse_append]
    simp [removeAbove, hs]
  | append_singleton removed s ih =>
    have hs : cut < (s.segment env).firstIndex := hremoved s (by simp)
    have hcons : ((kept ++ removed ++ [s]).map (segment env)).reverse =
        s.segment env :: ((kept ++ removed).map (segment env)).reverse := by
      rw [map_append, reverse_append]
      rfl
    rw [← append_assoc, hcons, removeAbove, if_pos hs,
      ih fun t ht => hremoved t (mem_append_left _ ht), reverse_append]
    rfl

/-- The segments up to the entries `a` of `s`. -/
def upTo (pre : List Seg) (s : Seg) (a : List LogEntry) : List Seg :=
  if a = [] then pre else pre ++ [⟨s.first, a⟩]

lemma physical_upTo (pre : List Seg) (s : Seg) (a : List LogEntry) :
    physical (upTo pre s a) = physical pre ++ a := by
  unfold upTo
  split
  · rename_i h
    rw [h, append_nil]
  · rw [physical_append, physical_singleton]

lemma locs_upTo (pre : List Seg) (s : Seg) (a : List LogEntry) : (upTo pre s a).flatMap (locs env) =
      pre.flatMap (locs env) ++ locsFrom env s.first SEGMENT_HEADER a := by
  unfold upTo
  split
  · rename_i h
    rw [h, locsFrom, append_nil]
  · rw [flatMap_append, flatMap_singleton]
    rfl

lemma physical_split (hsegs : segs = pre ++ s :: post) (hs : s.entries = a ++ b) :
    physical segs = (physical pre ++ a) ++ (b ++ physical post) := by
  have hcons : physical (s :: post) = s.entries ++ physical post := rfl
  rw [hsegs, physical_append, hcons, hs]
  simp only [append_assoc]

lemma setLen_spec (h : Layout env (pre ++ [s]) [] d) (hs : s.entries = a ++ b) :
    let d' := (device env).apply (.setLen s.first (SEGMENT_HEADER + (encodeFrames env a).length)) d
    Layout env (pre ++ [⟨s.first, a⟩]) [] d' ∧
      d' = { d with segments := d.segments.insert s.first ((⟨s.first, a⟩ : Seg).bytes env ++ []) } := by
  have hok := h.chained.last.1
  have hset : (device env).apply (.setLen s.first (SEGMENT_HEADER + (encodeFrames env a).length)) d =
      { d with segments := d.segments.insert s.first ((⟨s.first, a⟩ : Seg).bytes env ++ []) } := by
    have hbytes : s.bytes env = (⟨s.first, a⟩ : Seg).bytes env ++ encodeFrames env b := by
      simp only [bytes, hs, encodeFrames_append, append_assoc]
    change apply env (.setLen s.first _) d = _
    simp only [apply, h.get?_last, append_nil]
    rw [hbytes, take_left' (bytes_length env ⟨s.first, a⟩)]
  have hnum := hok.numbered
  rw [hs] at hnum
  have hfits : ∀ e ∈ a, e.Fits := fun e he => hok.fits e (by rw [hs]; exact mem_append_left _ he)
  refine ⟨?_, hset⟩
  rw [hset]
  refine h.rewriteLast rfl ⟨hok.first, (numbered_append.1 hnum).1, hfits⟩ (noFrame_nil _)
    (h.reaches.of_prefix ?_)
  rw [physical_append, physical_append, physical_singleton, physical_singleton, hs, ← append_assoc]
  exact prefix_append _ _

/-- Once the later segments are gone, one operation leaves the entries before the cut; it cannot
be torn. -/
lemma cutAt_last (h : Layout env (pre ++ [s]) [] d) (hs : s.entries = a ++ b)
    (hfrom : a ≠ [] → s.first + a.length = fromIndex) {ops : List DeviceOp}
    (hremove : removeAbove env s.first segments.reverse =
      (((pre ++ [s]).map (segment env)).reverse, ops.flatMap (device env).durably)) :
    ∃ o, cutAt env fromIndex (s.first, SEGMENT_HEADER + (encodeFrames env a).length) segments =
        ((upTo pre s a).map (segment env), (ops ++ [o]).flatMap (device env).durably) ∧
      Layout env (upTo pre s a) [] ((device env).apply o d) ∧
      ((device env).apply o d).lastPurged = d.lastPurged ∧ ∀ d', ¬ (device env).torn o d d' := by
  by_cases hnil : a = []
  · subst hnil
    refine ⟨.unlink s.first, ?_, ?_, rfl, fun d' hd' => hd'⟩
    · simp [cutAt, hremove, upTo, encodeFrames, flatMap_append, segment_firstIndex]
    · rw [upTo, if_pos rfl]
      exact h.unlinkLast
  · obtain ⟨hshort, hset⟩ := setLen_spec h hs
    refine ⟨.setLen s.first (SEGMENT_HEADER + (encodeFrames env a).length), ?_, ?_, ?_,
      fun d' hd' => hd'⟩
    · have hframes : encodeFrames env a ≠ [] := by
        refine length_pos_iff.1 (lt_of_lt_of_le ?_ (length_le_encodeFrames env a))
        exact length_pos_iff.2 hnil
      have hsegment : (⟨s.first, a⟩ : Seg).segment env =
          ⟨s.first, some (fromIndex - 1), SEGMENT_HEADER + (encodeFrames env a).length⟩ := by
        have hpos := length_pos_iff.2 hnil
        rw [Seg.segment, if_neg (by simp only [Seg.next]; omega), Seg.bytes_length, ← hfrom hnil]
        rfl
      simp [cutAt, hremove, upTo, hnil, flatMap_append, hframes, hsegment, segment_firstIndex]
    · rw [upTo, if_neg hnil]
      exact hshort
    · rw [hset]

/-- **The device after a cut**, or after a part of it. -/
lemma cutAt_spec (h : Layout env segs [] d) (hsegs : segs = pre ++ s :: post)
    (hs : s.entries = a ++ b) (hfrom : a ≠ [] → s.first + a.length = fromIndex) :
    ∃ ops, cutAt env fromIndex (s.first, SEGMENT_HEADER + (encodeFrames env a).length)
          (segs.map (segment env)) =
        ((upTo pre s a).map (segment env), ops.flatMap (device env).durably) ∧
      Layout env (upTo pre s a) [] (applyAll env ops d) ∧
      (applyAll env ops d).lastPurged = d.lastPurged ∧
      (device env).CrashSafe (fun d' => ∃ P, Stores env d.lastPurged P d' ∧
        physical pre ++ a <+: P ∧ P <+: physical segs) ops d := by
  have hphys := physical_split hsegs hs
  have hsplit : segs = (pre ++ [s]) ++ post := by rw [hsegs, append_assoc]; rfl
  have hlater : ∀ t ∈ post, s.first < t.first := by
    have hsorted := d.segments.sorted
    rw [h.files, image_nil, hsegs, map_append, map_cons, pairwise_append, pairwise_cons] at hsorted
    exact fun t ht => hsorted.2.1.1 _ (mem_map_of_mem ht)
  have hcutLast : ∀ t ∈ (pre ++ [s]).getLast?, t.first ≤ s.first := by
    intro t ht
    rw [getLast?_concat] at ht
    exact (congrArg first (Option.some.inj ht)).ge
  have hremove := removeAbove_eq env hlater hcutLast
  rw [← hsplit] at hremove
  rw [hsplit] at h
  obtain ⟨hlayout, hpurged, hsafe⟩ := unlinkAll_spec h
  set ops := post.reverse.map (fun s => unlink s.first) with hops
  have hfront : physical pre ++ a <+: physical (pre ++ [s]) := by
    rw [physical_append, physical_singleton, hs, ← append_assoc]
    exact prefix_append _ _
  have hsafe' : (device env).CrashSafe (fun d' => ∃ P, Stores env d.lastPurged P d' ∧
      physical pre ++ a <+: P ∧ P <+: physical segs) ops d := by
    refine hsafe.mono ?_
    rintro d' ⟨part, ⟨rest, rfl⟩, hstores⟩
    refine ⟨_, hstores, ?_, ?_⟩
    · rw [physical_append]
      exact hfront.trans (prefix_append _ _)
    · rw [hsplit, ← append_assoc, physical_append _ rest]
      exact prefix_append _ _
  obtain ⟨o, hcut, hlast, hkeep, htorn⟩ := cutAt_last hlayout hs hfrom hremove
  have hstores : Stores env d.lastPurged (physical pre ++ a) ((device env).apply o (applyAll env ops d)) := by
    have := hlast.stores
    rwa [hkeep, hpurged, physical_upTo] at this
  refine ⟨ops ++ [o], hcut, ?_, ?_, hsafe'.append ⟨⟨_, hpurged ▸ hlayout.stores, hfront, ?_⟩,
    fun d' hd' => absurd hd' (htorn d'), _, hstores, prefix_refl _, ?_⟩⟩
  · rw [applyAll_append]
    exact hlast
  · rw [applyAll_append]
    exact hkeep.trans hpurged
  · rw [hsplit, physical_append _ post]
    exact prefix_append _ _
  · rw [hphys]
    exact prefix_append _ _

/-! ## Where the cut is -/

lemma mem_locsFrom {segment offset entries l} (hl : l ∈ locsFrom env segment offset entries) :
    ∃ a e b, entries = a ++ e :: b ∧ e.logId.index = l.1 ∧ l.2.segment = segment ∧
      l.2.offset = offset + (encodeFrames env a).length := by
  induction entries generalizing offset with
  | nil => cases hl
  | cons e entries ih =>
    rcases mem_cons.1 hl with rfl | hl
    · exact ⟨[], e, entries, rfl, rfl, rfl, rfl⟩
    obtain ⟨a, x, b, rfl, hindex, hsegment, hoffset⟩ := ih hl
    refine ⟨e :: a, x, b, rfl, hindex, hsegment, ?_⟩
    rw [hoffset, encodeFrames_cons, length_append, Nat.add_assoc]

lemma Loaded.find (h : Loaded env inner d segs) {l} (hl : l ∈ inner.index.entries) :
    ∃ pre s post a e b, segs = pre ++ s :: post ∧ s.entries = a ++ e :: b ∧ e.logId.index = l.1 ∧
      l.2.segment = s.first ∧ l.2.offset = SEGMENT_HEADER + (encodeFrames env a).length := by
  rw [h.index] at hl
  obtain ⟨s, hs, hls⟩ := mem_flatMap.1 (mem_of_mem_filter hl)
  obtain ⟨pre, post, hsegs⟩ := append_of_mem hs
  obtain ⟨a, e, b, hentries, hindex, hsegment, hoffset⟩ := mem_locsFrom hls
  exact ⟨pre, s, post, a, e, b, hsegs, hentries, hindex, hsegment, hoffset⟩

lemma filter_cut {α : Type*} {p q : α → Bool} {front rest : List α}
    (hfront : ∀ x ∈ front, p x → q x) (hrest : ∀ x ∈ rest, p x → ¬ q x) :
    ((front ++ rest).filter p).filter q = front.filter p := by
  have hq : (front.filter p).filter q = front.filter p :=
    filter_eq_self.2 fun x hx => hfront x (mem_of_mem_filter hx) (mem_filter.1 hx).2
  have hnil : (rest.filter p).filter q = [] :=
    filter_eq_nil_iff.2 fun x hx => hrest x (mem_of_mem_filter hx) (mem_filter.1 hx).2
  rw [filter_append, filter_append, hq, hnil, append_nil]

lemma forall_keys {locs : List (ℕ × Loc)} {entries : List LogEntry}
    (hkeys : locs.map (·.1) = entries.map (·.logId.index)) {p : ℕ → Prop}
    (h : ∀ e ∈ entries, p e.logId.index) : ∀ l ∈ locs, p l.1 := by
  intro l hl
  have hmem : l.1 ∈ locs.map (·.1) := mem_map_of_mem hl
  rw [hkeys] at hmem
  obtain ⟨e, he, heq⟩ := mem_map.1 hmem
  rw [← heq]
  exact h e he

def below (fromIndex : ℕ) (lastPurged : Option LogId) (segs : List Seg) : List LogEntry :=
  (liveEntries lastPurged segs).filter (fun e => e.logId.index < fromIndex)

/-- What a truncation leaves in memory and on the device, and on the device at every step. -/
structure Truncated (env : Env) (fromIndex : ℕ) (d : Disk) (segs : List Seg) (inner' : Inner)
    (ops : List DeviceOp) (segs' : List Seg) : Prop where
  loaded : Loaded env inner' (applyAll env ops d) segs'
  purged : (applyAll env ops d).lastPurged = d.lastPurged
  log : liveEntries d.lastPurged segs' = below fromIndex d.lastPurged segs
  safe : (device env).CrashSafe (fun d' => ∃ P, Stores env d.lastPurged P d' ∧
    P <+: physical segs ∧ below fromIndex d.lastPurged segs ⊆ P) ops d

/-- A cut at this place truncates the log. -/
def Cuts (env : Env) (fromIndex : ℕ) (inner : Inner) (d : Disk) (segs : List Seg) (cut : ℕ × ℕ) :
    Prop :=
  let kept := cutAt env fromIndex cut inner.segments
  ∃ ops segs', kept.2 = ops.flatMap (device env).durably ∧
    Truncated env fromIndex d segs
      { inner with
        segments := kept.1,
        index := ⟨inner.index.entries.filter (fun e => e.1 < fromIndex),
          inner.index.sorted.sublist filter_sublist⟩ } ops segs'

lemma below_subset (fromIndex : ℕ) (lastPurged : Option LogId) (segs : List Seg) :
    below fromIndex lastPurged segs ⊆ physical segs :=
  fun _ he => mem_of_mem_filter (mem_of_mem_filter he)

section

variable (h : Loaded env inner d segs)
include h

/-- **A cut between the live entries below the index and the others** truncates the log. -/
lemma truncated_of_cut (hsegs : segs = pre ++ s :: post)
    (hs : s.entries = a ++ b) (fromIndex : ℕ) (hfrom : a ≠ [] → s.first + a.length = fromIndex)
    (hbelow : ∀ x ∈ physical pre ++ a, live d.lastPurged x.logId.index → x.logId.index < fromIndex)
    (habove : ∀ x ∈ b ++ physical post, live d.lastPurged x.logId.index → fromIndex ≤ x.logId.index)
    : Cuts env fromIndex inner d segs (s.first, SEGMENT_HEADER + (encodeFrames env a).length) := by
  have hphys := physical_split hsegs hs
  obtain ⟨ops, hcut, hlayout, hpurged, hsafe⟩ := cutAt_spec h.layout hsegs hs hfrom
  rw [← h.segments] at hcut
  have hlog : below fromIndex d.lastPurged segs =
      (physical pre ++ a).filter (fun e => live d.lastPurged e.logId.index) := by
    rw [below, liveEntries, hphys]
    exact filter_cut (by simpa using hbelow) (by simpa using habove)
  refine ⟨ops, upTo pre s a, by rw [hcut], ⟨hlayout, ?_, by rw [hcut], ?_⟩, hpurged, ?_, hsafe.mono ?_⟩
  · exact h.purged.trans hpurged.symm
  · -- the places behind the cut are those of the entries behind it
    have hlocs : segs.flatMap (locs env) = (upTo pre s a).flatMap (locs env) ++
        (locsFrom env s.first (SEGMENT_HEADER + (encodeFrames env a).length) b ++
          post.flatMap (locs env)) := by
      rw [hsegs, flatMap_append, flatMap_cons, locs, hs, locsFrom_append, locs_upTo]
      simp only [append_assoc]
    have hfrontKeys : ((upTo pre s a).flatMap (locs env)).map (·.1) =
        (physical pre ++ a).map (·.logId.index) := by
      rw [locs_keys, physical_upTo]
    have hrestKeys : (locsFrom env s.first (SEGMENT_HEADER + (encodeFrames env a).length) b ++
        post.flatMap (locs env)).map (·.1) = (b ++ physical post).map (·.logId.index) := by
      rw [map_append, map_append, locsFrom_keys, locs_keys]
    change inner.index.entries.filter (fun e => e.1 < fromIndex) = _
    rw [h.index, hpurged, hlocs]
    refine filter_cut ?_ ?_
    · simpa using forall_keys hfrontKeys hbelow
    · simpa using forall_keys hrestKeys habove
  · rw [hlog, liveEntries, physical_upTo]
  · rintro _ ⟨P, hstores, hfront, hP⟩
    refine ⟨P, hstores, hP, fun e he => hfront.subset ?_⟩
    rw [hlog] at he
    exact mem_of_mem_filter he

lemma truncated_of_below (hall : ∀ e ∈ liveEntries d.lastPurged segs, e.logId.index < fromIndex) :
    Truncated env fromIndex d segs inner [] segs where
  loaded := h
  purged := rfl
  log := (filter_eq_self.2 fun e he => decide_eq_true (hall e he)).symm
  safe := ⟨physical segs, h.layout.stores, prefix_refl _, below_subset _ _ _⟩

lemma Loaded.numbered : ∃ m, Numbered m (liveEntries d.lastPurged segs) ∧
      (∀ l ∈ inner.index.entries.head?, l.1 = m) ∧
      (∀ l ∈ inner.index.entries.getLast?, l.1 + 1 = m + (liveEntries d.lastPurged segs).length) ∧
      ∀ i, inner.index.get? i = none → i < m ∨ m + (liveEntries d.lastPurged segs).length ≤ i := by
  obtain ⟨m, hnum, -⟩ := numbered_live h.layout.chained h.layout.reaches
  have hkeys := h.keys
  refine ⟨m, hnum, fun l hl => ?_, fun l hl => ?_, fun i hi => ?_⟩
  · have hhead : (inner.index.entries.map (·.1)).head? = some l.1 := by
      rw [head?_map, mem_def.1 hl]
      rfl
    rw [hkeys, head?_map] at hhead
    obtain ⟨e, he, heq⟩ := map_eq_some_iff.1 hhead
    rw [← heq, hnum.head he]
  · have hlast : (inner.index.entries.map (·.1)).getLast? = some l.1 := by
      rw [getLast?_map, mem_def.1 hl]
      rfl
    rw [hkeys, getLast?_map] at hlast
    obtain ⟨e, he, heq⟩ := map_eq_some_iff.1 hlast
    rw [← heq, hnum.last he]
  · have habsent : i ∉ inner.index.entries.map (·.1) := by
      intro hmem
      obtain ⟨l, hl, rfl⟩ := mem_map.1 hmem
      rw [SortedMap.get?_eq_some_iff.2 hl] at hi
      cases hi
    rw [hkeys, hnum.map_index, mem_range'_1] at habsent
    omega

lemma Loaded.cuts_at (hget : inner.index.get? fromIndex = some loc) :
    Cuts env fromIndex inner d segs (loc.segment, loc.offset) := by
  obtain ⟨pre, s, _, a, _, _, hsegs, hentries, he, hsegment, hoffset⟩ :=
    h.find (SortedMap.get?_eq_some_iff.1 hget)
  have hcut : (loc.segment, loc.offset) = (s.first, SEGMENT_HEADER + (encodeFrames env a).length) :=
    Prod.ext hsegment hoffset
  -- all entries of the segments are numbered, so those in front of an entry are below it
  obtain ⟨n, hphysical⟩ := h.layout.chained.exists_numbered
  rw [physical_split hsegs hentries] at hphysical
  obtain ⟨hfront, hrest⟩ := numbered_append.1 hphysical
  have hindex : n + (physical pre ++ a).length = fromIndex := by rw [← hrest.1, he]
  have hs := (h.layout.chained.ok s (by simp [hsegs])).numbered
  rw [hentries] at hs
  rw [hcut]
  refine truncated_of_cut h hsegs hentries fromIndex (fun _ => ?_) (fun x hx _ => ?_) fun x hx _ => ?_
  · rw [← (numbered_append.1 hs).2.1, he]
  · have := (hfront.bounds hx).2
    omega
  · have := (hrest.bounds hx).1
    omega

/-- The cut at the segment of the first live entry, for an index below all live entries. -/
lemma Loaded.cuts_all {first}
    (hhead : inner.index.entries.head? = some first) (hbelow : fromIndex < first.1) :
    Cuts env fromIndex inner d segs (first.2.segment, SEGMENT_HEADER) := by
  obtain ⟨pre, s, _, a, _, _, hsegs, hentries, he, hsegment, -⟩ := h.find (mem_of_mem_head? hhead)
  obtain ⟨m, hnum, hfirst, -⟩ := h.numbered
  have hm := hfirst first hhead
  obtain ⟨n, hphysical⟩ := h.layout.chained.exists_numbered
  have hphys := physical_split hsegs hentries
  rw [hphys] at hphysical
  obtain ⟨hfront, hrest⟩ := numbered_append.1 hphysical
  have hindex : n + (physical pre ++ a).length = first.1 := by rw [← hrest.1, he]
  have hlive : ∀ x ∈ physical segs, live d.lastPurged x.logId.index → m ≤ x.logId.index :=
    fun x hx hxlive => (hnum.bounds (mem_filter.2 ⟨hx, hxlive⟩)).1
  have hcuts := truncated_of_cut (a := []) h hsegs (nil_append s.entries).symm fromIndex
    (fun hne => absurd rfl hne) ?_ ?_
  · rw [hsegment]
    exact hcuts
  · -- what stands before the segment is not live
    intro x hx hxlive
    rw [append_nil] at hx
    have hxfront := (hfront.bounds (mem_append_left a hx)).2
    have hxm := hlive x (by rw [hphys]; simp [hx]) hxlive
    omega
  · intro x hx hxlive
    have hxm := hlive x (by
      rw [physical_split hsegs (nil_append s.entries).symm]
      exact mem_append_right _ hx) hxlive
    omega

/-- **A truncation removes the entries from an index on**; a crash leaves a front part with all
entries below it. -/
lemma truncateFrom_spec (fromIndex : ℕ) :
    ∃ inner' ops segs', truncateFrom env inner fromIndex = (.ok inner', ops.flatMap (device env).durably) ∧
      Truncated env fromIndex d segs inner' ops segs' := by
  obtain ⟨_, hnum, hfirst, hlast, habsent⟩ := h.numbered
  cases hhead : inner.index.entries.head? with
  | none =>
    refine ⟨inner, [], segs, by simp only [truncateFrom, hhead]; rfl, truncated_of_below h fun e he => ?_⟩
    have hkeys := h.keys
    rw [head?_eq_none_iff.1 hhead, map_nil] at hkeys
    rw [map_eq_nil_iff.1 hkeys.symm] at he
    cases he
  | some first =>
    obtain ⟨last, hlastIndex⟩ : ∃ last, inner.index.entries.getLast? = some last := by
      cases hl : inner.index.entries.getLast? with
      | none =>
        rw [getLast?_eq_none_iff.1 hl] at hhead
        cases hhead
      | some last => exact ⟨last, rfl⟩
    have hm := hfirst first hhead
    have hend := hlast last hlastIndex
    by_cases hbeyond : last.1 < fromIndex
    · refine ⟨inner, [], segs, ?_, truncated_of_below h fun e he => ?_⟩
      · simp only [truncateFrom, hhead, hlastIndex, if_pos hbeyond]
        rfl
      · have := (hnum.bounds he).2
        omega
    cases hget : inner.index.get? fromIndex with
    | some =>
      obtain ⟨ops, segs', hops, htrunc⟩ := h.cuts_at hget
      refine ⟨_, ops, segs', ?_, htrunc⟩
      simp only [truncateFrom, hhead, hlastIndex, if_neg hbeyond, hget, hops]
    | none =>
      have hbelow : fromIndex < first.1 := by
        have := habsent fromIndex hget
        omega
      obtain ⟨ops, segs', hops, htrunc⟩ := h.cuts_all hhead hbelow
      refine ⟨_, ops, segs', ?_, htrunc⟩
      simp only [truncateFrom, hhead, hlastIndex, if_neg hbeyond, hget, hops]

end

end Removal

/-!
## Purging the log store

A purge moves the marker first and then unlinks segments from the oldest on. All of them are below
the new marker, so the log above it is the same at every step (`unlinkObsolete_spec`).

`purgeThrough_spec`: **a purge moves the marker and with it the start of the log**, or leaves both
if a crash comes before the marker is durable.
-/

open Lib List

variable {env : Env}

variable {segs obs : List Seg} {id : LogId}

lemma Chained.next_le (h : Chained (s :: segs)) : ∀ t ∈ segs, s.next ≤ t.first := by
  induction segs generalizing s with
  | nil => exact fun t ht => by cases ht
  | cons _ _ ih =>
    obtain ⟨-, hnext⟩ := (isChain_cons_cons.1 h.chain).1
    intro t ht
    rcases mem_cons.1 ht with rfl | ht
    · exact hnext.ge
    have hlater := ih h.tail t ht
    unfold Seg.next at hnext hlater ⊢
    omega

lemma obsolete_segment (id : LogId) (s : Seg) :
    obsolete id (s.segment env) = true ↔
      if s.entries = [] then s.first ≤ id.index else s.next ≤ id.index + 1 := by
  by_cases hnil : s.entries = []
  · simp [obsolete, Seg.segment, Seg.next_eq_first_iff, hnil]
  have hpos := length_pos_iff.2 hnil
  have hne : ¬ s.next = s.first := mt Seg.next_eq_first_iff.1 hnil
  simp only [obsolete, Seg.segment, if_neg hne, if_neg hnil, decide_eq_true_iff]
  omega

lemma next_le_of_obsolete {s : Seg} (h : obsolete id (s.segment env) = true) :
    s.next ≤ id.index + 1 := by
  rw [obsolete_segment] at h
  split at h
  · rename_i hnil
    rw [Seg.next, hnil, length_nil]
    omega
  · exact h

/-- **The obsolete segments are the oldest ones.** -/
lemma obsolete_split (env : Env) (id : LogId) (h : Chained segs) :
    ∃ obs keep, segs = obs ++ keep ∧
      (segs.map (Seg.segment env)).filter (obsolete id) = obs.map (Seg.segment env) ∧
      (segs.map (Seg.segment env)).filter (fun seg => !obsolete id seg) = keep.map (Seg.segment env) ∧
      ∀ s ∈ obs, s.next ≤ id.index + 1 := by
  induction segs with
  | nil => exact ⟨[], [], rfl, rfl, rfl, by simp⟩
  | cons s segs ih =>
    by_cases hs : obsolete id (s.segment env) = true
    · obtain ⟨obs, keep, rfl, hobs, hkeep, hpast⟩ := ih h.tail
      refine ⟨s :: obs, keep, rfl, ?_, ?_, ?_⟩
      · rw [map_cons, filter_cons_of_pos hs, hobs, map_cons]
      · rw [map_cons, filter_cons_of_neg (by simp [hs]), hkeep]
      · exact forall_mem_cons.2 ⟨next_le_of_obsolete hs, hpast⟩
    · -- what follows a segment that stays starts above the marker
      have hstay : ∀ t ∈ segs, ¬ obsolete id (t.segment env) = true := by
        intro t ht hobs
        have hnext := h.next_le t ht
        have hne : s.entries ≠ [] := by
          cases segs with
          | nil => cases ht
          | cons => exact (isChain_cons_cons.1 h.chain).1.1
        rw [obsolete_segment, if_neg hne] at hs
        rw [obsolete_segment] at hobs
        split at hobs
        · omega
        · unfold Seg.next at hobs hs hnext
          omega
      have hall : ∀ seg ∈ (s :: segs).map (Seg.segment env), ¬ obsolete id seg = true := by
        rw [map_cons]
        refine forall_mem_cons.2 ⟨hs, fun seg hseg => ?_⟩
        obtain ⟨t, ht, rfl⟩ := mem_map.1 hseg
        exact hstay t ht
      refine ⟨[], s :: segs, rfl, filter_eq_nil_iff.2 hall, ?_, by simp⟩
      exact filter_eq_self.2 fun seg hseg => by simpa using hall seg hseg

lemma filter_live_obsolete (hok : ∀ s ∈ obs, s.Ok) (hpast : ∀ s ∈ obs, s.next ≤ id.index + 1) :
    ∀ e ∈ physical obs, ¬ live (some id) e.logId.index := by
  intro e he
  obtain ⟨s, hs, hes⟩ := mem_flatMap.1 he
  have hbound := ((hok s hs).numbered.bounds hes).2
  have hnext := hpast s hs
  unfold Seg.next at hnext
  rw [live_some, decide_eq_true_iff]
  omega

lemma liveEntries_append_of_dead (hdead : ∀ e ∈ physical obs, ¬ live lastPurged e.logId.index) :
    liveEntries lastPurged (obs ++ keep) = liveEntries lastPurged keep := by
  unfold liveEntries
  rw [physical_append, filter_append, filter_eq_nil_iff.2 hdead, nil_append]

/-- **Unlinking obsolete segments from the oldest on** leaves the log as it is. -/
lemma unlinkObsolete_spec (h : Layout env (obs ++ keep) [] d)
    (hid : d.lastPurged = some id) (hpast : ∀ s ∈ obs, s.next ≤ id.index + 1) :
    let ops := obs.map (fun s => .unlink s.first)
    Layout env keep [] (applyAll env ops d) ∧ (applyAll env ops d).lastPurged = some id ∧
      (device env).CrashSafe (fun d' => ∃ P, Stores env (some id) P d' ∧
        P.filter (fun e => live (some id) e.logId.index) = liveEntries (some id) keep) ops d := by
  have hdead := filter_live_obsolete (fun s hs => h.chained.ok s (mem_append_left _ hs)) hpast
  have hnow : ∃ P, Stores env (some id) P d ∧
      P.filter (fun e => live (some id) e.logId.index) = liveEntries (some id) keep := by
    have hstores := h.stores
    rw [hid] at hstores
    exact ⟨_, hstores, liveEntries_append_of_dead hdead⟩
  induction obs generalizing d with
  | nil => exact ⟨h, hid, hnow⟩
  | cons s obs ih =>
    have hun := h.unlinkHead hid (hpast s mem_cons_self)
    have hpast' : ∀ t ∈ obs, t.next ≤ id.index + 1 := fun t ht => hpast t (mem_cons_of_mem _ ht)
    have hdead' := filter_live_obsolete (fun t ht => hun.chained.ok t (mem_append_left _ ht)) hpast'
    have hstores := hun.stores
    rw [show ((device env).apply (.unlink s.first) d).lastPurged = some id from hid] at hstores
    obtain ⟨hlayout, hpurged, hsafe⟩ := ih hun hid hpast' hdead'
      ⟨_, hstores, liveEntries_append_of_dead hdead'⟩
    exact ⟨hlayout, hpurged, hnow, fun d' hd' => hd'.elim, hsafe⟩

lemma live_of_lt (hpast : ¬ lastPurged.any (fun p => id.index ≤ p.index)) (i : ℕ) :
    live (some id) i = (live lastPurged i && decide (id.index < i)) := by
  cases lastPurged with
  | none => rfl
  | some =>
    rw [Option.any_some, decide_eq_true_iff] at hpast
    rw [live_some, live_some, ← Bool.decide_and, decide_eq_decide]
    omega

/-- What a purge leaves in memory and on the device, and on the device at every step. -/
structure PurgedTo (env : Env) (id : LogId) (d : Disk) (segs : List Seg) (inner' : Inner)
    (ops : List DeviceOp) (segs' : List Seg) : Prop where
  loaded : Loaded env inner' (applyAll env ops d) segs'
  purged : (applyAll env ops d).lastPurged = some id
  log : liveEntries (some id) segs' =
    (liveEntries d.lastPurged segs).filter (fun e => id.index < e.logId.index)
  safe : (device env).CrashSafe (fun d' => Stores env d.lastPurged (physical segs) d' ∨
    ∃ P, Stores env (some id) P d' ∧ P.filter (fun e => live (some id) e.logId.index) =
      (liveEntries d.lastPurged segs).filter (fun e => id.index < e.logId.index)) ops d

/-- **A purge moves the marker and the start of the log**, unless the marker is there already. -/
lemma purgeThrough_spec {inner} (h : Loaded env inner d segs)
    (hp : (Op.purgeThrough id).Promised inner) :
    (d.lastPurged.any (fun p => id.index ≤ p.index) ∧ purgeThrough env inner id = (.ok inner, [])) ∨
      ¬ d.lastPurged.any (fun p => id.index ≤ p.index) ∧
        ∃ inner' ops segs', purgeThrough env inner id = (.ok inner', ops.flatMap (device env).durably) ∧
          PurgedTo env id d segs inner' ops segs' := by
  by_cases hpast : d.lastPurged.any (fun p => id.index ≤ p.index) = true
  · exact Or.inl ⟨hpast, by rw [purgeThrough, h.purged, if_pos hpast]⟩
  refine Or.inr ⟨hpast, ?_⟩
  have hreach : Reaches (some id) segs := by
    intro q hq e he
    obtain rfl := Option.some.inj hq
    cases hpurged : d.lastPurged with
    | some p =>
      have := h.layout.reaches p (by rw [hpurged]; rfl) e he
      rw [hpurged, Option.any_some, decide_eq_true_iff] at hpast
      omega
    | none =>
      -- without a marker the first entry is live
      have hkeys := congrArg List.head? h.keys
      rw [hpurged, liveEntries, live_none, filter_true, List.head?_map, List.head?_map,
        Option.mem_def.1 he] at hkeys
      obtain ⟨first, hfirst, heq⟩ := Option.map_eq_some_iff.1 hkeys
      exact (le_of_eq heq.symm).trans (hp first hfirst)
  obtain ⟨obs, keep, rfl, hobs, hkeep, hold⟩ := obsolete_split env id h.layout.chained
  have hmark := h.layout.mark hreach
  obtain ⟨hlayout, hpurged, hsafe⟩ := unlinkObsolete_spec hmark rfl hold
  have hdead := filter_live_obsolete
    (fun s hs => h.layout.chained.ok s (mem_append_left _ hs)) hold
  have hlog : liveEntries (some id) keep =
      (liveEntries d.lastPurged (obs ++ keep)).filter (fun e => id.index < e.logId.index) := by
    rw [← liveEntries_append_of_dead hdead, liveEntries, liveEntries, filter_filter]
    exact filter_congr fun e _ => by rw [live_of_lt hpast, Bool.and_comm]
  set unlinks : List DeviceOp := obs.map (fun s => .unlink s.first) with hunlinks
  have hpurged' : (applyAll env (.publishMarker id :: unlinks) d).lastPurged = some id := hpurged
  have hrun : purgeThrough env inner id =
      (.ok
        { segments := keep.map (Seg.segment env),
          index := ⟨inner.index.entries.filter (fun e => id.index + 1 ≤ e.1),
            inner.index.sorted.sublist filter_sublist⟩,
          lastPurged := some id },
        (DeviceOp.publishMarker id :: unlinks).flatMap (device env).durably) := by
    rw [purgeThrough, h.purged, if_neg hpast, h.segments, hobs, hkeep, flatMap_map]
    simp only [hunlinks, flatMap_map, flatMap_cons, segment_firstIndex]
  refine ⟨_, _, keep, hrun, ?_, hpurged', hlog,
    Or.inl h.layout.stores, fun d' hd' => hd'.elim, hsafe.mono fun d' hd' => Or.inr ?_⟩
  · refine ⟨hlayout, hpurged'.symm, rfl, ?_⟩
    have hdeadLocs : ∀ l ∈ obs.flatMap (Seg.locs env), ¬ live (some id) l.1 :=
      forall_keys (p := fun i => ¬ live (some id) i) (locs_keys obs) hdead
    change inner.index.entries.filter (fun e => id.index + 1 ≤ e.1) = _
    rw [hpurged', h.index, filter_filter]
    calc ((obs ++ keep).flatMap (Seg.locs env)).filter
          (fun l => decide (id.index + 1 ≤ l.1) && live d.lastPurged l.1)
        = ((obs ++ keep).flatMap (Seg.locs env)).filter (fun l => live (some id) l.1) :=
          filter_congr fun l _ => by rw [live_of_lt hpast, Bool.and_comm]; rfl
      _ = (keep.flatMap (Seg.locs env)).filter (fun l => live (some id) l.1) := by
          rw [flatMap_append, filter_append, filter_eq_nil_iff.2 hdeadLocs, nil_append]
  · rw [← hlog]
    exact hd'

end Fluree.Raft.LogStore
