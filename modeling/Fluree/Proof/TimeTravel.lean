import Fluree.Proof.Window

/-!
# Time travel over indexing windows

A leaflet that has been maintained window by window answers for every past time: replaying it
at `t` yields the facts whose last event up to `t` is an assert.

`Indexed` is the invariant: the rows and history stored for a fact are a timeline of
transitions (`Stored`) that shows the same presence as the fact's raw events (`Tracks`). One
window keeps it (`indexed_window`), so every run of windows has it (`indexed_windows`), and a
leaflet that has it is read exactly (`Holds.reads`).
-/

namespace Fluree

open Lib List RunRecordV2 HistSidecarBuilder List.Pairwise UInt32

variable {σ : SortUnstable} {reg : OTypeRegistry} {order : RunSortOrder} {g : UInt16}

def RunRecord.ev (r : RunRecord) : ℕ × Bool := (r.time, r.op)

def DistinctTimes (reg : OTypeRegistry) (log : List RunRecord) : Prop :=
  log.Pairwise (fun a b => a.gId = b.gId → a.factKey reg = b.factKey reg → a.t ≠ b.t)

def CutInTime (windows : List (List RunRecord)) : Prop :=
  windows.Pairwise (fun w w' => ∀ a ∈ w, ∀ b ∈ w', a.t ≤ b.t)

/-- The last event of the fact up to `target` is an assert. -/
def PresentAt (reg : OTypeRegistry) (g : UInt16) (log : List RunRecord) (k : FactKeyV3) (target : ℤ) :
    Prop :=
  LastAssert (fun r : RunRecord => (r.t.toNat : ℤ)) RunRecord.op (· ∈ factEvents reg g k log) target

/-- What a leaflet stores about one fact shows the presence its events describe. -/
structure FactIndexed (k : FactKeyV3) (rows : List RunRecordV2) (history : List HistEntryV2)
    (events : List RunRecord) : Prop where
  timeline : ∃ L R, Stored k rows history L ∧ Tracks L R ∧ StrictAsc Prod.fst R ∧
    R.Perm (events.map RunRecord.ev)

/-- A leaflet that holds the events of graph `g` in `log`. -/
structure Indexed (reg : OTypeRegistry) (order : RunSortOrder) (g : UInt16) (log : List RunRecord)
    (rows : List RunRecordV2) (history : List HistEntryV2) : Prop where
  rowsAsc : StrictAsc (pos order) rows
  newest : NewestFirst history
  facts : ∀ k, FactIndexed k rows history (factEvents reg g k log)
  count : history.length ≤ 2 * log.countP (fun r => r.gId == g)

/-! ## One window, one fact -/

@[simp] lemma factEvents_append (k : FactKeyV3) (l₁ l₂ : List RunRecord) :
    factEvents reg g k (l₁ ++ l₂) = factEvents reg g k l₁ ++ factEvents reg g k l₂ :=
  filter_append ..

variable {log events : List RunRecord} {k : FactKeyV3} {rows : List RunRecordV2}
  {history : List HistEntryV2} {target : ℤ}

lemma DistinctTimes.factEvents (h : DistinctTimes reg log) (g : UInt16) (k : FactKeyV3) :
    (factEvents reg g k log).Pairwise (fun a b => a.time ≠ b.time) := by
  refine imp_of_mem ?_ (h.sublist filter_sublist)
  intro a b ha hb hab he
  obtain ⟨-, hga, hka⟩ := mem_factEvents.1 ha
  obtain ⟨-, hgb, hkb⟩ := mem_factEvents.1 hb
  exact hab (hga.trans hgb.symm) (hka.trans hkb.symm) (UInt32.toNat_inj.1 he)

lemma DistinctTimes.strictAsc {ev} (h : DistinctTimes reg events)
    (hperm : ev.Perm (Fluree.factEvents reg g k events))
    (hasc : Asc (rank RunRecord.time RunRecord.op) ev) : StrictAsc RunRecord.time ev := by
  have hne : ev.Pairwise (fun a b => a.time ≠ b.time) :=
    (hperm.pairwise_iff fun hab => hab.symm).2 (h.factEvents g k)
  refine (hasc.of_rank.and hne).imp ?_
  rintro a b ⟨hle, hab⟩
  exact lt_of_le_of_ne hle hab

lemma map_toV2_evOf (reg : OTypeRegistry) (l : List RunRecord) :
    (l.map (RunRecord.toV2 reg)).map evOf = l.map RunRecord.ev := by
  rw [map_map]; rfl

/-- **One window keeps the timeline of a fact.** -/
lemma FactIndexed.window {rows' history' ev} (h : FactIndexed k rows history (factEvents reg g k log))
    (hev : WindowFact σ reg order g events k ev) (hstrict : StrictAsc RunRecord.time ev)
    (hlt : ∀ a ∈ factEvents reg g k log, ∀ b ∈ factEvents reg g k events, a.time < b.time)
    (hone : (rowsOf k rows).length ≤ 1) (hrows : rowsOf k rows' = (keyStep σ k rows
      (graphStream σ order g (resolveWindow σ reg events).records)
      (graphStream σ order g (resolveWindow σ reg events).superseded)).rows)
    (hhist : (entriesOf k history').Perm ((keyStep σ k rows
      (graphStream σ order g (resolveWindow σ reg events).records)
      (graphStream σ order g (resolveWindow σ reg events).superseded)).entries ++
        entriesOf k history)) :
    FactIndexed k rows' history' (factEvents reg g k (log ++ events)) := by
  obtain ⟨L, R, hs, htr, hR, hRp⟩ := h.timeline
  rw [factEvents_append]
  -- the raw timeline grows by the events of the window
  have hRlt : ∀ a ∈ R, ∀ b ∈ ev.map RunRecord.ev, a.1 < b.1 := by
    intro a ha b hb
    obtain ⟨ra, hra, rfl⟩ := mem_map.1 (hRp.mem_iff.1 ha)
    obtain ⟨rb, hrb, rfl⟩ := mem_map.1 hb
    exact hlt ra hra rb (hev.perm.mem_iff.1 hrb)
  have hR' : StrictAsc Prod.fst (R ++ ev.map RunRecord.ev) :=
    pairwise_append.2 ⟨hR, pairwise_map.2 hstrict, hRlt⟩
  have hRp' : (R ++ ev.map RunRecord.ev).Perm
      ((factEvents reg g k log ++ factEvents reg g k events).map RunRecord.ev) := by
    rw [map_append]
    exact hRp.append (hev.perm.map _)
  unfold keyStep at hrows hhist
  rw [hev.winner] at hrows hhist
  rcases eq_nil_or_concat (lifecycle ev) with hnil | ⟨K, x, hK⟩
  · -- no event of the fact in this window
    have hevnil : ev = [] := by
      cases ev with
      | nil => rfl
      | cons w l => exact absurd hnil (lifecycleFrom_ne_nil w l)
    subst hevnil
    simp only [hnil, List.getLast?_nil, Option.map_none, Option.toList_none, nil_append]
      at hrows hhist
    refine ⟨L, R ++ [].map RunRecord.ev, ⟨?_, hs.asc, hs.flips, ?_, ?_⟩, ?_, hR', hRp'⟩
    · rw [storedLog, hrows]
      exact ((hhist.map _).append_right _).trans hs.perm
    · rw [hrows]; exact hs.last
    · rw [hrows]; exact hs.noRow
    · simpa using htr
  · rw [concat_eq_append] at hK
    have hKs : StrictAsc RunRecord.time (K ++ [x]) := hK ▸ hstrict.sublist (lifecycle_sublist ev)
    have hrest := hev.rest
    rw [hK, dropLast_concat] at hrest
    simp only [hK, List.getLast?_concat, Option.map_some, Option.toList_some] at hrows hhist
    have hE : StrictAsc evTime (K.map (RunRecord.toV2 reg) ++ [x.toV2 reg]) := by
      rw [← map_singleton, ← map_append]
      exact pairwise_map.2 hKs
    have hbefore : (x.toV2 reg).2 = true → K.map (RunRecord.toV2 reg) = [] ∨
        ∀ p, endState Prod.snd p (K.map (RunRecord.toV2 reg)) = false := by
      intro hx
      rcases lifecycle_before_assert hK hx with rfl | hf
      · exact .inl rfl
      · exact .inr fun p => (endState_map _ _).trans (hf p)
    obtain ⟨M, hM⟩ := stepFor_timeline (σ := σ) hone
      (hrest.append_right [((x.toV2 reg).1, (x.toV2 reg).2)]) hE hbefore
    have hKev : (K.map (RunRecord.toV2 reg) ++ [x.toV2 reg]).map evOf =
        (lifecycle ev).map RunRecord.ev := by
      rw [hK, ← map_toV2_evOf reg]
      simp
    have hM' : MergedTimeline _ _ _ _ ((lifecycle ev).map RunRecord.ev) M := hKev ▸ hM
    have hLlt : ∀ a ∈ L, ∀ b ∈ ev.map RunRecord.ev, a.1 < b.1 := by
      intro a ha b hb
      obtain ⟨c, hc, hca⟩ := htr.times a ha
      exact hca ▸ hRlt c hc b hb
    have hsub : ∀ b ∈ (lifecycle ev).map RunRecord.ev, b ∈ ev.map RunRecord.ev :=
      fun b hb => ((lifecycle_sublist ev).map _).subset hb
    refine ⟨L ++ M, R ++ ev.map RunRecord.ev, hs.merge hM' ?_ hrows hhist, ?_, hR', hRp'⟩
    · exact fun a ha b hb => hLlt a ha b (hsub b hb)
    · refine htr.append hRlt ?_ ?_
      · intro a ha
        obtain ⟨b, hb, hba⟩ := hM'.condenses.times a ha
        exact ⟨b, hsub b hb, hba⟩
      · intro τ
        rw [hs.endState_eq, hM'.condenses.state, stateAt_map, stateAt_map]
        exact stateAt_lifecycle hstrict _ τ

/-! ## One window -/

lemma storeHistory_eq (h : entries.length < 2 ^ 32) :
    storeHistory σ entries = .ok (newestFirst σ entries) := by
  have hfold : entries.foldl pushEntry new.startLeaflet =
      ⟨[entries]⟩ := foldl_pushEntry [] [] entries
  have hdec := decode_build σ ⟨[entries]⟩
  have hall : (newestFirst σ entries).take (entries.length % 2 ^ 32) =
      newestFirst σ entries := by
    rw [Nat.mod_eq_of_lt h, take_of_length_le (newestFirst_length σ entries).le]
  simp only [storeHistory, hfold]
  cases hrefs : (build σ ⟨[entries]⟩).2 with
  | nil => rw [hrefs] at hdec; simp at hdec
  | cons =>
    rw [hrefs] at hdec
    simp only [map_cons, hall] at hdec
    exact (List.cons.inj hdec).1

lemma newestFirst_newest (es : List HistEntryV2) : NewestFirst (newestFirst σ es) := by
  have hcmp : ∀ a b : HistEntryV2, compare b.t a.t =
      compare (OrderDual.toDual a.t.toNat) (OrderDual.toDual b.t.toNat) := by
    intro a b
    rw [compare_u32]
    rfl
  refine (σ.asc hcmp es).imp fun {a b} hab => ?_
  exact le_iff_toNat_le.2 hab

lemma rowsOf_ungraphed (k : FactKeyV3) (rows : List RunRecordV2) :
    rowsOf k (rows.map ungraphed) = (rowsOf k rows).map ungraphed := by
  rw [rowsOf, rowsOf, filter_map]
  rfl

lemma FactIndexed.ungraphed (h : FactIndexed k rows history events) :
    FactIndexed k (rows.map ungraphed) history events := by
  obtain ⟨L, R, hs, hrest⟩ := h.timeline
  have hev : ((rowsOf k rows).map RunRecordV2.ungraphed).map RunRecordV2.ev =
      (rowsOf k rows).map ev := by
    rw [map_map]; rfl
  refine ⟨L, R, ⟨?_, hs.asc, hs.flips, ?_, ?_⟩, hrest⟩
  · rw [storedLog, rowsOf_ungraphed, hev]; exact hs.perm
  · intro r hr
    rw [rowsOf_ungraphed] at hr
    obtain ⟨r', hr', rfl⟩ := mem_map.1 hr
    exact hs.last r' hr'
  · intro hnil
    rw [rowsOf_ungraphed, map_eq_nil_iff] at hnil
    exact hs.noRow hnil

def LeafletState.Holds (reg : OTypeRegistry) (order : RunSortOrder) (g : UInt16) (log : List RunRecord)
    (st : LeafletState) : Prop :=
  ∃ rows, columnBatchToRecords st.batch = some rows ∧ Indexed reg order g log rows st.history

/-- **One indexing window succeeds and keeps the invariant.** -/
lemma indexed_window (h : st.Holds reg order g log)
    (hdist : DistinctTimes reg (log ++ events)) (hcut : ∀ a ∈ log, ∀ b ∈ events, a.t ≤ b.t)
    (hone : OneKind reg events) (hcount : (log ++ events).countP (fun r => r.gId == g) < 2 ^ 31) :
    ∃ st', indexWindow σ reg order g st events = some st' ∧ st'.Holds reg order g (log ++ events) := by
  obtain ⟨rows, hdec, hidx⟩ := h
  have hready := window_ready (σ := σ) (g := g) hone hidx.rowsAsc
  generalize hN : graphStream σ order g (resolveWindow σ reg events).records = N at hready
  generalize hS : graphStream σ order g (resolveWindow σ reg events).superseded = S at hready
  have hlen := window_length (σ := σ) (g := g) reg order events
  have hnew : (mergeWalk σ order rows N S).newHistory.length ≤ _ :=
    mergeWalk_newHistory_length rows N S
  rw [hN, hS] at hlen
  rw [countP_append] at hcount
  -- the entries of the window still fit the sidecar
  have hfits : (assembleHistory σ (mergeWalk σ order rows N S).newHistory st.history).length ≤
      2 * (log ++ events).countP (fun r => r.gId == g) := by
    have hold := hidx.count
    rw [assembleHistory, length_append, (σ.perm _ _).length_eq, countP_append]
    omega
  have hstore := storeHistory_eq (σ := σ) (lt_of_le_of_lt hfits (by rw [countP_append]; omega))
  have hmerge := mergeNovelty_window (σ := σ) (g := g) hone hdec hidx.rowsAsc
  simp only [hN, hS] at hmerge
  refine ⟨⟨.ofRecords (mergeWalk σ order rows N S).out, newestFirst σ
    (assembleHistory σ (mergeWalk σ order rows N S).newHistory st.history)⟩, ?_, _,
    columnBatchToRecords_ofRecords _, ?_, newestFirst_newest _, fun k => ?_, ?_⟩
  · simp [indexWindow, hmerge, hstore, Except.toOption]
  · exact pairwise_map.2 (mergeWalk_out_sorted hready)
  · obtain ⟨_, hev⟩ := window_fact (σ := σ) order g hone k
    obtain ⟨hkr, hke⟩ := mergeWalk_key (σ := σ) hready k
    have hevents : DistinctTimes reg events := (pairwise_append.1 hdist).2.1
    refine .ungraphed ((hidx.facts k).window hev (hevents.strictAsc hev.perm hev.asc) ?_
      (rowsOf_length_le hidx.rowsAsc k) ?_ ?_)
    · intro a ha b hb
      obtain ⟨hal, hga, hka⟩ := mem_factEvents.1 ha
      obtain ⟨hbe, hgb, hkb⟩ := mem_factEvents.1 hb
      refine lt_of_le_of_ne (le_iff_toNat_le.1 (hcut a hal b hbe)) fun he => ?_
      exact (pairwise_append.1 hdist).2.2 a hal b hbe (hga.trans hgb.symm) (hka.trans hkb.symm)
        (UInt32.toNat_inj.1 he)
    · rw [hN, hS]; exact hkr
    · rw [hN, hS, ← hke, ← entriesOf_append]
      exact ((σ.perm _ _).trans ((σ.perm _ _).append_right _)).filter _
  · rw [newestFirst_length]
    exact hfits

/-! ## A run of windows -/

lemma empty_holds : LeafletState.empty.Holds reg order g [] := by
  refine ⟨[], columnBatchToRecords_ofRecords [], nil, nil, fun k => ?_, ?_⟩
  · exact ⟨[], [], ⟨.refl _, nil, trivial, by simp, fun _ => rfl⟩, .nil,
      nil, .refl _⟩
  · exact Nat.zero_le _

/-- **Every run of windows keeps the invariant.** -/
lemma indexed_windows (hdist : DistinctTimes reg windows.flatten)
    (hcut : CutInTime windows) (hone : ∀ w ∈ windows, OneKind reg w)
    (hcount : windows.flatten.countP (fun r => r.gId == g) < 2 ^ 31) :
    ∃ st, indexWindows σ reg order g windows = some st ∧ st.Holds reg order g windows.flatten := by
  induction windows using List.reverseRecOn with
  | nil => exact ⟨_, rfl, empty_holds⟩
  | append_singleton windows w ih =>
    rw [flatten_append, flatten_singleton] at hdist hcount ⊢
    obtain ⟨hcutl, -, hcutw⟩ := pairwise_append.1 hcut
    have hless : windows.flatten.countP (fun r => r.gId == g) < 2 ^ 31 := by
      rw [countP_append] at hcount
      omega
    obtain ⟨st, hrun, hst⟩ := ih (pairwise_append.1 hdist).1 hcutl
      (fun v hv => hone v (mem_append_left _ hv)) hless
    have hbefore : ∀ a ∈ windows.flatten, ∀ b ∈ w, a.t ≤ b.t := by
      intro a ha b hb
      obtain ⟨v, hv, hav⟩ := mem_flatten.1 ha
      exact hcutw v hv w (by simp) a hav b hb
    obtain ⟨st', hstep, hst'⟩ := indexed_window (σ := σ) hst hdist hbefore (hone w (by simp)) hcount
    refine ⟨st', ?_, hst'⟩
    rw [indexWindows, foldlM_append]
    show (indexWindows σ reg order g windows >>= fun s => _) = _
    rw [hrun]
    simpa using hstep

/-! ## Reading a leaflet at a past time -/

lemma presentAt_iff (hR : StrictAsc Prod.fst R)
    (hperm : R.Perm ((factEvents reg g k log).map RunRecord.ev))
    (hn : ∀ r ∈ factEvents reg g k log, r.time ≤ n ↔ (r.t.toNat : ℤ) ≤ target) :
    stateAt Prod.fst Prod.snd false R n = true ↔ PresentAt reg g log k target := by
  have hasc : Asc (rank Prod.fst Prod.snd) R := hR.rank_of_time.asc
  rw [stateAt_iff_lastAssert hasc]
  have hmem : ∀ a, a ∈ R ↔ ∃ r ∈ factEvents reg g k log, r.ev = a := by
    intro a
    rw [hperm.mem_iff, mem_map]
  constructor
  · rintro ⟨a, ha, hop, hle, hmax⟩
    obtain ⟨r, hr, rfl⟩ := (hmem a).1 ha
    refine ⟨r, hr, hop, (hn r hr).1 hle, fun b hb hbt => ?_⟩
    exact Int.ofNat_le.2 (hmax b.ev ((hmem _).2 ⟨b, hb, rfl⟩) ((hn b hb).2 hbt))
  · rintro ⟨r, hr, hop, hle, hmax⟩
    refine ⟨r.ev, (hmem _).2 ⟨r, hr, rfl⟩, hop, (hn r hr).2 hle, ?_⟩
    intro b hb hbt
    obtain ⟨rb, hrb, rfl⟩ := (hmem b).1 hb
    exact Int.ofNat_le.1 (hmax rb hrb ((hn rb hrb).1 hbt))

structure ReadsAt (reg : OTypeRegistry) (order : RunSortOrder) (g : UInt16) (log : List RunRecord)
    (target : ℤ) (out : List RunRecordV2) : Prop where
  /-- In sort order, each fact once. -/
  sorted : StrictAsc (pos order) out
  present : ∀ k, (∃ r ∈ out, r.factKey = k) ↔ PresentAt reg g log k target
  times : ∀ r ∈ out, (r.t.toNat : ℤ) ≤ target

lemma Indexed.readsAt (h : Indexed reg order g log rows history)
    (hτ : ∀ t : UInt32, t ≤ τ ↔ (t.toNat : ℤ) ≤ target) :
    ReadsAt reg order g log target ((replayRows σ order rows history τ).getD rows) := by
  have hkey : ∀ k, (PresentAt reg g log k target →
        ∃ r, rowsOf k ((replayRows σ order rows history τ).getD rows) = [r] ∧ r.t ≤ τ) ∧
      (¬ PresentAt reg g log k target →
        rowsOf k ((replayRows σ order rows history τ).getD rows) = []) := by
    intro k
    obtain ⟨_, _, hs, htr, hR, hRp⟩ := (h.facts k).timeline
    have hread := rowsOf_replay (σ := σ) (τ := τ) h.rowsAsc h.newest hs
    have hpres := presentAt_iff (n := τ.toNat) hR hRp
      fun r _ => le_iff_toNat_le.symm.trans (hτ r.t)
    rw [← htr.state] at hpres
    rw [← hpres, Bool.not_eq_true]
    exact hread
  refine ⟨?_, fun k => ?_, fun r hr => ?_⟩
  · cases hout : replayRows σ order rows history τ with
    | none => exact h.rowsAsc
    | some => exact replayRows_sorted h.rowsAsc hout
  · by_cases hp : PresentAt reg g log k target
    · obtain ⟨r, hr, -⟩ := (hkey k).1 hp
      have hmem : r ∈ rowsOf k ((replayRows σ order rows history τ).getD rows) := by rw [hr]; simp
      exact iff_of_true ⟨r, mem_rowsOf.1 hmem⟩ hp
    · refine iff_of_false ?_ hp
      rintro ⟨r, hr, hk⟩
      have hmem := mem_rowsOf.2 ⟨hr, hk⟩
      rw [(hkey k).2 hp] at hmem
      simp at hmem
  · have hmem := mem_rowsOf.2 ⟨hr, rfl⟩
    by_cases hp : PresentAt reg g log r.factKey target
    · obtain ⟨_, hr', hle⟩ := (hkey _).1 hp
      rw [hr', mem_singleton] at hmem
      exact (hτ _).1 (hmem ▸ hle)
    · rw [(hkey _).2 hp] at hmem
      simp at hmem

lemma ReadsAt.ungraphed (h : ReadsAt reg order g log target out) :
    ReadsAt reg order g log target (out.map ungraphed) := by
  refine ⟨pairwise_map.2 h.sorted, fun k => ?_, ?_⟩
  · rw [← h.present k]
    simp
  · intro r hr
    obtain ⟨r', hr', rfl⟩ := mem_map.1 hr
    exact h.times r' hr'

/-- **A leaflet that holds the log reads exactly at every time**, also before the first event and
beyond the range of stored times. -/
lemma LeafletState.Holds.reads {st : LeafletState} (h : st.Holds reg order g log) (target : ℤ) :
    ∃ out, st.rowsAt σ order target = some out ∧ ReadsAt reg order g log target out := by
  obtain ⟨rows, hdec, hidx⟩ := h
  unfold LeafletState.rowsAt replayLeaflet
  by_cases hbig : target > 4294967295
  · -- every stored time is before the target
    rw [if_pos hbig]
    have hτ : ∀ t : UInt32, t ≤ 4294967295 ↔ (t.toNat : ℤ) ≤ target := by
      intro t
      have := t.toNat_lt
      rw [le_iff_toNat_le]
      simp
      omega
    have hreads := hidx.readsAt (σ := σ) hτ
    have hnone : replayRows σ order rows st.history 4294967295 = none := by
      have hlast : ∀ t : UInt32, ¬ 4294967295 < t := by
        intro t ht
        have := t.toNat_lt
        rw [lt_iff_toNat_lt] at ht
        simp at ht
        omega
      have htake : st.history.takeWhile (fun e => decide (4294967295 < e.t)) = [] := by
        cases st.history <;> simp [hlast]
      have hnil : undoEvents rows st.history 4294967295 = [] := by
        rw [undoEvents, htake]
        simp [hlast]
      simp [replayRows, hnil]
    rw [hnone] at hreads
    exact ⟨rows, by simpa using hdec, hreads⟩
  · rw [if_neg hbig]
    by_cases hneg : target < 0
    · rw [if_pos hneg]
      refine ⟨[], by simp [columnBatchToRecords, ColumnBatch.empty], nil, fun k => ?_, by simp⟩
      refine iff_of_false (by simp) ?_
      rintro ⟨_, -, -, hle, -⟩
      exact absurd (le_trans (Int.natCast_nonneg _) hle) (not_le.2 hneg)
    · rw [if_neg hneg]
      have hτ : ∀ t : UInt32, t ≤ ofNat target.toNat ↔ (t.toNat : ℤ) ≤ target := by
        intro t
        have hsize : target.toNat < 2 ^ 32 := by omega
        rw [le_iff_toNat_le, toNat_ofNat_of_lt' hsize]
        omega
      have hreads := hidx.readsAt (σ := σ) hτ
      cases hout : replayRows σ order rows st.history (.ofNat target.toNat) with
      | none =>
        rw [hout] at hreads
        exact ⟨rows, by simp [hdec, hout], hreads⟩
      | some out =>
        rw [hout] at hreads
        refine ⟨out.map ungraphed, ?_, hreads.ungraphed⟩
        simp [hdec, hout, columnBatchToRecords_ofRecords]

/-- **Time travel is exact after every window**, as long as the events of one fact in one window
carry one object kind and the graph's log has fewer than 2^31 events. -/
theorem time_travel_exact {windows : List (List RunRecord)} (hdist : DistinctTimes reg windows.flatten)
    (hcut : CutInTime windows) (hone : ∀ w ∈ windows, OneKind reg w)
    (hcount : windows.flatten.countP (fun r => r.gId == g) < 2 ^ 31) (n : ℕ) :
    ∃ st, indexWindows σ reg order g (windows.take n) = some st ∧
      ∀ target, ∃ out, st.rowsAt σ order target = some out ∧
        ReadsAt reg order g (windows.take n).flatten target out := by
  have hsub : (windows.take n).Sublist windows := take_sublist n windows
  have hflat : (windows.take n).flatten.Sublist windows.flatten := by
    conv_rhs => rw [← take_append_drop n windows, flatten_append]
    exact sublist_append_left _ _
  obtain ⟨st, hrun, hst⟩ : ∃ st, indexWindows σ reg order g (windows.take n) = some st ∧
      st.Holds reg order g (windows.take n).flatten :=
    indexed_windows (hdist.sublist hflat) (hcut.sublist hsub) (fun w hw => hone w (hsub.subset hw))
      (lt_of_le_of_lt hflat.countP_le hcount)
  exact ⟨st, hrun, fun target => hst.reads target⟩

/-- An integer value of a datatype outside the built-in ones. -/
def assertInt : RunRecord :=
  { sId := 1, oKey := 7, pId := 1, t := 1, i := LIST_INDEX_NONE, gId := 0, dt := 20, langId := 0,
    oKind := ObjKind.NUM_INT, op := true }

/-- The retract of a dictionary string with the same key and datatype. -/
def retractText : RunRecord := { assertInt with t := 2, oKind := ObjKind.LEX_ID, op := false }

def assertThenRetract : List (List RunRecord) := [[assertInt], [{ assertInt with t := 2, op := false }]]

theorem time_travel_exact_two_windows :
    ∃ st, indexWindows .insertion .builtinOnly .spot 0 (assertThenRetract.take 2) = some st ∧
      ∀ target, ∃ out, st.rowsAt .insertion .spot target = some out ∧
        ReadsAt .builtinOnly .spot 0 (assertThenRetract.take 2).flatten target out :=
  time_travel_exact (by unfold DistinctTimes; decide) (by unfold CutInTime; decide)
    (by unfold OneKind; decide) (by decide) 2

/-- **Two object kinds in one window**: both events concern one identity, the retract is the last
one, and the fact is still there at its time. -/
theorem time_travel_two_kinds : assertInt.factKey .builtinOnly = retractText.factKey .builtinOnly ∧
      DistinctTimes .builtinOnly [assertInt, retractText] ∧
      ¬ ∃ st, indexWindows .insertion .builtinOnly .spot 0 [[assertInt, retractText]] = some st ∧
        ∀ target, ∃ out, st.rowsAt .insertion .spot target = some out ∧
          ReadsAt .builtinOnly .spot 0 [assertInt, retractText] target out := by
  have hrows : (indexWindows .insertion .builtinOnly .spot 0 [[assertInt, retractText]]).bind
      (fun st => st.rowsAt .insertion .spot 2) = some [(assertInt.toV2 .builtinOnly).1] := by
    decide +kernel
  refine ⟨by decide, by unfold DistinctTimes; decide, ?_⟩
  rintro ⟨st, hst, hread⟩
  obtain ⟨out, hout, hr⟩ := hread 2
  rw [hst, Option.bind_some, hout] at hrows
  obtain ⟨_, he, hop, -, hmax⟩ :=
    (hr.present (assertInt.factKey .builtinOnly)).1 ⟨_, by rw [Option.some.inj hrows]; exact mem_singleton.2 rfl, rfl⟩
  have hlast := hmax retractText (by decide) (by decide)
  -- the only event as late as the retract is the retract
  rcases mem_cons.1 (mem_factEvents.1 he).1 with rfl | he
  · exact absurd hlast (by decide)
  · rw [mem_singleton.1 he] at hop
    exact absurd hop (by decide)

end Fluree
