import Fluree.Indexer.Window

/-!
# What the novelty merge does to each fact

The walk of `mergeNovelty` goes over whole streams. Here it is read fact by fact: with sorted
inputs, what comes out for a fact depends only on the fact's own row, its novelty operation
and its superseded events (`keyStep`).
-/

namespace Fluree

open Lib List RunRecordV2 Bool

variable (σ : SortUnstable) (order : RunSortOrder)

def rowsOf (k : FactKeyV3) (rows : List RunRecordV2) : List RunRecordV2 :=
  rows.filter (fun r => r.factKey = k)

def eventsOf (k : FactKeyV3) (events : List (RunRecordV2 × Bool)) : List (RunRecordV2 × Bool) :=
  events.filter (fun e => e.1.factKey = k)

def entriesOf (k : FactKeyV3) (history : List HistEntryV2) : List HistEntryV2 :=
  history.filter (fun e => e.factKey = k)

def evPos (e : RunRecordV2 × Bool) : ℕ := e.1.pos order

/-- An operation on a fact with the given rows. -/
def stepFor (rows : List RunRecordV2) (events : List (RunRecordV2 × Bool)) (nov : RunRecordV2)
    (op : Bool) : MergeStep :=
  match rows with
  | [] => absentStep σ events nov op
  | r :: _ => presentStep σ events r nov op

def keyStep (k : FactKeyV3) (rows : List RunRecordV2) (novelty superseded : List (RunRecordV2 × Bool)) :
    MergeStep :=
  match eventsOf k novelty with
  | [] => ⟨rowsOf k rows, [], []⟩
  | (nov, op) :: _ => stepFor σ (rowsOf k rows) (eventsOf k superseded ++ [(nov, op)]) nov op

lemma cmpV2_lt_eq (r nov : RunRecordV2) :
    (cmpV2ForOrder order r nov == .lt) = decide (r.pos order < nov.pos order) := by
  rw [cmpV2ForOrder_eq_compare]
  rcases lt_trichotomy (r.pos order) (nov.pos order) with h | h | h
  · rw [Nat.compare_eq_lt.2 h]; simp [h]
  · rw [Nat.compare_eq_eq.2 h]; simp [h]
  · rw [Nat.compare_eq_gt.2 h]; simp [h.le]

variable {σ order}

variable {rows : List RunRecordV2} {k : FactKeyV3} {r nov : RunRecordV2} {op : Bool}
  {novelty superseded events : List (RunRecordV2 × Bool)}

/-- One operation of the walk on sorted rows: the earlier rows pass, the fact's own row (if any)
meets the operation, the later rows remain. -/
lemma mergeWalk_cons (hrows : StrictAsc (pos order) rows) (nov : RunRecordV2)
    (op : Bool) (novelty superseded : List (RunRecordV2 × Bool)) :
    mergeWalk σ order rows ((nov, op) :: novelty) superseded =
      let g := gatherIdentityEvents superseded nov op
      let step := stepFor σ (rowsOf nov.factKey rows) g.1 nov op
      let w := mergeWalk σ order (rows.filter (fun r => nov.pos order < r.pos order)) novelty g.2
      { out := rows.filter (fun r => r.pos order < nov.pos order) ++ step.rows ++ w.out,
        newHistory := step.entries ++ w.newHistory,
        matched := step.matched ++ w.matched, rest := w.rest } := by
  have hsplit : Splits (fun r : RunRecordV2 => decide (r.pos order < nov.pos order)) rows :=
    hrows.asc.splits_lt _
  have hbefore := hsplit.takeWhile_eq
  have hafter := hsplit.dropWhile_eq
  have hsub : StrictAsc (pos order)
      (rows.filter (fun r => !decide (r.pos order < nov.pos order))) := hrows.sublist filter_sublist
  have hown : rowsOf nov.factKey rows =
      (rows.filter (fun r => !decide (r.pos order < nov.pos order))).filter
        (fun r => r.pos order = nov.pos order) := by
    rw [rowsOf, filter_filter]
    refine filter_congr fun r _ => ?_
    by_cases h : r.factKey = nov.factKey
    · have := (pos_eq_iff order).2 h
      simp [h, this]
    · have := mt (pos_eq_iff order).1 h
      simp [h, this]
  have hlater : rows.filter (fun r => nov.pos order < r.pos order) =
      (rows.filter (fun r => !decide (r.pos order < nov.pos order))).filter
        (fun r => nov.pos order < r.pos order) := by
    rw [filter_filter]
    refine filter_congr fun r _ => ?_
    by_cases h : nov.pos order < r.pos order
    · simp [h, h.le]
    · simp [h]
  rw [mergeWalk]
  simp only [cmpV2_lt_eq]
  rw [hbefore, hafter, hown, hlater]
  revert hsub
  generalize hl : rows.filter (fun r => !decide (r.pos order < nov.pos order)) = l
  intro hsub
  have hge : ∀ r ∈ l, nov.pos order ≤ r.pos order := by
    intro r hr
    rw [← hl] at hr
    simpa using (mem_filter.1 hr).2
  cases l with
  | nil => rfl
  | cons r rs =>
    have hcons := pairwise_cons.1 hsub
    have hr := hge r (by simp)
    have hrs : ∀ x ∈ rs, nov.pos order < x.pos order := fun x hx => by
      have := hcons.1 x hx; omega
    have hrs1 : rs.filter (fun r => decide (nov.pos order < r.pos order)) = rs :=
      filter_eq_self.2 fun x hx => by simpa using hrs x hx
    have hrs2 : rs.filter (fun r => decide (r.pos order = nov.pos order)) = [] :=
      filter_eq_nil_iff.2 fun x hx => by have := hrs x hx; simp; omega
    have hcmp := cmpV2ForOrder_eq_compare order r nov
    by_cases heq : r.pos order = nov.pos order
    · rw [Nat.compare_eq_eq.2 heq] at hcmp
      simp [hcmp, heq, hrs1, hrs2, stepFor]
    · have hgt : nov.pos order < r.pos order := by omega
      rw [Nat.compare_eq_gt.2 hgt] at hcmp
      simp [hcmp, heq, hgt, hrs1, hrs2, stepFor]

/-! ## Gathering the superseded events of a winner -/

/-- Every superseded event has its winner among the operations. -/
def Covered (novelty superseded : List (RunRecordV2 × Bool)) : Prop :=
  ∀ s ∈ superseded, ∃ n ∈ novelty, n.1.factKey = s.1.factKey

@[simp] lemma mem_rowsOf : r ∈ rowsOf k rows ↔ r ∈ rows ∧ r.factKey = k := by simp [rowsOf]

@[simp] lemma mem_eventsOf : e ∈ eventsOf k l ↔ e ∈ l ∧ e.1.factKey = k := by simp [eventsOf]

@[simp] lemma mem_entriesOf : e ∈ entriesOf k l ↔ e ∈ l ∧ e.factKey = k := by simp [entriesOf]

@[simp] lemma rowsOf_append (k : FactKeyV3) (l₁ l₂ : List RunRecordV2) :
    rowsOf k (l₁ ++ l₂) = rowsOf k l₁ ++ rowsOf k l₂ := filter_append ..

@[simp] lemma entriesOf_append (k : FactKeyV3) (l₁ l₂ : List HistEntryV2) :
    entriesOf k (l₁ ++ l₂) = entriesOf k l₁ ++ entriesOf k l₂ := filter_append ..

lemma gather_cons (hnov : StrictAsc (evPos order) ((nov, op) :: novelty))
    (hsup : Asc (evPos order) superseded) (hcov : Covered ((nov, op) :: novelty) superseded) :
    gatherIdentityEvents superseded nov op = (eventsOf nov.factKey superseded ++ [(nov, op)],
        superseded.filter (fun e => !decide (e.1.factKey = nov.factKey))) := by
  have hge : ∀ s ∈ superseded, nov.pos order ≤ s.1.pos order := by
    intro s hs
    obtain ⟨n, hn, hk⟩ := hcov s hs
    have hpos := (pos_eq_iff order).2 hk
    rcases mem_cons.1 hn with rfl | hn
    · exact hpos.le
    have := (pairwise_cons.1 hnov).1 n hn
    simp only [evPos] at this
    omega
  have hsplit : Splits (fun e : RunRecordV2 × Bool => sameIdentityV2 e.1 nov) superseded := by
    refine List.Pairwise.imp_of_mem ?_ hsup
    intro a b ha _ hab hb
    have h1 := hge a ha
    have h2 := (pos_eq_iff order).2 (sameIdentityV2_iff.1 hb)
    simp only [evPos] at hab
    exact sameIdentityV2_iff.2 ((pos_eq_iff order).1 (by omega))
  have hsame : ∀ e : RunRecordV2 × Bool,
      sameIdentityV2 e.1 nov = decide (e.1.factKey = nov.factKey) := by
    intro e
    rw [Bool.eq_iff_iff]; simp
  simp only [gatherIdentityEvents]
  rw [hsplit.takeWhile_eq, hsplit.dropWhile_eq]
  simp only [hsame]
  rfl

lemma Covered.tail (hcov : Covered ((nov, op) :: novelty) superseded) :
    Covered novelty (superseded.filter (fun e => !decide (e.1.factKey = nov.factKey))) := by
  intro s hs
  obtain ⟨hs, hne⟩ := mem_filter.1 hs
  obtain ⟨n, hn, hk⟩ := hcov s hs
  rcases mem_cons.1 hn with rfl | hn
  · simp [hk] at hne
  · exact ⟨n, hn, hk⟩

/-! ## The streams the walk keeps together -/

/-- Inputs of the walk: sorted rows, sorted operations with one per fact, and sorted superseded
events that all have a winner. -/
structure MergeReady (order : RunSortOrder) (rows : List RunRecordV2)
    (novelty superseded : List (RunRecordV2 × Bool)) : Prop where
  rowsAsc : StrictAsc (pos order) rows
  noveltyAsc : StrictAsc (evPos order) novelty
  supersededAsc : Asc (evPos order) superseded
  covered : Covered novelty superseded

lemma MergeReady.tail (h : MergeReady order rows ((nov, op) :: novelty) superseded) :
    MergeReady order (rows.filter (fun r => nov.pos order < r.pos order)) novelty
      (superseded.filter (fun e => !decide (e.1.factKey = nov.factKey))) :=
  ⟨h.rowsAsc.sublist filter_sublist, (pairwise_cons.1 h.noveltyAsc).2,
    h.supersededAsc.sublist filter_sublist, h.covered.tail⟩

/-- The step of the next fact of the novelty. -/
abbrev stepOf (σ : SortUnstable) (rows : List RunRecordV2) (superseded : List (RunRecordV2 × Bool))
    (nov : RunRecordV2) (op : Bool) : MergeStep :=
  stepFor σ (rowsOf nov.factKey rows) (eventsOf nov.factKey superseded ++ [(nov, op)]) nov op

lemma MergeReady.walk_cons (h : MergeReady order rows ((nov, op) :: novelty) superseded) :
    mergeWalk σ order rows ((nov, op) :: novelty) superseded =
      let step := stepOf σ rows superseded nov op
      let w := mergeWalk σ order (rows.filter (fun r => nov.pos order < r.pos order)) novelty
        (superseded.filter (fun e => !decide (e.1.factKey = nov.factKey)))
      { out := rows.filter (fun r => r.pos order < nov.pos order) ++ step.rows ++ w.out,
        newHistory := step.entries ++ w.newHistory,
        matched := step.matched ++ w.matched, rest := w.rest } := by
  rw [mergeWalk_cons h.rowsAsc]
  simp only [gather_cons h.noveltyAsc h.supersededAsc h.covered]

/-- **Every superseded event is consumed.** -/
lemma mergeWalk_rest (h : MergeReady order rows novelty superseded) :
    (mergeWalk σ order rows novelty superseded).rest = [] := by
  induction novelty generalizing rows superseded with
  | nil =>
    cases superseded with
    | nil => rfl
    | cons s =>
      obtain ⟨n, hn, -⟩ := h.covered s (by simp)
      simp at hn
  | cons n _ ih =>
    obtain ⟨_, _⟩ := n
    rw [h.walk_cons]
    exact ih h.tail

lemma stepFor_rows_subset (h : r ∈ (stepFor σ rows events nov op).rows) : r = nov ∧ op = true := by
  cases rows <;> cases op <;> simp_all [stepFor, absentStep, presentStep]

lemma mem_mergeWalk_out (h : MergeReady order rows novelty superseded)
    (hr : r ∈ (mergeWalk σ order rows novelty superseded).out) :
    r ∈ rows ∨ (r, true) ∈ novelty := by
  induction novelty generalizing rows superseded with
  | nil => exact .inl hr
  | cons n _ ih =>
    obtain ⟨_, _⟩ := n
    rw [h.walk_cons] at hr
    simp only [mem_append] at hr
    rcases hr with (hr | hr) | hr
    · exact .inl (mem_filter.1 hr).1
    · obtain ⟨rfl, rfl⟩ := stepFor_rows_subset hr
      exact .inr (by simp)
    · rcases ih h.tail hr with hr | hr
      · exact .inl (mem_filter.1 hr).1
      · exact .inr (by simp [hr])

/-- **The output rows are strictly sorted.** -/
lemma mergeWalk_out_sorted (h : MergeReady order rows novelty superseded) :
    StrictAsc (pos order) (mergeWalk σ order rows novelty superseded).out := by
  induction novelty generalizing rows superseded with
  | nil => exact h.rowsAsc
  | cons n novelty ih =>
    obtain ⟨nov, op⟩ := n
    have hlater : ∀ r ∈ (mergeWalk σ order (rows.filter (fun r => nov.pos order < r.pos order)) novelty
        (superseded.filter (fun e => !decide (e.1.factKey = nov.factKey)))).out,
        nov.pos order < r.pos order := by
      intro r hr
      rcases mem_mergeWalk_out h.tail hr with hr | hr
      · simpa using (mem_filter.1 hr).2
      · exact (pairwise_cons.1 h.noveltyAsc).1 _ hr
    have hstep : ∀ r ∈ (stepOf σ rows superseded nov op).rows, r = nov :=
      fun r hr => (stepFor_rows_subset hr).1
    rw [h.walk_cons]
    refine pairwise_append.2 ⟨pairwise_append.2 ⟨h.rowsAsc.sublist filter_sublist, ?_, ?_⟩,
      ih h.tail, ?_⟩
    · unfold stepOf
      cases rowsOf nov.factKey rows <;> cases op <;> simp [stepFor, absentStep, presentStep]
    · intro a ha b hb
      rw [hstep b hb]
      simpa using (mem_filter.1 ha).2
    · intro a ha b hb
      rcases mem_append.1 ha with ha | ha
      · have h1 : a.pos order < nov.pos order := by simpa using (mem_filter.1 ha).2
        exact h1.trans (hlater b hb)
      · rw [hstep a ha]; exact hlater b hb

/-! ## Fact by fact -/

lemma pushTransitionEntries_key (hev : ∀ e ∈ events, e.1.factKey = k) :
    ∀ x ∈ (pushTransitionEntries σ events p).1, x.factKey = k := by
  intro x hx
  obtain ⟨e, he, rfl⟩ := mem_map.1 hx
  have hmem : e ∈ transitions Prod.snd p (σ.sort cmpEvent events) := by
    rw [← resolveTransitions_eq]; exact mem_append_left _ he
  exact hev e (σ.mem_sort.1 (transitions_sublist.subset hmem))

lemma stepFor_entries_key (hrows : ∀ r ∈ rows, r.factKey = k)
    (hev : ∀ e ∈ events, e.1.factKey = k) :
    ∀ x ∈ (stepFor σ rows events nov op).entries, x.factKey = k := by
  intro x hx
  cases rows with
  | nil => exact pushTransitionEntries_key hev x hx
  | cons r =>
    simp only [stepFor, presentStep, cons_append, mem_cons, mem_append] at hx
    rcases hx with rfl | hx | hx
    · exact hrows r (by simp)
    · exact pushTransitionEntries_key hev x hx
    split at hx
    · rw [mem_singleton.1 hx]; exact hrows r (by simp)
    · simp at hx

lemma eventsOf_key (k : FactKeyV3) (l : List (RunRecordV2 × Bool)) :
    ∀ e ∈ eventsOf k l, e.1.factKey = k := fun _ he => (mem_eventsOf.1 he).2

lemma stepFor_key :
    ∀ x ∈ (stepOf σ rows superseded nov op).entries, x.factKey = nov.factKey := by
  refine stepFor_entries_key (fun r hr => (mem_rowsOf.1 hr).2) fun e he => ?_
  rcases mem_append.1 he with he | he
  · exact eventsOf_key _ _ e he
  · rw [mem_singleton.1 he]

/-- A fact the first operation does not concern: its later operation, its row and its superseded
events are all still ahead. -/
lemma MergeReady.keyStep_tail (h : MergeReady order rows ((nov, op) :: novelty) superseded)
    (hk : k ≠ nov.factKey) :
    let s' := keyStep σ k (rows.filter (fun r => nov.pos order < r.pos order)) novelty
      (superseded.filter (fun e => !decide (e.1.factKey = nov.factKey)))
    let s := keyStep σ k rows ((nov, op) :: novelty) superseded
    s.rows = rowsOf k (rows.filter (fun r => r.pos order < nov.pos order)) ++ s'.rows ∧
      s.entries = s'.entries ∧ s.matched = s'.matched := by
  have hev : eventsOf k ((nov, op) :: novelty) = eventsOf k novelty := by
    simp [eventsOf, Ne.symm hk]
  have hsup : eventsOf k (superseded.filter (fun e => !decide (e.1.factKey = nov.factKey))) =
      eventsOf k superseded := by
    rw [eventsOf, eventsOf, filter_filter]
    refine filter_congr fun e _ => ?_
    by_cases he : e.1.factKey = k
    · simp [he, hk]
    · simp [he]
  have hpart : rowsOf k rows = rowsOf k (rows.filter (fun r => r.pos order < nov.pos order)) ++
      rowsOf k (rows.filter (fun r => nov.pos order < r.pos order)) := by
    have hsplit : Splits (fun r : RunRecordV2 => decide (r.pos order < nov.pos order)) rows :=
      h.rowsAsc.asc.splits_lt _
    have hcat : rows = rows.filter (fun r => decide (r.pos order < nov.pos order)) ++
        rows.filter (fun r => !decide (r.pos order < nov.pos order)) := by
      rw [← hsplit.takeWhile_eq, ← hsplit.dropWhile_eq, takeWhile_append_dropWhile]
    conv_lhs => rw [hcat]
    rw [rowsOf_append]
    congr 1
    rw [rowsOf, rowsOf, filter_filter, filter_filter]
    refine filter_congr fun r _ => ?_
    by_cases hr : r.factKey = k
    · have hne : r.pos order ≠ nov.pos order := fun he => hk (hr ▸ (pos_eq_iff order).1 he)
      have : (!decide (r.pos order < nov.pos order)) = decide (nov.pos order < r.pos order) := by
        rw [Bool.eq_iff_iff]; simp; omega
      simp [this]
    · simp [hr]
  simp only [keyStep, hev, hsup]
  cases hn : eventsOf k novelty with
  | nil => exact ⟨hpart, rfl, rfl⟩
  | cons e =>
    obtain ⟨n, o⟩ := e
    -- the operation on `k` is still ahead, so is the row of `k`
    have he : (n, o) ∈ eventsOf k novelty := by rw [hn]; simp
    obtain ⟨hmem, hkey⟩ := mem_eventsOf.1 he
    have hlt : nov.pos order < n.pos order := (pairwise_cons.1 h.noveltyAsc).1 _ hmem
    have hnone : rowsOf k (rows.filter (fun r => r.pos order < nov.pos order)) = [] := by
      rw [eq_nil_iff_forall_not_mem]
      intro r hr
      obtain ⟨hr, hrk⟩ := mem_rowsOf.1 hr
      have h1 : r.pos order < nov.pos order := by simpa using (mem_filter.1 hr).2
      have h2 : r.pos order = n.pos order := (pos_eq_iff order).2 (hrk.trans hkey.symm)
      omega
    rw [hpart, hnone]
    exact ⟨rfl, rfl, rfl⟩

/-- **What the walk makes of each fact** depends only on the fact's row, operation and
superseded events. -/
lemma mergeWalk_key (h : MergeReady order rows novelty superseded) (k : FactKeyV3) :
    rowsOf k (mergeWalk σ order rows novelty superseded).out =
        (keyStep σ k rows novelty superseded).rows ∧
      entriesOf k (mergeWalk σ order rows novelty superseded).newHistory =
        (keyStep σ k rows novelty superseded).entries := by
  induction novelty generalizing rows superseded with
  | nil => exact ⟨rfl, rfl⟩
  | cons n novelty ih =>
    obtain ⟨nov, op⟩ := n
    obtain ⟨ihr, ihe⟩ := ih h.tail
    rw [h.walk_cons]
    simp only [rowsOf_append, entriesOf_append, ihr, ihe]
    by_cases hk : k = nov.factKey
    · subst hk
      -- nothing of this fact is left for the rest of the walk
      have hnone : eventsOf nov.factKey novelty = [] := by
        rw [eq_nil_iff_forall_not_mem]
        intro e he
        obtain ⟨hmem, hkey⟩ := mem_eventsOf.1 he
        have h1 : nov.pos order < e.1.pos order := (pairwise_cons.1 h.noveltyAsc).1 _ hmem
        have h2 := (pos_eq_iff order).2 hkey
        omega
      have hpos : ∀ (p : RunRecordV2 → Bool), (∀ r, p r = true → r.pos order ≠ nov.pos order) →
          rowsOf nov.factKey (rows.filter p) = [] := by
        intro p hp
        rw [eq_nil_iff_forall_not_mem]
        intro r hr
        obtain ⟨hr, hrk⟩ := mem_rowsOf.1 hr
        exact hp r (mem_filter.1 hr).2 ((pos_eq_iff order).2 hrk)
      have hrows : rowsOf nov.factKey (stepOf σ rows superseded nov op).rows =
          (stepOf σ rows superseded nov op).rows :=
        filter_eq_self.2 fun r hr => by simp [(stepFor_rows_subset hr).1]
      have hent : entriesOf nov.factKey (stepOf σ rows superseded nov op).entries =
          (stepOf σ rows superseded nov op).entries :=
        filter_eq_self.2 fun x hx => by simpa using stepFor_key x hx
      have hself : eventsOf nov.factKey ((nov, op) :: novelty) = [(nov, op)] := by
        rw [eventsOf, filter_cons_of_pos (by simp)]
        exact congrArg _ hnone
      have h1 := hpos (fun r => r.pos order < nov.pos order) (fun r hr => by simp at hr; omega)
      have h2 := hpos (fun r => nov.pos order < r.pos order) (fun r hr => by simp at hr; omega)
      simp [keyStep, hnone, hself, hrows, hent, h1, h2]
    · obtain ⟨h1, h2, -⟩ := h.keyStep_tail (σ := σ) hk
      have hnr : rowsOf k (stepOf σ rows superseded nov op).rows = [] := by
        rw [eq_nil_iff_forall_not_mem]
        intro r hr
        obtain ⟨hr, hrk⟩ := mem_rowsOf.1 hr
        exact hk (by rw [← hrk, (stepFor_rows_subset hr).1])
      have hne : entriesOf k (stepOf σ rows superseded nov op).entries = [] := by
        rw [eq_nil_iff_forall_not_mem]
        intro x hx
        obtain ⟨hx, hxk⟩ := mem_entriesOf.1 hx
        exact hk (by rw [← hxk, stepFor_key x hx])
      rw [h1, h2, hnr, hne]
      simp

/-! ## How much history a merge can add -/

variable (events : List (RunRecordV2 × Bool))

lemma pushTransitionEntries_length (p : Bool) :
    (pushTransitionEntries σ events p).1.length ≤ events.length := by
  have hkept := congrArg List.length (resolveTransitions_eq σ events p)
  have hsub : (transitions Prod.snd p (σ.sort cmpEvent events)).length ≤ _ :=
    transitions_sublist.length_le
  rw [(σ.perm cmpEvent events).length_eq, ← hkept, length_append] at hsub
  simp only [pushTransitionEntries, length_map]
  omega

lemma absentStep_entries_length (nov : RunRecordV2) (op : Bool) :
    (absentStep σ events nov op).entries.length ≤ events.length :=
  pushTransitionEntries_length events false

lemma presentStep_entries_length (row nov : RunRecordV2) (op : Bool) (hne : events ≠ []) :
    (presentStep σ events row nov op).entries.length ≤ events.length + 1 := by
  have hlen := pushTransitionEntries_length (σ := σ) events true
  have hpos := length_pos_iff.2 hne
  simp only [presentStep, length_cons, length_append, cons_append]
  split
  · -- the extra retract is only written when the events left no entry
    rename_i hc
    have hnil : (pushTransitionEntries σ events true).1 = [] := by
      have hunchanged : (pushTransitionEntries σ events true).2 = false := by simp_all
      simp only [pushTransitionEntries, or_eq_false_iff, not_eq_false', List.isEmpty_iff]
        at hunchanged
      simp [pushTransitionEntries, hunchanged.2]
    simp only [hnil, length_nil, length_singleton]
    omega
  · simp only [length_nil]
    omega

/-- **A merge adds at most two entries per operation and one per superseded event.** -/
lemma mergeWalk_newHistory_length (rows : List RunRecordV2)
    (novelty superseded : List (RunRecordV2 × Bool)) :
    (mergeWalk σ order rows novelty superseded).newHistory.length ≤
      superseded.length + 2 * novelty.length := by
  induction novelty generalizing rows superseded with
  | nil => simp [mergeWalk]
  | cons n _ ih =>
    obtain ⟨nov, op⟩ := n
    have hsplit := congrArg List.length
      (takeWhile_append_dropWhile (p := fun e : RunRecordV2 × Bool => sameIdentityV2 e.1 nov)
        (l := superseded))
    rw [length_append] at hsplit
    rw [mergeWalk]
    generalize hev : superseded.takeWhile (fun e => sameIdentityV2 e.1 nov) = own at hsplit
    simp only [gatherIdentityEvents, hev, length_append, length_cons]
    have habs := absentStep_entries_length (σ := σ) (own ++ [(nov, op)]) nov op
    simp only [length_append, length_singleton] at habs
    cases rows.dropWhile (fun r => cmpV2ForOrder order r nov == .lt) with
    | nil =>
      have hrest := ih [] (superseded.dropWhile (fun e => sameIdentityV2 e.1 nov))
      simp only
      omega
    | cons r rs =>
      have hpres := presentStep_entries_length (σ := σ) (own ++ [(nov, op)]) r nov op (by simp)
      simp only [length_append, length_singleton] at hpres
      simp only
      split
      · have hrest := ih rs (superseded.dropWhile (fun e => sameIdentityV2 e.1 nov))
        simp only
        omega
      · have hrest := ih (r :: rs) (superseded.dropWhile (fun e => sameIdentityV2 e.1 nov))
        simp only
        omega

end Fluree
