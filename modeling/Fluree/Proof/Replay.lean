import Fluree.Proof.MergeNovelty

/-!
# Replay reads a fact's timeline from the end

For one fact, the stored rows and history entries form a timeline (`storedLog`). Replay at
`τ` undoes the part after `τ`; this file shows that what it emits for the fact is decided by
the timeline's presence at `τ`.
-/

namespace Fluree

open Lib Option RunRecordV2 HistEntryV2 AssocMap Prod UInt32

variable {σ : SortUnstable} {order : RunSortOrder}

def HistEntryV2.ev (e : HistEntryV2) : ℕ × Bool := (e.t.toNat, e.op)

/-- A row is an assert at its time. -/
def RunRecordV2.ev (r : RunRecordV2) : ℕ × Bool := (r.t.toNat, true)

/-- Everything stored about one fact: its history entries and its row. -/
def storedLog (k : FactKeyV3) (rows : List RunRecordV2) (history : List HistEntryV2) :
    List (ℕ × Bool) :=
  (entriesOf k history).map HistEntryV2.ev ++ (rowsOf k rows).map RunRecordV2.ev

def NewestFirst (history : List HistEntryV2) : Prop := history.Pairwise (fun a b => b.t ≤ a.t)

/-! ## Merging restored rows -/

lemma mergeIncludes_eq_mergeWalk (bases includes : List RunRecordV2) :
    mergeIncludes order bases includes =
      (mergeWalk σ order bases (includes.map (fun r => (r, true))) []).out := by
  induction includes generalizing bases with
  | nil => rfl
  | cons inc _ ih =>
    rw [List.map_cons, mergeIncludes, mergeWalk, gatherIdentityEvents]
    simp only [List.takeWhile_nil, List.dropWhile_nil, List.nil_append, ih]
    cases bases.dropWhile (fun b => cmpV2ForOrder order b inc == .lt) with
    | nil => simp [absentStep]
    | cons =>
      simp only
      split <;> simp [absentStep, presentStep]

variable {bases includes : List RunRecordV2} {k : FactKeyV3} {L : List (ℕ × Bool)}

section

variable (hb : StrictAsc (pos order) bases)
include hb

lemma mergeIncludes_ready (hi : StrictAsc (pos order) includes) :
    MergeReady order bases (includes.map (fun r => (r, true))) [] :=
  ⟨hb, List.pairwise_map.2 hi, List.Pairwise.nil, fun s hs => by simp at hs⟩

lemma mergeIncludes_sorted (hi : StrictAsc (pos order) includes) :
    StrictAsc (pos order) (mergeIncludes order bases includes) := by
  rw [mergeIncludes_eq_mergeWalk (σ := .insertion)]
  exact mergeWalk_out_sorted (mergeIncludes_ready hb hi)

lemma rowsOf_mergeIncludes (hi : StrictAsc (pos order) includes) (k : FactKeyV3) :
    rowsOf k (mergeIncludes order bases includes) =
      match rowsOf k includes with
      | [] => rowsOf k bases
      | r :: _ => [r] := by
  have hev : eventsOf k (includes.map (fun r => (r, true))) =
      (rowsOf k includes).map (fun r => (r, true)) := by
    rw [eventsOf, List.filter_map, rowsOf]; rfl
  rw [mergeIncludes_eq_mergeWalk (σ := .insertion), (mergeWalk_key (mergeIncludes_ready hb hi) k).1,
    keyStep, hev]
  cases rowsOf k includes with
  | nil => rfl
  | cons => cases rowsOf k bases <;> simp [stepFor, absentStep, presentStep]

end

/-! ## Membership of the current rows -/

variable {rows : List RunRecordV2} {history : List HistEntryV2} {τ : UInt32}

lemma rowsOf_length_le (h : StrictAsc (pos order) rows) (k : FactKeyV3) :
    (rowsOf k rows).length ≤ 1 := by
  have hs : StrictAsc (pos order) (rowsOf k rows) := h.sublist List.filter_sublist
  match hr : rowsOf k rows with
  | [] => simp
  | [_] => simp
  | a :: b :: l =>
    rw [hr] at hs
    have ha : a ∈ rowsOf k rows := by rw [hr]; simp
    have hb : b ∈ rowsOf k rows := by rw [hr]; simp
    have hlt := (List.pairwise_cons.1 hs).1 b (by simp)
    have heq := (pos_eq_iff order).2 ((mem_rowsOf.1 ha).2.trans (mem_rowsOf.1 hb).2.symm)
    omega

lemma zipIdx_snd_inj {α : Type*} {l : List α} {a b : α} {i : ℕ} (ha : (a, i) ∈ l.zipIdx)
    (hb : (b, i) ∈ l.zipIdx) : a = b := by
  rw [List.mem_zipIdx_iff_getElem?] at ha hb
  exact some.inj (ha.symm.trans hb)

lemma map_fst_filter_zipIdx {α : Type*} (l : List α) (q : α → Bool) :
    (l.zipIdx.filter (fun x => q x.1)).map fst = l.filter q := by
  conv_rhs => rw [← List.zipIdx_map_fst 0 l]
  rw [List.filter_map]; rfl

lemma membership_get (h : StrictAsc (pos order) rows) {t i} :
    get? (membership rows) k = some (t, i) ↔
      ∃ r, (r, i) ∈ rows.zipIdx ∧ r.factKey = k ∧ r.t = t := by
  rw [membership, get?_foldl_insert rows.zipIdx (fun r => r.1.factKey)
    (fun r => (r.1.t, r.2)) k, map_eq_some_iff]
  constructor
  · rintro ⟨⟨r, _⟩, hr, hv⟩
    obtain ⟨hmem, hk⟩ := List.mem_filter.1 (List.mem_of_getLast? hr)
    obtain ⟨rfl, rfl⟩ := mk.inj hv
    exact ⟨r, hmem, by simpa using hk, rfl⟩
  · rintro ⟨r, hmem, rfl, rfl⟩
    -- the key occurs once, so the last occurrence is this row
    have hin : (r, i) ∈ rows.zipIdx.filter (fun x => x.1.factKey = r.factKey) :=
      List.mem_filter.2 ⟨hmem, by simp⟩
    have hlen : (rows.zipIdx.filter (fun x => x.1.factKey = r.factKey)).length ≤ 1 := by
      have hmap : (rows.zipIdx.filter (fun x => x.1.factKey = r.factKey)).map fst =
          rowsOf r.factKey rows := map_fst_filter_zipIdx rows (fun x => x.factKey = r.factKey)
      rw [← List.length_map (f := fst), hmap]
      exact rowsOf_length_le h _
    have hsing : rows.zipIdx.filter (fun x => x.1.factKey = r.factKey) = [(r, i)] := by
      match hl : rows.zipIdx.filter (fun x => x.1.factKey = r.factKey) with
      | [] => rw [hl] at hin; simp at hin
      | [x] => rw [hl] at hin; rw [List.mem_singleton.1 hin]; exact hl
      | x :: y :: l => rw [hl] at hlen; simp at hlen
    exact ⟨(r, i), by rw [hsing]; rfl, rfl⟩

/-! ## Undoing, fact by fact -/

section

variable (σ k rows history τ)

def undoOf : List UndoEvent :=
  (σ.sort cmpUndo (undoEvents rows history τ)).filter (fun e => e.key = k)

/-- The states replay derives from the undone events. -/
def statesOf : List (FactKeyV3 × FactState) :=
  factStates (membership rows) (σ.sort cmpUndo (undoEvents rows history τ))

/-- Rows that survive: nothing to undo, or present and old enough. -/
def keptRow (r : RunRecordV2) : Bool :=
  match get? (statesOf σ rows history τ) r.factKey with
  | none => true
  | some st => st.present && !decide (τ < r.t)

/-- The restored versions, as collected. -/
def restoredOf : List RunRecordV2 :=
  (statesOf σ rows history τ).filterMap (includeOf (membership rows) history τ)

lemma statesOf_get : get? (statesOf σ rows history τ) k =
      match undoOf σ k rows history τ with
      | [] => none
      | es => some (es.foldl (fun st e => undo e st) (initialState (membership rows) k)) := by
  rw [statesOf, factStates,
    get?_foldl_upsert _ UndoEvent.key (initialState (membership rows)) undo [] k, undoOf]
  cases (σ.sort cmpUndo (undoEvents rows history τ)).filter (fun e => e.key = k) <;> rfl

end

lemma statesOf_nodup : ((statesOf σ rows history τ).map fst).Nodup :=
  nodup_foldl_upsert (m := []) _ UndoEvent.key (initialState (membership rows)) undo
    List.nodup_nil

lemma foldl_undo_present (hne : es ≠ []) (st : FactState) :
    (es.foldl (fun st e => undo e st) st).present = !(es.getLast hne).isAssert := by
  induction es generalizing st with
  | nil => exact absurd rfl hne
  | cons e es ih =>
    by_cases hes : es = []
    · subst hes
      cases he : e.isAssert <;> simp [undo, he]
    · rw [List.foldl_cons, ih hes, List.getLast_cons hes]

lemma mem_undoEvents (h : e ∈ undoEvents rows history τ) :
    ∀ src, e.source = some src → src.factKey = e.key := by
  intro src hsrc
  rcases List.mem_append.1 h with h | h
  · obtain ⟨x, -, rfl⟩ := List.mem_map.1 h
    rw [← some.inj hsrc]
  · obtain ⟨x, -, rfl⟩ := List.mem_map.1 h
    simp at hsrc

variable {st : FactState}

lemma foldl_undo_src {es : List UndoEvent}
    (hes : ∀ e ∈ es, ∀ src, e.source = some src → src.factKey = k)
    (hst : ∀ src, st.includeSrc = some src → src.factKey = k) :
    ∀ src, (es.foldl (fun st e => undo e st) st).includeSrc = some src → src.factKey = k := by
  induction es generalizing st with
  | nil => exact hst
  | cons e _ ih =>
    rw [List.foldl_cons]
    refine ih (fun e' he' => hes e' (by simp [he'])) ?_
    intro src hsrc
    unfold undo at hsrc
    split at hsrc
    · exact hst src hsrc
    split at hsrc
    · exact hes e (by simp) src hsrc
    · exact hst src hsrc

lemma statesOf_src (h : get? (statesOf σ rows history τ) k = some st) :
    ∀ src, st.includeSrc = some src → src.factKey = k := by
  rw [statesOf_get] at h
  revert h
  have hes : ∀ e ∈ undoOf σ k rows history τ, ∀ src, e.source = some src → src.factKey = k := by
    intro e he src hsrc
    obtain ⟨he, hk⟩ := List.mem_filter.1 he
    rw [mem_undoEvents (σ.mem_sort.1 he) src hsrc]
    simpa using hk
  cases hl : undoOf σ k rows history τ with
  | nil => simp
  | cons =>
    intro h
    rw [hl] at hes
    rw [← some.inj h]
    exact foldl_undo_src hes (by simp [initialState])

lemma bases_eq (h : StrictAsc (pos order) rows) :
    (rows.zipIdx.filter (fun r => !((statesOf σ rows history τ).filterMap
      (excludeOf (membership rows) τ)).contains r.2)).map fst =
      rows.filter (keptRow σ rows history τ) := by
  have hkey : ∀ x ∈ rows.zipIdx, (!((statesOf σ rows history τ).filterMap
      (excludeOf (membership rows) τ)).contains x.2) = keptRow σ rows history τ x.1 := by
    rintro ⟨r, i⟩ hx
    have hex : ((statesOf σ rows history τ).filterMap (excludeOf (membership rows) τ)).contains i =
        true ↔ ∃ st, get? (statesOf σ rows history τ) r.factKey = some st ∧
          (st.present = false ∨ τ < r.t) := by
      rw [List.contains_iff_mem, List.mem_filterMap]
      constructor
      · rintro ⟨⟨k, st⟩, hs, he⟩
        have hget := get?_of_mem statesOf_nodup hs
        unfold excludeOf at he
        cases hm : get? (membership rows) k with
        | none => simp [hm] at he
        | some v =>
          obtain ⟨bt, j⟩ := v
          simp only [hm] at he
          split at he
          · rename_i hc
            obtain rfl := some.inj he
            obtain ⟨r', hr', rfl, rfl⟩ := (membership_get h).1 hm
            obtain rfl := zipIdx_snd_inj hx hr'
            exact ⟨st, hget, by simpa using hc⟩
          · simp at he
      · rintro ⟨st, hget, hc⟩
        refine ⟨(r.factKey, st), mem_of_get? hget, ?_⟩
        have hm := (membership_get h).2 ⟨r, hx, rfl, rfl⟩
        simp only [excludeOf, hm]
        rw [if_pos (by simpa using hc)]
    unfold keptRow
    cases hg : get? (statesOf σ rows history τ) r.factKey with
    | none =>
      have hb : ((statesOf σ rows history τ).filterMap (excludeOf (membership rows) τ)).contains i =
          false := Bool.eq_false_iff.2 fun hc => by
        obtain ⟨st, hst, -⟩ := hex.1 hc; simp [hg] at hst
      rw [hb]; rfl
    | some st =>
      rw [hg] at hex
      cases hb : ((statesOf σ rows history τ).filterMap (excludeOf (membership rows) τ)).contains i with
      | true =>
        obtain ⟨st', hst', hc⟩ := hex.1 hb
        obtain rfl := some.inj hst'
        rcases hc with hc | hc <;> simp [hc]
      | false =>
        have hn : ¬ (st.present = false ∨ τ < r.t) := fun hc => by
          rw [hex.2 ⟨st, rfl, hc⟩] at hb; simp at hb
        simp only [not_or, Bool.not_eq_false] at hn
        simp [hn.1, hn.2]
  rw [List.filter_congr hkey, map_fst_filter_zipIdx]

lemma includeOf_key (hsrc : ∀ src, s.2.includeSrc = some src → src.factKey = s.1)
    (h : includeOf members history τ s = some r) : r.factKey = s.1 := by
  have hres : ((findBaseAssertAtTarget s.1 history τ).or s.2.includeSrc).map histEntryToRecord =
      some r := by
    simp only [includeOf] at h
    split at h <;> split at h <;> first | exact h | simp at h
  obtain ⟨e, he, rfl⟩ := map_eq_some_iff.1 hres
  rcases or_eq_some_iff.1 he with he | ⟨-, he⟩
  · have := List.find?_some he
    simp only [Bool.and_eq_true, beq_iff_eq] at this
    exact this.2
  · exact hsrc e he

lemma restoredOf_key (hs : s ∈ statesOf σ rows history τ) :
    ∀ r, includeOf (membership rows) history τ s = some r → r.factKey = s.1 := fun _ hr =>
  includeOf_key (statesOf_src (get?_of_mem statesOf_nodup hs)) hr

lemma rowsOf_restored (k : FactKeyV3) : rowsOf k (restoredOf σ rows history τ) =
      ((get? (statesOf σ rows history τ) k).bind
        (fun st => includeOf (membership rows) history τ (k, st))).toList :=
  filter_filterMap statesOf_nodup _ (fun _ hs => restoredOf_key hs) k

lemma restored_sorted :
    StrictAsc (pos order) (σ.sort (cmpV2ForOrder order) (restoredOf σ rows history τ)) := by
  refine (σ.asc (cmpV2ForOrder_eq_compare order) _).strict ?_
  refine ((σ.perm (cmpV2ForOrder order) _).map _).nodup_iff.2 ?_
  have hkeys : (statesOf σ rows history τ).Pairwise (fun a b => a.1 ≠ b.1) :=
    List.pairwise_map.1 statesOf_nodup
  refine List.pairwise_map.2 (List.pairwise_filterMap.2 (List.Pairwise.imp_of_mem ?_ hkeys))
  intro a b ha hb hab r hr r' hr' hpos
  have h1 := restoredOf_key ha r hr
  have h2 := restoredOf_key hb r' hr'
  exact hab (h1.symm.trans (((pos_eq_iff order).1 hpos).trans h2))

lemma replayRows_eq (h : StrictAsc (pos order) rows) :
    replayRows σ order rows history τ =
      if (undoEvents rows history τ).isEmpty then none
      else some (mergeIncludes order (rows.filter (keptRow σ rows history τ))
        (σ.sort (cmpV2ForOrder order) (restoredOf σ rows history τ))) := by
  rw [← bases_eq h]; rfl

/-- **The emitted rows are strictly sorted.** -/
lemma replayRows_sorted (h : StrictAsc (pos order) rows)
    (hout : replayRows σ order rows history τ = some out) : StrictAsc (pos order) out := by
  rw [replayRows_eq h] at hout
  split at hout
  · simp at hout
  · rw [← some.inj hout]
    exact mergeIncludes_sorted (h.sublist List.filter_sublist) restored_sorted

lemma rowsOf_replayRows (h : StrictAsc (pos order) rows)
    (hout : replayRows σ order rows history τ = some out) (k : FactKeyV3) :
    rowsOf k out =
      match (get? (statesOf σ rows history τ) k).bind
        (fun st => includeOf (membership rows) history τ (k, st)) with
      | some r => [r]
      | none => rowsOf k (rows.filter (keptRow σ rows history τ)) := by
  rw [replayRows_eq h] at hout
  split at hout
  · simp at hout
  rw [← some.inj hout, rowsOf_mergeIncludes (h.sublist List.filter_sublist) restored_sorted]
  have hperm : (rowsOf k (σ.sort (cmpV2ForOrder order) (restoredOf σ rows history τ))).Perm
      ((get? (statesOf σ rows history τ) k).bind
        (fun st => includeOf (membership rows) history τ (k, st))).toList := by
    rw [← rowsOf_restored]
    exact (σ.perm _ _).filter _
  cases hb : (get? (statesOf σ rows history τ) k).bind
      (fun st => includeOf (membership rows) history τ (k, st)) with
  | none => rw [hb] at hperm; rw [hperm.eq_nil]
  | some r => rw [hb] at hperm; rw [List.perm_singleton.1 hperm]

/-! ## The timeline of a fact -/

/-- The rows and entries of a fact are the timeline `L`: a list of transitions from absent, whose
last one, when it is an assert, is the row. -/
structure Stored (k : FactKeyV3) (rows : List RunRecordV2) (history : List HistEntryV2)
    (L : List (ℕ × Bool)) : Prop where
  perm : (storedLog k rows history).Perm L
  asc : StrictAsc (rank fst snd) L
  flips : FlipsFrom snd false L
  last : ∀ r ∈ rowsOf k rows, L.getLast? = some r.ev
  noRow : rowsOf k rows = [] → endState snd false L = false

def UndoEvent.ev (e : UndoEvent) : ℕ × Bool := (e.absT.toNat, e.isAssert)

lemma undoEvents_of (hist : NewestFirst history) (k : FactKeyV3) :
    ((undoEvents rows history τ).filter (fun e => e.key = k)).map UndoEvent.ev =
      after fst τ.toNat (storedLog k rows history) := by
  have hsplit : Splits (fun e : HistEntryV2 => decide (τ < e.t)) history := by
    refine hist.imp fun {a b} hab hb => ?_
    simp only [decide_eq_true_eq] at hb ⊢
    exact UInt32.lt_of_lt_of_le hb hab
  rw [undoEvents, hsplit.takeWhile_eq, List.filter_append, List.map_append, storedLog, after,
    List.filter_append, List.filter_map, List.filter_map, List.filter_map, List.filter_map,
    List.map_map, List.map_map, List.filter_filter, List.filter_filter, entriesOf, rowsOf,
    List.filter_filter, List.filter_filter]
  congr 1
  · refine congrArg _ (List.filter_congr fun e _ => ?_)
    rw [Bool.eq_iff_iff]
    simp [HistEntryV2.ev, lt_iff_toNat_lt, and_comm]
    exact fun _ => Iff.trans not_le.symm decide_eq_false_iff_not.symm
  · refine congrArg _ (List.filter_congr fun r _ => ?_)
    rw [Bool.eq_iff_iff]
    simp [RunRecordV2.ev, lt_iff_toNat_lt, and_comm]
    exact fun _ => Iff.trans not_le.symm decide_eq_false_iff_not.symm

lemma undoOf_eq (hist : NewestFirst history) (hs : Stored k rows history L) :
    ((undoOf σ k rows history τ).map UndoEvent.ev).reverse = after fst τ.toNat L := by
  have hperm : ((undoOf σ k rows history τ).map UndoEvent.ev).reverse.Perm
      (after fst τ.toNat L) := by
    refine (List.reverse_perm _).trans ?_
    refine (((σ.perm cmpUndo _).filter _).map _).trans ?_
    rw [undoEvents_of hist k]
    exact hs.perm.filter _
  have hcmp : ∀ a b : UndoEvent, cmpUndo a b =
      compare (b.absT.toNat * 2 + b.isAssert.toNat) (a.absT.toNat * 2 + a.isAssert.toNat) := by
    intro a b
    rw [cmpUndo, compare_u32, compare_bool, compare_then b.isAssert.toNat_lt a.isAssert.toNat_lt]
  have hasc : Asc (rank fst snd) ((undoOf σ k rows history τ).map UndoEvent.ev).reverse := by
    have hsorted := σ.sorted cmpUndo (undoEvents rows history τ) ?_
    · refine List.pairwise_reverse.2 (List.pairwise_map.2 ((hsorted.sublist List.filter_sublist).imp ?_))
      intro a b hab
      rw [hcmp, ne_eq, Nat.compare_eq_gt, not_lt] at hab
      exact rank_le_iff.2 hab
    · have hdual : ∀ a b : UndoEvent, cmpUndo a b =
          compare (OrderDual.toDual (a.absT.toNat * 2 + a.isAssert.toNat))
            (OrderDual.toDual (b.absT.toNat * 2 + b.isAssert.toNat)) := by
        intro a b; rw [hcmp]; rfl
      exact totalOn_of_key hdual _
  refine List.Perm.eq_of_pairwise ?_ hasc (hs.asc.asc.sublist List.filter_sublist) hperm
  intro a b _ _ hab hba
  exact (toLex.injective (le_antisymm hab hba) : (a.1, a.2) = (b.1, b.2))

lemma rowsOf_filter_kept (k : FactKeyV3) (h : get? (statesOf σ rows history τ) k = none) :
    rowsOf k (rows.filter (keptRow σ rows history τ)) = rowsOf k rows := by
  rw [rowsOf, rowsOf, List.filter_filter]
  refine List.filter_congr fun r _ => ?_
  by_cases hk : r.factKey = k
  · simp [hk, keptRow, h]
  · simp [hk]

lemma Stored.endState_eq (hs : Stored k rows history L) :
    endState snd false L = !(rowsOf k rows).isEmpty := by
  cases hr : rowsOf k rows with
  | nil => exact hs.noRow hr
  | cons r =>
    have hl := hs.last r (by rw [hr]; simp)
    obtain ⟨_, rfl⟩ := List.getLast?_eq_some_iff.1 hl
    simp [endState, RunRecordV2.ev]

lemma Stored.row_after (hs : Stored k rows history L)
    (ha : a ∈ after fst T L) (hr : r ∈ rowsOf k rows) : T < r.t.toNat := by
  obtain ⟨_, hys⟩ := List.getLast?_eq_some_iff.1 (hs.last r hr)
  obtain ⟨haL, hlt⟩ := mem_after.1 ha
  have hasc := hs.asc.asc.of_rank
  rw [hys] at haL hasc
  rcases List.mem_append.1 haL with h | h
  · exact lt_of_lt_of_le hlt ((List.pairwise_append.1 hasc).2.2 a h r.ev (by simp))
  · rw [List.mem_singleton.1 h] at hlt; exact hlt

/-- A fact present at `τ` whose row is later than `τ` has an assert up to `τ` in its history. -/
lemma Stored.exists_assert (hs : Stored k rows history L)
    (hpres : stateAt fst snd false L τ.toNat = true)
    (hrow : ∀ r ∈ rowsOf k rows, τ.toNat < r.t.toNat) :
    ∃ e, findBaseAssertAtTarget k history τ = some e ∧ e.t ≤ τ := by
  obtain ⟨a, haL, hop, hle, -⟩ := (stateAt_iff_lastAssert hs.asc.asc).1 hpres
  have hmem : a ∈ storedLog k rows history := hs.perm.mem_iff.2 haL
  rcases List.mem_append.1 hmem with h | h
  · obtain ⟨e, he, rfl⟩ := List.mem_map.1 h
    obtain ⟨heh, hek⟩ := mem_entriesOf.1 he
    have hsome : (findBaseAssertAtTarget k history τ).isSome := by
      rw [findBaseAssertAtTarget, List.find?_isSome]
      refine ⟨e, heh, ?_⟩
      have h1 : e.t ≤ τ := le_iff_toNat_le.2 hle
      have h2 : e.op = true := hop
      simp [h1, h2, hek]
    obtain ⟨e', he'⟩ := isSome_iff_exists.1 hsome
    refine ⟨e', he', ?_⟩
    have := List.find?_some he'
    simp only [Bool.and_eq_true, decide_eq_true_eq] at this
    exact this.1.1
  · obtain ⟨r, hr, rfl⟩ := List.mem_map.1 h
    exact absurd hle (not_le.2 (hrow r hr))

lemma exists_replayRows (h : StrictAsc (pos order) rows)
    (hne : undoOf σ k rows history τ ≠ []) : ∃ out, replayRows σ order rows history τ = some out := by
  rw [replayRows_eq h]
  have hev : ¬ (undoEvents rows history τ).isEmpty = true := by
    intro hemp
    refine hne ?_
    rw [undoOf, List.isEmpty_iff.1 hemp, List.Perm.eq_nil (σ.perm cmpUndo [])]
    rfl
  exact ⟨_, if_neg hev⟩

/-- A fact with events after the target is taken back to before the first of them. -/
lemma statesOf_undone (hist : NewestFirst history) (hs : Stored k rows history L)
    (hafter : after fst τ.toNat L = a :: rest) : undoOf σ k rows history τ ≠ [] ∧
      ∃ st, get? (statesOf σ rows history τ) k = some st ∧ st.present = !a.2 := by
  have hrev := undoOf_eq (σ := σ) (τ := τ) hist hs
  have hget := statesOf_get σ k rows history τ
  rw [hafter] at hrev
  have hne : undoOf σ k rows history τ ≠ [] := by intro hnil; rw [hnil] at hrev; simp at hrev
  -- the last event undone is the first one after the target
  have hlast : ((undoOf σ k rows history τ).getLast hne).isAssert = a.2 := by
    have hl := congrArg List.head? hrev
    rw [List.head?_reverse, List.getLast?_map, List.getLast?_eq_some_getLast hne] at hl
    exact congrArg snd (some.inj hl)
  have hp := foldl_undo_present hne (initialState (membership rows) k)
  rw [hlast] at hp
  cases hu : undoOf σ k rows history τ with
  | nil => exact absurd hu hne
  | cons =>
    rw [hu] at hget hp
    exact ⟨List.cons_ne_nil _ _, _, hget, hp⟩

/-- **Replay emits a fact exactly when its timeline is present at the target**, once, with a time
up to the target. -/
lemma rowsOf_replay (h : StrictAsc (pos order) rows) (hist : NewestFirst history)
    (hs : Stored k rows history L) : (stateAt fst snd false L τ.toNat = true →
        ∃ r, rowsOf k ((replayRows σ order rows history τ).getD rows) = [r] ∧ r.t ≤ τ) ∧
      (stateAt fst snd false L τ.toNat = false →
        rowsOf k ((replayRows σ order rows history τ).getD rows) = []) := by
  have hrev := undoOf_eq (σ := σ) (τ := τ) hist hs
  have hundo := stateAt_eq_undo (τ := τ.toNat) hs.asc.asc.of_rank hs.flips
  have hget := statesOf_get σ k rows history τ
  cases hafter : after fst τ.toNat L with
  | nil =>
    -- nothing of this fact is undone: its row, if any, stays
    rw [hafter] at hrev hundo
    have hnil : undoOf σ k rows history τ = [] := by simpa using hrev
    rw [hnil] at hget
    have hrows : rowsOf k ((replayRows σ order rows history τ).getD rows) = rowsOf k rows := by
      cases hout : replayRows σ order rows history τ with
      | none => rfl
      | some =>
        rw [getD_some, rowsOf_replayRows h hout, hget, bind_none]
        exact rowsOf_filter_kept k hget
    simp only [List.head?_nil, hs.endState_eq] at hundo
    rw [hrows, hundo]
    have hone := rowsOf_length_le h k
    match hr : rowsOf k rows with
    | [] => simp
    | [r] =>
      refine ⟨fun _ => ⟨r, rfl, ?_⟩, by simp⟩
      have hmem : r.ev ∈ L := List.mem_of_getLast? (hs.last r (by rw [hr]; simp))
      refine le_iff_toNat_le.2 (not_lt.1 fun hlt => ?_)
      have : r.ev ∈ after fst τ.toNat L := mem_after.2 ⟨hmem, hlt⟩
      rw [hafter] at this; simp at this
    | _ :: _ :: _ => rw [hr] at hone; simp at hone
  | cons a =>
    rw [hafter] at hundo
    obtain ⟨hne, st, hst, hpres⟩ := statesOf_undone hist hs hafter
    obtain ⟨out, hout⟩ := exists_replayRows h hne
    rw [hout, getD_some, rowsOf_replayRows h hout, hst, bind_some]
    have hrow : ∀ r ∈ rowsOf k rows, τ.toNat < r.t.toNat :=
      fun r hr => hs.row_after (a := a) (by rw [hafter]; simp) hr
    simp only [List.head?_cons] at hundo
    rw [hundo]
    constructor
    · intro hp
      rw [hp] at hpres
      obtain ⟨e, he, hle⟩ := hs.exists_assert (hundo.trans hp) hrow
      have hinc : includeOf (membership rows) history τ (k, st) = some (histEntryToRecord e) := by
        simp only [includeOf, he, some_or, map_some, hpres, if_true, Bool.true_and]
        cases hm : get? (membership rows) k with
        | none => rfl
        | some v =>
          obtain ⟨_, _⟩ := v
          obtain ⟨r, hr, hrk, rfl⟩ := (membership_get h).1 hm
          have hlt := hrow r (mem_rowsOf.2
            ⟨List.mem_of_getElem? (List.mem_zipIdx_iff_getElem?.1 hr), hrk⟩)
          simp [lt_iff_toNat_lt, hlt]
      rw [hinc]
      exact ⟨histEntryToRecord e, rfl, hle⟩
    · intro hp
      rw [hp] at hpres
      have hinc : includeOf (membership rows) history τ (k, st) = none := by
        simp only [includeOf, hpres]
        cases get? (membership rows) k <;> simp
      rw [hinc]
      rw [List.eq_nil_iff_forall_not_mem]
      intro r hr
      obtain ⟨hrf, hrk⟩ := mem_rowsOf.1 hr
      have hkept : keptRow σ rows history τ r = true := (List.mem_filter.1 hrf).2
      simp [keptRow, hrk, hst, hpres] at hkept

end Fluree
