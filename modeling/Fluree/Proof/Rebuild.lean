import Fluree.Indexer.Rebuild
import Fluree.Proof.TimeTravel

/-!
# The k-way merge yields all records in order

The heap always holds exactly the fronts of the streams (`WF`), so each record taken is a
smallest front (`WF.nextRecord`). From sorted runs the merge therefore yields a sorted list of
all their records (`new_yields`), and `nextDedupedWithHistory` cuts it into the runs of equal
identity (`Yields.nextDeduped`).
-/

namespace Fluree

section

open Lib List Option Bool KWayMerge Nat

namespace KWayMerge

variable {order : RunSortOrder}

def entryKey (order : RunSortOrder) (e : HeapEntry) : ℕ ×ₗ ℕ := toLex (e.record.pos order, e.streamIdx)

lemma heapLess_iff (a b : HeapEntry) :
    heapLess order a b = true ↔ entryKey order a < entryKey order b := by
  have hlex : entryKey order a < entryKey order b ↔ a.record.pos order < b.record.pos order ∨
      a.record.pos order = b.record.pos order ∧ a.streamIdx < b.streamIdx := Prod.Lex.lt_iff
  rw [hlex, heapLess, cmpV2ForOrder_eq_compare]
  rcases lt_trichotomy (a.record.pos order) (b.record.pos order) with h | h | h
  · rw [Nat.compare_eq_lt.2 h]; simp [h]
  · rw [Nat.compare_eq_eq.2 h]; simp [h]
  rw [Nat.compare_eq_gt.2 h]
  simp only [false_eq_true, false_iff]
  omega

/-! ## Fronts -/

lemma fronts_append (n : ℕ) (ss ss' : List (List (RunRecordV2 × Bool))) :
    fronts n (ss ++ ss') = fronts n ss ++ fronts (n + ss.length) ss' := by
  induction ss generalizing n with
  | nil => rfl
  | cons _ _ ih =>
    rw [cons_append, fronts, ih, fronts, append_assoc, length_cons]
    congr 3
    omega

lemma mem_fronts (h : e ∈ fronts n ss) :
    ∃ pre rest post, ss = pre ++ ((e.record, e.op) :: rest) :: post ∧ e.streamIdx = n + pre.length := by
  induction ss generalizing n with
  | nil => simp [fronts] at h
  | cons s ss ih =>
    rw [fronts, mem_append] at h
    rcases h with h | h
    · cases s with
      | nil => simp at h
      | cons x rest =>
        simp only [List.head?_cons, map_some, toList_some, mem_singleton] at h
        subst h
        exact ⟨[], rest, ss, rfl, rfl⟩
    · obtain ⟨pre, rest, post, rfl, _⟩ := ih h
      exact ⟨s :: pre, rest, post, rfl, by simp only [length_cons]; omega⟩

lemma front_mem (hs : s ∈ ss) (hy : y ∈ s.head?) : ∃ e ∈ fronts n ss, e.record = y.1 := by
  obtain ⟨pre, _, rfl⟩ := append_of_mem hs
  refine ⟨⟨y.1, y.2, n + pre.length⟩, ?_, rfl⟩
  rw [fronts_append, fronts, mem_def.1 hy]
  simp

lemma modify_middle {α : Type} (f : α → α) (pre post : List α) (a : α) :
    (pre ++ a :: post).modify pre.length f = pre ++ f a :: post := by
  induction pre with
  | nil => simp
  | cons _ _ ih => simpa using ih

/-! ## One record -/

/-- The heap is in order and holds the fronts of the streams. -/
structure WF (order : RunSortOrder) (m : KWayMerge) : Prop where
  heap : Heap.HeapFrom (entryKey order) 0 m.heap
  fronts : m.heap.toList.Perm (fronts 0 m.streams)

lemma new_wf (streams : List (List (RunRecordV2 × Bool))) : (new order streams).WF order :=
  ⟨Heap.heapify_heap heapLess_iff _, Heap.heapify_perm _⟩

lemma set_perm {h : Array HeapEntry} {w x : HeapEntry} {others : List HeapEntry}
    (hw : h[0]? = some w) (hperm : h.toList.Perm (w :: others)) :
    (h.setIfInBounds 0 x).toList.Perm (x :: others) := by
  rw [Array.toList_setIfInBounds]
  rw [← Array.getElem?_toList] at hw
  cases hl : h.toList with
  | nil => rw [hl] at hw; simp at hw
  | cons =>
    rw [hl] at hw hperm
    obtain rfl := Option.some.inj hw
    exact (List.Perm.cons_inv hperm).cons x

variable {m : KWayMerge} {l : List (RunRecordV2 × Bool)}

/-- **One record is a smallest front**, and the heap again holds the fronts. -/
lemma WF.nextRecord (h : m.WF order) {w : HeapEntry} (hw : m.heap[0]? = some w) :
    ∃ m', m.nextRecord order = some ((w.record, w.op), m') ∧ m'.WF order ∧
      Pop (evPos order) m.streams (w.record, w.op) m'.streams := by
  have hmem : w ∈ KWayMerge.fronts 0 m.streams := by
    refine h.fronts.mem_iff.1 ?_
    rw [← Array.getElem?_toList] at hw
    exact mem_of_getElem? hw
  obtain ⟨pre, rest, post, hss, hidx⟩ := mem_fronts hmem
  rw [zero_add] at hidx
  have hmodify : m.streams.modify w.streamIdx List.tail = pre ++ rest :: post := by
    rw [hss, hidx, modify_middle]
    rfl
  have hpeek : (pre ++ rest :: post)[w.streamIdx]?.bind List.head? = rest.head? := by simp [hidx]
  -- the fronts of the other streams do not change
  have hothers : m.heap.toList.Perm
      (w :: (KWayMerge.fronts 0 pre ++ KWayMerge.fronts (pre.length + 1) post)) := by
    refine h.fronts.trans ?_
    rw [hss, fronts_append, KWayMerge.fronts]
    simp only [List.head?_cons, map_some, toList_some, singleton_append, zero_add, ← hidx]
    exact perm_middle
  have hafter : ∀ o : Option (RunRecordV2 × Bool), rest.head? = o →
      KWayMerge.fronts 0 (pre ++ rest :: post) = KWayMerge.fronts 0 pre ++
        ((o.map (fun e => ⟨e.1, e.2, w.streamIdx⟩)).toList ++
          KWayMerge.fronts (pre.length + 1) post) := by
    rintro o rfl
    rw [fronts_append, KWayMerge.fronts, zero_add, ← hidx]
  have hpop : Pop (evPos order) m.streams (w.record, w.op) (pre ++ rest :: post) := by
    refine ⟨⟨pre, rest, post, hss, rfl⟩, fun s hs y hy => ?_⟩
    obtain ⟨e, he, hey⟩ := front_mem (n := 0) hs hy
    have heheap : e ∈ m.heap.toList := h.fronts.mem_iff.2 he
    obtain ⟨j, hj⟩ := mem_iff_getElem?.1 heheap
    rw [Array.getElem?_toList] at hj
    have hle : entryKey order w ≤ entryKey order e := h.heap.min hw j e hj
    have hlex := Prod.Lex.le_iff.1 hle
    simp only [entryKey, ofLex_toLex, hey] at hlex
    show w.record.pos order ≤ y.1.pos order
    omega
  unfold KWayMerge.nextRecord
  simp only [hw, hmodify, hpeek]
  cases hrest : rest.head? with
  | some =>
    refine ⟨_, rfl, ⟨?_, ?_⟩, hpop⟩
    · exact (h.heap.setRoot _).siftDown heapLess_iff (le_refl 0)
    · refine (Heap.siftDown_perm _ 0).trans ((set_perm hw hothers).trans ?_)
      rw [hafter _ hrest]
      exact perm_middle.symm
  | none =>
    have hswap := Heap.swapPop_perm hw
    have hpermpop : (m.heap.swapIfInBounds 0 (m.heap.size - 1)).pop.toList.Perm
        (KWayMerge.fronts 0 (pre ++ rest :: post)) := by
      rw [hafter _ hrest]
      exact List.Perm.cons_inv (hswap.trans hothers)
    refine ⟨_, rfl, ⟨?_, ?_⟩, hpop⟩
    · simp only
      split
      · rename_i hempty
        rw [Array.isEmpty_iff.1 hempty]
        intro i c a b _ _ ha
        simp at ha
      · exact h.heap.swapPop.siftDown heapLess_iff (le_refl 0)
    · simp only
      split
      · exact hpermpop
      · exact (Heap.siftDown_perm _ 0).trans hpermpop

/-! ## All records -/

/-- The merge delivers exactly the records of the list, in this order. -/
def Yields (order : RunSortOrder) : KWayMerge → List (RunRecordV2 × Bool) → Prop
  | m, [] => m.heap[0]? = none ∧ m.pending = 0
  | m, x :: l => ∃ m', (m.heap[0]?.map fun w => (w.record, w.op)) = some x ∧
      m.nextRecord order = some (x, m') ∧ m.pending = l.length + 1 ∧ Yields order m' l

lemma WF.yields (h : m.WF order) : ∃ l, m.Yields order l ∧ Drains (evPos order) m.streams l := by
  induction hn : m.pending generalizing m with
  | zero =>
    have hnil : ∀ s ∈ m.streams, s = [] := by
      rw [← flatten_eq_nil_iff]
      exact length_eq_zero_iff.1 hn
    have hempty : m.heap[0]? = none := by
      rw [← Array.getElem?_toList, List.getElem?_eq_none_iff, h.fronts.length_eq]
      by_contra hlen
      obtain ⟨e, he⟩ := exists_mem_of_length_pos (not_le.1 hlen)
      obtain ⟨_, rest, _, hss, -⟩ := mem_fronts he
      have := hnil ((e.record, e.op) :: rest) (by rw [hss]; simp)
      simp at this
    exact ⟨[], ⟨hempty, hn⟩, .nil hnil⟩
  | succ n ih =>
    have hroot : ∃ w, m.heap[0]? = some w := by
      obtain ⟨_, hy⟩ := exists_mem_of_length_pos (l := m.streams.flatten) (by
        have : m.streams.flatten.length = n + 1 := hn
        omega)
      obtain ⟨s, hs, hys⟩ := mem_flatten.1 hy
      obtain ⟨x, hx⟩ : ∃ x, s.head? = some x := by
        cases s with
        | nil => simp at hys
        | cons x => exact ⟨x, rfl⟩
      obtain ⟨e, he, -⟩ := front_mem (n := 0) hs hx
      have hpos := length_pos_of_mem (h.fronts.mem_iff.2 he)
      exact ⟨_, Array.getElem?_eq_getElem (by simpa using hpos)⟩
    obtain ⟨w, hw⟩ := hroot
    obtain ⟨m', hnext, hwf, hpop⟩ := h.nextRecord hw
    have hlen : m'.pending = n := by
      have := hpop.perm.length_eq
      simp only [length_cons] at this
      simp only [pending] at hn ⊢
      omega
    obtain ⟨l, hy, hd⟩ := ih hwf hlen
    refine ⟨_ :: l, ⟨m', by rw [hw]; rfl, hnext, ?_, hy⟩, .cons hpop hd⟩
    have hll := hd.perm.length_eq
    simp only [pending] at hlen hn ⊢
    omega

/-- **From sorted runs the merge delivers all records in order.** -/
lemma new_yields {streams} (hs : ∀ s ∈ streams, Asc (evPos order) s) :
    ∃ l, (new order streams).Yields order l ∧ l.Perm streams.flatten ∧ Asc (evPos order) l := by
  have hwf : (new order streams).WF order := new_wf streams
  obtain ⟨l, hy, hd⟩ := hwf.yields
  exact ⟨l, hy, hd.perm, hd.asc hs⟩

lemma Yields.pending (h : m.Yields order l) : m.pending = l.length := by
  cases l with
  | nil => exact h.2
  | cons => obtain ⟨_, -, -, hp, -⟩ := h; exact hp

/-! ## One fact at a time -/

/-- The record with the highest `t` last, the first of them when several have it. -/
def pickWinner (w : RunRecordV2 × Bool) (history : List (RunRecordV2 × Bool)) :
    List (RunRecordV2 × Bool) → (RunRecordV2 × Bool) × List (RunRecordV2 × Bool)
  | [] => (w, history)
  | d :: l => if d.1.t > w.1.t then pickWinner d (history ++ [w]) l else pickWinner w (history ++ [d]) l

/-- The records of one fact in the order the rebuild resolves them. -/
def groupEvents : List (RunRecordV2 × Bool) → List (RunRecordV2 × Bool)
  | [] => []
  | x :: l => (pickWinner x [] l).2 ++ [(pickWinner x [] l).1]

lemma pickWinner_perm (w : RunRecordV2 × Bool) (history l : List (RunRecordV2 × Bool)) :
    ((pickWinner w history l).2 ++ [(pickWinner w history l).1]).Perm (history ++ w :: l) := by
  induction l generalizing w history with
  | nil => exact .refl _
  | cons d l ih =>
    unfold pickWinner
    split
    · refine (ih d _).trans ?_
      rw [append_assoc, singleton_append]
    · refine (ih w _).trans ?_
      rw [append_assoc, singleton_append]
      exact (List.Perm.swap w d l).append_left history

lemma groupEvents_perm (l : List (RunRecordV2 × Bool)) : (groupEvents l).Perm l := by
  cases l with
  | nil => exact .refl _
  | cons x l => exact pickWinner_perm x [] l

def sameFact (a b : RunRecordV2 × Bool) : Bool := sameIdentityV2 a.1 b.1

lemma sameFact_congr (h : sameFact a b = true) : sameFact a = sameFact b := by
  funext c
  have hk : a.1.factKey = b.1.factKey := sameIdentityV2_iff.1 h
  rw [Bool.eq_iff_iff, sameFact, sameFact, sameIdentityV2_iff, sameIdentityV2_iff, hk]

lemma Yields.takeDuplicates (h : m.Yields order l) (hfuel : l.length ≤ fuel)
    (w : RunRecordV2 × Bool) (history : List (RunRecordV2 × Bool)) :
    ∃ m', m.takeDuplicates order fuel w history =
        ((pickWinner w history (l.takeWhile (sameFact w))).1,
          (pickWinner w history (l.takeWhile (sameFact w))).2, m') ∧
      m'.Yields order (l.dropWhile (sameFact w)) := by
  induction l generalizing m fuel w history with
  | nil =>
    refine ⟨m, ?_, h⟩
    cases fuel with
    | zero => rfl
    | succ => simp [takeDuplicates, h.1, pickWinner]
  | cons x l ih =>
    obtain ⟨m', hpeek, hnext, hp, hrest⟩ := h
    obtain ⟨fuel, rfl⟩ : ∃ n, fuel = n + 1 := ⟨fuel - 1, by simp only [length_cons] at hfuel; omega⟩
    obtain ⟨e, he, hex⟩ := map_eq_some_iff.1 hpeek
    have hsame : sameIdentityV2 w.1 e.record = sameFact w x := by rw [← hex]; rfl
    simp only [length_cons] at hfuel
    unfold takeDuplicates
    simp only [he, hsame]
    cases hwx : sameFact w x with
    | false =>
      refine ⟨m, ?_, ?_⟩
      · simp [hwx, pickWinner]
      · rw [dropWhile_cons_of_neg (by simp [hwx])]
        exact ⟨m', hpeek, hnext, hp, hrest⟩
    | true =>
      simp only [Bool.not_true, Bool.false_eq_true, if_false, hnext, takeWhile_cons, hwx,
        dropWhile_cons, if_true, pickWinner]
      split
      · -- the new winner has the same identity
        rw [sameFact_congr hwx]
        exact ih hrest (by omega) x _
      · exact ih hrest (by omega) w _

/-- **Taking one fact off the merge takes one run of records.** -/
lemma Yields.nextDeduped (h : m.Yields order (x :: l)) :
    ∃ winner history m', m.nextDedupedWithHistory order = some (winner, history, m') ∧
      history ++ [winner] = groupEvents (x :: l.takeWhile (sameFact x)) ∧
      m'.Yields order (l.dropWhile (sameFact x)) := by
  obtain ⟨_, -, hnext, -, hrest⟩ := h
  obtain ⟨m', htake, hm'⟩ := hrest.takeDuplicates (le_of_eq hrest.pending.symm) x []
  refine ⟨_, _, m', ?_, rfl, hm'⟩
  rw [nextDedupedWithHistory, hnext]
  simp only [htake]

lemma Yields.done (h : m.Yields order []) : m.nextDedupedWithHistory order = none := by
  simp [nextDedupedWithHistory, nextRecord, h.1]

end KWayMerge

end

/-!
## A full rebuild tells the same story as the windows

The rebuild resolves the complete log of each fact at once. Its rows and history satisfy the
same invariant as a leaflet maintained window by window (`rebuild_indexed`), so both report
the same facts at every time (`rebuild_agrees`), and a rebuilt row carries the time its fact
last became present (`rebuild_row_starts`).
-/

open Lib List KWayMerge RunRecord RebuiltFact

variable {σ : SortUnstable} {reg : OTypeRegistry} {order : RunSortOrder} {g : UInt16}

/-! ## Fact by fact -/

lemma rebuildLoop_eq {fuel m l} (h : m.Yields order l) (hfuel : l.length ≤ fuel) :
    rebuildLoop σ order fuel m =
      (runsBy KWayMerge.sameFact l).map (fun run => resolveFact σ (groupEvents run)) := by
  induction fuel generalizing m l with
  | zero =>
    obtain rfl := length_eq_zero_iff.1 (Nat.le_zero.1 hfuel)
    rfl
  | succ fuel ih =>
    cases l with
    | nil => simp [rebuildLoop, h.done, runsBy]
    | cons x l =>
      obtain ⟨_, _, _, hnext, hgroup, hrest⟩ := h.nextDeduped
      have hlen : (l.dropWhile (KWayMerge.sameFact x)).length ≤ fuel := by
        have := (dropWhile_sublist (KWayMerge.sameFact x) (l := l)).length_le
        simp only [length_cons] at hfuel
        omega
      rw [rebuildLoop, hnext]
      simp only
      rw [ih hrest hlen, hgroup, runsBy_cons, map_cons]

variable {runs : List (List (RunRecordV2 × Bool))} {log : List RunRecord}

lemma rebuild_eq (hruns : ∀ run ∈ runs, Asc (evPos order) run) :
    ∃ l, l.Perm runs.flatten ∧ Asc (evPos order) l ∧ rebuild σ order runs =
        (runsBy KWayMerge.sameFact l).map (fun run => resolveFact σ (groupEvents run)) := by
  obtain ⟨l, hy, hperm, hasc⟩ := new_yields hruns
  exact ⟨l, hperm, hasc, rebuildLoop_eq hy (le_of_eq hperm.length_eq)⟩

lemma sameFact_iff (a b : RunRecordV2 × Bool) :
    KWayMerge.sameFact a b = true ↔ evPos order a = evPos order b := by
  rw [KWayMerge.sameFact, sameIdentityV2_iff, evPos, evPos, pos_eq_iff]

lemma mem_resolveTransitions {events p e} (he : e ∈ (resolveTransitions σ events p).1 ∨
      ∃ r, (resolveTransitions σ events p).2 = some r ∧ e = (r, true)) : e ∈ events := by
  have hmem : e ∈ transitions Prod.snd p (σ.sort cmpEvent events) := by
    rw [← resolveTransitions_eq]
    rcases he with he | ⟨r, hr, rfl⟩
    · exact mem_append_left _ he
    · exact mem_append_right _ (by simp [hr])
  exact σ.mem_sort.1 (transitions_sublist.subset hmem)

lemma resolveFact_pos {run v} (hrun : ∀ e ∈ run, evPos order e = v) :
    (∀ x ∈ (resolveFact σ (groupEvents run)).entries, sortKey order x.factKey = v) ∧
      ∀ r ∈ (resolveFact σ (groupEvents run)).row, r.pos order = v := by
  have hgroup : ∀ e ∈ groupEvents run, evPos order e = v :=
    fun e he => hrun e ((groupEvents_perm run).mem_iff.1 he)
  constructor
  · intro x hx
    obtain ⟨e, he, rfl⟩ := mem_map.1 hx
    exact hgroup e (mem_resolveTransitions (Or.inl he))
  · intro r hr
    exact hgroup (r, true) (mem_resolveTransitions (Or.inr ⟨r, hr, rfl⟩))

lemma entriesOf_eq_pos (order : RunSortOrder) (k : FactKeyV3) (l : List HistEntryV2) :
    entriesOf k l = l.filter (fun e => sortKey order e.factKey = sortKey order k) :=
  filter_congr fun e _ => by simp [(sortKey_injective order).eq_iff]

lemma rowsOf_eq_pos (order : RunSortOrder) (k : FactKeyV3) (l : List RunRecordV2) :
    rowsOf k l = l.filter (fun r => r.pos order = sortKey order k) :=
  filter_congr fun r _ => by simp [RunRecordV2.pos, (sortKey_injective order).eq_iff]

lemma eventsOf_eq_pos (order : RunSortOrder) (k : FactKeyV3) (l : List (RunRecordV2 × Bool)) :
    eventsOf k l = l.filter (fun e => evPos order e = sortKey order k) :=
  filter_congr fun e _ => by simp [evPos, RunRecordV2.pos, (sortKey_injective order).eq_iff]

lemma resolveFact_nil : resolveFact σ (groupEvents []) = ⟨[], none⟩ := by
  simp [resolveFact, groupEvents, resolveTransitions, sort_nil, transitions]

/-- **What the rebuild writes for a fact** is the resolved log of the fact. -/
lemma rebuild_fact (hruns : ∀ run ∈ runs, Asc (evPos order) run) (k : FactKeyV3) :
    ∃ events, events.Perm (eventsOf k runs.flatten) ∧
      entriesOf k ((rebuild σ order runs).flatMap entries) = (resolveFact σ events).entries ∧
      rowsOf k ((rebuild σ order runs).filterMap row) = (resolveFact σ events).row.toList := by
  obtain ⟨l, hperm, hasc, heq⟩ := rebuild_eq (σ := σ) hruns
  refine ⟨groupEvents (eventsOf k l),
    (groupEvents_perm _).trans (hperm.filter _), ?_, ?_⟩
  · rw [heq, flatMap_map, entriesOf_eq_pos order, eventsOf_eq_pos order]
    exact flatMap_runsBy_filter sameFact_iff hasc
      (fun run => (resolveFact σ (groupEvents run)).entries)
      (fun run v hv b hb => (resolveFact_pos hv).1 b hb) (by rw [resolveFact_nil]) _
  · rw [heq, filterMap_map, filterMap_eq_flatMap_toList, rowsOf_eq_pos order, eventsOf_eq_pos order]
    exact flatMap_runsBy_filter sameFact_iff hasc
      (fun run => (resolveFact σ (groupEvents run)).row.toList)
      (fun run v hv b hb => (resolveFact_pos hv).2 b (Option.mem_toList.1 hb))
      (by rw [resolveFact_nil]; rfl) _

lemma rebuild_rows_sorted (hruns : ∀ run ∈ runs, Asc (evPos order) run) :
    StrictAsc (RunRecordV2.pos order) ((rebuild σ order runs).filterMap row) := by
  obtain ⟨l, -, hasc, heq⟩ := rebuild_eq (σ := σ) hruns
  obtain ⟨_, hkeys, -, hrunsBy⟩ := runsBy_sorted sameFact_iff hasc
  rw [heq, hrunsBy, map_map, filterMap_map]
  refine pairwise_filterMap.2 (hkeys.imp ?_)
  intro v w hvw r hr r' hr'
  have hpos : ∀ u, ∀ r, (resolveFact σ (groupEvents
      (l.filter (fun a => evPos order a = u)))).row = some r → r.pos order = u := by
    intro u r hr
    exact (resolveFact_pos (fun e he => by simpa using (mem_filter.1 he).2)).2 r hr
  rw [hpos v r hr, hpos w r' hr']
  exact hvw

variable (events : List (RunRecordV2 × Bool))

lemma resolveFact_entries_length : (resolveFact σ events).entries.length ≤ events.length :=
  pushTransitionEntries_length events false

lemma rebuild_entries_length (hruns : ∀ run ∈ runs, Asc (evPos order) run) :
    ((rebuild σ order runs).flatMap entries).length ≤ runs.flatten.length := by
  obtain ⟨l, hperm, -, heq⟩ := rebuild_eq (σ := σ) hruns
  rw [heq, flatMap_map, ← hperm.length_eq]
  conv_rhs => rw [← flatten_runsBy KWayMerge.sameFact l]
  induction runsBy KWayMerge.sameFact l with
  | nil => simp
  | cons run =>
    have hrun := resolveFact_entries_length (σ := σ) (groupEvents run)
    rw [(groupEvents_perm run).length_eq] at hrun
    simp only [flatMap_cons, flatten_cons, length_append]
    omega

/-! ## The invariant -/

lemma map_evOf_resolve : (resolveFact σ events).entries.map HistEntryV2.ev ++
        (resolveFact σ events).row.toList.map RunRecordV2.ev =
      transitions Prod.snd false ((σ.sort cmpEvent events).map evOf) := by
  have heq := congrArg (List.map evOf) (resolveTransitions_eq σ events false)
  rw [transitions_map]
  refine Eq.trans ?_ heq
  rw [map_append, map_map, resolveFact, map_recordToHistEntry]
  rfl

lemma resolveFact_indexed {k rows history events} (hdist : DistinctTimes reg log)
    (hperm : events.Perm ((factEvents reg g k log).map (toV2 reg)))
    (hrows : rowsOf k rows = (resolveFact σ events).row.toList)
    (hhist : (entriesOf k history).Perm (resolveFact σ events).entries) :
    FactIndexed k rows history (factEvents reg g k log) ∧
      ∀ r ∈ rowsOf k rows, ∃ L₀ R, StrictAsc Prod.fst (L₀ ++ [r.ev]) ∧
        endState Prod.snd false L₀ = false ∧ Tracks (L₀ ++ [r.ev]) R ∧ StrictAsc Prod.fst R ∧
          R.Perm ((factEvents reg g k log).map ev) := by
  have hsorted := sort_cmpEvent_asc σ events
  have hsperm : (σ.sort cmpEvent events).Perm ((factEvents reg g k log).map (toV2 reg)) :=
    (σ.perm cmpEvent events).trans hperm
  have hne : (σ.sort cmpEvent events).Pairwise (fun a b => evTime a ≠ evTime b) :=
    (hsperm.pairwise_iff fun hab => hab.symm).2 (pairwise_map.2 (hdist.factEvents g k))
  have hRs : StrictAsc Prod.fst ((σ.sort cmpEvent events).map evOf) := by
    refine pairwise_map.2 ((hsorted.of_rank.and hne).imp ?_)
    rintro a b ⟨hle, hab⟩
    exact lt_of_le_of_ne hle hab
  have hRperm : ((σ.sort cmpEvent events).map evOf).Perm ((factEvents reg g k log).map ev) := by
    rw [← map_toV2_evOf reg]
    exact hsperm.map _
  have hcond := Condenses.transitions hRs false
  have htracks : Tracks (transitions Prod.snd false ((σ.sort cmpEvent events).map evOf))
      ((σ.sort cmpEvent events).map evOf) := ⟨hcond.times, hcond.state⟩
  have hlog := map_evOf_resolve (σ := σ) events
  have hlast : ∀ r ∈ rowsOf k rows, transitions Prod.snd false ((σ.sort cmpEvent events).map evOf) =
      (resolveFact σ events).entries.map HistEntryV2.ev ++ [r.ev] := by
    intro r hr
    rw [hrows] at hr
    rw [← hlog, Option.mem_toList.1 hr]
    rfl
  refine ⟨⟨_, _, ⟨?_, hcond.asc, hcond.flips, ?_, ?_⟩, htracks, hRs, hRperm⟩, ?_⟩
  · rw [storedLog, hrows, ← hlog]
    exact (hhist.map _).append_right _
  · intro r hr
    rw [hlast r hr, List.getLast?_concat]
  · intro hnil
    rw [hrows, Option.toList_eq_nil_iff] at hnil
    rw [endState_transitions, endState_map]
    rcases resolveTransitions_none hnil with h | h
    · rw [← endState_transitions]
      exact congrArg (endState Prod.snd false) h
    · exact h
  · intro r hr
    have heq := hlast r hr
    have hflips := hcond.flips
    have hstrict : StrictAsc Prod.fst (transitions Prod.snd false ((σ.sort cmpEvent events).map evOf)) :=
      hRs.sublist transitions_sublist
    rw [heq] at hflips hstrict htracks
    refine ⟨_, _, hstrict, ?_, htracks, hRs, hRperm⟩
    have hne := (flipsFrom_append.1 hflips).2.1
    simpa [RunRecordV2.ev] using hne

/-- The events of graph `g` in the log, distributed over sorted runs. -/
structure RunsOf (reg : OTypeRegistry) (order : RunSortOrder) (g : UInt16) (log : List RunRecord)
    (runs : List (List (RunRecordV2 × Bool))) : Prop where
  perm : runs.flatten.Perm ((log.filter (fun r => r.gId == g)).map (toV2 reg))
  sorted : ∀ run ∈ runs, run.Pairwise (fun a b => cmpV2ForOrder order a.1 b.1 ≠ Ordering.gt)

lemma RunsOf.asc (h : RunsOf reg order g log runs) : ∀ run ∈ runs, Asc (evPos order) run := by
  intro run hrun
  refine (h.sorted run hrun).imp fun {a b} hab => ?_
  rw [cmpV2ForOrder_eq_compare, ne_eq, Nat.compare_eq_gt, not_lt] at hab
  exact hab

lemma RunsOf.eventsOf (h : RunsOf reg order g log runs) (k : FactKeyV3) :
    (eventsOf k runs.flatten).Perm ((factEvents reg g k log).map (toV2 reg)) := by
  refine (h.perm.filter _).trans (List.Perm.of_eq ?_)
  rw [filter_map, filter_filter, Fluree.factEvents]
  refine congrArg _ (filter_congr fun r _ => ?_)
  by_cases hg : r.gId = g <;> by_cases hk : r.factKey reg = k <;> simp [hg, hk]

lemma RunsOf.length (h : RunsOf reg order g log runs) :
    runs.flatten.length = log.countP (fun r => r.gId == g) := by
  rw [h.perm.length_eq, length_map, countP_eq_length_filter]

/-- **A rebuild keeps the same invariant as the windows.** -/
lemma rebuild_indexed (hdist : DistinctTimes reg log) (hruns : RunsOf reg order g log runs)
    (hcount : log.countP (fun r => r.gId == g) < 2 ^ 31) :
    ∃ st, rebuildLeaflet σ order runs = some st ∧ st.Holds reg order g log := by
  have hlen := rebuild_entries_length (σ := σ) hruns.asc
  rw [hruns.length] at hlen
  have hstore := storeHistory_eq (σ := σ) (lt_of_le_of_lt hlen (by omega))
  refine ⟨⟨.ofRecords ((rebuild σ order runs).filterMap row), HistSidecarBuilder.newestFirst σ
    ((rebuild σ order runs).flatMap entries)⟩, ?_, _, columnBatchToRecords_ofRecords _,
    pairwise_map.2 (rebuild_rows_sorted hruns.asc), newestFirst_newest _, fun k => ?_, ?_⟩
  · simp [rebuildLeaflet, hstore, Except.toOption]
  · obtain ⟨_, hev, hent, hrow⟩ := rebuild_fact (σ := σ) hruns.asc k
    refine .ungraphed (resolveFact_indexed (σ := σ) hdist (hev.trans (hruns.eventsOf k))
      hrow ?_).1
    rw [← hent]
    exact (σ.perm _ _).filter _
  · rw [HistSidecarBuilder.newestFirst_length]
    omega

/-- The row's time is the time of the assert that started the presence the log ends with. -/
structure StartsPresence (reg : OTypeRegistry) (g : UInt16) (log : List RunRecord) (r : RunRecordV2) :
    Prop where
  assert : ∃ e ∈ factEvents reg g r.factKey log, e.op = true ∧ e.t = r.t
  before : ¬ PresentAt reg g log r.factKey ((r.t.toNat : ℤ) - 1)
  since : ∀ target, (r.t.toNat : ℤ) ≤ target → PresentAt reg g log r.factKey target

lemma not_presentAt_neg {k target} (h : target < 0) : ¬ PresentAt reg g log k target := by
  rintro ⟨_, -, -, hle, -⟩
  exact absurd (le_trans (Int.natCast_nonneg _) hle) (not_le.2 h)

/-- **A rebuilt row starts the current presence of its fact.** -/
lemma rebuild_row_starts (hdist : DistinctTimes reg log) (hruns : RunsOf reg order g log runs) {r}
    (hr : r ∈ (rebuild σ order runs).filterMap row) : StartsPresence reg g log r := by
  obtain ⟨_, hev, hent, hrow⟩ := rebuild_fact (σ := σ) hruns.asc r.factKey
  obtain ⟨L₀, R, hstrict, hend, htr, hR, hRp⟩ :=
    (resolveFact_indexed (σ := σ) hdist (hev.trans (hruns.eventsOf r.factKey)) hrow
      (List.Perm.of_eq hent)).2 r (mem_rowsOf.2 ⟨hr, rfl⟩)
  have hlt : ∀ a ∈ L₀, a.1 < r.t.toNat :=
    fun a ha => (pairwise_append.1 hstrict).2.2 a ha r.ev (by simp)
  have hpres : ∀ n : ℕ, r.t.toNat ≤ n → stateAt Prod.fst Prod.snd false R n = true := by
    intro n hn
    rw [← htr.state, stateAt_of_le, endState_append]
    · rfl
    · intro a ha
      rcases mem_append.1 ha with ha | ha
      · exact (hlt a ha).le.trans hn
      · rw [mem_singleton.1 ha]; exact hn
  have hiff : ∀ n : ℕ, stateAt Prod.fst Prod.snd false R n = true ↔ PresentAt reg g log r.factKey n :=
    fun n => presentAt_iff hR hRp fun e _ => by simp [time]
  have hbefore : ¬ PresentAt reg g log r.factKey ((r.t.toNat : ℤ) - 1) := by
    rcases Nat.eq_zero_or_pos r.t.toNat with hz | hz
    · exact not_presentAt_neg (by omega)
    have hcast : ((r.t.toNat : ℤ) - 1) = ((r.t.toNat - 1 : ℕ) : ℤ) := by omega
    have hold : ∀ a ∈ L₀, a.1 ≤ r.t.toNat - 1 := fun a ha => by have := hlt a ha; omega
    rw [hcast, ← hiff, ← htr.state, stateAt_append, stateAt_of_le hold, hend,
      stateAt_of_lt (by simp [RunRecordV2.ev]; omega)]
    simp
  have hsince : ∀ target : ℤ, (r.t.toNat : ℤ) ≤ target → PresentAt reg g log r.factKey target := by
    intro target ht
    have hcast : target = (target.toNat : ℤ) := by omega
    rw [hcast, ← hiff]
    exact hpres _ (by omega)
  refine ⟨?_, hbefore, hsince⟩
  -- the last event up to `r.t` is an assert, and none is before it without being present before
  obtain ⟨e, he, hop, hle, hmax⟩ := hsince _ le_rfl
  refine ⟨e, he, hop, UInt32.toNat_inj.1 (le_antisymm (Int.ofNat_le.1 hle) ?_)⟩
  by_contra hearly
  refine hbefore ⟨e, he, hop, ?_, fun b hb hbt => hmax b hb (by omega)⟩
  show (e.t.toNat : ℤ) ≤ _
  omega

/-- **Incremental indexing and full rebuild agree** at every time, for every distribution of the
log over sorted runs, and a rebuilt row carries the time its fact last became present. -/
theorem rebuild_agrees {windows : List (List RunRecord)} {runs : List (List (RunRecordV2 × Bool))}
    (hdist : DistinctTimes reg windows.flatten) (hcut : CutInTime windows)
    (hone : ∀ w ∈ windows, OneKind reg w)
    (hcount : windows.flatten.countP (fun r => r.gId == g) < 2 ^ 31)
    (hruns : RunsOf reg order g windows.flatten runs) :
    (∃ inc reb, indexWindows σ reg order g windows = some inc ∧
        rebuildLeaflet σ order runs = some reb ∧
        ∀ target, ∃ outInc outReb, inc.rowsAt σ order target = some outInc ∧
          reb.rowsAt σ order target = some outReb ∧
          ∀ k, (∃ r ∈ outInc, r.factKey = k) ↔ ∃ r ∈ outReb, r.factKey = k) ∧
      ∀ r ∈ (rebuild σ order runs).filterMap row, StartsPresence reg g windows.flatten r := by
  obtain ⟨inc, hinc, hincHolds⟩ : ∃ st, indexWindows σ reg order g windows = some st ∧ _ :=
    indexed_windows hdist hcut hone hcount
  obtain ⟨reb, hreb, hrebHolds⟩ : ∃ st, rebuildLeaflet σ order runs = some st ∧ _ :=
    rebuild_indexed hdist hruns hcount
  refine ⟨⟨inc, reb, hinc, hreb, fun target => ?_⟩, fun r hr => rebuild_row_starts hdist hruns hr⟩
  obtain ⟨outInc, hoInc, hInc⟩ := hincHolds.reads (σ := σ) target
  obtain ⟨outReb, hoReb, hReb⟩ := hrebHolds.reads (σ := σ) target
  exact ⟨outInc, outReb, hoInc, hoReb, fun k => (hInc.present k).trans (hReb.present k).symm⟩

theorem rebuild_agrees_two_runs :
    (∃ inc reb, indexWindows .insertion .builtinOnly .spot 0 assertThenRetract = some inc ∧
        rebuildLeaflet .insertion .spot
          (assertThenRetract.map (·.map (toV2 .builtinOnly))) = some reb ∧
        ∀ target, ∃ outInc outReb, inc.rowsAt .insertion .spot target = some outInc ∧
          reb.rowsAt .insertion .spot target = some outReb ∧
          ∀ k, (∃ r ∈ outInc, r.factKey = k) ↔ ∃ r ∈ outReb, r.factKey = k) ∧
      ∀ r ∈ (rebuild .insertion .spot
          (assertThenRetract.map (·.map (toV2 .builtinOnly)))).filterMap row,
        StartsPresence .builtinOnly 0 assertThenRetract.flatten r :=
  rebuild_agrees (by unfold DistinctTimes; decide) (by unfold CutInTime; decide)
    (by unfold OneKind; decide) (by decide) ⟨by decide, by decide⟩

/-- **Two object kinds in one window**: the incremental leaflet still has the fact at the time of
its retract, the rebuilt one does not. -/
theorem rebuild_two_kinds : DistinctTimes .builtinOnly [assertInt, retractText] ∧
      RunsOf .builtinOnly .spot 0 [assertInt, retractText]
        [[assertInt.toV2 .builtinOnly, retractText.toV2 .builtinOnly]] ∧
      ∃ inc reb outInc, indexWindows .insertion .builtinOnly .spot 0 [[assertInt, retractText]] = some inc ∧
        rebuildLeaflet .insertion .spot
          [[assertInt.toV2 .builtinOnly, retractText.toV2 .builtinOnly]] = some reb ∧
        inc.rowsAt .insertion .spot 2 = some outInc ∧ reb.rowsAt .insertion .spot 2 = some [] ∧
        ∃ r ∈ outInc, r.factKey = assertInt.factKey .builtinOnly := by
  have hinc : (indexWindows .insertion .builtinOnly .spot 0 [[assertInt, retractText]]).bind
      (fun st => st.rowsAt .insertion .spot 2) = some [(assertInt.toV2 .builtinOnly).1] := by
    decide +kernel
  have hreb : (rebuildLeaflet .insertion .spot
      [[assertInt.toV2 .builtinOnly, retractText.toV2 .builtinOnly]]).bind
      (fun st => st.rowsAt .insertion .spot 2) = some [] := by
    decide +kernel
  obtain ⟨inc, hi, hir⟩ := Option.bind_eq_some_iff.1 hinc
  obtain ⟨reb, hr, hrr⟩ := Option.bind_eq_some_iff.1 hreb
  exact ⟨by unfold DistinctTimes; decide, ⟨by decide, by decide⟩, inc, reb, _, hi, hr, hir, hrr, _,
    mem_singleton.2 rfl, rfl⟩

end Fluree
