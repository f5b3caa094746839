import Mathlib.Data.Int.Order.Basic
import Fluree.Novelty.Apply
import Fluree.Novelty.CommitFlakes
import Fluree.Proof.Rebuild

/-!
# The fact state keeps the deciding operation

`lookup_record`: recording a flake compares it with the operation the fact already has and
keeps the better one; every other fact and graph is left alone. Recording a list of flakes
therefore leaves, for each fact, an operation that nothing beats (`foldl_decideOp`), whatever
the order of the flakes.
-/

namespace Fluree

section FactState

open Lib Bool OrdMap List Prod

namespace NoveltyFactState

/-- The operation of a fact after one more flake. -/
def decideOp (cur : Option (ℤ × Bool)) (f : Flake) : ℤ × Bool :=
  match cur with
  | none => (f.t, f.op)
  | some c => keepBetter fst snd c (f.t, f.op)

def graphMap (st : NoveltyFactState) (g : ℕ) : List (FactKey × (ℤ × Bool)) :=
  (st.graphs[g]?.getD none).getD []

def KeysIn (S : FactKey → Prop) (st : NoveltyFactState) : Prop := ∀ g, ∀ e ∈ st.graphMap g, S e.1

variable {S : FactKey → Prop} {st : NoveltyFactState} {g g' : ℕ} {f : Flake} {k : FactKey}

lemma new_keysIn : KeysIn S new := by
  intro g e he
  simp [new, graphMap] at he

lemma lookup_eq (st : NoveltyFactState) (g : ℕ) (k : FactKey) :
    st.lookup g k = get? FactKey.cmp (st.graphMap g) k := by
  unfold lookup graphMap
  cases h : st.graphs[g]? with
  | none => rfl
  | some o => cases o <;> rfl

lemma graphMap_record (st : NoveltyFactState) (g g' : ℕ) (f : Flake) :
    (st.record g f).graphMap g' = if g' = g then recordIn (st.graphMap g) f else st.graphMap g' := by
  have hlen : g < (st.graphs ++ replicate (g + 1 - st.graphs.length) none).length := by
    rw [length_append, length_replicate]
    omega
  have hget : ∀ i, ((st.graphs ++ replicate (g + 1 - st.graphs.length) none)[i]?.getD none).getD [] =
      st.graphMap i := by
    intro i
    unfold graphMap
    rcases Nat.lt_or_ge i st.graphs.length with hi | hi
    · rw [getElem?_append_left hi]
    · rw [getElem?_append_right hi, getElem?_replicate, getElem?_eq_none hi]
      split <;> rfl
  by_cases hg : g' = g
  · subst hg
    rw [if_pos rfl, ← hget g']
    unfold record
    simp only [graphMap, getElem?_modify_eq]
    rw [getElem?_eq_getElem hlen]
    rfl
  · rw [if_neg hg, ← hget g']
    unfold record
    simp only [graphMap]
    rw [getElem?_modify_ne _ _ (Ne.symm hg)]

lemma recordIn_keys (hm : ∀ e ∈ m, S e.1) (hf : S (keyOf f)) : ∀ e ∈ recordIn m f, S e.1 := by
  intro e he
  unfold recordIn at he
  split at he
  · rcases keys_insert e he with h | h
    · exact h ▸ hf
    · exact hm e h
  · exact hm e he

lemma KeysIn.record (h : KeysIn S st) (hf : S (keyOf f)) : KeysIn S (st.record g f) := by
  intro g' e he
  rw [graphMap_record] at he
  split at he
  · exact recordIn_keys (h g) hf e he
  · exact h g' e he

section

variable (hS : OrdMap.EquivOn FactKey.cmp S)
include hS

lemma get?_recordIn
    (hm : ∀ e ∈ m, S e.1) (hf : S (keyOf f)) (hk : S k) :
    get? FactKey.cmp (recordIn m f) k =
      if k.cmp (keyOf f) = .eq then
        some (decideOp (get? FactKey.cmp m (keyOf f)) f)
      else get? FactKey.cmp m k := by
  unfold recordIn
  cases hcur : get? FactKey.cmp m (keyOf f) with
  | none =>
    simp only [wins, if_true, decideOp]
    rw [get?_insert hS hm hf hk]
  | some c =>
    obtain ⟨curT, curOp⟩ := c
    have hbetter : better fst snd (f.t, f.op) (curT, curOp) =
        wins (some (curT, curOp)) f := by
      rw [Bool.eq_iff_iff]
      simp only [better, wins, or_eq_true, and_eq_true, decide_eq_true_eq, beq_iff_eq, not_eq_true']
      tauto
    simp only [decideOp, keepBetter, hbetter]
    split
    · rw [get?_insert hS hm hf hk]
    split
    · rename_i hkf
      rw [get?_congr hS hm hk hf hkf, hcur]
    · rfl

/-- **Recording a flake keeps the better of its operation and the one its fact had.** -/
lemma lookup_record (hst : KeysIn S st) (hf : S (keyOf f)) (hk : S k) :
    (st.record g f).lookup g' k =
      if g' = g ∧ k.cmp (keyOf f) = .eq then some (decideOp (st.lookup g (keyOf f)) f)
      else st.lookup g' k := by
  simp only [lookup_eq, graphMap_record]
  by_cases hg : g' = g
  · subst hg
    rw [if_pos rfl, get?_recordIn hS (hst g') hf hk]
    simp
  · simp [hg]

lemma lookup_foldl_record {fs : List Flake} (hst : KeysIn S st)
    (hfs : ∀ f ∈ fs, S (keyOf f)) (hk : S k) :
    (fs.foldl (fun st f => st.record g f) st).lookup g k =
      (fs.filter (fun f => k.cmp (keyOf f) == .eq)).foldl (fun cur f => some (decideOp cur f))
        (st.lookup g k) := by
  induction fs generalizing st with
  | nil => rfl
  | cons f _ ih =>
    have hf : S (keyOf f) := hfs f (by simp)
    rw [foldl_cons, ih (hst.record hf) fun x hx => hfs x (by simp [hx]),
      lookup_record hS hst hf hk]
    by_cases hkf : k.cmp (keyOf f) = .eq
    · have hcongr : st.lookup g (keyOf f) = st.lookup g k := by
        rw [lookup_eq, lookup_eq]
        exact get?_congr hS (hst g) hf hk (hS.symm k (keyOf f) hk hf hkf)
      simp [hkf, hcongr]
    · simp [hkf]

end

/-- **The recorded operation of a fact is one that nothing beats.** -/
lemma foldl_decideOp (first : Flake) (fs : List Flake) :
    ∃ c, (first :: fs).foldl (fun cur f => some (decideOp cur f)) none = some c ∧
      Unbeaten fst snd c (· ∈ (first :: fs).map (fun f => (f.t, f.op))) := by
  have hgen : ∀ (fs : List Flake) (c : ℤ × Bool),
      fs.foldl (fun cur f => some (decideOp cur f)) (some c) =
        some ((fs.map (fun f => (f.t, f.op))).foldl (keepBetter fst snd) c) := by
    intro fs
    induction fs with
    | nil => intro c; rfl
    | cons _ _ ih => intro c; exact ih _
  exact ⟨_, hgen fs (first.t, first.op), foldl_keepBetter _ _⟩

end NoveltyFactState

end FactState

/-!
## Operations of one fact at the same time

A fact may be asserted and retracted at one `t`. The query overlay, the novelty fact state and
window deduplication then let the retract win (`overlayPresent_iff`, `factStatePresent_iff`,
`incrementalPresent_iff`). The rebuild walks retracts first, so there the assert comes last and
wins (`rebuildPresent_iff`). The four agree exactly when the latest time does not hold both
(`ties_agree_iff`). Windows are deduplicated by the kind of the object, which the identity of a
fact does not determine, so the events of the fact are assumed to have one kind (`OneFact`).
-/

open Lib List RunRecord NoveltyFactState RebuiltFact

variable {σ : SortUnstable} {reg : OTypeRegistry} {order : RunSortOrder} {g : UInt16} {k : FactKeyV3}
  {log : List RunRecord} {events : List (UInt32 × Bool)}

def eventTime (e : UInt32 × Bool) : ℕ := e.1.toNat

def RunRecord.event (r : RunRecord) : UInt32 × Bool := (r.t, r.op)

/-- The events of one fact, all with one kind of object. -/
structure OneFact (reg : OTypeRegistry) (g : UInt16) (k : FactKeyV3) (log : List RunRecord) :
    Prop where
  fact : ∀ r ∈ log, r.gId = g ∧ r.factKey reg = k
  oneKind : OneKind reg log

def OverlayOp.withEvent (ov : OverlayOp) (e : UInt32 × Bool) : OverlayOp :=
  { ov with t := e.1.toNat, op := e.2 }

def Flake.withEvent (f : Flake) (e : UInt32 × Bool) : Flake := { f with t := e.1.toNat, op := e.2 }

/-! ## What each component computes -/

/-- Presence after the query overlay is resolved. -/
def overlayPresent (σ : SortUnstable) (order : RunSortOrder) (ov : OverlayOp)
    (events : List (UInt32 × Bool)) : Bool :=
  (resolveOverlayOps (sortOverlayOps σ order (events.map ov.withEvent))).any OverlayOp.op

def factStatePresent (g : ℕ) (f : Flake) (events : List (UInt32 × Bool)) : Bool :=
  (events.foldl (fun st e => record st g (f.withEvent e)) new).isAsserted g f

/-- Presence after one window is merged into an empty leaflet; `none` is a panic. -/
def incrementalPresent (σ : SortUnstable) (reg : OTypeRegistry) (order : RunSortOrder)
    (g : UInt16) (log : List RunRecord) : Option Bool :=
  (mergeNovelty σ (windowInput σ reg order g .empty log)).map (fun out => !out.records.isEmpty)

def rebuildPresent (σ : SortUnstable) (order : RunSortOrder) (runs : List (List (RunRecordV2 × Bool))) :
    Bool :=
  !((rebuild σ order runs).filterMap row).isEmpty

def PresentByRule (events : List (UInt32 × Bool)) : Prop :=
  RetractWins eventTime Prod.snd (· ∈ events)

/-- The latest time holds an assert and a retract. -/
def TieAtTop (events : List (UInt32 × Bool)) : Prop :=
  ∃ t, (t, true) ∈ events ∧ (t, false) ∈ events ∧ ∀ e ∈ events, e.1 ≤ t

/-! ## Query overlay -/

lemma bestOp_unbeaten (h : ops ≠ []) :
    ∃ best, bestOp ops = some best ∧ Unbeaten OverlayOp.t OverlayOp.op best (· ∈ ops) := by
  cases ops with
  | nil => exact absurd rfl h
  | cons first rest => exact ⟨_, rfl, foldl_keepBetter first rest⟩

lemma resolveOverlayOps_one (hk : ∀ op ∈ ops, op.factKey = k) :
    resolveOverlayOps ops = (bestOp ops).toList := by
  unfold resolveOverlayOps
  split
  · rename_i hlen
    match ops with
    | [] => rfl
    | [op] => rfl
    | _ :: _ :: _ => simp only [length_cons] at hlen; omega
  · cases ops with
    | nil => rfl
    | cons first rest =>
      have hsame : ∀ op ∈ rest, (op.factKey == first.factKey) = true := fun op hop => by
        rw [beq_iff_eq, hk op (by simp [hop]), hk first (by simp)]
      have hall : rest.takeWhile (fun op => op.factKey == first.factKey) = rest :=
        takeWhile_eq_self_iff.2 hsame
      have hnone : rest.dropWhile (fun op => op.factKey == first.factKey) = [] :=
        dropWhile_eq_nil_iff.2 hsame
      rw [runsBy_cons, hall, hnone]
      rfl

lemma overlayPresent_iff (ov : OverlayOp) (events : List (UInt32 × Bool)) :
    overlayPresent σ order ov events = true ↔ PresentByRule events := by
  have hmem : ∀ op, op ∈ sortOverlayOps σ order (events.map ov.withEvent) ↔
      ∃ e ∈ events, ov.withEvent e = op := fun op => by
    rw [sortOverlayOps, σ.mem_sort, mem_map]
  have hk : ∀ op ∈ sortOverlayOps σ order (events.map ov.withEvent), op.factKey = ov.factKey := by
    intro op hop
    obtain ⟨e, -, rfl⟩ := (hmem op).1 hop
    rfl
  rw [overlayPresent, resolveOverlayOps_one hk]
  by_cases hnil : sortOverlayOps σ order (events.map ov.withEvent) = []
  · rw [hnil]
    refine ⟨fun h => by simp [bestOp] at h, ?_⟩
    rintro ⟨e, he, -⟩
    have := (hmem _).2 ⟨e, he, rfl⟩
    rw [hnil] at this
    simp at this
  · obtain ⟨_, hbest, hun⟩ := bestOp_unbeaten hnil
    rw [hbest]
    simp only [Option.toList_some, any_cons, any_nil, Bool.or_false]
    rw [hun.retractWins]
    exact retractWins_image ov.withEvent hmem (fun b c => Int.ofNat_le) (fun b => rfl)

/-! ## Novelty fact state -/

lemma factStatePresent_iff (g : ℕ) (f : Flake) (events : List (UInt32 × Bool)) :
    factStatePresent g f events = true ↔ PresentByRule events := by
  have hS : OrdMap.EquivOn FactKey.cmp (· = keyOf f) :=
    ⟨by rintro a rfl; exact FactKey.cmp_self _, by rintro a b rfl rfl h; exact h,
      by rintro a b c rfl rfl rfl h _; exact h⟩
  have hfold : events.foldl (fun st e => record st g (f.withEvent e))
      new =
        (events.map f.withEvent).foldl (fun st x => st.record g x) new := by
    rw [foldl_map]
  have hkey : ∀ x ∈ events.map f.withEvent, keyOf x = keyOf f := by
    intro x hx
    obtain ⟨e, -, rfl⟩ := mem_map.1 hx
    rfl
  have hall : (events.map f.withEvent).filter (fun x => (keyOf f).cmp (keyOf x) == .eq) =
      events.map f.withEvent :=
    filter_eq_self.2 fun x hx => by rw [hkey x hx, FactKey.cmp_self]; rfl
  have hlookup := lookup_foldl_record (g := g) hS new_keysIn hkey
    (k := keyOf f) rfl
  rw [hall] at hlookup
  rw [factStatePresent, hfold, isAsserted, hlookup]
  cases events with
  | nil =>
    refine ⟨fun h => ?_, ?_⟩
    · simp [NoveltyFactState.lookup, NoveltyFactState.new] at h
    · rintro ⟨e, he, -⟩
      simp at he
  | cons e events =>
    obtain ⟨c, hc, hun⟩ := foldl_decideOp (f.withEvent e) (events.map f.withEvent)
    have hnone : new.lookup g (keyOf f) = none := rfl
    rw [hnone, map_cons, hc]
    have hmem : ∀ a, a ∈ (f.withEvent e :: events.map f.withEvent).map (fun x => (x.t, x.op)) ↔
        ∃ b ∈ e :: events, ((b.1.toNat : ℤ), b.2) = a := by
      intro a
      rw [← map_cons, map_map, mem_map]
      rfl
    show c.2 = true ↔ _
    rw [hun.retractWins]
    exact retractWins_image (fun b : UInt32 × Bool => ((b.1.toNat : ℤ), b.2)) hmem
      (fun b c => Int.ofNat_le) (fun b => rfl)

/-! ## Windows -/

lemma OneFact.factEvents_eq (h : OneFact reg g k log) : factEvents reg g k log = log :=
  filter_eq_self.2 fun r hr => decide_eq_true (h.fact r hr)

lemma presentByRule_records {ev : List RunRecord} (hperm : ev.Perm log) :
    RetractWins time op (· ∈ ev) ↔ PresentByRule (log.map event) := by
  have hmem : ∀ a, a ∈ log.map event ↔ ∃ b, b ∈ ev ∧ b.event = a := fun a => by
    rw [mem_map]
    exact exists_congr fun b => and_congr_left fun _ => hperm.mem_iff.symm
  exact Iff.symm (retractWins_image event hmem (fun b c => Iff.rfl) (fun b => rfl))

lemma mem_records {g events e}
    (h : e ∈ graphStream σ order g (resolveWindow σ reg events).records) :
    ∃ r ∈ events, r.toV2 reg = e := by
  have hmem := (mem_filter.1 (σ.mem_sort.1 h)).1
  obtain ⟨r, hr, rfl⟩ := mem_map.1 hmem
  exact ⟨r, σ.mem_sort.1 (mem_dedup (.inl hr)), rfl⟩

lemma OneFact.incrementalPresent_iff (h : OneFact reg g k log) :
    ∃ b, incrementalPresent σ reg order g log = some b ∧
      (b = true ↔ PresentByRule (log.map event)) := by
  obtain ⟨ev, hev⟩ := window_fact (σ := σ) order g h.oneKind k
  have hperm := hev.perm
  rw [h.factEvents_eq] at hperm
  have hready : MergeReady order [] (graphStream σ order g (resolveWindow σ reg log).records)
      (graphStream σ order g (resolveWindow σ reg log).superseded) :=
    window_ready h.oneKind List.Pairwise.nil
  have hmerge : mergeNovelty σ (windowInput σ reg order g .empty log) = _ :=
    mergeNovelty_window h.oneKind (columnBatchToRecords_ofRecords []) List.Pairwise.nil
  have hwin := hev.winner
  have hfrom : ∀ e ∈ graphStream σ order g (resolveWindow σ reg log).records,
      ∃ r ∈ log, r.toV2 reg = e := fun e he => mem_records he
  generalize graphStream σ order g (resolveWindow σ reg log).records = N at hready hmerge hwin hfrom
  generalize graphStream σ order g (resolveWindow σ reg log).superseded = S at hready hmerge
  -- every row belongs to the one fact
  have hrows : rowsOf k (mergeWalk σ order [] N S).out = (mergeWalk σ order [] N S).out := by
    refine filter_eq_self.2 fun r hr => decide_eq_true ?_
    rcases mem_mergeWalk_out hready hr with hr | hr
    · simp at hr
    obtain ⟨x, hx, hxr⟩ := hfrom _ hr
    exact (congrArg (fun y : RunRecordV2 × Bool => y.1.factKey) hxr).symm.trans (h.fact x hx).2
  have hkey := (mergeWalk_key (σ := σ) hready k).1
  rw [hrows] at hkey
  refine ⟨_, by rw [incrementalPresent, hmerge]; rfl, ?_⟩
  rw [← presentByRule_records hperm]
  simp only [map_nil, hkey, keyStep, hwin]
  cases hlast : (lifecycle ev).getLast? with
  | none =>
    have hnil : ev = [] := by
      cases ev with
      | nil => rfl
      | cons w l => exact absurd (List.getLast?_eq_none_iff.1 hlast) (lifecycleFrom_ne_nil w l)
    subst hnil
    refine ⟨fun h => by simp [rowsOf] at h, ?_⟩
    rintro ⟨_, ha, -⟩
    simp at ha
  | some f =>
    rw [← lifecycle_retractWins hev.asc hlast]
    have hop : (f.toV2 reg).2 = f.op := rfl
    cases hf : f.op <;> simp [rowsOf, stepFor, absentStep, hop, hf]

/-! ## Rebuild -/

lemma OneFact.rebuildPresent_iff {runs : List (List (RunRecordV2 × Bool))} (h : OneFact reg g k log)
    (hruns : RunsOf reg order g log runs) :
    rebuildPresent σ order runs = true ↔
      ∃ e ∈ log.map event, e.2 = true ∧ ∀ e' ∈ log.map event, eventTime e' ≤ eventTime e := by
  obtain ⟨evs, hperm, -, hrow⟩ := rebuild_fact (σ := σ) hruns.asc k
  have hevs : evs.Perm (log.map (toV2 reg)) := by
    refine hperm.trans ((hruns.eventsOf _).trans ?_)
    rw [h.factEvents_eq]
  have hmem : ∀ x, x ∈ σ.sort cmpEvent evs ↔ ∃ r ∈ log, r.toV2 reg = x := by
    intro x
    rw [σ.mem_sort, hevs.mem_iff, mem_map]
  -- every row belongs to the one fact
  have hall : rowsOf k ((rebuild σ order runs).filterMap row) =
      (rebuild σ order runs).filterMap row := by
    refine filter_eq_self.2 fun r hr => decide_eq_true ?_
    obtain ⟨evs', hperm', -, hrow'⟩ := rebuild_fact (σ := σ) hruns.asc r.factKey
    have hr' : r ∈ rowsOf r.factKey ((rebuild σ order runs).filterMap row) :=
      mem_rowsOf.2 ⟨hr, rfl⟩
    rw [hrow', Option.mem_toList] at hr'
    have hin : (r, true) ∈ evs' := mem_resolveTransitions (.inr ⟨r, hr', rfl⟩)
    have hin' := (hruns.eventsOf r.factKey).mem_iff.1 (hperm'.mem_iff.1 hin)
    obtain ⟨x, hx, hxr⟩ := mem_map.1 hin'
    obtain ⟨hx, -⟩ := mem_factEvents.1 hx
    exact (congrArg (fun y : RunRecordV2 × Bool => y.1.factKey) hxr).symm.trans (h.fact x hx).2
  rw [hall] at hrow
  have hend : rebuildPresent σ order runs = endState Prod.snd false (σ.sort cmpEvent evs) := by
    rw [rebuildPresent, hrow]
    cases hres : (resolveTransitions σ evs false).2 with
    | none =>
      have hr : (resolveFact σ evs).row = none := hres
      rw [hr]
      rcases resolveTransitions_none hres with h | h
      · rw [← endState_transitions, h]; rfl
      · rw [h]; rfl
    | some row =>
      have hr : (resolveFact σ evs).row = some row := hres
      have heq := resolveTransitions_eq σ evs false
      rw [hr, ← endState_transitions, ← heq, hres, endState_append]
      rfl
  rw [hend, endState_iff_lastAssert (sort_cmpEvent_asc σ evs)]
  constructor
  · rintro ⟨x, hx, hop, hmax⟩
    obtain ⟨r, hr, rfl⟩ := (hmem x).1 hx
    refine ⟨_, mem_map_of_mem hr, hop, fun e' he' => ?_⟩
    obtain ⟨r', hr', rfl⟩ := mem_map.1 he'
    exact hmax _ ((hmem _).2 ⟨r', hr', rfl⟩)
  · rintro ⟨e, he, hop, hmax⟩
    obtain ⟨r, hr, rfl⟩ := mem_map.1 he
    refine ⟨_, (hmem _).2 ⟨r, hr, rfl⟩, hop, fun x hx => ?_⟩
    obtain ⟨r', hr', rfl⟩ := (hmem x).1 hx
    exact hmax _ (mem_map_of_mem hr')

/-! ## Agreement -/

/-- All four components give the retract-wins state. The overlay and the fact state see the events
of `log` as those of one overlay operation and of one flake; the latter in the order `recorded`. -/
structure TiesAgree (σ : SortUnstable) (reg : OTypeRegistry) (order : RunSortOrder) (g : UInt16)
    (ov : OverlayOp) (f : Flake) (log : List RunRecord) (recorded : List (UInt32 × Bool))
    (runs : List (List (RunRecordV2 × Bool))) : Prop where
  overlay : overlayPresent σ order ov (log.map event) = true ↔ PresentByRule (log.map event)
  factState : factStatePresent g.toNat f recorded = true ↔ PresentByRule (log.map event)
  incremental : ∃ b, incrementalPresent σ reg order g log = some b ∧
    (b = true ↔ PresentByRule (log.map event))
  rebuild : rebuildPresent σ order runs = true ↔ PresentByRule (log.map event)

lemma presentByRule_of_not_tie (h : ¬ TieAtTop events) :
    (∃ e ∈ events, e.2 = true ∧ ∀ e' ∈ events, eventTime e' ≤ eventTime e) ↔ PresentByRule events := by
  constructor
  · rintro ⟨e, he, hop, hmax⟩
    refine ⟨e, he, hop, fun b hb => ⟨hmax b hb, fun ht => ?_⟩⟩
    by_contra hbop
    have hbt : b.1 = e.1 := UInt32.toNat_inj.1 ht
    refine h ⟨e.1, ?_, ?_, fun x hx => UInt32.le_iff_toNat_le.2 (hmax x hx)⟩
    · rw [← hop]; exact he
    · rw [← hbt, ← (Bool.not_eq_true _).mp hbop]; exact hb
  · rintro ⟨e, he, hop, hall⟩
    exact ⟨e, he, hop, fun b hb => (hall b hb).1⟩

def sampleOp : OverlayOp :=
  { sId := 1, pId := 1, oType := OType.XSD_LONG, oKey := 7, oI := LIST_INDEX_NONE, t := 0, op := true }

def sampleFlake : Flake :=
  { g := none, s := ⟨1, "s"⟩, p := ⟨1, "p"⟩, o := .long 7, dt := ⟨2, "long"⟩, t := 0, op := true, m := none }

def sampleRecord (t : UInt32) (op : Bool) : RunRecord :=
  { sId := 1, oKey := 7, pId := 1, t, i := LIST_INDEX_NONE, gId := 0, dt := 4, langId := 0,
    oKind := ObjKind.NUM_INT, op }

def sampleRuns (log : List RunRecord) : List (List (RunRecordV2 × Bool)) :=
  [log.map (toV2 .builtinOnly)]

end Fluree
