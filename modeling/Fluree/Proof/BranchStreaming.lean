import Fluree.Indexer.UpdateBranch
import Fluree.Proof.MergeNovelty

/-!
# Parallel and serial branch updates coincide

Both ways to drain a branch work on each leaf by itself (`touchLeaf`) and add the results in the
order of the manifest (`Streamed`). For the windows this rests on the slots: whatever order the
tasks of a window finish in, each result lands at the offset of its leaf
(`window_slots_iff`). Results agree always, errors as long as no update of a leaf panics.
-/

namespace Fluree.Streaming

open Lib List Except LeafWorkUnit

variable {κ : Type} {H : ContentAddressing κ} {σ : SortUnstable} {C : Closures κ}
  {config : BranchUpdateConfig}

/-- What is done for one leaf: nothing, or the update of the leaf. -/
def touchLeaf (σ : SortUnstable) (C : Closures κ) (config : BranchUpdateConfig)
    (p : LeafEntry κ × StreamSlices) : Except Fault (Option LeafUpdateOutput) :=
  if p.2.novelty.isEmpty then .ok none
  else do
    let leafBytes ← orError (C.fetchLeaf p.1.leafCid)
    let sidecarBytes ← fetchSidecarOf C p.1
    let output ← updateLeaf σ (makeLeafUpdateInput leafBytes sidecarBytes p.2 config)
    return some output

/-- Every leaf is worked on, and the results are drained in order. -/
def Streamed (H : ContentAddressing κ) (σ : SortUnstable) (C : Closures κ)
    (config : BranchUpdateConfig) (l : List (LeafEntry κ × StreamSlices)) (acc r : BranchAcc κ) :
    Prop :=
  ∃ outs, List.Forall₂ (fun p o => touchLeaf σ C config p = .ok o) l outs ∧
    drainWindow H C config l outs acc = .ok r

variable {l : List (LeafEntry κ × StreamSlices)} {acc r : BranchAcc κ}

lemma drainWindow_append (hlen : l.length = outs.length)
    (acc : BranchAcc κ) : drainWindow H C config (l ++ l') (outs ++ outs') acc =
      drainWindow H C config l outs acc >>= drainWindow H C config l' outs' := by
  induction l generalizing outs acc with
  | nil =>
    obtain rfl := eq_nil_of_length_eq_zero hlen.symm
    rfl
  | cons p l ih =>
    cases outs with
    | nil => cases hlen
    | cons o =>
      have hlen' := Nat.succ.inj hlen
      cases o with
      | none => exact ih hlen' _
      | some =>
        simp only [cons_append, drainWindow, bind_assoc]
        exact congrArg _ (funext fun acc => ih hlen' acc)

lemma streamed_nil : Streamed H σ C config [] acc r ↔ drainWindow H C config [] [] acc = .ok r := by
  constructor
  · rintro ⟨outs, houts, h⟩
    cases houts
    exact h
  · exact fun h => ⟨[], .nil, h⟩

lemma streamed_append : Streamed H σ C config (l ++ l') acc r ↔
      ∃ mid, Streamed H σ C config l acc mid ∧ Streamed H σ C config l' mid r := by
  constructor
  · rintro ⟨outs, houts, hdrain⟩
    have hlen : l.length = (outs.take l.length).length := by
      have := houts.length_eq
      rw [length_append] at this
      rw [length_take]
      omega
    rw [← take_append_drop l.length outs, drainWindow_append hlen, bind_eq_ok] at hdrain
    obtain ⟨mid, hmid, hr⟩ := hdrain
    exact ⟨mid, ⟨_, (forall₂_take_append outs l l' houts.flip).flip, hmid⟩,
      _, (forall₂_drop_append outs l l' houts.flip).flip, hr⟩
  · rintro ⟨mid, ⟨outs, houts, hmid⟩, outs', houts', hr⟩
    refine ⟨outs ++ outs', rel_append houts houts', ?_⟩
    rw [drainWindow_append houts.length_eq, bind_eq_ok]
    exact ⟨mid, hmid, hr⟩

/-! ## The serial loop -/

/-- One turn of the serial loop. -/
lemma updateBranchSerial_cons (p : LeafEntry κ × StreamSlices) :
    updateBranchSerial H σ C config (p :: l) acc = (do
      let o ← touchLeaf σ C config p
      let acc ← drainWindow H C config [p] [o] acc
      updateBranchSerial H σ C config l acc) := by
  obtain ⟨existing, slices⟩ := p
  rw [updateBranchSerial, touchLeaf]
  by_cases hnov : slices.novelty.isEmpty = true
  · rw [if_pos hnov, if_pos hnov]
    rfl
  · rw [if_neg hnov, if_neg hnov]
    simp only [bind_assoc, pure_bind, drainWindow]
    refine congrArg _ (funext fun _ => congrArg _ (funext fun _ => congrArg _ (funext fun _ => ?_)))
    exact congrArg _ (funext fun _ => rfl)

lemma updateBranchSerial_ok_iff :
    updateBranchSerial H σ C config l acc = .ok r ↔ Streamed H σ C config l acc r := by
  induction l generalizing acc with
  | nil => exact streamed_nil.symm
  | cons p l ih =>
    rw [updateBranchSerial_cons, show p :: l = [p] ++ l from rfl, streamed_append]
    simp only [bind_eq_ok, ih]
    constructor
    · rintro ⟨o, ho, mid, hmid, hr⟩
      exact ⟨mid, ⟨[o], .cons ho .nil, hmid⟩, hr⟩
    · rintro ⟨mid, ⟨outs, houts, hmid⟩, hr⟩
      cases houts with
      | cons ho hrest =>
        cases hrest
        exact ⟨_, ho, mid, hmid, hr⟩

/-! ## The windows -/

lemma run_ok_iff : run σ config unit = .ok (idx, output) ↔ unit.manifestIndex = idx ∧
      updateLeaf σ (makeLeafUpdateInput unit.leafBytes unit.sidecarBytes unit.slices config) =
        .ok output := by
  unfold run
  rw [bind_eq_ok]
  constructor
  · rintro ⟨_, hout, h⟩
    obtain ⟨rfl, rfl⟩ := Prod.mk.inj (ok.inj h)
    exact ⟨rfl, hout⟩
  · rintro ⟨rfl, hout⟩
    exact ⟨output, hout, rfl⟩

lemma unwind_eq_ok {y : Except Fault α} {x : Except StoreError α} :
    unwind (some y) = .ok x ↔ y = orError x := by
  rcases y with (_ | _) | _ <;> cases x <;> simp [unwind, orError]

/-- **The slots of a window.** With the results of the workers in the order of the units, the slot
of every leaf holds what was done for it. The slots before index `i` are filled already. -/
lemma window_slots_iff {start i w} (filled : List (Option LeafUpdateOutput)) {r}
    (hi : start + filled.length = i) : (∃ units xs, workUnits C i w = .ok units ∧
      List.Forall₂ (fun u x => run σ config u = orError x) units xs ∧
      outputsByOffset start xs (filled ++ List.replicate w.length none) = .ok r) ↔
      ∃ outs, List.Forall₂ (fun p o => touchLeaf σ C config p = .ok o) w outs ∧ r = filled ++ outs := by
  induction w generalizing i filled with
  | nil =>
    constructor
    · rintro ⟨units, xs, hunits, hxs, h⟩
      obtain rfl := ok.inj hunits
      cases hxs
      exact ⟨[], .nil, (ok.inj h).symm⟩
    · rintro ⟨outs, houts, rfl⟩
      cases houts
      exact ⟨[], [], rfl, .nil, rfl⟩
  | cons p w ih =>
    obtain ⟨existing, slices⟩ := p
    unfold workUnits
    by_cases hnov : slices.novelty.isEmpty = true
    · have htouch : touchLeaf σ C config (existing, slices) = .ok none := if_pos hnov
      have hslots : filled ++ List.replicate (((existing, slices) :: w).length) none =
          (filled ++ [none]) ++ List.replicate w.length none := by
        rw [length_cons, replicate_succ, append_assoc, singleton_append]
      have htail := ih (filled ++ [none]) (i := i + 1) (by simp; omega)
      simp only [if_pos hnov, hslots, htail]
      constructor
      · rintro ⟨outs, houts, rfl⟩
        exact ⟨none :: outs, .cons htouch houts, by simp⟩
      · rintro ⟨outs, houts, rfl⟩
        cases houts with
        | cons ho hrest =>
          rw [htouch] at ho
          obtain rfl := ok.inj ho
          exact ⟨_, hrest, by simp⟩
    · -- the worker's result is put at the offset of this leaf, which is the first empty slot
      have hset : ∀ output : LeafUpdateOutput,
          (filled ++ List.replicate (((existing, slices) :: w).length) none).set (i - start)
            (some output) = (filled ++ [some output]) ++ List.replicate w.length none := by
        intro output
        have hoff : i - start = filled.length := by omega
        rw [hoff, length_cons, replicate_succ, set_append_right _ _ le_rfl,
          Nat.sub_self, set_cons_zero, append_assoc, singleton_append]
      simp only [if_neg hnov, bind_eq_ok]
      constructor
      · rintro ⟨units, xs, ⟨blob, hblob, sidecar, hside, units', hunits', hunits⟩, hxs, h⟩
        obtain rfl := ok.inj hunits
        cases hxs with
        | cons hx hrest =>
        simp only [outputsByOffset, bind_eq_ok] at h
        obtain ⟨⟨idx, output⟩, hrun, h⟩ := h
        obtain ⟨rfl, hout⟩ := run_ok_iff.1 (hx.trans hrun)
        rw [hset] at h
        obtain ⟨outs, houts, rfl⟩ :=
          (ih (filled ++ [some output]) (i := i + 1) (by simp; omega)).1 ⟨units', _, hunits', hrest, h⟩
        refine ⟨some output :: outs, .cons ?_ houts, by simp⟩
        rw [touchLeaf, if_neg hnov]
        simp only [bind_eq_ok]
        exact ⟨blob, hblob, sidecar, hside, output, hout, rfl⟩
      · rintro ⟨outs, houts, rfl⟩
        cases houts with
        | cons ho hrest =>
          rename_i o outs
          rw [touchLeaf, if_neg hnov] at ho
          simp only [bind_eq_ok] at ho
          obtain ⟨blob, hblob, sidecar, hside, output, hout, ho⟩ := ho
          obtain rfl := ok.inj ho
          obtain ⟨units', xs, hunits', hxs, h⟩ :=
            (ih (filled ++ [some output]) (i := i + 1) (by simp; omega)).2 ⟨outs, hrest, by simp⟩
          refine ⟨_, .ok (i, output) :: xs, ⟨blob, hblob, sidecar, hside, units', hunits', rfl⟩,
            .cons (run_ok_iff.2 ⟨rfl, hout⟩) hxs, ?_⟩
          show outputsByOffset start xs _ = _
          rw [hset, h]

variable (pool : ℕ → CompletionOrder)

/-- What the pool hands over, whatever the order in which the tasks finished. -/
lemma collect_eq_ok {units : List LeafWorkUnit} {i : ℕ}
    {xs : List (Except StoreError (ℕ × LeafUpdateOutput))} :
    (fillSlots (run σ config) units ((pool i).order units.length)).mapM unwind = .ok xs ↔
      List.Forall₂ (fun u x => run σ config u = orError x) units xs := by
  rw [fillSlots_eq_map _ _ ((pool i).perm _), mapM_ok_iff, forall₂_map_left_iff]
  simp only [unwind_eq_ok]

lemma updateBranchWindows_ok_iff {i windows} :
    updateBranchWindows H σ C config pool i windows acc = .ok r ↔
      Streamed H σ C config windows.flatten acc r := by
  induction windows generalizing i acc with
  | nil => exact streamed_nil.symm
  | cons w _ ih =>
    rw [flatten_cons, streamed_append, updateBranchWindows]
    simp only [bind_eq_ok, collect_eq_ok, ih]
    constructor
    · rintro ⟨units, hunits, xs, hxs, slots, hslots, mid, hmid, h⟩
      obtain ⟨outs, houts, hout⟩ := (window_slots_iff [] (by simp)).1 ⟨units, xs, hunits, hxs, hslots⟩
      rw [nil_append] at hout
      exact ⟨mid, ⟨outs, houts, hout ▸ hmid⟩, h⟩
    · rintro ⟨mid, ⟨outs, houts, hdrain⟩, h⟩
      obtain ⟨units, xs, hunits, hxs, hslots⟩ :=
        (window_slots_iff [] (show i + ([] : List (Option LeafUpdateOutput)).length = i from rfl)).2
          ⟨outs, houts, rfl⟩
      exact ⟨units, hunits, xs, hxs, outs, hslots, mid, hdrain, h⟩

lemma updateBranchParallel_ok_iff :
    updateBranchParallel H σ C config pool window l acc = .ok r ↔ Streamed H σ C config l acc r := by
  rw [updateBranchParallel, updateBranchWindows_ok_iff, flatten_chunksOf]

lemma updateBranchParallel_iff_serial :
    updateBranchParallel H σ C config pool window l acc = .ok r ↔
      updateBranchSerial H σ C config l acc = .ok r := by
  rw [updateBranchParallel_ok_iff, updateBranchSerial_ok_iff]

/-! ## Failures -/

/-- A call that returns, with a result or an error. -/
abbrev Calm {α : Type} (x : Except Fault α) : Prop := Avoids (· = .panicked) x

lemma calm_orError (x : Except StoreError α) : Calm (orError x) := by
  cases x with
  | ok a => exact avoids_ok a
  | error => exact avoids_error.2 nofun

lemma calm_drainWindow {outs : List (Option LeafUpdateOutput)} :
    Calm (drainWindow H C config l outs acc) := by
  have hleaves : ∀ (leaves : List LeafInfo) (acc : BranchAcc κ),
      Calm (drainLeaves H C config leaves acc) := by
    intro leaves
    induction leaves with
    | nil => exact fun _ => avoids_ok _
    | cons _ _ ih => exact fun _ => (calm_orError _).bind fun _ _ => ih _
  induction l generalizing outs acc with
  | nil => exact avoids_ok _
  | cons p l ih =>
    rcases outs with _ | ⟨_ | _, outs⟩
    · exact avoids_ok _
    · exact ih
    · exact (hleaves _ _).bind fun _ _ => ih

lemma calm_fetchSidecarOf (existing : LeafEntry κ) : Calm (fetchSidecarOf C existing) := by
  unfold fetchSidecarOf
  split
  · exact calm_orError _
  · exact avoids_ok _

lemma calm_workUnits {i : ℕ} : Calm (workUnits C i l) := by
  induction l generalizing i with
  | nil => exact avoids_ok _
  | cons p l ih =>
    unfold workUnits
    split
    · exact ih
    · exact (calm_orError _).bind fun _ _ => (calm_fetchSidecarOf _).bind fun _ _ =>
        ih.bind fun _ _ => avoids_ok _

section

variable (hcalm : ∀ p ∈ l, Calm (touchLeaf σ C config p))
include hcalm

/-- The worker of a leaf returns if the update of the leaf does. -/
lemma calm_run {i : ℕ} {units : List LeafWorkUnit} (h : workUnits C i l = .ok units) :
    ∀ u ∈ units, Calm (run σ config u) := by
  induction l generalizing i units with
  | nil =>
    cases h
    exact nofun
  | cons p l ih =>
    obtain ⟨hp, hl⟩ := forall_mem_cons.1 hcalm
    unfold workUnits at h
    split at h
    · exact ih hl h
    · rename_i hnov
      simp only [bind_eq_ok] at h
      obtain ⟨blob, hblob, sidecar, hside, rest, hrest, h⟩ := h
      cases h
      refine forall_mem_cons.2 ⟨avoids_eq_iff.2 fun hrun => avoids_eq_iff.1 hp ?_, ih hl hrest⟩
      rw [touchLeaf, if_neg hnov, bind_of_ok hblob, bind_of_ok hside]
      unfold run at hrun
      cases hup : updateLeaf σ (makeLeafUpdateInput blob sidecar p.2 config) with
      | ok => rw [hup] at hrun; cases hrun
      | error => rw [hup] at hrun; cases hrun; rfl

lemma calm_updateBranchSerial : Calm (updateBranchSerial H σ C config l acc) := by
  induction l generalizing acc with
  | nil => exact avoids_ok _
  | cons p l ih =>
    obtain ⟨hp, hl⟩ := forall_mem_cons.1 hcalm
    rw [updateBranchSerial_cons]
    exact hp.bind fun _ _ => calm_drainWindow.bind fun _ _ => ih hl

end

lemma calm_outputsByOffset {i : ℕ} {xs : List (Except StoreError (ℕ × LeafUpdateOutput))}
    {slots : List (Option LeafUpdateOutput)} : Calm (outputsByOffset i xs slots) := by
  induction xs generalizing slots with
  | nil => exact avoids_ok _
  | cons _ _ ih => exact (calm_orError _).bind fun _ _ => ih

lemma calm_collect {outs : List (Except Fault (ℕ × LeafUpdateOutput))} (h : ∀ o ∈ outs, Calm o) :
    Calm ((outs.map some).mapM unwind) := by
  induction outs with
  | nil => exact avoids_ok _
  | cons o outs ih =>
    obtain ⟨ho, houts⟩ := forall_mem_cons.1 h
    rw [map_cons, mapM_cons]
    refine Avoids.bind ?_ fun _ _ => (ih houts).bind fun _ _ => avoids_ok _
    rcases o with (_ | _) | _
    · exact avoids_ok _
    · exact absurd rfl (ho _ rfl)
    · exact avoids_ok _

lemma calm_updateBranchWindows {i : ℕ} {windows : List (List (LeafEntry κ × StreamSlices))}
    (hcalm : ∀ p ∈ windows.flatten, Calm (touchLeaf σ C config p)) :
    Calm (updateBranchWindows H σ C config pool i windows acc) := by
  induction windows generalizing i acc with
  | nil => exact avoids_ok _
  | cons w _ ih =>
    rw [flatten_cons, forall_mem_append] at hcalm
    refine calm_workUnits.bind fun units hunits => ?_
    refine Avoids.bind ?_ fun _ _ => calm_outputsByOffset.bind fun _ _ =>
      calm_drainWindow.bind fun _ _ => ih hcalm.2
    have hmap : units.map (fun u => some (run σ config u)) = (units.map (run σ config)).map some := by
      rw [map_map]
      rfl
    rw [fillSlots_eq_map _ _ ((pool i).perm _), hmap]
    refine calm_collect fun o ho => ?_
    obtain ⟨u, hu, rfl⟩ := mem_map.1 ho
    exact calm_run hcalm.1 hunits u hu

/-- **The parallel update of a branch returns what the serial one does**: the metadata with the
branch bytes and the leaves handed to the sink, for every manifest and novelty, every window, every
order in which the tasks finish, and whatever the fetches and the sink do. If no update of a touched
leaf panics, one of them returns an error exactly if the other one does. -/
theorem parallel_eq_serial (H : ContentAddressing κ) (B : BranchAddressing κ) (σ : SortUnstable)
    (C : Closures κ) (config : BranchUpdateConfig) (gId : UInt16) (m : BranchManifest κ)
    (novelty superseded : List (RunRecordV2 × Bool)) (pool : ℕ → CompletionOrder) (window : ℕ) :
    let leaves := m.leaves.zip
      (sliceStreamsToLeaves (cmpV2ForOrder config.order) novelty superseded m)
    let parallel := drainBranch H σ C config B gId (.parallel pool window) leaves
    let serial := drainBranch H σ C config B gId .serial leaves
    (∀ r, parallel = .ok r ↔ serial = .ok r) ∧
      ((∀ p ∈ leaves, touchLeaf σ C config p ≠ .error .panicked) →
        ((∃ e, parallel = .error (.error e)) ↔ ∃ e, serial = .error (.error e))) := by
  intro leaves parallel serial
  have hok : ∀ r, parallel = .ok r ↔ serial = .ok r := fun r => by
    simp only [parallel, serial, drainBranch, bind_eq_ok]
    exact exists_congr fun acc => and_congr_left' (updateBranchParallel_iff_serial pool)
  refine ⟨hok, fun hnone => ?_⟩
  have hcalm : ∀ p ∈ leaves, Calm (touchLeaf σ C config p) := fun p hp => avoids_eq_iff.2 (hnone p hp)
  have hserial : Calm serial := (calm_updateBranchSerial hcalm).bind fun _ _ => avoids_ok _
  have hparallel : Calm parallel :=
    (calm_updateBranchWindows pool ((flatten_chunksOf _ leaves).symm ▸ hcalm)).bind fun _ _ =>
      avoids_ok _
  rcases hp : parallel with (e | _) | r
  · rcases hs : serial with (e' | _) | r
    · simp
    · exact absurd hs (avoids_eq_iff.1 hserial)
    · rw [(hok r).2 hs] at hp
      cases hp
  · exact absurd hp (avoids_eq_iff.1 hparallel)
  · rw [(hok r).1 hp]

/-- A record of the given subject. -/
def subjectRecord (s : UInt64) : RunRecordV2 := { zeroedRecord with sId := s }

/-- Two leaves, the second one with a sidecar that cannot be fetched. -/
def brokenSidecar : Closures (LeafBlob ⊕ List UInt8) where
  fetchLeaf _ := .ok ⟨.spot, 0, zeroedKey, zeroedKey, []⟩
  fetchSidecar _ := .error ⟨.notFound, "sidecar"⟩
  sink _ _ := .ok ()

def twoLeaves : BranchManifest (LeafBlob ⊕ List UInt8) where
  leaves := [⟨subjectRecord 0, subjectRecord 2, 0, .inr [0], none⟩,
    ⟨subjectRecord 3, subjectRecord 9, 0, .inr [1], some (.inr [2])⟩]

/-- **The serial update panics where the parallel one returns an error**: with a leaflet target of 0
the update of the first leaf panics, but a window of both leaves fetches the sidecar first. -/
theorem panic_after_fetch :
    let drain := fun mode => drainBranch ⟨.inl, .inr, fun _ => "", Sum.inl_injective,
      Sum.inr_injective⟩ .insertion brokenSidecar ⟨.spot, 0, 1, false⟩ ⟨fun _ => [], .inr⟩ 0 mode
      (twoLeaves.leaves.zip (sliceStreamsToLeaves (cmpV2ForOrder .spot)
        [(subjectRecord 1, true), (subjectRecord 5, true)] [] twoLeaves))
    drain .serial = .error .panicked ∧
      drain (.parallel (fun _ => ⟨List.range, fun _ => .refl _⟩) 2) =
        .error (.error ⟨.notFound, "sidecar"⟩) :=
  ⟨rfl, rfl⟩

end Fluree.Streaming
