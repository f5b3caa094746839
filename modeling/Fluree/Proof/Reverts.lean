import Fluree.Lib.Slices
import Fluree.Proof.ConflictStrategies

/-!
# What a revert restores

A revert inverts the oldest change of each fact. That undoes the effect of the reverted commits on
the facts for which the oldest change was one: a commit may assert a fact that held already, and
inverting the assert takes it away.
-/

namespace Fluree.Branch

open Chain Lib Lib.Changes List History

variable {Cid Value : Type} [DecidableEq Cid] [DecidableEq Value]

namespace History

variable (H : History Cid Value)

/-- The commits of a line that are to be reverted, newest first. -/
noncomputable def selected (c : Cid) (source : ResolvedSource Cid) : List Cid :=
  match source with
  | .commits head tail => (H.line c).filter (· ∈ head :: tail)
  | .range start stop => (H.line c).filter fun d => H.t start < H.t d && H.t d ≤ H.t stop

noncomputable def undone (c : Cid) (source : ResolvedSource Cid) : List (List (Change Value)) :=
  (H.selected c source).reverse.map H.flakes

/-- The commits of a line from the oldest reverted one on, oldest first. -/
noncomputable def since (c : Cid) (source : ResolvedSource Cid) : List Cid :=
  (H.line c).reverse.dropWhile (· ∉ H.selected c source)

noncomputable def factsBefore (c : Cid) (source : ResolvedSource Cid) : List (FactKey Value) :=
  replay [] (((H.line c).reverse.takeWhile (· ∉ H.selected c source)).map H.flakes)

def Touched (c : Cid) (source : ResolvedSource Cid) (f : FactKey Value) : Prop :=
  ∃ d ∈ H.selected c source, f.conflictKey ∈ keysOf (H.flakes d)

/-- **What a revert is for.** The keys it touches get back the values from before the oldest
reverted commit, the others keep theirs; and if every commit since is reverted, all facts are as
before. -/
structure Restores (c : Cid) (source : ResolvedSource Cid) (after : List (FactKey Value)) : Prop where
  touched : ∀ f, H.Touched c source f → (f ∈ after ↔ f ∈ H.factsBefore c source)
  other : ∀ f, ¬ H.Touched c source f → (f ∈ after ↔ f ∈ H.facts c)
  whole : (∀ d ∈ H.since c source, d ∈ H.selected c source) →
    ∀ f, f ∈ after ↔ f ∈ H.factsBefore c source

/-- The oldest change of each fact by the reverted commits changed something. -/
def ChangesFirst (c : Cid) (source : ResolvedSource Cid) : Prop :=
  ∀ f op, firstOp (H.undone c source) f = some op → (f ∈ H.factsBefore c source ↔ op = false)

variable {H} {c d : Cid} {source : ResolvedSource Cid} {f : FactKey Value}

lemma selected_sublist (c : Cid) (source : ResolvedSource Cid) :
    (H.selected c source).Sublist (H.line c) := by
  cases source with
  | commits | range => exact filter_sublist

lemma selected_pairwise (hc : c ∈ H.commits) :
    (H.selected c source).Pairwise fun a b => H.t b ≤ H.t a :=
  ((line_pairwise hc).imp le_of_lt).sublist (selected_sublist c source)

lemma mem_line_of_selected (h : d ∈ H.selected c source) : d ∈ H.line c :=
  (selected_sublist c source).subset h

lemma line_injOn (hc : c ∈ H.commits) (ha : a ∈ H.line c) (hb : b ∈ H.line c)
    (h : H.t a = H.t b) : a = b := by
  have hnodup : ((H.line c).map H.t).Nodup := pairwise_map.2 ((line_pairwise hc).imp fun h => h.ne')
  exact inj_on_of_nodup_map hnodup ha hb h

lemma line_nodup (hc : c ∈ H.commits) : (H.line c).Nodup :=
  (line_segment hc).nodup fun a ha => by cases ha; exact hc

/-- **The facts of the head** are those before the oldest reverted commit with all commits since
replayed. -/
lemma facts_eq_since (c : Cid) (source : ResolvedSource Cid) :
    H.facts c = replay (H.factsBefore c source) ((H.since c source).map H.flakes) := by
  rw [facts, factsBefore, since, ← replay_append, ← map_append, takeWhile_append_dropWhile]

/-! ## The plan -/

variable {fuel : ℕ} {plan : RevertPlan Cid} {conflicts : List ConflictKey}

lemma walk_eq (hc : c ∈ H.commits) (h : walkFirstParent H.store c stop fuel = .ok commits) :
    commits = (H.range c stop).map fun d => (d, H.commit d) :=
  Except.ok.inj (((steady_walkFirstParent H.store c stop).returns h).unique
    (walkFirstParent_returns hc stop))

section Plan

variable [ToString Cid]

lemma locateOnLineage_spec {store label e}
    (h : locateOnLineage store c ((H.line c).map fun d => (d, H.commit d)) d label fuel = .ok e) :
    e = (H.t d, d) ∧ d ∈ H.line c := by
  unfold locateOnLineage at h
  cases hfind : ((H.line c).map fun d => (d, H.commit d)).find? (·.1 == d) with
  | none =>
    rw [hfind] at h
    obtain ⟨_, -, h⟩ := bind_eq_ok.1 h
    cases h
  | some =>
    rw [hfind] at h
    obtain ⟨a, ha, rfl⟩ := mem_map.1 (mem_of_find?_eq_some hfind)
    obtain rfl : a = d := by simpa using List.find?_some hfind
    exact ⟨(Except.ok.inj h).symm, ha⟩

lemma selectCommits_spec (hc : c ∈ H.commits) {withT}
    (h : selectCommits H.store c ((H.line c).map fun d => (d, H.commit d)) source fuel = .ok withT) :
    ∃ l : List Cid, withT = l.map (fun d => (H.t d, d)) ∧ l.Nodup ∧
      ∀ d, d ∈ l ↔ d ∈ H.selected c source := by
  cases source with
  | commits =>
    have hall := mapM_ok_iff.1 h
    have hspec : ∀ (l : List Cid) (ys : List (ℤ × Cid)), List.Forall₂ (fun x y =>
        locateOnLineage H.store c ((H.line c).map fun d => (d, H.commit d)) x "Commit" fuel = .ok y)
        l ys → ys = l.map (fun d => (H.t d, d)) ∧ ∀ d ∈ l, d ∈ H.line c := by
      intro l ys hl
      induction hl with
      | nil => exact ⟨rfl, fun _ h => (nomatch h)⟩
      | cons hx _ ih =>
        obtain ⟨rfl, hmem⟩ := locateOnLineage_spec hx
        exact ⟨by rw [ih.1, map_cons], forall_mem_cons.2 ⟨hmem, ih.2⟩⟩
    obtain ⟨rfl, hline⟩ := hspec _ _ hall
    refine ⟨_, rfl, nodup_reverse.2 (nodup_dedup _), fun d => ?_⟩
    simp only [selected, mem_filter, decide_eq_true_eq, mem_reverse, mem_dedup]
    refine ⟨fun hd => ⟨hline d ?_, hd⟩, And.right⟩
    simpa [or_comm] using hd
  | range start stop =>
    obtain ⟨_, hlast, h⟩ := bind_eq_ok.1 h
    obtain ⟨_, hfirst, h⟩ := bind_eq_ok.1 h
    obtain ⟨rfl, -⟩ := locateOnLineage_spec hlast
    obtain ⟨rfl, -⟩ := locateOnLineage_spec hfirst
    refine ⟨H.selected c (.range start stop), ?_, (line_nodup hc).filter _, fun _ => Iff.rfl⟩
    unfold sliceOfLineage at h
    split at h
    · cases h
    split at h
    · cases h
    · rw [← Except.ok.inj h, map_map, selected, filter_map]
      rfl

/-- **A plan lists the selected commits**, newest first, and the time of the oldest. -/
lemma resolveRevertPlan_spec (hc : c ∈ H.commits)
    (h : resolveRevertPlan H.store c source fuel = .ok plan) :
    plan.orderedCommits = H.selected c source ∧ ∀ d ∈ H.selected c source, plan.oldestT ≤ H.t d ∧
        ∃ o ∈ H.selected c source, H.t o = plan.oldestT := by
  obtain ⟨_, hwalk, h⟩ := bind_eq_ok.1 h
  have hlineage := walk_eq hc hwalk
  rw [range_zero hc] at hlineage
  subst hlineage
  obtain ⟨_, hselect, h⟩ := bind_eq_ok.1 h
  obtain ⟨_, -, h⟩ := bind_eq_ok.1 h
  obtain rfl := Except.ok.inj h
  obtain ⟨l, rfl, hnodup, hmem⟩ := selectCommits_spec hc hselect
  have : Std.Total fun a b : ℤ × Cid => b.1 ≤ a.1 := ⟨fun a b => le_total b.1 a.1⟩
  have : IsTrans (ℤ × Cid) fun a b => b.1 ≤ a.1 := ⟨fun a b c hab hbc => hbc.trans hab⟩
  have hsorted := pairwise_insertionSort (fun a b : ℤ × Cid => b.1 ≤ a.1)
    (l.map fun d => (H.t d, d))
  have hperm := perm_insertionSort (fun a b : ℤ × Cid => b.1 ≤ a.1) (l.map fun d => (H.t d, d))
  generalize (l.map fun d => (H.t d, d)).insertionSort (fun a b => b.1 ≤ a.1) = sorted
    at hsorted hperm
  have hpair : ∀ e ∈ sorted, e.1 = H.t e.2 := fun e he => by
    obtain ⟨d, -, rfl⟩ := mem_map.1 (hperm.subset he)
    rfl
  have hids : sorted.map (·.2) = H.selected c source := by
    have hsame : (sorted.map (·.2)).Perm (H.selected c source) := by
      refine (hperm.map _).trans ?_
      rw [map_map, show ((·.2) ∘ fun d => (H.t d, d)) = (id : Cid → Cid) from rfl, map_id]
      exact (perm_ext_iff_of_nodup hnodup ((selected_sublist c source).nodup (line_nodup hc))).2
        hmem
    refine hsame.eq_of_pairwise (fun a b ha hb hab hba => ?_) ?_ (selected_pairwise hc)
    · exact line_injOn hc (mem_line_of_selected (hsame.subset ha)) (mem_line_of_selected hb)
        (le_antisymm hba hab)
    · refine pairwise_map.2 (hsorted.imp_of_mem fun ha hb hab => ?_)
      rw [← hpair _ ha, ← hpair _ hb]
      exact hab
  refine ⟨hids, fun d hd => ?_⟩
  rw [← hids] at hd
  obtain ⟨e, he, rfl⟩ := mem_map.1 hd
  rcases eq_nil_or_concat sorted with rfl | ⟨init, last, rfl⟩
  · cases he
  rw [concat_eq_append] at *
  have hlast : last ∈ init ++ [last] := mem_append_right _ mem_cons_self
  rw [List.getLast?_concat, Option.map_some, Option.getD_some, ← hpair e he]
  refine ⟨?_, last.2, hids ▸ mem_map_of_mem hlast, (hpair last hlast).symm⟩
  rcases mem_append.1 he with hinit | hlast
  · exact (pairwise_append.1 hsorted).2.2 e hinit last mem_cons_self
  · rw [mem_singleton.1 hlast]

end Plan

/-! ## The effect -/

section

variable (hc : c ∈ H.commits)
include hc

lemma le_of_mem_since (hle : ∀ d ∈ H.selected c source, oldestT ≤ H.t d)
    (hd : d ∈ H.since c source) : oldestT ≤ H.t d := by
  have hasc : (H.since c source).Pairwise fun a b => H.t a < H.t b :=
    (pairwise_reverse.2 (line_pairwise hc)).sublist (dropWhile_sublist _)
  have hhead := List.head?_dropWhile_not (p := fun d => decide (d ∉ H.selected c source))
    (l := (H.line c).reverse)
  rw [← since] at hhead
  cases hs : H.since c source with
  | nil => rw [hs] at hd; cases hd
  | cons o =>
    rw [hs] at hd hasc hhead
    have ho : oldestT ≤ H.t o := hle o (by simpa using hhead)
    rcases mem_cons.1 hd with rfl | hd
    · exact ho
    · exact ho.trans ((pairwise_cons.1 hasc).1 d hd).le

lemma computeConflictKeys_spec
    (h : computeConflictKeys H.store c plan fuel = .ok conflicts) : conflicts =
      let commits := (H.range c (max (plan.oldestT - 1) (-2 ^ 63))).map fun d => (d, H.commit d)
      conflictsOf ((commits.filter fun c => decide (c.1 ∈ plan.orderedCommits)).flatMap fun c =>
          keysOf c.2.flakes).dedup
        ((commits.filter fun c => !decide (c.1 ∈ plan.orderedCommits)).flatMap fun c =>
          keysOf c.2.flakes) := by
  obtain ⟨commits, hwalk, h⟩ := bind_eq_ok.1 h
  obtain rfl := walk_eq hc hwalk
  rw [partition_eq_filter_filter] at h
  exact (Except.ok.inj h).symm

/-- Without conflicts, the other commits since the oldest reverted one touch no reverted key. -/
lemma not_touched_of_no_conflict (hids : plan.orderedCommits = H.selected c source)
    (hle : ∀ d ∈ H.selected c source, plan.oldestT ≤ H.t d)
    (h : computeConflictKeys H.store c plan fuel = .ok []) (hf : H.Touched c source f)
    (hd : d ∈ H.since c source) (hout : d ∉ H.selected c source) (op : Bool) :
    (f, op) ∉ H.flakes d := by
  intro hmem
  have h := computeConflictKeys_spec hc h
  rw [hids] at h
  obtain ⟨s, hs, hkey⟩ := hf
  have hrange : ∀ x, x ∈ H.line c → plan.oldestT ≤ H.t x →
      x ∈ H.range c (max (plan.oldestT - 1) (-2 ^ 63)) := fun x hx hle => by
    have hpos : 0 < H.t x := H.positive x (mem_of_mem_line hc hx)
    exact (mem_range hc).2 ⟨hx, max_lt (by omega) (by omega)⟩
  have hline : d ∈ H.line c := mem_reverse.1 ((dropWhile_sublist _).subset hd)
  have hnone := filter_eq_nil_iff.1 h.symm f.conflictKey
  refine absurd ?_ (hnone ?_)
  · rw [decide_eq_true_iff, mem_flatMap]
    refine ⟨(d, H.commit d), ?_, mem_keysOf.2 ⟨f, op, hmem, rfl⟩⟩
    exact mem_filter.2 ⟨mem_map_of_mem (hrange d hline (le_of_mem_since hc hle hd)),
      by simpa using hout⟩
  · rw [mem_dedup, mem_flatMap]
    refine ⟨(s, H.commit s), ?_, hkey⟩
    exact mem_filter.2 ⟨mem_map_of_mem (hrange s (mem_line_of_selected hs) (hle s hs)),
      by simpa using hs⟩

lemma conflicts_eq_nil_of_whole (hids : plan.orderedCommits = H.selected c source)
    (hle : ∀ d ∈ H.selected c source, plan.oldestT ≤ H.t d ∧
      ∃ o ∈ H.selected c source, H.t o = plan.oldestT)
    (hwhole : ∀ d ∈ H.since c source, d ∈ H.selected c source)
    (h : computeConflictKeys H.store c plan fuel = .ok conflicts) : conflicts = [] := by
  rw [computeConflictKeys_spec hc h, hids]
  refine filter_eq_nil_iff.2 ?_
  intro key hkey hkey'
  obtain ⟨_, hs, -⟩ := mem_flatMap.1 (mem_dedup.1 hkey)
  obtain ⟨-, o, ho, _⟩ := hle _ (of_decide_eq_true (mem_filter.1 hs).2)
  obtain ⟨⟨x, commit⟩, hx, -⟩ := mem_flatMap.1 (of_decide_eq_true hkey')
  obtain ⟨hx, hout⟩ := mem_filter.1 hx
  obtain ⟨x, hrange, heq⟩ := mem_map.1 hx
  cases heq
  obtain ⟨hline, hlt⟩ := (mem_range hc).1 hrange
  -- a commit that is not since the oldest reverted one is older than it
  have hcut := takeWhile_append_dropWhile (p := fun d => decide (d ∉ H.selected c source))
    (l := (H.line c).reverse)
  have hpair := pairwise_reverse.2 (line_pairwise hc)
  rw [← hcut] at hpair
  have hsplit : ∀ y ∈ H.line c, y ∈ (H.line c).reverse.takeWhile (fun d => decide
      (d ∉ H.selected c source)) ∨ y ∈ H.since c source := fun y hy => by
    rw [since, ← mem_append, hcut]
    exact mem_reverse.2 hy
  rcases hsplit x hline with hbefore | hsince
  · rcases hsplit o (mem_line_of_selected ho) with hbefore' | hsince
    · exact absurd ho (by simpa using mem_takeWhile_imp hbefore')
    have := (pairwise_append.1 hpair).2.2 x hbefore o hsince
    have := lt_of_le_of_lt (le_max_left _ _) hlt
    omega
  · simp [hwhole x hsince] at hout

end

/-- **The facts after a revert**: the first change of the reverted commits is turned round. -/
lemma mem_stageRevert (hconflicts : conflicts = []) (h : stageRevert tools (H.stateOf c) plan
      (collectUndo ((H.selected c source).reverse.map H.commit)) conflicts strategy = .ok r) :
    f ∈ r.state.facts ↔ firstOp (H.undone c source) f = some false ∨
      firstOp (H.undone c source) f = none ∧ f ∈ H.facts c := by
  have hundone : ((H.selected c source).reverse.map H.commit).map (·.flakes) = H.undone c source := by
    rw [undone, map_map]
    rfl
  have hmem : ∀ f op, (f, op) ∈ collectUndo ((H.selected c source).reverse.map H.commit) ↔
      firstOp (H.undone c source) f = some !op := fun f op => by
    rw [collectUndo, hundone]
    exact mem_undo
  generalize collectUndo ((H.selected c source).reverse.map H.commit) = inverted at h hmem
  have hafter : r.state.facts = apply (H.facts c) inverted := by
    unfold stageRevert at h
    dsimp only at h
    rw [hconflicts, applyTwoWayStrategy_nil] at h
    split at h
    · rename_i hempty
      rw [← Except.ok.inj h, hempty]
      simp [apply, stateOf]
    · split at h
      · cases h
      · rw [← Except.ok.inj h]
        rfl
  rw [hafter, mem_apply, hmem, hmem]
  cases firstOp (H.undone c source) f with
  | none => simp
  | some op => cases op <;> simp

omit [DecidableEq Cid] in
lemma conflictCount_stageRevert {tools : Tools Cid Value} {state : LedgerState Cid Value}
    {inverted : List (Change Value)} {strategy : ConflictStrategy} {r : Reverted Cid Value}
    (h : stageRevert tools state plan inverted conflicts strategy = .ok r) :
    r.conflictCount = conflicts.length := by
  unfold stageRevert at h
  dsimp only at h
  split at h
  · rw [← Except.ok.inj h]
  split at h
  · cases h
  · rw [← Except.ok.inj h]

/-- A fact that the reverted commits do not mention has not changed since. -/
lemma mem_facts_iff_before (hc : c ∈ H.commits) (hids : plan.orderedCommits = H.selected c source)
    (hle : ∀ d ∈ H.selected c source, plan.oldestT ≤ H.t d)
    (h : computeConflictKeys H.store c plan fuel = .ok [])
    (hnone : firstOp (H.undone c source) f = none)
    (hcase : H.Touched c source f ∨ ∀ d ∈ H.since c source, d ∈ H.selected c source) :
    f ∈ H.facts c ↔ f ∈ H.factsBefore c source := by
  rw [facts_eq_since c source]
  refine mem_replay_of_lastOp_eq_none (lastOp_eq_none.2 fun batch hbatch op => ?_)
  obtain ⟨d, hd, rfl⟩ := mem_map.1 hbatch
  by_cases hin : d ∈ H.selected c source
  · exact firstOp_eq_none.1 hnone _ (mem_map_of_mem (mem_reverse.2 hin)) op
  rcases hcase with hf | hwhole
  · exact not_touched_of_no_conflict hc hids hle h hf hd hin op
  · exact absurd (hwhole d hd) hin

lemma touched_of_firstOp (hop : firstOp (H.undone c source) f = some op) :
    H.Touched c source f := by
  by_contra hnot
  refine absurd (hop.symm.trans (firstOp_eq_none.2 fun batch hbatch op hmem => hnot ?_))
    (Option.some_ne_none op)
  obtain ⟨d, hd, rfl⟩ := mem_map.1 hbatch
  exact ⟨d, mem_reverse.1 hd, mem_keysOf.2 ⟨f, op, hmem, rfl⟩⟩

lemma restores_iff {after} (hafter : ∀ f, f ∈ after ↔ firstOp (H.undone c source) f = some false ∨
      firstOp (H.undone c source) f = none ∧ f ∈ H.facts c)
    (hsame : ∀ f, firstOp (H.undone c source) f = none →
      (H.Touched c source f ∨ ∀ d ∈ H.since c source, d ∈ H.selected c source) →
      (f ∈ H.facts c ↔ f ∈ H.factsBefore c source)) :
    H.Restores c source after ↔ H.ChangesFirst c source := by
  have hfirst : ∀ f op, firstOp (H.undone c source) f = some op → (f ∈ after ↔ op = false) := by
    intro f op hop
    rw [hafter, hop]
    simp
  have hnone : ∀ f, firstOp (H.undone c source) f = none → (f ∈ after ↔ f ∈ H.facts c) := by
    intro f hnone
    rw [hafter, hnone]
    simp
  constructor
  · intro hr f op hop
    rw [← hr.touched f (touched_of_firstOp hop), hfirst f op hop]
  · intro hchanges
    have hback : ∀ f, (H.Touched c source f ∨ ∀ d ∈ H.since c source, d ∈ H.selected c source) →
        (f ∈ after ↔ f ∈ H.factsBefore c source) := by
      intro f hcase
      cases hop : firstOp (H.undone c source) f with
      | none => rw [hnone f hop, hsame f hop hcase]
      | some op => rw [hfirst f op hop, hchanges f op hop]
    refine ⟨fun f hf => hback f (.inl hf), fun f hf => ?_, fun hwhole f => hback f (.inr hwhole)⟩
    cases hop : firstOp (H.undone c source) f with
    | none => exact hnone f hop
    | some op => exact absurd (touched_of_firstOp hop) hf

variable [ToString Cid] in
/-- **When a revert restores.** A revert of commits whose keys no other commit has touched since, or
of all commits since some commit, restores the facts from before exactly if the oldest change of
each fact by the reverted commits changed something: an assert of a fact that did not hold, or a
retract of one that did. -/
theorem revert_restores_iff (H : History Cid Value) (tools : Tools Cid Value) (branch : String)
    (head : H.commits) (source : ResolvedSource Cid) (strategy : ConflictStrategy) (fuel : ℕ)
    (r : Reverted Cid Value)
    (hrun : revertSelection tools H.store branch head.1 source strategy fuel = .ok r)
    (hclear : r.conflictCount = 0 ∨ ∀ d ∈ H.since head.1 source, d ∈ H.selected head.1 source) :
    H.Restores head.1 source r.state.facts ↔ H.ChangesFirst head.1 source := by
  obtain ⟨c, hc⟩ := head
  obtain ⟨_, -, hrun⟩ := bind_eq_ok.1 hrun
  obtain ⟨_, hplan, hrun⟩ := bind_eq_ok.1 hrun
  obtain ⟨conflicts, hkeys, hrun⟩ := bind_eq_ok.1 hrun
  obtain ⟨_, -, hrun⟩ := bind_eq_ok.1 hrun
  obtain ⟨commits, hcommits, hrun⟩ := bind_eq_ok.1 hrun
  obtain ⟨state, hstate, hrun⟩ := bind_eq_ok.1 hrun
  obtain ⟨hids, hle⟩ := resolveRevertPlan_spec hc hplan
  have hstate : state = H.stateOf c := Except.ok.inj
    (((steady_loadState H.store c).returns hstate).unique (loadState_returns hc))
  have hcommits : commits = (H.selected c source).reverse.map H.commit := by
    rw [hids, mapM_eq_ok_map fun d hd => load_eq (mem_of_mem_line hc (mem_line_of_selected
      (mem_reverse.1 hd)))] at hcommits
    exact (Except.ok.inj hcommits).symm
  have hconflicts : conflicts = [] := hclear.elim
    (fun hcount => length_eq_zero_iff.1 ((conflictCount_stageRevert hrun).symm.trans hcount))
    fun hwhole => conflicts_eq_nil_of_whole hc hids hle hwhole hkeys
  rw [hstate, hcommits] at hrun
  refine restores_iff (fun f => mem_stageRevert hconflicts hrun) fun f hnone hcase => ?_
  exact mem_facts_iff_before hc hids (fun d hd => (hle d hd).1) (hconflicts ▸ hkeys) hnone hcase

end History

/-- A commit that asserts a fact, and a second commit. -/
def twoCommits (second : List (Change ℕ)) : History ℕ ℕ where
  commits := Finset.range 2
  envelope
    | 0 => ⟨1, []⟩
    | 1 => ⟨2, [0]⟩
    | _ => ⟨0, []⟩
  closed := by decide
  acyclic c _ := acyclic_of_lt (fun c p hp => by
    match c with
    | 0 | 1 => revert p; decide
    | _ + 2 => cases hp) c
  decreasing := by decide
  inRange := by decide
  flakes
    | 0 => [(valueOf 0, true)]
    | _ => second
  positive := by decide

section TwoCommits

variable (second : List (Change ℕ))

lemma twoCommits_line : (twoCommits second).line 1 = [1, 0] :=
  line_eq (Finset.mem_range.2 one_lt_two) (.cons (.cons (.nil none)))

lemma twoCommits_selected : (twoCommits second).selected 1 (.commits 1 []) = [1] := by
  rw [selected, twoCommits_line]
  decide

lemma twoCommits_before : (twoCommits second).factsBefore 1 (.commits 1 []) = [valueOf 0] := by
  rw [factsBefore, twoCommits_selected, twoCommits_line]
  rfl

end TwoCommits

/-- The second commit retracts the fact and asserts it again; the retract wins, and the revert
brings the fact back. -/
theorem revert_restores_iff_flipped :
    revertSelection plainTools (twoCommits [(valueOf 0, false), (valueOf 0, true)]).store "main" 1
        (.commits 1 []) .takeBranch 5 = .ok ⟨[1], 0, true, ⟨some 101, 3, [valueOf 0]⟩⟩ ∧
      (twoCommits [(valueOf 0, false), (valueOf 0, true)]).Restores 1 (.commits 1 [])
        [valueOf 0] := by
  refine ⟨by decide, (revert_restores_iff _ plainTools "main" ⟨1, by decide⟩ _ .takeBranch 5
    ⟨[1], 0, true, ⟨some 101, 3, [valueOf 0]⟩⟩ (by decide) (.inl rfl)).2 fun f op hop => ?_⟩
  rw [undone, twoCommits_selected] at hop
  by_cases hf : f = valueOf 0
  · subst hf
    rw [twoCommits_before]
    cases hop
    decide
  · have hnone : firstOp [[(valueOf 0, false), (valueOf 0, true)]] f = none := by
      simp [firstOp, Ne.symm hf]
    cases hnone.symm.trans hop

/-- **A fact from before is lost**: the second commit asserts what the first one asserted, no other
commit is since, and a revert of the second takes the fact away. -/
theorem repeated_assert_lost : ∃ r,
    revertSelection plainTools (twoCommits [(valueOf 0, true)]).store "main" 1 (.commits 1 [])
        .takeBranch 5 = .ok r ∧
      r.conflictCount = 0 ∧
      ¬ (twoCommits [(valueOf 0, true)]).Restores 1 (.commits 1 []) r.state.facts := by
  refine ⟨⟨[1], 0, true, ⟨some 101, 3, []⟩⟩, by decide, rfl, fun h => ?_⟩
  have hf := h.touched (valueOf 0)
    ⟨1, (twoCommits_selected _) ▸ mem_singleton_self 1, by decide⟩
  rw [twoCommits_before] at hf
  exact absurd (hf.2 (mem_singleton_self _)) (not_mem_nil)

end Fluree.Branch
