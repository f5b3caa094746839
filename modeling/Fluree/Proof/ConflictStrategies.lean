import Fluree.Proof.BranchHistory

/-!
# What a conflict strategy leaves

Under `take-source` a merge keeps the flakes of the source and retracts what the target holds; under
`take-branch` a rebase does the same for the flakes of each branch commit. The flakes only say what
changed, so a value that the winner holds and that they do not mention is retracted with the rest.
A rebase that replays nothing publishes nothing, whichever side was to win.
-/

namespace Fluree.Branch

open Chain Lib Lib.Changes List History

variable {Cid Value : Type} [DecidableEq Value]

/-! ## One staged batch -/

/-- A read of its key returns the fact: it is not decoded from an index row, or its graph is the
default one, so that losing the graph changes nothing. -/
def Seen (viaIndex : FactKey Value → Bool) (f : FactKey Value) : Prop :=
  viaIndex f = true → f.g = none

instance (viaIndex : FactKey Value → Bool) (f : FactKey Value) : Decidable (Seen viaIndex f) :=
  inferInstanceAs (Decidable (_ → _))

variable {viaIndex : FactKey Value → Bool} {state : LedgerState Cid Value} {f : FactKey Value}
  {keys delta : List ConflictKey} {flakes : List (Change Value)}

omit [DecidableEq Value] in
lemma mem_currentAssertedForKey : f ∈ currentAssertedForKey viaIndex state key ↔
      f ∈ state.facts ∧ f.conflictKey = key ∧ Seen viaIndex f := by
  simp only [currentAssertedForKey, mem_filter, mem_map, decide_eq_true_eq]
  constructor
  · rintro ⟨⟨e, ⟨he, rfl⟩, rfl⟩, hg⟩
    by_cases hvia : viaIndex e = true
    · have hnone : e.g = none := by
        rw [asRead, if_pos hvia] at hg
        exact hg.symm
      have hsame : asRead viaIndex e = e := by rw [asRead, if_pos hvia, ← hnone]
      rw [hsame]
      exact ⟨he, rfl, fun _ => hnone⟩
    · rw [asRead, if_neg hvia]
      exact ⟨he, rfl, fun h => absurd h hvia⟩
  · rintro ⟨hf, rfl, hseen⟩
    have hsame : asRead viaIndex f = f := by
      rw [asRead]
      split
      · rename_i hvia
        rw [← hseen hvia]
      · rfl
    exact ⟨⟨f, ⟨hf, rfl⟩, hsame⟩, rfl⟩

lemma mem_buildSourceRetractions : (f, op) ∈ buildSourceRetractions viaIndex keys state winning ↔
      op = false ∧ f.conflictKey ∈ keys ∧ f ∈ state.facts ∧ Seen viaIndex f ∧
        (f, true) ∉ winning := by
  simp only [buildSourceRetractions, mem_flatMap, mem_map, mem_filter,
    mem_currentAssertedForKey, decide_eq_true_eq, Prod.mk.injEq]
  constructor
  · rintro ⟨_, hkey, _, ⟨⟨he, rfl, hseen⟩, hnot⟩, rfl, rfl⟩
    exact ⟨rfl, hkey, he, hseen, hnot⟩
  · rintro ⟨rfl, hkey, hf, hseen, hnot⟩
    exact ⟨_, hkey, f, ⟨⟨hf, rfl, hseen⟩, hnot⟩, rfl, rfl⟩

/-- **Keeping the flakes**: a fact they mention is as they say, and one they do not mention stays
unless its key conflicts and a read returns it. -/
lemma mem_stage_keep :
    f ∈ apply state.facts (flakes ++ buildSourceRetractions viaIndex keys state flakes) ↔
      opIn flakes f = some true ∨
        opIn flakes f = none ∧ f ∈ state.facts ∧ ¬ (f.conflictKey ∈ keys ∧ Seen viaIndex f) := by
  rw [mem_apply, mem_append, mem_append, mem_buildSourceRetractions,
    mem_buildSourceRetractions, opIn_eq_true, opIn_eq_none]
  constructor
  · rintro ⟨hor, hnot⟩
    obtain ⟨hnf, hnr⟩ := not_or.1 hnot
    by_cases htrue : (f, true) ∈ flakes
    · exact .inl ⟨htrue, hnf⟩
    have hheld : f ∈ state.facts := by
      rcases hor with h | h | h
      · exact h
      · exact absurd h htrue
      · cases h.1
    refine .inr ⟨fun op => ?_, hheld, fun ⟨hkey, hseen⟩ => hnr ⟨rfl, hkey, hheld, hseen, htrue⟩⟩
    cases op with
    | false => exact hnf
    | true => exact htrue
  · rintro (⟨htrue, hnf⟩ | ⟨hnone, hheld, hunseen⟩)
    · exact ⟨.inr (.inl htrue), not_or.2 ⟨hnf, fun h => h.2.2.2.2 htrue⟩⟩
    · exact ⟨.inl hheld, not_or.2 ⟨hnone false, fun h => hunseen ⟨h.2.1, h.2.2.2.1⟩⟩⟩

lemma opIn_dropConflicting :
    opIn (dropConflicting flakes keys) f = if f.conflictKey ∈ keys then none else opIn flakes f := by
  have hmem : ∀ op, (f, op) ∈ dropConflicting flakes keys ↔
      (f, op) ∈ flakes ∧ f.conflictKey ∉ keys := fun op => by
    rw [dropConflicting, mem_filter, decide_eq_true_iff]
  by_cases hkey : f.conflictKey ∈ keys
  · rw [if_pos hkey, opIn_eq_none]
    exact fun op h => ((hmem op).1 h).2 hkey
  · rw [if_neg hkey]
    simp only [opIn, hmem, hkey, not_false_eq_true, and_true]

/-- **Dropping the flakes** of the conflicting keys leaves these keys as they are. -/
lemma mem_stage_drop :
    f ∈ apply held (dropConflicting flakes keys) ↔
      if f.conflictKey ∈ keys then f ∈ held else f ∈ apply held flakes := by
  rw [mem_apply_iff_opIn, opIn_dropConflicting]
  split
  · simp
  · rw [mem_apply_iff_opIn]

lemma applyTwoWayStrategy_nil (viaIndex : FactKey Value → Bool) (flakes : List (Change Value))
    (strategy : ConflictStrategy) (state : LedgerState Cid Value) :
    applyTwoWayStrategy viaIndex flakes [] strategy state = flakes := by
  exact if_pos rfl

/-- The strategy under which a merge keeps the incoming flakes is the one under which a rebase drops
them, and the other way round. -/
lemma mem_twoWay_source :
    f ∈ apply state.facts (applyTwoWayStrategy viaIndex flakes keys .takeSource state) ↔
      opIn flakes f = some true ∨
        opIn flakes f = none ∧ f ∈ state.facts ∧ ¬ (f.conflictKey ∈ keys ∧ Seen viaIndex f) := by
  by_cases hkeys : keys = []
  · subst hkeys
    rw [applyTwoWayStrategy_nil, mem_apply_iff_opIn]
    simp
  · rw [applyTwoWayStrategy, if_neg hkeys]
    exact mem_stage_keep

lemma mem_twoWay_branch :
    f ∈ apply state.facts (applyTwoWayStrategy viaIndex flakes keys .takeBranch state) ↔
      if f.conflictKey ∈ keys then f ∈ state.facts else f ∈ apply state.facts flakes := by
  by_cases hkeys : keys = []
  · subst hkeys
    rw [applyTwoWayStrategy_nil, if_neg not_mem_nil]
  · rw [applyTwoWayStrategy, if_neg hkeys]
    exact mem_stage_drop

lemma resolveFlakes_takeSource (viaIndex : FactKey Value → Bool) (flakes : List (Change Value))
    (keys : List ConflictKey) (state : LedgerState Cid Value) :
    resolveFlakes viaIndex flakes keys .takeSource state =
      applyTwoWayStrategy viaIndex flakes keys .takeBranch state := rfl

lemma resolveFlakes_takeBranch (viaIndex : FactKey Value → Bool) (flakes : List (Change Value))
    (keys : List ConflictKey) (state : LedgerState Cid Value) :
    resolveFlakes viaIndex flakes keys .takeBranch state =
      applyTwoWayStrategy viaIndex flakes keys .takeSource state := rfl

/-! ## What the operations return -/

/-- The side whose values a strategy is meant to leave. -/
inductive Winner where
  | source
  | branch

def Winner.strategy : Winner → ConflictStrategy
  | .source => .takeSource
  | .branch => .takeBranch

def Winner.head (w : Winner) (s b : Cid) : Cid :=
  match w with
  | .source => s
  | .branch => b

/-- A general merge of a source head `s` into a target head `b`, or a general rebase of a branch
head `b` on a source head `s`. -/
inductive Operation where
  | merge
  | rebase

open Operation

/-- The state of the head that an operation publishes. -/
def Operation.run (op : Operation) (tools : Tools Cid Value) (store : CommitStore Cid Value)
    (names : String × String) (s b : Cid) (ancestor : CommonAncestor Cid)
    (strategy : ConflictStrategy) (fuel : ℕ) : Api Cid (LedgerState Cid Value) :=
  match op with
  | .merge => do
    let staged ← buildMergeGeneral tools store names.1 names.2 s b ancestor strategy fuel
    .ok staged.state
  | .rebase => do
    let replaying ← buildRebaseGeneral tools store b s ancestor strategy fuel
    applyRebase store b replaying fuel

lemma steady_buildMergeGeneral (tools : Tools Cid Value) (store : CommitStore Cid Value)
    (source target : String) (s b : Cid) (ancestor : CommonAncestor Cid)
    (strategy : ConflictStrategy) :
    Steady (buildMergeGeneral tools store source target s b ancestor strategy) := by
  unfold buildMergeGeneral
  split
  · exact steady_const _
  refine (steady_computeDeltaKeys store s ancestor.t).bind fun sourceDelta =>
    (steady_computeDeltaKeys store b ancestor.t).bind fun targetDelta => ?_
  unfold mergeConflicts
  split
  · exact steady_const _
  · exact (steady_loadState store b).bind fun _ =>
      (steady_collectCommitData store s ancestor.t).bind fun _ => steady_const _

lemma steady_buildRebaseGeneral (tools : Tools Cid Value) (store : CommitStore Cid Value)
    (s b : Cid) (ancestor : CommonAncestor Cid) (strategy : ConflictStrategy) :
    Steady (buildRebaseGeneral tools store b s ancestor strategy) :=
  (steady_computeDeltaKeys store s ancestor.t).bind fun delta =>
    (steady_scanBranchCommits store b ancestor.t delta).bind fun _ =>
      (steady_const _).bind fun _ => (steady_loadState store s).bind fun _ => steady_const _

lemma steady_applyRebase (store : CommitStore Cid Value) (b : Cid) (r : Replaying Cid Value) :
    Steady (applyRebase store b r) := by
  unfold applyRebase
  split
  · exact steady_loadState store b
  · exact steady_const _

lemma Operation.steady_run (op : Operation) (tools : Tools Cid Value)
    (store : CommitStore Cid Value) (names : String × String) (s b : Cid)
    (ancestor : CommonAncestor Cid) (strategy : ConflictStrategy) :
    Steady (op.run tools store names s b ancestor strategy) := by
  cases op with
  | merge =>
    exact (steady_buildMergeGeneral tools store _ _ s b ancestor strategy).bind fun _ =>
      steady_const _
  | rebase =>
    exact (steady_buildRebaseGeneral tools store s b ancestor strategy).bind fun r =>
      steady_applyRebase store b r

variable [DecidableEq Cid] {H : CleanHistory Cid Value} {tools : Tools Cid Value} {s b : Cid}
  {names : String × String} {ancestor : CommonAncestor Cid} {state : LedgerState Cid Value}

/-- What a general merge builds from resolved flakes. -/
structure BuildsMerge (tools : Tools Cid Value) (targetState : LedgerState Cid Value) (s : Cid)
    (resolved : List (Change Value)) (staged : StagedMerge Cid Value) : Prop where
  commit : staged.commit =
    { t := targetState.t + 1, parents := targetState.headCommitId.toList ++ [s], flakes := resolved }
  newHeadId : staged.newHeadId = tools.idOf staged.commit
  state : staged.state = targetState.applyCommit staged.newHeadId staged.commit

variable {strategy : ConflictStrategy}

omit [DecidableEq Cid] in
lemma stageMerge_builds {targetState conflicts staged}
    (h : stageMerge tools targetState s flakes conflicts strategy = .ok staged) :
    BuildsMerge tools targetState s
      (applyTwoWayStrategy tools.viaIndex flakes conflicts strategy targetState) staged := by
  rw [stageMerge] at h
  split at h
  · cases h
  · cases h
    exact ⟨rfl, rfl, rfl⟩

/-- **A merge that is not refused** stages the net change of the source, resolved, on the target. -/
lemma merge_builds {source target staged} (hs : s ∈ H.commits) (hb : b ∈ H.commits)
    (h : Returns (buildMergeGeneral tools H.store source target s b ancestor strategy)
      (.ok staged)) : ∃ net, (∀ f, opIn net f = lastOp (H.batches s ancestor.t) f) ∧ NoClash net ∧
      BuildsMerge tools (H.stateOf b) s (applyTwoWayStrategy tools.viaIndex net
        (H.conflicts s b ancestor.t) strategy (H.stateOf b)) staged := by
  obtain ⟨net, hnet, hop, hclash⟩ := collectCommitData_returns hs ancestor.t
  refine ⟨net, hop, hclash, ?_⟩
  have h : Returns (fun n => buildMergeGeneral tools H.store source target s b ancestor strategy n)
    (.ok staged) := h
  by_cases hskip : strategy = .skip
  · simp only [buildMergeGeneral, if_pos hskip] at h
    cases returns_const_iff.1 h
  simp only [buildMergeGeneral, if_neg hskip] at h
  rw [(computeDeltaKeys_returns hs ancestor.t).bind_iff,
    (computeDeltaKeys_returns hb ancestor.t).bind_iff] at h
  by_cases habort : strategy.abortsOn (H.conflicts s b ancestor.t).length = true
  · simp only [mergeConflicts, conflicts] at h habort
    simp only [if_pos habort] at h
    cases returns_const_iff.1 h
  · simp only [mergeConflicts, conflicts] at h habort
    simp only [if_neg habort] at h
    rw [(loadState_returns hb).bind_iff, hnet.bind_iff, returns_const_iff] at h
    exact stageMerge_builds h

lemma merge_state (hs : s ∈ H.commits) (hb : b ∈ H.commits)
    (h : Returns (merge.run tools H.store names s b ancestor strategy) (.ok state)) :
    ∃ net, (∀ f, opIn net f = lastOp (H.batches s ancestor.t) f) ∧
      state.facts = apply (H.stateOf b).facts (applyTwoWayStrategy tools.viaIndex net
        (H.conflicts s b ancestor.t) strategy (H.stateOf b)) := by
  obtain ⟨_, hstaged, hstate⟩ :=
    (steady_buildMergeGeneral tools H.store _ _ s b ancestor strategy).exists_of_bind h
  obtain ⟨net, hnet, -, hbuilds⟩ := merge_builds hs hb hstaged
  refine ⟨net, hnet, ?_⟩
  rw [← Except.ok.inj hstate, hbuilds.state, LedgerState.applyCommit, hbuilds.commit]

/-! ## Replaying a branch -/

omit [DecidableEq Cid] [DecidableEq Value] in
lemma mem_findConflictingKeys :
    key ∈ findConflictingKeys flakes delta ↔ key ∈ keysOf flakes ∧ key ∈ delta := by
  rw [findConflictingKeys, mem_dedup, mem_filter, decide_eq_true_iff]

def summaryOf (H : CleanHistory Cid Value) (delta : List ConflictKey) (c : Cid) : CommitSummary Cid :=
  ⟨c, H.t c, findConflictingKeys (H.flakes c) delta⟩

/-- **One replay** stages the resolved flakes of the commit, if there are any. -/
lemma replayCommit_spec (hskip : strategy ≠ .skip)
    (hc : c ∈ H.commits) (h : replayCommit tools H.store strategy r (summaryOf H delta c) = .ok r') :
    let resolved := resolveFlakes tools.viaIndex (H.flakes c)
      (findConflictingKeys (H.flakes c) delta) strategy r.currentState
    r'.currentState.facts = (if resolved = [] then r.currentState.facts
      else apply r.currentState.facts resolved) ∧
    (r'.pendingReplays = [] ↔ r.pendingReplays = [] ∧ resolved = []) := by
  have hconflict : ∀ summary, (r.conflict summary strategy).currentState = r.currentState ∧
      (r.conflict summary strategy).pendingReplays = r.pendingReplays := by
    intro summary
    rw [Replaying.conflict]
    split <;> exact ⟨rfl, rfl⟩
  rw [replayCommit, if_neg fun hs => hskip hs.2] at h
  obtain ⟨commit, hload, h⟩ := bind_eq_ok.1 h
  obtain rfl : H.commit c = commit := Except.ok.inj ((load_eq hc).symm.trans hload)
  dsimp only
  rw [show (H.commit c).flakes = H.flakes c from rfl,
    show (summaryOf H delta c).conflictKeys = findConflictingKeys (H.flakes c) delta from rfl] at h
  dsimp only at h
  split at h
  · rename_i hempty
    cases h
    simp [hconflict, hempty]
  · rename_i hne
    rw [buildReplayCommit] at h
    simp only at h
    split at h
    · cases h
    split at h
    · cases h
    cases h
    rw [(hconflict _).1, if_neg hne]
    exact ⟨rfl, by simp [hne]⟩

lemma mem_replayCommit (hskip : strategy ≠ .skip)
    (hc : c ∈ H.commits) (h : replayCommit tools H.store strategy r (summaryOf H delta c) = .ok r')
    (f : FactKey Value) :
    f ∈ r'.currentState.facts ↔ f ∈ apply r.currentState.facts (resolveFlakes tools.viaIndex
      (H.flakes c) (findConflictingKeys (H.flakes c) delta) strategy r.currentState) := by
  rw [(replayCommit_spec hskip hc h).1]
  split
  · rename_i hnil
    rw [hnil, mem_apply]
    simp
  · rfl

/-- The replays of a list of commits, oldest first, from one state to another. -/
def Replays (H : CleanHistory Cid Value) (tools : Tools Cid Value) (strategy : ConflictStrategy)
    (delta : List ConflictKey) (r : Replaying Cid Value) (l : List Cid) (r' : Replaying Cid Value) :
    Prop :=
  (l.map (summaryOf H delta)).foldlM (replayCommit tools H.store strategy) r = .ok r'

lemma Replays.snoc (h : Replays H tools strategy delta r (l ++ [c]) r') :
    ∃ m, Replays H tools strategy delta r l m ∧
      replayCommit tools H.store strategy m (summaryOf H delta c) = .ok r' := by
  rw [Replays, map_append, foldlM_append] at h
  obtain ⟨m, hm, h⟩ := bind_eq_ok.1 h
  refine ⟨m, hm, ?_⟩
  rw [map_singleton, foldlM_cons] at h
  obtain ⟨_, hm', h⟩ := bind_eq_ok.1 h
  rw [foldlM_nil] at h
  cases h
  exact hm'

/-- The flakes that a rebase replays: all of them, or those of keys that the source left alone. -/
def Winner.Replays (w : Winner) (delta : List ConflictKey) (key : ConflictKey) : Prop :=
  match w with
  | .source => key ∉ delta
  | .branch => True

omit [DecidableEq Cid] in
lemma resolveFlakes_eq_nil (w : Winner) : resolveFlakes viaIndex flakes
      (findConflictingKeys flakes delta) w.strategy state = [] ↔
    ∀ e ∈ flakes, ¬ w.Replays delta e.1.conflictKey := by
  have hkey : ∀ e ∈ flakes, e.1.conflictKey ∈ keysOf flakes := fun e he => mem_map_of_mem he
  unfold resolveFlakes
  split
  · rename_i hnil
    rw [eq_nil_iff_forall_not_mem]
    refine forall_congr' fun e => ⟨fun h he => absurd he h, fun h he => ?_⟩
    cases w with
    | branch => exact h he trivial
    | source =>
      have hmem := mem_findConflictingKeys.2 ⟨hkey e he, not_not.1 (h he)⟩
      rw [hnil] at hmem
      cases hmem
  · rename_i hne
    cases w with
    | source =>
      simp only [Winner.strategy, dropConflicting, filter_eq_nil_iff, decide_eq_true_eq,
        mem_findConflictingKeys, Winner.Replays]
      exact forall₂_congr fun e he => by simp [hkey e he]
    | branch =>
      obtain ⟨key, hmem⟩ := exists_mem_of_ne_nil _ hne
      obtain ⟨f, op, hf, -⟩ := mem_keysOf.1 (mem_findConflictingKeys.1 hmem).1
      refine iff_of_false (fun h => ?_) fun h => h _ hf trivial
      rw [(append_eq_nil_iff.1 h).1] at hf
      cases hf

/-- **No replay is pending** at the end if no commit has a flake to replay. -/
lemma Replays.pending {w : Winner} (hl : ∀ c ∈ l, c ∈ H.commits)
    (h : Replays H tools w.strategy delta r l r') : r'.pendingReplays = [] ↔
      r.pendingReplays = [] ∧ ∀ c ∈ l, ∀ e ∈ H.flakes c, ¬ w.Replays delta e.1.conflictKey := by
  induction l using List.reverseRecOn generalizing r' with
  | nil =>
    cases h
    simp
  | append_singleton l c ih =>
    obtain ⟨m, hm, hstep⟩ := h.snoc
    have hc : c ∈ H.commits := hl c (mem_append_right _ (mem_singleton_self c))
    rw [(replayCommit_spec (by cases w <;> decide) hc hstep).2,
      ih (fun d hd => hl d (mem_append_left _ hd)) hm, resolveFlakes_eq_nil, and_assoc,
      forall_mem_append, forall_mem_singleton]

def lastTouch (batches : List (List (Change Value))) (key : ConflictKey) :
    Option (List (Change Value)) :=
  (batches.filter fun batch => decide (key ∈ keysOf batch)).getLast?

omit [DecidableEq Value] in
lemma lastTouch_concat (batches : List (List (Change Value))) (batch : List (Change Value))
    (key : ConflictKey) :
    lastTouch (batches ++ [batch]) key =
      if key ∈ keysOf batch then some batch else lastTouch batches key := by
  rw [lastTouch, filter_append]
  by_cases hkey : key ∈ keysOf batch
  · rw [if_pos hkey, filter_cons_of_pos (by simpa using hkey), filter_nil,
      List.getLast?_concat]
  · rw [if_neg hkey, filter_cons_of_neg (by simpa using hkey), filter_nil,
      append_nil]
    rfl

lemma opIn_eq_none_of_not_mem_keysOf (h : f.conflictKey ∉ keysOf batch) : opIn batch f = none :=
  opIn_eq_none.2 fun op hmem => h (mem_keysOf.2 ⟨f, op, hmem, rfl⟩)

/-- What the last batch that touches a key says about a fact of it is the last word. -/
lemma lastOp_of_lastTouch {batches batch op} (h : lastTouch batches f.conflictKey = some batch) (hop : opIn batch f = some op) :
    lastOp batches f = some op := by
  induction batches using List.reverseRecOn with
  | nil => cases h
  | append_singleton batches last ih =>
    rw [lastTouch_concat] at h
    rw [lastOp_append, lastOp_singleton]
    split at h
    · cases h
      rw [hop]
      rfl
    · rename_i hnot
      rw [opIn_eq_none_of_not_mem_keysOf hnot, Option.none_or]
      exact ih h

section Induction

variable {delta : List ConflictKey} {r r' : Replaying Cid Value} {l : List Cid}

/-- **Dropping, over a whole replay**: the keys that the source changed stay as they are, on the
others the branch is replayed. -/
lemma replay_drop (hl : ∀ c ∈ l, c ∈ H.commits)
    (h : Replays H tools .takeSource delta r l r') (f : FactKey Value) :
    f ∈ r'.currentState.facts ↔
      if f.conflictKey ∈ delta then f ∈ r.currentState.facts
      else f ∈ replay r.currentState.facts (l.map H.flakes) := by
  induction l using List.reverseRecOn generalizing r' with
  | nil =>
    cases h
    simp [replay]
  | append_singleton l c ih =>
    obtain ⟨m, hm, hstep⟩ := h.snoc
    have hc : c ∈ H.commits := hl c (mem_append_right _ (mem_singleton_self c))
    have hm' := ih (fun d hd => hl d (mem_append_left _ hd)) hm
    rw [mem_replayCommit (by decide) hc hstep, resolveFlakes_takeSource, mem_twoWay_branch]
    by_cases hdelta : f.conflictKey ∈ delta
    · rw [if_pos hdelta] at hm' ⊢
      split
      · exact hm'
      rename_i hnot
      -- the commit does not touch the key, or it would conflict
      have hkeys : f.conflictKey ∉ keysOf (H.flakes c) := fun hk =>
        hnot (mem_findConflictingKeys.2 ⟨hk, hdelta⟩)
      rw [mem_apply_iff_opIn, opIn_eq_none_of_not_mem_keysOf hkeys]
      simpa using hm'
    · rw [if_neg hdelta] at hm' ⊢
      rw [if_neg fun hk => hdelta (mem_findConflictingKeys.1 hk).2, map_append, replay_append]
      show f ∈ apply m.currentState.facts (H.flakes c) ↔ f ∈ apply _ (H.flakes c)
      rw [mem_apply_iff_opIn, mem_apply_iff_opIn, hm']

/-- **Keeping, over a whole replay**: of a key that the source changed, a read returns at the end
only what the last commit that touches it asserts; everything else is replayed. -/
lemma replay_keep (hl : ∀ c ∈ l, c ∈ H.commits)
    (h : Replays H tools .takeBranch delta r l r') (f : FactKey Value) :
    f ∈ r'.currentState.facts ↔
      if f.conflictKey ∈ delta ∧ Seen tools.viaIndex f then
        (lastTouch (l.map H.flakes) f.conflictKey).elim (f ∈ r.currentState.facts) ((f, true) ∈ ·)
      else f ∈ replay r.currentState.facts (l.map H.flakes) := by
  induction l using List.reverseRecOn generalizing r' with
  | nil =>
    cases h
    simp [replay, lastTouch]
  | append_singleton l c ih =>
    obtain ⟨_, hm, hstep⟩ := h.snoc
    have hc : c ∈ H.commits := hl c (mem_append_right _ (mem_singleton_self c))
    have hm' := ih (fun d hd => hl d (mem_append_left _ hd)) hm
    rw [mem_replayCommit (by decide) hc hstep, resolveFlakes_takeBranch, mem_twoWay_source,
      mem_findConflictingKeys, map_append, map_singleton]
    by_cases hboth : f.conflictKey ∈ delta ∧ Seen tools.viaIndex f
    · rw [if_pos hboth] at hm' ⊢
      rw [lastTouch_concat]
      by_cases hkeys : f.conflictKey ∈ keysOf (H.flakes c)
      · simp [hkeys, hboth.1, hboth.2, (H.noClash c hc).opIn_eq]
      · rw [opIn_eq_none_of_not_mem_keysOf hkeys, if_neg hkeys]
        simpa [hkeys] using hm'
    · rw [if_neg hboth] at hm' ⊢
      have hfree : ¬ ((f.conflictKey ∈ keysOf (H.flakes c) ∧ f.conflictKey ∈ delta) ∧
          Seen tools.viaIndex f) := fun h => hboth ⟨h.1.2, h.2⟩
      rw [replay_append]
      show _ ↔ f ∈ apply _ (H.flakes c)
      rw [mem_apply_iff_opIn, hm']
      simp [hfree]

end Induction

/-- **A rebase that is not refused** replays the branch commits above the stop on the source, and
publishes the result if there is one. -/
lemma rebase_replays (hs : s ∈ H.commits) (hb : b ∈ H.commits)
    (h : Returns (rebase.run tools H.store names s b ancestor strategy) (.ok state)) :
    ∃ r, Replays H tools strategy (H.deltaKeys s ancestor.t) ⟨H.stateOf s, [], 0, []⟩
      (H.range b ancestor.t).reverse r ∧
      state = if r.pendingReplays = [] then H.stateOf b else r.currentState := by
  have h : Returns (fun n => buildRebaseGeneral tools H.store b s ancestor strategy n
    >>= fun replaying => applyRebase H.store b replaying n) (.ok state) := h
  have hscan : Returns (scanBranchCommits H.store b ancestor.t (H.deltaKeys s ancestor.t))
      (.ok ((H.range b ancestor.t).reverse.map (summaryOf H (H.deltaKeys s ancestor.t)))) := by
    refine (walkFirstParent_returns hb ancestor.t).bind (returns_of_eq fun _ => ?_)
    rw [map_map, ← map_reverse]
    rfl
  simp only [buildRebaseGeneral, bind_assoc] at h
  rw [(computeDeltaKeys_returns hs ancestor.t).bind_iff, hscan.bind_iff] at h
  cases habort : abortUpfront strategy
      ((H.range b ancestor.t).reverse.map (summaryOf H (H.deltaKeys s ancestor.t))) with
  | error e =>
    simp only [bind_of_error habort] at h
    cases returns_const_iff.1 h
  | ok u =>
    simp only [bind_of_ok habort] at h
    rw [(loadState_returns hs).bind_iff] at h
    cases hrun : replayBranch tools H.store strategy (H.stateOf s)
        ((H.range b ancestor.t).reverse.map (summaryOf H (H.deltaKeys s ancestor.t))) with
    | error e =>
      simp only [bind_of_error hrun] at h
      cases returns_const_iff.1 h
    | ok r =>
      simp only [bind_of_ok hrun, applyRebase, List.isEmpty_iff] at h
      refine ⟨r, hrun, ?_⟩
      by_cases hpending : r.pendingReplays = []
      · simp only [if_pos hpending] at h ⊢
        exact Except.ok.inj (h.unique (loadState_returns hb))
      · simp only [if_neg hpending] at h ⊢
        exact (Except.ok.inj (returns_const_iff.1 h)).symm

/-- Some branch commit above the stop has a flake to replay. -/
def Publishes (H : CleanHistory Cid Value) (w : Winner) (s b : Cid) (stop : ℤ) : Prop :=
  ∃ batch ∈ H.batches b stop, ∃ e ∈ batch, w.Replays (H.deltaKeys s stop) e.1.conflictKey

open Classical in
/-- **The branch after a rebase.** -/
lemma rebase_state {w : Winner} (hs : s ∈ H.commits) (hb : b ∈ H.commits)
    (h : Returns (rebase.run tools H.store names s b ancestor w.strategy) (.ok state)) :
    ∃ r, Replays H tools w.strategy (H.deltaKeys s ancestor.t) ⟨H.stateOf s, [], 0, []⟩
      (H.range b ancestor.t).reverse r ∧
      state = if Publishes H w s b ancestor.t then r.currentState else H.stateOf b := by
  obtain ⟨r, hr, hstate⟩ := rebase_replays hs hb h
  refine ⟨r, hr, ?_⟩
  have hpending : r.pendingReplays = [] ↔ ¬ Publishes H w s b ancestor.t := by
    rw [hr.pending fun c hc => mem_of_mem_line hb ((takeWhile_sublist _).subset (mem_reverse.1 hc)),
      and_iff_right rfl]
    constructor
    · rintro h ⟨_, hbatch, e, he, hw⟩
      obtain ⟨c, hc, rfl⟩ := mem_map.1 hbatch
      exact h c hc e he hw
    · exact fun h c hc e he hw => h ⟨_, mem_map_of_mem hc, e, he, hw⟩
  rw [hstate]
  by_cases hpub : Publishes H w s b ancestor.t
  · rw [if_pos hpub, if_neg fun hnil => hpending.1 hnil hpub]
  · rw [if_neg hpub, if_pos (hpending.2 hpub)]

/-! ## When a strategy is exact -/

/-- What an operation leaves without a strategy: the net change of the source on the target, or the
branch commits on the source. -/
noncomputable def Operation.plain (op : Operation) (H : CleanHistory Cid Value) (s b : Cid) (stop : ℤ) :
    List (FactKey Value) :=
  match op with
  | .merge => replay (H.facts b) (H.batches s stop)
  | .rebase => replay (H.facts s) (H.batches b stop)

/-- The strategy leaves the winner's values under the keys that conflict, and what it would leave
without a strategy under the others. -/
structure StrategyExact (H : CleanHistory Cid Value) (op : Operation) (w : Winner) (s b : Cid) (stop : ℤ)
    (state : LedgerState Cid Value) : Prop where
  winner : ∀ f : FactKey Value, f.conflictKey ∈ H.conflicts s b stop →
    (f ∈ state.facts ↔ f ∈ H.facts (w.head s b))
  others : ∀ f : FactKey Value, f.conflictKey ∉ H.conflicts s b stop →
    (f ∈ state.facts ↔ f ∈ op.plain H s b stop)

/-- Nothing that the winner holds under a conflicting key is lost for not being mentioned.

When a merge takes the source: a value that no source commit above the stop mentions is not held by
the source if a read of the target returns such values, and is otherwise held by both heads or by
neither. When a rebase takes the branch: a value that reads return and the branch holds is asserted
by the last branch commit that touches its key, and one that reads do not return and no branch commit
mentions is held by both heads or by neither. -/
def Operation.Retains (op : Operation) (H : CleanHistory Cid Value) (viaIndex : FactKey Value → Bool)
    (w : Winner) (s b : Cid) (stop : ℤ) : Prop :=
  match op, w with
  | .merge, .source => ∀ f : FactKey Value, f.conflictKey ∈ H.conflicts s b stop →
      lastOp (H.batches s stop) f = none →
      (Seen viaIndex f → f ∉ H.facts s) ∧
      (¬ Seen viaIndex f → (f ∈ H.facts b ↔ f ∈ H.facts s))
  | .rebase, .branch => ∀ f : FactKey Value, f.conflictKey ∈ H.conflicts s b stop →
      (Seen viaIndex f → f ∈ H.facts b →
        ∃ batch, lastTouch (H.batches b stop) f.conflictKey = some batch ∧ (f, true) ∈ batch) ∧
      (¬ Seen viaIndex f → lastOp (H.batches b stop) f = none → (f ∈ H.facts s ↔ f ∈ H.facts b))
  | .merge, .branch => True
  | .rebase, .source => True

/-- A merge always moves the head. A rebase with nothing to replay leaves the branch as it is, which
is right if the branch holds what the source holds. -/
def Operation.Moves (op : Operation) (H : CleanHistory Cid Value) (w : Winner) (s b : Cid)
    (stop : ℤ) : Prop :=
  match op with
  | .merge => True
  | .rebase => Publishes H w s b stop ∨ ∀ f, f ∈ H.facts b ↔ f ∈ H.facts s

lemma mem_facts_iff (c : Cid) (stop : ℤ) : f ∈ H.facts c ↔ lastOp (H.batches c stop) f = some true ∨
      lastOp (H.batches c stop) f = none ∧ f ∈ H.before c stop := by
  rw [facts_eq_replay c stop, mem_replay]

variable {stop : ℤ}

lemma exists_lastTouch (h : key ∈ H.deltaKeys c stop) :
    ∃ batch, lastTouch (H.batches c stop) key = some batch := by
  obtain ⟨batch, hbatch, hkey⟩ := mem_deltaKeys.1 h
  cases hlast : lastTouch (H.batches c stop) key with
  | some last => exact ⟨last, rfl⟩
  | none =>
    have hnil := List.getLast?_eq_none_iff.1 hlast
    have hmem : batch ∈ (H.batches c stop).filter fun batch => decide (key ∈ keysOf batch) :=
      mem_filter.2 ⟨hbatch, decide_eq_true hkey⟩
    rw [hnil] at hmem
    cases hmem

omit [DecidableEq Value] in
lemma lastTouch_mem {batches : List (List (Change Value))} {batch : List (Change Value)}
    {key : ConflictKey} (h : lastTouch batches key = some batch) : batch ∈ batches :=
  mem_of_mem_filter (mem_of_getLast? h)

lemma merge_source_exact_iff (hs : s ∈ H.commits) (hb : b ∈ H.commits)
    (h : Returns (merge.run tools H.store names s b ancestor .takeSource) (.ok state)) :
    StrategyExact H .merge .source s b ancestor.t state ↔
      merge.Retains H tools.viaIndex .source s b ancestor.t := by
  obtain ⟨_, hnet, hstate⟩ := merge_state hs hb h
  have hmem : ∀ f, f ∈ state.facts ↔ lastOp (H.batches s ancestor.t) f = some true ∨
      lastOp (H.batches s ancestor.t) f = none ∧ f ∈ H.facts b ∧
        ¬ (f.conflictKey ∈ H.conflicts s b ancestor.t ∧ Seen tools.viaIndex f) := fun f => by
    rw [hstate, mem_twoWay_source, hnet]
    rfl
  constructor
  · intro hexact f hkey hnone
    have hf := hexact.winner f hkey
    rw [hmem f, hnone] at hf
    simp only [reduceCtorEq, false_or, true_and, hkey] at hf
    refine ⟨fun hseen hheld => (hf.2 hheld).2 hseen, fun hunseen => ?_⟩
    exact ⟨fun hfb => hf.1 ⟨hfb, hunseen⟩, fun hfs => (hf.2 hfs).1⟩
  · intro hretains
    refine ⟨fun f hkey => ?_, fun f hkey => ?_⟩
    · show _ ↔ f ∈ H.facts s
      rw [hmem f]
      cases hop : lastOp (H.batches s ancestor.t) f with
      | some =>
        rw [mem_facts_iff s ancestor.t, hop]
        simp
      | none =>
        obtain ⟨hseen, hunseen⟩ := hretains f hkey hop
        simp only [reduceCtorEq, false_or, true_and, hkey]
        by_cases hs' : Seen tools.viaIndex f
        · exact ⟨fun h => absurd hs' h.2, fun h => absurd h (hseen hs')⟩
        · rw [← hunseen hs']
          exact ⟨And.left, fun h => ⟨h, hs'⟩⟩
    · show _ ↔ f ∈ replay (H.facts b) (H.batches s ancestor.t)
      rw [hmem f, mem_replay]
      simp [hkey]

lemma merge_branch_exact (hs : s ∈ H.commits) (hb : b ∈ H.commits)
    (h : Returns (merge.run tools H.store names s b ancestor .takeBranch) (.ok state)) :
    StrategyExact H .merge .branch s b ancestor.t state := by
  obtain ⟨_, hnet, hstate⟩ := merge_state hs hb h
  refine ⟨fun f hkey => ?_, fun f hkey => ?_⟩
  · rw [hstate, mem_twoWay_branch, if_pos hkey]
    rfl
  · show _ ↔ f ∈ replay (H.facts b) (H.batches s ancestor.t)
    rw [hstate, mem_twoWay_branch, if_neg hkey, mem_apply_iff_opIn, hnet, mem_replay]
    rfl

lemma mem_range_commits (hc : c ∈ H.commits) (hd : d ∈ (H.range c stop).reverse) : d ∈ H.commits :=
  mem_of_mem_line hc ((takeWhile_sublist _).subset (mem_reverse.1 hd))

lemma replay_of_not_conflict (hkey : f.conflictKey ∉ H.conflicts s b stop)
    (hdelta : f.conflictKey ∈ H.deltaKeys s stop) :
    f ∈ replay (H.facts s) (H.batches b stop) ↔ f ∈ H.facts s :=
  mem_replay_of_lastOp_eq_none (lastOp_eq_none_of_not_mem fun hb =>
    hkey (mem_conflicts.2 ⟨hdelta, hb⟩))

lemma replayed_source_exact (hb : b ∈ H.commits) (hr : Replays H tools .takeSource
      (H.deltaKeys s stop) ⟨H.stateOf s, [], 0, []⟩ (H.range b stop).reverse r) :
    StrategyExact H .rebase .source s b stop r.currentState := by
  have hmem := replay_drop (fun c hc => mem_range_commits hb hc) hr
  refine ⟨fun f hkey => ?_, fun f hkey => ?_⟩
  · rw [hmem f, if_pos (mem_conflicts.1 hkey).1]
    rfl
  · rw [hmem f]
    split
    · rename_i hdelta
      exact (replay_of_not_conflict hkey hdelta).symm
    · exact Iff.rfl

lemma replayed_branch_exact_iff (hb : b ∈ H.commits) (hr : Replays H tools .takeBranch
      (H.deltaKeys s stop) ⟨H.stateOf s, [], 0, []⟩ (H.range b stop).reverse r) :
    StrategyExact H .rebase .branch s b stop r.currentState ↔
      rebase.Retains H tools.viaIndex .branch s b stop := by
  have hmem : ∀ f, f ∈ r.currentState.facts ↔
      if f.conflictKey ∈ H.deltaKeys s stop ∧ Seen tools.viaIndex f then
        (lastTouch (H.batches b stop) f.conflictKey).elim (f ∈ H.facts s) ((f, true) ∈ ·)
      else f ∈ replay (H.facts s) (H.batches b stop) :=
    replay_keep (fun c hc => mem_range_commits hb hc) hr
  constructor
  · intro hexact f hkey
    have hf := hexact.winner f hkey
    rw [hmem f] at hf
    obtain ⟨batch, hbatch⟩ := exists_lastTouch (mem_conflicts.1 hkey).2
    refine ⟨fun hseen hheld => ⟨batch, hbatch, ?_⟩, fun hunseen hnone => ?_⟩
    · rw [if_pos ⟨(mem_conflicts.1 hkey).1, hseen⟩, hbatch] at hf
      exact hf.2 hheld
    · rw [if_neg fun h => hunseen h.2, mem_replay_of_lastOp_eq_none hnone] at hf
      exact hf
  · intro hretains
    refine ⟨fun f hkey => ?_, fun f hkey => ?_⟩
    · show _ ↔ f ∈ H.facts b
      obtain ⟨hseen, hunseen⟩ := hretains f hkey
      obtain ⟨batch, hbatch⟩ := exists_lastTouch (mem_conflicts.1 hkey).2
      have hclash := noClash_of_mem_batches hb (lastTouch_mem hbatch)
      rw [hmem f]
      by_cases hs' : Seen tools.viaIndex f
      · rw [if_pos ⟨(mem_conflicts.1 hkey).1, hs'⟩, hbatch]
        constructor
        · intro hf
          rw [mem_facts_iff b stop]
          exact .inl (lastOp_of_lastTouch hbatch (hclash.opIn_eq.2 hf))
        · intro hf
          obtain ⟨last, hlast, hmemlast⟩ := hseen hs' hf
          rw [hbatch] at hlast
          cases hlast
          exact hmemlast
      · rw [if_neg fun h => hs' h.2]
        cases hop : lastOp (H.batches b stop) f with
        | none => rw [mem_replay_of_lastOp_eq_none hop, hunseen hs' hop]
        | some =>
          rw [mem_replay_of_lastOp_eq_some hop, mem_facts_iff b stop, hop]
          simp
    · show _ ↔ f ∈ replay (H.facts s) (H.batches b stop)
      rw [hmem f]
      split
      · rename_i hboth
        have hnot : f.conflictKey ∉ H.deltaKeys b stop := fun hb' =>
          hkey (mem_conflicts.2 ⟨hboth.1, hb'⟩)
        have hnone : lastTouch (H.batches b stop) f.conflictKey = none := by
          cases hlast : lastTouch (H.batches b stop) f.conflictKey with
          | none => rfl
          | some batch =>
            have htouch := (mem_filter.1 (mem_of_getLast? hlast)).2
            exact absurd (mem_deltaKeys.2 ⟨batch, lastTouch_mem hlast,
              of_decide_eq_true htouch⟩) hnot
        rw [hnone, replay_of_not_conflict hkey hboth.1]
        rfl
      · exact Iff.rfl

section

variable {w : Winner} (hpub : ¬ Publishes H w s b stop)
include hpub

lemma lastOp_of_not_publishes (hkey : f.conflictKey ∉ H.conflicts s b stop) :
    lastOp (H.batches b stop) f = none := by
  refine lastOp_eq_none.2 fun batch hbatch op hmem => ?_
  have hdelta : f.conflictKey ∉ H.deltaKeys s stop := fun hdelta => hkey (mem_conflicts.2
    ⟨hdelta, mem_deltaKeys.2 ⟨batch, hbatch, mem_keysOf.2 ⟨f, op, hmem, rfl⟩⟩⟩)
  refine hpub ⟨batch, hbatch, _, hmem, ?_⟩
  cases w with
  | source => exact hdelta
  | branch => trivial

lemma source_of_not_publishes (hkey : key ∈ H.conflicts s b stop) : w = .source := by
  obtain ⟨batch, hbatch, hmem⟩ := mem_deltaKeys.1 (mem_conflicts.1 hkey).2
  obtain ⟨f, op, hf, -⟩ := mem_keysOf.1 hmem
  cases w with
  | source => rfl
  | branch => exact absurd ⟨batch, hbatch, _, hf, trivial⟩ hpub

/-- **A rebase that publishes nothing** is exact if the heads hold the same facts. -/
lemma unpublished_exact_iff :
    StrategyExact H .rebase w s b stop (H.stateOf b) ↔ ∀ f, f ∈ H.facts b ↔ f ∈ H.facts s := by
  have hplain : ∀ f : FactKey Value, f.conflictKey ∉ H.conflicts s b stop →
      (f ∈ rebase.plain H s b stop ↔ f ∈ H.facts s) := fun f hkey =>
    mem_replay_of_lastOp_eq_none (lastOp_of_not_publishes hpub hkey)
  constructor
  · intro hexact f
    by_cases hkey : f.conflictKey ∈ H.conflicts s b stop
    · obtain rfl := source_of_not_publishes hpub hkey
      exact hexact.winner f hkey
    · exact (hexact.others f hkey).trans (hplain f hkey)
  · intro hsame
    refine ⟨fun f hkey => ?_, fun f hkey => (hsame f).trans (hplain f hkey).symm⟩
    obtain rfl := source_of_not_publishes hpub hkey
    exact hsame f

end

lemma rebase_exact_iff {w : Winner} (hs : s ∈ H.commits) (hb : b ∈ H.commits)
    (h : Returns (rebase.run tools H.store names s b ancestor w.strategy) (.ok state)) :
    StrategyExact H .rebase w s b ancestor.t state ↔
      rebase.Retains H tools.viaIndex w s b ancestor.t ∧ rebase.Moves H w s b ancestor.t := by
  obtain ⟨r, hr, rfl⟩ := rebase_state hs hb h
  by_cases hpub : Publishes H w s b ancestor.t
  · rw [if_pos hpub, and_iff_left (.inl hpub)]
    cases w with
    | source => exact iff_of_true (replayed_source_exact hb hr) trivial
    | branch => exact replayed_branch_exact_iff hb hr
  · have hretains : rebase.Retains H tools.viaIndex w s b ancestor.t := by
      cases w with
      | source => trivial
      | branch => exact fun f hkey => nomatch source_of_not_publishes hpub hkey
    rw [if_neg hpub, unpublished_exact_iff hpub, and_iff_right hretains]
    exact (or_iff_right hpub).symm

def valueOf (n : ℕ) : FactKey ℕ := ⟨none, ⟨1, "s"⟩, ⟨1, "p"⟩, n, ⟨2, "integer"⟩, none, none⟩

/-- A value of another key. -/
def otherOf (n : ℕ) : FactKey ℕ := ⟨none, ⟨1, "s"⟩, ⟨1, "q"⟩, n, ⟨2, "integer"⟩, none, none⟩

/-- No index, no shapes and no limit; the content id of a commit is its size. -/
def plainTools : Tools ℕ ℕ where
  idOf commit := 100 * commit.parents.length + commit.flakes.length
  viaIndex _ := false
  violates _ _ := none
  noveltySize _ := 0
  reindexMaxBytes := 1

/-- Two branches of one commit each leave a commit that asserts a value of the key, and assert a
value of their own; the second asserts `more` besides. -/
def forked (more : List (FactKey ℕ)) : CleanHistory ℕ ℕ where
  commits := Finset.range 3
  envelope
    | 0 => ⟨1, []⟩
    | 1 => ⟨2, [0]⟩
    | 2 => ⟨2, [0]⟩
    | _ => ⟨0, []⟩
  closed := by decide
  acyclic c _ := acyclic_of_lt (fun c p hp => by
    match c with
    | 0 | 1 | 2 => revert p; decide
    | _ + 3 => cases hp) c
  decreasing := by decide
  inRange := by decide
  flakes c := (valueOf c :: if c = 2 then more else []).map (·, true)
  noClash c _ f _ hfalse := by
    obtain ⟨_, -, h⟩ := mem_map.1 hfalse
    cases h
  positive := by decide

abbrev inherited : CleanHistory ℕ ℕ := forked []

lemma inherited_rebase : Returns (rebase.run plainTools inherited.store ("main", "dev") 1 2
    ⟨0, 1⟩ .takeBranch) (.ok ⟨some 103, 3, [valueOf 2]⟩) :=
  (steady_run .rebase plainTools inherited.store _ 1 2 ⟨0, 1⟩ .takeBranch).returns
    (n := 5) (by decide)

lemma inherited_facts : inherited.facts 1 = [valueOf 0, valueOf 1] := by
  have hload : loadState inherited.store 1 5 = .ok ⟨some 1, 2, [valueOf 0, valueOf 1]⟩ := by decide
  exact facts_of_load (by decide) hload

lemma inherited_conflicts : (valueOf 0).conflictKey ∈ inherited.conflicts 1 2 1 := by
  have hsource : inherited.deltaKeys 1 1 = [(valueOf 0).conflictKey] :=
    deltaKeys_of_compute (n := 5) (by decide) (by decide)
  have htarget : inherited.deltaKeys 2 1 = [(valueOf 0).conflictKey] :=
    deltaKeys_of_compute (n := 5) (by decide) (by decide)
  rw [mem_conflicts, hsource, htarget]
  exact ⟨mem_singleton_self _, mem_singleton_self _⟩

end Fluree.Branch
