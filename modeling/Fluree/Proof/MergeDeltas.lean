import Fluree.Proof.ConflictStrategies

/-!
# What a merge carries and what it overlooks

A merge finds the changes of both sides by walking first parents down to the time of the common
ancestor. Times are counted per branch, so this cuts a line at the ancestor only if the ancestor is
on it; an ancestor reached over a merge edge can cut anywhere.

* `Ledger.Step`: commits, new branches and merges, and the histories they build (`fits_merge`).
-/

namespace Fluree.Branch

open Chain Lib Lib.Changes Relation List Function History CleanHistory

variable {Cid Value : Type} [DecidableEq Cid] [DecidableEq Value]

/-! ## Adding a commit to a history -/

namespace CleanHistory

variable {H : CleanHistory Cid Value}

/-- A commit that can be added under an id. -/
structure Fits (H : CleanHistory Cid Value) (id : Cid) (c : Commit Cid Value) : Prop where
  fresh : id ∉ H.commits
  parents : ∀ p ∈ c.parents, p ∈ H.commits
  older : ∀ p ∈ c.parents.head?, H.t p < c.t
  inRange : c.t ≤ i64Max
  noClash : NoClash c.flakes
  positive : 0 < c.t

section Add

variable {id : Cid} {c : Commit Cid Value}

lemma Fits.ne (h : H.Fits id c) (hd : d ∈ H.commits) : d ≠ id := by
  rintro rfl
  exact h.fresh hd

lemma update_envelope (h : H.Fits id c) (hd : d ∈ H.commits) :
    Function.update H.envelope id c.toEnvelope d = H.envelope d :=
  update_of_ne (h.ne hd) _ _

lemma old_of_transGen (h : H.Fits id c) (hx : x ∈ H.commits)
    (hxy : TransGen (fun x y => y ∈ (Function.update H.envelope id c.toEnvelope x).parents) x y) :
    y ∈ H.commits ∧ TransGen (fun x y => y ∈ (H.envelope x).parents) x y := by
  induction hxy with
  | single hp =>
    rw [update_envelope h hx] at hp
    exact ⟨H.closed x hx _ hp, .single hp⟩
  | tail _ hp ih =>
    obtain ⟨hm, hpath⟩ := ih
    rw [update_envelope h hm] at hp
    exact ⟨H.closed _ hm _ hp, .tail hpath hp⟩

def addCommit (H : CleanHistory Cid Value) (id : Cid) (c : Commit Cid Value) (h : H.Fits id c) :
    CleanHistory Cid Value where
  commits := insert id H.commits
  envelope := Function.update H.envelope id c.toEnvelope
  flakes := Function.update H.flakes id c.flakes
  closed d hd p hp := by
    rcases Finset.mem_insert.1 hd with rfl | hd
    · rw [update_self] at hp
      exact Finset.mem_insert_of_mem (h.parents p hp)
    · rw [update_envelope h hd] at hp
      exact Finset.mem_insert_of_mem (H.closed d hd p hp)
  acyclic d hd hcycle := by
    rcases Finset.mem_insert.1 hd with rfl | hd
    · -- the first step leaves the new commit, and nothing old leads back
      obtain ⟨p, hp, hback⟩ := TransGen.head'_iff.1 hcycle
      rw [update_self] at hp
      rcases reflTransGen_iff_eq_or_transGen.1 hback with rfl | hback
      · exact h.fresh (h.parents _ hp)
      · exact h.fresh (old_of_transGen h (h.parents p hp) hback).1
    · exact H.acyclic d hd (old_of_transGen h hd hcycle).2
  decreasing d hd p hp := by
    rcases Finset.mem_insert.1 hd with rfl | hd
    · rw [update_self] at hp ⊢
      rw [update_envelope h (h.parents p (mem_of_mem_head? hp))]
      exact h.older p hp
    · rw [update_envelope h hd] at hp ⊢
      rw [update_envelope h (H.closed d hd p (mem_of_mem_head? hp))]
      exact H.decreasing d hd p hp
  inRange d hd := by
    rcases Finset.mem_insert.1 hd with rfl | hd
    · rw [update_self]
      exact h.inRange
    · rw [update_envelope h hd]
      exact H.inRange d hd
  noClash d hd := by
    rcases Finset.mem_insert.1 hd with rfl | hd
    · rw [update_self]
      exact h.noClash
    · rw [update_of_ne (h.ne hd)]
      exact H.noClash d hd
  positive d hd := by
    rcases Finset.mem_insert.1 hd with rfl | hd
    · rw [update_self]
      exact h.positive
    · rw [update_envelope h hd]
      exact H.positive d hd

def empty : CleanHistory Cid Value where
  commits := ∅
  envelope _ := ⟨0, []⟩
  flakes _ := []
  closed _ h := absurd h (Finset.notMem_empty _)
  acyclic _ h := absurd h (Finset.notMem_empty _)
  decreasing _ h := absurd h (Finset.notMem_empty _)
  inRange _ h := absurd h (Finset.notMem_empty _)
  noClash _ h := absurd h (Finset.notMem_empty _)
  positive _ h := absurd h (Finset.notMem_empty _)

end Add

end CleanHistory

/-! ## Ledgers with branches -/

/-- A history and the heads of the branches. -/
structure Ledger (Cid Value : Type) [DecidableEq Cid] [DecidableEq Value] where
  history : CleanHistory Cid Value
  heads : String → Option Cid
  headsIn : ∀ name, ∀ c ∈ heads name, c ∈ history.commits

open Branch.Ledger

namespace Ledger

variable {L : Ledger Cid Value} {tools : Tools Cid Value}

def empty : Ledger Cid Value := ⟨.empty, fun _ => none, fun _ _ h => (nomatch h)⟩

def base (L : Ledger Cid Value) (name : String) : LedgerState Cid Value :=
  ⟨L.heads name, ((L.heads name).map L.history.t).getD 0, []⟩

/-- A commit that becomes the head of a branch. -/
def advance (L : Ledger Cid Value) (name : String) (id : Cid) (c : Commit Cid Value)
    (h : L.history.Fits id c) : Ledger Cid Value where
  history := L.history.addCommit id c h
  heads := Function.update L.heads name (some id)
  headsIn other d hd := by
    by_cases hn : other = name
    · subst hn
      rw [update_self] at hd
      cases hd
      exact Finset.mem_insert_self _ _
    · rw [update_of_ne hn] at hd
      exact Finset.mem_insert_of_mem (L.headsIn other d hd)

def setHead (L : Ledger Cid Value) (name : String) (c : Cid) (hc : c ∈ L.history.commits) :
    Ledger Cid Value where
  history := L.history
  heads := Function.update L.heads name (some c)
  headsIn other d hd := by
    by_cases hn : other = name
    · subst hn
      rw [update_self] at hd
      cases hd
      exact hc
    · rw [update_of_ne hn] at hd
      exact L.headsIn other d hd

lemma fits_commit (name : String) {flakes : List (Change Value)} (hclash : NoClash flakes)
    (hfresh : (buildCommit tools (L.base name) flakes []).1 ∉ L.history.commits)
    (hrange : (L.base name).t + 1 ≤ i64Max) :
    L.history.Fits (buildCommit tools (L.base name) flakes []).1
      (buildCommit tools (L.base name) flakes []).2 := by
  have hparents : ∀ p ∈ (L.heads name).toList ++ [], p ∈ L.history.commits ∧
      L.history.t p = (L.base name).t := fun p hp => by
    rw [append_nil] at hp
    have hhead : L.heads name = some p := by simpa using hp
    refine ⟨L.headsIn name p hhead, ?_⟩
    rw [base, hhead]
    rfl
  refine ⟨hfresh, fun p hp => (hparents p hp).1, fun p hp => ?_, hrange, hclash, ?_⟩
  · have hpt := (hparents p (mem_of_mem_head? hp)).2
    show L.history.t p < (L.base name).t + 1
    omega
  · show 0 < (L.base name).t + 1
    cases hhead : L.heads name with
    | none =>
      rw [base, hhead]
      exact Int.zero_lt_one
    | some c =>
      have hpos : 0 < L.history.t c := L.history.positive c (L.headsIn name c hhead)
      rw [base, hhead]
      show 0 < L.history.t c + 1
      omega

/-- An ordinary commit on a branch. -/
def commitOn (tools : Tools Cid Value) (L : Ledger Cid Value) (name : String)
    (flakes : List (Change Value)) (hclash : NoClash flakes)
    (hfresh : (buildCommit tools (L.base name) flakes []).1 ∉ L.history.commits)
    (hrange : (L.base name).t + 1 ≤ i64Max) : Ledger Cid Value :=
  L.advance name _ _ (fits_commit name hclash hfresh hrange)

omit [DecidableEq Cid] in
lemma noClash_applyTwoWay {viaIndex : FactKey Value → Bool} {flakes : List (Change Value)}
    {keys : List ConflictKey} {strategy : ConflictStrategy} {state : LedgerState Cid Value}
    (h : NoClash flakes) : NoClash (applyTwoWayStrategy viaIndex flakes keys strategy state) := by
  unfold applyTwoWayStrategy
  split
  · exact h
  cases strategy with
  | takeSource =>
    intro f htrue hfalse
    rcases mem_append.1 htrue with htrue | htrue
    · rcases mem_append.1 hfalse with hfalse | hfalse
      · exact h f htrue hfalse
      · exact (mem_buildSourceRetractions.1 hfalse).2.2.2.2 htrue
    · cases (mem_buildSourceRetractions.1 htrue).1
  | takeBranch =>
    intro f htrue hfalse
    exact h f (mem_of_mem_filter htrue) (mem_of_mem_filter hfalse)
  | takeBoth | abort | skip => exact h

lemma fits_merge {H : CleanHistory Cid Value} {source target : String} {s b : Cid}
    {ancestor : CommonAncestor Cid} {strategy : ConflictStrategy} {staged : StagedMerge Cid Value}
    (hs : s ∈ H.commits) (hb : b ∈ H.commits)
    (h : Returns (buildMergeGeneral tools H.store source target s b ancestor strategy) (.ok staged))
    (hfresh : staged.newHeadId ∉ H.commits) (hrange : staged.commit.t ≤ i64Max) :
    H.Fits staged.newHeadId staged.commit := by
  obtain ⟨_, -, hclash, hbuilds⟩ := merge_builds hs hb h
  have hcommit := hbuilds.commit
  have hpos : 0 < H.t b := H.positive b hb
  refine ⟨hfresh, fun p hp => ?_, fun p hp => ?_, hrange, ?_, ?_⟩
  · rw [hcommit] at hp
    rcases mem_append.1 hp with hp | hp
    · obtain rfl : p = b := by simpa [stateOf] using hp
      exact hb
    · rw [mem_singleton.1 hp]
      exact hs
  · rw [hcommit] at hp ⊢
    obtain rfl : b = p := Option.some.inj hp
    show H.t b < H.t b + 1
    omega
  · rw [hcommit]
    exact noClash_applyTwoWay hclash
  · rw [hcommit]
    show 0 < H.t b + 1
    omega

/-- One operation on a ledger. Content ids are those of different commits, so a new commit has a new
id, and transaction times stay in range. -/
inductive Step (tools : Tools Cid Value) : Ledger Cid Value → Ledger Cid Value → Prop
  | commit (L : Ledger Cid Value) (name : String) (flakes : List (Change Value))
      (hclash : NoClash flakes)
      (hfresh : (buildCommit tools (L.base name) flakes []).1 ∉ L.history.commits)
      (hrange : (L.base name).t + 1 ≤ i64Max) :
      Step tools L (commitOn tools L name flakes hclash hfresh hrange)
  | createBranch (L : Ledger Cid Value) (name : String) {c : Cid} (hc : c ∈ L.history.commits) :
      Step tools L (L.setHead name c hc)
  | fastForward (L : Ledger Cid Value) (source target : String) {s b : Cid}
      {ancestor : CommonAncestor Cid} (hs : L.heads source = some s) (hb : L.heads target = some b)
      (hancestor : Returns (findCommonAncestor L.history.store.envelopes s b) (.ok ancestor))
      (hforward : ancestor.commitId = b) :
      Step tools L (L.setHead target s (L.headsIn source s hs))
  | merge (L : Ledger Cid Value) (source target : String) {s b : Cid}
      {ancestor : CommonAncestor Cid} {strategy : ConflictStrategy} {staged : StagedMerge Cid Value}
      (hs : L.heads source = some s) (hb : L.heads target = some b)
      (hancestor : Returns (findCommonAncestor L.history.store.envelopes s b) (.ok ancestor))
      (hgeneral : ancestor.commitId ≠ b)
      (hbuild : Returns
        (buildMergeGeneral tools L.history.store source target s b ancestor strategy) (.ok staged))
      (hfresh : staged.newHeadId ∉ L.history.commits) (hrange : staged.commit.t ≤ i64Max) :
      Step tools L (L.advance target _ _
        (fits_merge (L.headsIn source s hs) (L.headsIn target b hb) hbuild hfresh hrange))

def Built (tools : Tools Cid Value) (L : Ledger Cid Value) : Prop :=
  ReflTransGen (Step tools) empty L

end Ledger

/-! ## Complete merges -/

variable {H : CleanHistory Cid Value} {tools : Tools Cid Value} {s b : Cid}

def SameUnder (H : CleanHistory Cid Value) (c d : Cid) (key : ConflictKey) : Prop :=
  ∀ f : FactKey Value, f.conflictKey = key → (f ∈ H.facts c ↔ f ∈ H.facts d)

/-- The merge of `s` into `b` with the common ancestor `a` carries every change of one side, and
what both sides changed is in the conflict set. -/
structure MergeComplete (H : CleanHistory Cid Value) (tools : Tools Cid Value) (s b : Cid)
    (a : CommonAncestor Cid) : Prop where
  carriesSource : ∀ names strategy state, H.conflicts s b a.t = [] →
    Returns (Operation.merge.run tools H.store names s b a strategy) (.ok state) →
    ∀ key, ¬ SameUnder H s a.commitId key → SameUnder H b a.commitId key →
    ∀ f : FactKey Value, f.conflictKey = key → (f ∈ state.facts ↔ f ∈ H.facts s)
  keepsTarget : ∀ names strategy state, H.conflicts s b a.t = [] →
    Returns (Operation.merge.run tools H.store names s b a strategy) (.ok state) →
    ∀ key, ¬ SameUnder H b a.commitId key → SameUnder H s a.commitId key →
    ∀ f : FactKey Value, f.conflictKey = key → (f ∈ state.facts ↔ f ∈ H.facts b)
  seesConflicts : ∀ key, ¬ SameUnder H s a.commitId key → ¬ SameUnder H b a.commitId key →
    key ∈ H.conflicts s b a.t

lemma mem_facts_of_onLine (hc : c ∈ H.commits) (hline : H.OnLine c d) :
    f ∈ H.facts c ↔ lastOp (H.batches c (H.t d)) f = some true ∨
      lastOp (H.batches c (H.t d)) f = none ∧ f ∈ H.facts d := by
  obtain ⟨_, hl⟩ := hline
  have hd : d ∈ H.commits := hl.reach.mem hc
  rw [mem_facts_iff c (H.t d), before_of_segment hc hd hl]

lemma mem_deltaKeys_of_changed (hc : c ∈ H.commits) (hline : H.OnLine c d)
    (h : ¬ SameUnder H c d key) : key ∈ H.deltaKeys c (H.t d) := by
  by_contra hnot
  refine h fun f hf => ?_
  rw [mem_facts_of_onLine hc hline, lastOp_eq_none_of_not_mem (hf ▸ hnot)]
  simp

/-- **An ancestor on both lines** makes the merge complete. -/
lemma mergeComplete_of_onLine (hs : s ∈ H.commits) (hb : b ∈ H.commits)
    (ht : a.t = H.t a.commitId) (hsa : H.OnLine s a.commitId) (hba : H.OnLine b a.commitId) :
    MergeComplete H tools s b a := by
  -- without a conflict the net change of the source is staged as it is
  have hmerged : ∀ {names strategy state}, H.conflicts s b a.t = [] →
      Returns (Operation.merge.run tools H.store names s b a strategy) (.ok state) →
      ∀ f, f ∈ state.facts ↔ lastOp (H.batches s a.t) f = some true ∨
        lastOp (H.batches s a.t) f = none ∧ f ∈ H.facts b := by
    intro names strategy state hnone h f
    obtain ⟨net, hnet, hstate⟩ := merge_state hs hb h
    rw [hstate, hnone, applyTwoWayStrategy_nil, mem_apply_iff_opIn, hnet]
    rfl
  refine ⟨fun names strategy state hnone h key hdiff hsame f hf => ?_,
    fun names strategy state hnone h key hdiff hsame f hf => ?_, fun key hds hdb => ?_⟩
  · rw [hmerged hnone h, mem_facts_of_onLine hs hsa, hsame f hf, ht]
  · have hkey : f.conflictKey ∉ H.deltaKeys s a.t := fun hdelta => by
      have hconflict := mem_conflicts.2 ⟨hdelta, ht ▸ hf ▸ mem_deltaKeys_of_changed hb hba hdiff⟩
      rw [hnone] at hconflict
      cases hconflict
    rw [hmerged hnone h, lastOp_eq_none_of_not_mem hkey]
    simp
  · rw [mem_conflicts, ht]
    exact ⟨mem_deltaKeys_of_changed hs hsa hds, mem_deltaKeys_of_changed hb hba hdb⟩

/-- **A merge carries every source change and sees every conflict** whenever the common ancestor that
it uses is on the first-parent lines of both heads: in every ledger, so in those that commits, new
branches and merges lead to. -/
theorem merge_complete (tools : Tools Cid Value) (L : Ledger Cid Value) (source target : String)
    (s b : Cid) (hs : L.heads source = some s) (hb : L.heads target = some b)
    (a : CommonAncestor Cid)
    (ha : Returns (findCommonAncestor L.history.store.envelopes s b) (.ok a))
    (hsa : L.history.OnLine s a.commitId) (hba : L.history.OnLine b a.commitId) :
    MergeComplete L.history tools s b a := by
  have hs' := L.headsIn source s hs
  have hb' := L.headsIn target b hb
  rw [envelopes_store] at ha
  exact mergeComplete_of_onLine hs' hb' (CommitGraph.findCommonAncestor_common hs' hb' ha).2 hsa hba

/-- The theorem at two branches of one commit each. -/
theorem merge_complete_inherited : MergeComplete inherited plainTools 1 2 ⟨0, 1⟩ := by
  let L : Ledger ℕ ℕ :=
    { history := inherited
      heads := fun name => if name = "dev" then some 1 else if name = "main" then some 2 else none
      headsIn := fun name c hc => by
        split at hc
        · cases hc
          decide
        · split at hc
          · cases hc
            decide
          · cases hc }
  have hparent : ∀ c, c = 1 ∨ c = 2 → inherited.OnLine c 0 := by
    rintro c (rfl | rfl) <;> exact ⟨_, .cons (.nil _)⟩
  refine merge_complete plainTools L "dev" "main" 1 2 rfl rfl ⟨0, 1⟩ ?_ (hparent 1 (.inl rfl))
    (hparent 2 (.inr rfl))
  exact returns_of_loop_eq (n := 5) (by decide)

/-! ## A conflict that a second merge misses -/

/-- The content id shows the time, the number of parents and the value of the first flake. -/
def idTools : Tools ℕ ℕ where
  idOf c := 100 * c.t.toNat + 10 * c.parents.length + (c.flakes.head?.map (·.1.o)).getD 0
  viaIndex _ := false
  violates _ _ := none
  noveltySize _ := 0
  reindexMaxBytes := 1

lemma noClash_singleton (f : FactKey ℕ) : NoClash [(f, true)] := by
  intro g _ hfalse
  cases mem_singleton.1 hfalse

/-- A commit that asserts one fact. -/
def assertOn (L : Ledger ℕ ℕ) (name : String) (f : FactKey ℕ)
    (hfresh : (buildCommit idTools (L.base name) [(f, true)] []).1 ∉ L.history.commits)
    (hrange : (L.base name).t + 1 ≤ i64Max) : Ledger ℕ ℕ :=
  commitOn idTools L name [(f, true)] (noClash_singleton f) hfresh hrange

lemma built_assertOn {L : Ledger ℕ ℕ} {name f hfresh hrange} (h : L.Built idTools) :
    (assertOn L name f hfresh hrange).Built idTools :=
  ReflTransGen.tail h (.commit ..)

/-- The branch `dev` leaves the first commit; both branches commit once. -/
def diverged : Ledger ℕ ℕ :=
  let first := assertOn .empty "main" (otherOf 0) (by decide) (by decide)
  let branched := first.setHead "dev" 100 (by decide)
  let main := assertOn branched "main" (valueOf 1) (by decide) (by decide)
  assertOn main "dev" (otherOf 7) (by decide) (by decide)

lemma diverged_built : diverged.Built idTools :=
  built_assertOn (built_assertOn ((built_assertOn .refl).tail (.createBranch _ "dev" _)))

/-- What the first merge of `dev` builds. -/
def firstMerge : StagedMerge ℕ ℕ :=
  { conflictCount := 0
    newHeadId := 327
    commit := { t := 3, parents := [211, 217], flakes := [(otherOf 7, true)] }
    state := ⟨some 327, 3, [otherOf 0, valueOf 1, otherOf 7]⟩ }

lemma firstMerge_returns : Returns (buildMergeGeneral idTools diverged.history.store "dev" "main"
    217 211 ⟨100, 1⟩ .abort) (.ok firstMerge) :=
  (steady_buildMergeGeneral idTools diverged.history.store "dev" "main" 217 211 ⟨100, 1⟩
    .abort).returns (n := 5) (by decide)

/-- `dev` is merged and goes on. -/
def remerged : Ledger ℕ ℕ :=
  let merged := diverged.advance "main" 327 firstMerge.commit
    (fits_merge (by decide) (by decide) firstMerge_returns (by decide) (by decide))
  assertOn merged "dev" (valueOf 3) (by decide) (by decide)

lemma remerged_built : remerged.Built idTools := by
  have hancestor : Returns (findCommonAncestor diverged.history.store.envelopes 217 211)
      (.ok ⟨100, 1⟩) := returns_of_loop_eq (n := 5) (by decide)
  exact built_assertOn (diverged_built.tail (.merge _ "dev" "main" (by decide) (by decide)
    hancestor (by decide) firstMerge_returns (by decide) (by decide)))

/-- **A second merge misses a conflict.** `dev` was merged into `main` and then changed the key that
`main` had changed before the first merge. The common ancestor is the merged commit of `dev`, and on
the line of `main` its time cuts off the commit with the change. -/
theorem remerge_misses_conflict : ∃ (L : Ledger ℕ ℕ) (s b : ℕ) (a : CommonAncestor ℕ),
    L.Built idTools ∧ L.heads "dev" = some s ∧ L.heads "main" = some b ∧
    Returns (findCommonAncestor L.history.store.envelopes s b) (.ok a) ∧ a.commitId ≠ b ∧
    ¬ MergeComplete L.history idTools s b a := by
  refine ⟨remerged, 313, 327, ⟨217, 2⟩, remerged_built, by decide, by decide,
    returns_of_loop_eq (n := 5) (by decide), by decide, fun hcomplete => ?_⟩
  have hload : ∀ {c : ℕ} {t : ℤ} {facts : List (FactKey ℕ)}, c ∈ remerged.history.commits →
      loadState remerged.history.store c 5 = .ok ⟨some c, t, facts⟩ →
      remerged.history.facts c = facts := fun hc h => facts_of_load hc h
  have hancestor : remerged.history.facts 217 = [otherOf 0, otherOf 7] :=
    hload (t := 2) (by decide) (by decide)
  have hsource : remerged.history.facts 313 = [otherOf 0, otherOf 7, valueOf 3] :=
    hload (t := 3) (by decide) (by decide)
  have htarget : remerged.history.facts 327 = [otherOf 0, valueOf 1, otherOf 7] :=
    hload (t := 3) (by decide) (by decide)
  have hdelta : remerged.history.deltaKeys 327 2 = [(otherOf 0).conflictKey] :=
    deltaKeys_of_compute (n := 5) (by decide) (by decide)
  have hkey := hcomplete.seesConflicts (valueOf 0).conflictKey
    (fun hsame => absurd (hsame (valueOf 3) rfl) (by rw [hsource, hancestor]; decide))
    (fun hsame => absurd (hsame (valueOf 1) rfl) (by rw [htarget, hancestor]; decide))
  have hmem := (mem_conflicts.1 hkey).2
  rw [hdelta] at hmem
  exact absurd hmem (by decide)

end Fluree.Branch
