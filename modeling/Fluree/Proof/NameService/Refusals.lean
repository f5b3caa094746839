import Fluree.Proof.NameService.Recreate

/-!
# A refused command changes nothing

Also where a handler works on the state before its last check: `ApplyHead` puts the popped front
back, and `PurgeBranch` finds nothing to remove, because every map only knows registered
branches (`Tracked`) and every ledger has one (`HasBranches`).
-/

namespace Fluree.NameService

open Lib KeyedMap NameServiceState

/-- The refusals; a claim on a cleared queue is answered apart. -/
def Response.refuses : Response → Bool
  | .alreadyExists _ | .ledgerNotFound _ | .ledgerRetracted _ | .sourceBranchNotFound _
  | .branchHasChildren .. | .indexStale _ | .indexAhead .. | .refCasConflict _ | .statusConflict _
  | .configConflict _ | .queueFull .. | .bodyHashMismatch | .inFlight .. | .idempotencyHit _
  | .idempotencyFailed _ | .alreadyRetracted _ | .alreadyPurged _ | .workerEligibilityRefused ..
  | .queueDesync _ _ (.wrongFront _) | .queueDesync _ _ (.headNotMonotonic ..)
  | .queueDesync _ _ (.invariantViolated _) => true
  | _ => false

/-- Equal states; a hash map is what it holds, not the order it holds it in. -/
structure SameState (s s' : NameServiceState) : Prop where
  ledgers : ∀ name, s'.ledgers.lookup name = s.ledgers.lookup name
  queues : ∀ key, s'.queues.lookup key = s.queues.lookup key
  rest : s' = { s with ledgers := s'.ledgers, queues := s'.queues }

/-- What the answer to a command says about the state behind it. -/
structure Kept (s : NameServiceState) (c : Command) (p : NameServiceState × Response) : Prop where
  refused : p.2.refuses = true → SameState s p.1
  cleared : ∀ full id reason, p.2 = .queueDesync full id (.queueCleared reason) → ∃ key,
    c.target = some key ∧ p.1 = { s with recentlyCleared := s.recentlyCleared.erase key }
  violated : ∀ full id text, p.2 = .queueDesync full id (.invariantViolated text) → ∃ key,
    c.target = some key ∧ ∀ entry ∈ s.queue key, entry.queueId ≠ id

def Response.desyncs : Response → Bool
  | .queueDesync .. => true
  | _ => false

variable {s : NameServiceState} {c : Command} {r : Response} {key : RefKey}

lemma SameState.refl : SameState s s := ⟨fun _ => rfl, fun _ => rfl, rfl⟩

lemma Kept.of_refused (h : r.refuses = true → SameState s s') (hr : r.desyncs = false) :
    Kept s c (s', r) :=
  ⟨h, (by rintro _ _ _ ⟨⟩; cases hr), (by rintro _ _ _ ⟨⟩; cases hr)⟩

lemma Kept.same (hr : r.desyncs = false) : Kept s c (s, r) := .of_refused (fun _ => .refl) hr

lemma Kept.accepted (h : r.refuses = false) (hr : r.desyncs = false) : Kept s c (s', r) :=
  .of_refused (fun h' => by rw [h] at h'; cases h') hr

def HasBranches (ledgers : KeyedMap String LedgerRecord) : Prop :=
  ∀ name l, ledgers.lookup name = some l → l.branches ≠ []

lemma HasBranches.insert (h : HasBranches m) (hl : l.branches ≠ []) :
    HasBranches (m.insert name l) := by
  intro n k hk
  rcases lookup_insert_some hk with ⟨-, rfl⟩ | ⟨-, hk⟩
  · exact hl
  · exact h n k hk

lemma HasBranches.retain (h : HasBranches m) : HasBranches (retainOtherBranches m name b).1 := by
  unfold retainOtherBranches
  split
  · dsimp only
    split
    · exact fun n k hk => h n k (lookup_erase_some hk).2
    · rename_i hne
      exact h.insert hne
  · exact h

lemma clear_removeBranch_ledgers :
    (clearQueueForAdmin (removeBranch s key).1 key reason millis).1.ledgers =
      (retainOtherBranches s.ledgers key.ledgerName key.branch).1 := by
  simp only [clearQueueForAdmin, removeBranch, decrementChildCount]
  repeat' split
  all_goals rfl

def Command.registers : Command → Bool
  | .createLedger _ | .createBranch _ | .dropBranch .. | .purgeBranch .. => true
  | _ => false

lemma Effect.ledgers_eq (h : Effect s c i s' r) (ht : Tracked s) (hc : c.registers = false) :
    s'.ledgers = s.ledgers := by
  cases h with
  | removed hremoves => rcases hremoves with ⟨_, rfl⟩ | ⟨_, rfl⟩ <;> cases hc
  | created | branchCreated => cases hc
  | headApplied _ hqueue _ _ hL => exact ht.unhealed hqueue hL
  | _ => rfl

lemma HasBranches.apply (h : HasBranches s.ledgers) (ht : Tracked s) (c : Command) (i : ℕ) :
    HasBranches (apply σ s c i).1.ledgers := by
  cases hc : c.registers with
  | false => rwa [(apply_effect σ s c i).ledgers_eq ht hc]
  | true =>
    cases c with
    | createLedger | createBranch =>
      simp only [NameService.apply, createLedger, createBranch]
      repeat' split
      all_goals first | exact h | exact h.insert (by simp)
    | dropBranch | purgeBranch =>
      simp only [NameService.apply, dropBranch, purgeBranch]
      repeat' split
      all_goals first | exact h | exact clear_removeBranch_ledgers ▸ h.retain
    | _ => cases hc

/-- The states of a replica, after any committed commands and membership changes. -/
inductive Reached (σ : SortUnstable) : NameServiceState → Prop
  | new : Reached σ .new
  | apply {s : NameServiceState} (h : Reached σ s) (c : Command) (i : ℕ) : Reached σ (apply σ s c i).1
  | applyMembership {s : NameServiceState} (h : Reached σ s) (newVoters : Finset ℕ) :
      Reached σ (applyMembership s newVoters)

lemma Reached.invariant (h : Reached σ s) : Tracked s ∧ HasBranches s.ledgers := by
  induction h with
  | new => exact ⟨tracked_new, fun name l h => by simp [NameServiceState.new] at h⟩
  | apply _ c i ih => exact ⟨ih.1.effect (apply_effect σ _ c i), ih.2.apply ih.1 c i⟩
  | applyMembership _ _ ih => exact ⟨{ ih.1 with }, ih.2⟩

/-- A branch that is not registered is taken off nothing. -/
lemma retainOtherBranches_lookup (h : HasBranches s.ledgers) (hk : s.isKnown key = false)
    (name : String) : (retainOtherBranches s.ledgers key.ledgerName key.branch).1.lookup name =
      s.ledgers.lookup name := by
  unfold retainOtherBranches
  cases hl : s.ledgers.lookup key.ledgerName with
  | none => rfl
  | some l =>
    have hb : key.branch ∉ l.branches := by simpa [isKnown, branchRegistered, hl] using hk
    have hfilter : l.branches.filter (· ≠ key.branch) = l.branches :=
      List.filter_eq_self.2 fun b hmem => decide_eq_true fun heq => hb (heq ▸ hmem)
    dsimp only
    rw [hfilter, if_neg (h _ l hl), lookup_insert_ite]
    split
    · rename_i hname
      rw [hname, hl]
    · rfl

lemma purgeBranch_kept (ht : Tracked s) (h : HasBranches s.ledgers) (ledgerId branch : String)
    (millis : ℕ) : Kept s c (purgeBranch s ledgerId branch millis) := by
  simp only [purgeBranch]
  split
  · exact .same rfl
  split
  · exact .accepted rfl rfl
  rename_i hnothing
  refine .of_refused (fun _ => ?_) rfl
  simp only [not_or, Bool.not_eq_true, Option.isSome_eq_false_iff,
    Option.isNone_iff_eq_none, retainOtherBranches_snd s ⟨ledgerId, branch⟩] at hnothing
  obtain ⟨href, hret, hk⟩ := hnothing
  have hq : s.queues.lookup ⟨ledgerId, branch⟩ = none :=
    Option.eq_none_iff_forall_ne_some.2 fun q hq => by
      rw [(ht.queues _ q hq).1] at hk
      cases hk
  have hremove : (removeBranch s ⟨ledgerId, branch⟩).1 =
      { s with ledgers := (retainOtherBranches s.ledgers ledgerId branch).1 } := by
    simp [removeBranch, href, erase_of_lookup_none href, Finset.erase_eq_of_notMem hret]
  rw [hremove]
  simp only [clearQueueForAdmin, hq]
  exact ⟨retainOtherBranches_lookup h hk, fun _ => rfl, rfl⟩

lemma popValidatedFront_kept (hc : c.target = some key)
    (h : popValidatedFront s key full q = (s', .error r)) : Kept s c (s', r) := by
  unfold popValidatedFront at h
  split at h
  · cases h
    exact ⟨by rintro ⟨⟩, fun _ _ _ _ => ⟨key, hc, rfl⟩, by rintro _ _ _ ⟨⟩⟩
  split at h
  · split at h <;> cases h
    exact ⟨fun _ => .refl, by rintro _ _ _ ⟨⟩, by rintro _ _ _ ⟨⟩⟩
  · rename_i hqueue
    cases h
    exact ⟨fun _ => .refl, by rintro _ _ _ ⟨⟩, fun _ _ _ _ => ⟨key, hc, by simp [hqueue]⟩⟩

lemma applyHead_kept (i : ℕ) (args : StagedHead) :
    Kept s (.applyHead args) (applyHead s i args) := by
  simp only [applyHead]
  split
  · exact .same rfl
  split
  · rename_i hpop
    exact popValidatedFront_kept rfl hpop
  rename_i entry hpop
  split
  · -- the front that was popped is put back
    refine ⟨fun _ => ?_, by rintro _ _ _ ⟨⟩, by rintro _ _ _ ⟨⟩⟩
    rcases popValidatedFront_cases s ⟨args.ledgerId, args.branch⟩
      (formatLedgerId args.ledgerId args.branch) args.queueId with
      ⟨r, hr, h | h⟩ | ⟨front, rest, hqueue, hid, h⟩
    all_goals rw [h] at hpop; cases hpop
    exact ⟨fun _ => rfl, requeue_lookup hqueue, rfl⟩
  all_goals exact .accepted rfl rfl

/-- **One command**, from a state whose maps agree. -/
lemma apply_kept (ht : Tracked s) (h : HasBranches s.ledgers) (c : Command) (i : ℕ) :
    Kept s c (apply σ s c i) := by
  cases c with
  | purgeBranch ledgerId branch millis => exact purgeBranch_kept ht h ledgerId branch millis
  | applyHead args => exact applyHead_kept i args
  | poisonQueueEntry args =>
    simp only [apply, applyPoisonQueueEntry]
    split
    · rename_i hpop
      exact popValidatedFront_kept rfl hpop
    · exact .accepted rfl rfl
  | enqueueCommand args =>
    simp only [apply, applyEnqueueCommand]
    repeat' split
    case h_1 hanswer =>
      obtain ⟨id, -, hid⟩ := Option.bind_eq_some_iff.1 hanswer
      have hkey := idempotencyAnswer_answersKey hid
      exact .same (by cases ‹Response› <;> first | rfl | cases hkey)
    all_goals first | exact .same rfl | exact .accepted rfl rfl
  | _ =>
    -- the other handlers check first: the old state or an acceptance
    simp only [apply, advanceIndexHead, rewriteIndexHead, setIndexHead, createLedger, createBranch,
      dropBranch, resetHead, retractLedger, applyCompareAndSetRef, applyVersionedPush,
      applyPublishGraphSource, applyPublishGraphSourceIndex, applyRetractGraphSource,
      applyEvictIdempotency, applySetWorkerEligibility]
    repeat' split
    all_goals first | exact .same rfl | exact .accepted rfl rfl

/-- **A refusal keeps every reachable state**, and a marker stands where no queue does. -/
theorem refusals_keep_state (h : Reached σ s) (c : Command) (i : ℕ) : Kept s c (apply σ s c i) ∧
      ∀ key marker, s.recentlyCleared.lookup key = some marker → s.queue key = [] := by
  obtain ⟨ht, hbranches⟩ := h.invariant
  refine ⟨apply_kept ht hbranches c i, fun key marker hm => ?_⟩
  simp [queue, ht.markers key marker hm]

/-- A second entry is queued while the head stands at `t = 1`. -/
def pendingLog : List (Command × ℕ) := recreatingLog.take 3 ++
  [(.enqueueCommand ⟨"db", "main", none, ⟨1⟩, ⟨2⟩, .jsonLdInsert, 0⟩, 4)]

/-- The front is popped for a commit that is not newer than the head, and put back. -/
theorem refusals_keep_state_requeued :
    let s := stateAt .insertion pendingLog 4
    let c := .applyHead ⟨"db", "main", 1, ⟨5⟩, 1, 0, none, 0⟩
    (apply .insertion s c 5).2 = .queueDesync "db:main" 1 (.headNotMonotonic 1 1) ∧
      Kept s c (apply .insertion s c 5) := by
  refine ⟨by decide, (refusals_keep_state ?_ _ 5).1⟩
  exact ((((Reached.new.apply _ _).apply _ _).apply _ _).apply _ _)

/-- Only the named branch's queue is looked at: another one may still hold the id. -/
theorem violated_while_queued : (apply .insertion (stateAt .insertion recreatingLog 2)
      (.poisonQueueEntry ⟨"db", "dev", 0, .workerPanic "", 0⟩) 3).2 = .queueDesync "db:dev" 0
        (.invariantViolated "queue missing or empty without recently_cleared marker") ∧
      ∃ entry ∈ (stateAt .insertion recreatingLog 2).queue ⟨"db", "main"⟩, entry.queueId = 0 := by
  decide

end Fluree.NameService
