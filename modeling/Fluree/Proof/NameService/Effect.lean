import Fluree.NameService.Queue

/-!
# What one command can do

`Effect s c i s' r` lists everything a command can do to the state, with the guard it passed
and the answer it gave, and `apply_effect` says that `apply` does nothing else. Invariants are
shown against this list and not against the code of the commands.

`unchanged` stands for every refusal and every answer that only reads. The other cases go from
the registration of branches over the administrative commands to the queue and the cache.
-/

namespace Fluree.NameService

open Lib List KeyedMap NameServiceState

/-- The answers of commands that changed a branch, its queue or the cache. -/
def Response.acts : Response → Bool
  | .indexAdvanced .. | .refCasUpdated | .created _ | .branchCreated .. | .branchDropped ..
  | .headReset .. | .retracted .. | .purged .. | .enqueued .. | .headApplied .. | .poisoned ..
  | .evictionApplied .. => true
  | _ => false

/-- The queues and markers after an administrative clear of one branch. -/
structure Cleared (s : NameServiceState) (key : RefKey) (Q : KeyedMap RefKey (List QueueEntry))
    (M : KeyedMap RefKey ClearMarker) : Prop where
  queues : ∀ k, Q.lookup k = if k = key then none else s.queues.lookup k
  markers : ∀ k, k ≠ key → M.lookup k = s.recentlyCleared.lookup k

def envelopes (s : NameServiceState) (key : RefKey) : List (String × ContentId) :=
  (s.queue key).map fun entry => (key.ledgerId, entry.requestCid)

/-- The refs after a branch is removed and its parent, if it has one, counts one child less. -/
inductive WithoutBranch (refs : KeyedMap RefKey RefEntry) (key : RefKey) :
    KeyedMap RefKey RefEntry → Prop
  | root (h : (refs.lookup key).bind (·.sourceBranch) = none) : WithoutBranch refs key (refs.erase key)
  | orphan {parent : String} (h : (refs.lookup key).bind (·.sourceBranch) = some parent)
      (hp : (refs.erase key).lookup ⟨key.ledgerName, parent⟩ = none) :
      WithoutBranch refs key (refs.erase key)
  | child {parent : String} {entry : RefEntry}
      (h : (refs.lookup key).bind (·.sourceBranch) = some parent)
      (hp : (refs.erase key).lookup ⟨key.ledgerName, parent⟩ = some entry) :
      WithoutBranch refs key ((refs.erase key).insert ⟨key.ledgerName, parent⟩
        { entry with branches := entry.branches - 1 })

/-- The queues after the front of a branch's queue is consumed. -/
def Popped (s : NameServiceState) (key : RefKey) (rest : List QueueEntry)
    (Q : KeyedMap RefKey (List QueueEntry)) : Prop :=
  ∀ k, Q.lookup k = if k = key then (if rest = [] then none else some rest) else s.queues.lookup k

/-- The cache after an entry is consumed, and the envelope released at once. -/
inductive Recorded (m : KeyedMap IdempotencyCacheKey ApplyOutcome) (entry : QueueEntry) :
    KeyedMap IdempotencyCacheKey ApplyOutcome → Option ContentId → Prop
  | keyed {key : IdempotencyCacheKey} {outcome : ApplyOutcome} (h : entry.idempotency = some key)
      (hcid : outcome.requestCid = entry.requestCid) : Recorded m entry (m.insert key outcome) none
  | keyless (h : entry.idempotency = none) : Recorded m entry m (some entry.requestCid)

/-- The refs after `ApplyHead`: a republished head leaves them, a newer commit advances them. -/
inductive Advanced (s : NameServiceState) (i : ℕ) (args : StagedHead) :
    KeyedMap RefKey RefEntry → Prop
  | noop {r : RefEntry} (h : s.refs.lookup ⟨args.ledgerId, args.branch⟩ = some r)
      (ht : r.t = args.commitT) (hhead : r.head = args.commitId) : Advanced s i args s.refs
  | advance (h : ∀ r, s.refs.lookup ⟨args.ledgerId, args.branch⟩ = some r → r.t < args.commitT) :
      Advanced s i args (advanceHead s i args).refs

def Unregisters (s : NameServiceState) (key : RefKey) (L : KeyedMap String LedgerRecord) : Prop :=
  ∀ k, branchRegistered L k = (s.isKnown k && decide (k ≠ key))

def Registers (s : NameServiceState) (key : RefKey) (L : KeyedMap String LedgerRecord) : Prop :=
  ∀ k, branchRegistered L k = (s.isKnown k || decide (k = key))

/-- The branch that an id of a status or a configuration names. -/
def namedBranch (ledgerId : String) : Option RefKey :=
  (splitLedgerId ledgerId).toOption.map fun p => ⟨p.1, p.2⟩

def Command.target : Command → Option RefKey
  | .advanceIndexHead args | .rewriteIndexHead args => some ⟨args.ledgerId, args.branch⟩
  | .createLedger args => some ⟨args.ledgerId, args.branch⟩
  | .createBranch args => some ⟨args.ledgerId, args.branch⟩
  | .dropBranch ledgerId branch _ | .resetHead ledgerId branch _ _
  | .retractLedger ledgerId branch _ | .purgeBranch ledgerId branch _ => some ⟨ledgerId, branch⟩
  | .compareAndSetRef args => some ⟨args.ledgerId, args.branch⟩
  | .pushStatus ledgerId _ _ => namedBranch ledgerId
  | .pushConfig args => namedBranch args.ledgerId
  | .enqueueCommand args => some ⟨args.ledgerId, args.branch⟩
  | .applyHead args => some ⟨args.ledgerId, args.branch⟩
  | .poisonQueueEntry args => some ⟨args.ledgerId, args.branch⟩
  | _ => none

def Command.Removes (c : Command) (key : RefKey) : Prop :=
  (∃ millis, c = .dropBranch key.ledgerName key.branch millis) ∨
    ∃ millis, c = .purgeBranch key.ledgerName key.branch millis

def Command.SetsIndex (c : Command) (key : RefKey) (index : Option IndexState) : Prop :=
  (∃ args : NewIndexHead, (c = .advanceIndexHead args ∨ c = .rewriteIndexHead args) ∧
      key = ⟨args.ledgerId, args.branch⟩ ∧ index = some ⟨args.newIndexHead, args.t⟩) ∨
    ∃ args : RefCas, c = .compareAndSetRef args ∧ args.kind = .indexHead ∧
      key = ⟨args.ledgerId, args.branch⟩ ∧ index = args.new.id.map fun head => ⟨head, args.new.t⟩

variable {c : Command} {s : NameServiceState}

lemma Command.Removes.target (h : c.Removes key) : c.target = some key := by
  rcases h with ⟨millis, rfl⟩ | ⟨millis, rfl⟩ <;> rfl

lemma Command.SetsIndex.target (h : c.SetsIndex key index) : c.target = some key := by
  rcases h with ⟨args, rfl | rfl, rfl, -⟩ | ⟨args, rfl, -, rfl, -⟩ <;> rfl

/-- **Everything a command can do.** -/
inductive Effect (s : NameServiceState) : Command → ℕ → NameServiceState → Response → Prop
  | unchanged {c i Q r}
      (hQ : ∀ k, Q.lookup k = s.queues.lookup k) (hr : r.acts = false) :
      Effect s c i { s with queues := Q } r
  | created {args i L}
      (hnew : s.isKnown ⟨args.ledgerId, args.branch⟩ = false)
      (hL : Registers s ⟨args.ledgerId, args.branch⟩ L) :
      Effect s (.createLedger args) i { s with ledgers := L }
        (.created (formatLedgerId args.ledgerId args.branch))
  | branchCreated {args i L source head t}
      (hnew : s.isKnown ⟨args.ledgerId, args.branch⟩ = false)
      (hL : Registers s ⟨args.ledgerId, args.branch⟩ L)
      (hsource : s.refs.lookup ⟨args.ledgerId, args.sourceBranch⟩ = some source) :
      Effect s (.createBranch args) i
        { s with
          ledgers := L
          refs := (s.refs.insert ⟨args.ledgerId, args.sourceBranch⟩
              { source with branches := min (source.branches + 1) U32_MAX }).insert
            ⟨args.ledgerId, args.branch⟩
            ⟨head, t, args.appliedAtMillis, i, none, some args.sourceBranch, 0⟩ }
        (.branchCreated (formatLedgerId args.ledgerId args.branch) head t)
  | removed {c i key R L Q M r} (hc : c.Removes key)
      (hchildren : ∀ e, s.refs.lookup key = some e → e.branches = 0)
      (hR : WithoutBranch s.refs key R) (hL : Unregisters s key L) (hclear : Cleared s key Q M)
      (hr : (∃ n, r = .branchDropped key.ledgerId n (envelopes s key)) ∨
        r = .purged key.ledgerId (envelopes s key) ∨
        r = .alreadyPurged key.ledgerId ∧ s.isKnown key = false) :
      Effect s c i
        { s with
          refs := R, retracted := s.retracted.erase key, ledgers := L, queues := Q,
          recentlyCleared := M } r
  | resetUnborn {ledgerId branch snapshot millis i Q M}
      (hknown : s.isKnown ⟨ledgerId, branch⟩ = true) (hret : ⟨ledgerId, branch⟩ ∉ s.retracted)
      (hhead : snapshot.commitHeadId = none) (hclear : Cleared s ⟨ledgerId, branch⟩ Q M) :
      Effect s (.resetHead ledgerId branch snapshot millis) i
        { s with refs := s.refs.erase ⟨ledgerId, branch⟩, queues := Q, recentlyCleared := M }
        (.headReset (formatLedgerId ledgerId branch) (envelopes s ⟨ledgerId, branch⟩))
  | resetTo {ledgerId branch snapshot millis i Q M head}
      (hknown : s.isKnown ⟨ledgerId, branch⟩ = true) (hret : ⟨ledgerId, branch⟩ ∉ s.retracted)
      (hhead : snapshot.commitHeadId = some head) (hclear : Cleared s ⟨ledgerId, branch⟩ Q M) :
      Effect s (.resetHead ledgerId branch snapshot millis) i
        { s with
          refs := s.refs.insert ⟨ledgerId, branch⟩
            { head := head
              t := snapshot.commitT
              lastAdvancedAtMillis := 0
              lastAdvancedIndex := 0
              index := snapshot.indexHeadId.map fun head => ⟨head, snapshot.indexT⟩
              sourceBranch := (s.refs.lookup ⟨ledgerId, branch⟩).bind (·.sourceBranch)
              branches := ((s.refs.lookup ⟨ledgerId, branch⟩).map (·.branches)).getD 0 }
          queues := Q
          recentlyCleared := M }
        (.headReset (formatLedgerId ledgerId branch) (envelopes s ⟨ledgerId, branch⟩))
  | retracted {ledgerId branch millis i Q M}
      (hknown : s.isKnown ⟨ledgerId, branch⟩ = true) (hret : ⟨ledgerId, branch⟩ ∉ s.retracted)
      (hclear : Cleared s ⟨ledgerId, branch⟩ Q M) :
      Effect s (.retractLedger ledgerId branch millis) i
        { s with
          retracted := insert ⟨ledgerId, branch⟩ s.retracted, queues := Q, recentlyCleared := M }
        (.retracted (formatLedgerId ledgerId branch) (envelopes s ⟨ledgerId, branch⟩))
  | indexSet {c i key entry index millis r} (hc : c.SetsIndex key index)
      (hentry : s.refs.lookup key = some entry) (hret : key ∉ s.retracted)
      (hahead : ∀ new, index = some new → new.t ≤ entry.t)
      (hstale : ∀ old new, entry.index = some old → index = some new → old.t ≤ new.t)
      (hr : (∃ t head, r = .indexAdvanced t head) ∨ r = .refCasUpdated) :
      Effect s c i
        { s with
          refs := s.refs.insert key
            { entry with index := index, lastAdvancedAtMillis := millis } } r
  | headSet {args i head} (hkind : args.kind = .commitHead)
      (hknown : s.isKnown ⟨args.ledgerId, args.branch⟩ = true)
      (hret : ⟨args.ledgerId, args.branch⟩ ∉ s.retracted)
      (hmono : ∀ e, s.refs.lookup ⟨args.ledgerId, args.branch⟩ = some e → e.t < args.new.t) :
      Effect s (.compareAndSetRef args) i
        { s with
          refs := s.refs.insert ⟨args.ledgerId, args.branch⟩
            { head := head
              t := args.new.t
              lastAdvancedAtMillis := args.appliedAtMillis
              lastAdvancedIndex := i
              index := (s.refs.lookup ⟨args.ledgerId, args.branch⟩).bind (·.index)
              sourceBranch := (s.refs.lookup ⟨args.ledgerId, args.branch⟩).bind (·.sourceBranch)
              branches := ((s.refs.lookup ⟨args.ledgerId, args.branch⟩).map (·.branches)).getD 0 } }
        .refCasUpdated
  | statusPushed {ledgerId expected new i key} (hnamed : namedBranch ledgerId = some key) (hknown : s.isKnown key = true) :
      Effect s (.pushStatus ledgerId expected new) i
        { s with status := s.status.insert ledgerId new } .statusUpdated
  | configPushed {args i key}
      (hnamed : namedBranch args.ledgerId = some key) (hknown : s.isKnown key = true) :
      Effect s (.pushConfig args) i { s with config := s.config.insert args.ledgerId args.new }
        .configUpdated
  | aside {c i G W r} (hr : r.acts = false) :
      Effect s c i { s with graphSources := G, workerEligibleVoters := W } r
  | enqueued {args i}
      (hknown : s.isKnown ⟨args.ledgerId, args.branch⟩ = true)
      (hret : ⟨args.ledgerId, args.branch⟩ ∉ s.retracted)
      (hfresh : ∀ key, args.idempotency = some key → s.idempotency.lookup key = none ∧
        ∀ entry ∈ s.queue ⟨args.ledgerId, args.branch⟩, entry.idempotency ≠ some key) :
      Effect s (.enqueueCommand args) i
        { s with
          recentlyCleared := s.recentlyCleared.erase ⟨args.ledgerId, args.branch⟩
          nextQueueId := (s.nextQueueId + 1) % U64_MODULUS
          queues := s.queues.insert ⟨args.ledgerId, args.branch⟩
            (s.queue ⟨args.ledgerId, args.branch⟩ ++
              [⟨s.nextQueueId, i, args.appliedAtMillis, args.idempotency, args.requestCid,
                args.bodyCid, args.bodyKind⟩]) }
        (.enqueued (formatLedgerId args.ledgerId args.branch) s.nextQueueId)
  | markerConsumed {c i key r} (hr : r.acts = false) :
      Effect s c i { s with recentlyCleared := s.recentlyCleared.erase key } r
  | headApplied {args i front rest R L Q I released} (hret : ⟨args.ledgerId, args.branch⟩ ∉ s.retracted)
      (hqueue : s.queue ⟨args.ledgerId, args.branch⟩ = front :: rest)
      (hid : front.queueId = args.queueId) (hR : Advanced s i args R)
      (hL : L = s.ledgers ∨ s.isKnown ⟨args.ledgerId, args.branch⟩ = false)
      (hQ : Popped s ⟨args.ledgerId, args.branch⟩ rest Q)
      (hI : Recorded s.idempotency front I released) :
      Effect s (.applyHead args) i
        { s with refs := R, ledgers := L, queues := Q, idempotency := I }
        (.headApplied (formatLedgerId args.ledgerId args.branch) args.commitId args.commitT released)
  | poisoned {args i front rest Q I released}
      (hqueue : s.queue ⟨args.ledgerId, args.branch⟩ = front :: rest)
      (hid : front.queueId = args.queueId)
      (hQ : Popped s ⟨args.ledgerId, args.branch⟩ rest Q)
      (hI : Recorded s.idempotency front I released) :
      Effect s (.poisonQueueEntry args) i { s with queues := Q, idempotency := I }
        (.poisoned (formatLedgerId args.ledgerId args.branch) args.queueId args.reason released)
  | evicted {cutoff markerCutoff i n} {keys : List IdempotencyCacheKey} {M I released}
      (hI : ∀ key, I.lookup key = if key ∈ keys then none else s.idempotency.lookup key)
      (hM : ∀ k m, M.lookup k = some m → s.recentlyCleared.lookup k = some m)
      (hreleased : ∀ p, p ∈ released ↔ ∃ key outcome, key ∈ keys ∧
        s.idempotency.lookup key = some outcome ∧ p = (key.ledgerId, outcome.requestCid)) :
      Effect s (.evictIdempotency cutoff markerCutoff) i
        { s with idempotency := I, evictedIdempotencyCount := n, recentlyCleared := M }
        (.evictionApplied keys.length released)

lemma Effect.same (hr : r.acts = false) : Effect s c i s r :=
  Effect.unchanged (fun _ => rfl) hr

/-- What a handler hands back is an effect of its command. -/
abbrev Does (s : NameServiceState) (c : Command) (i : ℕ) (p : NameServiceState × Response) : Prop :=
  Effect s c i p.1 p.2

variable {s : NameServiceState} {key : RefKey}

lemma branchRegistered_insert {ledgers name l k} : branchRegistered (ledgers.insert name l) k =
      if k.ledgerName = name then decide (k.branch ∈ l.branches)
      else branchRegistered ledgers k := by
  unfold branchRegistered
  rw [lookup_insert_ite]
  split <;> simp

lemma registers_insert (key : RefKey) {l : LedgerRecord}
    (hknown : ∀ b, s.isKnown ⟨key.ledgerName, b⟩ = decide (b ∈ l.branches)) : Registers s key
      (s.ledgers.insert key.ledgerName { l with branches := l.branches ++ [key.branch] }) := by
  rintro ⟨n, b⟩
  obtain ⟨kn, _⟩ := key
  rw [branchRegistered_insert]
  by_cases hn : n = kn
  · subst hn
    simp [hknown b]
  · simp [hn, isKnown]

lemma unregisters_retain :
    Unregisters s key (retainOtherBranches s.ledgers key.ledgerName key.branch).1 := by
  rintro ⟨n, b⟩
  obtain ⟨kn, kb⟩ := key
  unfold retainOtherBranches isKnown branchRegistered
  by_cases hn : n = kn
  · subst hn
    cases hl : s.ledgers.lookup n with
    | none => simp [hl]
    | some l =>
      dsimp only
      by_cases hempty : l.branches.filter (· ≠ kb) = []
      · have hb : b ∈ l.branches → b = kb := by
          rw [filter_eq_nil_iff] at hempty
          simpa using hempty b
        rw [if_pos hempty, lookup_erase_ite, if_pos rfl]
        simpa using fun h => hb h
      · rw [if_neg hempty, lookup_insert_ite, if_pos rfl]
        simp
  · cases hl : s.ledgers.lookup kn with
    | none => simp [hn]
    | some l =>
      have hlookup : ∀ c : Prop, [Decidable c] →
          (if c then s.ledgers.erase kn else s.ledgers.insert kn
            { l with branches := l.branches.filter (· ≠ kb) }).lookup n = s.ledgers.lookup n := by
        intro c _
        split
        · rw [lookup_erase_ite, if_neg hn]
        · rw [lookup_insert_ite, if_neg hn]
      simp only [hlookup]
      simp [hn]

lemma clearQueueForAdmin_spec (s : NameServiceState) (key : RefKey) (reason : ClearReason)
    (millis : ℕ) : ∃ Q M, Cleared s key Q M ∧ clearQueueForAdmin s key reason millis =
      ({ s with queues := Q, recentlyCleared := M }, envelopes s key) := by
  unfold clearQueueForAdmin envelopes queue
  cases h : s.queues.lookup key with
  | none =>
    refine ⟨s.queues, s.recentlyCleared, ⟨fun k => ?_, fun _ _ => rfl⟩, rfl⟩
    split
    · rename_i hk; rw [hk, h]
    · rfl
  | some q =>
    cases q with
    | nil => exact ⟨_, _, ⟨fun k => lookup_erase_ite _ _ _, fun _ _ => rfl⟩, rfl⟩
    | cons =>
      refine ⟨_, _, ⟨fun k => lookup_erase_ite _ _ _, fun k hk => ?_⟩, rfl⟩
      rw [lookup_insert_ite, if_neg hk]

lemma removeBranch_spec (s : NameServiceState) (key : RefKey) :
    ∃ R L, WithoutBranch s.refs key R ∧ Unregisters s key L ∧ (removeBranch s key).1 =
      { s with refs := R, retracted := s.retracted.erase key, ledgers := L } := by
  unfold removeBranch
  cases hsource : (s.refs.lookup key).bind (·.sourceBranch) with
  | none => exact ⟨_, _, .root hsource, unregisters_retain, rfl⟩
  | some parent =>
    cases hparent : (s.refs.erase key).lookup ⟨key.ledgerName, parent⟩ with
    | none =>
      refine ⟨_, _, .orphan hsource hparent, unregisters_retain, ?_⟩
      simp only [decrementChildCount, hparent]
    | some =>
      refine ⟨_, _, .child hsource hparent, unregisters_retain, ?_⟩
      simp only [decrementChildCount, hparent]

lemma createLedger_effect (args : NewLedger) :
    Does s (.createLedger args) i (createLedger s i args) := by
  unfold createLedger
  dsimp only
  set ledger := (s.ledgers.lookup args.ledgerId).getD ⟨args.createdAtMillis, i, []⟩ with hledger
  have hknown : ∀ b, s.isKnown ⟨args.ledgerId, b⟩ = decide (b ∈ ledger.branches) := by
    intro b
    unfold isKnown branchRegistered
    cases hl : s.ledgers.lookup args.ledgerId <;> simp [hledger, hl]
  split
  · exact .same rfl
  rename_i hb
  refine .created (by simpa [hknown] using hb) ?_
  exact registers_insert ⟨args.ledgerId, args.branch⟩ hknown

lemma createBranch_effect (args : NewBranch) :
    Does s (.createBranch args) i (createBranch s i args) := by
  unfold createBranch
  cases hl : s.ledgers.lookup args.ledgerId with
  | none => exact .same rfl
  | some ledger =>
    have hknown : ∀ b, s.isKnown ⟨args.ledgerId, b⟩ = decide (b ∈ ledger.branches) := by
      intro b
      simp [isKnown, branchRegistered, hl]
    dsimp only
    split
    · exact .same rfl
    rename_i hb
    cases hsource : s.refs.lookup ⟨args.ledgerId, args.sourceBranch⟩ with
    | none => exact .same rfl
    | some =>
      refine .branchCreated (by simpa [hknown] using hb) ?_ hsource
      exact registers_insert ⟨args.ledgerId, args.branch⟩ hknown

lemma children_eq_zero (h : ¬ 0 < ((s.refs.lookup key).map (·.branches)).getD 0) :
    ∀ e, s.refs.lookup key = some e → e.branches = 0 := by
  intro e he
  simpa [he] using h

lemma clear_removeBranch (s : NameServiceState) (key : RefKey) (reason : ClearReason)
    (millis : ℕ) : ∃ R L Q M, WithoutBranch s.refs key R ∧ Unregisters s key L ∧
      Cleared s key Q M ∧ clearQueueForAdmin (removeBranch s key).1 key reason millis =
        ({ s with
            refs := R, retracted := s.retracted.erase key, ledgers := L, queues := Q,
            recentlyCleared := M }, envelopes s key) := by
  obtain ⟨R, L, hR, hL, hremove⟩ := removeBranch_spec s key
  obtain ⟨Q, M, hclear, hspec⟩ := clearQueueForAdmin_spec (removeBranch s key).1 key reason millis
  rw [hremove] at hclear hspec
  exact ⟨R, L, Q, M, hR, hL, ⟨hclear.queues, hclear.markers⟩, by rw [hremove, hspec]; rfl⟩

lemma dropBranch_effect (ledgerId branch : String) (millis : ℕ) :
    Does s (.dropBranch ledgerId branch millis) i (dropBranch s ledgerId branch millis) := by
  unfold dropBranch
  dsimp only
  split
  · exact .same rfl
  split
  · exact .same rfl
  rename_i hchildren
  obtain ⟨R, L, Q, M, hR, hL, hclear, hspec⟩ :=
    clear_removeBranch s ⟨ledgerId, branch⟩ .branchDropped millis
  rw [hspec]
  exact .removed (.inl ⟨millis, rfl⟩) (children_eq_zero hchildren) hR hL hclear
    (.inl ⟨_, rfl⟩)

lemma retainOtherBranches_snd (s : NameServiceState) (key : RefKey) :
    (retainOtherBranches s.ledgers key.ledgerName key.branch).2 = s.isKnown key := by
  unfold retainOtherBranches isKnown branchRegistered
  cases hl : s.ledgers.lookup key.ledgerName with
  | none => rfl
  | some l =>
    have := length_filter_lt_length_iff_exists (p := fun b => decide (b ≠ key.branch))
      (l := l.branches)
    simp only [Option.any_some, decide_eq_decide]
    rw [this]
    simp

lemma purgeBranch_effect (ledgerId branch : String) (millis : ℕ) :
    Does s (.purgeBranch ledgerId branch millis) i (purgeBranch s ledgerId branch millis) := by
  unfold purgeBranch
  dsimp only
  split
  · exact .same rfl
  rename_i hchildren
  obtain ⟨R, L, Q, M, hR, hL, hclear, hspec⟩ :=
    clear_removeBranch s ⟨ledgerId, branch⟩ .branchPurged millis
  rw [hspec]
  split
  · exact .removed (.inr ⟨millis, rfl⟩) (children_eq_zero hchildren) hR hL hclear
      (.inr (.inl rfl))
  · rename_i hnothing
    have hsnd := retainOtherBranches_snd s ⟨ledgerId, branch⟩
    have hunknown : s.isKnown ⟨ledgerId, branch⟩ = false := by
      rw [← hsnd]
      simp only [not_or, Bool.not_eq_true] at hnothing
      exact hnothing.2.2
    exact .removed (.inr ⟨millis, rfl⟩) (children_eq_zero hchildren) hR hL hclear
      (.inr (.inr ⟨rfl, hunknown⟩))

lemma resetHead_effect (ledgerId branch : String) (snapshot : ResetHeadSnapshot) (millis : ℕ) :
    Does s (.resetHead ledgerId branch snapshot millis) i
      (resetHead s ledgerId branch snapshot millis) := by
  unfold resetHead
  dsimp only
  split
  · exact .same rfl
  rename_i hknown
  split
  · exact .same rfl
  rename_i hret
  have hknown' : s.isKnown ⟨ledgerId, branch⟩ = true := by simpa using hknown
  cases hhead : snapshot.commitHeadId with
  | none =>
    obtain ⟨Q, M, hclear, hspec⟩ := clearQueueForAdmin_spec
      { s with refs := s.refs.erase ⟨ledgerId, branch⟩ } ⟨ledgerId, branch⟩ .branchHeadReset millis
    rw [hspec]
    exact .resetUnborn hknown' hret hhead ⟨hclear.queues, hclear.markers⟩
  | some head =>
    dsimp only
    generalize hrefs : s.refs.insert ⟨ledgerId, branch⟩ _ = refs
    obtain ⟨Q, M, hclear, hspec⟩ := clearQueueForAdmin_spec { s with refs := refs }
      ⟨ledgerId, branch⟩ .branchHeadReset millis
    rw [hspec, ← hrefs]
    exact .resetTo hknown' hret hhead ⟨hclear.queues, hclear.markers⟩

lemma retractLedger_effect (ledgerId branch : String) (millis : ℕ) :
    Does s (.retractLedger ledgerId branch millis) i (retractLedger s ledgerId branch millis) := by
  unfold retractLedger
  dsimp only
  split
  · exact .same rfl
  rename_i hknown
  split
  · rename_i hret
    obtain ⟨Q, M, hclear, hspec⟩ := clearQueueForAdmin_spec
      { s with retracted := insert ⟨ledgerId, branch⟩ s.retracted } ⟨ledgerId, branch⟩
      .branchRetracted millis
    rw [hspec]
    exact .retracted (by simpa using hknown) hret ⟨hclear.queues, hclear.markers⟩
  · exact .same rfl

lemma setIndexHead_effect (hc : c = .advanceIndexHead args ∨ c = .rewriteIndexHead args)
    (hstale : ∀ old new, isStale old new = false → old ≤ new) :
    Does s c i (setIndexHead s args isStale) := by
  unfold setIndexHead
  dsimp only
  split
  · exact .same rfl
  split
  · exact .same rfl
  rename_i hret
  cases hentry : s.refs.lookup ⟨args.ledgerId, args.branch⟩ with
  | none => exact .same rfl
  | some entry =>
    dsimp only
    cases hfilter : entry.index.filter (fun existing => isStale existing.t args.t) with
    | some => exact .same rfl
    | none =>
      dsimp only
      split
      · exact .same rfl
      rename_i hahead
      refine .indexSet (.inl ⟨args, hc, rfl, rfl⟩) hentry hret ?_ ?_ (.inl ⟨_, _, rfl⟩)
      · rintro new ⟨rfl⟩
        exact not_lt.1 hahead
      · rintro old new hold ⟨rfl⟩
        rw [hold] at hfilter
        exact hstale _ _ (by simpa using hfilter)

lemma casMonotonic_index (hentry : s.refs.lookup key = some entry)
    (hcurrent : currentRefValue s key .indexHead = some current)
    (hmono : casMonotonic .indexHead current.t newT = true) :
    ∀ old, entry.index = some old → old.t ≤ newT := by
  intro old hold
  unfold currentRefValue at hcurrent
  split at hcurrent
  · cases hcurrent
  simp only [hentry, Option.bind_some, hold, Option.map_some, Option.getD_some] at hcurrent
  cases hcurrent
  simpa [casMonotonic] using hmono

lemma casMonotonic_commit (hcurrent : currentRefValue s key .commitHead = some current)
    (hmono : casMonotonic .commitHead current.t newT = true) :
    s.isKnown key = true ∧ ∀ e, s.refs.lookup key = some e → e.t < newT := by
  unfold currentRefValue at hcurrent
  split at hcurrent
  · cases hcurrent
  rename_i hknown
  refine ⟨by simpa using hknown, fun e he => ?_⟩
  simp only [he, Option.map_some, Option.getD_some] at hcurrent
  cases hcurrent
  simpa [casMonotonic] using hmono

lemma applyCompareAndSetRef_effect (args : RefCas) :
    Does s (.compareAndSetRef args) i (applyCompareAndSetRef s i args) := by
  unfold applyCompareAndSetRef
  dsimp only
  cases hcurrent : currentRefValue s ⟨args.ledgerId, args.branch⟩ args.kind with
  | none => exact .same rfl
  | some current =>
    dsimp only
    split
    · exact .same rfl
    rename_i hret
    split
    · exact .same rfl
    split
    · exact .same rfl
    rename_i hmono
    rw [not_not] at hmono
    cases hkind : args.kind with
    | commitHead =>
      rw [hkind] at hcurrent hmono
      obtain ⟨hknown, hlt⟩ := casMonotonic_commit hcurrent hmono
      cases hid : args.new.id with
      | none => exact .same rfl
      | some => exact .headSet hkind hknown hret hlt
    | indexHead =>
      rw [hkind] at hcurrent hmono
      cases hentry : s.refs.lookup ⟨args.ledgerId, args.branch⟩ with
      | none => exact .same rfl
      | some entry =>
        dsimp only
        split
        · exact .same rfl
        rename_i hahead
        have hle := casMonotonic_index hentry hcurrent hmono
        refine .indexSet (.inr ⟨args, rfl, hkind, rfl, rfl⟩) hentry hret ?_ ?_ (.inr rfl)
        · intro new hnew
          obtain ⟨head, -, rfl⟩ := Option.map_eq_some_iff.1 hnew
          exact not_lt.1 hahead
        · intro old new hold hnew
          obtain ⟨head, -, rfl⟩ := Option.map_eq_some_iff.1 hnew
          exact hle old hold

lemma applyVersionedPush_cases {α : Type} [DecidableEq α] (T : VersionedValue α)
    (values : KeyedMap String α) (ledgerId : String) (expected : Option α) (new : α) :
    (∃ actual, applyVersionedPush T s values ledgerId expected new = (values, T.conflict actual)) ∨
      ∃ key : RefKey, namedBranch ledgerId = some key ∧ s.isKnown key = true ∧
        applyVersionedPush T s values ledgerId expected new =
          (values.insert ledgerId new, T.updated) := by
  unfold applyVersionedPush namedBranch
  cases hsplit : splitLedgerId ledgerId with
  | error => exact .inl ⟨none, rfl⟩
  | ok p =>
    obtain ⟨name, branch⟩ := p
    dsimp only
    split
    · exact .inl ⟨none, rfl⟩
    rename_i hknown
    split
    · exact .inl ⟨_, rfl⟩
    split
    · exact .inl ⟨_, rfl⟩
    · exact .inr ⟨⟨name, branch⟩, rfl, by simpa using hknown, rfl⟩

def Response.answersKey : Response → Bool
  | .inFlight .. | .idempotencyHit _ | .idempotencyFailed _ | .bodyHashMismatch => true
  | _ => false

section Answer

variable {id : IdempotencyCacheKey} {bodyCid : ContentId} {r : Response}

lemma idempotencyAnswer_answersKey (h : idempotencyAnswer s key id bodyCid = some r) :
    r.answersKey = true := by
  unfold idempotencyAnswer at h
  cases hcached : s.idempotency.lookup id with
  | some outcome =>
    rw [hcached] at h
    dsimp only at h
    split at h
    · cases h; rfl
    · cases outcome <;> cases h <;> rfl
  | none =>
    rw [hcached] at h
    obtain ⟨_, -, rfl⟩ := Option.map_eq_some_iff.1 h
    split <;> rfl

lemma idempotencyAnswer_acts (h : idempotencyAnswer s key id bodyCid = some r) :
    r.acts = false := by
  have hkey := idempotencyAnswer_answersKey h
  cases r <;> first | rfl | cases hkey

end Answer

lemma idempotencyAnswer_eq_none_iff {id bodyCid} : idempotencyAnswer s key id bodyCid = none ↔
      s.idempotency.lookup id = none ∧ ∀ entry ∈ s.queue key, entry.idempotency ≠ some id := by
  unfold idempotencyAnswer
  cases hcached : s.idempotency.lookup id with
  | some outcome =>
    dsimp only
    cases outcome <;> split <;> simp
  | none => simp [List.find?_eq_none]

lemma applyEnqueueCommand_effect (args : QueueSubmission) :
    Does s (.enqueueCommand args) i (applyEnqueueCommand s i args) := by
  unfold applyEnqueueCommand
  dsimp only
  split
  · exact .same rfl
  rename_i hknown
  split
  · exact .same rfl
  rename_i hret
  cases hanswer : args.idempotency.bind
      (fun key => idempotencyAnswer s ⟨args.ledgerId, args.branch⟩ key args.bodyCid) with
  | some answer =>
    obtain ⟨id, -, hid⟩ := Option.bind_eq_some_iff.1 hanswer
    exact .same (idempotencyAnswer_acts hid)
  | none =>
    dsimp only
    split
    · exact .same rfl
    split
    · exact .same rfl
    refine .enqueued (by simpa using hknown) hret fun id hid => ?_
    rw [hid] at hanswer
    exact idempotencyAnswer_eq_none_iff.1 hanswer

/-- Claiming the front: a refusal that at most consumes a marker, or the front itself. -/
lemma popValidatedFront_cases (s : NameServiceState) (key : RefKey) (full : String) (id : ℕ) :
    (∃ r, r.acts = false ∧ (popValidatedFront s key full id = (s, .error r) ∨
        popValidatedFront s key full id =
          ({ s with recentlyCleared := s.recentlyCleared.erase key }, .error r))) ∨
      ∃ front rest, s.queue key = front :: rest ∧ front.queueId = id ∧
        popValidatedFront s key full id =
          ({ s with queues := s.queues.insert key rest }, .ok front) := by
  unfold popValidatedFront
  cases hmarker : s.recentlyCleared.lookup key with
  | some => exact .inl ⟨_, rfl, .inr rfl⟩
  | none =>
    cases hqueue : s.queue key with
    | nil => exact .inl ⟨_, rfl, .inl rfl⟩
    | cons front rest =>
      dsimp only
      split
      · rename_i hid
        exact .inr ⟨front, rest, rfl, hid, rfl⟩
      · exact .inl ⟨_, rfl, .inl rfl⟩

/-- The popped front goes back to where it was. -/
lemma requeue_lookup (hqueue : s.queue key = front :: rest) (k : RefKey) :
    ((s.queues.insert key rest).insert key
      (front :: { s with queues := s.queues.insert key rest }.queue key)).lookup k =
      s.queues.lookup k := by
  have hrest : { s with queues := s.queues.insert key rest }.queue key = rest := by
    simp [queue]
  rw [hrest, lookup_insert_ite, lookup_insert_ite]
  by_cases hk : k = key
  · subst hk
    unfold queue at hqueue
    cases hq : s.queues.lookup k <;> simp_all
  · simp [hk]

lemma popped_dropQueueIfEmpty (s : NameServiceState) (key : RefKey) (rest : List QueueEntry) :
    ∃ Q, Popped s key rest Q ∧ dropQueueIfEmpty { s with queues := s.queues.insert key rest } key =
      { s with queues := Q } := by
  unfold dropQueueIfEmpty
  rw [lookup_insert_ite, if_pos rfl]
  by_cases hrest : rest = []
  · subst hrest
    refine ⟨(s.queues.insert key []).erase key, fun k => ?_, by rw [if_pos rfl]⟩
    rw [lookup_erase_ite, lookup_insert_ite]
    by_cases hk : k = key <;> simp [hk]
  · refine ⟨s.queues.insert key rest, fun k => ?_, by rw [if_neg (by simpa using hrest)]⟩
    rw [lookup_insert_ite, if_neg hrest]

lemma recordOutcome_spec (s : NameServiceState) (entry : QueueEntry) (outcome : ApplyOutcome)
    (hcid : outcome.requestCid = entry.requestCid) : ∃ I released,
      Recorded s.idempotency entry I released ∧
        recordOutcome s entry outcome = ({ s with idempotency := I }, released) := by
  unfold recordOutcome
  cases h : entry.idempotency with
  | some => exact ⟨_, _, .keyed h hcid, rfl⟩
  | none => exact ⟨_, _, .keyless h, rfl⟩

lemma healRegistration_spec (s : NameServiceState) (ledgerId branch : String) :
    ∃ L, (L = s.ledgers ∨ s.isKnown ⟨ledgerId, branch⟩ = false) ∧
      healRegistration s ledgerId branch = { s with ledgers := L } := by
  unfold healRegistration
  cases hl : s.ledgers.lookup ledgerId with
  | none => exact ⟨s.ledgers, .inl rfl, rfl⟩
  | some ledger =>
    dsimp only
    split
    · exact ⟨s.ledgers, .inl rfl, rfl⟩
    rename_i hb
    refine ⟨_, .inr ?_, rfl⟩
    simpa [isKnown, branchRegistered, hl] using hb

lemma completeHead_effect {noop : Bool}
    (hret : ⟨args.ledgerId, args.branch⟩ ∉ s.retracted)
    (hqueue : s.queue ⟨args.ledgerId, args.branch⟩ = front :: rest)
    (hid : front.queueId = args.queueId)
    (hR : Advanced s i args (if noop then s.refs else (advanceHead s i args).refs)) :
    Does s (.applyHead args) i (completeHead
      { s with queues := s.queues.insert ⟨args.ledgerId, args.branch⟩ rest } i args front noop) := by
  obtain ⟨Q, hQ, hdrop⟩ := popped_dropQueueIfEmpty s ⟨args.ledgerId, args.branch⟩ rest
  unfold completeHead
  dsimp only
  rw [hdrop]
  have hadvance : (if noop then { s with queues := Q } else advanceHead { s with queues := Q } i args)
      = { s with
          queues := Q, refs := if noop then s.refs else (advanceHead s i args).refs } := by
    cases noop <;> rfl
  rw [hadvance]
  obtain ⟨L, hL, hheal⟩ := healRegistration_spec
    { s with queues := Q, refs := if noop then s.refs else (advanceHead s i args).refs }
    args.ledgerId args.branch
  rw [hheal]
  obtain ⟨_, _, hI, hrecord⟩ := recordOutcome_spec
    { s with
      queues := Q, refs := if noop then s.refs else (advanceHead s i args).refs, ledgers := L }
    front (.applied
      { requestCid := front.requestCid
        bodyCid := front.bodyCid
        bodyKind := front.bodyKind
        recordedAtMillis := args.appliedAtMillis
        head := args.commitId
        t := args.commitT
        recordedIndex := i
        tally := args.tally
        flakeCount := args.flakeCount }) rfl
  rw [hrecord]
  exact .headApplied hret hqueue hid hR hL hQ hI

lemma applyHead_effect (args : StagedHead) : Does s (.applyHead args) i (applyHead s i args) := by
  unfold applyHead
  dsimp only
  split
  · exact .same rfl
  rename_i hret
  rcases popValidatedFront_cases s ⟨args.ledgerId, args.branch⟩
    (formatLedgerId args.ledgerId args.branch) args.queueId with
    ⟨r, hr, hpop | hpop⟩ | ⟨front, rest, hqueue, hid, hpop⟩
  · rw [hpop]; exact .same hr
  · rw [hpop]; exact .markerConsumed hr
  rw [hpop]
  dsimp only
  cases hcheck : checkHead { s with queues := s.queues.insert ⟨args.ledgerId, args.branch⟩ rest }
      args with
  | notMonotonic currentT =>
    exact .unchanged (requeue_lookup hqueue) rfl
  | noopCompletion =>
    refine completeHead_effect hret hqueue hid ?_
    unfold checkHead at hcheck
    split at hcheck
    · cases hcheck
    rename_i r hr
    split at hcheck
    · rename_i h
      exact .noop hr h.1.symm h.2
    · split at hcheck <;> cases hcheck
  | advances =>
    refine completeHead_effect hret hqueue hid (.advance fun r hr => ?_)
    unfold checkHead at hcheck
    rw [hr] at hcheck
    dsimp only at hcheck
    split at hcheck
    · cases hcheck
    split at hcheck
    · cases hcheck
    · rename_i h
      exact not_le.1 h

lemma applyPoisonQueueEntry_effect (args : EntryPoisoning) :
    Does s (.poisonQueueEntry args) i (applyPoisonQueueEntry s i args) := by
  unfold applyPoisonQueueEntry
  dsimp only
  rcases popValidatedFront_cases s ⟨args.ledgerId, args.branch⟩
    (formatLedgerId args.ledgerId args.branch) args.queueId with
    ⟨r, hr, hpop | hpop⟩ | ⟨front, rest, hqueue, hid, hpop⟩
  · rw [hpop]; exact .same hr
  · rw [hpop]; exact .markerConsumed hr
  rw [hpop]
  dsimp only
  obtain ⟨Q, hQ, hdrop⟩ := popped_dropQueueIfEmpty s ⟨args.ledgerId, args.branch⟩ rest
  rw [hdrop]
  obtain ⟨_, _, hI, hrecord⟩ := recordOutcome_spec { s with queues := Q } front (.failed
    { requestCid := front.requestCid
      bodyCid := front.bodyCid
      reason := args.reason
      recordedIndex := i
      recordedAtMillis := args.appliedAtMillis }) rfl
  rw [hrecord]
  exact .poisoned hqueue hid hQ hI

lemma foldl_evictKey (keys : List IdempotencyCacheKey) (hnodup : keys.Nodup)
    (m : KeyedMap IdempotencyCacheKey ApplyOutcome) (acc : List (String × ContentId)) :
    (∀ key, (keys.foldl evictKey (m, acc)).1.lookup key =
        if key ∈ keys then none else m.lookup key) ∧
      ∀ p, p ∈ (keys.foldl evictKey (m, acc)).2 ↔ p ∈ acc ∨ ∃ key outcome, key ∈ keys ∧
        m.lookup key = some outcome ∧ p = (key.ledgerId, outcome.requestCid) := by
  induction keys generalizing m acc with
  | nil => simp
  | cons k keys ih =>
    obtain ⟨hk, hkeys⟩ := nodup_cons.1 hnodup
    have hstep : evictKey (m, acc) k = (m.erase k, acc ++ ((m.lookup k).map fun outcome =>
        (k.ledgerId, outcome.requestCid)).toList) := by
      unfold evictKey
      cases m.lookup k <;> simp
    rw [foldl_cons, hstep]
    obtain ⟨hlookup, hmem⟩ := ih hkeys (m.erase k) _
    constructor
    · intro key
      rw [hlookup, lookup_erase_ite]
      by_cases h₁ : key ∈ keys <;> by_cases h₂ : key = k <;> simp [h₁, h₂]
    · intro p
      rw [hmem, mem_append, or_assoc]
      refine or_congr_right ?_
      constructor
      · rintro (h | ⟨key, outcome, hkey, ho, rfl⟩)
        · obtain ⟨outcome, ho, rfl⟩ := by simpa using h
          exact ⟨k, outcome, by simp, ho, rfl⟩
        · have hne : key ≠ k := fun h => hk (h ▸ hkey)
          rw [lookup_erase_ite, if_neg hne] at ho
          exact ⟨key, outcome, by simp [hkey], ho, rfl⟩
      · rintro ⟨key, outcome, hkey, ho, rfl⟩
        rcases mem_cons.1 hkey with rfl | hkey
        · exact .inl (by simp [ho])
        · have hne : key ≠ k := fun h => hk (h ▸ hkey)
          exact .inr ⟨key, outcome, hkey, by rw [lookup_erase_ite, if_neg hne, ho], rfl⟩

variable (σ : SortUnstable)

lemma expiredKeys_nodup (s : NameServiceState) (cutoff : ℕ) : (expiredKeys σ s cutoff).Nodup := by
  refine ((take_sublist _ _).map _).nodup ?_
  rw [((σ.perm cmpExpired _).map _).nodup_iff]
  rw [map_filterMap]
  have hkeys : (s.idempotency.entries.map Sigma.fst).Nodup := s.idempotency.nodupKeys
  refine List.Nodup.sublist ?_ hkeys
  induction s.idempotency.entries with
  | nil => simp
  | cons e l ih =>
    rw [filterMap_cons, map_cons]
    split
    · exact ih.cons _
    rename_i b hb
    have : b = e.1 := by split at hb <;> simp_all
    rw [this]
    exact ih.cons_cons _

lemma applyEvictIdempotency_effect (cutoff markerCutoff : ℕ) :
    Does s (.evictIdempotency cutoff markerCutoff) i
      (applyEvictIdempotency σ s cutoff markerCutoff) := by
  obtain ⟨hlookup, hmem⟩ := foldl_evictKey (expiredKeys σ s cutoff) (expiredKeys_nodup σ s cutoff)
    s.idempotency []
  refine .evicted hlookup (fun k m hm => ?_) (fun p => by simpa using hmem p)
  rw [lookup_retain] at hm
  exact (Option.filter_eq_some_iff.1 hm).1

/-- **`apply` does nothing that is not on the list.** -/
lemma apply_effect (s : NameServiceState) (c : Command) (i : ℕ) :
    Effect s c i (apply σ s c i).1 (apply σ s c i).2 := by
  cases c with
  | advanceIndexHead => exact setIndexHead_effect (.inl rfl) fun old new h => by simp at h; omega
  | rewriteIndexHead => exact setIndexHead_effect (.inr rfl) fun old new h => by simpa using h
  | createLedger args => exact createLedger_effect args
  | createBranch args => exact createBranch_effect args
  | dropBranch ledgerId branch millis => exact dropBranch_effect ledgerId branch millis
  | resetHead ledgerId branch snapshot millis =>
    exact resetHead_effect ledgerId branch snapshot millis
  | retractLedger ledgerId branch millis => exact retractLedger_effect ledgerId branch millis
  | purgeBranch ledgerId branch millis => exact purgeBranch_effect ledgerId branch millis
  | releaseContent => exact .same rfl
  | compareAndSetRef args => exact applyCompareAndSetRef_effect args
  | pushStatus ledgerId expected new =>
    unfold apply
    dsimp only
    rcases applyVersionedPush_cases StoredStatus.versioned s.status ledgerId expected new with
      ⟨actual, h⟩ | ⟨key, hnamed, hknown, h⟩
    · rw [h]; exact .same rfl
    · rw [h]; exact .statusPushed hnamed hknown
  | pushConfig args =>
    unfold apply
    dsimp only
    rcases applyVersionedPush_cases StoredConfig.versioned s.config args.ledgerId args.expected
      args.new with ⟨actual, h⟩ | ⟨key, hnamed, hknown, h⟩
    · rw [h]; exact .same rfl
    · rw [h]; exact .configPushed hnamed hknown
  | publishGraphSource => exact .aside rfl
  | publishGraphSourceIndex =>
    unfold apply applyPublishGraphSourceIndex
    dsimp only
    split
    · exact .same rfl
    split
    · exact .same rfl
    · exact .aside rfl
  | retractGraphSource =>
    unfold apply applyRetractGraphSource
    dsimp only
    split
    · split
      · exact .same rfl
      · exact .aside rfl
    · exact .same rfl
  | enqueueCommand args => exact applyEnqueueCommand_effect args
  | applyHead args => exact applyHead_effect args
  | poisonQueueEntry args => exact applyPoisonQueueEntry_effect args
  | evictIdempotency cutoff markerCutoff => exact applyEvictIdempotency_effect σ cutoff markerCutoff
  | setWorkerEligibility =>
    unfold apply applySetWorkerEligibility
    dsimp only
    split
    · exact .same rfl
    · split <;> exact .aside rfl

end Fluree.NameService
