import Fluree.Proof.NameService.Tracked

/-!
# Re-created branches

The removal commands take away the head, the retraction, the registration and the queue of a
branch, but not its status, its configuration and its cached outcomes. As long as none of these
is there when a branch is removed, every key of the state names a registered branch, and a
branch that is created again answers like one that was never used.
-/

namespace Fluree.NameService

open Lib KeyedMap Option List NameServiceState Finset SortUnstable

/-- No status, no configuration and no cached outcome names the branch. -/
structure NoRecords (s : NameServiceState) (key : RefKey) : Prop where
  status : ∀ id, namedBranch id = some key → s.status.lookup id = none
  config : ∀ id, namedBranch id = some key → s.config.lookup id = none
  cached : ∀ id, id.ledgerId = key.ledgerId → s.idempotency.lookup id = none

def RemovesClean (s : NameServiceState) : Command → Prop
  | .dropBranch ledgerId branch _ => NoRecords s ⟨ledgerId, branch⟩
  | .purgeBranch ledgerId branch _ => NoRecords s ⟨ledgerId, branch⟩
  | _ => True

/-- Every key of the state names a registered branch, or marks a branch whose queue was
cleared. -/
structure NoResidue (s : NameServiceState) : Prop where
  refs : ∀ k e, s.refs.lookup k = some e → s.isKnown k = true
  retracted : ∀ k ∈ s.retracted, s.isKnown k = true
  queues : ∀ k q, s.queues.lookup k = some q → s.isKnown k = true
  markers : ∀ k m, s.recentlyCleared.lookup k = some m → s.queues.lookup k = none
  status : ∀ id v, s.status.lookup id = some v → ∃ k, namedBranch id = some k ∧ s.isKnown k = true
  config : ∀ id v, s.config.lookup id = some v → ∃ k, namedBranch id = some k ∧ s.isKnown k = true
  cached : ∀ id o, s.idempotency.lookup id = some o →
    ∃ k : RefKey, k.ledgerId = id.ledgerId ∧ s.isKnown k = true

variable {s s' : NameServiceState} {c : Command} {i : ℕ} {r : Response} {key : RefKey}

lemma noResidue_new : NoResidue new where
  refs := tracked_new.refs
  retracted := tracked_new.retracted
  queues := fun k q h => (tracked_new.queues k q h).1
  markers := tracked_new.markers
  status := fun id v h => by simp [new] at h
  config := fun id v h => by simp [new] at h
  cached := fun id o h => by simp [new] at h

lemma RemovesClean.noRecords (h : RemovesClean s c) (hc : c.Removes key) : NoRecords s key := by
  rcases hc with ⟨millis, rfl⟩ | ⟨millis, rfl⟩ <;> exact h

section Points

/-- Every key of a map names a branch that `L` registers. -/
def Points {κ β : Type} [DecidableEq κ] (names : κ → RefKey → Prop) (m : KeyedMap κ β)
    (L : KeyedMap String LedgerRecord) : Prop :=
  ∀ id v, m.lookup id = some v → ∃ k, names id k ∧ branchRegistered L k = true

variable {κ β : Type} [DecidableEq κ] {names : κ → RefKey → Prop} {m : KeyedMap κ β} {id : κ}
  (h : Points names m s.ledgers)
include h

lemma Points.mono (hL : ∀ k, s.isKnown k = true → branchRegistered L k = true) :
    Points names m L := by
  intro id v hv
  obtain ⟨k, hk, hknown⟩ := h id v hv
  exact ⟨k, hk, hL k hknown⟩

lemma Points.unregister (hL : Unregisters s key L)
    (hclean : ∀ id, names id key → m.lookup id = none) : Points names m L := by
  intro id v hv
  obtain ⟨k, hk, hknown⟩ := h id v hv
  have hne : k ≠ key := by
    rintro rfl
    rw [hclean id hk] at hv
    cases hv
  exact ⟨k, hk, by rw [hL k, isKnown, hknown, decide_eq_true hne]; rfl⟩

lemma Points.insert (hid : names id key)
    (hknown : s.isKnown key = true) : Points names (m.insert id v) s.ledgers := by
  intro id' v' hv
  rcases lookup_insert_some hv with ⟨rfl, -⟩ | ⟨-, hv⟩
  · exact ⟨key, hid, hknown⟩
  · exact h id' v' hv

lemma Points.lookup_eq_none (hnew : s.isKnown key = false)
    (hid : ∀ k, names id k → s.isKnown k = true → k = key) : m.lookup id = none := by
  rw [eq_none_iff_forall_ne_some]
  intro v hv
  obtain ⟨k, hk, hknown⟩ := h id v hv
  rw [← hid k hk hknown] at hnew
  exact Bool.noConfusion (hknown.symm.trans hnew)

end Points

/-- The three maps of records point to branches that `L` registers. -/
def RecordsPoint (s : NameServiceState) (L : KeyedMap String LedgerRecord) : Prop :=
  Points (namedBranch · = some ·) s.status L ∧ Points (namedBranch · = some ·) s.config L ∧
    Points (fun id (k : RefKey) => k.ledgerId = id.ledgerId) s.idempotency L

lemma NoResidue.effect (h : NoResidue s) (ht : Tracked s) (ho : Owned s) (hc : RemovesClean s c)
    (heffect : Effect s c i s' r) : NoResidue s' := by
  have ht' := ht.effect heffect
  -- the new maps are those of `Tracked`; only the three record maps are left
  suffices hrecords : RecordsPoint s' s'.ledgers from
    ⟨ht'.refs, ht'.retracted, fun k q hq => (ht'.queues k q hq).1, ht'.markers, hrecords.1,
      hrecords.2.1, hrecords.2.2⟩
  have hsame : ∀ L, (∀ k, s.isKnown k = true → branchRegistered L k = true) → RecordsPoint s L :=
    fun L hL => ⟨.mono h.status hL, .mono h.config hL, .mono h.cached hL⟩
  have hold := hsame s.ledgers fun k hk => hk
  -- an entry that leaves the queue of a registered branch carries that branch's id
  have hpop : ∀ {key front rest I released}, s.queue key = front :: rest →
      Recorded s.idempotency front I released → ∀ id o, I.lookup id = some o →
        ∃ k : RefKey, k.ledgerId = id.ledgerId ∧ s.isKnown k = true := by
    intro key front rest I released hqueue hI id o hio
    rcases hI.lookup hio with hio | hid
    · exact h.cached id o hio
    · refine ⟨key, ?_, ht.known hqueue⟩
      exact (ho.keys key front (by rw [hqueue]; exact mem_cons_self) id hid).symm
  cases heffect with
  | created _ hL | branchCreated _ hL => exact hsame _ fun k hk => hL.mono hk
  | removed hremoves _ _ hL =>
    have hclean := hc.noRecords hremoves
    exact ⟨.unregister h.status hL hclean.status, .unregister h.config hL hclean.config,
      .unregister h.cached hL fun id hid => hclean.cached id hid.symm⟩
  | statusPushed hnamed hknown => exact ⟨.insert h.status hnamed hknown, hold.2⟩
  | configPushed hnamed hknown => exact ⟨hold.1, .insert h.config hnamed hknown, hold.2.2⟩
  | headApplied _ hqueue _ _ hL _ hI =>
    obtain rfl := ht.unhealed hqueue hL
    exact ⟨hold.1, hold.2.1, hpop hqueue hI⟩
  | poisoned hqueue _ _ hI => exact ⟨hold.1, hold.2.1, hpop hqueue hI⟩
  | @evicted _ _ _ _ _ _ _ _ hI =>
    refine ⟨hold.1, hold.2.1, fun id o hio => ?_⟩
    rw [hI id] at hio
    split at hio
    · cases hio
    · exact h.cached id o hio
  | _ => exact hold

/-- A registered branch of which nothing else is known. -/
structure Blank (s : NameServiceState) (key : RefKey) : Prop where
  known : s.isKnown key = true
  ref : s.refs.lookup key = none
  retracted : key ∉ s.retracted
  queue : s.queues.lookup key = none
  records : NoRecords s key

lemma Blank.created (h : NoResidue s) (ho : Owned s)
    (hnew : s.isKnown key = false) (hcolon : ':' ∉ key.branch.toList) (hL : Registers s key L) :
    Blank { s with ledgers := L } key where
  known := by
    change branchRegistered L key = true
    rw [hL key, decide_eq_true rfl, Bool.or_true]
  ref := by
    rw [eq_none_iff_forall_ne_some]
    intro e he
    rw [h.refs key e he] at hnew
    cases hnew
  retracted := by
    intro hret
    rw [h.retracted key hret] at hnew
    cases hnew
  queue := by
    rw [eq_none_iff_forall_ne_some]
    intro q hq
    rw [h.queues key q hq] at hnew
    cases hnew
  records := by
    refine ⟨fun id hid => ?_, fun id hid => ?_, fun id hid => ?_⟩
    · exact Points.lookup_eq_none h.status hnew fun k hk _ => Option.some.inj (hk.symm.trans hid)
    · exact Points.lookup_eq_none h.config hnew fun k hk _ => Option.some.inj (hk.symm.trans hid)
    · exact Points.lookup_eq_none h.cached hnew fun k hk hknown =>
        ledgerId_inj (ho.names k hknown) hcolon (hk.trans hid)

lemma NoRecords.recorded (h : NoRecords s key) (ht : Tracked s) (ho : Owned s)
    (hknown : s.isKnown key = true) (hne : key ≠ k)
    (hqueue : s.queue k = front :: rest) (hI : Recorded s.idempotency front I released) :
    ∀ id, id.ledgerId = key.ledgerId → I.lookup id = none := by
  intro id hid
  rw [eq_none_iff_forall_ne_some]
  intro o hio
  rcases hI.lookup hio with hio | hfront
  · rw [h.cached id hid] at hio
    cases hio
  · have hown := ho.keys k front (by rw [hqueue]; exact mem_cons_self) id hfront
    exact hne (ho.inj hknown (ht.known hqueue) (hid.symm.trans hown))

/-- **A blank branch stays blank until a command names it.** -/
lemma Blank.effect (h : Blank s key) (ht : Tracked s) (ho : Owned s) (hc : c.target ≠ some key)
    (heffect : Effect s c i s' r) : Blank s' key := by
  have hne : ∀ {k}, c.target = some k → key ≠ k := by
    rintro k hk rfl
    exact hc hk
  have hinsert : ∀ {k : RefKey} {e : RefEntry}, key ≠ k → (s.refs.insert k e).lookup key = none := by
    intro k e hk
    rw [lookup_insert_ite, if_neg hk, h.ref]
  cases heffect with
  | unchanged hQ => exact ⟨h.known, h.ref, h.retracted, (hQ key).trans h.queue, { h.records with }⟩
  | created _ hL => exact ⟨hL.mono h.known, h.ref, h.retracted, h.queue, { h.records with }⟩
  | @branchCreated args i L source head t hnew hL hsource =>
    have hk := hne rfl
    refine ⟨hL.mono h.known, ?_, h.retracted, h.queue, { h.records with }⟩
    simp only [lookup_insert_ite, if_neg hk]
    split
    · rename_i hkey; rw [← hkey, h.ref] at hsource; cases hsource
    · exact h.ref
  | @removed _ _ _ _ L _ _ _ hremoves _ hR hL hclear =>
    have hk := hne hremoves.target
    refine ⟨?_, ?_, fun hret => h.retracted (mem_of_mem_erase hret),
      hclear.lookup_eq_none fun _ => h.queue, { h.records with }⟩
    · change branchRegistered L key = true
      rw [hL key, h.known, decide_eq_true hk]
      rfl
    · obtain ⟨f, hf⟩ := hR.lookup_other hk
      rw [hf, h.ref]
      rfl
  | resetUnborn _ _ _ hclear =>
    have hk := hne rfl
    refine ⟨h.known, ?_, h.retracted, hclear.lookup_eq_none fun _ => h.queue, { h.records with }⟩
    simp only [lookup_erase_ite, if_neg hk, h.ref]
  | resetTo _ _ _ hclear =>
    exact ⟨h.known, hinsert (hne rfl), h.retracted, hclear.lookup_eq_none fun _ => h.queue,
      { h.records with }⟩
  | retracted _ _ hclear =>
    have hk := hne rfl
    refine ⟨h.known, h.ref, fun hmem => ?_, hclear.lookup_eq_none fun _ => h.queue,
      { h.records with }⟩
    rcases mem_insert.1 hmem with hmem | hmem
    · exact hk hmem
    · exact h.retracted hmem
  | indexSet hset =>
    exact ⟨h.known, hinsert (hne hset.target), h.retracted, h.queue, { h.records with }⟩
  | headSet => exact ⟨h.known, hinsert (hne rfl), h.retracted, h.queue, { h.records with }⟩
  | @statusPushed ledgerId =>
    refine { h with records := { h.records with status := fun id hid => ?_ } }
    have hid' : id ≠ ledgerId := by
      rintro rfl
      exact hc hid
    simp only [lookup_insert_ite, if_neg hid', h.records.status id hid]
  | @configPushed args =>
    refine { h with records := { h.records with config := fun id hid => ?_ } }
    have hid' : id ≠ args.ledgerId := by
      rintro rfl
      exact hc hid
    simp only [lookup_insert_ite, if_neg hid', h.records.config id hid]
  | enqueued =>
    have hk := hne rfl
    refine ⟨h.known, h.ref, h.retracted, ?_, { h.records with }⟩
    simp only [lookup_insert_ite, if_neg hk, h.queue]
  | aside | markerConsumed => exact ⟨h.known, h.ref, h.retracted, h.queue, { h.records with }⟩
  | headApplied _ hqueue _ hR hL hQ hI =>
    have hk := hne rfl
    obtain rfl := ht.unhealed hqueue hL
    refine ⟨h.known, ?_, h.retracted, (hQ key).trans (by rw [if_neg hk, h.queue]),
      ⟨h.records.status, h.records.config, h.records.recorded ht ho h.known hk hqueue hI⟩⟩
    cases hR with
    | noop => exact h.ref
    | advance => exact hinsert hk
  | poisoned hqueue _ hQ hI =>
    have hk := hne rfl
    exact ⟨h.known, h.ref, h.retracted, (hQ key).trans (by rw [if_neg hk, h.queue]),
      ⟨h.records.status, h.records.config, h.records.recorded ht ho h.known hk hqueue hI⟩⟩
  | @evicted _ _ _ _ _ _ _ _ hI =>
    refine { h with records := { h.records with cached := fun id hid => ?_ } }
    rw [hI id]
    split
    · rfl
    · exact h.records.cached id hid

/-- The state with every trace of a branch but its registration taken out: what it would be had
the name never been used. -/
def forget (s : NameServiceState) (key : RefKey) : NameServiceState :=
  { s with
    refs := s.refs.erase key
    retracted := s.retracted.erase key
    queues := s.queues.erase key
    recentlyCleared := s.recentlyCleared.erase key
    status := retain (fun id _ => namedBranch id ≠ some key) s.status
    config := retain (fun id _ => namedBranch id ≠ some key) s.config
    idempotency := retain (fun id _ => id.ledgerId ≠ key.ledgerId) s.idempotency }

lemma erase_of_lookup_none {κ β : Type} [DecidableEq κ] {m : KeyedMap κ β} {k : κ}
    (h : m.lookup k = none) : m.erase k = m :=
  AList.ext (kerase_of_notMem_keys (AList.lookup_eq_none.1 h))

lemma retain_of_lookup_none {κ β : Type} [DecidableEq κ] {m : KeyedMap κ β} {p : κ → β → Bool}
    (h : ∀ k v, m.lookup k = some v → p k v = true) : retain p m = m :=
  AList.ext (filter_eq_self.2 fun e he => h e.1 e.2 (lookup_eq_some_iff.2 he))

lemma Blank.forget_eq (h : Blank s key) :
    forget s key = { s with recentlyCleared := s.recentlyCleared.erase key } := by
  unfold forget
  rw [erase_of_lookup_none h.ref, erase_of_lookup_none h.queue, erase_eq_of_notMem h.retracted,
    retain_of_lookup_none, retain_of_lookup_none, retain_of_lookup_none]
  · intro id v hv
    rw [decide_eq_true_eq]
    intro hid
    rw [h.records.config id hid] at hv
    cases hv
  · intro id v hv
    rw [decide_eq_true_eq]
    intro hid
    rw [h.records.status id hid] at hv
    cases hv
  · intro id o hio
    rw [decide_eq_true_eq]
    intro hid
    rw [h.records.cached id hid] at hio
    cases hio

section Markers

variable (M : KeyedMap RefKey ClearMarker)

/-- A worker's claim on the front of a queue: the only commands that look for a marker. -/
def Command.claimsFront : Command → Bool
  | .applyHead _ | .poisonQueueEntry _ => true
  | _ => false

lemma isKnown_markers (key : RefKey) :
    ({ s with recentlyCleared := M } : NameServiceState).isKnown key = s.isKnown key :=
  rfl

lemma currentRefValue_markers (key : RefKey) (kind : RefKind) :
    currentRefValue { s with recentlyCleared := M } key kind = currentRefValue s key kind :=
  rfl

lemma idempotencyAnswer_markers (key : RefKey) (id : IdempotencyCacheKey) (bodyCid : ContentId) :
    idempotencyAnswer { s with recentlyCleared := M } key id bodyCid =
      idempotencyAnswer s key id bodyCid :=
  rfl

lemma clearQueueForAdmin_released (h : s'.queues = s.queues) (reason : ClearReason) (millis : ℕ) :
    (clearQueueForAdmin s' key reason millis).2 = (clearQueueForAdmin s key reason millis).2 := by
  unfold clearQueueForAdmin
  rw [h]
  split <;> rfl

lemma removeBranch_queues (s : NameServiceState) (key : RefKey) :
    (removeBranch s key).1.queues = s.queues := by
  simp only [removeBranch, decrementChildCount]
  repeat' split
  all_goals rfl

lemma removeBranch_snd_markers :
    (removeBranch { s with recentlyCleared := M } key).2 = (removeBranch s key).2 := by
  simp only [removeBranch, decrementChildCount]
  repeat' split
  all_goals rfl

/-- **Markers only matter to a worker's claim.** -/
lemma apply_markers (σ : SortUnstable) (hc : c.claimsFront = false) :
    (apply σ { s with recentlyCleared := M } c i).2 = (apply σ s c i).2 := by
  cases c with
  | applyHead | poisonQueueEntry => cases hc
  | dropBranch ledgerId branch | purgeBranch ledgerId branch =>
    simp only [apply, dropBranch, purgeBranch, removeBranch_snd_markers]
    rw [clearQueueForAdmin_released (s := (removeBranch s ⟨ledgerId, branch⟩).1)
      (by rw [removeBranch_queues, removeBranch_queues])]
    repeat' split
    all_goals first | rfl | contradiction
  | resetHead | retractLedger =>
    simp only [apply, resetHead, retractLedger, isKnown_markers]
    repeat' split
    all_goals first
      | rfl
      | exact congrArg (Response.headReset _) (clearQueueForAdmin_released (by rfl) _ _)
      | exact congrArg (Response.retracted _) (clearQueueForAdmin_released (by rfl) _ _)
  | _ =>
    simp only [apply, advanceIndexHead, rewriteIndexHead, setIndexHead, createLedger, createBranch,
      applyCompareAndSetRef, currentRefValue_markers, applyPublishGraphSourceIndex,
      applyRetractGraphSource, applyEnqueueCommand, isKnown_markers, idempotencyAnswer_markers,
      applySetWorkerEligibility, applyPublishGraphSource, applyVersionedPush, applyEvictIdempotency]
    repeat' split
    all_goals first | rfl | contradiction

end Markers

lemma apply_claim_of_quiet (σ : SortUnstable) (hclaim : c.claimsFront = true)
    (htarget : c.target = some key) (hret : key ∉ s.retracted) (hqueue : s.queues.lookup key = none) :
    ∃ requested, (apply σ s c i).2 = .queueDesync key.ledgerId requested
      (match s.recentlyCleared.lookup key with
        | some marker => .queueCleared marker.reason
        | none => .invariantViolated "queue missing or empty without recently_cleared marker") := by
  have hempty : s.queue key = [] := by
    unfold queue
    rw [hqueue]
    rfl
  have hpop : ∀ full requested, ∃ s', popValidatedFront s key full requested =
      (s', .error (.queueDesync full requested (match s.recentlyCleared.lookup key with
        | some marker => .queueCleared marker.reason
        | none => .invariantViolated "queue missing or empty without recently_cleared marker"))) := by
    intro full requested
    unfold popValidatedFront
    cases hm : s.recentlyCleared.lookup key with
    | some => exact ⟨_, rfl⟩
    | none => exact ⟨s, by dsimp only; rw [hempty]⟩
  cases c with
  | applyHead args | poisonQueueEntry args =>
    cases htarget
    obtain ⟨s', hs'⟩ := hpop (formatLedgerId args.ledgerId args.branch) args.queueId
    refine ⟨args.queueId, ?_⟩
    simp only [apply, applyHead, applyPoisonQueueEntry, if_neg hret, hs']
    rfl
  | _ => cases hclaim

/-- What the readers and the commands make of a branch that was only just registered: nothing
is read of it, and a command is answered as if the name had never been used. Only a worker
that still holds an entry of the cleared queue may be told so. -/
structure StartsClean (σ : SortUnstable) (s : NameServiceState) (key : RefKey) : Prop where
  record : recordFromState s key = some (NsRecord.new key.ledgerName key.branch)
  ref : ∀ kind, currentRefValue s key kind = some ⟨none, 0⟩
  retracted : key ∉ s.retracted
  queue : s.queues.lookup key = none
  reads : ∀ id, splitLedgerId id = .ok (key.ledgerName, key.branch) →
    lookup s id = .ok (some (NsRecord.new key.ledgerName key.branch)) ∧
    (∀ kind, getRef s id kind = .ok (some ⟨none, 0⟩)) ∧
    getStatus s id = .ok (some StoredStatus.initial) ∧
    getConfig s id = .ok (some StoredConfig.unborn)
  answers : ∀ c i, c.claimsFront = false → (apply σ s c i).2 = (apply σ (forget s key) c i).2
  claims : ∀ c i, c.claimsFront = true → c.target = some key →
    (apply σ s c i).2 = (apply σ (forget s key) c i).2 ∨
      ∃ requested marker, s.recentlyCleared.lookup key = some marker ∧
        (apply σ s c i).2 = .queueDesync key.ledgerId requested (.queueCleared marker.reason)

lemma Blank.recordFromState (h : Blank s key) :
    recordFromState s key = some (NsRecord.new key.ledgerName key.branch) := by
  simp [NameService.recordFromState, h.known, h.ref, h.retracted, NsRecord.new]

lemma Blank.startsClean (σ : SortUnstable) (h : Blank s key) : StartsClean σ s key where
  record := h.recordFromState
  ref := by
    intro kind
    cases kind <;> simp [currentRefValue, h.known, h.ref]
  retracted := h.retracted
  queue := h.queue
  reads := by
    intro id hid
    have hledger : (s.ledgers.lookup key.ledgerName).isNone = false := by
      have hknown := h.known
      unfold isKnown branchRegistered at hknown
      cases hl : s.ledgers.lookup key.ledgerName with
      | none => rw [hl] at hknown; cases hknown
      | some => rfl
    have hnamed : namedBranch key.ledgerId = some key := by
      simp [namedBranch, RefKey.ledgerId, splitLedgerId_format hid, Except.toOption]
    refine ⟨?_, fun kind => ?_, ?_, ?_⟩
    · simp [lookup, readBranch, hid, h.recordFromState]
    · cases kind <;> simp [getRef, readBranch, hid, hledger, h.retracted, h.ref]
    · simp [getStatus, readBranch, hid, h.known, h.records.status _ hnamed]
    · simp [getConfig, readBranch, hid, h.known, h.records.config _ hnamed]
  answers := by
    intro c i hc
    rw [h.forget_eq]
    exact (apply_markers _ σ hc).symm
  claims := by
    intro c i hclaim htarget
    cases hm : s.recentlyCleared.lookup key with
    | some marker =>
      obtain ⟨requested, hr⟩ := apply_claim_of_quiet (i := i) σ hclaim htarget h.retracted h.queue
      rw [hm] at hr
      exact .inr ⟨requested, marker, rfl, hr⟩
    | none => exact .inl (by rw [h.forget_eq, erase_of_lookup_none hm])

/-- The keys of every state name registered branches, and a created branch starts clean and
stays so until a command names it. -/
structure RecreatesClean (σ : SortUnstable) (log : List (Command × ℕ)) : Prop where
  residue : ∀ n, NoResidue (stateAt σ log n)
  clean : ∀ m p args i full, log[m]? = some (.createLedger args, i) →
    answerAt σ log m = some (.created full) → m < p →
    (∀ (j : ℕ) c, m < j → j < p → log[j]? = some c →
      c.1.target ≠ some ⟨args.ledgerId, args.branch⟩) →
    StartsClean σ (stateAt σ log p) ⟨args.ledgerId, args.branch⟩

/-- **A re-created branch starts clean** in every run whose removals meet no records of the
branch. -/
theorem recreated_clean (σ : SortUnstable) (log : List (Command × ℕ))
    (hnames : ∀ (n : ℕ) c, log[n]? = some c → NamesBranch c.1)
    (hkeys : ∀ (n : ℕ) c, log[n]? = some c → OwnKey c.1)
    (hremoves : ∀ n c, log[n]? = some c → RemovesClean (stateAt σ log n) c.1) :
    RecreatesClean σ log := by
  have howned : ∀ n, Owned (stateAt σ log n) := owned_stateAt hnames hkeys
  have hresidue : ∀ n, NoResidue (stateAt σ log n) :=
    stateAt_invariant NoResidue (fun s c => Tracked s ∧ Owned s ∧ RemovesClean s c) noResidue_new
      (fun s c i h hc => h.effect hc.1 hc.2.1 hc.2.2 (apply_effect σ s c i))
      (fun n c hc => ⟨tracked_stateAt σ log n, howned n, hremoves n c hc⟩)
  refine ⟨hresidue, fun m p args i full hm hanswer hmp hquiet => Blank.startsClean σ ?_⟩
  refine stateAt_persists (fun s => Blank s ⟨args.ledgerId, args.branch⟩) (show m + 1 ≤ p from hmp) ?_ ?_
  · rw [stateAt_succ hm]
    rw [answerAt_eq hm] at hanswer
    have heffect := apply_effect σ (stateAt σ log m) (.createLedger args) i
    generalize apply σ (stateAt σ log m) (.createLedger args) i = out at heffect hanswer
    obtain ⟨_, _⟩ := out
    cases hanswer
    cases heffect with
    | unchanged _ hr | aside hr | markerConsumed hr => cases hr
    | created hnew hL => exact Blank.created (hresidue m) (howned m) hnew (hnames m _ hm) hL
    | removed hremoves => rcases hremoves with ⟨_, h⟩ | ⟨_, h⟩ <;> cases h
    | indexSet hset => rcases hset with ⟨_, h | h, _⟩ | ⟨_, h, _⟩ <;> cases h
  · intro j c hmj hjp hc h
    exact h.effect (tracked_stateAt σ log j) (howned j) (hquiet j c hmj hjp hc)
      (apply_effect σ (stateAt σ log j) c.1 c.2)

/-- A branch is purged with a queued submission, and created again. -/
theorem recreated_clean_queued : RecreatesClean insertion [(.createLedger ⟨"db", "main", 0⟩, 1),
        (.enqueueCommand ⟨"db", "main", some ⟨"db:main", "k"⟩, ⟨1⟩, ⟨2⟩, .jsonLdInsert, 0⟩, 2),
        (.purgeBranch "db" "main" 0, 3), (.createLedger ⟨"db", "main", 0⟩, 4)] := by
  refine recreated_clean insertion _ ?_ ?_ ?_
  · intro n c h
    rcases n with _ | _ | _ | _ | n <;> cases h <;> first | trivial | (change _ ∉ _; decide)
  · intro n c h
    rcases n with _ | _ | _ | _ | n <;> cases h <;> first | trivial | (rintro _ ⟨⟩; decide)
  · intro n c h
    rcases n with _ | _ | _ | _ | n <;> cases h <;> first
      | trivial
      | exact ⟨fun _ _ => rfl, fun _ _ => rfl, fun _ _ => rfl⟩

/-- A branch with an applied submission, purged and created again. -/
def recreatingLog : List (Command × ℕ) :=
  [(.createLedger ⟨"db", "main", 0⟩, 1),
    (.enqueueCommand ⟨"db", "main", some ⟨"db:main", "k"⟩, ⟨1⟩, ⟨2⟩, .jsonLdInsert, 0⟩, 2),
    (.applyHead ⟨"db", "main", 0, ⟨3⟩, 1, 0, none, 0⟩, 3),
    (.purgeBranch "db" "main" 0, 4),
    (.createLedger ⟨"db", "main", 0⟩, 5)]

/-- The new branch answers the old key with the outcome of the purged one and enqueues nothing. -/
theorem recreated_answers_old_key : ¬ RecreatesClean insertion recreatingLog := by
  intro h
  have hclean := h.clean 4 5 ⟨"db", "main", 0⟩ 5 "db:main" rfl (by decide) (by decide) ?_
  · have hanswer := hclean.answers
      (.enqueueCommand ⟨"db", "main", some ⟨"db:main", "k"⟩, ⟨1⟩, ⟨2⟩, .jsonLdInsert, 0⟩) 6 rfl
    exact absurd hanswer (by decide)
  · intro j c h₄ h₅
    omega

end Fluree.NameService
