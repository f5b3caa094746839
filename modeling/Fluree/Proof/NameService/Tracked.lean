import Fluree.Lib.Machine
import Fluree.Proof.NameService.Effect
import Mathlib.Data.List.TakeWhile

/-!
# What the maps of the name service say about each other

`Tracked`: heads, retractions and queues belong to registered branches, a retracted branch has
no queue and an administrative marker stands only where there is none. Every command keeps it
(`Tracked.effect`), so every state of every run has it (`tracked_stateAt`).
-/

namespace Fluree.NameService

open Lib NameServiceState

section

open KeyedMap Machine Finset

def stateAt (σ : SortUnstable) (log : List (Command × ℕ)) (n : ℕ) : NameServiceState :=
  Machine.stateAt (fun s c => (apply σ s c.1 c.2).1) NameServiceState.new log n

def answerAt (σ : SortUnstable) (log : List (Command × ℕ)) (n : ℕ) : Option Response :=
  log[n]?.map fun c => (apply σ (stateAt σ log n) c.1 c.2).2

variable {σ : SortUnstable} {log : List (Command × ℕ)} {k : RefKey}
  {Q : KeyedMap RefKey (List QueueEntry)} {M : KeyedMap RefKey ClearMarker} {rest : List QueueEntry}

lemma stateAt_succ (h : log[n]? = some c) :
    stateAt σ log (n + 1) = (apply σ (stateAt σ log n) c.1 c.2).1 :=
  Machine.stateAt_succ h

lemma answerAt_eq (h : log[n]? = some c) :
    answerAt σ log n = some (apply σ (stateAt σ log n) c.1 c.2).2 := by
  simp [answerAt, h]

lemma stateAt_invariant (Inv : NameServiceState → Prop) (ok : NameServiceState → Command → Prop)
    (hstart : Inv new) (hstep : ∀ s c i, Inv s → ok s c → Inv (apply σ s c i).1)
    (hok : ∀ n c, log[n]? = some c → ok (stateAt σ log n) c.1) (n : ℕ) : Inv (stateAt σ log n) :=
  Machine.invariant Inv (fun s c => ok s c.1) hstart (fun s c => hstep s c.1 c.2) hok n

lemma stateAt_persists (P : NameServiceState → Prop) (hnm : n ≤ m) (hn : P (stateAt σ log n))
    (hstep : ∀ j c, n ≤ j → j < m → log[j]? = some c → P (stateAt σ log j) →
      P (apply σ (stateAt σ log j) c.1 c.2).1) : P (stateAt σ log m) :=
  Machine.persists hnm hn hstep

structure Tracked (s : NameServiceState) : Prop where
  refs : ∀ k e, s.refs.lookup k = some e → s.isKnown k = true
  retracted : ∀ k ∈ s.retracted, s.isKnown k = true
  queues : ∀ k q, s.queues.lookup k = some q → s.isKnown k = true ∧ q ≠ []
  quiet : ∀ k ∈ s.retracted, s.queues.lookup k = none
  markers : ∀ k m, s.recentlyCleared.lookup k = some m → s.queues.lookup k = none

lemma tracked_new : Tracked new where
  refs := fun k e h => by simp [new] at h
  retracted := fun k h => by simp [new] at h
  queues := fun k q h => by simp [new] at h
  quiet := fun k h => by simp [new] at h
  markers := fun k m h => by simp [new] at h

variable {s : NameServiceState} {key : RefKey} {R : KeyedMap RefKey RefEntry}

lemma WithoutBranch.lookup_self {refs} (h : WithoutBranch refs key R) : R.lookup key = none := by
  cases h with
  | root | orphan => exact AList.lookup_erase _ _
  | @child parent _ _ hp =>
    have hne : key ≠ ⟨key.ledgerName, parent⟩ := by
      intro heq
      rw [← heq, AList.lookup_erase] at hp
      cases hp
    rw [lookup_insert_ite, if_neg hne, AList.lookup_erase]

lemma WithoutBranch.lookup_other {refs} (h : WithoutBranch refs key R)
    (hk : k ≠ key) :
    ∃ f : ℕ → ℕ, R.lookup k = (refs.lookup k).map fun e => { e with branches := f e.branches } := by
  have herase : (refs.erase key).lookup k = refs.lookup k := AList.lookup_erase_ne hk
  cases h with
  | root | orphan => exact ⟨id, by rw [herase]; cases refs.lookup k <;> rfl⟩
  | @child parent _ _ hp =>
    rw [lookup_insert_ite]
    by_cases hparent : k = ⟨key.ledgerName, parent⟩
    · refine ⟨fun n => n - 1, ?_⟩
      rw [if_pos hparent, ← herase, hparent, hp]
      rfl
    · exact ⟨id, by rw [if_neg hparent, herase]; cases refs.lookup k <;> rfl⟩

lemma Registers.mono (hL : Registers s key L)
    (h : s.isKnown k = true) : branchRegistered L k = true := by
  rw [hL k, h, Bool.true_or]

lemma Cleared.lookup_eq_some (h : Cleared s key Q M)
    (hq : Q.lookup k = some q) : k ≠ key ∧ s.queues.lookup k = some q := by
  rw [h.queues] at hq
  split at hq
  · cases hq
  · exact ⟨‹_›, hq⟩

lemma Cleared.lookup_eq_none (h : Cleared s key Q M) (hq : k ≠ key → s.queues.lookup k = none) :
    Q.lookup k = none := by
  rw [h.queues]
  split
  · rfl
  · exact hq ‹_›

lemma Cleared.markers_quiet (h : Cleared s key Q M) (ht : Tracked s) (k : RefKey)
    (m : ClearMarker) (hm : M.lookup k = some m) : Q.lookup k = none :=
  h.lookup_eq_none fun hk => ht.markers k m (by rw [← h.markers k hk, hm])

lemma Tracked.insertRef (ht : Tracked s) (hknown : s.isKnown key = true) (e : RefEntry) :
    Tracked { s with refs := s.refs.insert key e } where
  refs := by
    intro k e' h
    rcases lookup_insert_some h with ⟨rfl, -⟩ | ⟨-, h⟩
    · exact hknown
    · exact ht.refs k e' h
  retracted := ht.retracted
  queues := ht.queues
  quiet := ht.quiet
  markers := ht.markers

lemma Popped.lookup_eq_some (h : Popped s key rest Q)
    (hq : Q.lookup k = some q) : k = key ∧ q = rest ∧ rest ≠ [] ∨ s.queues.lookup k = some q := by
  rw [h k] at hq
  split at hq
  · split at hq
    · cases hq
    · cases hq; exact .inl ⟨‹_›, rfl, ‹_›⟩
  · exact .inr hq

lemma lookup_of_queue_cons (h : s.queue key = front :: rest) :
    s.queues.lookup key = some (front :: rest) := by
  unfold queue at h
  cases hq : s.queues.lookup key with
  | none => rw [hq] at h; cases h
  | some => rw [hq] at h; exact congrArg some h

lemma Tracked.known (ht : Tracked s) (h : s.queue key = front :: rest) : s.isKnown key = true :=
  (ht.queues _ _ (lookup_of_queue_cons h)).1

/-- A branch with a queue is registered: there is nothing to heal. -/
lemma Tracked.unhealed (ht : Tracked s) (h : s.queue key = front :: rest)
    (hL : L = s.ledgers ∨ s.isKnown key = false) : L = s.ledgers :=
  hL.resolve_right (by rw [ht.known h]; exact Bool.noConfusion)

lemma Tracked.pop (ht : Tracked s) (hqueue : s.queue key = front :: rest)
    (hQ : Popped s key rest Q) : Tracked { s with queues := Q, idempotency := I } where
  refs := ht.refs
  retracted := ht.retracted
  queues := by
    intro k q hq
    rcases hQ.lookup_eq_some hq with ⟨rfl, rfl, hne⟩ | hq
    · exact ⟨ht.known hqueue, hne⟩
    · exact ht.queues k q hq
  quiet := by
    intro k hk
    have hnone := ht.quiet k hk
    rw [hQ k]
    split
    · rename_i heq
      rw [heq, lookup_of_queue_cons hqueue] at hnone
      cases hnone
    · exact hnone
  markers := by
    intro k m hm
    have hnone := ht.markers k m hm
    rw [hQ k]
    split
    · rename_i heq
      rw [heq, lookup_of_queue_cons hqueue] at hnone
      cases hnone
    · exact hnone

lemma Tracked.clear (ht : Tracked s) (hclear : Cleared s key Q M)
    (hT : ∀ k ∈ T, k = key ∧ s.isKnown key = true ∨ k ∈ s.retracted) :
    Tracked { s with retracted := T, queues := Q, recentlyCleared := M } where
  refs := ht.refs
  retracted := by
    intro k hk
    rcases hT k hk with ⟨rfl, h⟩ | h
    · exact h
    · exact ht.retracted k h
  queues := fun k q hq => ht.queues k q (hclear.lookup_eq_some hq).2
  quiet := by
    intro k hk
    refine hclear.lookup_eq_none fun hne => ?_
    rcases hT k hk with ⟨rfl, h⟩ | h
    · exact absurd rfl hne
    · exact ht.quiet k h
  markers := hclear.markers_quiet ht

/-- **Every command keeps the maps in step.** -/
lemma Tracked.effect {c i s' r} (ht : Tracked s) (h : Effect s c i s' r) : Tracked s' := by
  cases h with
  | unchanged hQ =>
    refine ⟨ht.refs, ht.retracted, fun k q hq => ht.queues k q ?_, fun k hk => ?_, fun k m hm => ?_⟩
    · rw [← hQ k]; exact hq
    · exact (hQ k).trans (ht.quiet k hk)
    · exact (hQ k).trans (ht.markers k m hm)
  | created _ hL =>
    exact ⟨fun k e he => hL.mono (ht.refs k e he), fun k hk => hL.mono (ht.retracted k hk),
      fun k q hq => ⟨hL.mono (ht.queues k q hq).1, (ht.queues k q hq).2⟩, ht.quiet, ht.markers⟩
  | @branchCreated args i L source head t hnew hL hsource =>
    refine ⟨fun k e he => ?_, fun k hk => hL.mono (ht.retracted k hk),
      fun k q hq => ⟨hL.mono (ht.queues k q hq).1, (ht.queues k q hq).2⟩, ht.quiet, ht.markers⟩
    change branchRegistered L k = true
    rcases lookup_insert_some he with ⟨hk, -⟩ | ⟨-, he⟩
    · rw [hL k, hk]; simp
    rcases lookup_insert_some he with ⟨rfl, -⟩ | ⟨-, he⟩
    · exact hL.mono (ht.refs _ source hsource)
    · exact hL.mono (ht.refs k e he)
  | @removed _ _ key _ L _ _ _ _ _ hR hL hclear =>
    have hknown : ∀ k, k ≠ key → s.isKnown k = true → branchRegistered L k = true := by
      intro k hk h
      rw [hL k, h, decide_eq_true hk]
      rfl
    refine ⟨fun k e he => ?_, fun k hk => ?_, fun k q hq => ?_, fun k hk => ?_, ?_⟩
    · have hne : k ≠ key := by
        rintro rfl
        rw [hR.lookup_self] at he
        cases he
      obtain ⟨f, hf⟩ := hR.lookup_other hne
      rw [hf] at he
      obtain ⟨e', he', -⟩ := Option.map_eq_some_iff.1 he
      exact hknown k hne (ht.refs k e' he')
    · obtain ⟨hne, hk⟩ := mem_erase.1 hk
      exact hknown k hne (ht.retracted k hk)
    · obtain ⟨hne, hq⟩ := hclear.lookup_eq_some hq
      exact ⟨hknown k hne (ht.queues k q hq).1, (ht.queues k q hq).2⟩
    · obtain ⟨hne, hk⟩ := mem_erase.1 hk
      exact hclear.lookup_eq_none fun _ => ht.quiet k hk
    · exact hclear.markers_quiet ht
  | @resetUnborn _ _ _ _ _ _ _ _ _ _ hclear =>
    have hc := ht.clear hclear (T := s.retracted) fun k hk => .inr hk
    exact ⟨fun k e he => ht.refs k e (lookup_erase_some he).2, hc.retracted, hc.queues, hc.quiet,
      hc.markers⟩
  | @resetTo _ _ _ _ _ _ _ _ hknown _ _ hclear =>
    exact (ht.clear hclear (T := s.retracted) fun k hk => .inr hk).insertRef hknown _
  | retracted hknown _ hclear =>
    refine ht.clear hclear fun k hk => ?_
    rcases mem_insert.1 hk with rfl | hk
    · exact .inl ⟨rfl, hknown⟩
    · exact .inr hk
  | indexSet _ hentry => exact ht.insertRef (ht.refs _ _ hentry) _
  | headSet _ hknown => exact ht.insertRef hknown _
  | statusPushed | configPushed | aside => exact { ht with }
  | @enqueued args i hknown hret hfresh =>
    refine ⟨ht.refs, ht.retracted, fun k q hq => ?_, fun k hk => ?_, fun k m hm => ?_⟩
    · rcases lookup_insert_some hq with ⟨rfl, rfl⟩ | ⟨-, hq⟩
      · exact ⟨hknown, by simp⟩
      · exact ht.queues k q hq
    · have hne : k ≠ ⟨args.ledgerId, args.branch⟩ := fun h => hret (h ▸ hk)
      simp only [lookup_insert_ite, if_neg hne]
      exact ht.quiet k hk
    · obtain ⟨hne, hm⟩ := lookup_erase_some hm
      simp only [lookup_insert_ite, if_neg hne]
      exact ht.markers k m hm
  | @markerConsumed =>
    exact { ht with markers := fun k m hm => ht.markers k m (lookup_erase_some hm).2 }
  | @headApplied _ _ _ _ _ L _ I _ _ hqueue _ hR hL hQ =>
    have hp := ht.pop hqueue hQ (I := I)
    obtain rfl := ht.unhealed hqueue hL
    cases hR with
    | noop => exact { hp with }
    | advance =>
      have := hp.insertRef (ht.known hqueue)
      exact this _
  | poisoned hqueue _ hQ => exact ht.pop hqueue hQ
  | @evicted _ _ _ _ _ _ _ _ _ hM =>
    exact { ht with markers := fun k m hm => ht.markers k m (hM k m hm) }

/-- **In every state of every run.** -/
lemma tracked_stateAt (σ : SortUnstable) (log : List (Command × ℕ)) (n : ℕ) :
    Tracked (stateAt σ log n) :=
  stateAt_invariant Tracked (fun _ _ => True) tracked_new
    (fun s c i ht _ => ht.effect (apply_effect σ s c i)) (fun _ _ _ => trivial) n

end

/-!
## Names and keys

The callers promise that a branch name holds no colon (`validate_branch_name`,
`split_ledger_id`) and that an idempotency key carries the id of the branch it is submitted to
(`enqueue_and_await`). Then a ledger id names one branch (`ledgerId_inj`) and the key of a
queued entry names the branch of its queue (`Owned`).
-/

section

open List

/-- New branches are named without a colon. -/
def NamesBranch : Command → Prop
  | .createLedger args => ':' ∉ args.branch.toList
  | .createBranch args => ':' ∉ args.branch.toList
  | _ => True

/-- A submission's key carries the id of its branch. -/
def OwnKey : Command → Prop
  | .enqueueCommand args => ∀ id, args.idempotency = some id →
      id.ledgerId = formatLedgerId args.ledgerId args.branch
  | _ => True

lemma append_cons_inj {α : Type} {c : α} {l₁ l₂ m₁ m₂ : List α} (h₁ : c ∉ m₁) (h₂ : c ∉ m₂)
    (h : l₁ ++ c :: m₁ = l₂ ++ c :: m₂) : l₁ = l₂ ∧ m₁ = m₂ := by
  rcases append_eq_append_iff.1 h with ⟨a, rfl, ha⟩ | ⟨a, rfl, ha⟩
  · cases a with
    | nil => simpa using ha
    | cons =>
      obtain ⟨-, rfl⟩ := List.cons.inj ha
      simp at h₁
  · cases a with
    | nil => simpa [eq_comm] using ha
    | cons =>
      obtain ⟨-, rfl⟩ := List.cons.inj ha
      simp at h₂

lemma toList_formatLedgerId (name branch : String) :
    (formatLedgerId name branch).toList = name.toList ++ ':' :: branch.toList := by
  simp [formatLedgerId]

variable {k k' : RefKey}

/-- **A ledger id names one branch.** -/
lemma ledgerId_inj (h : ':' ∉ k.branch.toList) (h' : ':' ∉ k'.branch.toList)
    (heq : k.ledgerId = k'.ledgerId) : k = k' := by
  have hlist := congrArg String.toList heq
  simp only [RefKey.ledgerId, toList_formatLedgerId] at hlist
  obtain ⟨hname, hbranch⟩ := append_cons_inj h h' hlist
  obtain ⟨_, _⟩ := k
  obtain ⟨_, _⟩ := k'
  simp only [String.toList_inj] at hname hbranch
  rw [hname, hbranch]

lemma splitLedgerId_format {id name branch} (h : splitLedgerId id = .ok (name, branch)) :
    splitLedgerId (formatLedgerId name branch) = .ok (name, branch) := by
  have hparts : ':' ∉ name.toList ∧ name.toList ≠ [] ∧ ':' ∉ branch.toList ∧
      branch.toList ≠ [] := by
    have htake : ':' ∉ id.toList.takeWhile (· != ':') := by
      intro hmem
      simpa using mem_takeWhile_imp hmem
    unfold splitLedgerId at h
    dsimp only at h
    split at h
    · split at h
      · cases h
      rename_i hne
      cases h
      exact ⟨by simpa using htake, by simpa using hne, by decide, by decide⟩
    · split at h
      · cases h
      rename_i hne
      split at h
      · cases h
      rename_i hcolon
      cases h
      rw [not_or] at hne
      exact ⟨by simpa using htake, by simpa using hne.1, by simpa using hcolon, by simpa using hne.2⟩
  obtain ⟨hname, hname', hbranch, hbranch'⟩ := hparts
  have hne : ∀ c ∈ name.toList, (c != ':') = true := by
    intro c hc
    simp only [bne_iff_ne, ne_eq]
    rintro rfl
    exact hname hc
  unfold splitLedgerId
  rw [toList_formatLedgerId, takeWhile_append_of_pos hne, dropWhile_append_of_pos hne,
    takeWhile_cons_of_neg (by simp), dropWhile_cons_of_neg (by simp), append_nil]
  simp [hname', hbranch', hbranch]

def Submits (s : NameServiceState) (c : Command) (i : ℕ) (k : RefKey) (e : QueueEntry) : Prop :=
  ∃ args : QueueSubmission, c = .enqueueCommand args ∧ k = ⟨args.ledgerId, args.branch⟩ ∧
    e = ⟨s.nextQueueId, i, args.appliedAtMillis, args.idempotency, args.requestCid, args.bodyCid,
      args.bodyKind⟩

variable {s s' : NameServiceState} {c : Command} {i : ℕ} {r : Response} {k : RefKey}

variable {Q : KeyedMap RefKey (List QueueEntry)}

lemma queue_eq_of_lookup (h : Q.lookup k = s.queues.lookup k) :
    (Q.lookup k).getD [] = s.queue k := by
  rw [h]; rfl

lemma Cleared.queue (h : Cleared s key Q M) :
    (Q.lookup k).getD [] = if k = key then [] else s.queue k := by
  rw [h.queues]
  split <;> rfl

lemma Popped.queue (h : Popped s key rest Q) :
    (Q.lookup k).getD [] = if k = key then rest else s.queue k := by
  rw [h k]
  by_cases hk : k = key
  · rw [if_pos hk, if_pos hk]
    by_cases hrest : rest = [] <;> simp [hrest]
  · rw [if_neg hk, if_neg hk]; rfl

/-- **Queues only grow by submissions.** -/
lemma Effect.mem_queue (h : Effect s c i s' r) (he : e ∈ s'.queue k) :
    e ∈ s.queue k ∨ Submits s c i k e ∧ s.isKnown k = true := by
  have hclear : ∀ {key Q M}, Cleared s key Q M → e ∈ (Q.lookup k).getD [] → e ∈ s.queue k := by
    intro key Q M hclear he
    rw [hclear.queue] at he
    split at he
    · cases he
    · exact he
  have hpop : ∀ {key front rest Q}, s.queue key = front :: rest → Popped s key rest Q →
      e ∈ (Q.lookup k).getD [] → e ∈ s.queue k := by
    intro key front rest Q hqueue hQ he
    rw [hQ.queue] at he
    split at he
    · rename_i hk; rw [hk, hqueue]; exact mem_cons_of_mem _ he
    · exact he
  cases h with
  | unchanged hQ => rw [← queue_eq_of_lookup (hQ k)]; exact .inl he
  | removed _ _ _ _ hcl | resetUnborn _ _ _ hcl | resetTo _ _ _ hcl | retracted _ _ hcl =>
    exact .inl (hclear hcl he)
  | @enqueued args i hknown hret hfresh =>
    simp only [queue, KeyedMap.lookup_insert_ite] at he
    split at he
    · rename_i hk
      rw [Option.getD_some] at he
      rcases mem_append.1 he with he | he
      · rw [hk]; exact .inl he
      · exact .inr ⟨⟨args, rfl, hk, mem_singleton.1 he⟩, hk ▸ hknown⟩
    · exact .inl he
  | headApplied _ hqueue _ _ _ hQ | poisoned hqueue _ hQ => exact .inl (hpop hqueue hQ he)
  | _ => exact .inl he

/-- **Branches are registered by the commands that name them.** -/
lemma Effect.isKnown (h : Effect s c i s' r) (ht : Tracked s) (hk : s'.isKnown k = true) :
    s.isKnown k = true ∨
      (∃ args : NewLedger, c = .createLedger args ∧ k = ⟨args.ledgerId, args.branch⟩) ∨
      ∃ args : NewBranch, c = .createBranch args ∧ k = ⟨args.ledgerId, args.branch⟩ := by
  cases h with
  | @created args _ _ _ hL =>
    rw [isKnown, hL k, Bool.or_eq_true, decide_eq_true_eq] at hk
    exact hk.imp_right fun hk => .inl ⟨args, rfl, hk⟩
  | @branchCreated args _ _ _ _ _ _ hL =>
    rw [isKnown, hL k, Bool.or_eq_true, decide_eq_true_eq] at hk
    exact hk.imp_right fun hk => .inr ⟨args, rfl, hk⟩
  | removed _ _ _ hL =>
    rw [isKnown, hL k, Bool.and_eq_true] at hk
    exact .inl hk.1
  | headApplied _ hqueue _ _ hL =>
    rw [isKnown, ht.unhealed hqueue hL] at hk
    exact .inl hk
  | _ => exact .inl hk

lemma Recorded.lookup {m I entry released} (h : Recorded m entry I released) {id o} (ho : I.lookup id = some o) :
    m.lookup id = some o ∨ entry.idempotency = some id := by
  cases h with
  | keyless => exact .inl ho
  | @keyed key outcome hkey hcid =>
    rcases KeyedMap.lookup_insert_some ho with ⟨rfl, -⟩ | ⟨-, ho⟩
    · exact .inr hkey
    · exact .inl ho

structure Owned (s : NameServiceState) : Prop where
  names : ∀ k, s.isKnown k = true → ':' ∉ k.branch.toList
  keys : ∀ k, ∀ e ∈ s.queue k, ∀ id, e.idempotency = some id → id.ledgerId = k.ledgerId

lemma owned_new : Owned new where
  names := by
    intro k h
    simp [isKnown, branchRegistered, new] at h
  keys := by
    intro k e he
    simp [queue, new] at he

lemma Owned.effect (ho : Owned s) (ht : Tracked s) (hname : NamesBranch c) (hkey : OwnKey c)
    (h : Effect s c i s' r) : Owned s' where
  names := by
    intro k hk
    rcases h.isKnown ht hk with hk | ⟨args, rfl, rfl⟩ | ⟨args, rfl, rfl⟩
    · exact ho.names k hk
    · exact hname
    · exact hname
  keys := by
    intro k e he id hid
    rcases h.mem_queue he with he | ⟨⟨args, rfl, rfl, rfl⟩, -⟩
    · exact ho.keys k e he id hid
    · exact hkey id hid

lemma Owned.inj (ho : Owned s) (hk : s.isKnown k = true)
    (hk' : s.isKnown k' = true) (h : k.ledgerId = k'.ledgerId) : k = k' :=
  ledgerId_inj (ho.names k hk) (ho.names k' hk') h

/-- **In every state of every run of such commands.** -/
lemma owned_stateAt (hnames : ∀ (n : ℕ) c, log[n]? = some c → NamesBranch c.1)
    (hkeys : ∀ (n : ℕ) c, log[n]? = some c → OwnKey c.1) (n : ℕ) : Owned (stateAt σ log n) :=
  stateAt_invariant Owned (fun s c => Tracked s ∧ NamesBranch c ∧ OwnKey c) owned_new
    (fun s c i ho hc => ho.effect hc.1 hc.2.1 hc.2.2 (apply_effect σ s c i))
    (fun n c hc => ⟨tracked_stateAt σ log n, hnames n c hc, hkeys n c hc⟩) n

end

/-!
## What a command does to the queues and the cache

`QueueStep` is `Effect` seen from the queues: a command leaves them, appends one entry, takes
the front off one queue, clears one queue or evicts cached outcomes. Each case says which
envelopes the answer reports as released.
-/

def submitted : Command → Response → Option (RefKey × ℕ)
  | .enqueueCommand args, .enqueued _ queueId => some (⟨args.ledgerId, args.branch⟩, queueId)
  | _, _ => none

/-- The branch and the id of the entry that a worker's command took off the front of a queue. -/
def consumed : Command → Response → Option (RefKey × ℕ)
  | .applyHead args, .headApplied .. => some (⟨args.ledgerId, args.branch⟩, args.queueId)
  | .poisonQueueEntry args, .poisoned .. => some (⟨args.ledgerId, args.branch⟩, args.queueId)
  | _, _ => none

/-- The branch whose queue an administrative command cleared. -/
def clears (c : Command) : Response → Option RefKey
  | .branchDropped .. | .purged .. | .headReset .. | .retracted .. => c.target
  | _ => none

/-- The envelopes that an answer reports as released, each with its ledger id. -/
def Response.released : Response → List (String × ContentId)
  | .headApplied ledgerId _ _ envelope => (envelope.map fun cid => (ledgerId, cid)).toList
  | .poisoned ledgerId _ _ envelope => (envelope.map fun cid => (ledgerId, cid)).toList
  | .branchDropped _ _ envelopes => envelopes
  | .purged _ envelopes => envelopes
  | .headReset _ envelopes => envelopes
  | .retracted _ envelopes => envelopes
  | .evictionApplied _ envelopes => envelopes
  | _ => []

/-- The answers of commands that changed a queue or the cache. -/
def Response.queues : Response → Bool
  | .enqueued .. | .headApplied .. | .poisoned .. | .branchDropped .. | .purged .. | .headReset ..
  | .retracted .. | .evictionApplied .. => true
  | _ => false

inductive QueueStep (s : NameServiceState) (c : Command) (i : ℕ) (s' : NameServiceState)
    (r : Response) : Prop
  | kept (hqueue : ∀ k, s'.queue k = s.queue k) (hnext : s'.nextQueueId = s.nextQueueId)
      (hcache : s'.idempotency = s.idempotency) (hadded : submitted c r = none)
      (hpopped : consumed c r = none) (hcleared : clears c r = none) (hreleased : r.released = [])
  | added {args : QueueSubmission} (hc : c = .enqueueCommand args)
      (hr : r = .enqueued (formatLedgerId args.ledgerId args.branch) s.nextQueueId)
      (hknown : s.isKnown ⟨args.ledgerId, args.branch⟩ = true)
      (hfresh : ∀ key, args.idempotency = some key → s.idempotency.lookup key = none ∧
        ∀ entry ∈ s.queue ⟨args.ledgerId, args.branch⟩, entry.idempotency ≠ some key)
      (hqueue : ∀ k, s'.queue k = if k = ⟨args.ledgerId, args.branch⟩ then
        s.queue k ++ [⟨s.nextQueueId, i, args.appliedAtMillis, args.idempotency, args.requestCid,
          args.bodyCid, args.bodyKind⟩] else s.queue k)
      (hnext : s'.nextQueueId = (s.nextQueueId + 1) % U64_MODULUS)
      (hcache : s'.idempotency = s.idempotency)
  | popped {key : RefKey} {front : QueueEntry} {rest : List QueueEntry}
      {envelope : Option ContentId} (hpopped : consumed c r = some (key, front.queueId))
      (hfront : s.queue key = front :: rest)
      (hqueue : ∀ k, s'.queue k = if k = key then rest else s.queue k)
      (hnext : s'.nextQueueId = s.nextQueueId)
      (hcache : Recorded s.idempotency front s'.idempotency envelope)
      (hadded : submitted c r = none) (hcleared : clears c r = none)
      (hreleased : r.released = (envelope.map fun cid => (key.ledgerId, cid)).toList)
  | cleared {key : RefKey} (hcleared : clears c r = some key)
      (hqueue : ∀ k, s'.queue k = if k = key then [] else s.queue k)
      (hnext : s'.nextQueueId = s.nextQueueId) (hcache : s'.idempotency = s.idempotency)
      (hadded : submitted c r = none) (hpopped : consumed c r = none)
      (hreleased : r.released = envelopes s key)
  | evicted {cutoff markerCutoff : ℕ} {keys : List IdempotencyCacheKey}
      (hc : c = .evictIdempotency cutoff markerCutoff) (hqueue : ∀ k, s'.queue k = s.queue k)
      (hnext : s'.nextQueueId = s.nextQueueId)
      (hcache : ∀ key, s'.idempotency.lookup key =
        if key ∈ keys then none else s.idempotency.lookup key)
      (hcleared : clears c r = none)
      (hreleased : ∀ p, p ∈ r.released ↔ ∃ key outcome, key ∈ keys ∧
        s.idempotency.lookup key = some outcome ∧ p = (key.ledgerId, outcome.requestCid))

variable {s s' : NameServiceState} {c : Command} {i : ℕ} {r : Response} {k : RefKey}

lemma Response.queues_of_acts (h : r.acts = false) : r.queues = false := by
  cases r <;> first | rfl | cases h

lemma QueueStep.of_quiet (hr : r.queues = false) (hqueue : ∀ k, s'.queue k = s.queue k)
    (hnext : s'.nextQueueId = s.nextQueueId) (hcache : s'.idempotency = s.idempotency) :
    QueueStep s c i s' r := by
  refine .kept hqueue hnext hcache ?_ ?_ ?_ ?_
  · unfold submitted; split <;> first | rfl | cases hr
  · unfold consumed; split <;> first | rfl | cases hr
  · unfold clears; split <;> first | rfl | cases hr
  · unfold Response.released; split <;> first | rfl | cases hr

lemma QueueStep.of_cleared (hclear : Cleared s key Q M) (hQ : s'.queues = Q)
    (hnext : s'.nextQueueId = s.nextQueueId) (hcache : s'.idempotency = s.idempotency)
    (htarget : c.target = some key) (hr : (∃ full n, r = .branchDropped full n (envelopes s key)) ∨
      (∃ full, r = .purged full (envelopes s key)) ∨
      (∃ full, r = .headReset full (envelopes s key)) ∨
      ∃ full, r = .retracted full (envelopes s key)) : QueueStep s c i s' r := by
  have hqueue : ∀ k, s'.queue k = if k = key then [] else s.queue k := by
    intro k
    rw [queue, hQ]
    exact hclear.queue
  rcases hr with ⟨full, n, rfl⟩ | ⟨full, rfl⟩ | ⟨full, rfl⟩ | ⟨full, rfl⟩ <;>
    exact .cleared htarget hqueue hnext hcache (by cases c <;> rfl) (by cases c <;> rfl) rfl

/-- **Every command is such a step.** -/
lemma Effect.queueStep (h : Effect s c i s' r) (ht : Tracked s) : QueueStep s c i s' r := by
  cases h with
  | unchanged hQ hr =>
    exact .of_quiet (Response.queues_of_acts hr) (fun k => queue_eq_of_lookup (hQ k)) rfl rfl
  | created | branchCreated => exact .of_quiet rfl (fun _ => rfl) rfl rfl
  | @removed c i key R L Q M r hc hchildren hR hL hclear hr =>
    rcases hr with ⟨n, rfl⟩ | rfl | ⟨rfl, hunknown⟩
    · exact .of_cleared hclear rfl rfl rfl hc.target (.inl ⟨_, n, rfl⟩)
    · exact .of_cleared hclear rfl rfl rfl hc.target (.inr (.inl ⟨_, rfl⟩))
    refine .of_quiet rfl (fun k => hclear.queue.trans ?_) rfl rfl
    split
    · rename_i hk
      have hnone : s.queues.lookup k = none := by
        rw [Option.eq_none_iff_forall_ne_some]
        intro q hq
        rw [hk] at hq
        rw [(ht.queues key q hq).1] at hunknown
        cases hunknown
      rw [queue, hnone]
      rfl
    · rfl
  | resetUnborn _ _ _ hclear =>
    exact .of_cleared hclear rfl rfl rfl rfl (.inr (.inr (.inl ⟨_, rfl⟩)))
  | resetTo _ _ _ hclear => exact .of_cleared hclear rfl rfl rfl rfl (.inr (.inr (.inl ⟨_, rfl⟩)))
  | retracted _ _ hclear => exact .of_cleared hclear rfl rfl rfl rfl (.inr (.inr (.inr ⟨_, rfl⟩)))
  | indexSet _ _ _ _ _ hr =>
    rcases hr with ⟨t, head, rfl⟩ | rfl <;> exact .of_quiet rfl (fun _ => rfl) rfl rfl
  | headSet | statusPushed | configPushed => exact .of_quiet rfl (fun _ => rfl) rfl rfl
  | aside hr | markerConsumed hr =>
    exact .of_quiet (Response.queues_of_acts hr) (fun _ => rfl) rfl rfl
  | @enqueued args i hknown hret hfresh =>
    refine .added rfl rfl hknown hfresh (fun k => ?_) rfl rfl
    simp only [queue, KeyedMap.lookup_insert_ite]
    split
    · rename_i hk; rw [hk]; rfl
    · rfl
  | headApplied _ hqueue hid _ _ hQ hI | poisoned hqueue hid hQ hI =>
    exact .popped (by rw [hid]; rfl) hqueue (fun k => hQ.queue) rfl hI rfl rfl rfl
  | evicted hI _ hreleased => exact .evicted rfl (fun _ => rfl) rfl hI rfl hreleased

lemma queueStep_stateAt (σ : SortUnstable) (log : List (Command × ℕ)) (n : ℕ) (c : Command × ℕ) :
    QueueStep (stateAt σ log n) c.1 c.2 (apply σ (stateAt σ log n) c.1 c.2).1
      (apply σ (stateAt σ log n) c.1 c.2).2 :=
  (apply_effect σ (stateAt σ log n) c.1 c.2).queueStep (tracked_stateAt σ log n)

end Fluree.NameService
