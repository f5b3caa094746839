import Fluree.Proof.NameService.Tracked

/-!
# Each submission takes effect at most once

Queue ids are handed out in increasing order and an entry leaves its queue once, so an id is
settled once and the entries of one branch are settled in the order they came in (`Numbered`).
A key that is queued or cached is answered from there; it moves from the queue into the cache
when its entry is consumed and leaves the cache by an eviction (`Once`).
-/

namespace Fluree.NameService

open Lib List Option NameServiceState SortUnstable Nat

variable {s s' : NameServiceState} {c : Command} {i : ℕ} {r : Response} {k key : RefKey} {q : ℕ}

section Numbers

/-- The ids of the queues lie below the next one, ascend in each queue and stand in one queue. -/
structure Numbered (s : NameServiceState) : Prop where
  below : ∀ k, ∀ e ∈ s.queue k, e.queueId < s.nextQueueId
  ascending : ∀ k, (s.queue k).Pairwise (fun a b => a.queueId < b.queueId)
  apart : ∀ k k', ∀ e ∈ s.queue k, ∀ e' ∈ s.queue k', e.queueId = e'.queueId → k = k'

lemma numbered_new : Numbered new where
  below := by
    intro k e he
    simp [queue, new] at he
  ascending := fun k => List.Pairwise.nil
  apart := by
    intro k k' e he
    simp [queue, new] at he

def HasRoom (s : NameServiceState) : Prop := s.nextQueueId + 1 < U64_MODULUS

lemma QueueStep.next_of_added (hroom : HasRoom s)
    (hnext : s'.nextQueueId = (s.nextQueueId + 1) % U64_MODULUS) :
    s'.nextQueueId = s.nextQueueId + 1 := by
  rw [hnext, mod_eq_of_lt hroom]

lemma QueueStep.next_le (h : QueueStep s c i s' r) (hroom : HasRoom s) :
    s.nextQueueId ≤ s'.nextQueueId := by
  cases h with
  | added _ _ _ _ _ hnext =>
    rw [next_of_added hroom hnext]
    exact le_succ _
  | kept _ hnext | popped _ _ _ hnext | cleared _ _ hnext | evicted _ _ hnext => exact hnext.ge

lemma QueueStep.mem_queue (h : QueueStep s c i s' r) {e} (he : e ∈ s'.queue k) :
    e ∈ s.queue k ∨ submitted c r = some (k, e.queueId) ∧ e.queueId = s.nextQueueId ∧
      s'.nextQueueId = (s.nextQueueId + 1) % U64_MODULUS := by
  cases h with
  | kept hqueue | evicted _ hqueue => rw [hqueue] at he; exact .inl he
  | added hc hr hknown hfresh hqueue hnext hcache =>
    rw [hqueue] at he
    split at he
    · rename_i hk
      rcases mem_append.1 he with he | he
      · exact .inl he
      · obtain rfl := mem_singleton.1 he
        exact .inr ⟨by rw [hc, hr, hk]; rfl, rfl, hnext⟩
    · exact .inl he
  | popped hpopped hfront hqueue =>
    rw [hqueue] at he
    split at he
    · rename_i hk; rw [hk, hfront]; exact .inl (mem_cons_of_mem _ he)
    · exact .inl he
  | cleared _ hqueue =>
    rw [hqueue] at he
    split at he
    · cases he
    · exact .inl he

/-- **One command keeps the numbering.** -/
lemma Numbered.step (hn : Numbered s) (hroom : HasRoom s) (h : QueueStep s c i s' r) :
    Numbered s' where
  below := by
    intro k e he
    rcases h.mem_queue he with he | ⟨-, he, hnext⟩
    · exact (hn.below k e he).trans_le (h.next_le hroom)
    · rw [QueueStep.next_of_added hroom hnext, he]
      exact lt_succ_self _
  ascending := by
    intro k
    cases h with
    | kept hqueue | evicted _ hqueue => rw [hqueue]; exact hn.ascending k
    | added _ _ _ _ hqueue =>
      rw [hqueue]
      split
      · rw [pairwise_append]
        refine ⟨hn.ascending k, pairwise_singleton _ _, fun a ha b hb => ?_⟩
        obtain rfl := mem_singleton.1 hb
        exact hn.below k a ha
      · exact hn.ascending k
    | popped hpopped hfront hqueue =>
      rw [hqueue]
      split
      · have hall := hn.ascending k
        rename_i hk
        rw [hk, hfront] at hall
        exact (pairwise_cons.1 hall).2
      · exact hn.ascending k
    | cleared _ hqueue =>
      rw [hqueue]
      split
      · exact List.Pairwise.nil
      · exact hn.ascending k
  apart := by
    intro k k' e he e' he' heq
    rcases h.mem_queue he with he | ⟨hk, he, -⟩ <;> rcases h.mem_queue he' with he' | ⟨hk', he', -⟩
    · exact hn.apart k k' e he e' he' heq
    · exact absurd (hn.below k e he) (by omega)
    · exact absurd (hn.below k' e' he') (by omega)
    · rw [hk] at hk'
      exact (Prod.mk.inj (Option.some.inj hk')).1

def Gone (q : ℕ) (s : NameServiceState) : Prop :=
  q < s.nextQueueId ∧ ∀ k, ∀ e ∈ s.queue k, e.queueId ≠ q

lemma Gone.step (h : Gone q s) (hroom : HasRoom s) (hstep : QueueStep s c i s' r) : Gone q s' := by
  refine ⟨h.1.trans_le (hstep.next_le hroom), fun k e he => ?_⟩
  rcases hstep.mem_queue he with he | ⟨-, he, -⟩
  · exact h.2 k e he
  · have := h.1
    omega

def Behind (key : RefKey) (q : ℕ) (s : NameServiceState) : Prop :=
  q < s.nextQueueId ∧ ∀ e ∈ s.queue key, q < e.queueId

lemma Behind.step (h : Behind key q s) (hroom : HasRoom s) (hstep : QueueStep s c i s' r) :
    Behind key q s' := by
  refine ⟨h.1.trans_le (hstep.next_le hroom), fun e he => ?_⟩
  rcases hstep.mem_queue he with he | ⟨-, he, -⟩
  · exact h.2 e he
  · have := h.1
    omega

/-- The ids that a command settles: the one a worker consumed, or those of a cleared queue. -/
def ended (s : NameServiceState) (c : Command) (r : Response) : List ℕ :=
  ((consumed c r).map Prod.snd).toList ++
    ((clears c r).map fun key => (s.queue key).map (·.queueId)).getD []

section

variable (h : QueueStep s c i s' r)
include h

lemma QueueStep.ended_eq :
    ended s c r = [] ∨
      (∃ key front rest, s.queue key = front :: rest ∧ ended s c r = [front.queueId] ∧
        ∀ k, s'.queue k = if k = key then rest else s.queue k) ∨
      ∃ key, ended s c r = (s.queue key).map (·.queueId) ∧
        ∀ k, s'.queue k = if k = key then [] else s.queue k := by
  cases h with
  | kept _ _ _ _ hpopped hcleared => simp [ended, hpopped, hcleared]
  | added hc hr =>
    subst hc hr
    exact .inl rfl
  | popped hpopped hfront hqueue _ _ _ hcleared =>
    exact .inr (.inl ⟨_, _, _, hfront, by simp [ended, hpopped, hcleared], hqueue⟩)
  | cleared hcleared hqueue _ _ _ hpopped =>
    exact .inr (.inr ⟨_, by simp [ended, hpopped, hcleared], hqueue⟩)
  | evicted hc _ _ _ hcleared =>
    subst hc
    exact .inl (by simp [ended, hcleared, consumed])

lemma QueueStep.mem_of_ended (hq : q ∈ ended s c r) : ∃ k, ∃ e ∈ s.queue k, e.queueId = q := by
  rcases h.ended_eq with hnil | ⟨key, front, rest, hfront, hids, -⟩ | ⟨key, hids, -⟩
  · rw [hnil] at hq; cases hq
  · rw [hids, mem_singleton] at hq
    exact ⟨key, front, by rw [hfront]; exact mem_cons_self, hq.symm⟩
  · rw [hids] at hq
    obtain ⟨e, he, rfl⟩ := mem_map.1 hq
    exact ⟨key, e, he, rfl⟩

lemma QueueStep.ended_nodup (hn : Numbered s) : (ended s c r).Nodup := by
  rcases h.ended_eq with hnil | ⟨key, front, rest, hfront, hids, -⟩ | ⟨key, hids, -⟩
  · rw [hnil]; exact nodup_nil
  · rw [hids]; exact nodup_singleton _
  · rw [hids]
    exact pairwise_map.2 ((hn.ascending key).imp fun h => h.ne)

/-- **A settled id is gone.** -/
lemma QueueStep.gone_of_ended (hn : Numbered s) (hroom : HasRoom s)
    (hq : q ∈ ended s c r) : Gone q s' := by
  obtain ⟨k, e, he, rfl⟩ := h.mem_of_ended hq
  refine ⟨(hn.below k e he).trans_le (h.next_le hroom), fun k' e' he' heq => ?_⟩
  rcases h.mem_queue he' with hold | ⟨-, hnew, -⟩
  · obtain rfl := hn.apart k' k e' hold e he heq
    rcases h.ended_eq with hnil | ⟨key, front, rest, hfront, hids, hqueue⟩ | ⟨key, hids, hqueue⟩
    · rw [hnil] at hq; cases hq
    · rw [hids, mem_singleton] at hq
      obtain rfl := hn.apart k' key e he front (by rw [hfront]; exact mem_cons_self) hq
      rw [hqueue, if_pos rfl] at he'
      have hlt := hn.ascending k'
      rw [hfront] at hlt
      have := (pairwise_cons.1 hlt).1 e' he'
      omega
    · rw [hids] at hq
      obtain ⟨e'', he'', heq''⟩ := mem_map.1 hq
      obtain rfl := hn.apart k' key e he e'' he'' heq''.symm
      rw [hqueue, if_pos rfl] at he'
      cases he'
  · exact absurd (hn.below k e he) (by omega)

lemma QueueStep.front_of_consumed (hq : consumed c r = some (key, q)) :
    ∃ front rest envelope, s.queue key = front :: rest ∧ front.queueId = q ∧
      Recorded s.idempotency front s'.idempotency envelope ∧ s'.queue key = rest ∧
      s'.nextQueueId = s.nextQueueId := by
  cases h with
  | kept _ _ _ _ hpopped | cleared _ _ _ _ _ hpopped => rw [hpopped] at hq; cases hq
  | added hc | evicted hc => subst hc; cases hq
  | popped hpopped hfront hqueue hnext hcache =>
    rw [hpopped] at hq
    cases hq
    exact ⟨_, _, _, hfront, rfl, hcache, by rw [hqueue, if_pos rfl], hnext⟩

/-- **The entries behind the consumed one came later.** -/
lemma QueueStep.behind_of_consumed (hn : Numbered s)
    (hq : consumed c r = some (key, q)) : Behind key q s' := by
  obtain ⟨front, rest, -, hfront, rfl, -, hqueue, hnext⟩ := h.front_of_consumed hq
  have hall := hn.ascending key
  rw [hfront] at hall
  refine ⟨?_, fun e he => ?_⟩
  · rw [hnext]
    exact hn.below key _ (by rw [hfront]; exact mem_cons_self)
  · exact (pairwise_cons.1 hall).1 e (hqueue ▸ he)

end

end Numbers

section Keys

variable {id : IdempotencyCacheKey}

/-- A key stands once in a queue, and not in one once its outcome is cached. -/
structure Once (s : NameServiceState) : Prop where
  single : ∀ k, (s.queue k).Pairwise
    (fun a b => ∀ id, a.idempotency = some id → b.idempotency ≠ some id)
  cached : ∀ id o, s.idempotency.lookup id = some o → ∀ k, ∀ e ∈ s.queue k, e.idempotency ≠ some id

lemma once_new : Once new where
  single := fun k => List.Pairwise.nil
  cached := by
    intro id o h
    simp [new] at h

lemma Tracked.known_of_mem (ht : Tracked s) {e} (he : e ∈ s.queue k) : s.isKnown k = true := by
  cases hq : s.queue k with
  | nil => rw [hq] at he; cases he
  | cons => exact ht.known hq

/-- **One command keeps a key in one place.** -/
lemma Once.step (h : Once s) (ht : Tracked s) (ho : Owned s) (hstep : QueueStep s c i s' r) :
    Once s' := by
  cases hstep with
  | kept hqueue _ hcache =>
    refine ⟨fun k => ?_, fun id o hio k e he => ?_⟩
    · rw [hqueue]; exact h.single k
    · rw [hcache] at hio
      rw [hqueue] at he
      exact h.cached id o hio k e he
  | evicted _ hqueue _ hcache =>
    refine ⟨fun k => ?_, fun id o hio k e he => ?_⟩
    · rw [hqueue]; exact h.single k
    · rw [hcache] at hio
      rw [hqueue] at he
      split at hio
      · cases hio
      · exact h.cached id o hio k e he
  | cleared _ hqueue _ hcache =>
    refine ⟨fun k => ?_, fun id o hio k e he => ?_⟩
    · rw [hqueue]
      split
      · exact List.Pairwise.nil
      · exact h.single k
    · rw [hcache] at hio
      rw [hqueue] at he
      split at he
      · cases he
      · exact h.cached id o hio k e he
  | @added args hc hr hknown hfresh hqueue hnext hcache =>
    refine ⟨fun k => ?_, fun id o hio k e he => ?_⟩
    · rw [hqueue]
      split
      · rename_i hk
        rw [pairwise_append]
        refine ⟨h.single k, pairwise_singleton _ _, fun a ha b hb id hid => ?_⟩
        obtain rfl := mem_singleton.1 hb
        exact fun hb => (hfresh id hb).2 a (hk ▸ ha) hid
      · exact h.single k
    · rw [hcache] at hio
      rw [hqueue] at he
      split at he
      · rcases mem_append.1 he with he | he
        · exact h.cached id o hio k e he
        obtain rfl := mem_singleton.1 he
        intro hid
        rw [(hfresh id hid).1] at hio
        cases hio
      · exact h.cached id o hio k e he
  | @popped key front rest envelope hpopped hfront hqueue hnext hcache =>
    have hmem : front ∈ s.queue key := by rw [hfront]; exact mem_cons_self
    have hsingle := h.single key
    rw [hfront] at hsingle
    refine ⟨fun k => ?_, fun id o hio k e he => ?_⟩
    · rw [hqueue]
      split
      · exact (pairwise_cons.1 hsingle).2
      · exact h.single k
    · rw [hqueue] at he
      -- the key is new in the cache: it was the front's, which stood on its own branch only
      rcases hcache.lookup hio with hio | hid
      · split at he
        · exact h.cached id o hio key e (by rw [hfront]; exact mem_cons_of_mem _ he)
        · exact h.cached id o hio k e he
      · split at he
        · exact (pairwise_cons.1 hsingle).1 e he id hid
        rename_i hk
        intro heid
        have hledger := (ho.keys k e he id heid).symm.trans (ho.keys key front hmem id hid)
        exact hk (ho.inj (ht.known_of_mem he) (ht.known_of_mem hmem) hledger)

def Evicts (s : NameServiceState) (c : Command) (s' : NameServiceState) (id : IdempotencyCacheKey) :
    Prop :=
  (∃ cutoff markerCutoff, c = .evictIdempotency cutoff markerCutoff) ∧
    s.idempotency.lookup id ≠ none ∧ s'.idempotency.lookup id = none

lemma QueueStep.cached (h : QueueStep s c i s' r) (hid : s.idempotency.lookup id ≠ none)
    (hevict : ¬ Evicts s c s' id) : s'.idempotency.lookup id ≠ none := by
  cases h with
  | kept _ _ hcache | added _ _ _ _ _ _ hcache | cleared _ _ _ hcache => rw [hcache]; exact hid
  | evicted hc => exact fun hnone => hevict ⟨⟨_, _, hc⟩, hid, hnone⟩
  | popped _ _ _ _ hcache =>
    generalize s'.idempotency = I at hcache ⊢
    cases hcache with
    | keyless => exact hid
    | keyed =>
      rw [KeyedMap.lookup_insert_ite]
      split
      · exact some_ne_none _
      · exact hid

def Held (key : RefKey) (q : ℕ) (id : IdempotencyCacheKey) (s : NameServiceState) : Prop :=
  s.idempotency.lookup id ≠ none ∨ ∃ e ∈ s.queue key, e.queueId = q ∧ e.idempotency = some id

/-- **A key stays held until it is evicted or its entry is cleared.** -/
lemma Held.step (h : Held key q id s) (hstep : QueueStep s c i s' r) (hevict : ¬ Evicts s c s' id)
    (hclear : ∀ k, clears c r = some k → q ∉ (s.queue k).map (·.queueId)) : Held key q id s' := by
  rcases h with h | ⟨e, he, hq, hid⟩
  · exact .inl (hstep.cached h hevict)
  cases hstep with
  | kept hqueue | evicted _ hqueue => exact .inr ⟨e, by rw [hqueue]; exact he, hq, hid⟩
  | added _ _ _ _ hqueue =>
    refine .inr ⟨e, ?_, hq, hid⟩
    rw [hqueue]
    split
    · exact mem_append_left _ he
    · exact he
  | @cleared k hcleared hqueue =>
    refine .inr ⟨e, ?_, hq, hid⟩
    rw [hqueue]
    split
    · rename_i hk
      exact absurd (mem_map.2 ⟨e, hk ▸ he, hq⟩) (hclear k hcleared)
    · exact he
  | @popped k _ _ _ _ hfront hqueue _ hcache =>
    by_cases hk : key = k
    · rw [hk, hfront] at he
      rcases mem_cons.1 he with rfl | he
      · left
        generalize s'.idempotency = I at hcache ⊢
        cases hcache with
        | keyless h => rw [h] at hid; cases hid
        | keyed h =>
          rw [h] at hid
          cases hid
          rw [AList.lookup_insert]
          exact some_ne_none _
      · exact .inr ⟨e, by rw [hqueue, if_pos hk]; exact he, hq, hid⟩
    · exact .inr ⟨e, by rw [hqueue, if_neg hk]; exact he, hq, hid⟩

/-- **A held key is answered and enqueues nothing.** -/
lemma Held.answered {args} (h : Held ⟨args.ledgerId, args.branch⟩ q id s)
    (hknown : s.isKnown ⟨args.ledgerId, args.branch⟩ = true)
    (hret : ⟨args.ledgerId, args.branch⟩ ∉ s.retracted) (hid : args.idempotency = some id) :
    (applyEnqueueCommand s i args).1 = s ∧ (applyEnqueueCommand s i args).2.answersKey = true := by
  cases hanswer : idempotencyAnswer s ⟨args.ledgerId, args.branch⟩ id args.bodyCid with
  | none =>
    obtain ⟨hnone, hqueue⟩ := idempotencyAnswer_eq_none_iff.1 hanswer
    rcases h with h | ⟨e, he, -, heid⟩
    · exact absurd hnone h
    · exact absurd heid (hqueue e he)
  | some answer =>
    have hbind : args.idempotency.bind (fun key =>
        idempotencyAnswer s ⟨args.ledgerId, args.branch⟩ key args.bodyCid) = some answer := by
      rw [hid]; exact hanswer
    unfold applyEnqueueCommand
    rw [if_neg (by simp [hknown]), if_neg hret, hbind]
    exact ⟨rfl, idempotencyAnswer_answersKey hanswer⟩

end Keys

section Runs

variable (σ : SortUnstable) (log : List (Command × ℕ)) (n : ℕ)

def submittedAt : Option (RefKey × ℕ) :=
  log[n]?.bind fun c => submitted c.1 (apply σ (stateAt σ log n) c.1 c.2).2

/-- The entry whose application or poisoning command `n` reported. -/
def consumedAt : Option (RefKey × ℕ) :=
  log[n]?.bind fun c => consumed c.1 (apply σ (stateAt σ log n) c.1 c.2).2

def endedAt : List ℕ :=
  (log[n]?.map fun c => ended (stateAt σ log n) c.1 (apply σ (stateAt σ log n) c.1 c.2).2).getD []

/-- The ids that command `n` cleared from a queue. -/
def clearedAt : List ℕ :=
  ((log[n]?.bind fun c => clears c.1 (apply σ (stateAt σ log n) c.1 c.2).2).map fun key =>
    ((stateAt σ log n).queue key).map (·.queueId)).getD []

def recordedAt : Option IdempotencyCacheKey :=
  (consumedAt σ log n).bind fun p => ((stateAt σ log n).queue p.1).head?.bind (·.idempotency)

def EvictedAt (id : IdempotencyCacheKey) : Prop :=
  ∃ c, log[n]? = some c ∧ Evicts (stateAt σ log n) c.1 (stateAt σ log (n + 1)) id

/-- Every id is handed out and settled at most once, the entries of a branch are applied or
poisoned in the order of their submission, a key is recorded once between two evictions, a key
that was submitted is answered until it is evicted or its pending entry is cleared, and no key
is both cached and queued. -/
structure AtMostOnce : Prop where
  issuedOnce : ∀ n m p p', submittedAt σ log n = some p → submittedAt σ log m = some p' →
    p.2 = p'.2 → n = m
  settledOnce : ∀ n m q, q ∈ endedAt σ log n → q ∈ endedAt σ log m → n = m
  settledSingly : ∀ n, (endedAt σ log n).Nodup
  inOrder : ∀ n m key q q', consumedAt σ log n = some (key, q) →
    consumedAt σ log m = some (key, q') → n < m →
    ∃ a b, submittedAt σ log a = some (key, q) ∧ submittedAt σ log b = some (key, q') ∧
      a < b ∧ a < n ∧ b < m
  recordedOnce : ∀ n m id, recordedAt σ log n = some id → recordedAt σ log m = some id → n < m →
    ∃ j, n < j ∧ j < m ∧ EvictedAt σ log j id
  answered : ∀ n m args args' i i' key q id,
    log[n]? = some (.enqueueCommand args, i) → args.idempotency = some id →
    submittedAt σ log n = some (key, q) →
    log[m]? = some (.enqueueCommand args', i') → args'.idempotency = some id → n < m →
    (stateAt σ log m).isKnown ⟨args'.ledgerId, args'.branch⟩ = true →
    ⟨args'.ledgerId, args'.branch⟩ ∉ (stateAt σ log m).retracted →
    (∀ j, n < j → j < m → ¬ EvictedAt σ log j id ∧ q ∉ clearedAt σ log j) →
    stateAt σ log (m + 1) = stateAt σ log m ∧
      ∃ answer, answerAt σ log m = some answer ∧ answer.answersKey = true
  apart : ∀ n id o, (stateAt σ log n).idempotency.lookup id = some o →
    ∀ k, ∀ e ∈ (stateAt σ log n).queue k, e.idempotency ≠ some id

variable {σ log} {c : Command × ℕ}

lemma le_index (hindex : log.Pairwise fun a b => a.2 < b.2) {n : ℕ}
    (hc : log[n]? = some c) : n ≤ c.2 := by
  induction n generalizing c with
  | zero => exact zero_le _
  | succ n ih =>
    obtain ⟨hlt, rfl⟩ := List.getElem?_eq_some_iff.1 hc
    have hprev := ih (List.getElem?_eq_getElem (lt_of_succ_lt hlt))
    have := pairwise_iff_getElem.1 hindex n (n + 1) (lt_of_succ_lt hlt) hlt (lt_succ_self n)
    omega

lemma nextQueueId_le (σ : SortUnstable) (log : List (Command × ℕ)) (n : ℕ) :
    (stateAt σ log n).nextQueueId ≤ n - 1 := by
  induction n with
  | zero => exact le_refl 0
  | succ n ih =>
    cases hc : log[n]? with
    | none =>
      rw [stateAt, Machine.stateAt_succ_of_none hc]
      exact ih.trans (by omega)
    | some c =>
      rw [stateAt_succ hc]
      have hsame : ∀ x, x = (stateAt σ log n).nextQueueId → x ≤ n + 1 - 1 := by
        intro x hx
        omega
      cases queueStep_stateAt σ log n c with
      | kept _ hnext | popped _ _ _ hnext | cleared _ _ hnext | evicted _ _ hnext =>
        exact hsame _ hnext
      | added _ _ hknown _ _ hnext =>
        have hpos : n ≠ 0 := by
          rintro rfl
          exact absurd hknown Bool.false_ne_true
        rw [hnext]
        exact (mod_le _ _).trans (by omega)

section

variable (hindex : log.Pairwise fun a b => a.2 < b.2) (hu64 : ∀ c ∈ log, c.2 < U64_MODULUS)
include hindex hu64

lemma hasRoom_stateAt {n : ℕ} (hc : log[n]? = some c) : HasRoom (stateAt σ log n) := by
  have h₁ := nextQueueId_le σ log n
  have h₂ := le_index hindex hc
  have h₃ := hu64 c (mem_of_getElem? hc)
  unfold HasRoom
  unfold U64_MODULUS at *
  omega

lemma numbered_stateAt (n : ℕ) : Numbered (stateAt σ log n) :=
  stateAt_invariant Numbered (fun s _ => Tracked s ∧ HasRoom s) numbered_new
    (fun s c i hn hs => hn.step hs.2 ((apply_effect σ s c i).queueStep hs.1))
    (fun n _ hc => ⟨tracked_stateAt σ log n, hasRoom_stateAt hindex hu64 hc⟩) n

lemma persists_numbered (P : NameServiceState → Prop) {n m} (hnm : n < m)
    (hn : P (stateAt σ log (n + 1)))
    (hstep : ∀ s c i s' r, P s → HasRoom s → QueueStep s c i s' r → P s') : P (stateAt σ log m) :=
  stateAt_persists P (show n + 1 ≤ m from hnm) hn fun j _ _ _ hc h =>
    hstep _ _ _ _ _ h (hasRoom_stateAt hindex hu64 hc) (queueStep_stateAt σ log j _)

end

variable {n : ℕ}

lemma submittedAt_spec (h : submittedAt σ log n = some (key, q)) :
    ∃ args i, log[n]? = some (.enqueueCommand args, i) ∧ key = ⟨args.ledgerId, args.branch⟩ ∧
      q = (stateAt σ log n).nextQueueId ∧ (stateAt σ log n).isKnown key = true ∧
      (stateAt σ log (n + 1)).nextQueueId = (q + 1) % U64_MODULUS ∧
      ∃ e ∈ (stateAt σ log (n + 1)).queue key, e.queueId = q ∧ e.idempotency = args.idempotency ∧
        e.requestCid = args.requestCid := by
  obtain ⟨⟨c, i⟩, hc, hsub⟩ := bind_eq_some_iff.1 h
  have hstep := queueStep_stateAt σ log n (c, i)
  rw [← stateAt_succ hc] at hstep
  generalize (apply σ (stateAt σ log n) (c, i).1 (c, i).2).2 = r at hstep hsub
  cases hstep with
  | kept _ _ _ hadded | popped _ _ _ _ _ hadded | cleared _ _ _ _ hadded =>
    cases hadded.symm.trans hsub
  | evicted hc => cases hc; cases hsub
  | added hc' hr hknown _ hqueue hnext =>
    cases hc'
    cases hr
    cases hsub
    refine ⟨_, i, hc, rfl, rfl, hknown, hnext, ?_⟩
    rw [hqueue, if_pos rfl]
    exact ⟨_, mem_append_right _ mem_cons_self, rfl, rfl, rfl⟩

lemma consumedAt_spec (h : consumedAt σ log n = some (key, q)) :
    ∃ c, log[n]? = some c ∧ consumed c.1 (apply σ (stateAt σ log n) c.1 c.2).2 = some (key, q) ∧
      QueueStep (stateAt σ log n) c.1 c.2 (stateAt σ log (n + 1))
        (apply σ (stateAt σ log n) c.1 c.2).2 := by
  obtain ⟨c, hc, hcon⟩ := bind_eq_some_iff.1 h
  exact ⟨c, hc, hcon, by rw [stateAt_succ hc]; exact queueStep_stateAt σ log n c⟩

lemma endedAt_spec (h : q ∈ endedAt σ log n) :
    ∃ c, log[n]? = some c ∧ q ∈ ended (stateAt σ log n) c.1 (apply σ (stateAt σ log n) c.1 c.2).2 ∧
      QueueStep (stateAt σ log n) c.1 c.2 (stateAt σ log (n + 1))
        (apply σ (stateAt σ log n) c.1 c.2).2 := by
  unfold endedAt at h
  cases hc : log[n]? with
  | none => rw [hc] at h; cases h
  | some c =>
    rw [hc] at h
    exact ⟨c, rfl, h, by rw [stateAt_succ hc]; exact queueStep_stateAt σ log n c⟩

lemma recordedAt_spec {id} (h : recordedAt σ log n = some id) :
    (∃ k, ∃ e ∈ (stateAt σ log n).queue k, e.idempotency = some id) ∧
      (stateAt σ log (n + 1)).idempotency.lookup id ≠ none := by
  obtain ⟨⟨key, _⟩, hcon, hkey⟩ := bind_eq_some_iff.1 h
  obtain ⟨_, -, hcon, hstep⟩ := consumedAt_spec hcon
  obtain ⟨front, _, _, hfront, -, hcache, -⟩ := hstep.front_of_consumed hcon
  rw [hfront] at hkey
  refine ⟨⟨key, front, by rw [hfront]; exact mem_cons_self, hkey⟩, ?_⟩
  generalize (stateAt σ log (n + 1)).idempotency = I at hcache ⊢
  cases hcache with
  | keyless h => cases h.symm.trans hkey
  | keyed h =>
    cases h.symm.trans hkey
    rw [AList.lookup_insert]
    exact some_ne_none _

lemma submitted_of_mem {e} (he : e ∈ (stateAt σ log n).queue k) :
    ∃ a < n, submittedAt σ log a = some (k, e.queueId) := by
  induction n with
  | zero => cases he
  | succ n ih =>
    cases hc : log[n]? with
    | none =>
      rw [stateAt, Machine.stateAt_succ_of_none hc] at he
      obtain ⟨a, ha, hsub⟩ := ih he
      exact ⟨a, ha.trans (lt_succ_self n), hsub⟩
    | some c =>
      rw [stateAt_succ hc] at he
      rcases (queueStep_stateAt σ log n c).mem_queue he with he | ⟨hsub, -⟩
      · obtain ⟨a, ha, hsub⟩ := ih he
        exact ⟨a, ha.trans (lt_succ_self n), hsub⟩
      · exact ⟨n, lt_succ_self n, by rw [submittedAt, hc]; exact hsub⟩

lemma submittedAt_lt (hindex : log.Pairwise fun a b => a.2 < b.2)
    (hu64 : ∀ c ∈ log, c.2 < U64_MODULUS) {m q'}
    (hn : submittedAt σ log n = some (key, q)) (hm : submittedAt σ log m = some (k, q'))
    (hnm : n < m) : q < q' := by
  obtain ⟨_, _, hc, -, hq, -, hnext, -⟩ := submittedAt_spec hn
  obtain ⟨-, -, -, -, hq', -⟩ := submittedAt_spec hm
  have hroom := hasRoom_stateAt (σ := σ) hindex hu64 hc
  have hlt : q < (stateAt σ log (n + 1)).nextQueueId := by
    rw [hnext, hq, mod_eq_of_lt hroom]
    exact lt_succ_self _
  rw [hq']
  exact persists_numbered hindex hu64 (fun s => q < s.nextQueueId) hnm hlt
    fun _ _ _ _ _ h hroom hstep => h.trans_le (hstep.next_le hroom)

lemma once_stateAt (hnames : ∀ (n : ℕ) c, log[n]? = some c → NamesBranch c.1)
    (hkeys : ∀ (n : ℕ) c, log[n]? = some c → OwnKey c.1) (n : ℕ) : Once (stateAt σ log n) :=
  stateAt_invariant Once (fun s _ => Tracked s ∧ Owned s) once_new
    (fun s c i h hs => h.step hs.1 hs.2 ((apply_effect σ s c i).queueStep hs.1))
    (fun n _ _ => ⟨tracked_stateAt σ log n, owned_stateAt hnames hkeys n⟩) n

lemma cached_persists {m id} (hnm : n < m)
    (hid : (stateAt σ log (n + 1)).idempotency.lookup id ≠ none)
    (hevict : ∀ j, n < j → j < m → ¬ EvictedAt σ log j id) :
    (stateAt σ log m).idempotency.lookup id ≠ none :=
  stateAt_persists (fun s => s.idempotency.lookup id ≠ none) (show n + 1 ≤ m from hnm) hid
    fun j c hnj hjm hc h => (queueStep_stateAt σ log j c).cached h fun hev =>
      hevict j hnj hjm ⟨c, hc, by rw [stateAt_succ hc]; exact hev⟩

/-- **Each submission takes effect at most once and in order**, whatever commands a run mixes. -/
theorem submissions_at_most_once (σ : SortUnstable) (log : List (Command × ℕ))
    (hindex : log.Pairwise fun a b => a.2 < b.2) (hu64 : ∀ c ∈ log, c.2 < U64_MODULUS)
    (hnames : ∀ (n : ℕ) c, log[n]? = some c → NamesBranch c.1)
    (hkeys : ∀ (n : ℕ) c, log[n]? = some c → OwnKey c.1) : AtMostOnce σ log := by
  have hnumbered := numbered_stateAt (σ := σ) hindex hu64
  have howned : ∀ n, Owned (stateAt σ log n) := owned_stateAt hnames hkeys
  have honce : ∀ n, Once (stateAt σ log n) := once_stateAt hnames hkeys
  have hissued : ∀ n m p p', submittedAt σ log n = some p → submittedAt σ log m = some p' →
      p.2 = p'.2 → n = m := by
    rintro n m ⟨k, q⟩ ⟨_, q'⟩ hn hm heq
    rcases lt_trichotomy n m with h | h | h
    · have := submittedAt_lt hindex hu64 hn hm h
      omega
    · exact h
    · have := submittedAt_lt hindex hu64 hm hn h
      omega
  have hsettled : ∀ n m q, q ∈ endedAt σ log n → q ∈ endedAt σ log m → ¬ n < m := by
    intro n m q hn hm hnm
    obtain ⟨c, hc, hq, hstep⟩ := endedAt_spec hn
    have hgone := hstep.gone_of_ended (hnumbered n) (hasRoom_stateAt hindex hu64 hc) hq
    have hlater := persists_numbered hindex hu64 (Gone q) hnm hgone fun _ _ _ _ _ h => h.step
    obtain ⟨c', -, hq', hstep'⟩ := endedAt_spec hm
    obtain ⟨k, e, he, heq⟩ := hstep'.mem_of_ended hq'
    exact hlater.2 k e he heq
  refine ⟨hissued, fun n m q hn hm => ?_, fun n => ?_, ?_, ?_, ?_, fun n => (honce n).cached⟩
  · have := hsettled n m q hn hm
    have := hsettled m n q hm hn
    omega
  · unfold endedAt
    cases hc : log[n]? with
    | none => exact nodup_nil
    | some c => exact (queueStep_stateAt σ log n c).ended_nodup (hnumbered n)
  · intro n m key q q' hn hm hnm
    obtain ⟨c, hc, hq, hstep⟩ := consumedAt_spec hn
    obtain ⟨c', _, hq', hstep'⟩ := consumedAt_spec hm
    obtain ⟨front, _, -, hfront, rfl, -⟩ := hstep.front_of_consumed hq
    obtain ⟨front', _, -, hfront', rfl, -⟩ := hstep'.front_of_consumed hq'
    have hmem' : front' ∈ (stateAt σ log m).queue key := by rw [hfront']; exact mem_cons_self
    have hbehind := persists_numbered hindex hu64 (Behind key front.queueId) hnm
      (hstep.behind_of_consumed (hnumbered n) hq) fun _ _ _ _ _ h => h.step
    have hlt := hbehind.2 front' hmem'
    obtain ⟨a, han, ha⟩ := submitted_of_mem (σ := σ) (k := key) (e := front)
      (by rw [hfront]; exact mem_cons_self)
    obtain ⟨b, hbm, hb⟩ := submitted_of_mem hmem'
    refine ⟨a, b, ha, hb, ?_, han, hbm⟩
    rcases lt_trichotomy a b with h | h | h
    · exact h
    · subst h
      have := congrArg Prod.snd (Option.some.inj (ha.symm.trans hb))
      exact absurd this hlt.ne
    · have := submittedAt_lt hindex hu64 hb ha h
      omega
  · intro n m id hn hm hnm
    by_contra hevict
    push Not at hevict
    have hcached := cached_persists hnm (recordedAt_spec hn).2 fun j hnj hjm => hevict j hnj hjm
    obtain ⟨k, e, he, hid⟩ := (recordedAt_spec hm).1
    obtain ⟨o, ho⟩ := ne_none_iff_exists'.1 hcached
    exact (honce m).cached id o ho k e he hid
  · intro n m args args' i i' key q id hn hid hsub hm hid' hnm hknown hret hquiet
    obtain ⟨_, _, hn₀, rfl, -, hknown₀, -, e, he, heq, heid, -⟩ := submittedAt_spec hsub
    cases hn.symm.trans hn₀
    have hheld : Held ⟨args.ledgerId, args.branch⟩ q id (stateAt σ log m) := by
      refine stateAt_persists (Held _ q id) (show n + 1 ≤ m from hnm)
        (.inr ⟨e, he, heq, heid.trans hid⟩) fun j c hnj hjm hc h => ?_
      obtain ⟨hevict, hclear⟩ := hquiet j hnj hjm
      refine h.step (queueStep_stateAt σ log j c) (fun hev => ?_) fun k hk => ?_
      · exact hevict ⟨c, hc, by rw [stateAt_succ hc]; exact hev⟩
      · simpa [clearedAt, hc, hk] using hclear
    -- both submissions carry the id of their branch, so they name one branch
    have hsame : (⟨args.ledgerId, args.branch⟩ : RefKey) = ⟨args'.ledgerId, args'.branch⟩ := by
      refine ledgerId_inj ((howned n).names _ hknown₀) ((howned m).names _ hknown) ?_
      exact (hkeys n _ hn id hid).symm.trans (hkeys m _ hm id hid')
    rw [hsame] at hheld
    obtain ⟨hstate, hanswer⟩ := hheld.answered (i := i') hknown hret hid'
    exact ⟨by rw [stateAt_succ hm]; exact hstate, _, answerAt_eq hm, hanswer⟩

/-- A submission is applied, submitted again and evicted. -/
theorem submissions_at_most_once_resubmitted : AtMostOnce insertion
      [(.createLedger ⟨"db", "main", 0⟩, 1),
        (.enqueueCommand ⟨"db", "main", some ⟨"db:main", "k"⟩, ⟨1⟩, ⟨2⟩, .jsonLdInsert, 0⟩, 2),
        (.applyHead ⟨"db", "main", 0, ⟨3⟩, 1, 0, none, 0⟩, 3),
        (.enqueueCommand ⟨"db", "main", some ⟨"db:main", "k"⟩, ⟨1⟩, ⟨2⟩, .jsonLdInsert, 0⟩, 5),
        (.evictIdempotency 9 9, 6)] := by
  refine submissions_at_most_once insertion _ ?_ ?_ ?_ ?_
  · simp
  · simp [U64_MODULUS]
  · intro n c h
    rcases n with _ | _ | _ | _ | _ | n <;> cases h <;> first | trivial | (change _ ∉ _; decide)
  · intro n c h
    rcases n with _ | _ | _ | _ | _ | n <;> cases h <;> first | trivial | (rintro _ ⟨⟩; decide)

/-- Two branches that share the ledger id `a:b:c`, and one key submitted on both. -/
def sharedIdLog : List (Command × ℕ) :=
  [(.createLedger ⟨"a", "b:c", 0⟩, 1), (.createLedger ⟨"a:b", "c", 0⟩, 2),
    (.enqueueCommand ⟨"a", "b:c", some ⟨"a:b:c", "k"⟩, ⟨1⟩, ⟨2⟩, .jsonLdInsert, 0⟩, 3),
    (.enqueueCommand ⟨"a:b", "c", some ⟨"a:b:c", "k"⟩, ⟨1⟩, ⟨2⟩, .jsonLdInsert, 0⟩, 4),
    (.applyHead ⟨"a", "b:c", 0, ⟨3⟩, 1, 0, none, 0⟩, 5)]

/-- **A colon in a branch name lets a key be cached and queued at once**, although every key
carries the id of its branch. -/
theorem shared_id_cached_and_queued : sharedIdLog.Pairwise (fun a b => a.2 < b.2) ∧
    (∀ c ∈ sharedIdLog, OwnKey c.1) ∧ ¬ AtMostOnce insertion sharedIdLog := by
  refine ⟨by simp [sharedIdLog], ?_, ?_⟩
  · intro c hc
    simp only [sharedIdLog, mem_cons, not_mem_nil, or_false] at hc
    rcases hc with rfl | rfl | rfl | rfl | rfl <;> first | trivial | (rintro _ ⟨⟩; decide)
  · intro h
    obtain ⟨o, ho⟩ : ∃ o, (stateAt insertion sharedIdLog 5).idempotency.lookup ⟨"a:b:c", "k"⟩ =
        some o := Option.isSome_iff_exists.1 (by decide)
    obtain ⟨e, he, hkey⟩ : ∃ e ∈ (stateAt insertion sharedIdLog 5).queue ⟨"a:b", "c"⟩,
        e.idempotency = some ⟨"a:b:c", "k"⟩ := by decide
    exact h.apart 5 _ o ho _ e he hkey

end Runs

end Fluree.NameService
