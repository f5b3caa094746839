import Fluree.Proof.NameService.Submissions

/-!
# Request envelopes

A queue entry and a cached outcome refer to the envelope of their request. As long as no
submission shares its envelope with another of the same ledger, there is one reference to each
(`UniqueRefs`), and the answer that reports an envelope as released takes the last one away.
-/

namespace Fluree.NameService

open Lib List NameServiceState SortUnstable

variable {s s' : NameServiceState} {c : Command} {i : ℕ} {r : Response} {k key : RefKey}
  {ledger : String} {cid : ContentId}

/-- A queue entry or a cached outcome of the ledger refers to the envelope. -/
def Refers (s : NameServiceState) (ledger : String) (cid : ContentId) : Prop :=
  (∃ k : RefKey, k.ledgerId = ledger ∧ ∃ e ∈ s.queue k, e.requestCid = cid) ∨
    ∃ (id : IdempotencyCacheKey) (o : ApplyOutcome),
      id.ledgerId = ledger ∧ s.idempotency.lookup id = some o ∧ o.requestCid = cid

/-- A submission whose key is neither cached nor queued brings an envelope that its ledger does
not refer to. -/
def FreshEnvelope (s : NameServiceState) : Command → Prop
  | .enqueueCommand args =>
    (∃ id, args.idempotency = some id ∧ (s.idempotency.lookup id ≠ none ∨
      ∃ e ∈ s.queue ⟨args.ledgerId, args.branch⟩, e.idempotency = some id)) ∨
    ¬ Refers s (formatLedgerId args.ledgerId args.branch) args.requestCid
  | _ => True

/-- **A reference is kept, or its envelope is reported as released.** -/
lemma QueueStep.refers (h : QueueStep s c i s' r) (ho : Owned s) (honce : Once s)
    (href : Refers s ledger cid) : Refers s' ledger cid ∨ (ledger, cid) ∈ r.released := by
  cases h with
  | kept hqueue _ hcache =>
    left
    rcases href with ⟨k, hk, e, he, hcid⟩ | ⟨id, o, hid, hio, hcid⟩
    · exact .inl ⟨k, hk, e, by rw [hqueue]; exact he, hcid⟩
    · exact .inr ⟨id, o, hid, by rw [hcache]; exact hio, hcid⟩
  | added _ _ _ _ hqueue _ hcache =>
    left
    rcases href with ⟨k, hk, e, he, hcid⟩ | ⟨id, o, hid, hio, hcid⟩
    · refine .inl ⟨k, hk, e, ?_, hcid⟩
      rw [hqueue]
      split
      · exact mem_append_left _ he
      · exact he
    · exact .inr ⟨id, o, hid, by rw [hcache]; exact hio, hcid⟩
  | @cleared key _ hqueue _ hcache _ _ hreleased =>
    rcases href with ⟨k, rfl, e, he, hcid⟩ | ⟨id, o, hid, hio, hcid⟩
    · by_cases hk : k = key
      · right
        rw [hreleased, envelopes, ← hk, ← hcid]
        exact mem_map_of_mem he
      · exact .inl (.inl ⟨k, rfl, e, by rw [hqueue, if_neg hk]; exact he, hcid⟩)
    · exact .inl (.inr ⟨id, o, hid, by rw [hcache]; exact hio, hcid⟩)
  | @evicted _ _ keys _ hqueue _ hcache _ hreleased =>
    rcases href with ⟨k, hk, e, he, hcid⟩ | ⟨id, o, rfl, hio, rfl⟩
    · exact .inl (.inl ⟨k, hk, e, by rw [hqueue]; exact he, hcid⟩)
    by_cases hid : id ∈ keys
    · exact .inr ((hreleased _).2 ⟨id, o, hid, hio, rfl⟩)
    · exact .inl (.inr ⟨id, o, rfl, by rw [hcache, if_neg hid]; exact hio, rfl⟩)
  | @popped key front _ _ _ hfront hqueue _ hcache _ _ hreleased =>
    have hmem : front ∈ s.queue key := by rw [hfront]; exact mem_cons_self
    -- every reference but the front's is still there
    have hother : (∃ k : RefKey, k.ledgerId = ledger ∧ ∃ e ∈ s'.queue k, e.requestCid = cid) ∨
        ledger = key.ledgerId ∧ front.requestCid = cid ∨
        ∃ (id : IdempotencyCacheKey) (o : ApplyOutcome),
          id.ledgerId = ledger ∧ s.idempotency.lookup id = some o ∧ o.requestCid = cid := by
      rcases href with ⟨k, hk, e, he, hcid⟩ | hcached
      · by_cases hkey : k = key
        · rw [hkey, hfront] at he
          rcases mem_cons.1 he with rfl | he
          · exact .inr (.inl ⟨by rw [← hk, hkey], hcid⟩)
          · exact .inl ⟨k, hk, e, by rw [hqueue, if_pos hkey]; exact he, hcid⟩
        · exact .inl ⟨k, hk, e, by rw [hqueue, if_neg hkey]; exact he, hcid⟩
      · exact .inr (.inr hcached)
    rcases hother with hqueued | hrest
    · exact .inl (.inl hqueued)
    generalize hI : s'.idempotency = I at hcache
    cases hcache with
    | keyless =>
      rcases hrest with ⟨rfl, rfl⟩ | ⟨id, o, hid, hio, hcid⟩
      · exact .inr (by rw [hreleased]; exact mem_singleton_self _)
      · exact .inl (.inr ⟨id, o, hid, by rw [hI]; exact hio, hcid⟩)
    | @keyed id₀ outcome hkey hcid₀ =>
      left
      right
      rcases hrest with ⟨rfl, rfl⟩ | ⟨id, o, hid, hio, hcid⟩
      · refine ⟨id₀, outcome, ho.keys key front hmem id₀ hkey, ?_, hcid₀⟩
        rw [hI, AList.lookup_insert]
      · have hne : id ≠ id₀ := by
          rintro rfl
          exact honce.cached id o hio key front hmem hkey
        exact ⟨id, o, hid, by rw [hI, AList.lookup_insert_ne hne]; exact hio, hcid⟩

/-- One reference to each envelope of a ledger. -/
structure UniqueRefs (s : NameServiceState) : Prop where
  queued : ∀ k, (s.queue k).Pairwise (fun a b => a.requestCid ≠ b.requestCid)
  cached : ∀ id id' o o', s.idempotency.lookup id = some o → s.idempotency.lookup id' = some o' →
    id.ledgerId = id'.ledgerId → o.requestCid = o'.requestCid → id = id'
  across : ∀ id o k, s.idempotency.lookup id = some o → id.ledgerId = k.ledgerId →
    ∀ e ∈ s.queue k, e.requestCid ≠ o.requestCid

lemma uniqueRefs_new : UniqueRefs new where
  queued := fun k => List.Pairwise.nil
  cached := by
    intro id id' o o' h
    simp [new] at h
  across := by
    intro id o k h
    simp [new] at h

lemma UniqueRefs.mono (h : UniqueRefs s) (hqueue : ∀ k, (s'.queue k).Sublist (s.queue k))
    (hcache : ∀ id o, s'.idempotency.lookup id = some o → s.idempotency.lookup id = some o) :
    UniqueRefs s' where
  queued := fun k => (h.queued k).sublist (hqueue k)
  cached := fun id id' o o' ho ho' => h.cached id id' o o' (hcache id o ho) (hcache id' o' ho')
  across := fun id o k ho hid e he => h.across id o k (hcache id o ho) hid e ((hqueue k).subset he)

/-- **One command keeps the references apart.** -/
lemma UniqueRefs.step (h : UniqueRefs s) (ht : Tracked s) (ho : Owned s)
    (hfresh : FreshEnvelope s c) (hstep : QueueStep s c i s' r) : UniqueRefs s' := by
  cases hstep with
  | kept hqueue _ hcache =>
    refine h.mono (fun k => by rw [hqueue]) fun id o hio => ?_
    rw [hcache] at hio
    exact hio
  | cleared _ hqueue _ hcache =>
    refine h.mono (fun k => ?_) fun id o hio => ?_
    · rw [hqueue]
      split
      · exact nil_sublist _
      · exact List.Sublist.refl _
    · rw [hcache] at hio
      exact hio
  | evicted _ hqueue _ hcache =>
    refine h.mono (fun k => by rw [hqueue]) fun id o hio => ?_
    rw [hcache] at hio
    split at hio
    · cases hio
    · exact hio
  | @added args hc hr hknown hkeyfresh hqueue hnext hcache =>
    subst hc
    have hnew : ¬ Refers s (RefKey.ledgerId ⟨args.ledgerId, args.branch⟩) args.requestCid := by
      rcases hfresh with ⟨id, hid, hcached | ⟨e, he, heid⟩⟩ | hnew
      · exact absurd (hkeyfresh id hid).1 hcached
      · exact absurd heid ((hkeyfresh id hid).2 e he)
      · exact hnew
    refine ⟨fun k => ?_, fun id id' o o' => ?_, fun id o k hio hid e he => ?_⟩
    · rw [hqueue]
      split
      · rename_i hk
        rw [pairwise_append]
        refine ⟨h.queued k, pairwise_singleton _ _, fun a ha b hb heq => ?_⟩
        obtain rfl := mem_singleton.1 hb
        exact hnew (.inl ⟨k, by rw [hk], a, ha, heq⟩)
      · exact h.queued k
    · rw [hcache]
      exact h.cached id id' o o'
    · rw [hcache] at hio
      rw [hqueue] at he
      split at he
      · rename_i hk
        rcases mem_append.1 he with he | he
        · exact h.across id o k hio hid e he
        · obtain rfl := mem_singleton.1 he
          exact fun heq => hnew (.inr ⟨id, o, by rw [hid, hk], hio, heq.symm⟩)
      · exact h.across id o k hio hid e he
  | @popped key front rest envelope hpopped hfront hqueue hnext hcache hadded hcleared hreleased =>
    have hmem : front ∈ s.queue key := by rw [hfront]; exact mem_cons_self
    have hsub : ∀ k, (s'.queue k).Sublist (s.queue k) := by
      intro k
      rw [hqueue]
      split
      · rename_i hk
        rw [hk, hfront]
        exact sublist_cons_self _ _
      · exact List.Sublist.refl _
    generalize hI : s'.idempotency = I at hcache
    cases hcache with
    | keyless =>
      refine h.mono hsub fun id o hio => ?_
      rw [hI] at hio
      exact hio
    | @keyed id₀ outcome hkey hcid₀ =>
      have hledger := ho.keys key front hmem id₀ hkey
      have hlookup : ∀ {id o}, s'.idempotency.lookup id = some o →
          id = id₀ ∧ o.requestCid = front.requestCid ∨ s.idempotency.lookup id = some o := by
        intro id o hio
        rw [hI] at hio
        rcases KeyedMap.lookup_insert_some hio with ⟨hid, rfl⟩ | ⟨-, hio⟩
        · exact .inl ⟨hid, hcid₀⟩
        · exact .inr hio
      refine ⟨fun k => (h.queued k).sublist (hsub k), fun id id' o o' hio hio' hid hcid => ?_,
        fun id o k hio hid e he => ?_⟩
      · rcases hlookup hio with ⟨rfl, hfc⟩ | hio <;> rcases hlookup hio' with ⟨rfl, hfc'⟩ | hio'
        · rfl
        · exact absurd (hfc.symm.trans hcid) (h.across id' o' key hio' (hid.symm.trans hledger) front hmem)
        · exact absurd (hfc'.symm.trans hcid.symm) (h.across id o key hio (hid.trans hledger) front hmem)
        · exact h.cached id id' o o' hio hio' hid hcid
      · rcases hlookup hio with ⟨rfl, hfc⟩ | hio
        · have hold := (hsub k).subset he
          obtain rfl : k = key := ho.inj (ht.known_of_mem hold) (ht.known_of_mem hmem)
            (hid.symm.trans hledger)
          rw [hqueue, if_pos rfl] at he
          have hall := h.queued k
          rw [hfront] at hall
          rw [hfc]
          exact ((pairwise_cons.1 hall).1 e he).symm
        · exact h.across id o k hio hid e ((hsub k).subset he)

/-- **A released envelope has no reference left.** -/
lemma UniqueRefs.released (h : UniqueRefs s) (ht : Tracked s) (ho : Owned s)
    (hstep : QueueStep s c i s' r) (hp : (ledger, cid) ∈ r.released) : ¬ Refers s' ledger cid := by
  cases hstep with
  | kept _ _ _ _ _ _ hreleased =>
    rw [hreleased] at hp
    cases hp
  | added _ hr =>
    rw [hr] at hp
    cases hp
  | @cleared key hcleared hqueue hnext hcache hadded hpopped hreleased =>
    rw [hreleased] at hp
    obtain ⟨e₀, he₀, heq⟩ := mem_map.1 hp
    cases heq
    rintro (⟨k, hk, e, he, hcid⟩ | ⟨id, o, hid, hio, hcid⟩)
    · rw [hqueue] at he
      split at he
      · cases he
      · rename_i hne
        exact hne (ho.inj (ht.known_of_mem he) (ht.known_of_mem he₀) hk)
    · rw [hcache] at hio
      exact h.across id o key hio hid e₀ he₀ hcid.symm
  | @evicted cutoff markerCutoff keys hc hqueue hnext hcache hcleared hreleased =>
    obtain ⟨id₀, o₀, hmem, hio₀, heq⟩ := (hreleased _).1 hp
    cases heq
    rintro (⟨k, hk, e, he, hcid⟩ | ⟨id, o, hid, hio, hcid⟩)
    · rw [hqueue] at he
      exact h.across id₀ o₀ k hio₀ hk.symm e he hcid
    · rw [hcache] at hio
      split at hio
      · cases hio
      · rename_i hout
        exact hout (h.cached id id₀ o o₀ hio hio₀ hid hcid ▸ hmem)
  | @popped key front rest envelope hpopped hfront hqueue hnext hcache hadded hcleared hreleased =>
    have hmem : front ∈ s.queue key := by rw [hfront]; exact mem_cons_self
    rw [hreleased] at hp
    generalize hI : s'.idempotency = I at hcache
    cases hcache with
    | keyed => cases hp
    | keyless hkey =>
      obtain heq := mem_singleton.1 hp
      cases heq
      rintro (⟨k, hk, e, he, hcid⟩ | ⟨id, o, hid, hio, hcid⟩)
      · rw [hqueue] at he
        split at he
        · have hall := h.queued key
          rw [hfront] at hall
          exact (pairwise_cons.1 hall).1 e he hcid.symm
        · rename_i hne
          exact hne (ho.inj (ht.known_of_mem he) (ht.known_of_mem hmem) hk)
      · rw [hI] at hio
        exact h.across id o key hio hid front hmem hcid.symm

section Runs

variable (σ : SortUnstable) (log : List (Command × ℕ))

/-- The envelopes that the answer to command `n` reports as released. -/
def releasedAt (n : ℕ) : List (String × ContentId) :=
  ((answerAt σ log n).map Response.released).getD []

/-- A released envelope is referred to by nothing, and an envelope that was enqueued is referred
to or was released when its last reference went away. -/
structure EnvelopesConserved : Prop where
  safe : ∀ n p, p ∈ releasedAt σ log n → ¬ Refers (stateAt σ log (n + 1)) p.1 p.2
  kept : ∀ n m args i key q, log[n]? = some (.enqueueCommand args, i) →
    submittedAt σ log n = some (key, q) → n < m →
    Refers (stateAt σ log m) key.ledgerId args.requestCid ∨
      ∃ j, n < j ∧ j < m ∧ (key.ledgerId, args.requestCid) ∈ releasedAt σ log j ∧
        ∀ l, j < l → l ≤ m → ¬ Refers (stateAt σ log l) key.ledgerId args.requestCid

variable {σ log}

lemma releasedAt_eq {n c} (hc : log[n]? = some c) :
    releasedAt σ log n = (apply σ (stateAt σ log n) c.1 c.2).2.released := by
  rw [releasedAt, answerAt_eq hc]
  rfl

lemma refers_of_submitted
    (hc : log[n]? = some (.enqueueCommand args, i)) (hsub : submittedAt σ log n = some (key, q)) :
    Refers (stateAt σ log (n + 1)) key.ledgerId args.requestCid := by
  obtain ⟨_, _, hc', rfl, -, -, -, e, he, -, -, hcid⟩ := submittedAt_spec hsub
  cases hc.symm.trans hc'
  exact .inl ⟨_, rfl, e, he, hcid⟩

/-- **Envelopes are neither leaked nor released while in use**, in every run whose submissions
bring envelopes that nothing refers to. -/
theorem envelopes_conserved (σ : SortUnstable) (log : List (Command × ℕ))
    (hnames : ∀ (n : ℕ) c, log[n]? = some c → NamesBranch c.1)
    (hkeys : ∀ (n : ℕ) c, log[n]? = some c → OwnKey c.1)
    (hfresh : ∀ n c, log[n]? = some c → FreshEnvelope (stateAt σ log n) c.1) :
    EnvelopesConserved σ log := by
  have howned : ∀ n, Owned (stateAt σ log n) := owned_stateAt hnames hkeys
  have hunique : ∀ n, UniqueRefs (stateAt σ log n) :=
    stateAt_invariant UniqueRefs (fun s c => Tracked s ∧ Owned s ∧ FreshEnvelope s c) uniqueRefs_new
      (fun s c i h hs => h.step hs.1 hs.2.1 hs.2.2 ((apply_effect σ s c i).queueStep hs.1))
      (fun n c hc => ⟨tracked_stateAt σ log n, howned n, hfresh n c hc⟩)
  refine ⟨fun n p hp => ?_, fun n m args i key q hc hsub hnm => ?_⟩
  · cases hc : log[n]? with
    | none => simp [releasedAt, answerAt, hc] at hp
    | some c =>
      rw [releasedAt_eq hc] at hp
      rw [stateAt_succ hc]
      exact (hunique n).released (tracked_stateAt σ log n) (howned n) (queueStep_stateAt σ log n c) hp
  · by_cases hm : Refers (stateAt σ log m) key.ledgerId args.requestCid
    · exact .inl hm
    right
    obtain ⟨j, hnj, hjm, hj, hlast⟩ := Machine.exists_last
      (P := fun l => Refers (stateAt σ log l) key.ledgerId args.requestCid)
      (show n + 1 ≤ m from hnm) (refers_of_submitted hc hsub) hm
    refine ⟨j, hnj, hjm, ?_, hlast⟩
    have hgone := hlast (j + 1) (Nat.lt_succ_self j) hjm
    cases hcj : log[j]? with
    | none =>
      rw [stateAt, Machine.stateAt_succ_of_none hcj] at hgone
      exact absurd hj hgone
    | some c =>
      rw [stateAt_succ hcj] at hgone
      rw [releasedAt_eq hcj]
      exact ((queueStep_stateAt σ log j c).refers (howned j) (once_stateAt hnames hkeys j) hj).resolve_left
        hgone

def distinctLog : List (Command × ℕ) :=
  [(.createLedger ⟨"db", "main", 0⟩, 1),
    (.enqueueCommand ⟨"db", "main", some ⟨"db:main", "k"⟩, ⟨1⟩, ⟨2⟩, .jsonLdInsert, 0⟩, 2),
    (.enqueueCommand ⟨"db", "main", none, ⟨4⟩, ⟨2⟩, .jsonLdInsert, 0⟩, 3),
    (.retractLedger "db" "main" 0, 4)]

/-- Two submissions with envelopes of their own, one with a key. -/
theorem envelopes_conserved_distinct : EnvelopesConserved insertion distinctLog := by
  refine envelopes_conserved insertion _ ?_ ?_ ?_
  · intro n c h
    rcases n with _ | _ | _ | _ | n <;> cases h <;> first | trivial | (change _ ∉ _; decide)
  · intro n c h
    rcases n with _ | _ | _ | _ | n <;> cases h <;> first | trivial | (rintro _ ⟨⟩ <;> decide)
  · intro n c h
    rcases n with _ | _ | _ | _ | n <;> cases h
    · trivial
    · right
      rintro (⟨k, -, e, he, -⟩ | ⟨id, o, -, hio, -⟩)
      · cases he
      · cases hio
    · right
      rintro (⟨k, -, e, he, hcid⟩ | ⟨id, o, -, hio, -⟩)
      · have hqueues : (stateAt insertion distinctLog 2).queues =
            AList.insert (β := fun _ => List QueueEntry) ⟨"db", "main"⟩
              [⟨0, 2, 0, some ⟨"db:main", "k"⟩, ⟨1⟩, ⟨2⟩, .jsonLdInsert⟩] ∅ :=
          AList.ext (by decide)
        rw [queue, hqueues, KeyedMap.lookup_insert_ite] at he
        split at he
        · obtain rfl := mem_singleton.1 he
          exact absurd hcid (by decide)
        · cases he
      · cases hio
    · trivial

/-- Two keyless submissions of one request: the first is applied and its envelope released while
the second is still queued. -/
theorem shared_envelope_released : ¬ EnvelopesConserved insertion
      [(.createLedger ⟨"db", "main", 0⟩, 1),
        (.enqueueCommand ⟨"db", "main", none, ⟨1⟩, ⟨2⟩, .jsonLdInsert, 0⟩, 2),
        (.enqueueCommand ⟨"db", "main", none, ⟨1⟩, ⟨2⟩, .jsonLdInsert, 0⟩, 3),
        (.applyHead ⟨"db", "main", 0, ⟨3⟩, 1, 0, none, 0⟩, 4)] := by
  intro h
  refine h.safe 3 ("db:main", ⟨1⟩) (by decide) (.inl ⟨⟨"db", "main"⟩, by decide, ?_⟩)
  exact ⟨⟨1, 3, 0, none, ⟨1⟩, ⟨2⟩, .jsonLdInsert⟩, by decide, rfl⟩

end Runs

end Fluree.NameService
