import Fluree.Proof.Raft.Kv

/-!
# Sweeps are invisible and versions fence

An expired record is absent for every decision, so it does not matter whether a sweep has already
dropped it. `SameLive t f g` says that two fragments show the same records at `t` and after; a
sweep of either keeps it, and a command that both take answers alike (`SameLive.step`), unless a
quota, which counts what is physically held, refuses it.
-/

namespace Fluree.Raft.Kv

open Lib KvFragment List Option Machine

variable {f g f' : KvFragment} {key k : String} {record : KvRecord} {now now' t i v : ℕ}
  {c : KvCommand} {policy : KvPolicy}

/-! ## What is live -/

lemma expiredAt_mono (h : now ≤ now') (hexp : record.expiredAt now = true) :
    record.expiredAt now' = true := by
  unfold KvRecord.expiredAt at hexp ⊢
  cases hat : record.expiresAtMs with
  | none => rw [hat] at hexp; cases hexp
  | some =>
    rw [hat] at hexp
    simp only [any_some, decide_eq_true_eq] at hexp ⊢
    omega

lemma live_take (f : KvFragment) (key k : String) (now : ℕ) :
    (f.take key).1.live k now = if k = key then none else f.live k now := by
  unfold live
  rw [get?_take]
  split <;> rfl

lemma live_insert (f : KvFragment) (key k : String) (record : KvRecord) (now : ℕ) :
    (f.insert key record).live k now =
      if k = key then (some record).filter (fun r => !r.expiredAt now) else f.live k now := by
  unfold live
  rw [get?_insert]
  split <;> rfl

/-- **Reclaiming changes nothing that is live at the time or later.** -/
lemma live_reclaimIfExpired (f : KvFragment) (key k : String) (h : now ≤ now') :
    (f.reclaimIfExpired key now).live k now' = f.live k now' := by
  unfold live
  rw [get?_reclaimIfExpired]
  split
  · rename_i hk
    subst hk
    unfold live
    cases f.entries.get? k with
    | none => rfl
    | some record =>
      by_cases hexp : record.expiredAt now = true
      · simp [filter_some, hexp, expiredAt_mono h hexp]
      · simp [filter_some, hexp]
  · rfl

/-! ## The floor -/

lemma timeFloor_take (f : KvFragment) (key : String) : (f.take key).1.timeFloor = f.timeFloor := by
  unfold KvFragment.take
  split <;> rfl

lemma timeFloor_reclaimIfExpired (h : f.timeFloor ≤ now) :
    (f.reclaimIfExpired key now).timeFloor ≤ now := by
  unfold reclaimIfExpired
  split
  · change max (f.take key).1.timeFloor now ≤ now
    rw [timeFloor_take]
    omega
  · exact h

lemma atInstant_eq (h : f.timeFloor ≤ now) : f.atInstant now = now := max_eq_left h

lemma timeFloor_store (f : KvFragment) (key : String) (record : KvRecord) (policy : KvPolicy) :
    (store f key record policy).1.timeFloor = f.timeFloor := by
  unfold store
  dsimp only
  split
  · rfl
  split
  · rfl
  · exact timeFloor_take f key

lemma timeFloor_foldl_evictKey (keys : List String) (acc : KvFragment × ℕ) :
    (keys.foldl evictKey acc).1.timeFloor = acc.1.timeFloor := by
  induction keys generalizing acc with
  | nil => rfl
  | cons key _ ih => exact (ih (evictKey acc key)).trans (timeFloor_take acc.1 key)

lemma timeFloor_evict (f : KvFragment) (cutoffMs limit : ℕ) :
    (evict f cutoffMs limit).1.timeFloor ≤ f.atInstant cutoffMs := by
  have hswept : ∀ keys : List String, (keys.foldl evictKey (f, 0)).1.timeFloor = f.timeFloor :=
    fun keys => timeFloor_foldl_evictKey keys (f, 0)
  have hfloor : f.timeFloor ≤ f.atInstant cutoffMs := le_max_right _ _
  unfold evict
  dsimp only
  split
  · change max (List.foldl evictKey (f, 0) _).1.timeFloor (f.atInstant cutoffMs) ≤ _
    rw [hswept]
    omega
  · rw [hswept]
    exact hfloor

/-! ## Other keys -/

lemma get?_foldl_evictKey_or (keys : List String) (acc : KvFragment × ℕ) (k : String) :
    (keys.foldl evictKey acc).1.entries.get? k = acc.1.entries.get? k ∨
      (keys.foldl evictKey acc).1.entries.get? k = none := by
  induction keys generalizing acc with
  | nil => exact .inl rfl
  | cons key _ ih =>
    rcases ih (evictKey acc key) with h | h
    · rw [foldl_cons, h]
      change (acc.1.take key).1.entries.get? k = _ ∨ (acc.1.take key).1.entries.get? k = _
      rw [get?_take]
      split
      · exact .inr rfl
      · exact .inl rfl
    · exact .inr h

lemma get?_evict (f : KvFragment) (cutoffMs limit : ℕ) (k : String) :
    (evict f cutoffMs limit).1.entries.get? k = f.entries.get? k ∨
      (evict f cutoffMs limit).1.entries.get? k = none := by
  unfold evict
  dsimp only
  split <;> exact get?_foldl_evictKey_or _ (f, 0) k

lemma apply_other (f : KvFragment) (c : KvCommand) (policy : KvPolicy) (i : ℕ)
    (hk : c.key? ≠ some k) : (apply f c policy i).1.entries.get? k = f.entries.get? k ∨
      (apply f c policy i).1.entries.get? k = none := by
  have hne : ∀ key, some key = c.key? → k ≠ key := by
    rintro key hkey rfl
    exact hk hkey.symm
  have hreclaim : ∀ key now, some key = c.key? →
      (f.reclaimIfExpired key now).entries.get? k = f.entries.get? k := fun key now hkey => by
    rw [get?_reclaimIfExpired, if_neg (hne key hkey)]
  cases c with
  | put key =>
    unfold apply put store
    dsimp only
    split
    · exact .inl rfl
    split
    · exact .inl rfl
    split
    · exact .inl (hreclaim key _ rfl)
    split
    · exact .inl (hreclaim key _ rfl)
    · rw [get?_insert, if_neg (hne key rfl), get?_take, if_neg (hne key rfl)]
      exact .inl (hreclaim key _ rfl)
  | delete key =>
    unfold apply delete
    dsimp only
    split
    · exact .inl rfl
    split
    · exact .inl rfl
    split
    · rw [get?_take, if_neg (hne key rfl)]
      exact .inl (hreclaim key _ rfl)
    · exact .inl (hreclaim key _ rfl)
  | takeOnce key =>
    unfold apply takeOnce
    dsimp only
    split
    · exact .inl rfl
    split
    · rw [get?_take, if_neg (hne key rfl)]
      exact .inl (hreclaim key _ rfl)
    · exact .inl (hreclaim key _ rfl)
  | evict cutoffMs => exact get?_evict f cutoffMs _ k

/-! ## Two fragments that show the same -/

/-- Two fragments that have decided nothing after `t` and show the same records from `t` on. -/
structure SameLive (t : ℕ) (f g : KvFragment) : Prop where
  floor : f.timeFloor ≤ t
  floor' : g.timeFloor ≤ t
  consistent : Consistent f
  consistent' : Consistent g
  live : ∀ k now, t ≤ now → f.live k now = g.live k now

lemma SameLive.symm (h : SameLive t f g) : SameLive t g f :=
  ⟨h.floor', h.floor, h.consistent', h.consistent, fun k now hnow => (h.live k now hnow).symm⟩

lemma sameLive_new : SameLive 0 KvFragment.new KvFragment.new :=
  ⟨le_rfl, le_rfl, consistent_new, consistent_new, fun _ _ _ => rfl⟩

lemma SameLive.getAt (h : SameLive t f g) (hnow : t ≤ now) : f.getAt k now = g.getAt k now := by
  unfold KvFragment.getAt
  rw [atInstant_eq (h.floor.trans hnow), atInstant_eq (h.floor'.trans hnow)]
  exact h.live k now hnow

/-- **A sweep shows what was there before it.** -/
lemma live_evict (h : Consistent f) (hnow : f.atInstant cutoffMs ≤ now) :
    (evict f cutoffMs limit).1.live k now = f.live k now := by
  cases hlive : f.live k now with
  | none =>
    unfold live at hlive ⊢
    rcases get?_evict f cutoffMs limit k with heq | hnone
    · rw [heq, hlive]
    · rw [hnone, filter_none]
  | some record =>
    -- what is live now was live at the cutoff
    obtain ⟨hget, hfresh⟩ := filter_eq_some_iff.1 hlive
    have hcut : f.live k (f.atInstant cutoffMs) = some record := by
      refine filter_eq_some_iff.2 ⟨hget, ?_⟩
      cases hexp : record.expiredAt (f.atInstant cutoffMs) with
      | false => rfl
      | true =>
        rw [expiredAt_mono hnow hexp] at hfresh
        cases hfresh
    exact filter_eq_some_iff.2 ⟨evict_keeps_live h hcut, hfresh⟩

lemma SameLive.evict (h : SameLive t f g) (cutoffMs limit : ℕ) :
    SameLive (max t cutoffMs) (evict f cutoffMs limit).1 g := by
  have hat : f.atInstant cutoffMs ≤ max t cutoffMs := by
    have := h.floor
    unfold atInstant
    omega
  refine ⟨(timeFloor_evict f cutoffMs limit).trans hat, h.floor'.trans (le_max_left _ _),
    h.consistent.evict cutoffMs limit, h.consistent', fun k now hnow => ?_⟩
  rw [live_evict h.consistent (hat.trans hnow)]
  exact h.live k now ((le_max_left _ _).trans hnow)

/-- The quotas count what is physically held. -/
def KvResponse.quotaRefused : KvResponse → Bool
  | .rejected (.entryQuotaExceeded ..) | .rejected (.byteQuotaExceeded ..) => true
  | _ => false

lemma store_unrefused (h : (store f key record policy).2.quotaRefused = false) :
    (store f key record policy).2 = .written record.version record.expiresAtMs ∧
      (store f key record policy).1 = (f.take key).1.insert key record := by
  unfold store at h ⊢
  dsimp only at h ⊢
  split at h
  · cases h
  split at h
  · cases h
  rename_i hbytes hentries
  rw [if_neg hbytes, if_neg hentries]
  exact ⟨rfl, rfl⟩

lemma live_store (h : (store f key record policy).2.quotaRefused = false) (k : String) (now : ℕ) :
    (store f key record policy).1.live k now =
      if k = key then (some record).filter (fun r => !r.expiredAt now) else f.live k now := by
  rw [(store_unrefused h).2, live_insert, live_take]
  split <;> rfl

lemma satisfies_congr (h : f.live key now = g.live key now) (expect : Expect) :
    f.satisfies key now expect = g.satisfies key now expect := by
  cases expect with
  | any => rfl
  | absent | version => unfold satisfies; rw [h]

lemma SameLive.reclaim (h : SameLive t f g) (hnow : t ≤ now) (key : String) :
    SameLive now (f.reclaimIfExpired key now) (g.reclaimIfExpired key now) where
  floor := timeFloor_reclaimIfExpired (h.floor.trans hnow)
  floor' := timeFloor_reclaimIfExpired (h.floor'.trans hnow)
  consistent := h.consistent.reclaimIfExpired key now
  consistent' := h.consistent'.reclaimIfExpired key now
  live := fun k now' hnow' => by
    rw [live_reclaimIfExpired f key k hnow', live_reclaimIfExpired g key k hnow']
    exact h.live k now' (hnow.trans hnow')

lemma SameLive.take (h : SameLive t f g) (key : String) :
    SameLive t (f.take key).1 (g.take key).1 where
  floor := (timeFloor_take f key).trans_le h.floor
  floor' := (timeFloor_take g key).trans_le h.floor'
  consistent := h.consistent.take key
  consistent' := h.consistent'.take key
  live := fun k now hnow => by rw [live_take, live_take, h.live k now hnow]

lemma SameLive.mono (h : SameLive t f g) (ht : t ≤ now) : SameLive now f g :=
  ⟨h.floor.trans ht, h.floor'.trans ht, h.consistent, h.consistent',
    fun k now' hnow => h.live k now' (ht.trans hnow)⟩

lemma SameLive.store (h : SameLive t f g) (hf : (store f key record policy).2.quotaRefused = false)
    (hg : (store g key record policy).2.quotaRefused = false) :
    (Kv.store f key record policy).2 = (Kv.store g key record policy).2 ∧
      SameLive t (Kv.store f key record policy).1 (Kv.store g key record policy).1 := by
  refine ⟨(store_unrefused hf).1.trans (store_unrefused hg).1.symm, ?_⟩
  refine ⟨?_, ?_, h.consistent.store key record policy, h.consistent'.store key record policy, ?_⟩
  · rw [timeFloor_store]; exact h.floor
  · rw [timeFloor_store]; exact h.floor'
  · intro k now hnow
    rw [live_store hf, live_store hg, h.live k now hnow]

lemma take_reclaimed (hlive : (f.live key now).isSome = true) :
    ((f.reclaimIfExpired key now).take key).2 = f.live key now := by
  have hget := get?_reclaimIfExpired f key key now
  rw [if_pos rfl] at hget
  obtain ⟨_, hrecord⟩ := isSome_iff_exists.1 hlive
  rw [hrecord] at hget ⊢
  unfold KvFragment.take
  rw [hget]

def KvCommand.isEvict : KvCommand → Bool
  | .evict .. => true
  | _ => false

/-- **One command on both.** -/
lemma SameLive.step (h : SameLive t f g) (hc : c.isEvict = false) (hnow : t ≤ c.nowMs)
    (hf : (apply f c policy i).2.quotaRefused = false)
    (hg : (apply g c policy i).2.quotaRefused = false) :
    (apply f c policy i).2 = (apply g c policy i).2 ∧
      SameLive c.nowMs (apply f c policy i).1 (apply g c policy i).1 := by
  have hat := atInstant_eq (h.floor.trans hnow)
  have hat' := atInstant_eq (h.floor'.trans hnow)
  cases c with simp only [KvCommand.nowMs] at hnow hat hat'
  | evict => cases hc
  | put key value expect ttlMs nowMs =>
    have hlive := h.live key nowMs hnow
    unfold apply put at hf hg ⊢
    simp only [hat, hat'] at hf hg ⊢
    cases hcheck : policy.checkPut key value ttlMs nowMs with
    | error => exact ⟨rfl, h.mono hnow⟩
    | ok expiresAtMs =>
      simp only [hcheck, satisfies_congr hlive expect] at hf hg ⊢
      split
      · exact ⟨congrArg KvResponse.conflict hlive, h.mono hnow⟩
      rename_i hsat
      rw [if_neg hsat] at hf hg
      exact (h.reclaim hnow key).store hf hg
  | delete key expect nowMs =>
    have hlive := h.live key nowMs hnow
    unfold apply delete
    simp only [hat, hat']
    cases policy.checkKey key with
    | error => exact ⟨rfl, h.mono hnow⟩
    | ok =>
      simp only [satisfies_congr hlive expect, hlive]
      split
      · exact ⟨congrArg KvResponse.conflict hlive, h.mono hnow⟩
      split
      · rename_i hsome
        refine ⟨?_, (h.reclaim hnow key).take key⟩
        rw [take_reclaimed hsome, take_reclaimed (by rw [hlive]; exact hsome), hlive]
      · exact ⟨rfl, h.reclaim hnow key⟩
  | takeOnce key nowMs =>
    have hlive := h.live key nowMs hnow
    unfold apply takeOnce
    simp only [hat, hat', live_reclaimIfExpired _ key key le_rfl, hlive]
    cases policy.checkKey key with
    | error => exact ⟨rfl, h.mono hnow⟩
    | ok =>
      dsimp only
      split
      · rename_i hsome
        refine ⟨?_, (h.reclaim hnow key).take key⟩
        rw [take_reclaimed hsome, take_reclaimed (by rw [hlive]; exact hsome), hlive]
      · exact ⟨rfl, h.reclaim hnow key⟩

/-! ## Runs -/

section Runs

variable (policy)

def finish (f : KvFragment) (log : List (KvCommand × ℕ)) : KvFragment :=
  log.foldl (fun f c => (apply f c.1 policy c.2).1) f

/-- The responses of a run, those to sweeps left out. -/
def answers (f : KvFragment) : List (KvCommand × ℕ) → List KvResponse
  | [] => []
  | c :: log =>
    let applied := apply f c.1 policy c.2
    if c.1.isEvict then answers applied.1 log else applied.2 :: answers applied.1 log

/-- No command of the run is refused for a quota. -/
def Unrefused (f : KvFragment) : List (KvCommand × ℕ) → Prop
  | [] => True
  | c :: log => (apply f c.1 policy c.2).2.quotaRefused = false ∧ Unrefused (apply f c.1 policy c.2).1 log

def ClocksForward (log : List (KvCommand × ℕ)) : Prop := log.Pairwise fun a b => a.1.nowMs ≤ b.1.nowMs

variable {policy} {log log' : List (KvCommand × ℕ)}

/-- **Two runs that differ in their sweeps only** answer alike and show the same records at the
end, from any two fragments that show the same. -/
lemma answers_agree (hal : Machine.Alike (fun c : KvCommand × ℕ => c.1.isEvict) log log')
    (h : SameLive t f g) (ht : ∀ c ∈ log, c.1.isEvict = false → t ≤ c.1.nowMs)
    (hclocks : ClocksForward log) (hclocks' : ClocksForward log')
    (hf : Unrefused policy f log) (hg : Unrefused policy g log') :
    answers policy f log = answers policy g log' ∧
      ∀ now, t ≤ now → (∀ c ∈ log, c.1.nowMs ≤ now) → (∀ c ∈ log', c.1.nowMs ≤ now) →
        SameLive now (finish policy f log) (finish policy g log') := by
  induction hal generalizing t f g with
  | nil => exact ⟨rfl, fun now hnow _ _ => h.mono hnow⟩
  | @left c ls _ hc _ ih =>
    obtain ⟨c, i⟩ := c
    cases c with
    | evict cutoffMs limit =>
      have hnext : ∀ d ∈ ls, d.1.isEvict = false → max t cutoffMs ≤ d.1.nowMs := fun d hd hvisible =>
        max_le (ht d (mem_cons_of_mem _ hd) hvisible) ((pairwise_cons.1 hclocks).1 d hd)
      obtain ⟨hanswers, hfinish⟩ := ih (h.evict cutoffMs (policy.evictBatch limit)) hnext
        (pairwise_cons.1 hclocks).2 hclocks' hf.2 hg
      refine ⟨hanswers, fun now hnow hl hm => ?_⟩
      exact hfinish now (max_le hnow (hl _ mem_cons_self))
        (fun d hd => hl d (mem_cons_of_mem _ hd)) hm
    | _ => cases hc
  | @right c ls _ hc hal ih =>
    obtain ⟨c, i⟩ := c
    cases c with
    | evict cutoffMs limit =>
      -- the sweep of the other run comes before whatever both runs do next
      have hnext : ∀ d ∈ ls, d.1.isEvict = false → max t cutoffMs ≤ d.1.nowMs := fun d hd hvisible =>
        max_le (ht d hd hvisible) ((pairwise_cons.1 hclocks').1 d (hal.mem hd hvisible))
      obtain ⟨hanswers, hfinish⟩ := ih (h.symm.evict cutoffMs (policy.evictBatch limit)).symm hnext
        hclocks (pairwise_cons.1 hclocks').2 hf hg.2
      refine ⟨hanswers, fun now hnow hl hm => ?_⟩
      exact hfinish now (max_le hnow (hm _ mem_cons_self)) hl
        fun d hd => hm d (mem_cons_of_mem _ hd)
    | _ => cases hc
  | @both c ls _ hc _ ih =>
    have hnow := ht c mem_cons_self hc
    obtain ⟨hanswer, hafter⟩ := h.step hc hnow hf.1 hg.1
    have hnext : ∀ d ∈ ls, d.1.isEvict = false → c.1.nowMs ≤ d.1.nowMs := fun d hd _ =>
      (pairwise_cons.1 hclocks).1 d hd
    obtain ⟨hanswers, hfinish⟩ := ih hafter hnext (pairwise_cons.1 hclocks).2
      (pairwise_cons.1 hclocks').2 hf.2 hg.2
    refine ⟨?_, fun now _ hl hm => ?_⟩
    · simp only [answers, hc, hanswer, hanswers]
    · exact hfinish now (hl c mem_cons_self) (fun d hd => hl d (mem_cons_of_mem _ hd))
        fun d hd => hm d (mem_cons_of_mem _ hd)

/-! ## Versions -/

lemma satisfies_version (h : f.satisfies key now (.version v) = true) :
    ∃ record, f.entries.get? key = some record ∧ record.version = v := by
  unfold satisfies at h
  cases hlive : f.live key now with
  | none => rw [hlive] at h; cases h
  | some record =>
    rw [hlive] at h
    exact ⟨record, (filter_eq_some_iff.1 hlive).1, by simpa using h⟩

lemma bytes_take_insert (f : KvFragment) (key : String) (record : KvRecord) :
    ((f.take key).1.insert key record).bytes =
      f.bytes - ((f.entries.get? key).map (·.footprint key)).getD 0 + record.footprint key := by
  unfold KvFragment.take
  cases f.entries.get? key <;> rfl

lemma length_take_insert (f : KvFragment) (key : String) (record : KvRecord) :
    ((f.take key).1.insert key record).entries.entries.length =
      f.entries.entries.length + (f.entries.get? key).isNone.toNat := by
  have hgone : (f.take key).1.entries.get? key = none := by rw [get?_take, if_pos rfl]
  change ((f.take key).1.entries.insert key record).entries.length = _
  rw [SortedMap.length_insert_of_none hgone]
  have herase := SortedMap.length_erase_add f.entries key
  unfold KvFragment.take
  cases hget : f.entries.get? key with
  | none => rfl
  | some =>
    rw [hget] at herase
    simpa using herase

lemma store_written (h : (store f key record policy).2 = .written version expiresAtMs) :
    version = record.version ∧ (store f key record policy).1.entries.get? key = some record ∧
      (store f key record policy).1.bytes ≤ policy.maxBytes ∧
      (store f key record policy).1.entries.entries.length ≤ policy.maxEntries := by
  have hinserted := length_take_insert f key record
  have hbytes := bytes_take_insert f key record
  unfold store at h ⊢
  dsimp only at h ⊢
  split at h
  · cases h
  split at h
  · cases h
  rename_i hfits hroom
  rw [if_neg hfits, if_neg hroom]
  cases h
  refine ⟨rfl, ?_, ?_, ?_⟩
  · rw [get?_insert, if_pos rfl]
  · dsimp only
    omega
  · dsimp only
    omega

/-- The version a command consumed: a mutation that named it and went through, or the one that
was taken. -/
def consumed? : KvCommand → KvResponse → Option ℕ
  | .put _ _ (.version want) _ _, .written .. => some want
  | .delete _ (.version want) _, .deleted _ => some want
  | .takeOnce _ _, .taken (some record) => some record.version
  | _, _ => none

/-- No record has the version. -/
def Nowhere (v : ℕ) (f : KvFragment) : Prop := ∀ k, Gone k v f

def VersionsDistinct (f : KvFragment) : Prop :=
  ∀ k k' record record', f.entries.get? k = some record → f.entries.get? k' = some record' →
    record.version = record'.version → k = k'

lemma VersionsDistinct.step (h : VersionsDistinct f) (hbelow : VersionsBelow i f) (c : KvCommand)
    (policy : KvPolicy) : VersionsDistinct (apply f c policy i).1 := by
  -- a record is an old one, below the index, or the new one, at the command's key
  have hcases : ∀ k record, (apply f c policy i).1.entries.get? k = some record →
      (f.entries.get? k = some record ∧ record.version < i) ∨ (record.version = i ∧ c.key? = some k) := by
    intro k record hr
    rcases wrote_apply f c policy i k with hk | hk | ⟨record', hk, hv⟩
    · rw [hk] at hr
      exact .inl ⟨hr, hbelow k record hr⟩
    · rw [hk] at hr
      cases hr
    · cases hk.symm.trans hr
      by_cases hkey : c.key? = some k
      · exact .inr ⟨hv, hkey⟩
      rcases apply_other f c policy i hkey with heq | heq
      · rw [heq] at hr
        exact .inl ⟨hr, hbelow k _ hr⟩
      · rw [heq] at hr
        cases hr
  intro k k' record record' hr hr' hv
  rcases hcases k record hr with ⟨hold, hlt⟩ | ⟨hnew, hkey⟩ <;>
    rcases hcases k' record' hr' with ⟨hold', hlt'⟩ | ⟨hnew', hkey'⟩
  · exact h k k' record record' hold hold' hv
  · omega
  · omega
  · exact Option.some.inj (hkey.symm.trans hkey')

lemma consumed_cases (h : consumed? c response = some v) :
    (∃ key value ttlMs nowMs version e, c = .put key value (.version v) ttlMs nowMs ∧
        response = .written version e) ∨
      (∃ key nowMs removed, c = .delete key (.version v) nowMs ∧ response = .deleted removed) ∨
      ∃ key nowMs record, c = .takeOnce key nowMs ∧ response = .taken (some record) ∧
        record.version = v := by
  unfold consumed? at h
  split at h
  · cases h
    exact .inl ⟨_, _, _, _, _, _, rfl, rfl⟩
  · cases h
    exact .inr (.inl ⟨_, _, _, rfl, rfl⟩)
  · cases h
    exact .inr (.inr ⟨_, _, _, rfl, rfl, rfl⟩)
  · cases h

/-- **What is consumed was there and is gone.** -/
lemma consumed_spec (hbelow : VersionsBelow i f)
    (hc : consumed? c (apply f c policy i).2 = some v) :
    ∃ k record, f.entries.get? k = some record ∧ record.version = v ∧
      Gone k v (apply f c policy i).1 := by
  rcases consumed_cases hc with ⟨key, value, ttlMs, nowMs, version, e, rfl, hresp⟩ |
    ⟨key, nowMs, removed, rfl, hresp⟩ | ⟨key, nowMs, record, rfl, hresp, rfl⟩
  · unfold apply put at hresp ⊢
    dsimp only at hresp ⊢
    split at hresp
    · cases hresp
    split at hresp
    · cases hresp
    rename_i hsat
    obtain ⟨record, hr, hv⟩ := satisfies_version (not_not.1 hsat)
    refine ⟨key, record, hr, hv, fun record' hr' => ?_⟩
    rw [if_neg hsat, (store_written hresp).2.1] at hr'
    cases hr'
    have := hbelow key record hr
    dsimp only
    omega
  · unfold apply delete at hresp ⊢
    dsimp only at hresp ⊢
    split at hresp
    · cases hresp
    split at hresp
    · cases hresp
    rename_i hsat
    obtain ⟨record, hr, hv⟩ := satisfies_version (not_not.1 hsat)
    refine ⟨key, record, hr, hv, gone_of_get?_none ?_⟩
    -- the precondition names a live record, so it is removed
    have hsome : (f.live key (f.atInstant nowMs)).isSome = true := by
      rw [Bool.not_eq_true, Bool.not_eq_false] at hsat
      exact isSome_of_any hsat
    rw [if_neg hsat, if_pos hsome, get?_take, if_pos rfl]
  · unfold apply takeOnce at hresp ⊢
    dsimp only at hresp ⊢
    split at hresp
    · cases hresp
    split at hresp
    · rename_i hsome
      rw [live_reclaimIfExpired f key key le_rfl] at hsome
      rw [take_reclaimed hsome] at hresp
      refine ⟨key, record, (filter_eq_some_iff.1 (KvResponse.taken.inj hresp)).1, rfl, ?_⟩
      refine gone_of_get?_none ?_
      rw [if_pos (by rw [live_reclaimIfExpired f key key le_rfl]; exact hsome), get?_take, if_pos rfl]
    · cases hresp

lemma Nowhere.step (h : Nowhere v f) (hv : v < i) (hw : Wrote f i f') : Nowhere v f' :=
  fun k => (h k).step hv hw

lemma nowhere_of_consumed (hbelow : VersionsBelow i f) (hdistinct : VersionsDistinct f)
    (hc : consumed? c (apply f c policy i).2 = some v) : v < i ∧ Nowhere v (apply f c policy i).1 := by
  obtain ⟨k, record, hr, rfl, hgone⟩ := consumed_spec hbelow hc
  have hlt := hbelow k record hr
  refine ⟨hlt, fun k' => ?_⟩
  by_cases hk : k' = k
  · rw [hk]
    exact hgone
  · refine Gone.step (fun record' hr' hv => hk ?_) hlt (wrote_apply f c policy i)
    exact hdistinct k' k record' record hr' hr hv

lemma versionsDistinct_stateAt (hindex : log.Pairwise fun a b => a.2 < b.2) (n : ℕ) :
    VersionsDistinct (stateAt policy log n) := by
  refine invariant VersionsDistinct (fun f c => VersionsBelow c.2 f) ?_
    (fun f c h hbelow => h.step hbelow c.1 policy) (fun n c hc => versionsBelow_stateAt hindex hc) n
  intro k k' record record' hr
  cases hr

lemma index_lt (hindex : log.Pairwise fun a b => a.2 < b.2) {n m : ℕ} {c d : KvCommand × ℕ}
    (hc : log[n]? = some c) (hd : log[m]? = some d) (hnm : n < m) : c.2 < d.2 := by
  obtain ⟨hn, rfl⟩ := List.getElem?_eq_some_iff.1 hc
  obtain ⟨hm, rfl⟩ := List.getElem?_eq_some_iff.1 hd
  exact pairwise_iff_getElem.1 hindex n m hn hm hnm

def responseAt (policy : KvPolicy) (log : List (KvCommand × ℕ)) (n : ℕ) : Option KvResponse :=
  log[n]?.map fun c => (apply (stateAt policy log n) c.1 policy c.2).2

def consumedAt (policy : KvPolicy) (log : List (KvCommand × ℕ)) (n : ℕ) : Option ℕ :=
  log[n]?.bind fun c => consumed? c.1 (apply (stateAt policy log n) c.1 policy c.2).2

lemma consumedAt_eq_some (h : consumedAt policy log n = some v) :
    ∃ c, log[n]? = some c ∧ consumed? c.1 (apply (stateAt policy log n) c.1 policy c.2).2 = some v :=
  bind_eq_some_iff.1 h

/-- **A version is consumed once.** -/
lemma succeeds_once (hindex : log.Pairwise fun a b => a.2 < b.2) {n m : ℕ}
    (hn : consumedAt policy log n = some v) (hm : consumedAt policy log m = some v) : n = m := by
  -- after the earlier of the two no record has the version, and the later one needs such a record
  suffices hlater : ∀ {n m}, consumedAt policy log n = some v → consumedAt policy log m = some v →
      ¬ n < m by
    rcases Nat.lt_trichotomy n m with h | h | h
    · exact absurd h (hlater hn hm)
    · exact h
    · exact absurd h (hlater hm hn)
  intro n m hn hm hnm
  obtain ⟨_, hc, hcv⟩ := consumedAt_eq_some hn
  obtain ⟨_, hd, hdv⟩ := consumedAt_eq_some hm
  obtain ⟨_, hnowhere⟩ := nowhere_of_consumed (versionsBelow_stateAt hindex hc)
    (versionsDistinct_stateAt hindex n) hcv
  have hgone : Nowhere v (stateAt policy log m) := by
    refine persists (show n + 1 ≤ m from hnm) ?_ fun j e hnj _ he h => ?_
    · rw [stateAt_succ hc]
      exact hnowhere
    · have := index_lt hindex hc he hnj
      exact h.step (by omega) (wrote_apply _ e.1 policy e.2)
  obtain ⟨k, record, hr, hv, -⟩ := consumed_spec (versionsBelow_stateAt hindex hd) hdv
  exact hgone k record hr hv

lemma apply_written (h : (apply f c policy i).2 = .written v expiresAtMs) :
    v = i ∧ (apply f c policy i).1.bytes ≤ policy.maxBytes ∧
      (apply f c policy i).1.entries.entries.length ≤ policy.maxEntries := by
  cases c with
  | put key value expect ttlMs nowMs =>
    unfold apply put at h ⊢
    dsimp only at h ⊢
    split at h
    · cases h
    split at h
    · cases h
    rename_i hsat
    rw [if_neg hsat]
    obtain ⟨hv, -, hquota⟩ := store_written h
    exact ⟨hv, hquota⟩
  | delete =>
    unfold apply delete at h
    dsimp only at h
    split at h
    · cases h
    split at h
    · cases h
    · split at h <;> cases h
  | takeOnce =>
    unfold apply takeOnce at h
    dsimp only at h
    split at h
    · cases h
    · split at h <;> cases h
  | evict => cases h

/-- A run: clocks do not go back, log indexes grow. -/
structure Ordered (log : List (KvCommand × ℕ)) : Prop where
  clocks : ClocksForward log
  indexes : log.Pairwise fun a b => a.2 < b.2

/-- What every run under the policy keeps. Every prefix of a run is a run, so `reads` is about
every point of it. -/
structure SweepsAndFences (policy : KvPolicy) : Prop where
  answers : ∀ log log', Ordered log → Ordered log' →
    log.filter (fun c => !c.1.isEvict) = log'.filter (fun c => !c.1.isEvict) →
    Unrefused policy .new log → Unrefused policy .new log' →
    answers policy .new log = answers policy .new log'
  reads : ∀ log log', Ordered log → Ordered log' →
    log.filter (fun c => !c.1.isEvict) = log'.filter (fun c => !c.1.isEvict) →
    Unrefused policy .new log → Unrefused policy .new log' →
    ∀ key now, (∀ c ∈ log, c.1.nowMs ≤ now) → (∀ c ∈ log', c.1.nowMs ≤ now) →
      (finish policy .new log).getAt key now = (finish policy .new log').getAt key now
  increasing : ∀ log, Ordered log → ∀ n m v w e e', n < m →
    responseAt policy log n = some (.written v e) → responseAt policy log m = some (.written w e') →
    v < w
  once : ∀ log, Ordered log → ∀ n m v, consumedAt policy log n = some v →
    consumedAt policy log m = some v → n = m
  recomputed : ∀ log, Ordered log → ∀ n, (stateAt policy log n).checkInvariants = .ok ()
  subtractions : ∀ log, Ordered log → ∀ n c, log[n]? = some c →
    ∀ s ∈ subtractions (stateAt policy log n) policy c.1, s.2 ≤ s.1
  quotas : ∀ log, Ordered log → ∀ n v e, responseAt policy log n = some (.written v e) →
    (stateAt policy log (n + 1)).bytes ≤ policy.maxBytes ∧
      (stateAt policy log (n + 1)).entries.entries.length ≤ policy.maxEntries

/-- **Sweeps are invisible and versions fence**, under every policy. -/
theorem sweeps_invisible_versions_fence (policy : KvPolicy) : SweepsAndFences policy := by
  have hagree : ∀ log log', Ordered log → Ordered log' →
      log.filter (fun c => !c.1.isEvict) = log'.filter (fun c => !c.1.isEvict) →
      Unrefused policy .new log → Unrefused policy .new log' →
      answers policy .new log = answers policy .new log' ∧
        ∀ now, 0 ≤ now → (∀ c ∈ log, c.1.nowMs ≤ now) → (∀ c ∈ log', c.1.nowMs ≤ now) →
          SameLive now (finish policy .new log) (finish policy .new log') :=
    fun log log' h h' hsame hu hu' => answers_agree (alike_of_filter_eq hsame) sameLive_new
      (fun _ _ _ => Nat.zero_le _) h.clocks h'.clocks hu hu'
  have hwritten : ∀ log n v e, responseAt policy log n = some (.written v e) →
      ∃ c, log[n]? = some c ∧ (apply (stateAt policy log n) c.1 policy c.2).2 = .written v e :=
    fun log n v e h => map_eq_some_iff.1 h
  refine ⟨?_, ?_, ?_, ?_, ?_, ?_, ?_⟩
  · intro log log' h h' hsame hu hu'
    exact (hagree log log' h h' hsame hu hu').1
  · intro log log' h h' hsame hu hu' key now hnow hnow'
    exact ((hagree log log' h h' hsame hu hu').2 now (Nat.zero_le _) hnow hnow').getAt le_rfl
  · intro log h n m v w e e' hnm hn hm
    obtain ⟨c, hc, hcv⟩ := hwritten log n v e hn
    obtain ⟨_, hd, hdw⟩ := hwritten log m w e' hm
    rw [(apply_written hcv).1, (apply_written hdw).1]
    exact index_lt h.indexes hc hd hnm
  · intro log h n m v hn hm
    exact succeeds_once h.indexes hn hm
  · intro log _ n
    exact (consistent_stateAt policy log n).checkInvariants
  · intro log _ n c _
    exact (consistent_stateAt policy log n).subtractions_fit c.1 policy
  · intro log _ n v e hn
    obtain ⟨c, hc, hcv⟩ := hwritten log n v e hn
    have := (apply_written hcv).2
    rw [stateAt, stateAt_succ hc]
    exact this

end Runs

end Fluree.Raft.Kv
