import Fluree.Lib.Machine
import Fluree.Raft.Kv

/-!
# Logical time in a fragment

A version is the log index of its write, so a version that has left its key never comes back
(`Gone.step`). A command that acts on an expired record reclaims it; a failed precondition on a
version only answers, and leaves the record where a slower clock finds it alive.
-/

namespace Fluree.Raft.Kv

open Lib KvFragment Option SortedMap

section

open Machine

variable {f f' : KvFragment} {key k : String} {record : KvRecord} {now i v : ℕ} {c : KvCommand}
  {policy : KvPolicy}

lemma get?_take (f : KvFragment) (key k : String) :
    (f.take key).1.entries.get? k = if k = key then none else f.entries.get? k := by
  unfold take
  cases h : f.entries.get? key with
  | none =>
    dsimp only
    split
    · rename_i hk; rw [hk, h]
    · rfl
  | some => exact get?_erase _ _ _

lemma get?_insert (f : KvFragment) (key k : String) (record : KvRecord) :
    (f.insert key record).entries.get? k = if k = key then some record else f.entries.get? k :=
  SortedMap.get?_insert _ _ _ _

lemma get?_reclaimIfExpired (f : KvFragment) (key k : String) (now : ℕ) :
    (f.reclaimIfExpired key now).entries.get? k =
      if k = key then (f.live key now) else f.entries.get? k := by
  unfold reclaimIfExpired live
  cases h : f.entries.get? key with
  | none =>
    by_cases hk : k = key
    · subst hk; simp [h]
    · simp [hk]
  | some record =>
    by_cases hexp : record.expiredAt now = true
    · rw [if_pos (by simpa using hexp)]
      change (f.take key).1.entries.get? k = _
      rw [get?_take]
      simp [hexp, filter_some]
    · rw [if_neg (by simpa using hexp)]
      by_cases hk : k = key
      · subst hk; simp [h, hexp, filter_some]
      · simp [hk]

/-- **What a command can do to the records**: a key keeps its record, loses it, or gets one with
the log index as version. -/
def Wrote (f : KvFragment) (i : ℕ) (f' : KvFragment) : Prop :=
  ∀ k, f'.entries.get? k = f.entries.get? k ∨ f'.entries.get? k = none ∨
    ∃ record, f'.entries.get? k = some record ∧ record.version = i

lemma Wrote.refl (f : KvFragment) (i : ℕ) : Wrote f i f := fun _ => .inl rfl

lemma Wrote.trans (h : Wrote f i f') (h' : Wrote f' i f'') : Wrote f i f'' := by
  intro k
  rcases h' k with hk | hk | hk
  · rw [hk]
    exact h k
  · exact .inr (.inl hk)
  · exact .inr (.inr hk)

lemma wrote_take (f : KvFragment) (key : String) (i : ℕ) : Wrote f i (f.take key).1 := by
  intro k
  rw [get?_take]
  split
  · exact .inr (.inl rfl)
  · exact .inl rfl

lemma wrote_insert (f : KvFragment) (key : String) (record : KvRecord) :
    Wrote f record.version (f.insert key record) := by
  intro k
  rw [get?_insert]
  split
  · exact .inr (.inr ⟨record, rfl, rfl⟩)
  · exact .inl rfl

lemma wrote_reclaimIfExpired (f : KvFragment) (key : String) (now i : ℕ) :
    Wrote f i (f.reclaimIfExpired key now) := by
  unfold reclaimIfExpired
  split
  · exact wrote_take f key i
  · exact .refl f i

lemma wrote_store (f : KvFragment) (key : String) (record : KvRecord) (policy : KvPolicy) :
    Wrote f record.version (store f key record policy).1 := by
  unfold store
  dsimp only
  split
  · exact .refl f _
  split
  · exact .refl f _
  · exact (wrote_take f key _).trans (wrote_insert _ key record)

lemma wrote_foldl_evictKey (keys : List String) (acc : KvFragment × ℕ) (i : ℕ) :
    Wrote acc.1 i (keys.foldl evictKey acc).1 := by
  induction keys generalizing acc with
  | nil => exact .refl _ i
  | cons key _ ih => exact (wrote_take acc.1 key i).trans (ih (evictKey acc key))

/-- **One command.** -/
lemma wrote_apply (f : KvFragment) (c : KvCommand) (policy : KvPolicy) (i : ℕ) :
    Wrote f i (apply f c policy i).1 := by
  cases c with
  | put key value =>
    unfold apply put
    dsimp only
    split
    · exact .refl f i
    split
    · exact .refl f i
    · exact (wrote_reclaimIfExpired f key _ i).trans (wrote_store _ key ⟨value, i, _⟩ policy)
  | delete key =>
    unfold apply delete
    dsimp only
    split
    · exact .refl f i
    split
    · exact .refl f i
    split
    · exact (wrote_reclaimIfExpired f key _ i).trans (wrote_take _ key i)
    · exact wrote_reclaimIfExpired f key _ i
  | takeOnce key =>
    unfold apply takeOnce
    dsimp only
    split
    · exact .refl f i
    split
    · exact (wrote_reclaimIfExpired f key _ i).trans (wrote_take _ key i)
    · exact wrote_reclaimIfExpired f key _ i
  | evict =>
    have hswept := fun keys => wrote_foldl_evictKey keys (f, 0) i
    unfold apply evict
    dsimp only
    split
    · exact hswept _
    · exact hswept _

def VersionsBelow (i : ℕ) (f : KvFragment) : Prop :=
  ∀ k record, f.entries.get? k = some record → record.version < i

lemma VersionsBelow.step (h : VersionsBelow i f) (hij : i ≤ j) (hw : Wrote f j f') :
    VersionsBelow (j + 1) f' := by
  intro k record hr
  rcases hw k with hk | hk | ⟨record', hk, hv⟩
  · rw [hk] at hr
    have := h k record hr
    omega
  · rw [hk] at hr
    cases hr
  · cases hk.symm.trans hr
    omega

def Gone (k : String) (v : ℕ) (f : KvFragment) : Prop :=
  ∀ record, f.entries.get? k = some record → record.version ≠ v

/-- **A version that is gone stays gone.** -/
lemma Gone.step (h : Gone k v f) (hv : v < i) (hw : Wrote f i f') : Gone k v f' := by
  intro record hr
  rcases hw k with hk | hk | ⟨record', hk, hi⟩
  · rw [hk] at hr
    exact h record hr
  · rw [hk] at hr
    cases hr
  · cases hk.symm.trans hr
    omega

def KvCommand.key? : KvCommand → Option String
  | .put key .. | .delete key .. | .takeOnce key _ => some key
  | .evict .. => none

def KvCommand.nowMs : KvCommand → ℕ
  | .put _ _ _ _ nowMs | .delete _ _ nowMs | .takeOnce _ nowMs => nowMs
  | .evict cutoffMs _ => cutoffMs

/-- The answers that are computed from what is live at the key. -/
def KvResponse.decides : KvResponse → Bool
  | .conflict _ | .written .. | .deleted _ | .taken _ => true
  | _ => false

/-- The command answers as if the stored version of the key were absent because it expired. -/
def TreatsExpired (policy : KvPolicy) (f : KvFragment) (c : KvCommand) (i : ℕ) (k : String) (v : ℕ) :
    Prop :=
  c.key? = some k ∧ (apply f c policy i).2.decides = true ∧
    ∃ record, f.entries.get? k = some record ∧ record.version = v ∧
      record.expiredAt (f.atInstant c.nowMs) = true

def TreatsLive (f : KvFragment) (c : KvCommand) (k : String) (v : ℕ) : Prop :=
  c.key? = some k ∧ ∃ record, f.live k (f.atInstant c.nowMs) = some record ∧ record.version = v

/-- A precondition on a version, in a command that passes its checks, meets no expired record. -/
def ChecksFresh (policy : KvPolicy) (f : KvFragment) : KvCommand → Prop
  | .put key value (.version _) ttlMs nowMs =>
    ∀ e, policy.checkPut key value ttlMs (f.atInstant nowMs) = .ok e →
      ∀ record, f.entries.get? key = some record → record.expiredAt (f.atInstant nowMs) = false
  | .delete key (.version _) nowMs =>
    policy.checkKey key = .ok () →
      ∀ record, f.entries.get? key = some record → record.expiredAt (f.atInstant nowMs) = false
  | _ => True

lemma live_eq_none (h : f.entries.get? k = some record) (hexp : record.expiredAt now = true) :
    f.live k now = none := by
  simp [live, h, hexp]

lemma gone_of_get?_none (h : f.entries.get? k = none) : Gone k v f := by
  intro record hr
  rw [h] at hr
  cases hr

lemma gone_reclaimIfExpired (h : f.entries.get? k = some record)
    (hexp : record.expiredAt now = true) : Gone k v (f.reclaimIfExpired k now) := by
  refine gone_of_get?_none ?_
  rw [get?_reclaimIfExpired, if_pos rfl, live_eq_none h hexp]

lemma store_decides (h : (store f key record policy).2.decides = true) :
    (store f key record policy).1.entries.get? key = some record := by
  unfold store at h ⊢
  dsimp only at h ⊢
  split at h
  · cases h
  split at h
  · cases h
  rename_i hbytes hentries
  rw [if_neg hbytes, if_neg hentries]
  exact (get?_insert _ key key record).trans (if_pos rfl)

lemma satisfies_of_not_live {f : KvFragment} (hlive : f.live k now = none)
    (hexpect : ∀ v, expect ≠ .version v) : f.satisfies k now expect = true := by
  cases expect with
  | any => rfl
  | absent => rw [satisfies, hlive]; rfl
  | version v => exact absurd rfl (hexpect v)

/-- **A record taken for expired is dropped**, unless the command's precondition names a version. -/
lemma gone_of_treatsExpired (hbelow : VersionsBelow i f) (hc : ChecksFresh policy f c)
    (h : TreatsExpired policy f c i k v) : Gone k v (apply f c policy i).1 := by
  obtain ⟨hkey, hdecides, record, hrecord, rfl, hexp⟩ := h
  have hlive := live_eq_none hrecord hexp
  cases c with
  | evict => cases hkey
  | put _ value expect ttlMs nowMs =>
    cases hkey
    unfold apply put at hdecides ⊢
    dsimp only [KvCommand.nowMs] at hdecides hexp hlive ⊢
    cases hcheck : policy.checkPut k value ttlMs (f.atInstant nowMs) with
    | error =>
      rw [hcheck] at hdecides
      cases hdecides
    | ok expiresAtMs =>
      rw [hcheck] at hdecides
      dsimp only at hdecides ⊢
      have hsatisfied : f.satisfies k _ expect = true := satisfies_of_not_live hlive <| by
        rintro v rfl
        rw [hc expiresAtMs hcheck record hrecord] at hexp
        cases hexp
      rw [if_neg (by simp [hsatisfied])] at hdecides ⊢
      intro record' hr
      rw [store_decides hdecides] at hr
      cases hr
      exact (hbelow k record hrecord).ne'
  | delete _ expect nowMs =>
    cases hkey
    unfold apply delete at hdecides ⊢
    dsimp only [KvCommand.nowMs] at hdecides hexp hlive ⊢
    cases hcheck : policy.checkKey k with
    | error =>
      rw [hcheck] at hdecides
      cases hdecides
    | ok =>
      have hsatisfied : f.satisfies k _ expect = true := satisfies_of_not_live hlive <| by
        rintro v rfl
        rw [hc hcheck record hrecord] at hexp
        cases hexp
      rw [if_neg (by simp [hsatisfied]), hlive]
      exact gone_reclaimIfExpired hrecord hexp
  | takeOnce =>
    cases hkey
    unfold apply takeOnce at hdecides ⊢
    dsimp only [KvCommand.nowMs] at hdecides hexp hlive ⊢
    cases hcheck : policy.checkKey k with
    | error =>
      rw [hcheck] at hdecides
      cases hdecides
    | ok =>
      dsimp only
      split
      · refine gone_of_get?_none ?_
        rw [get?_take, if_pos rfl]
      · exact gone_reclaimIfExpired hrecord hexp

section Runs

variable (policy : KvPolicy) (log : List (KvCommand × ℕ))

def stateAt (n : ℕ) : KvFragment :=
  Machine.stateAt (fun f c => (apply f c.1 policy c.2).1) KvFragment.new log n

/-- Once a command has answered as if a version were expired, no read and no command takes that
version for live. -/
structure NeverBackwards : Prop where
  reads : ∀ (n m : ℕ) c k v, log[n]? = some c →
    TreatsExpired policy (stateAt policy log n) c.1 c.2 k v → n < m →
    ∀ now record, (stateAt policy log m).getAt k now = some record → record.version ≠ v
  iterates : ∀ (n m : ℕ) c k v, log[n]? = some c →
    TreatsExpired policy (stateAt policy log n) c.1 c.2 k v → n < m →
    ∀ now record, (k, record) ∈ (stateAt policy log m).iterAt now → record.version ≠ v
  commands : ∀ (n m : ℕ) c d k v, log[n]? = some c →
    TreatsExpired policy (stateAt policy log n) c.1 c.2 k v → n < m → log[m]? = some d →
    ¬ TreatsLive (stateAt policy log m) d.1 k v

variable {policy log}

lemma versionsBelow_stateAt (hindex : log.Pairwise fun a b => a.2 < b.2) {n c} (hc : log[n]? = some c) : VersionsBelow c.2 (stateAt policy log n) := by
  induction n generalizing c with
  | zero =>
    intro k record h
    cases h
  | succ n ih =>
    obtain ⟨hlt, rfl⟩ := List.getElem?_eq_some_iff.1 hc
    have hn := List.getElem?_eq_getElem (Nat.lt_of_succ_lt hlt)
    have hstep := (ih hn).step le_rfl (wrote_apply (stateAt policy log n) (log[n]).1 policy (log[n]).2)
    have hnext := List.pairwise_iff_getElem.1 hindex n (n + 1) (Nat.lt_of_succ_lt hlt) hlt
      (Nat.lt_succ_self n)
    intro k record hr
    rw [stateAt, Machine.stateAt_succ hn] at hr
    have := hstep k record hr
    omega

/-- **Logical time never runs backwards**, in every run in which no precondition on a version
meets an expired record. -/
theorem time_never_backwards (policy : KvPolicy) (log : List (KvCommand × ℕ))
    (hindex : log.Pairwise fun a b => a.2 < b.2)
    (hfresh : ∀ n c, log[n]? = some c → ChecksFresh policy (stateAt policy log n) c.1) :
    NeverBackwards policy log := by
  have hgone : ∀ (n m : ℕ) c k v, log[n]? = some c →
      TreatsExpired policy (stateAt policy log n) c.1 c.2 k v → n < m →
      Gone k v (stateAt policy log m) := by
    intro n m c k v hc hexp hnm
    have hbelow : VersionsBelow c.2 (stateAt policy log n) := versionsBelow_stateAt hindex hc
    obtain ⟨record, hrecord, rfl, -⟩ := hexp.2.2
    refine Machine.persists (show n + 1 ≤ m from hnm) ?_ fun j d hnj hjm hd h => ?_
    · rw [stateAt_succ hc]
      exact gone_of_treatsExpired hbelow (hfresh n c hc) hexp
    · have hlater : c.2 < d.2 := by
        obtain ⟨hn, rfl⟩ := List.getElem?_eq_some_iff.1 hc
        obtain ⟨hj, rfl⟩ := List.getElem?_eq_some_iff.1 hd
        exact List.pairwise_iff_getElem.1 hindex n j hn hj hnj
      exact h.step ((hbelow k record hrecord).trans hlater) (wrote_apply _ d.1 policy d.2)
  have hlive : ∀ {m k v now record}, Gone k v (stateAt policy log m) →
      (stateAt policy log m).live k now = some record → record.version ≠ v := by
    intro m k v now record h hr
    exact h record (Option.filter_eq_some_iff.1 hr).1
  refine ⟨?_, ?_, ?_⟩
  · intro n m c k v hc hexp hnm now record hr
    exact hlive (hgone n m c k v hc hexp hnm) hr
  · intro n m c k v hc hexp hnm now record hr
    exact hgone n m c k v hc hexp hnm record
      (get?_eq_some_iff.2 (List.mem_of_mem_filter hr))
  · rintro n m c d k v hc hexp hnm - ⟨-, record, hr, hv⟩
    exact hlive (hgone n m c k v hc hexp hnm) hr hv

/-- A lapsed lease is taken over, and the old clock takes the new one. -/
theorem time_never_backwards_takeover : NeverBackwards KvPolicy.default
      [(.put "lease" [1] .absent (some 100) 0, 1), (.put "lease" [2] .absent (some 100) 200, 2),
        (.takeOnce "lease" 50, 3)] := by
  refine time_never_backwards _ _ (by simp) fun n c hc => ?_
  rcases n with _ | _ | _ | n <;> cases hc <;> trivial

/-- The holder's renewal at 200 meets its expired record and conflicts; a renewal at 50 then
finds the same version alive. -/
theorem lapsed_lease_renewed : ¬ NeverBackwards KvPolicy.default
      [(.put "lease" [1] .absent (some 100) 0, 1), (.put "lease" [1] (.version 1) (some 100) 200, 2),
        (.put "lease" [1] (.version 1) (some 100) 50, 3)] := by
  intro h
  refine h.commands 1 2 _ _ "lease" 1 rfl ⟨rfl, by decide, ⟨[1], 1, some 100⟩, ?_⟩ (by decide) rfl
    ⟨rfl, ⟨[1], 1, some 100⟩, ?_⟩
  · decide
  · decide

end Runs

end

/-!
## The expiry index and the byte total

`expiring` and `bytes` repeat what the records say. `Consistent` is that they say the same; every
command keeps it (`Consistent.apply`), so `checkInvariants` passes, the subtraction of a footprint
never underflows (`subtractions_fit`) and a sweep, which goes by the index, removes expired records
only (`evict_keeps_live`).
-/

open List

variable {f : KvFragment} {key k : String} {record : KvRecord} {now i : ℕ} {policy : KvPolicy}

structure Consistent (f : KvFragment) : Prop where
  bytes : f.bytes = (f.entries.entries.map fun e => e.2.footprint e.1).sum
  index : ∀ t k v, f.expiring.get? (expiryKey t k v) = some () ↔
    ∃ record, f.entries.get? k = some record ∧ record.expiresAtMs = some t ∧ record.version = v

lemma consistent_new : Consistent KvFragment.new where
  bytes := rfl
  index := by
    intro t k v
    simp [KvFragment.new]

lemma expiryKey_inj (h : expiryKey t k v = expiryKey t' key v') : t = t' ∧ k = key ∧ v = v' := by
  have h₁ := Prod.mk.inj (toLex.injective h)
  have h₂ := Prod.mk.inj (toLex.injective h₁.2)
  exact ⟨h₁.1, h₂.1, h₂.2⟩

section

variable (h : Consistent f)
include h

lemma Consistent.footprint_le (hr : f.entries.get? key = some record) :
    record.footprint key ≤ f.bytes := by
  have := sum_erase f.entries key fun e => e.2.footprint e.1
  rw [hr] at this
  rw [h.bytes]
  simp only [map_some, getD_some] at this
  omega

lemma Consistent.take (key : String) : Consistent (f.take key).1 := by
  cases hr : f.entries.get? key with
  | none =>
    have htake : (f.take key).1 = f := by simp [KvFragment.take, hr]
    rw [htake]
    exact h
  | some record =>
    have hentries : (f.take key).1.entries = f.entries.erase key := by simp [KvFragment.take, hr]
    have hbytes : (f.take key).1.bytes = f.bytes - record.footprint key := by
      simp [KvFragment.take, hr]
    refine ⟨?_, fun t k v => ?_⟩
    · have hsum := sum_erase f.entries key fun e => e.2.footprint e.1
      rw [hr] at hsum
      rw [hbytes, hentries, h.bytes]
      simp only [map_some, getD_some] at hsum
      omega
    · rw [get?_take]
      -- the entry of the index that goes is the one of the record that goes
      have hexpiring : (f.take key).1.expiring.get? (expiryKey t k v) = some () ↔
          k ≠ key ∧ f.expiring.get? (expiryKey t k v) = some () := by
        have hexp : (f.take key).1.expiring = (record.expiresAtMs.map fun at_ =>
            f.expiring.erase (expiryKey at_ key record.version)).getD f.expiring := by
          unfold KvFragment.take
          generalize f.entries.get? key = found at hr ⊢
          subst hr
          dsimp only
          cases record.expiresAtMs <;> rfl
        rw [hexp]
        constructor
        · intro hget
          have hold : f.expiring.get? (expiryKey t k v) = some () := by
            cases hat : record.expiresAtMs with
            | none => rw [hat] at hget; exact hget
            | some =>
              rw [hat, map_some, getD_some, get?_erase] at hget
              split at hget
              · cases hget
              · exact hget
          refine ⟨?_, hold⟩
          rintro rfl
          obtain ⟨_, hr', hat, rfl⟩ := (h.index t k v).1 hold
          cases hr.symm.trans hr'
          rw [hat, map_some, getD_some, get?_erase, if_pos rfl] at hget
          cases hget
        · rintro ⟨hk, hget⟩
          cases record.expiresAtMs with
          | none => exact hget
          | some =>
            rw [map_some, getD_some, get?_erase, if_neg fun heq => hk (expiryKey_inj heq).2.1]
            exact hget
      rw [hexpiring, h.index]
      by_cases hk : k = key <;> simp [hk]

lemma Consistent.insert (hnone : f.entries.get? key = none) (record : KvRecord) :
    Consistent (f.insert key record) where
  bytes := by
    have := sum_insert_of_none hnone record fun e => e.2.footprint e.1
    change f.bytes + record.footprint key = _
    rw [h.bytes]
    exact this.symm
  index := by
    intro t k v
    rw [get?_insert]
    have hold : k = key → f.expiring.get? (expiryKey t k v) ≠ some () := by
      rintro rfl hget
      obtain ⟨record', hr', -⟩ := (h.index t k v).1 hget
      rw [hnone] at hr'
      cases hr'
    have hexp : (f.insert key record).expiring = (record.expiresAtMs.map fun at_ =>
        f.expiring.insert (expiryKey at_ key record.version) ()).getD f.expiring := by
      unfold KvFragment.insert
      cases record.expiresAtMs <;> rfl
    rw [hexp]
    cases hat : record.expiresAtMs with
    | none =>
      rw [map_none, getD_none]
      by_cases hk : k = key
      · rw [if_pos hk]
        refine ⟨fun hget => absurd hget (hold hk), ?_⟩
        rintro ⟨record', hr', hat', -⟩
        cases hr'
        rw [hat] at hat'
        cases hat'
      · rw [if_neg hk]
        exact h.index t k v
    | some at_ =>
      rw [map_some, getD_some, SortedMap.get?_insert]
      by_cases hk : k = key
      · rw [if_pos hk]
        subst hk
        constructor
        · intro hget
          split at hget
          · rename_i heq
            obtain ⟨rfl, -, rfl⟩ := expiryKey_inj heq
            exact ⟨record, rfl, hat, rfl⟩
          · exact absurd hget (hold rfl)
        · rintro ⟨record', hr', hat', rfl⟩
          cases hr'
          cases hat.symm.trans hat'
          rw [if_pos rfl]
      · rw [if_neg hk, if_neg fun heq => hk (expiryKey_inj heq).2.1]
        exact h.index t k v

lemma Consistent.noteReclaimedAt (now : ℕ) : Consistent (f.noteReclaimedAt now) :=
  ⟨h.bytes, h.index⟩

lemma Consistent.reclaimIfExpired (key : String) (now : ℕ) :
    Consistent (f.reclaimIfExpired key now) := by
  unfold KvFragment.reclaimIfExpired
  split
  · exact (h.take key).noteReclaimedAt now
  · exact h

lemma Consistent.store (key : String) (record : KvRecord) (policy : KvPolicy) :
    Consistent (store f key record policy).1 := by
  unfold Kv.store
  dsimp only
  split
  · exact h
  split
  · exact h
  · refine (h.take key).insert ?_ record
    rw [get?_take, if_pos rfl]

end

lemma Consistent.foldl_evictKey (keys : List String) (h : Consistent acc.1) :
    Consistent (keys.foldl evictKey acc).1 := by
  induction keys generalizing acc with
  | nil => exact h
  | cons key keys ih =>
    exact ih (h.take key)

lemma Consistent.evict (h : Consistent f) (cutoffMs limit : ℕ) :
    Consistent (evict f cutoffMs limit).1 := by
  have hswept : ∀ keys : List String, Consistent (keys.foldl evictKey (f, 0)).1 := fun keys =>
    Consistent.foldl_evictKey keys h
  unfold Kv.evict
  dsimp only
  split
  · exact (hswept _).noteReclaimedAt _
  · exact hswept _

/-- **Every command keeps the index and the total in step with the records.** -/
lemma Consistent.apply (h : Consistent f) (c : KvCommand) (policy : KvPolicy) (i : ℕ) :
    Consistent (apply f c policy i).1 := by
  cases c with
  | put key =>
    unfold Kv.apply put
    dsimp only
    split
    · exact h
    split
    · exact h
    · exact (h.reclaimIfExpired key _).store key _ policy
  | delete key =>
    unfold Kv.apply delete
    dsimp only
    split
    · exact h
    split
    · exact h
    split
    · exact (h.reclaimIfExpired key _).take key
    · exact h.reclaimIfExpired key _
  | takeOnce key =>
    unfold Kv.apply takeOnce
    dsimp only
    split
    · exact h
    split
    · exact (h.reclaimIfExpired key _).take key
    · exact h.reclaimIfExpired key _
  | evict cutoffMs => exact h.evict cutoffMs _

/-- **In every run.** -/
lemma consistent_stateAt (policy : KvPolicy) (log : List (KvCommand × ℕ)) (n : ℕ) :
    Consistent (stateAt policy log n) :=
  Machine.invariant Consistent (fun _ _ => True) consistent_new
    (fun _ c h _ => h.apply c.1 policy c.2) (fun _ _ _ => trivial) n

/-! ## The recomputation -/

lemma get?_foldl_expiry {l : List (String × KvRecord)}
    (m : SortedMap (ℕ ×ₗ String ×ₗ ℕ) Unit) (e : ℕ ×ₗ String ×ₗ ℕ) :
    (l.foldl (fun index e => match e.2.expiresAtMs with
        | some at_ => index.insert (expiryKey at_ e.1 e.2.version) ()
        | none => index) m).get? e = some () ↔
      m.get? e = some () ∨ ∃ x ∈ l, ∃ t, x.2.expiresAtMs = some t ∧ expiryKey t x.1 x.2.version = e := by
  induction l generalizing m with
  | nil => simp
  | cons x l ih =>
    rw [foldl_cons, ih]
    simp only [mem_cons, or_and_right, exists_or, exists_eq_left]
    cases hat : x.2.expiresAtMs with
    | none => simp
    | some t =>
      rw [SortedMap.get?_insert]
      by_cases he : e = expiryKey t x.1 x.2.version
      · simp [he]
      · simp [he, Ne.symm he]

/-- **The index equals its recomputation.** -/
lemma Consistent.expiring_eq (h : Consistent f) :
    (expiryIndexOf f.entries.entries).entries = f.expiring.entries := by
  refine entries_ext fun e => ?_
  have hunit : ∀ o o' : Option Unit, (o = some () ↔ o' = some ()) → o = o' := by
    intro o o' hiff
    cases o <;> cases o' <;> simp_all
  refine hunit _ _ ((get?_foldl_expiry .empty e).trans ?_)
  have hkey : e = expiryKey (ofLex e).1 (ofLex (ofLex e).2).1 (ofLex (ofLex e).2).2 := rfl
  rw [get?_empty, hkey, h.index]
  constructor
  · rintro (hnone | ⟨x, hx, _, hat, he⟩)
    · cases hnone
    · obtain ⟨rfl, hk, hv⟩ := expiryKey_inj he
      exact ⟨x.2, get?_eq_some_iff.2 (by rw [← hk]; exact hx), hat, hv⟩
  · rintro ⟨record, hr, hat, hv⟩
    refine .inr ⟨(_, record), get?_eq_some_iff.1 hr, _, hat, ?_⟩
    rw [hv]

lemma Consistent.checkInvariants (h : Consistent f) : f.checkInvariants = .ok () := by
  unfold KvFragment.checkInvariants
  rw [if_neg (not_not.2 h.bytes.symm), if_neg (not_not.2 (congrArg (List.map Prod.fst) h.expiring_eq))]

/-! ## Byte subtractions -/

/-- The subtraction `take` makes: from the total, the footprint of the record. -/
def takeSubtraction (f : KvFragment) (key : String) : List (ℕ × ℕ) :=
  ((f.entries.get? key).map fun record => (f.bytes, record.footprint key)).toList

def sweepSubtractions (f : KvFragment) : List String → List (ℕ × ℕ)
  | [] => []
  | key :: keys => takeSubtraction f key ++ sweepSubtractions (f.take key).1 keys

/-- The byte subtractions a command can make, in order: reclaiming, making room, removing. -/
def subtractions (f : KvFragment) (policy : KvPolicy) : KvCommand → List (ℕ × ℕ)
  | .put key _ _ _ nowMs =>
    let reclaimed := f.reclaimIfExpired key (f.atInstant nowMs)
    takeSubtraction f key ++
      (reclaimed.bytes, ((reclaimed.entries.get? key).map (·.footprint key)).getD 0) ::
        takeSubtraction reclaimed key
  | .delete key _ nowMs | .takeOnce key nowMs =>
    takeSubtraction f key ++ takeSubtraction (f.reclaimIfExpired key (f.atInstant nowMs)) key
  | .evict cutoffMs limit =>
    sweepSubtractions f (((f.expiredRange (f.atInstant cutoffMs)).take (policy.evictBatch limit)).map
      fun e => (ofLex (ofLex e).2).1)

lemma Consistent.takeSubtraction_fits (h : Consistent f) :
    ∀ s ∈ takeSubtraction f key, s.2 ≤ s.1 := by
  intro s hs
  obtain ⟨_, hr, rfl⟩ := map_eq_some_iff.1 (mem_toList.1 hs)
  exact h.footprint_le hr

lemma Consistent.sweepSubtractions_fit (h : Consistent f) (keys : List String) :
    ∀ s ∈ sweepSubtractions f keys, s.2 ≤ s.1 := by
  induction keys generalizing f with
  | nil => exact fun s hs => absurd hs not_mem_nil
  | cons key _ ih =>
    intro s hs
    rcases mem_append.1 hs with hs | hs
    · exact h.takeSubtraction_fits s hs
    · exact ih (h.take key) s hs

/-- **No byte subtraction underflows.** -/
lemma Consistent.subtractions_fit (h : Consistent f) (c : KvCommand) (policy : KvPolicy) :
    ∀ s ∈ subtractions f policy c, s.2 ≤ s.1 := by
  intro s hs
  cases c with
  | put key _ _ _ nowMs =>
    have hreclaimed := h.reclaimIfExpired key (f.atInstant nowMs)
    rcases mem_append.1 hs with hs | hs
    · exact h.takeSubtraction_fits s hs
    rcases mem_cons.1 hs with rfl | hs
    · cases hr : (f.reclaimIfExpired key (f.atInstant nowMs)).entries.get? key with
      | none => simp
      | some => simpa [hr] using hreclaimed.footprint_le hr
    · exact hreclaimed.takeSubtraction_fits s hs
  | delete key | takeOnce key =>
    rcases mem_append.1 hs with hs | hs
    · exact h.takeSubtraction_fits s hs
    · exact (h.reclaimIfExpired key _).takeSubtraction_fits s hs
  | evict => exact h.sweepSubtractions_fit _ s hs

lemma get?_foldl_evictKey (keys : List String) (acc : KvFragment × ℕ) (k : String) (hk : k ∉ keys) :
    (keys.foldl evictKey acc).1.entries.get? k = acc.1.entries.get? k := by
  induction keys generalizing acc with
  | nil => rfl
  | cons key _ ih =>
    rw [mem_cons, not_or] at hk
    rw [foldl_cons, ih _ hk.2]
    exact (get?_take acc.1 key k).trans (if_neg hk.1)

/-- **A sweep leaves every live record.** -/
lemma evict_keeps_live (h : Consistent f)
    (hlive : f.live k (f.atInstant cutoffMs) = some record) :
    (evict f cutoffMs limit).1.entries.get? k = some record := by
  obtain ⟨hrecord, hfresh⟩ := filter_eq_some_iff.1 hlive
  have hout : k ∉ ((f.expiredRange (f.atInstant cutoffMs)).take limit).map
      (fun e => (ofLex (ofLex e).2).1) := by
    intro hmem
    obtain ⟨e, he, hk⟩ := mem_map.1 hmem
    obtain ⟨hin, hle⟩ := mem_filter.1 (mem_of_mem_take he)
    obtain ⟨⟨e', _⟩, hentry, rfl⟩ := mem_map.1 hin
    obtain ⟨_, hr', hat, -⟩ := (h.index (ofLex e').1 k (ofLex (ofLex e').2).2).1
      (by rw [← hk]; exact get?_eq_some_iff.2 hentry)
    cases hrecord.symm.trans hr'
    simp only [KvRecord.expiredAt, hat, any_some] at hfresh
    simp [hle] at hfresh
  have hswept := get?_foldl_evictKey _ (f, 0) k hout
  unfold evict
  dsimp only
  split <;> exact hswept.trans hrecord

end Fluree.Raft.Kv
