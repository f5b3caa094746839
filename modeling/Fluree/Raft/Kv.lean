import Fluree.Lib.SortedMap

/-!
# The replicated key/value fragment

`apply f command policy logIndex` reduces one command into the fragment. A record's version is
the log index of the write that created it; an expired record is absent for every observer, and
reclaiming one raises the time floor, below which no decision is made.

The expiry index and the byte total are kept next to the records, as the code keeps them.
Instants, versions and sizes are `u64` in the code.
-/

namespace Fluree.Raft.Kv

open Lib

def HARD_MAX_EVICT_LIMIT : ℕ := 1024

def DEFAULT_EVICT_LIMIT : ℕ := 256

def DEFAULT_MAX_KEY_BYTES : ℕ := 1024

def DEFAULT_MAX_VALUE_BYTES : ℕ := 1024 * 1024

/-- The precondition of a mutation, over the live records. -/
inductive Expect where
  | any | absent
  | version (want : ℕ)

inductive KvCommand where
  | put (key : String) (value : List UInt8) (expect : Expect) (ttlMs : Option ℕ) (nowMs : ℕ)
  | delete (key : String) (expect : Expect) (nowMs : ℕ)
  | takeOnce (key : String) (nowMs : ℕ)
  | evict (cutoffMs limit : ℕ)

structure KvRecord where
  value : List UInt8
  version : ℕ
  expiresAtMs : Option ℕ
deriving DecidableEq

inductive KvRejection where
  | keyTooLarge (bytes max : ℕ)
  | valueTooLarge (bytes max : ℕ)
  | ttlZero
  | ttlAboveMax (ttlMs maxTtlMs : ℕ)
  | ttlOverflow (nowMs ttlMs : ℕ)
  | immortalNotAllowed
  | entryQuotaExceeded (entries max : ℕ)
  | byteQuotaExceeded (bytes max : ℕ)

inductive KvResponse where
  | written (version : ℕ) (expiresAtMs : Option ℕ)
  | deleted (removed : Bool)
  | taken (record : Option KvRecord)
  | evicted (removed : ℕ) (moreExpired : Bool)
  | conflict (current : Option KvRecord)
  | rejected (rejection : KvRejection)

structure KvPolicy where
  maxKeyBytes : ℕ
  maxValueBytes : ℕ
  maxTtlMs : ℕ
  allowImmortal : Bool
  maxEntries : ℕ
  maxBytes : ℕ
  maxEvictPerApply : ℕ

namespace KvPolicy

def default : KvPolicy where
  maxKeyBytes := DEFAULT_MAX_KEY_BYTES
  maxValueBytes := DEFAULT_MAX_VALUE_BYTES
  maxTtlMs := 24 * 60 * 60 * 1000
  allowImmortal := false
  maxEntries := 100000
  maxBytes := 64 * 1024 * 1024
  maxEvictPerApply := DEFAULT_EVICT_LIMIT

variable (policy : KvPolicy)

def checkKey (key : String) : Except KvRejection Unit :=
  if policy.maxKeyBytes < key.utf8ByteSize then
    .error (.keyTooLarge key.utf8ByteSize policy.maxKeyBytes)
  else .ok ()

/-- The expiry of a put, or why it is refused. A time to live is refused and never clamped. -/
def checkTtl (ttlMs : Option ℕ) (nowMs : ℕ) : Except KvRejection (Option ℕ) :=
  match ttlMs with
  | none => if policy.allowImmortal then .ok none else .error .immortalNotAllowed
  | some ttl =>
    if ttl = 0 then .error .ttlZero
    else if policy.maxTtlMs < ttl then .error (.ttlAboveMax ttl policy.maxTtlMs)
    else if nowMs + ttl < 2 ^ 64 then .ok (some (nowMs + ttl))
    else .error (.ttlOverflow nowMs ttl)

def checkPut (key : String) (value : List UInt8) (ttlMs : Option ℕ)
    (nowMs : ℕ) : Except KvRejection (Option ℕ) :=
  match policy.checkKey key with
  | .error rejection => .error rejection
  | .ok () =>
    if policy.maxValueBytes < value.length then
      .error (.valueTooLarge value.length policy.maxValueBytes)
    else policy.checkTtl ttlMs nowMs

/-- The batch of a sweep: at least one record, at most the policy's and the hard limit. -/
def evictBatch (limit : ℕ) : ℕ :=
  max 1 (min limit (max 1 (min policy.maxEvictPerApply HARD_MAX_EVICT_LIMIT)))

end KvPolicy

namespace KvRecord

def expiredAt (record : KvRecord) (nowMs : ℕ) : Bool := record.expiresAtMs.any (· ≤ nowMs)

def footprint (record : KvRecord) (key : String) : ℕ := key.utf8ByteSize + record.value.length

end KvRecord

/-- The records, the expiry index `(expires_at_ms, key, version)`, the bytes held and the latest
instant at which an expired record was reclaimed. -/
structure KvFragment where
  entries : SortedMap String KvRecord
  expiring : SortedMap (ℕ ×ₗ String ×ₗ ℕ) Unit
  bytes : ℕ
  timeFloor : ℕ

namespace KvFragment

def new : KvFragment := ⟨.empty, .empty, 0, 0⟩

variable (f : KvFragment)

def atInstant (nowMs : ℕ) : ℕ := max nowMs f.timeFloor

variable (key : String) (nowMs : ℕ)

def live : Option KvRecord := (f.entries.get? key).filter (fun record => !record.expiredAt nowMs)

def getAt : Option KvRecord := f.live key (f.atInstant nowMs)

def iterAt : List (String × KvRecord) :=
  f.entries.entries.filter (fun e => !e.2.expiredAt (f.atInstant nowMs))

def expiryKey (at_ : ℕ) (key : String) (version : ℕ) : ℕ ×ₗ String ×ₗ ℕ :=
  toLex (at_, toLex (key, version))

def expiredRange (cutoffMs : ℕ) : List (ℕ ×ₗ String ×ₗ ℕ) :=
  (f.expiring.entries.map Prod.fst).filter (fun e => (ofLex e).1 ≤ cutoffMs)

inductive InvariantViolation where
  | byteTotal (stored actual : ℕ)
  | expiryIndex (stored actual : List (ℕ ×ₗ String ×ₗ ℕ))

def expiryIndexOf (entries : List (String × KvRecord)) : SortedMap (ℕ ×ₗ String ×ₗ ℕ) Unit :=
  entries.foldl
    (fun index e => match e.2.expiresAtMs with
      | some at_ => index.insert (expiryKey at_ e.1 e.2.version) ()
      | none => index)
    .empty

/-- Recompute both denormalizations and compare. -/
def checkInvariants : Except InvariantViolation Unit :=
  let actualBytes := (f.entries.entries.map fun e => e.2.footprint e.1).sum
  let actual := (expiryIndexOf f.entries.entries).entries.map Prod.fst
  let stored := f.expiring.entries.map Prod.fst
  if actualBytes ≠ f.bytes then .error (.byteTotal f.bytes actualBytes)
  else if actual ≠ stored then .error (.expiryIndex stored actual)
  else .ok ()

/-- Drop a record and every trace of it. -/
def take : KvFragment × Option KvRecord :=
  match f.entries.get? key with
  | none => (f, none)
  | some record =>
    ({ f with
        entries := f.entries.erase key
        bytes := f.bytes - record.footprint key
        expiring := match record.expiresAtMs with
          | some at_ => f.expiring.erase (expiryKey at_ key record.version)
          | none => f.expiring },
      some record)

def insert (record : KvRecord) : KvFragment :=
  { f with
    bytes := f.bytes + record.footprint key
    expiring := match record.expiresAtMs with
      | some at_ => f.expiring.insert (expiryKey at_ key record.version) ()
      | none => f.expiring
    entries := f.entries.insert key record }

def noteReclaimedAt : KvFragment :=
  { f with timeFloor := max f.timeFloor nowMs }

def reclaimIfExpired : KvFragment :=
  if (f.entries.get? key).any (fun record => record.expiredAt nowMs) then
    (f.take key).1.noteReclaimedAt nowMs
  else f

def conflict : KvResponse := .conflict (f.live key nowMs)

/-- The precondition against the live record. -/
def satisfies : Expect → Bool
  | .any => true
  | .absent => (f.live key nowMs).isNone
  | .version want => (f.live key nowMs).any (fun record => record.version = want)

end KvFragment

open KvFragment

variable (f : KvFragment) (key : String)

/-- Write the record over what is left at the key, within the quotas. -/
def store (record : KvRecord) (policy : KvPolicy) :
    KvFragment × KvResponse :=
  let displaced := ((f.entries.get? key).map (·.footprint key)).getD 0
  let afterBytes := f.bytes - displaced + record.footprint key
  let afterEntries := f.entries.entries.length + (f.entries.get? key).isNone.toNat
  if policy.maxBytes < afterBytes then
    (f, .rejected (.byteQuotaExceeded afterBytes policy.maxBytes))
  else if policy.maxEntries < afterEntries then
    (f, .rejected (.entryQuotaExceeded afterEntries policy.maxEntries))
  else ((f.take key).1.insert key record, .written record.version record.expiresAtMs)

def put (value : List UInt8) (expect : Expect)
    (ttlMs : Option ℕ) (nowMs : ℕ) (policy : KvPolicy) (logIndex : ℕ) : KvFragment × KvResponse :=
  let nowMs := f.atInstant nowMs
  match policy.checkPut key value ttlMs nowMs with
  | .error rejection => (f, .rejected rejection)
  | .ok expiresAtMs =>
    if ¬ f.satisfies key nowMs expect then (f, f.conflict key nowMs)
    else
      -- reclaimed before the quotas are checked, and also when they refuse the write
      store (f.reclaimIfExpired key nowMs) key ⟨value, logIndex, expiresAtMs⟩ policy

def delete (expect : Expect) (nowMs : ℕ) (policy : KvPolicy) :
    KvFragment × KvResponse :=
  match policy.checkKey key with
  | .error rejection => (f, .rejected rejection)
  | .ok () =>
    let nowMs := f.atInstant nowMs
    if ¬ f.satisfies key nowMs expect then (f, f.conflict key nowMs)
    else
      let reclaimed := f.reclaimIfExpired key nowMs
      if (f.live key nowMs).isSome then
        let taken := reclaimed.take key
        (taken.1, .deleted taken.2.isSome)
      else (reclaimed, .deleted false)

def takeOnce (nowMs : ℕ) (policy : KvPolicy) :
    KvFragment × KvResponse :=
  match policy.checkKey key with
  | .error rejection => (f, .rejected rejection)
  | .ok () =>
    let nowMs := f.atInstant nowMs
    let reclaimed := f.reclaimIfExpired key nowMs
    if (reclaimed.live key nowMs).isSome then
      let taken := reclaimed.take key
      (taken.1, .taken taken.2)
    else (reclaimed, .taken none)

/-- One removal of a sweep. -/
def evictKey (acc : KvFragment × ℕ) (key : String) : KvFragment × ℕ :=
  let taken := acc.1.take key
  (taken.1, if taken.2.isSome then acc.2 + 1 else acc.2)

def evict (cutoffMs limit : ℕ) : KvFragment × KvResponse :=
  let cutoffMs := f.atInstant cutoffMs
  let doomed := ((f.expiredRange cutoffMs).take limit).map (fun e => (ofLex (ofLex e).2).1)
  let swept := doomed.foldl evictKey (f, 0)
  let f := if 0 < swept.2 then swept.1.noteReclaimedAt cutoffMs else swept.1
  (f, .evicted swept.2 (f.expiredRange cutoffMs ≠ []))

/-- **One committed command.** -/
def apply (command : KvCommand) (policy : KvPolicy) (logIndex : ℕ) :
    KvFragment × KvResponse :=
  match command with
  | .put key value expect ttlMs nowMs => put f key value expect ttlMs nowMs policy logIndex
  | .delete key expect nowMs => delete f key expect nowMs policy
  | .takeOnce key nowMs => takeOnce f key nowMs policy
  | .evict cutoffMs limit => evict f cutoffMs (policy.evictBatch limit)

end Fluree.Raft.Kv
