import Fluree.Core.NsEncoding

/-!
# Writers of subject ids

A transaction encodes IRIs through its own registry; the workers of an import share one allocator
and keep what they have looked up. A commit carries the codes that are new.
-/

namespace Fluree.Transact

open Lib Namespaces

/-! ## One writer -/

structure NamespaceRegistry where
  codes : NamespaceCodes
  splitMode : NsSplitMode

namespace NamespaceRegistry

/-- `none` is the panic on a table that contradicts the fixed codes. -/
def fromDb (snapshot : LedgerSnapshot) : Option NamespaceRegistry :=
  (NamespaceCodes.layeredOver snapshot.tables).toOption.map (⟨·, snapshot.nsSplitMode⟩)

end NamespaceRegistry

/-- The code of a text, or `OVERFLOW` as a sentinel when there is none to give. -/
def getOrAllocate (codes : NamespaceCodes) (text : String) : UInt16 × NamespaceCodes :=
  match codes.allocatePrefix text with
  | .ok r => r
  | .error _ => (OVERFLOW, codes)

/-- Under the sentinel the full IRI is the name. -/
def sidOf (code : UInt16) (iri name : String) : Sid :=
  if code = OVERFLOW then ⟨OVERFLOW, iri⟩ else ⟨code, name⟩

namespace NamespaceRegistry

/-- `none` is a panic of the split. -/
def sidForIri (r : NamespaceRegistry) (iri : String) : Option (Sid × NamespaceRegistry) :=
  (canonicalSplit iri r.splitMode).map fun (text, name) =>
    let (code, codes) := getOrAllocate r.codes text
    (sidOf code iri name, { r with codes := codes })

end NamespaceRegistry

/-! ## Several writers -/

/-- The table that workers share, and the split mode as a byte. -/
structure SharedNamespaceAllocator where
  inner : NamespaceCodes
  splitMode : UInt8

namespace SharedNamespaceAllocator

/-- `none` is the panic on a mode that has no byte. -/
def fromRegistry (r : NamespaceRegistry) : Option SharedNamespaceAllocator :=
  r.splitMode.toByte.map (⟨r.codes, ·⟩)

variable (a : SharedNamespaceAllocator)

def mode : NsSplitMode := NsSplitMode.fromByte a.splitMode

/-- Under the write lock: look again, then allocate. -/
def writeLocked (text : String) : UInt16 × SharedNamespaceAllocator :=
  match a.inner.getCode text with
  | some code => (code, a)
  | none =>
    let (code, inner) := getOrAllocate a.inner text
    (code, { a with inner := inner })

/-- Codes and texts for publication; an unknown code is passed over. -/
def lookupCodes (codes : List UInt16) : List (UInt16 × String) :=
  codes.filterMap fun code => (a.inner.getPrefix code).map (code, ·)

def snapshot : KeyedMap String UInt16 × UInt16 :=
  (a.inner.own.reverse ∪ (a.inner.base.elim ∅ (·.reverse)), a.inner.nextCode)

end SharedNamespaceAllocator

structure WorkerCache where
  localCodes : KeyedMap String UInt16
  splitMode : NsSplitMode
  snapshotNextCode : UInt16
  newCodes : List UInt16

namespace WorkerCache

def new (a : SharedNamespaceAllocator) : WorkerCache where
  localCodes := a.snapshot.1
  splitMode := a.mode
  snapshotNextCode := a.snapshot.2
  newCodes := []

def trackCode (w : WorkerCache) (code : UInt16) : WorkerCache :=
  if w.snapshotNextCode ≤ code ∧ code < OVERFLOW then { w with newCodes := code :: w.newCodes } else w

def keep (w : WorkerCache) (text : String) (code : UInt16) : WorkerCache :=
  if code < OVERFLOW then { w with localCodes := w.localCodes.insert text code }.trackCode code else w

end WorkerCache

/-! ## Runs of one writer -/

/-- A ledger with a transaction in the making. `pending` and `committed` record which subject id
was returned for which IRI. -/
structure Writing where
  snapshot : LedgerSnapshot
  store : BinaryIndexStore
  registry : NamespaceRegistry
  pending : List (String × Sid)
  committed : List (String × Sid)

inductive WriteAct where
  | begin
  | sidForIri (iri : String)
  | commit

def entriesOf (delta : KeyedMap UInt16 String) : List (UInt16 × String) :=
  delta.entries.map fun e => (e.1, e.2)

/-- A commit carries a delta to the readers. -/
def publish (snapshot : LedgerSnapshot) (store : BinaryIndexStore) (delta : List (UInt16 × String)) :
    Except NsAllocError (LedgerSnapshot × BinaryIndexStore) := do
  let snapshot ← snapshot.applyNamespaceDelta delta
  let store ← store.augmentNamespaceCodes delta
  .ok (snapshot, store)

/-- An act that fails changes nothing. -/
def Writing.step (s : Writing) : WriteAct → Writing
  | .begin =>
    match NamespaceRegistry.fromDb s.snapshot with
    | some registry => { s with registry := registry, pending := [] }
    | none => s
  | .sidForIri iri =>
    match s.registry.sidForIri iri with
    | some (sid, registry) => { s with registry := registry, pending := (iri, sid) :: s.pending }
    | none => s
  | .commit =>
    let (delta, codes) := s.registry.codes.takeDelta
    match publish s.snapshot s.store (entriesOf delta) with
    | .ok (snapshot, store) =>
      { snapshot := snapshot, store := store, registry := { s.registry with codes := codes },
        pending := [], committed := s.pending ++ s.committed }
    | .error _ => s

/-! ## Runs of an import -/

/-- Where a worker stands in the encoding of an IRI. -/
inductive Phase where
  | idle
  /-- The text is not in the worker's own table. -/
  | reading (iri text name : String)
  /-- Nor was it in the shared table when the worker looked. -/
  | writing (iri text name : String)
  deriving DecidableEq

structure Worker where
  cache : WorkerCache
  phase : Phase
  written : List (String × Sid)

/-- The chunks of an import are parsed by workers and committed in their order. -/
structure Importing where
  snapshot : LedgerSnapshot
  store : BinaryIndexStore
  alloc : SharedNamespaceAllocator
  published : List UInt16
  workers : ℕ → Option Worker
  /-- The number of chunks committed. -/
  done : ℕ
  committed : List (String × Sid)

inductive ImportAct where
  | spawn (chunk : ℕ)
  | ask (chunk : ℕ) (iri : String)
  | read (chunk : ℕ)
  | write (chunk : ℕ)
  | commit

def Worker.ask (w : Worker) (iri : String) : Worker :=
  match canonicalSplit iri w.cache.splitMode with
  | none => w
  | some (text, name) =>
    match w.cache.localCodes.lookup text with
    | some code =>
      { w with cache := w.cache.trackCode code, written := (iri, sidOf code iri name) :: w.written }
    | none => { w with phase := .reading iri text name }

/-- The shared table answers. -/
def Worker.answer (w : Worker) (iri text name : String) (code : UInt16) : Worker where
  cache := w.cache.keep text code
  phase := .idle
  written := (iri, sidOf code iri name) :: w.written

variable (s : Importing)

def Importing.setWorker (chunk : ℕ) (w : Worker) : Importing :=
  { s with workers := Function.update s.workers chunk (some w) }

/-- The new codes of a chunk that no earlier commit has published. -/
def Importing.unpublished (newCodes : List UInt16) : List UInt16 :=
  newCodes.filter fun c => c < OVERFLOW ∧ c ∉ s.published

def Importing.commitChunk (w : Worker) : Importing :=
  let unpublished := s.unpublished w.cache.newCodes
  match publish s.snapshot s.store (s.alloc.lookupCodes unpublished) with
  | .ok (snapshot, store) =>
    { s with snapshot := snapshot, store := store, published := unpublished ++ s.published,
             done := s.done + 1, committed := w.written ++ s.committed }
  | .error _ => s

/-- An act that does not apply changes nothing. -/
def Importing.step : ImportAct → Importing
  | .spawn chunk =>
    match s.workers chunk with
    | none => s.setWorker chunk ⟨WorkerCache.new s.alloc, .idle, []⟩
    | some _ => s
  | .ask chunk iri =>
    match s.workers chunk with
    | some w => if s.done ≤ chunk ∧ w.phase = .idle then s.setWorker chunk (w.ask iri) else s
    | none => s
  | .read chunk =>
    match s.workers chunk with
    | some w =>
      match w.phase with
      | .reading iri text name =>
        match s.alloc.inner.getCode text with
        | some code => s.setWorker chunk (w.answer iri text name code)
        | none => s.setWorker chunk { w with phase := .writing iri text name }
      | _ => s
    | none => s
  | .write chunk =>
    match s.workers chunk with
    | some w =>
      match w.phase with
      | .writing iri text name =>
        let (code, alloc) := s.alloc.writeLocked text
        { s with alloc := alloc }.setWorker chunk (w.answer iri text name code)
      | _ => s
    | none => s
  | .commit =>
    match s.workers s.done with
    | some w => if w.phase = .idle then s.commitChunk w else s
    | none => s

end Fluree.Transact
