import Mathlib.Data.List.Basic

/-!
# Replaying the write-ahead log of a storage root

The files under a root are the source of truth; the log holds the records that may not have reached
the device with them. `replay` reads the segments in order, once for the records that later ones
cancel and once to apply the others.

A file is missing (`none`) or has contents; `readOpt` takes an empty file for a missing one. The
sidecar lock of a key is a file of the root as well: taking it creates it.
-/

namespace Fluree.Wal

abbrev Bytes := List UInt8

/-- One logged storage operation. Keys are paths relative to the root. -/
inductive Op where
  | write (key : String) (bytes : Bytes)
  | insert (key : String) (bytes : Bytes)
  | cas (key : String) (expected : Option Bytes) (new : Bytes)
  | delete (key : String)
  | cancel (seq : ℕ) (key : String)
deriving DecidableEq

abbrev Files := String → Option Bytes

def readOpt (content : Option Bytes) : Option Bytes := content.filter (· ≠ [])

/-- The key of a record that changes its file. -/
def Op.key? : Op → Option String
  | .write key _ | .insert key _ | .cas key _ _ | .delete key => some key
  | .cancel _ _ => none

/-! ## The sidecar lock -/

/-- The parts before and after the last occurrence of a character. -/
def splitLast (c : Char) (l : List Char) : Option (List Char × List Char) :=
  match l.reverse.span (· ≠ c) with
  | (_, []) => none
  | (after, _ :: before) => some (before.reverse, after.reverse)

/-- Replace the extension of a file name, or add one. A name that starts with its only dot has no
extension. -/
def nameWithExtension (name ext : List Char) : List Char :=
  match splitLast '.' name with
  | some (stem, _) => if stem = [] then name ++ '.' :: ext else stem ++ '.' :: ext
  | none => name ++ '.' :: ext

def withExtension (path ext : String) : String :=
  match splitLast '/' path.toList with
  | some (dir, name) => .ofList (dir ++ '/' :: nameWithExtension name ext.toList)
  | none => .ofList (nameWithExtension path.toList ext.toList)

def lockPath (key : String) : String := withExtension key "lock"

/-- Take the lock: the file is created when it is missing, and otherwise left as it is. -/
def keyLock (files : Files) (key : String) : Files :=
  if files (lockPath key) = none then Function.update files (lockPath key) (some []) else files

/-! ## One record -/

/-- Apply one recovered record to the root. -/
def apply (files : Files) : Op → Files
  | .write key bytes =>
    if readOpt (files key) ≠ some bytes then Function.update files key (some bytes) else files
  | .insert key bytes =>
    let files := keyLock files key
    if readOpt (files key) = none then Function.update files key (some bytes) else files
  | .cas key expected new =>
    let files := keyLock files key
    let current := readOpt (files key)
    if current = some new then files
    -- a missing or empty file is a torn write to repair
    else if current = none ∨ current = expected then Function.update files key (some new)
    -- the file has moved on
    else files
  | .delete key => Function.update files key none
  | .cancel _ _ => files

/-! ## The segments -/

/-- A segment file: too short for a header, not decodable, or the frames it holds from its first
sequence on and whether it ends cleanly. -/
inductive SegmentFile where
  | short
  | unreadable
  | frames (firstSeq : ℕ) (ops : List Op) (clean : Bool)
deriving DecidableEq

inductive ReplayError where
  | unreadable
  | notContinued (expected firstSeq : ℕ)
  | damaged (nextSeq : ℕ)
  | cancelsLater (seq : ℕ) (key : String)

abbrev Batch := ℕ × List Op

def decodeSegment (file : SegmentFile) (expected : Option ℕ) : Except ReplayError (Batch × Bool) :=
  match file with
  | .short | .unreadable => .error .unreadable
  | .frames firstSeq ops clean =>
    match expected with
    | some next =>
      if next ≠ firstSeq then .error (.notContinued next firstSeq) else .ok ((firstSeq, ops), clean)
    | none => .ok ((firstSeq, ops), clean)

/-- Read the segments in order, each checked against the last, and hand every batch to `f`. A final
segment that never got its header holds nothing; a torn final frame is discarded, and damage before
a later segment is refused. Gives what `f` made and the next sequence. -/
def walkSegments {σ : Type} (f : σ → Batch → Except ReplayError σ) (s : σ) (next : Option ℕ) :
    List SegmentFile → Except ReplayError (σ × Option ℕ)
  | [] => .ok (s, next)
  | [.short] => .ok (s, next)
  | file :: rest => do
    let (batch, clean) ← decodeSegment file next
    let nextSeq := batch.1 + batch.2.length
    if !clean && !rest.isEmpty then throw (.damaged nextSeq)
    let s ← f s batch
    walkSegments f s (some nextSeq) rest

def Batch.numbered (batch : Batch) : List (Op × ℕ) := batch.2.zipIdx batch.1

/-- Note what a record cancels, which is a record before it. -/
def noteCancelled (cancelled : List ℕ) (record : Op × ℕ) : Except ReplayError (List ℕ) :=
  match record.1 with
  | .cancel seq key =>
    if record.2 ≤ seq then .error (.cancelsLater record.2 key) else .ok (seq :: cancelled)
  | _ => .ok cancelled

def applyUncancelled (cancelled : List ℕ) (files : Files) (record : Op × ℕ) : Files :=
  if record.2 ∈ cancelled then files else apply files record.1

structure Replayed where
  files : Files
  nextSeq : ℕ
  records : ℕ

/-- Replay the records whose sequence is reached. -/
def replayReached (reached : ℕ → Bool) (files : Files) (segments : List SegmentFile) :
    Except ReplayError Replayed := do
  -- only the whole log says which records are cancelled
  let (cancelled, _) ← walkSegments
    (fun cancelled batch => batch.numbered.foldlM noteCancelled cancelled) [] none segments
  let ((files, records), next) ← walkSegments
    (fun (files, records) batch =>
      .ok ((batch.numbered.filter (fun r => reached r.2)).foldl (applyUncancelled cancelled) files,
        records + batch.2.length))
    (files, 0) none segments
  return ⟨files, next.getD 1, records⟩

/-- **Replay every segment onto the files.** -/
def replay (files : Files) (segments : List SegmentFile) : Except ReplayError Replayed :=
  replayReached (fun _ => true) files segments

/-- The files a replay leaves that stops before the record `stop`. -/
def replayInterrupted (stop : ℕ) (files : Files) (segments : List SegmentFile) :
    Except ReplayError Files :=
  (replayReached (fun seq => seq < stop) files segments).map Replayed.files

end Fluree.Wal
