import Mathlib.Data.List.Basic

/-!
# The live write-ahead log

One `Wal` and the threads that call it. A step is one critical section under the inner mutex, from
taking it to returning, parking on the condition variable or releasing it for a device flush; a step
of the device; or a step of a retirement outside the mutex. What the environment decides (whether a
device flush or a file operation succeeds, how long a segment has been open) is part of the label of
the step.

A flush of a segment covers the frames that were written to its file when it started. The file of a
new segment is made under another name and renamed; when a later step of opening it fails, the file
stays and the log does not know it.
-/

namespace Fluree.Wal.Live

def SEGMENT_HEADER : ℕ := 16

def ROTATE_BYTES : ℕ := 8 * 1024 * 1024

/-- A frame in a segment file, with the key of its record. -/
structure Frame where
  seq : ℕ
  segment : ℕ
  key : String
deriving DecidableEq

/-- Held by the caller of an append until the file of its record is written. -/
structure Appended where
  seq : ℕ
  segment : ℕ
deriving DecidableEq

structure Segment where
  id : ℕ
  len : ℕ
  touched : List String

structure Closed where
  id : ℕ
  touched : List String
deriving DecidableEq

/-- What a thread was called for. -/
inductive Task where
  | append (guard : Appended) (sync : Bool)
  | flush (last : ℕ)
  | tick
  | checkpoint
deriving DecidableEq

/-- What a parked thread goes on with: `wait_durable` for a sequence, or `rotate`. -/
inductive Wait where
  | durable (task : Task) (seq : ℕ)
  | rotation (task : Task)
deriving DecidableEq

/-- Where a thread stands between two steps. A leader has released the mutex with the sequence its
flush will cover; a retirement has drained the closed segments, oldest first. -/
inductive Pc where
  | idle
  | parked (wait : Wait)
  | woken (wait : Wait)
  | leading (task : Task) (seq covered segment : ℕ)
  | syncing (task : Task) (seq covered segment : ℕ) (inFile : List Frame)
  | retireWanted (task : Task)
  | retireScan (pending : List Closed) (removed : Bool)
  | retireFlush (segment : Closed) (pending : List Closed) (removed : Bool)
  | retireDone (kept : List Closed) (removed : Bool)
deriving DecidableEq

/-- `Inner`, the flags of the `Wal`, the threads, and the device: the frames written to the segment
files, those a successful flush has covered, and the segment files there are, oldest first. -/
structure State where
  active : Option Segment
  closed : List Closed
  nextSeq : ℕ
  nextSegment : ℕ
  durableEnd : ℕ
  flushing : Bool
  poisoned : Bool
  /-- The thread that holds the `retiring` mutex. -/
  retiring : Option ℕ
  /-- The guards that have not been dropped; `in_flight` counts those of a segment. -/
  guards : List Appended
  pc : ℕ → Pc
  written : List Frame
  durable : List Frame
  onDisk : List ℕ

/-- What the callers and the device see of a step. -/
inductive Event where
  | appended (guard : Appended) (sync : Bool)
  | flushed (last : ℕ)
  | refused
  | panicked
  | syncFailed (segment : ℕ)
  | filesFlushed (keys : List String)
  | unlinked (segment : ℕ)
deriving DecidableEq

namespace State

/-- A log that has just been acquired. -/
def acquired (nextSeq nextSegment : ℕ) : State where
  active := none
  closed := []
  nextSeq := nextSeq
  nextSegment := nextSegment
  durableEnd := nextSeq
  flushing := false
  poisoned := false
  retiring := none
  guards := []
  pc := fun _ => .idle
  written := []
  durable := []
  onDisk := []

variable (st : State)

def goto (t : ℕ) (pc : Pc) : State := { st with pc := Function.update st.pc t pc }

/-- `Condvar::notify_all`. -/
def notifyAll : State :=
  { st with
    pc := fun t => match st.pc t with
      | .parked wait => .woken wait
      | pc => pc }

def inFlight (segment : ℕ) : ℕ := (st.guards.filter fun g => g.segment = segment).length

def inFile (segment : ℕ) : List Frame := st.written.filter fun f => f.segment = segment

end State

open State

variable (st : State) (t : ℕ) (task : Task)

/-- The call returns an error. An append that fails drops its guard. -/
def refuse : State × List Event :=
  ({ st.goto t .idle with
      guards := match task with
        | .append guard _ => st.guards.erase guard
        | _ => st.guards },
    [.refused])

/-- The call is through with the log: it returns, or goes on to retire segments. -/
def proceed : Task → State × List Event
  | .append guard sync => (st.goto t .idle, [.appended guard sync])
  | .flush last => (st.goto t .idle, [.flushed last])
  | .tick => (st.goto t (.retireWanted .tick), [])
  | .checkpoint => (st.goto t (.retireWanted .checkpoint), [])

/-- One turn of `wait_durable`, with the start of `lead_flush`. -/
def waitDurable (seq : ℕ) : State × List Event :=
  -- poison first: once the durable boundary is unknown nothing is acknowledged
  if st.poisoned then refuse st t task
  else if seq < st.durableEnd then proceed st t task
  else if st.flushing then (st.goto t (.parked (.durable task seq)), [])
  else match st.active with
    | some segment =>
      ({ st.goto t (.leading task seq st.nextSeq segment.id) with flushing := true }, [])
    | none => (st.goto t .idle, [.panicked])

def afterRotate : State × List Event :=
  match task with
  | .append guard true => waitDurable st t task guard.seq
  | _ => proceed st t task

def close (segment : Segment) : State :=
  { st with active := none, closed := st.closed ++ [⟨segment.id, segment.touched⟩] }

/-- One turn of `rotate`: the flush of the segment is made under the mutex. -/
def rotate (synced : Bool) : State × List Event :=
  if st.flushing then (st.goto t (.parked (.rotation task)), [])
  else if st.poisoned then refuse st t task
  else match st.active with
    | none => afterRotate st t task
    | some segment =>
      if st.durableEnd < st.nextSeq then
        if synced then
          let st := { st with durable := st.durable ++ st.inFile segment.id, durableEnd := st.nextSeq }
          afterRotate (close st.notifyAll segment) t task
        else
          let failed := refuse { st with poisoned := true } t task
          (failed.1, .syncFailed segment.id :: failed.2)
      else afterRotate (close st segment) t task

/-- How the write of a frame ends: in the file, cut back to the last frame, or unknown. -/
inductive WriteResult where
  | written | cut | lost

def land (segment : Segment) (key : String) (size : ℕ) : State :=
  { st with
    active := some { segment with len := segment.len + size, touched := segment.touched ++ [key] }
    guards := st.guards ++ [⟨st.nextSeq, segment.id⟩]
    written := st.written ++ [⟨st.nextSeq, segment.id, key⟩]
    nextSeq := st.nextSeq + 1 }

/-- How opening a segment ends. It can fail before its file is renamed, or after: in the flush of the
directory, or in the second open of the file. -/
inductive OpenResult where
  | opened | failed | orphaned
deriving DecidableEq

def openSegment (result : OpenResult) : State × Option Segment :=
  match st.active with
  | some segment => (st, some segment)
  | none =>
    let counted := { st with nextSegment := st.nextSegment + 1 }
    match result with
    | .opened =>
      let segment : Segment := ⟨st.nextSegment, SEGMENT_HEADER, []⟩
      ({ counted with active := some segment, onDisk := st.onDisk ++ [segment.id] }, some segment)
    | .failed => (counted, none)
    | .orphaned => ({ counted with onDisk := st.onDisk ++ [st.nextSegment] }, none)

/-- Write the frame at the boundary the log knows about, and go on. -/
def write (segment : Segment) (t : ℕ) (key : String) (size : ℕ) (sync : Bool)
    (result : WriteResult) (synced : Bool) : State × List Event :=
  match result with
  | .cut => (st, [.refused])
  | .lost => ({ st with poisoned := true }, [.refused])
  | .written =>
    let task := Task.append ⟨st.nextSeq, segment.id⟩ sync
    let st := land st segment key size
    if ROTATE_BYTES ≤ segment.len + size then rotate st t task synced else afterRotate st t task

/-- `append`, up to where it first gives the mutex back. -/
def append (key : String) (size : ℕ) (sync : Bool) (opening : OpenResult) (result : WriteResult)
    (synced : Bool) : State × List Event :=
  if st.poisoned then (st, [.refused])
  else match openSegment st opening with
    | (st, none) => (st, [.refused])
    | (st, some segment) => write st segment t key size sync result synced

def flush : State × List Event := waitDurable st t (.flush (st.nextSeq - 1)) (st.nextSeq - 1)

/-- `tick`, up to where it first gives the mutex back. -/
def tick (quiet aged synced : Bool) : State × List Event :=
  if st.poisoned then (st, [])
  else match st.active with
    | none => proceed st t .tick
    | some segment =>
      if st.flushing then proceed st t .tick
      else if aged && !segment.touched.isEmpty then rotate st t .tick synced
      else if decide (st.durableEnd < st.nextSeq) && quiet then waitDurable st t .tick (st.nextSeq - 1)
      else proceed st t .tick

/-- The end of `lead_flush`: the device flush has returned and the leader has the mutex again. -/
def publish (seq covered segment : ℕ) (inFile : List Frame)
    (synced : Bool) : State × List Event :=
  let st := { (st.goto t .idle).notifyAll with flushing := false }
  if synced then
    let st := { st with durable := st.durable ++ inFile }
    if st.poisoned then refuse st t task
    else waitDurable { st with durableEnd := max st.durableEnd covered } t task seq
  else
    let failed := refuse { st with poisoned := true } t task
    (failed.1, .syncFailed segment :: failed.2)

/-- The steps of the threads and of the callers that hold guards. -/
inductive Label where
  | append (t : ℕ) (key : String) (size : ℕ) (sync : Bool) (opening : OpenResult)
      (write : WriteResult) (synced : Bool)
  | flush (t : ℕ)
  | tick (t : ℕ) (quiet aged synced : Bool)
  | checkpoint (t : ℕ) (synced : Bool)
  /-- A parked thread wakes by itself. -/
  | spurious (t : ℕ)
  /-- A thread that was woken has the mutex again. -/
  | resume (t : ℕ) (synced : Bool)
  | deviceStart (t : ℕ)
  | deviceEnd (t : ℕ) (synced : Bool)
  | retireTake (t : ℕ)
  | retireCheck (t : ℕ)
  | retireUnlink (t : ℕ) (filesFlushed removed : Bool)
  | retireReturn (t : ℕ)
  | dropGuard (guard : Appended)

/-- **One step.** A step that is not enabled changes nothing. An owned log flushes every append. -/
def step (flushEveryAppend : Bool) (st : State) : Label → State × List Event
  | .append t key size sync opening write synced =>
    if st.pc t = .idle then append st t key size (sync || flushEveryAppend) opening write synced
    else (st, [])
  | .flush t => if st.pc t = .idle then flush st t else (st, [])
  | .tick t quiet aged synced => if st.pc t = .idle then tick st t quiet aged synced else (st, [])
  | .checkpoint t synced => if st.pc t = .idle then rotate st t .checkpoint synced else (st, [])
  | .spurious t =>
    match st.pc t with
    | .parked wait => (st.goto t (.woken wait), [])
    | _ => (st, [])
  | .resume t synced =>
    match st.pc t with
    | .woken (.durable task seq) => waitDurable (st.goto t .idle) t task seq
    | .woken (.rotation task) => rotate (st.goto t .idle) t task synced
    | _ => (st, [])
  | .deviceStart t =>
    match st.pc t with
    | .leading task seq covered segment =>
      (st.goto t (.syncing task seq covered segment (st.inFile segment)), [])
    | _ => (st, [])
  | .deviceEnd t synced =>
    match st.pc t with
    | .syncing task seq covered segment inFile => publish st t task seq covered segment inFile synced
    | _ => (st, [])
  | .retireTake t =>
    match st.pc t, st.retiring with
    | .retireWanted _, none =>
      if st.closed = [] then (st.goto t .idle, [])
      else ({ st.goto t (.retireScan st.closed false) with closed := [], retiring := some t }, [])
    | _, _ => (st, [])
  | .retireCheck t =>
    match st.pc t with
    | .retireScan [] removed => (st.goto t (.retireDone [] removed), [])
    | .retireScan (segment :: pending) removed =>
      if 0 < st.inFlight segment.id then (st.goto t (.retireDone (segment :: pending) removed), [])
      else (st.goto t (.retireFlush segment pending removed), [])
    | _ => (st, [])
  | .retireUnlink t filesFlushed removed =>
    match st.pc t with
    | .retireFlush segment pending before =>
      if filesFlushed then
        if removed then
          ({ st.goto t (.retireScan pending true) with onDisk := st.onDisk.erase segment.id },
            [.filesFlushed segment.touched, .unlinked segment.id])
        else (st.goto t (.retireDone (segment :: pending) before), [.filesFlushed segment.touched])
      else (st.goto t (.retireDone (segment :: pending) before), [])
    | _ => (st, [])
  | .retireReturn t =>
    match st.pc t with
    | .retireDone kept _ =>
      ({ st.goto t .idle with closed := kept ++ st.closed, retiring := none }, [])
    | _ => (st, [])
  -- a caller may drop its guard whenever it wants
  | .dropGuard guard => ({ st with guards := st.guards.erase guard }, [])

end Fluree.Wal.Live
