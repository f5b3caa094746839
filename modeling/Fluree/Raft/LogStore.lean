import Fluree.Lib.Reader
import Fluree.Lib.Machine
import Fluree.Lib.SortedMap

/-!
# The raft log store

Log entries are kept in segments, append-only files named by their first index. A frame holds one
entry with a hash over its bytes. `openInner` reads the segments back: a frame that does not decode
at the end of the last segment is a torn append and cut off, anywhere else it is damage.
`purgeThrough` moves a marker below which entries count as gone and then removes the segments
below it.

An operation returns its result together with what it did to the device. The directory of the log
is the map from first indices to file contents; the temporary files that are renamed into place,
the entry files of earlier releases and the committed watermark are left out.
-/

namespace Fluree.Raft.LogStore

section Store

open Lib

structure LogId where
  term : ℕ
  index : ℕ

structure LogEntry where
  logId : LogId
  payload : List UInt8

inductive StorageErrorKind where
  | io | corruption

structure StorageError where
  kind : StorageErrorKind
  message : String

/-- The hash of frames, the names of the segment files and the size at which a segment is closed. -/
structure Env where
  frameHash : List UInt8 → UInt64
  path : ℕ → String
  segmentBytes : ℕ

def SEGMENT_MAGIC : List UInt8 := [0x46, 0x52, 0x53, 0x47, 0x30, 0x30, 0x30, 0x31]

def SEGMENT_HEADER : ℕ := 16

def FRAME_MAGIC : List UInt8 := [0x46, 0x52, 0x4C, 0x45]

def FRAME_HEADER : ℕ := 4 + 4 + 8 + 8

def FRAME_HASH : ℕ := 8

def DEFAULT_SEGMENT_BYTES : ℕ := 4 * 1024 * 1024

/-! ## Frames -/

section

variable (env : Env)

/-- A frame up to its hash. -/
def frameBody (entry : LogEntry) : List UInt8 :=
  FRAME_MAGIC ++ leBytes 4 entry.payload.length ++ leBytes 8 entry.logId.index ++
    leBytes 8 entry.logId.term ++ entry.payload

def encodeFrame (entry : LogEntry) : List UInt8 :=
  frameBody entry ++ leBytes 8 (env.frameHash (frameBody entry)).toNat

/-- The frame at an offset: its id, payload and total length. -/
def decodeFrame (bytes : List UInt8) (offset : ℕ) : Option (LogId × List UInt8 × ℕ) :=
  let rest := bytes.drop offset
  if rest.length < FRAME_HEADER then none
  else if rest.take 4 ≠ FRAME_MAGIC then none
  else
    let len := leNat ((rest.drop 4).take 4)
    let index := leNat ((rest.drop 8).take 8)
    let term := leNat ((rest.drop 16).take 8)
    let stop := FRAME_HEADER + len
    if rest.length < stop + FRAME_HASH then none
    else if leBytes 8 (env.frameHash (rest.take stop)).toNat ≠ (rest.drop stop).take FRAME_HASH then none
    else some (⟨term, index⟩, (rest.drop FRAME_HEADER).take len, FRAME_HEADER + len + FRAME_HASH)

def segmentHeader (first : ℕ) : List UInt8 := SEGMENT_MAGIC ++ leBytes 8 first

/-! ## The device -/

/-- The purge marker and the segment files. -/
structure Disk where
  lastPurged : Option LogId
  segments : SortedMap ℕ (List UInt8)

def Disk.blank : Disk := ⟨none, .empty⟩

inductive DeviceOp where
  /-- Rename a finished file with a header into place. -/
  | publish (first : ℕ)
  | unlink (first : ℕ)
  | write (first offset : ℕ) (entries : List LogEntry)
  | setLen (first len : ℕ)
  /-- Rename a finished marker into place. -/
  | publishMarker (id : LogId)

inductive SyncTarget where
  | logDir | rootDir
  | file (first : ℕ)
deriving DecidableEq

def DeviceOp.target : DeviceOp → SyncTarget
  | publish _ => .logDir
  | unlink _ => .logDir
  | write first _ _ => .file first
  | setLen first _ => .file first
  | publishMarker _ => .rootDir

def encodeFrames (entries : List LogEntry) : List UInt8 := entries.flatMap (encodeFrame env)

def DeviceOp.apply : DeviceOp → Disk → Disk
  | publish first, d => { d with segments := d.segments.insert first (segmentHeader first) }
  | unlink first, d => { d with segments := d.segments.erase first }
  | write first offset entries, d =>
    match d.segments.get? first with
    | some bytes =>
      let buf := encodeFrames env entries
      { d with
        segments := d.segments.insert first
          (bytes.take offset ++ buf ++ bytes.drop (offset + buf.length)) }
    | none => d
  | setLen first len, d =>
    match d.segments.get? first with
    | some bytes => { d with segments := d.segments.insert first (bytes.take len) }
    | none => d
  | publishMarker id, d => { d with lastPurged := some id }

/-- `junk` does not start with a frame of index `next`. -/
def NoFrame (junk : List UInt8) (next : ℕ) : Prop :=
  ∀ id payload len, decodeFrame env junk 0 = some (id, payload, len) → id.index ≠ next

def nextIndex (entries : List LogEntry) (n : ℕ) : ℕ :=
  match entries with
  | [] => 0
  | e :: _ => e.logId.index + n

/-- A write that was not synced can leave any number of its frames and behind them bytes that are
not the next frame. -/
def DeviceOp.Torn : DeviceOp → Disk → Disk → Prop
  | write first offset entries, d, d' =>
    ∃ bytes n junk, d.segments.get? first = some bytes ∧ n ≤ entries.length ∧
      NoFrame env junk (nextIndex entries n) ∧
      d' = { d with
        segments := d.segments.insert first
          (bytes.take offset ++ encodeFrames env (entries.take n) ++ junk) }
  | _, _, _ => False

def device : Device Disk DeviceOp SyncTarget := ⟨DeviceOp.target, DeviceOp.apply env, DeviceOp.Torn env⟩

abbrev Trace := List (DeviceStep DeviceOp SyncTarget)

/-! ## The store in memory -/

structure Segment where
  firstIndex : ℕ
  /-- The highest index in the file, purged or not. -/
  lastIndex : Option ℕ
  len : ℕ

structure Loc where
  segment : ℕ
  offset : ℕ
  len : ℕ
  term : ℕ

structure Inner where
  segments : List Segment
  /-- The entries above the purge marker. -/
  index : SortedMap ℕ Loc
  lastPurged : Option LogId

/-- Above the purge marker. -/
def live (lastPurged : Option LogId) (index : ℕ) : Bool := lastPurged.all (fun p => p.index < index)

/-! ## Opening -/

structure FrameScan where
  index : SortedMap ℕ Loc
  /-- Where the scan ended, and the index it expected there. -/
  offset : ℕ
  physicalNext : ℕ
  torn : Bool

/-- The frames of a segment from `offset` on, which have to be numbered from `next` on. -/
def scanFrames (lastPurged : Option LogId) (first : ℕ) (bytes : List UInt8) :
    ℕ → ℕ → ℕ → SortedMap ℕ Loc → FrameScan
  | 0, offset, next, index => ⟨index, offset, next, false⟩
  | fuel + 1, offset, next, index =>
    if offset = bytes.length then ⟨index, offset, next, false⟩
    else
      match decodeFrame env bytes offset with
      | some (id, _, frameLen) =>
        if id.index = next then
          scanFrames lastPurged first bytes fuel (offset + frameLen) (next + 1)
            (if live lastPurged id.index then
              index.insert id.index ⟨first, offset, frameLen, id.term⟩ else index)
        else ⟨index, offset, next, true⟩
      | none => ⟨index, offset, next, true⟩

def badHeader (first : ℕ) (bytes : List UInt8) : Bool :=
  decide (bytes.length < SEGMENT_HEADER) || decide (bytes.take 8 ≠ SEGMENT_MAGIC) ||
    decide (leNat ((bytes.drop 8).take 8) ≠ first)

/-- The segments in order of their first index. -/
def scanSegments : List (ℕ × List UInt8) → Option ℕ → Inner → Except StorageError Inner × Trace
  | [], _, inner => (.ok inner, [])
  | (first, bytes) :: rest, expectedNext, inner =>
    let path := env.path first
    if badHeader first bytes then
      if rest.isEmpty then (.ok inner, (device env).durably (.unlink first))
      else (.error ⟨.corruption, s!"raft log segment {path} has a bad header"⟩, [])
    else if expectedNext.any (· ≠ first) then
      (.error ⟨.corruption, s!"raft log segment {path} does not continue the previous segment"⟩, [])
    else
      let scan := scanFrames env inner.lastPurged first bytes (bytes.length + 1) SEGMENT_HEADER first
        inner.index
      let segment : Segment :=
        { firstIndex := first,
          lastIndex := if scan.physicalNext = first then none else some (scan.physicalNext - 1),
          len := scan.offset }
      let next : Inner := { inner with segments := inner.segments ++ [segment], index := scan.index }
      let offset := scan.offset
      if scan.torn then
        if rest.isEmpty then (.ok next, (device env).durably (.setLen first scan.offset))
        else (.error ⟨.corruption, s!"raft log segment {path} is damaged before a later segment " ++
          s!"(frame at byte {offset}); move it aside only if the entries " ++
          "it held are covered by a snapshot"⟩, [])
      else scanSegments rest (some scan.physicalNext) next

def openInner (disk : Disk) : Except StorageError Inner × Trace :=
  scanSegments env disk.segments.entries none ⟨[], .empty, disk.lastPurged⟩

/-! ## Appending -/

/-- Where the frames of `entries` go, from an offset on. -/
def locsFrom (segment : ℕ) : ℕ → List LogEntry → List (ℕ × Loc)
  | _, [] => []
  | offset, e :: entries =>
    let len := (encodeFrame env e).length
    (e.logId.index, ⟨segment, offset, len, e.logId.term⟩) :: locsFrom segment (offset + len) entries

/-- A segment that holds only its header and names another index is a leftover. -/
def popLeftover (first : ℕ) (segments : List Segment) : List Segment × Trace :=
  match segments.getLast? with
  | some seg =>
    if seg.lastIndex.isNone && seg.firstIndex ≠ first then
      (segments.dropLast, (device env).durably (.unlink seg.firstIndex))
    else (segments, [])
  | none => (segments, [])

def startSegment (first : ℕ) (segments : List Segment) : List Segment × Trace :=
  (segments ++ [⟨first, none, SEGMENT_HEADER⟩], (device env).durably (.publish first))

def needsSegment (segments : List Segment) : Bool :=
  segments.getLast?.all (fun seg => env.segmentBytes ≤ seg.len)

variable (inner : Inner)

/-- The frames behind the last segment, in one write. -/
def writeEntries (segments : List Segment) (entries : List LogEntry) :
    Except StorageError Inner × Trace :=
  match segments.getLast?, entries.getLast? with
  | some seg, some lastEntry =>
    (.ok { inner with
        segments := segments.dropLast ++
          [{ seg with
              len := seg.len + (encodeFrames env entries).length,
              lastIndex := some lastEntry.logId.index }],
        index := (locsFrom env seg.firstIndex seg.len entries).foldl
          (fun m e => m.insert e.1 e.2) inner.index },
      (device env).durably (.write seg.firstIndex seg.len entries))
  | _, _ => (.ok inner, [])

def append (inner : Inner) (entries : List LogEntry) : Except StorageError Inner × Trace :=
  match entries.head? with
  | none => (.ok inner, [])
  | some e =>
    let first := e.logId.index
    let gap := inner.index.entries.getLast?.filter (fun last => first ≠ last.1 + 1)
    match gap with
    | some (last, _) =>
      (.error ⟨.corruption, s!"append at index {first} does not continue the log at {last}"⟩, [])
    | none =>
      let popped := popLeftover env first inner.segments
      let started :=
        if needsSegment env popped.1 then startSegment env first popped.1 else (popped.1, [])
      let written := writeEntries env inner started.1 entries
      (written.1, popped.2 ++ started.2 ++ written.2)

/-! ## Truncating and purging -/

/-- Remove segments, newest first, down to the one that starts at `cut`. -/
def removeAbove (cut : ℕ) : List Segment → List Segment × Trace
  | [] => ([], [])
  | seg :: older =>
    if cut < seg.firstIndex then
      let (kept, trace) := removeAbove cut older
      (kept, (device env).durably (.unlink seg.firstIndex) ++ trace)
    else (seg :: older, [])

/-- Cut the segment that starts at `cut.1` off at the byte `cut.2`. It is there: the cut is the place
of a live entry. -/
def cutAt (fromIndex : ℕ) (cut : ℕ × ℕ) (segments : List Segment) : List Segment × Trace :=
  let (newestFirst, trace) := removeAbove env cut.1 segments.reverse
  match newestFirst with
  | [] => ([], trace)
  | seg :: older =>
    if cut.2 = SEGMENT_HEADER then
      (older.reverse, trace ++ (device env).durably (.unlink seg.firstIndex))
    else
      (older.reverse ++ [{ seg with len := cut.2, lastIndex := some (fromIndex - 1) }],
        trace ++ (device env).durably (.setLen seg.firstIndex cut.2))

def truncateFrom (fromIndex : ℕ) : Except StorageError Inner × Trace :=
  match inner.index.entries.head?, inner.index.entries.getLast? with
  | some (_, firstLoc), some (last, _) =>
    if last < fromIndex then (.ok inner, [])
    else
      -- an index below the live range cuts everything
      let cut : ℕ × ℕ :=
        match inner.index.get? fromIndex with
        | some loc => (loc.segment, loc.offset)
        | none => (firstLoc.segment, SEGMENT_HEADER)
      let kept := cutAt env fromIndex cut inner.segments
      (.ok { inner with
          segments := kept.1,
          index := ⟨inner.index.entries.filter (fun e => e.1 < fromIndex),
            inner.index.sorted.sublist List.filter_sublist⟩ },
        kept.2)
  | _, _ => (.ok inner, [])

/-- At or below the marker, or empty and passed by it. -/
def obsolete (id : LogId) (seg : Segment) : Bool :=
  match seg.lastIndex with
  | some last => last ≤ id.index
  | none => seg.firstIndex ≤ id.index

def purgeThrough (id : LogId) : Except StorageError Inner × Trace :=
  if inner.lastPurged.any (fun p => id.index ≤ p.index) then (.ok inner, [])
  else
    (.ok
      { segments := inner.segments.filter (fun seg => !obsolete id seg),
        index := ⟨inner.index.entries.filter (fun e => id.index + 1 ≤ e.1),
          inner.index.sorted.sublist List.filter_sublist⟩,
        lastPurged := some id },
      (device env).durably (.publishMarker id) ++
        (inner.segments.filter (obsolete id)).flatMap
          (fun seg => (device env).durably (.unlink seg.firstIndex)))

/-! ## Reading -/

structure LogState where
  lastPurged : Option LogId
  lastLog : Option LogId

def logState : LogState where
  lastPurged := inner.lastPurged
  lastLog := inner.index.entries.getLast?.map (fun e => ⟨e.2.term, e.1⟩)

def readEntry (disk : Disk) (e : ℕ × Loc) : Except StorageError LogEntry :=
  let (index, loc) := e
  let segment := loc.segment
  if inner.segments.all (fun seg => seg.firstIndex ≠ loc.segment) then
    .error ⟨.corruption, s!"no segment starts at {segment}"⟩
  else
    match disk.segments.get? loc.segment with
    | none => .error ⟨.io, "open segment"⟩
    | some bytes =>
      let frame := (bytes.drop loc.offset).take loc.len
      if frame.length < loc.len then .error ⟨.io, "read entry"⟩
      else
        match decodeFrame env frame 0 with
        | some (id, payload, _) =>
          if id.index = index then .ok ⟨id, payload⟩
          else .error ⟨.corruption, s!"raft log entry {index} failed its check"⟩
        | none => .error ⟨.corruption, s!"raft log entry {index} failed its check"⟩

def readRange (disk : Disk) (lo hi : ℕ) : Except StorageError (List LogEntry) :=
  (inner.index.entries.filter (fun e => lo ≤ e.1 ∧ e.1 < hi)).mapM (readEntry env inner disk)

end

end Store

/-!
## What the raft log store is for

A `Log` is the log as raft sees it: a purge marker and the entries above it, without a gap.
`Log.Step` says what each event may do to it: an operation that returned is done, one that a crash
interrupted is done in part, and everything else leaves the log alone.

`Kept` and `Fresh` read off the history of events which entries have to be in the log and which may
be.
-/

inductive Op where
  | append (entries : List LogEntry)
  | truncateFrom (fromIndex : ℕ)
  | purgeThrough (id : LogId)

inductive Event where
  | done (op : Op)
  | refused (op : Op)
  | crashed (op : Op)
  | stopped
  | opened
  | crashedOpening

/-- The entries above the purge marker. -/
structure Log where
  purged : Option LogId
  entries : List LogEntry
  contiguous : entries.IsChain (fun a b => b.logId.index = a.logId.index + 1)
  above : ∀ p ∈ purged, ∀ e ∈ entries.head?, e.logId.index = p.index + 1

namespace Log

def empty : Log := ⟨none, [], List.IsChain.nil, by simp⟩

/-- The marker moves to `id` unless it is there already. -/
def Purged (id : LogId) (l l' : Log) : Prop :=
  if l.purged.any (fun p => id.index ≤ p.index) then l'.purged = l.purged ∧ l'.entries = l.entries
  else l'.purged = some id ∧ l'.entries = l.entries.filter (fun e => id.index < e.logId.index)

def Step : Event → Log → Log → Prop
  | .done (.append es), l, l' => l'.purged = l.purged ∧ l'.entries = l.entries ++ es
  | .crashed (.append es), l, l' => l'.purged = l.purged ∧ ∃ k, l'.entries = l.entries ++ es.take k
  | .done (.truncateFrom fromIndex), l, l' =>
    l'.purged = l.purged ∧ l'.entries = l.entries.filter (fun e => e.logId.index < fromIndex)
  | .crashed (.truncateFrom fromIndex), l, l' =>
    l'.purged = l.purged ∧ l'.entries <+: l.entries ∧
      l.entries.filter (fun e => e.logId.index < fromIndex) ⊆ l'.entries
  | .done (.purgeThrough id), l, l' => Purged id l l'
  | .crashed (.purgeThrough id), l, l' =>
    (l'.purged = l.purged ∧ l'.entries = l.entries) ∨ Purged id l l'
  | _, l, l' => l'.purged = l.purged ∧ l'.entries = l.entries

/-- A history of events and a log it may lead to. -/
inductive Run : List Event → Log → Prop where
  | start : Run [] empty
  | next {events : List Event} {event : Event} {l l' : Log} :
      Run events l → Step event l l' → Run (events ++ [event]) l'

end Log

/-! ## Which entries the history promises -/

/-- The call asks for the entry to go. -/
def Op.Drops (e : LogEntry) : Op → Prop
  | .append _ => False
  | .truncateFrom fromIndex => fromIndex ≤ e.logId.index
  | .purgeThrough id => e.logId.index ≤ id.index

/-- The event is a call, returned or interrupted, that asks for the entry to go. -/
def Event.Drops (e : LogEntry) : Event → Prop
  | .done op => op.Drops e
  | .crashed op => op.Drops e
  | _ => False

def Event.Appends (e : LogEntry) : Event → Prop
  | .done (.append es) => e ∈ es
  | .crashed (.append es) => e ∈ es
  | _ => False

/-- An append of the entry returned, and no later call asked for it to go. -/
def Kept (events : List Event) (e : LogEntry) : Prop :=
  ∃ before es later, events = before ++ .done (.append es) :: later ∧ e ∈ es ∧
    ∀ event ∈ later, ¬ event.Drops e

/-- Since the last truncation that removed it the entry was appended again. -/
def Fresh (events : List Event) (e : LogEntry) : Prop :=
  ∀ before fromIndex later, events = before ++ .done (.truncateFrom fromIndex) :: later →
    fromIndex ≤ e.logId.index → ∃ event ∈ later, event.Appends e

/-!
## Running the raft log store

A node is running, with the store in memory over its device, or down. It runs operations, stops,
crashes at any device step of an operation or of opening, and opens again.

`Op.Promised` is what raft promises about its calls, `Op.Continues` that an append goes right
behind what the segments on the device hold.
-/

open Lib

inductive Node where
  | running (inner : Inner) (disk : Disk)
  | down (disk : Disk)

variable (env : Env)

def Op.run (inner : Inner) : Op → Except StorageError Inner × Trace
  | append entries => LogStore.append env inner entries
  | truncateFrom fromIndex => LogStore.truncateFrom env inner fromIndex
  | purgeThrough id => LogStore.purgeThrough env inner id

/-- The device once the steps of `trace` are done. Only what was synced counts. -/
def after (trace : Trace) (disk : Disk) : Disk := ((device env).exec trace disk).durable

/-- What can happen to a node whose calls meet `guard`. -/
inductive Step (env : Env) (guard : Inner → Op → Prop) : Event → Node → Node → Prop where
  | done {op : Op} {inner inner' : Inner} {disk : Disk} {trace : Trace} :
      guard inner op → op.run env inner = (.ok inner', trace) →
      Step env guard (.done op) (.running inner disk) (.running inner' (after env trace disk))
  | refused {op : Op} {inner : Inner} {disk : Disk} {trace : Trace} {e : StorageError} :
      guard inner op → op.run env inner = (.error e, trace) →
      Step env guard (.refused op) (.running inner disk) (.running inner (after env trace disk))
  | crashed {op : Op} {inner : Inner} {disk disk' : Disk} :
      guard inner op → (device env).CrashesTo (op.run env inner).2 disk disk' →
      Step env guard (.crashed op) (.running inner disk) (.down disk')
  | stopped {inner : Inner} {disk : Disk} :
      Step env guard .stopped (.running inner disk) (.down disk)
  | opened {inner : Inner} {disk : Disk} {trace : Trace} :
      openInner env disk = (.ok inner, trace) →
      Step env guard .opened (.down disk) (.running inner (after env trace disk))
  | crashedOpening {disk disk' : Disk} :
      (device env).CrashesTo (openInner env disk).2 disk disk' →
      Step env guard .crashedOpening (.down disk) (.down disk')

/-- The histories of a node that starts with nothing on its device. -/
inductive Run (env : Env) (guard : Inner → Op → Prop) : List Event → Node → Prop where
  | start : Run env guard [] (.down Disk.blank)
  | next {events : List Event} {event : Event} {node node' : Node} :
      Run env guard events node → Step env guard event node node' →
      Run env guard (events ++ [event]) node'

/-- The fields of an entry fit the widths of a frame. -/
structure LogEntry.Fits (e : LogEntry) : Prop where
  payload : e.payload.length < 2 ^ 32
  index : e.logId.index < 2 ^ 64
  term : e.logId.term < 2 ^ 64

/-- The entries have the indices from `next` on. -/
def Numbered : ℕ → List LogEntry → Prop
  | _, [] => True
  | next, e :: entries => e.logId.index = next ∧ Numbered (next + 1) entries

/-- What raft promises about a call: a batch is numbered without a gap and goes right above the
purge marker when the log is empty; a purge does not start a gap below the log. -/
def Op.Promised (inner : Inner) : Op → Prop
  | append entries =>
    ∀ e ∈ entries.head?, Numbered e.logId.index entries ∧ (∀ e ∈ entries, e.Fits) ∧
      (inner.index.entries = [] → ∀ p ∈ inner.lastPurged, e.logId.index = p.index + 1)
  | truncateFrom _ => True
  | purgeThrough id => ∀ first ∈ inner.index.entries.head?, first.1 ≤ id.index + 1

/-- An append goes right behind the last entry that a segment holds, purged or not. -/
def Op.Continues (inner : Inner) : Op → Prop
  | append entries =>
    ∀ last ∈ (inner.segments.filterMap (·.lastIndex)).getLast?, ∀ e ∈ entries.head?,
      e.logId.index = last + 1
  | _ => True

instance (inner : Inner) (op : Op) : Decidable (op.Continues inner) := by
  cases op <;> unfold Op.Continues <;> infer_instance

/-! ## What a node shows -/

/-- The store reads as the log: its state and every range of it. -/
structure Exposes (env : Env) (inner : Inner) (disk : Disk) (l : Log) : Prop where
  state : logState inner = ⟨l.purged, l.entries.getLast?.map (·.logId)⟩
  ranges : ∀ lo hi, readRange env inner disk lo hi =
    .ok (l.entries.filter (fun e => lo ≤ e.logId.index ∧ e.logId.index < hi))

/-- The store shows a log that has what the history promises and nothing it removed. -/
def Consistent (events : List Event) (inner : Inner) (disk : Disk) : Prop :=
  ∃ l : Log, Exposes env inner disk l ∧ (∀ e, Kept events e → e ∈ l.entries) ∧
    ∀ e ∈ l.entries, Fresh events e

/-- A running node is consistent, and one that is down opens and is then. -/
def CrashConsistent (events : List Event) : Node → Prop
  | .running inner disk => Consistent env events inner disk
  | .down disk => ∃ inner trace, openInner env disk = (.ok inner, trace) ∧
      Consistent env events inner (after env trace disk)

end Fluree.Raft.LogStore
