import Fluree.Lib.Timeline
import Fluree.Format.RunRecord

/-!
# History entries, the sidecar blob and state transitions

The history sidecar of a leaf holds, for each leaflet, the past asserts and retracts of
its facts, newest first. `resolveTransitions` decides which events of a fact go there.
-/

namespace Fluree

open Lib List Prod

inductive ErrorKind where
  | unexpectedEof
  | invalidData
  | invalidInput
  | notFound
  | other

/-- An error of the storage layer. -/
structure StoreError where
  kind : ErrorKind
  message : String

/-- A past assert (`op = true`) or retract of a fact. -/
@[ext] structure HistEntryV2 where
  sId : UInt64
  pId : UInt32
  oType : UInt16
  oKey : UInt64
  oI : UInt32
  t : UInt32
  op : Bool
  deriving DecidableEq

def HistEntryV2.factKey (e : HistEntryV2) : FactKeyV3 := ⟨e.sId, e.pId, e.oType, e.oKey, e.oI⟩

open HistEntryV2

def HIST_ENTRY_V2_SIZE : ℕ := 31

def slice (buf : List UInt8) (i j : ℕ) : List UInt8 := (buf.take j).drop i

def HistEntryV2.writeLe (e : HistEntryV2) : List UInt8 :=
  leBytes 8 e.sId.toNat ++ leBytes 4 e.pId.toNat ++ leBytes 2 e.oType.toNat ++
    leBytes 8 e.oKey.toNat ++ leBytes 4 e.oI.toNat ++ leBytes 4 e.t.toNat ++
    [if e.op then 1 else 0]

def HistEntryV2.readLe (buf : List UInt8) : Except StoreError HistEntryV2 :=
  if buf.length < HIST_ENTRY_V2_SIZE then
    .error ⟨.unexpectedEof, s!"HistEntryV2 requires {HIST_ENTRY_V2_SIZE} bytes, got {buf.length}"⟩
  else
    .ok { sId := .ofNat (leNat (slice buf 0 8)), pId := .ofNat (leNat (slice buf 8 12)),
          oType := .ofNat (leNat (slice buf 12 14)), oKey := .ofNat (leNat (slice buf 14 22)),
          oI := .ofNat (leNat (slice buf 22 26)), t := .ofNat (leNat (slice buf 26 30)),
          op := buf[30]? == some 1 }

/-! ## The sidecar blob -/

/-- Where a leaflet's segment lies in the sidecar blob. -/
structure HistorySegmentRef where
  offset : ℕ
  len : UInt32
  minT : UInt32
  maxT : UInt32

def SIDECAR_MAGIC : List UInt8 := [0x46, 0x48, 0x53, 0x31]

def SIDECAR_VERSION : UInt8 := 1

/-- The entries collected for each leaflet of a leaf, in leaflet order. -/
structure HistSidecarBuilder where
  leafletEntries : List (List HistEntryV2)

namespace HistSidecarBuilder

def new : HistSidecarBuilder := ⟨[]⟩

variable (b : HistSidecarBuilder)

def startLeaflet : HistSidecarBuilder := ⟨b.leafletEntries ++ [[]]⟩

/-- Adds an entry to the last leaflet; without a leaflet the entry is dropped. -/
def pushEntry (e : HistEntryV2) : HistSidecarBuilder :=
  match b.leafletEntries.getLast? with
  | some es => ⟨b.leafletEntries.dropLast ++ [es ++ [e]]⟩
  | none => b

def hasHistory : Bool := b.leafletEntries.any (fun es => !es.isEmpty)

variable (σ : SortUnstable)

def newestFirst (es : List HistEntryV2) : List HistEntryV2 := σ.sort (fun a b => compare b.t a.t) es

/-- Where the segment written behind `out` lies, and the times it spans. -/
def segmentRef (out out' : List UInt8) (entries : List HistEntryV2) :
    HistorySegmentRef :=
  let sorted := newestFirst σ entries
  { offset := out.length, len := .ofNat (out'.length - out.length),
    minT := (sorted.getLast?.map (·.t)).getD 0, maxT := (sorted.head?.map (·.t)).getD 0 }

/-- Appends one segment per leaflet to `out`. The segment count is a 32-bit field. -/
def buildSegments (σ : SortUnstable) :
    List UInt8 → List (List HistEntryV2) → List UInt8 × List HistorySegmentRef
  | out, [] => (out, [])
  | out, entries :: rest =>
    if entries.isEmpty then
      let r := buildSegments σ (out ++ leBytes 4 0) rest
      (r.1, { offset := out.length, len := 4, minT := 0, maxT := 0 } :: r.2)
    else
      let entryCount : UInt32 := .ofNat entries.length
      let out' := out ++ leBytes 4 entryCount.toNat ++
        (newestFirst σ entries).flatMap writeLe
      let r := buildSegments σ out' rest
      (r.1, segmentRef σ out out' entries :: r.2)

def build (b : HistSidecarBuilder) : List UInt8 × List HistorySegmentRef :=
  buildSegments σ (SIDECAR_MAGIC ++ [SIDECAR_VERSION] ++ [0, 0, 0]) b.leafletEntries

end HistSidecarBuilder

/-- Reads `n` entries from the front of a buffer. -/
def readEntries : ℕ → List UInt8 → Except StoreError (List HistEntryV2)
  | 0, _ => .ok []
  | n + 1, buf => do
    let e ← readLe buf
    let es ← readEntries n (buf.drop HIST_ENTRY_V2_SIZE)
    return e :: es

def decodeHistorySegment (data : List UInt8) (seg : HistorySegmentRef) :
    Except StoreError (List HistEntryV2) :=
  let offset := seg.offset
  if offset + 4 > data.length then
    .error ⟨.unexpectedEof,
      s!"history segment offset {offset} + 4 exceeds data length {data.length}"⟩
  else
    let entryCount := leNat (slice data offset (offset + 4))
    let required := offset + 4 + entryCount * HIST_ENTRY_V2_SIZE
    if required > data.length then
      .error ⟨.unexpectedEof, s!"history segment needs {required} bytes but data has {data.length}"⟩
    else
      readEntries entryCount (data.drop (offset + 4))

/-! ## State transitions -/

/-- Same-time ties walk retract first. -/
def cmpEvent (a b : RunRecordV2 × Bool) : Ordering := (compare a.1.t b.1.t).then (compare a.2 b.2)

variable (σ : SortUnstable) (events : List (RunRecordV2 × Bool))

/-- The transitions of one fact's events from `basePresent` that belong in the sidecar, and the
row when the final state is asserted. -/
def resolveTransitions (basePresent : Bool) :
    List (RunRecordV2 × Bool) × Option RunRecordV2 :=
  let kept := transitions snd basePresent (σ.sort cmpEvent events)
  match kept.getLast? with
  | some (row, true) => (kept.dropLast, some row)
  | _ => (kept, none)

def evTime (e : RunRecordV2 × Bool) : ℕ := e.1.t.toNat

lemma cmpEvent_eq_compare (a b : RunRecordV2 × Bool) :
    cmpEvent a b = compare (evTime a * 2 + a.2.toNat) (evTime b * 2 + b.2.toNat) := by
  rw [cmpEvent, compare_u32, compare_bool, compare_then a.2.toNat_lt b.2.toNat_lt]
  rfl

lemma sort_cmpEvent_asc : Asc (rank evTime snd) (σ.sort cmpEvent events) :=
  (σ.asc cmpEvent_eq_compare events).imp fun hab => rank_le_iff.2 hab

/-- **The entries and the row together are the transitions of the sorted events.** -/
lemma resolveTransitions_eq (p : Bool) : (resolveTransitions σ events p).1 ++
        (resolveTransitions σ events p).2.toList.map (fun row => (row, true)) =
      transitions snd p (σ.sort cmpEvent events) := by
  simp only [resolveTransitions]
  split
  · rename_i row h
    obtain ⟨ys, hys⟩ := List.getLast?_eq_some_iff.1 h
    rw [hys]; simp
  · simp

lemma resolveTransitions_none {σ events p} (h : (resolveTransitions σ events p).2 = none) :
    transitions snd p (σ.sort cmpEvent events) = [] ∨
      endState snd p (σ.sort cmpEvent events) = false := by
  rw [← endState_transitions]
  simp only [resolveTransitions] at h
  generalize transitions snd p (σ.sort cmpEvent events) = kept at h
  by_cases hk : kept = []
  · exact .inl hk
  right
  rw [endState_eq_getLast hk]
  cases hop : (kept.getLast hk).2 with
  | false => rfl
  | true =>
    have : kept.getLast? = some ((kept.getLast hk).1, true) := by
      rw [List.getLast?_eq_some_getLast hk, ← hop]
    rw [this] at h; simp at h

/-! ## Decoding what was encoded -/

lemma slice_mid (pre mid post : List UInt8) {buf i j} (h : buf = pre ++ (mid ++ post))
    (hi : pre.length = i) (hj : i + mid.length = j) : slice buf i j = mid := by
  subst h hi hj
  rw [slice, take_length_add_append, drop_left, take_left]

lemma leNat_u64 (x : UInt64) : UInt64.ofNat (leNat (leBytes 8 x.toNat)) = x := by
  have h : x.toNat < 256 ^ 8 := x.toNat_lt
  rw [leNat_leBytes, Nat.mod_eq_of_lt h, UInt64.ofNat_toNat]

lemma leNat_u32 (x : UInt32) : UInt32.ofNat (leNat (leBytes 4 x.toNat)) = x := by
  have h : x.toNat < 256 ^ 4 := x.toNat_lt
  rw [leNat_leBytes, Nat.mod_eq_of_lt h, UInt32.ofNat_toNat]

lemma leNat_u16 (x : UInt16) : UInt16.ofNat (leNat (leBytes 2 x.toNat)) = x := by
  have h : x.toNat < 256 ^ 2 := x.toNat_lt
  rw [leNat_leBytes, Nat.mod_eq_of_lt h, UInt16.ofNat_toNat]

@[simp] lemma HistEntryV2.writeLe_length (e : HistEntryV2) : e.writeLe.length = 31 := by
  simp [writeLe]

lemma HistEntryV2.readLe_writeLe (e : HistEntryV2) (rest : List UInt8) :
    readLe (e.writeLe ++ rest) = .ok e := by
  obtain ⟨s, p, ot, ok, oi, t, op⟩ := e
  -- each field behind the ones before it
  let f1 := leBytes 8 s.toNat
  let f2 := f1 ++ leBytes 4 p.toNat
  let f3 := f2 ++ leBytes 2 ot.toNat
  let f4 := f3 ++ leBytes 8 ok.toNat
  let f5 := f4 ++ leBytes 4 oi.toNat
  let f6 := f5 ++ leBytes 4 t.toNat
  let b : UInt8 := if op then 1 else 0
  have hb : (writeLe ⟨s, p, ot, ok, oi, t, op⟩ ++ rest) = f6 ++ ([b] ++ rest) := by
    simp only [writeLe, f6, f5, f4, f3, f2, f1, b, append_assoc]
  have h6 : f6.length = 30 := by simp [f6, f5, f4, f3, f2, f1]
  have h30 : (writeLe ⟨s, p, ot, ok, oi, t, op⟩ ++ rest)[30]? = some b := by
    rw [hb, List.getElem?_append_right (by omega), h6]; rfl
  have hop : (some b == some 1) = op := by cases op <;> rfl
  rw [readLe, if_neg (by simp [HIST_ENTRY_V2_SIZE]), h30, hop, hb,
    slice_mid [] (leBytes 8 s.toNat) _ (by simp only [f6, f5, f4, f3, f2, f1, append_assoc]; rfl)
      (by simp) (by simp),
    slice_mid f1 (leBytes 4 p.toNat) _ (by simp only [f6, f5, f4, f3, f2, append_assoc]; rfl)
      (by simp [f1]) (by simp),
    slice_mid f2 (leBytes 2 ot.toNat) _ (by simp only [f6, f5, f4, f3, append_assoc]; rfl)
      (by simp [f1, f2]) (by simp),
    slice_mid f3 (leBytes 8 ok.toNat) _ (by simp only [f6, f5, f4, append_assoc]; rfl)
      (by simp [f1, f2, f3]) (by simp),
    slice_mid f4 (leBytes 4 oi.toNat) _ (by simp only [f6, f5, append_assoc]; rfl)
      (by simp [f1, f2, f3, f4]) (by simp),
    slice_mid f5 (leBytes 4 t.toNat) _ (by simp only [f6, append_assoc]; rfl)
      (by simp [f1, f2, f3, f4, f5]) (by simp),
    leNat_u64, leNat_u32, leNat_u16, leNat_u64, leNat_u32, leNat_u32]

lemma readEntries_write (es : List HistEntryV2) (rest : List UInt8) {n} (hn : n ≤ es.length) :
    readEntries n (es.flatMap writeLe ++ rest) = .ok (es.take n) := by
  induction es generalizing n with
  | nil =>
    obtain rfl : n = 0 := Nat.le_zero.1 hn
    rfl
  | cons e es ih =>
    cases n with
    | zero => rfl
    | succ =>
      have hd : (e.writeLe ++ (es.flatMap writeLe ++ rest)).drop HIST_ENTRY_V2_SIZE =
          es.flatMap writeLe ++ rest := by
        have h31 : HIST_ENTRY_V2_SIZE = e.writeLe.length := by simp [HIST_ENTRY_V2_SIZE]
        rw [h31, drop_left]
      rw [flatMap_cons, append_assoc, readEntries, readLe_writeLe, hd,
        ih (Nat.le_of_succ_le_succ hn)]
      rfl

/-- A blob that holds a segment's count and entries at the segment's offset decodes to as many
entries as the 32-bit count says. -/
lemma decodeHistorySegment_of_at (pre post : List UInt8) {data : List UInt8} {es : List HistEntryV2}
    {seg : HistorySegmentRef} (hoff : seg.offset = pre.length)
    (hdata : data = pre ++ (leBytes 4 es.length ++ (es.flatMap writeLe ++ post))) :
    decodeHistorySegment data seg = .ok (es.take (es.length % 2 ^ 32)) := by
  have hn : leNat (slice data seg.offset (seg.offset + 4)) = es.length % 2 ^ 32 := by
    rw [slice_mid pre (leBytes 4 es.length) _ hdata hoff.symm (by simp), leNat_leBytes]
    rfl
  have hmod := Nat.mod_le es.length (2 ^ 32)
  have hbytes : (es.flatMap writeLe).length = es.length * 31 := by
    rw [length_flatMap]; simp
  have hlen : data.length = pre.length + (4 + (es.length * 31 + post.length)) := by
    rw [hdata]; simp [hbytes]
  have hdrop : data.drop (seg.offset + 4) = es.flatMap writeLe ++ post := by
    rw [hdata, hoff, ← append_assoc]
    exact drop_left' (by simp)
  unfold decodeHistorySegment
  simp only [hn, hdrop, HIST_ENTRY_V2_SIZE]
  rw [if_neg (by omega), if_neg (by omega), readEntries_write es post hmod]

namespace HistSidecarBuilder

variable (σ : SortUnstable)

lemma pushEntry_concat (pre : List (List HistEntryV2)) (es : List HistEntryV2) (e : HistEntryV2) :
    pushEntry ⟨pre ++ [es]⟩ e = ⟨pre ++ [es ++ [e]]⟩ := by
  simp [pushEntry]

lemma foldl_pushEntry (pre : List (List HistEntryV2)) (es entries : List HistEntryV2) :
    entries.foldl pushEntry ⟨pre ++ [es]⟩ = ⟨pre ++ [es ++ entries]⟩ := by
  induction entries generalizing es with
  | nil => simp
  | cons _ _ ih => rw [foldl_cons, pushEntry_concat, ih, append_assoc, singleton_append]

def segmentBytes (entries : List HistEntryV2) : List UInt8 :=
  leBytes 4 entries.length ++ (newestFirst σ entries).flatMap writeLe

lemma newestFirst_nil : newestFirst σ [] = [] := List.Perm.eq_nil (σ.perm _ [])

variable (out : List UInt8)

@[simp] lemma newestFirst_length (es : List HistEntryV2) : (newestFirst σ es).length = es.length :=
  (σ.perm _ es).length_eq

lemma buildSegments_cons (entries : List HistEntryV2) (rest : List (List HistEntryV2)) :
    ∃ seg : HistorySegmentRef, seg.offset = out.length ∧ buildSegments σ out (entries :: rest) =
        ((buildSegments σ (out ++ segmentBytes σ entries) rest).1,
          seg :: (buildSegments σ (out ++ segmentBytes σ entries) rest).2) := by
  cases entries with
  | nil =>
    refine ⟨{ offset := out.length, len := 4, minT := 0, maxT := 0 }, rfl, ?_⟩
    simp [buildSegments, segmentBytes, newestFirst_nil]
  | cons e es =>
    have hmod : leBytes 4 (UInt32.ofNat (e :: es).length).toNat = leBytes 4 (e :: es).length := by
      rw [UInt32.toNat_ofNat']
      exact leBytes_mod 4 _
    refine ⟨segmentRef σ out (out ++ segmentBytes σ (e :: es)) (e :: es), rfl, ?_⟩
    simp only [buildSegments, isEmpty_cons, Bool.false_eq_true, if_false, hmod, segmentBytes,
      append_assoc]

lemma buildSegments_append (ls : List (List HistEntryV2)) :
    ∃ post, (buildSegments σ out ls).1 = out ++ post := by
  induction ls generalizing out with
  | nil => exact ⟨[], by simp [buildSegments]⟩
  | cons entries rest ih =>
    obtain ⟨_, -, h⟩ := buildSegments_cons σ out entries rest
    obtain ⟨post, hp⟩ := ih (out ++ segmentBytes σ entries)
    exact ⟨segmentBytes σ entries ++ post, by rw [h, hp, append_assoc]⟩

lemma buildSegments_decode (ls : List (List HistEntryV2)) :
    (buildSegments σ out ls).2.map (decodeHistorySegment (buildSegments σ out ls).1) =
      ls.map (fun es => .ok ((newestFirst σ es).take (es.length % 2 ^ 32))) := by
  induction ls generalizing out with
  | nil => rfl
  | cons entries rest ih =>
    obtain ⟨seg, hoff, h⟩ := buildSegments_cons σ out entries rest
    obtain ⟨post, hp⟩ := buildSegments_append σ (out ++ segmentBytes σ entries) rest
    have hdec : decodeHistorySegment (buildSegments σ (out ++ segmentBytes σ entries) rest).1 seg =
        .ok ((newestFirst σ entries).take (entries.length % 2 ^ 32)) := by
      rw [← newestFirst_length σ entries]
      refine decodeHistorySegment_of_at out post hoff ?_
      rw [hp, segmentBytes, newestFirst_length]; simp only [append_assoc]
    rw [h]
    simp only [map_cons, hdec]
    rw [ih]

/-- **Decoding the segments of a built sidecar gives back each leaflet's entries, newest first**, as
far as the 32-bit count of the segment reaches. -/
lemma decode_build (b : HistSidecarBuilder) :
    (b.build σ).2.map (decodeHistorySegment (b.build σ).1) =
      b.leafletEntries.map (fun es => .ok ((newestFirst σ es).take (es.length % 2 ^ 32))) :=
  buildSegments_decode σ _ b.leafletEntries

end HistSidecarBuilder

end Fluree
