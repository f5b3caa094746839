import Fluree.Raft.LogStore
import Fluree.Lib.Slices

/-!
# Frames and segments on the device

A frame decodes to the entry it was made from, wherever it stands (`decodeFrame_encodeFrame`). So
the scan of a segment finds exactly the entries written to it and stops where the bytes are no
frame any more (`scanFrames_spec`).
-/

namespace Fluree.Raft.LogStore

open Lib List

section Scan

section

variable {env : Env}

lemma leNat_leBytes_of_lt (h : n < 256 ^ w) : leNat (leBytes w n) = n := by
  rw [leNat_leBytes, Nat.mod_eq_of_lt h]

lemma frameBody_length (e : LogEntry) : (frameBody e).length = FRAME_HEADER + e.payload.length := by
  simp [frameBody, FRAME_MAGIC, FRAME_HEADER]
  omega

lemma encodeFrame_length (env : Env) (e : LogEntry) :
    (encodeFrame env e).length = FRAME_HEADER + e.payload.length + FRAME_HASH := by
  simp [encodeFrame, frameBody_length, FRAME_HASH]

lemma decodeFrame_eq {bytes offset term index payload hash} (after : List UInt8)
    (hbytes : bytes.drop offset = FRAME_MAGIC ++ (leBytes 4 payload.length ++ (leBytes 8 index ++
      (leBytes 8 term ++ (payload ++ (hash ++ after))))))
    (hlen : payload.length < 2 ^ 32) (hindex : index < 2 ^ 64) (hterm : term < 2 ^ 64)
    (hhash : hash = leBytes 8 (env.frameHash (frameBody ⟨⟨term, index⟩, payload⟩)).toNat) :
    decodeFrame env bytes offset =
      some (⟨term, index⟩, payload, FRAME_HEADER + payload.length + FRAME_HASH) := by
  set rest := bytes.drop offset with hrest
  have hhashLen : hash.length = 8 := by rw [hhash, leBytes_length]
  have hlength : rest.length = FRAME_HEADER + payload.length + FRAME_HASH + after.length := by
    rw [hbytes]
    simp [FRAME_MAGIC, FRAME_HEADER, FRAME_HASH, hhashLen]
    omega
  have h4 : rest.take 4 = FRAME_MAGIC := by rw [hbytes]; exact take_left' rfl
  have d4 : rest.drop 4 = leBytes 4 payload.length ++ (leBytes 8 index ++ (leBytes 8 term ++
      (payload ++ (hash ++ after)))) := by rw [hbytes]; exact drop_left' rfl
  have d8 : rest.drop 8 = leBytes 8 index ++ (leBytes 8 term ++ (payload ++ (hash ++ after))) := by
    rw [show 8 = 4 + 4 from rfl, ← drop_drop, d4]
    exact drop_left' (leBytes_length 4 _)
  have d16 : rest.drop 16 = leBytes 8 term ++ (payload ++ (hash ++ after)) := by
    rw [show 16 = 8 + 8 from rfl, ← drop_drop, d8]
    exact drop_left' (leBytes_length 8 _)
  have d24 : rest.drop FRAME_HEADER = payload ++ (hash ++ after) := by
    rw [show FRAME_HEADER = 16 + 8 from rfl, ← drop_drop, d16]
    exact drop_left' (leBytes_length 8 _)
  have hbody : rest.take (FRAME_HEADER + payload.length) = frameBody ⟨⟨term, index⟩, payload⟩ := by
    rw [hbytes, ← frameBody_length ⟨⟨term, index⟩, payload⟩]
    simp only [frameBody, ← append_assoc]
    rw [append_assoc _ hash after]
    exact take_left
  have dstop : (rest.drop (FRAME_HEADER + payload.length)).take FRAME_HASH = hash := by
    rw [← drop_drop, d24, drop_left]
    exact take_left' hhashLen
  have t4 : leNat ((rest.drop 4).take 4) = payload.length := by
    rw [d4, take_left' (leBytes_length 4 _)]
    exact leNat_leBytes_of_lt (by omega)
  have t8 : leNat ((rest.drop 8).take 8) = index := by
    rw [d8, take_left' (leBytes_length 8 _)]
    exact leNat_leBytes_of_lt (by omega)
  have t16 : leNat ((rest.drop 16).take 8) = term := by
    rw [d16, take_left' (leBytes_length 8 _)]
    exact leNat_leBytes_of_lt (by omega)
  unfold decodeFrame
  simp only [← hrest, t4, t8, t16, hbody, dstop, d24]
  rw [if_neg (by omega), if_neg (by simp [h4]), if_neg (by omega), if_neg (by simp [hhash]),
    take_left]

/-- **A frame decodes to its entry**, wherever it stands. -/
lemma decodeFrame_encodeFrame {e} (h : e.Fits) (before after : List UInt8) :
    decodeFrame env (before ++ encodeFrame env e ++ after) before.length =
      some (e.logId, e.payload, (encodeFrame env e).length) := by
  rw [encodeFrame_length]
  obtain ⟨⟨_, _⟩, _⟩ := e
  refine decodeFrame_eq after ?_ h.payload h.index h.term rfl
  rw [append_assoc, drop_left]
  simp [encodeFrame, frameBody]

lemma decodeFrame_drop (bytes : List UInt8) (offset : ℕ) :
    decodeFrame env bytes offset = decodeFrame env (bytes.drop offset) 0 := by
  simp [decodeFrame]

/-! ## The entries of a segment -/

lemma encodeFrames_cons (e : LogEntry) (entries : List LogEntry) :
    encodeFrames env (e :: entries) = encodeFrame env e ++ encodeFrames env entries :=
  flatMap_cons

lemma encodeFrames_append (a b : List LogEntry) :
    encodeFrames env (a ++ b) = encodeFrames env a ++ encodeFrames env b :=
  flatMap_append

lemma length_le_encodeFrames (env : Env) (entries : List LogEntry) :
    entries.length ≤ (encodeFrames env entries).length := by
  induction entries with
  | nil => exact Nat.le_refl _
  | cons =>
    rw [encodeFrames_cons, length_append, encodeFrame_length, length_cons]
    unfold FRAME_HEADER
    omega

variable (lastPurged : Option LogId)

/-- The live entries are inserted at their places. -/
def insertLive (index : SortedMap ℕ Loc) (locs : List (ℕ × Loc)) :
    SortedMap ℕ Loc :=
  (locs.filter (fun l => live lastPurged l.1)).foldl (fun m l => m.insert l.1 l.2) index

lemma insertLive_cons (index : SortedMap ℕ Loc) (l : ℕ × Loc)
    (locs : List (ℕ × Loc)) :
    insertLive lastPurged index (l :: locs) =
      insertLive lastPurged (if live lastPurged l.1 then index.insert l.1 l.2 else index) locs := by
  unfold insertLive
  rw [filter_cons]
  split <;> rfl

/-- **The scan finds the entries of a segment** and stops where no further frame follows. -/
lemma scanFrames_spec {next} (first : ℕ) (before : List UInt8)
    (index : SortedMap ℕ Loc)
    (hnum : Numbered next entries) (hfits : ∀ e ∈ entries, e.Fits)
    (hjunk : NoFrame env junk (next + entries.length)) (hfuel : entries.length < fuel) :
    scanFrames env lastPurged first (before ++ encodeFrames env entries ++ junk) fuel before.length
        next index =
      { index := insertLive lastPurged index (locsFrom env first before.length entries),
        offset := before.length + (encodeFrames env entries).length,
        physicalNext := next + entries.length,
        torn := !junk.isEmpty } := by
  induction entries generalizing before next fuel index with
    obtain ⟨fuel, rfl⟩ : ∃ k, fuel = k + 1 := ⟨fuel - 1, by simp at hfuel; omega⟩
  | nil =>
    simp only [encodeFrames, flatMap_nil, append_nil, length_nil, Nat.add_zero]
    unfold scanFrames
    cases junk with
    | nil => simp [insertLive, locsFrom]
    | cons b junk =>
      have hne : before.length ≠ (before ++ b :: junk).length := by simp
      rw [if_neg hne, decodeFrame_drop, drop_left]
      cases hdec : decodeFrame env (b :: junk) 0 with
      | none => simp [insertLive, locsFrom]
      | some r =>
        obtain ⟨id, payload, len⟩ := r
        have hindex : id.index ≠ next := by simpa using hjunk id payload len hdec
        simp [insertLive, locsFrom, hindex]
  | cons e entries ih =>
    obtain ⟨hindex, hnum'⟩ := hnum
    have hbytes : before ++ encodeFrames env (e :: entries) ++ junk =
        (before ++ encodeFrame env e) ++ encodeFrames env entries ++ junk := by
      rw [encodeFrames_cons, ← append_assoc]
    have hdec : decodeFrame env (before ++ encodeFrames env (e :: entries) ++ junk) before.length =
        some (e.logId, e.payload, (encodeFrame env e).length) := by
      rw [hbytes, append_assoc]
      exact decodeFrame_encodeFrame (hfits e mem_cons_self) before _
    have hne : before.length ≠ (before ++ encodeFrames env (e :: entries) ++ junk).length := by
      rw [encodeFrames_cons, length_append, length_append, length_append, encodeFrame_length]
      unfold FRAME_HEADER
      omega
    unfold scanFrames
    rw [if_neg hne, hdec]
    simp only [if_pos hindex]
    have hlen : before.length + (encodeFrame env e).length = (before ++ encodeFrame env e).length :=
      (length_append).symm
    have hcount : next + 1 + entries.length = next + (e :: entries).length := by
      rw [length_cons]
      omega
    rw [hbytes, hlen, ih _ _ hnum' (fun x hx => hfits x (mem_cons_of_mem _ hx)) (hcount ▸ hjunk)
      (by simp at hfuel; omega), locsFrom, insertLive_cons, hcount, encodeFrames_cons, hlen]
    simp only [length_append, Nat.add_assoc, hindex]

end

/-!
## Segments that continue one another

A segment on the device holds frames numbered from its first index on (`Seg.Ok`), and starts where
the one before ends (`Chained`), so that the entries are numbered over all segments
(`Chained.numbered`).

`scanSegments_spec`: **opening reads the segments back**, whatever bytes that are no frame stand
behind the last one.
-/

variable {env : Env}

/-! ## Numbered entries -/

variable {n : ℕ} {l : List LogEntry} {e : LogEntry}

lemma numbered_append : Numbered n (a ++ b) ↔ Numbered n a ∧ Numbered (n + a.length) b := by
  induction a generalizing n with
  | nil => simp [Numbered]
  | cons e a ih =>
    have hlen : n + 1 + a.length = n + (e :: a).length := by rw [length_cons]; omega
    rw [cons_append, Numbered, Numbered, ih, hlen, and_assoc]

section

variable (h : Numbered n l)
include h

lemma Numbered.map_index : l.map (·.logId.index) = List.range' n l.length := by
  induction l generalizing n with
  | nil => rfl
  | cons e l ih => rw [map_cons, h.1, ih h.2, length_cons, List.range'_succ]

lemma Numbered.bounds (he : e ∈ l) : n ≤ e.logId.index ∧ e.logId.index < n + l.length := by
  have hmem : e.logId.index ∈ l.map (·.logId.index) := mem_map_of_mem he
  rw [h.map_index, mem_range'_1] at hmem
  exact hmem

lemma Numbered.pairwise : (l.map (·.logId.index)).Pairwise (· < ·) := by
  rw [h.map_index]
  exact pairwise_lt_range'

lemma Numbered.isChain : l.IsChain (fun a b => b.logId.index = a.logId.index + 1) := by
  induction l generalizing n with
  | nil => exact .nil
  | cons e l ih =>
    refine isChain_cons.2 ⟨fun y hy => ?_, ih h.2⟩
    cases l with
    | nil => cases hy
    | cons =>
      obtain rfl := Option.some.inj hy
      rw [h.1, h.2.1]

lemma Numbered.head (he : e ∈ l.head?) : e.logId.index = n := by
  cases l with
  | nil => cases he
  | cons =>
    obtain rfl := Option.some.inj he
    exact h.1

lemma Numbered.last (he : e ∈ l.getLast?) : e.logId.index + 1 = n + l.length := by
  obtain ⟨l, rfl⟩ := List.getLast?_eq_some_iff.1 he
  have := (numbered_append.1 h).2.1
  simp only [length_append, length_singleton]
  omega

lemma Numbered.take (k : ℕ) : Numbered n (l.take k) := by
  rw [← take_append_drop k l] at h
  exact (numbered_append.1 h).1

lemma Numbered.filter_gt (i : ℕ) : l.filter (fun e => i < e.logId.index) = l.drop (i + 1 - n) := by
  induction l generalizing n with
  | nil => simp
  | cons e l ih =>
    obtain ⟨he, hl⟩ := h
    rw [filter_cons, ih hl, he]
    by_cases hi : i < n
    · have h0 : i + 1 - (n + 1) = 0 := by omega
      have h1 : i + 1 - n = 0 := by omega
      simp [hi, h0, h1]
    · have h1 : i + 1 - n = (i + 1 - (n + 1)) + 1 := by omega
      simp [hi, h1]

lemma Numbered.drop (k : ℕ) (hk : k ≤ l.length) : Numbered (n + k) (l.drop k) := by
  rw [← take_append_drop k l] at h
  have := (numbered_append.1 h).2
  rwa [length_take, Nat.min_eq_left hk] at this

end

/-! ## Segments -/

/-- A segment and the entries its frames hold. -/
structure Seg where
  first : ℕ
  entries : List LogEntry

namespace Seg

def next (s : Seg) : ℕ := s.first + s.entries.length

def bytes (env : Env) (s : Seg) : List UInt8 := segmentHeader s.first ++ encodeFrames env s.entries

def file (env : Env) (s : Seg) : ℕ × List UInt8 := (s.first, s.bytes env)

/-- The segment as the store knows it. -/
def segment (env : Env) (s : Seg) : Segment where
  firstIndex := s.first
  lastIndex := if s.next = s.first then none else some (s.next - 1)
  len := (s.bytes env).length

def locs (env : Env) (s : Seg) : List (ℕ × Loc) := locsFrom env s.first SEGMENT_HEADER s.entries

structure Ok (s : Seg) : Prop where
  first : s.first < 2 ^ 64
  numbered : Numbered s.first s.entries
  fits : ∀ e ∈ s.entries, e.Fits

lemma next_eq_first_iff {s : Seg} : s.next = s.first ↔ s.entries = [] := by
  unfold next
  rw [Nat.add_eq_left, length_eq_zero_iff]

end Seg

lemma segmentHeader_length (first : ℕ) : (segmentHeader first).length = SEGMENT_HEADER := by
  simp [segmentHeader, SEGMENT_MAGIC, SEGMENT_HEADER]

lemma Seg.bytes_length (env : Env) (s : Seg) :
    (s.bytes env).length = SEGMENT_HEADER + (encodeFrames env s.entries).length := by
  rw [Seg.bytes, length_append, segmentHeader_length]

variable {s : Seg} {segs : List Seg}

lemma badHeader_bytes (h : s.first < 2 ^ 64) (junk : List UInt8) :
    badHeader s.first (s.bytes env ++ junk) = false := by
  have htake : (s.bytes env ++ junk).take 8 = SEGMENT_MAGIC := by
    simp only [Seg.bytes, segmentHeader, append_assoc]
    exact take_left' rfl
  have hdrop : ((s.bytes env ++ junk).drop 8).take 8 = leBytes 8 s.first := by
    simp only [Seg.bytes, segmentHeader, append_assoc]
    rw [drop_left' (show SEGMENT_MAGIC.length = 8 from rfl), take_left' (leBytes_length 8 _)]
  have hlen : SEGMENT_HEADER ≤ (s.bytes env).length + junk.length := by
    rw [Seg.bytes_length]
    omega
  simp [badHeader, htake, hdrop, hlen, leNat_leBytes_of_lt (show s.first < 256 ^ 8 by omega)]

/-- Segments each of which starts where the one before ends. -/
structure Chained (segs : List Seg) : Prop where
  ok : ∀ s ∈ segs, s.Ok
  chain : segs.IsChain (fun s s' => s.entries ≠ [] ∧ s'.first = s.next)

def physical (segs : List Seg) : List LogEntry := segs.flatMap Seg.entries

lemma physical_append (a b : List Seg) : physical (a ++ b) = physical a ++ physical b :=
  flatMap_append

lemma physical_singleton (s : Seg) : physical [s] = s.entries := flatMap_singleton _ _

lemma Chained.tail (h : Chained (s :: segs)) : Chained segs :=
  ⟨fun t ht => h.ok t (mem_cons_of_mem _ ht), h.chain.tail⟩

lemma Chained.left (h : Chained (a ++ b)) : Chained a :=
  ⟨fun s hs => h.ok s (mem_append_left _ hs), (isChain_append.1 h.chain).1⟩

lemma Chained.concat (h : Chained segs) (hs : s.Ok)
    (hlast : ∀ t ∈ segs.getLast?, t.entries ≠ [] ∧ s.first = t.next) : Chained (segs ++ [s]) := by
  refine ⟨fun t ht => ?_, isChain_append.2 ⟨h.chain, isChain_singleton _, fun t ht y hy => ?_⟩⟩
  · rcases mem_append.1 ht with ht | ht
    · exact h.ok t ht
    · rw [mem_singleton.1 ht]
      exact hs
  · obtain rfl := Option.some.inj hy
    exact hlast t ht

lemma Chained.last (h : Chained (segs ++ [s])) :
    s.Ok ∧ ∀ t ∈ segs.getLast?, t.entries ≠ [] ∧ s.first = t.next :=
  ⟨h.ok s (by simp), fun t ht => (isChain_append.1 h.chain).2.2 t ht s rfl⟩

/-- **The entries are numbered over all segments.** -/
lemma Chained.numbered (h : Chained (s :: segs)) : Numbered s.first (physical (s :: segs)) := by
  induction segs generalizing s with
  | nil =>
    rw [physical_singleton]
    exact (h.ok s mem_cons_self).numbered
  | cons _ _ ih =>
    obtain ⟨-, hnext⟩ := (isChain_cons_cons.1 h.chain).1
    refine numbered_append.2 ⟨(h.ok s mem_cons_self).numbered, ?_⟩
    have hrest := ih h.tail
    rw [hnext] at hrest
    exact hrest

lemma Chained.exists_numbered (h : Chained segs) : ∃ n, Numbered n (physical segs) := by
  cases segs with
  | nil => exact ⟨0, trivial⟩
  | cons s => exact ⟨s.first, h.numbered⟩

/-! ## Where the entries are -/

lemma locsFrom_keys (segment offset : ℕ) (entries : List LogEntry) :
    (locsFrom env segment offset entries).map (·.1) = entries.map (·.logId.index) := by
  induction entries generalizing offset with
  | nil => rfl
  | cons _ _ ih => rw [locsFrom, map_cons, map_cons, ih]

lemma locsFrom_append (segment offset : ℕ) (a b : List LogEntry) :
    locsFrom env segment offset (a ++ b) =
      locsFrom env segment offset a ++ locsFrom env segment (offset + (encodeFrames env a).length) b := by
  induction a generalizing offset with
  | nil => rfl
  | cons e a ih =>
    rw [cons_append, locsFrom, locsFrom, ih, encodeFrames_cons, length_append, Nat.add_assoc]
    rfl

lemma locs_keys (segs : List Seg) :
    (segs.flatMap (Seg.locs env)).map (·.1) = (physical segs).map (·.logId.index) := by
  induction segs with
  | nil => rfl
  | cons _ _ ih =>
    rw [flatMap_cons, map_append, ih, Seg.locs, locsFrom_keys, ← map_append]
    rfl

lemma insertLive_append (lastPurged : Option LogId) (index : SortedMap ℕ Loc) (a b : List (ℕ × Loc)) :
    insertLive lastPurged index (a ++ b) = insertLive lastPurged (insertLive lastPurged index a) b := by
  unfold insertLive
  rw [filter_append, foldl_append]

/-! ## Opening -/

/-- The files of a chain of segments, with `junk` behind the last one. -/
def image (env : Env) : List Seg → List UInt8 → List (ℕ × List UInt8)
  | [], _ => []
  | [s], junk => [(s.first, s.bytes env ++ junk)]
  | s :: rest, junk => s.file env :: image env rest junk

lemma image_concat (segs : List Seg) (s : Seg) (junk : List UInt8) :
    image env (segs ++ [s]) junk = segs.map (Seg.file env) ++ [(s.first, s.bytes env ++ junk)] := by
  induction segs with
  | nil => rfl
  | cons t segs ih =>
    obtain ⟨u, rest, hrest⟩ : ∃ u rest, segs ++ [s] = u :: rest := by
      cases segs with
      | nil => exact ⟨s, [], rfl⟩
      | cons u rest => exact ⟨u, rest ++ [s], rfl⟩
    have hcons : image env (t :: (segs ++ [s])) junk = t.file env :: image env (segs ++ [s]) junk := by
      rw [hrest]
      rfl
    rw [cons_append, hcons, ih]
    rfl

lemma image_nil (segs : List Seg) : image env segs [] = segs.map (Seg.file env) := by
  rcases eq_nil_or_concat segs with rfl | ⟨pre, s, rfl⟩
  · rfl
  · rw [concat_eq_append, image_concat, append_nil, map_append]
    rfl

/-- What opening does to the device: it cuts the junk off. -/
def cutJunk (env : Env) (segs : List Seg) (junk : List UInt8) : List DeviceOp :=
  match segs.getLast? with
  | some s => if junk = [] then [] else [.setLen s.first (s.bytes env).length]
  | none => []

lemma noFrame_nil (n : ℕ) : NoFrame env [] n := by
  intro id payload len h
  simp [decodeFrame, FRAME_HEADER] at h

lemma scanFrames_seg (h : s.Ok) (hjunk : NoFrame env junk s.next)
    (lastPurged : Option LogId) (index : SortedMap ℕ Loc) :
    scanFrames env lastPurged s.first (s.bytes env ++ junk) ((s.bytes env ++ junk).length + 1)
        SEGMENT_HEADER s.first index =
      { index := insertLive lastPurged index (s.locs env),
        offset := (s.bytes env).length,
        physicalNext := s.next,
        torn := !junk.isEmpty } := by
  have hfuel : s.entries.length < (s.bytes env ++ junk).length + 1 := by
    have := length_le_encodeFrames env s.entries
    rw [length_append, Seg.bytes_length]
    omega
  have hspec := scanFrames_spec lastPurged s.first (segmentHeader s.first) index h.numbered h.fits
    hjunk hfuel
  rw [segmentHeader_length] at hspec
  rw [Seg.bytes_length]
  exact hspec

/-- **Opening reads the segments back**, and cuts off what is no frame behind the last one. -/
lemma scanSegments_spec (h : Chained segs)
    (hjunk : ∀ s ∈ segs.getLast?, NoFrame env junk s.next) (expected : Option ℕ)
    (hexpected : ∀ n ∈ expected, ∀ s ∈ segs.head?, n = s.first) (inner : Inner) :
    scanSegments env (image env segs junk) expected inner =
      (.ok { inner with
          segments := inner.segments ++ segs.map (Seg.segment env),
          index := insertLive inner.lastPurged inner.index (segs.flatMap (Seg.locs env)) },
        (cutJunk env segs junk).flatMap (device env).durably) := by
  induction segs generalizing expected inner with
  | nil => simp [image, scanSegments, cutJunk, insertLive]
  | cons s segs ih =>
    have hs := h.ok s mem_cons_self
    have hexp : ¬ expected.any (· ≠ s.first) := by
      cases expected with
      | none => simp
      | some n => simpa using hexpected n rfl s rfl
    cases segs with
    | nil =>
      have hnf := hjunk s rfl
      rw [image, scanSegments, badHeader_bytes hs.first, if_neg (by simp), if_neg hexp,
        scanFrames_seg hs hnf]
      cases junk with
      | nil => simp [cutJunk, scanSegments, Seg.segment]
      | cons => simp [cutJunk, Seg.segment]
    | cons t segs =>
      obtain ⟨-, hnext⟩ := (isChain_cons_cons.1 h.chain).1
      have himage : image env (s :: t :: segs) junk =
          (s.first, s.bytes env ++ []) :: image env (t :: segs) junk := by
        rw [append_nil]
        rfl
      have hcut : cutJunk env (s :: t :: segs) junk = cutJunk env (t :: segs) junk := by
        unfold cutJunk
        rw [List.getLast?_cons_cons]
      rw [himage, scanSegments, badHeader_bytes hs.first, if_neg (by simp), if_neg hexp,
        scanFrames_seg hs (noFrame_nil _)]
      simp only [isEmpty_nil, Bool.not_true, Bool.false_eq_true, if_false]
      rw [ih h.tail (by rwa [List.getLast?_cons_cons] at hjunk) (some s.next)
        (fun n hn u hu => by cases hn; cases hu; exact hnext.symm), hcut]
      simp [Seg.segment, flatMap_cons, insertLive_append]

end Scan

/-!
## The layout of the device

A device in order holds a chain of segments and behind the last one bytes that are no frame
(`Layout`). Its log is the part above the purge marker (`Layout.log`). Each device operation of the
store keeps a layout:

- `Layout.rewriteLast`, what a write, a torn write or a cut leaves in the last segment;
- `Layout.publish`, `Layout.unlinkLast`, `Layout.unlinkHead` for the directory;
- `Layout.mark`, a new purge marker.
-/

open SortedMap

section

variable {env : Env}

def liveEntries (lastPurged : Option LogId) (segs : List Seg) : List LogEntry :=
  (physical segs).filter (fun e => live lastPurged e.logId.index)

/-- The first entry, purged or not, leaves no gap above the marker. -/
def Reaches (lastPurged : Option LogId) (segs : List Seg) : Prop :=
  ∀ p ∈ lastPurged, ∀ e ∈ (physical segs).head?, e.logId.index ≤ p.index + 1

/-- The device holds the segments, with `junk` behind the last one. -/
structure Layout (env : Env) (segs : List Seg) (junk : List UInt8) (d : Disk) : Prop where
  chained : Chained segs
  files : d.segments.entries = image env segs junk
  torn : ∀ s ∈ segs.getLast?, NoFrame env junk s.next
  reaches : Reaches d.lastPurged segs

lemma layout_blank : Layout env [] [] Disk.blank :=
  ⟨⟨by simp, .nil⟩, rfl, by simp, fun p hp => by cases hp⟩

lemma live_none : live none = fun _ => true := rfl

lemma live_some (p : LogId) (i : ℕ) : live (some p) i = decide (p.index < i) := rfl

variable {segs : List Seg} {junk : List UInt8} {d : Disk} {s : Seg}

lemma numbered_live (h : Chained segs) (hr : Reaches lastPurged segs) :
    ∃ n, Numbered n (liveEntries lastPurged segs) ∧
      ∀ p ∈ lastPurged, liveEntries lastPurged segs ≠ [] → n = p.index + 1 := by
  obtain ⟨n, hn⟩ := h.exists_numbered
  cases lastPurged with
  | none =>
    refine ⟨n, ?_, by simp⟩
    unfold liveEntries
    rw [live_none, filter_true]
    exact hn
  | some p =>
    have hlive : liveEntries (some p) segs = (physical segs).drop (p.index + 1 - n) := by
      rw [← hn.filter_gt]
      rfl
    rw [hlive]
    by_cases hlen : p.index + 1 - n ≤ (physical segs).length
    · refine ⟨_, hn.drop _ hlen, fun q hq hne => ?_⟩
      obtain rfl := Option.some.inj hq
      cases hphys : physical segs with
      | nil => simp [hphys] at hne
      | cons e =>
        have hreach := hr p rfl e (by rw [hphys]; rfl)
        have he := hn.head (e := e) (by rw [hphys]; rfl)
        omega
    · rw [drop_eq_nil_of_le (by omega)]
      exact ⟨n, trivial, fun _ _ hne => absurd rfl hne⟩

def Layout.log {segs : List Seg} {junk : List UInt8} {d : Disk} (h : Layout env segs junk d) : Log where
  purged := d.lastPurged
  entries := liveEntries d.lastPurged segs
  contiguous := by
    obtain ⟨n, hn, -⟩ := numbered_live h.chained h.reaches
    exact hn.isChain
  above := by
    obtain ⟨n, hn, hp⟩ := numbered_live h.chained h.reaches
    intro p hpurged e he
    have hne : liveEntries d.lastPurged segs ≠ [] := by
      intro hnil
      rw [hnil] at he
      cases he
    rw [hn.head he, hp p hpurged hne]

def Holds (env : Env) (d : Disk) (l : Log) : Prop :=
  ∃ segs junk, Layout env segs junk d ∧ l.purged = d.lastPurged ∧
    l.entries = liveEntries d.lastPurged segs

lemma Layout.holds (h : Layout env segs junk d) : Holds env d h.log := ⟨segs, junk, h, rfl, rfl⟩

/-! ## Device operations -/

lemma Reaches.of_prefix (h : Reaches lastPurged a)
    (hab : physical b <+: physical a) : Reaches lastPurged b := by
  intro p hp e he
  obtain ⟨_, hrest⟩ := hab
  refine h p hp e ?_
  rw [← hrest, List.head?_append, Option.mem_def.1 he]
  rfl

/-- **The last segment is written anew**, in full or in part. -/
lemma Layout.rewriteLast (h : Layout env (segs ++ [s]) junk d)
    (hfirst : t.first = s.first) (ht : t.Ok) (hjunk : NoFrame env junk' t.next)
    (hreach : Reaches d.lastPurged (segs ++ [t])) : Layout env (segs ++ [t]) junk'
      { d with segments := d.segments.insert s.first (t.bytes env ++ junk') } := by
  refine ⟨h.chained.left.concat ht ?_, ?_, ?_, hreach⟩
  · rw [hfirst]
    exact h.chained.last.2
  · have hfiles := h.files
    rw [image_concat] at hfiles
    rw [entries_insert_last hfiles, image_concat, hfirst]
  · intro u hu
    rw [List.getLast?_append_of_ne_nil _ (by simp)] at hu
    obtain rfl := Option.some.inj hu
    exact hjunk

lemma Layout.get?_last (h : Layout env (segs ++ [s]) junk d) :
    d.segments.get? s.first = some (s.bytes env ++ junk) := by
  have hfiles := h.files
  rw [image_concat] at hfiles
  exact SortedMap.get?_last hfiles

lemma Layout.publish (h : Layout env segs [] d) (hfirst : first < 2 ^ 64)
    (hlast : ∀ t ∈ segs.getLast?, t.entries ≠ [] ∧ first = t.next) :
    Layout env (segs ++ [⟨first, []⟩]) [] ((device env).apply (.publish first) d) := by
  have hok : Seg.Ok ⟨first, []⟩ := ⟨hfirst, trivial, by simp⟩
  have hchained := h.chained.concat hok hlast
  refine ⟨hchained, ?_, fun s _ => noFrame_nil _, h.reaches.of_prefix ?_⟩
  · -- the new file is the last one, as each segment starts behind the one before
    have hlt : ∀ f ∈ d.segments.entries, f.1 < first := by
      rcases eq_nil_or_concat segs with rfl | ⟨pre, t, rfl⟩
      · rw [h.files]
        simp [image]
      · rw [concat_eq_append] at h hlast
        obtain ⟨hne, hnext⟩ := hlast t (by simp)
        have hfiles := h.files
        rw [image_concat] at hfiles
        have htfirst : t.first < first := by
          have := length_pos_iff.2 hne
          rw [hnext, Seg.next]
          omega
        intro f hf
        rw [hfiles] at hf
        rcases mem_append.1 hf with hf | hf
        · exact (lt_of_entries_eq_append hfiles f hf).trans htfirst
        · rw [mem_singleton.1 hf]
          exact htfirst
    change (d.segments.insert first (segmentHeader first)).entries = _
    rw [entries_insert_of_lt hlt, h.files, image_nil, image_concat, append_nil]
    simp [Seg.bytes, encodeFrames]
  · have hsame : physical (segs ++ [⟨first, []⟩]) = physical segs := by
      rw [physical_append, physical_singleton, append_nil]
    exact ⟨[], by rw [hsame, append_nil]⟩

lemma Layout.unlinkLast (h : Layout env (segs ++ [s]) [] d) :
    Layout env segs [] ((device env).apply (.unlink s.first) d) := by
  refine ⟨h.chained.left, ?_, fun t _ => noFrame_nil _, h.reaches.of_prefix ?_⟩
  · have hfiles := h.files
    rw [image_concat] at hfiles
    change (d.segments.erase s.first).entries = _
    rw [entries_erase_last hfiles, image_nil]
  · rw [physical_append]
    exact prefix_append _ _

lemma Layout.unlinkHead (h : Layout env (s :: segs) [] d) (hp : d.lastPurged = some p)
    (hpast : s.next ≤ p.index + 1) :
    Layout env segs [] ((device env).apply (.unlink s.first) d) := by
  refine ⟨h.chained.tail, ?_, fun t _ => noFrame_nil _, ?_⟩
  · have hfiles := h.files
    rw [image_nil, map_cons] at hfiles
    change (d.segments.erase s.first).entries = _
    rw [entries_erase_head hfiles, image_nil]
  · intro q hq e he
    change q ∈ d.lastPurged at hq
    rw [hp] at hq
    obtain rfl := Option.some.inj hq
    cases segs with
    | nil => cases he
    | cons =>
      obtain ⟨-, hnext⟩ := (isChain_cons_cons.1 h.chained.chain).1
      rw [h.chained.tail.numbered.head he, hnext]
      exact hpast

lemma Layout.mark (h : Layout env segs [] d) {id} (hreach : Reaches (some id) segs) :
    Layout env segs [] ((device env).apply (.publishMarker id) d) :=
  ⟨h.chained, h.files, h.torn, hreach⟩

end

/-!
## Opening and reading the log store

`Loaded` relates the store in memory to the segments on the device. Opening a device in order gives
a store that is loaded (`openInner_spec`), and a loaded store reads as the log of its device
(`Loaded.exposes`).
-/

open Seg

variable {env : Env}

def applyAll (env : Env) (ops : List DeviceOp) (d : Disk) : Disk :=
  ops.foldl (fun d o => (device env).apply o d) d

lemma after_durably (ops : List DeviceOp) (d : Disk) :
    after env (ops.flatMap (device env).durably) d = applyAll env ops d := by
  rw [after, Device.exec_durably]
  rfl

lemma applyAll_append (a b : List DeviceOp) (d : Disk) :
    applyAll env (a ++ b) d = applyAll env b (applyAll env a d) := foldl_append

/-- The device holds these entries, purged or not, above this marker. -/
def Stores (env : Env) (lastPurged : Option LogId) (entries : List LogEntry) (d : Disk) : Prop :=
  ∃ segs junk, Layout env segs junk d ∧ d.lastPurged = lastPurged ∧ physical segs = entries

variable {segs : List Seg} {junk : List UInt8} {d : Disk} {inner : Inner}

lemma Layout.stores (h : Layout env segs junk d) : Stores env d.lastPurged (physical segs) d :=
  ⟨segs, junk, h, rfl, rfl⟩

/-- The store in memory knows the segments on the device. -/
structure Loaded (env : Env) (inner : Inner) (d : Disk) (segs : List Seg) : Prop where
  layout : Layout env segs [] d
  purged : inner.lastPurged = d.lastPurged
  segments : inner.segments = segs.map (segment env)
  index : inner.index.entries = (segs.flatMap (locs env)).filter (fun l => live d.lastPurged l.1)

lemma live_locs_keys (lastPurged : Option LogId) (segs : List Seg) :
    ((segs.flatMap (locs env)).filter (fun l => live lastPurged l.1)).map (·.1) =
      (liveEntries lastPurged segs).map (·.logId.index) := by
  have hl := filter_map (p := live lastPurged) (f := fun l : ℕ × Loc => l.1)
    (l := segs.flatMap (locs env))
  have hp := filter_map (p := live lastPurged) (f := fun e : LogEntry => e.logId.index)
    (l := physical segs)
  rw [locs_keys] at hl
  exact (hl.symm.trans hp)

lemma Loaded.keys (h : Loaded env inner d segs) :
    inner.index.entries.map (·.1) = (liveEntries d.lastPurged segs).map (·.logId.index) := by
  rw [h.index, live_locs_keys]

lemma locs_pairwise (h : Chained segs) (lastPurged : Option LogId) :
    ((segs.flatMap (locs env)).filter (fun l => live lastPurged l.1)).Pairwise
      (fun a b => a.1 < b.1) := by
  obtain ⟨_, hn⟩ := h.exists_numbered
  have hkeys : ((segs.flatMap (locs env)).map (·.1)).Pairwise (· < ·) := by
    rw [locs_keys]
    exact hn.pairwise
  exact (pairwise_map.1 hkeys).sublist filter_sublist

/-! ## Opening -/

/-- **Cutting the junk off leaves the entries**, whenever it is interrupted. -/
lemma cutJunk_spec (h : Layout env segs junk d) :
    Layout env segs [] (applyAll env (cutJunk env segs junk) d) ∧
      (applyAll env (cutJunk env segs junk) d).lastPurged = d.lastPurged ∧
      (device env).CrashSafe (Stores env d.lastPurged (physical segs)) (cutJunk env segs junk) d := by
  rcases eq_nil_or_concat segs with rfl | ⟨pre, s, rfl⟩
  · exact ⟨⟨h.chained, h.files, by simp, h.reaches⟩, rfl, h.stores⟩
  rw [concat_eq_append] at h ⊢
  have hcut : cutJunk env (pre ++ [s]) junk =
      if junk = [] then [] else [.setLen s.first (s.bytes env).length] := by
    simp [cutJunk]
  rw [hcut]
  split
  · rename_i hnil
    subst hnil
    exact ⟨h, rfl, h.stores⟩
  · have hset : (device env).apply (.setLen s.first (s.bytes env).length) d =
        { d with segments := d.segments.insert s.first (s.bytes env ++ []) } := by
      change DeviceOp.apply env (.setLen s.first (s.bytes env).length) d = _
      simp [DeviceOp.apply, h.get?_last]
    have hcutLayout := h.rewriteLast rfl h.chained.last.1 (noFrame_nil s.next) h.reaches
    rw [← hset] at hcutLayout
    have hpurged : ((device env).apply (.setLen s.first (s.bytes env).length) d).lastPurged =
        d.lastPurged := by rw [hset]
    have hstores := hcutLayout.stores
    rw [hpurged] at hstores
    exact ⟨hcutLayout, hpurged, h.stores, fun d' hd' => hd'.elim, hstores⟩

/-- **A device in order opens.** -/
lemma openInner_spec (h : Layout env segs junk d) :
    ∃ inner, openInner env d = (.ok inner, (cutJunk env segs junk).flatMap (device env).durably) ∧
      Loaded env inner (applyAll env (cutJunk env segs junk) d) segs := by
  obtain ⟨hlayout, hpurged, -⟩ := cutJunk_spec h
  have hscan := scanSegments_spec h.chained h.torn none (by simp) ⟨[], .empty, d.lastPurged⟩
  rw [← h.files] at hscan
  refine ⟨_, hscan, hlayout, hpurged.symm, nil_append _, ?_⟩
  · rw [hpurged]
    exact entries_foldl_insert (by
      rw [show (empty : SortedMap ℕ Loc).entries = [] from rfl, nil_append]
      exact locs_pairwise h.chained _)

/-! ## Reading -/

lemma segment_firstIndex (s : Seg) : (s.segment env).firstIndex = s.first := rfl

lemma readEntry_eq {s : Seg} {e : LogEntry} {before after : List UInt8}
    (hseg : s.segment env ∈ inner.segments) (hfits : e.Fits)
    (hfile : d.segments.get? s.first = some (before ++ encodeFrame env e ++ after)) {term : ℕ} :
    readEntry env inner d
        (e.logId.index, ⟨s.first, before.length, (encodeFrame env e).length, term⟩) = .ok e := by
  have hframe : ((before ++ encodeFrame env e ++ after).drop before.length).take
      (encodeFrame env e).length = encodeFrame env e := by
    rw [append_assoc, drop_left, take_left]
  have hdec : decodeFrame env (encodeFrame env e) 0 =
      some (e.logId, e.payload, (encodeFrame env e).length) := by
    have h : decodeFrame env ([] ++ encodeFrame env e ++ []) 0 = _ := decodeFrame_encodeFrame hfits [] []
    rwa [nil_append, append_nil] at h
  have hknown : ¬ inner.segments.all (fun seg => seg.firstIndex ≠ s.first) := by
    simp only [all_eq_true, not_forall]
    exact ⟨_, hseg, by simp [segment_firstIndex]⟩
  unfold readEntry
  simp only [hfile, hframe, hdec, lt_irrefl, if_false, if_true]
  rw [if_neg hknown]

lemma readEntry_locsFrom {s : Seg} {before : List UInt8} {entries : List LogEntry}
    (hseg : s.segment env ∈ inner.segments) (hfits : ∀ e ∈ entries, e.Fits)
    (hfile : d.segments.get? s.first = some (before ++ encodeFrames env entries)) :
    List.Forall₂ (fun l e => l.1 = e.logId.index ∧ l.2.term = e.logId.term ∧
      readEntry env inner d l = .ok e) (locsFrom env s.first before.length entries) entries := by
  induction entries generalizing before with
  | nil => exact .nil
  | cons e _ ih =>
    rw [encodeFrames_cons, ← append_assoc] at hfile
    have hrest := ih (fun x hx => hfits x (mem_cons_of_mem _ hx)) hfile
    rw [length_append] at hrest
    exact .cons ⟨rfl, rfl, readEntry_eq hseg (hfits e mem_cons_self) hfile⟩ hrest

lemma Loaded.reads (h : Loaded env inner d segs) :
    List.Forall₂ (fun l e => l.1 = e.logId.index ∧ l.2.term = e.logId.term ∧
      readEntry env inner d l = .ok e) inner.index.entries (liveEntries d.lastPurged segs) := by
  have hall : List.Forall₂ (fun l e => l.1 = e.logId.index ∧ l.2.term = e.logId.term ∧
      readEntry env inner d l = .ok e) (segs.flatMap (locs env)) (physical segs) := by
    refine rel_flatMap (R := fun s t => s = t ∧ s ∈ segs) ?_ ?_
    · exact forall₂_same.2 fun s hs => ⟨rfl, hs⟩
    · rintro s t ⟨rfl, hs⟩
      have hfile : d.segments.get? s.first = some (segmentHeader s.first ++ encodeFrames env s.entries) := by
        refine get?_eq_some_iff.2 ?_
        rw [h.layout.files, image_nil]
        exact mem_map_of_mem hs
      have hread := readEntry_locsFrom (by rw [h.segments]; exact mem_map_of_mem hs)
        (h.layout.chained.ok s hs).fits hfile
      rw [segmentHeader_length] at hread
      exact hread
  rw [h.index]
  refine rel_filter (fun l e hle => ?_) hall
  simp only [hle.1]

/-- **A loaded store reads as the log of its device.** -/
lemma Loaded.exposes (h : Loaded env inner d segs) : Exposes env inner d h.layout.log := by
  have hreads := h.reads
  constructor
  · have hlast : inner.index.entries.getLast?.map (fun l => (⟨l.2.term, l.1⟩ : LogId)) =
        (liveEntries d.lastPurged segs).getLast?.map (·.logId) := by
      have hmap : inner.index.entries.map (fun l => (⟨l.2.term, l.1⟩ : LogId)) =
          (liveEntries d.lastPurged segs).map (·.logId) := by
        refine forall₂_eq_eq_eq ▸ forall₂_map_left_iff.2 (forall₂_map_right_iff.2 ?_)
        exact hreads.imp fun l e hle => by rw [hle.1, hle.2.1]
      rw [← List.getLast?_map, ← List.getLast?_map, hmap]
    rw [logState, hlast, h.purged]
    rfl
  · intro lo hi
    refine mapM_ok_iff.2 ?_
    refine (rel_filter (fun l e hle => ?_) hreads).imp fun l e hle => hle.2.2
    simp only [hle.1]

end Fluree.Raft.LogStore
