import Fluree.Wal.Replay

/-!
# Replay converges

Each record of a key says what the file holds after it, so the contents a key goes through are
`s₀` and then what its records produce. Replay starts anywhere in that sequence, or from a file a
crash left missing or empty. The invariant is that the file, read as `readOpt` reads it, is one of
the contents still to come (`Within`): a compare-and-swap that neither finds what it expects nor
what it writes has a later content before it (`within_fileStep`).
-/

namespace Fluree.Wal

open List Option Function

variable {files : Files} {key k : String} {op : Op} {ops : List Op} {s c : Option Bytes}

/-! ## The contents a key goes through -/

/-- What the file holds after the record. -/
def Op.produces : Op → Option Bytes
  | .write _ bytes | .insert _ bytes | .cas _ _ bytes => some bytes
  | .delete _ | .cancel _ _ => none

open Op

/-- The record is one the writer logs on a file with these contents: an insert finds no file, a
compare-and-swap has read what it expects. -/
def Op.LoggedOn (s : Option Bytes) : Op → Prop
  | .insert _ _ => s = none
  | .cas _ expected _ => expected = readOpt s
  | _ => True

/-- Every record of a key is logged on what the one before it produced. -/
def Logged (s : Option Bytes) : List Op → Prop
  | [] => True
  | op :: rest => op.LoggedOn s ∧ Logged op.produces rest

def recordsOf (k : String) (ops : List Op) : List Op := ops.filter fun op => op.key? = some k

def contents (s : Option Bytes) (ops : List Op) : List (Option Bytes) := s :: ops.map produces

def final (s : Option Bytes) (ops : List Op) : Option Bytes := (ops.getLast?.map produces).getD s

lemma final_cons (s : Option Bytes) (op : Op) (ops : List Op) :
    final s (op :: ops) = final op.produces ops := by
  unfold final
  cases ops with
  | nil => rfl
  | cons op' ops =>
    rw [List.getLast?_cons_cons]
    cases h : (op' :: ops).getLast? with
    | none => simp at h
    | some => rfl

def Within (s : Option Bytes) (ops : List Op) (c : Option Bytes) : Prop :=
  readOpt c = none ∨ ∃ x ∈ contents s ops, readOpt c = readOpt x

lemma readOpt_eq_some (h : readOpt c = some b) : c = some b :=
  (filter_eq_some_iff.1 h).1

lemma eq_of_readOpt_eq (h : readOpt c = readOpt s) (hne : readOpt c ≠ none) : c = s := by
  obtain ⟨_, hb⟩ := ne_none_iff_exists'.1 hne
  rw [readOpt_eq_some hb, readOpt_eq_some (h.symm.trans hb)]

/-! ## One record on its own file -/

/-- What a record does to its file. -/
def Op.fileStep (c : Option Bytes) : Op → Option Bytes
  | .write _ bytes => if readOpt c ≠ some bytes then some bytes else c
  | .insert _ bytes => if readOpt c = none then some bytes else c
  | .cas _ expected new =>
    if readOpt c = some new then c
    else if readOpt c = none ∨ readOpt c = expected then some new else c
  | .delete _ => none
  | .cancel _ _ => c

/-- **One record**: the file holds what it produces, or stays at one of the later contents. -/
lemma fileStep_cases (hop : op.key? ≠ none) (hlogged : op.LoggedOn s) (h : Within s (op :: ops) c) :
    op.fileStep c = op.produces ∨
      op.fileStep c = c ∧ readOpt c ≠ none ∧ ∃ x ∈ ops.map produces, readOpt c = readOpt x := by
  have hlater : readOpt c ≠ none → readOpt c ≠ readOpt s → readOpt c ≠ readOpt op.produces →
      ∃ x ∈ ops.map produces, readOpt c = readOpt x := by
    intro hsome hs hproduced
    rcases h with h | ⟨x, hx, hcx⟩
    · exact absurd h hsome
    simp only [contents, map_cons, mem_cons] at hx
    rcases hx with rfl | rfl | hx
    · exact absurd hcx hs
    · exact absurd hcx hproduced
    · exact ⟨x, hx, hcx⟩
  cases op with
  | cancel => exact absurd rfl hop
  | delete => exact .inl rfl
  | write key bytes =>
    refine .inl ?_
    change (if readOpt c ≠ some bytes then some bytes else c) = some bytes
    split
    · rfl
    · rename_i heq
      exact readOpt_eq_some (not_not.1 heq)
  | insert _ bytes =>
    simp only [fileStep]
    by_cases hnone : readOpt c = none
    · exact .inl (if_pos hnone)
    rw [if_neg hnone]
    -- the insert found no file, so the contents are the inserted ones or later
    have hs : readOpt c ≠ readOpt s := by
      rw [hlogged]
      exact hnone
    by_cases hproduced : readOpt c = readOpt (some bytes)
    · exact .inl (eq_of_readOpt_eq hproduced hnone)
    · exact .inr ⟨rfl, hnone, hlater hnone hs hproduced⟩
  | cas _ expected new =>
    simp only [fileStep]
    by_cases hnew : readOpt c = some new
    · rw [if_pos hnew]
      exact .inl (readOpt_eq_some hnew)
    · rw [if_neg hnew]
      by_cases hrepair : readOpt c = none ∨ readOpt c = expected
      · exact .inl (if_pos hrepair)
      rw [if_neg hrepair]
      obtain ⟨hnone, hexpected⟩ := not_or.1 hrepair
      rw [hlogged] at hexpected
      have hproduced : readOpt c ≠ readOpt (some new) := by
        intro heq
        obtain ⟨b, hb⟩ := ne_none_iff_exists'.1 hnone
        cases (readOpt_eq_some hb).symm.trans (eq_of_readOpt_eq heq hnone)
        exact hnew hb
      exact .inr ⟨rfl, hnone, hlater hnone hexpected hproduced⟩

lemma within_fileStep (hop : op.key? ≠ none) (hlogged : op.LoggedOn s)
    (h : Within s (op :: ops) c) : Within op.produces ops (op.fileStep c) := by
  rcases fileStep_cases hop hlogged h with heq | ⟨heq, -, x, hx, hcx⟩
  · exact .inr ⟨op.produces, mem_cons_self, by rw [heq]⟩
  · rw [heq]
    exact .inr ⟨x, mem_cons_of_mem _ hx, hcx⟩

lemma fileStep_last (hop : op.key? ≠ none) (hlogged : op.LoggedOn s) (h : Within s [op] c) :
    op.fileStep c = op.produces := by
  rcases fileStep_cases hop hlogged h with heq | ⟨-, -, x, hx, -⟩
  · exact heq
  · exact absurd hx not_mem_nil

/-! ## One record on the files -/

/-- The record takes the sidecar lock of its key. -/
def Op.locks : Op → Bool
  | .insert _ _ | .cas _ _ _ => true
  | _ => false

def Op.LocksOn (k : String) (op : Op) : Prop :=
  op.locks = true ∧ op.key? ≠ some k ∧ ∃ key, op.key? = some key ∧ lockPath key = k

lemma readOpt_keyLock (files : Files) (key k : String) :
    readOpt (keyLock files key k) = readOpt (files k) := by
  unfold keyLock
  split
  · by_cases hk : k = lockPath key
    · subst hk
      rename_i hnone
      rw [update_self, hnone]
      rfl
    · rw [update_of_ne hk]
  · rfl

lemma keyLock_cases (files : Files) (key k : String) :
    keyLock files key k = files k ∨ files k = none ∧ keyLock files key k = some [] ∧ lockPath key = k := by
  unfold keyLock
  split
  · by_cases hk : k = lockPath key
    · subst hk
      rename_i hnone
      exact .inr ⟨hnone, update_self _ _ _, rfl⟩
    · exact .inl (update_of_ne hk _ _)
  · exact .inl rfl

/-- **A record and its own file.** -/
lemma apply_self (h : op.key? = some k) : apply files op k = op.fileStep (files k) := by
  cases op with
  | cancel => cases h
  | delete =>
    cases h
    exact update_self _ _ _
  | write =>
    cases h
    simp only [apply, fileStep]
    split
    · exact update_self _ _ _
    · rfl
  | insert key bytes =>
    cases h
    simp only [apply, fileStep, readOpt_keyLock]
    split
    · exact update_self _ _ _
    rename_i hsome
    -- a file that is there is not the one the lock creates
    rcases keyLock_cases files k k with heq | ⟨hnone, -⟩
    · exact heq
    · exact absurd (by rw [hnone]; rfl) hsome
  | cas key expected new =>
    cases h
    have hkeep : readOpt (files k) ≠ none → keyLock files k k = files k := by
      intro hsome
      rcases keyLock_cases files k k with heq | ⟨hnone, -⟩
      · exact heq
      · exact absurd (by rw [hnone]; rfl) hsome
    simp only [apply, fileStep, readOpt_keyLock]
    split
    · rename_i hnew
      exact hkeep (by rw [hnew]; exact some_ne_none _)
    · split
      · exact update_self _ _ _
      · rename_i hrepair
        exact hkeep (not_or.1 hrepair).1

/-- **A record and another file**: nothing, or the file is the lock and now empty. -/
lemma apply_other (h : op.key? ≠ some k) :
    apply files op k = files k ∨ files k = none ∧ apply files op k = some [] ∧ op.LocksOn k := by
  have hupdate : ∀ (g : Files) (key : String) (b : Option Bytes), op.key? = some key →
      Function.update g key b k = g k := fun g key b hkey =>
    update_of_ne (fun hk => h (by rw [hkey, hk])) _ _
  cases op with
  | cancel => exact .inl rfl
  | delete key => exact .inl (hupdate _ key none rfl)
  | write key =>
    simp only [apply]
    split
    · exact .inl (hupdate _ key _ rfl)
    · exact .inl rfl
  | insert key bytes =>
    have hstep : apply files (.insert key bytes) k = keyLock files key k := by
      simp only [apply]
      split
      · exact hupdate _ key _ rfl
      · rfl
    rw [hstep]
    exact (keyLock_cases files key k).imp_right fun ⟨hnone, hempty, hlock⟩ =>
      ⟨hnone, hempty, rfl, h, key, rfl, hlock⟩
  | cas key expected new =>
    have hstep : apply files (.cas key expected new) k = keyLock files key k := by
      simp only [apply]
      split
      · rfl
      split
      · exact hupdate _ key _ rfl
      · rfl
    rw [hstep]
    exact (keyLock_cases files key k).imp_right fun ⟨hnone, hempty, hlock⟩ =>
      ⟨hnone, hempty, rfl, h, key, rfl, hlock⟩

lemma readOpt_apply_other (h : op.key? ≠ some k) :
    readOpt (apply files op k) = readOpt (files k) := by
  rcases @apply_other files k op h with heq | ⟨hnone, hempty, -⟩
  · rw [heq]
  · rw [hempty, hnone]
    rfl

/-! ## All records -/

/-- The sidecar lock of another key is taken on the file, after the last record of the key. -/
def LockedAfter (k : String) (ops : List Op) : Prop :=
  ∃ pre op post, ops = pre ++ op :: post ∧ op.LocksOn k ∧ ∀ o ∈ post, o.key? ≠ some k

lemma LockedAfter.cons (h : LockedAfter k ops) (op : Op) : LockedAfter k (op :: ops) := by
  obtain ⟨pre, o, post, rfl, hlock, hpost⟩ := h
  exact ⟨op :: pre, o, post, rfl, hlock, hpost⟩

lemma foldl_apply_other (h : ∀ o ∈ ops, o.key? ≠ some k) :
    ops.foldl apply files k = files k ∨ files k = none ∧ LockedAfter k ops := by
  induction ops generalizing files with
  | nil => exact .inl rfl
  | cons op ops ih =>
    obtain ⟨hop, hops⟩ := forall_mem_cons.1 h
    rw [foldl_cons]
    rcases @apply_other files k op hop with heq | ⟨hnone, -, hlock⟩
    · rcases @ih (apply files op) hops with hrest | ⟨hnone, hrest⟩
      · exact .inl (hrest.trans heq)
      · exact .inr ⟨heq ▸ hnone, hrest.cons op⟩
    · exact .inr ⟨hnone, [], op, ops, rfl, hlock, hops⟩

lemma recordsOf_cons_self (h : op.key? = some k) : recordsOf k (op :: ops) = op :: recordsOf k ops :=
  filter_cons_of_pos (by simpa using h)

lemma recordsOf_cons_other (h : op.key? ≠ some k) : recordsOf k (op :: ops) = recordsOf k ops :=
  filter_cons_of_neg (by simpa using h)

lemma forall_of_recordsOf_eq_nil (h : recordsOf k ops = []) : ∀ o ∈ ops, o.key? ≠ some k := by
  intro o ho
  simpa using filter_eq_nil_iff.1 h o ho

/-- **The file after the records of a log**, from any of the contents it goes through. -/
lemma foldl_apply (hlogged : Logged s (recordsOf k ops)) (h : Within s (recordsOf k ops) (files k))
    (hstart : recordsOf k ops ≠ [] ∨ files k = s) :
    ops.foldl apply files k = final s (recordsOf k ops) ∨
      final s (recordsOf k ops) = none ∧ LockedAfter k ops := by
  induction ops generalizing files s with
  | nil => exact .inl (hstart.resolve_left fun hne => hne rfl)
  | cons op ops ih =>
    rw [foldl_cons]
    by_cases hop : op.key? = some k
    · have hmutates : op.key? ≠ none := by rw [hop]; exact some_ne_none _
      rw [recordsOf_cons_self hop] at hlogged h ⊢
      rw [final_cons]
      have hself : apply files op k = op.fileStep (files k) := apply_self hop
      refine (ih hlogged.2 (by rw [hself]; exact within_fileStep hmutates hlogged.1 h) ?_).imp_right
        fun hlock => ⟨hlock.1, hlock.2.cons op⟩
      by_cases hnil : recordsOf k ops = []
      · rw [hnil] at h
        rw [hself]
        exact .inr (fileStep_last hmutates hlogged.1 h)
      · exact .inl hnil
    · rw [recordsOf_cons_other hop] at hlogged h hstart ⊢
      have hwithin : Within s (recordsOf k ops) (apply files op k) := by
        unfold Within
        rw [readOpt_apply_other hop]
        exact h
      rcases hstart with hne | hs
      · exact (ih hlogged hwithin (.inl hne)).imp_right fun hlock => ⟨hlock.1, hlock.2.cons op⟩
      rcases @apply_other files k op hop with heq | ⟨hnone, -, hlock⟩
      · exact (ih hlogged hwithin (.inr (heq.trans hs))).imp_right fun hlock =>
          ⟨hlock.1, hlock.2.cons op⟩
      · by_cases hnil : recordsOf k ops = []
        · rw [hnil]
          refine .inr ⟨hs.symm.trans hnone, [], op, ops, rfl, hlock, ?_⟩
          exact forall_of_recordsOf_eq_nil hnil
        · exact (ih hlogged hwithin (.inl hnil)).imp_right fun hlock => ⟨hlock.1, hlock.2.cons op⟩

/-- **An interrupted replay** leaves the file at one of the contents, missing or empty. -/
lemma within_foldl_apply {part : List Op} (hpart : ∀ o ∈ part, o ∈ ops)
    (h : Within s (recordsOf k ops) (files k)) : Within s (recordsOf k ops) (part.foldl apply files k) := by
  induction part generalizing files with
  | nil => exact h
  | cons op _ ih =>
    obtain ⟨hop, hpart⟩ := forall_mem_cons.1 hpart
    refine ih hpart ?_
    by_cases hkey : op.key? = some k
    · have hmem : op ∈ recordsOf k ops := mem_filter.2 ⟨hop, by simpa using hkey⟩
      rw [apply_self hkey]
      have hstep : op.fileStep (files k) = files k ∨ op.fileStep (files k) = op.produces := by
        cases op with
        | cancel => exact .inl rfl
        | delete => exact .inr rfl
        | write | insert =>
          simp only [fileStep]
          split
          · exact .inr rfl
          · exact .inl rfl
        | cas =>
          simp only [fileStep]
          split
          · exact .inl rfl
          split
          · exact .inr rfl
          · exact .inl rfl
      rcases hstep with heq | heq
      · rw [heq]
        exact h
      · rw [heq]
        exact .inr ⟨op.produces, mem_cons_of_mem _ (mem_map_of_mem hmem), rfl⟩
    · unfold Within
      rw [readOpt_apply_other hkey]
      exact h

/-! ## The log of a root -/

/-- How the segments end: with a whole frame, with a torn one, or with a segment that never got
its header. -/
inductive Tail where
  | complete | torn | unused
deriving DecidableEq

/-- The segments of a log, from its first sequence on. A record cancels one before it. -/
structure Log where
  firstSeq : ℕ
  segments : List (List Op)
  tail : Tail
  cancelsBack : ∀ n seq key, (cancel seq key, n) ∈ segments.flatten.zipIdx firstSeq → seq < n

/-- The segment files of a log: each starts where the one before it ends, and only the last may end
in a torn frame. -/
def segmentFiles (tail : Tail) : ℕ → List (List Op) → List SegmentFile
  | _, [] => if tail = .unused then [.short] else []
  | first, ops :: rest =>
    .frames first ops (tail ≠ .torn || rest ≠ []) :: segmentFiles tail (first + ops.length) rest

def batches : ℕ → List (List Op) → List Batch
  | _, [] => []
  | first, ops :: rest => (first, ops) :: batches (first + ops.length) rest

namespace Log

variable (log : Log)

def onDisk : List SegmentFile := segmentFiles log.tail log.firstSeq log.segments

def records : List (Op × ℕ) := log.segments.flatten.zipIdx log.firstSeq

def cancelled : List ℕ :=
  log.records.filterMap fun r => match r.1 with
    | .cancel seq _ => some seq
    | _ => none

def applied : List Op := (log.records.filter fun r => r.2 ∉ log.cancelled).map Prod.fst

end Log

variable {σ : Type} {f : σ → Batch → Except ReplayError σ} {segs : List (List Op)}

lemma walkSegments_files (tail : Tail) {a a' first next} (hnext : ∀ n ∈ next, n = first)
    (h : (batches first segs).foldlM f a = .ok a') :
    ∃ n, walkSegments f a next (segmentFiles tail first segs) = .ok (a', n) := by
  induction segs generalizing a first next with
  | nil =>
    cases h
    unfold segmentFiles
    split <;> exact ⟨next, rfl⟩
  | cons ops rest ih =>
    have hdecode : ∀ clean, decodeSegment (.frames first ops clean) next = .ok ((first, ops), clean) := by
      intro clean
      cases next with
      | none => rfl
      | some n => simp [decodeSegment, hnext n rfl]
    rw [batches, foldlM_cons] at h
    cases hf : f a (first, ops) with
    | error => rw [hf] at h; cases h
    | ok b =>
      rw [hf] at h
      obtain ⟨n, hn⟩ := @ih b (first + ops.length) (some (first + ops.length)) (by simp) h
      refine ⟨n, ?_⟩
      -- a torn segment has none behind it
      have hlast : (!(decide (tail ≠ .torn) || decide (rest ≠ [])) &&
          !(segmentFiles tail (first + ops.length) rest).isEmpty) = false := by
        cases rest with
        | nil => cases tail <;> rfl
        | cons => simp
      rw [segmentFiles, walkSegments]
      · simp only [hdecode, bind, Except.bind, hlast, hf]
        exact hn
      · intro h
        cases h

lemma zipIdx_batches (first : ℕ) (segs : List (List Op)) :
    (batches first segs).flatMap Batch.numbered = segs.flatten.zipIdx first := by
  induction segs generalizing first with
  | nil => rfl
  | cons _ _ ih =>
    rw [batches, flatMap_cons, ih, flatten_cons, zipIdx_append]
    rfl

lemma foldlM_noteCancelled {records : List (Op × ℕ)} (acc : List ℕ)
    (h : ∀ n seq key, (cancel seq key, n) ∈ records → seq < n) :
    records.foldlM noteCancelled acc = .ok ((records.filterMap fun r => match r.1 with
      | .cancel seq _ => some seq
      | _ => none).reverse ++ acc) := by
  induction records generalizing acc with
  | nil => rfl
  | cons r _ ih =>
    obtain ⟨op, n⟩ := r
    have hrest := fun acc => ih acc fun n seq key hmem => h n seq key (mem_cons_of_mem _ hmem)
    rw [foldlM_cons]
    cases op with
    | cancel seq key =>
      have hlt := h n seq key mem_cons_self
      simp only [noteCancelled, if_neg (Nat.not_le.2 hlt), bind, Except.bind, hrest]
      simp
    | _ => exact hrest acc

lemma foldl_applyUncancelled (cancelled : List ℕ) (records : List (Op × ℕ)) (files : Files) :
    records.foldl (applyUncancelled cancelled) files =
      ((records.filter fun r => r.2 ∉ cancelled).map Prod.fst).foldl apply files := by
  induction records generalizing files with
  | nil => rfl
  | cons r _ ih =>
    rw [foldl_cons, ih]
    by_cases hr : r.2 ∈ cancelled
    · rw [filter_cons_of_neg (by simpa using hr)]
      simp only [applyUncancelled, if_pos hr]
    · rw [filter_cons_of_pos (by simpa using hr), map_cons, foldl_cons]
      simp only [applyUncancelled, if_neg hr]

variable (log : Log) (reached : ℕ → Bool)

def Log.reachedRecords : List Op :=
  ((log.records.filter fun r => reached r.2).filter fun r => r.2 ∉ log.cancelled).map Prod.fst

lemma foldlM_numbered (l : List Batch) (acc : List ℕ) :
    l.foldlM (fun cancelled batch => batch.numbered.foldlM noteCancelled cancelled) acc =
      (l.flatMap Batch.numbered).foldlM noteCancelled acc := by
  induction l generalizing acc with
  | nil => rfl
  | cons _ _ ih =>
    rw [foldlM_cons, flatMap_cons, foldlM_append]
    exact congrArg _ (funext ih)

lemma foldlM_applyBatch (cancelled : List ℕ) (l : List Batch) (files : Files) (n : ℕ) :
    ∃ m, l.foldlM (fun (s : Files × ℕ) batch => Except.ok (ε := ReplayError)
        ((batch.numbered.filter (fun r => reached r.2)).foldl (applyUncancelled cancelled) s.1,
          s.2 + batch.2.length)) (files, n) =
      .ok (((l.flatMap Batch.numbered).filter fun r => reached r.2).foldl
        (applyUncancelled cancelled) files, m) := by
  induction l generalizing files n with
  | nil => exact ⟨n, rfl⟩
  | cons batch l ih =>
    rw [flatMap_cons, filter_append, foldl_append]
    exact ih _ (n + batch.2.length)

/-- **A replay of a log**, whether or not it gets to the end: it succeeds, and the files are those
the records that are not cancelled make. -/
lemma replayReached_log (files : Files) : ∃ r, replayReached reached files log.onDisk = .ok r ∧
      r.files = (log.reachedRecords reached).foldl apply files := by
  have hnext : ∀ n ∈ (none : Option ℕ), n = log.firstSeq := fun n hn => by cases hn
  have hcancelled : (batches log.firstSeq log.segments).foldlM
      (fun cancelled batch => batch.numbered.foldlM noteCancelled cancelled) [] =
        .ok (log.cancelled.reverse ++ []) := by
    rw [foldlM_numbered, zipIdx_batches]
    exact foldlM_noteCancelled [] log.cancelsBack
  obtain ⟨n, hwalk⟩ := walkSegments_files log.tail hnext hcancelled
  obtain ⟨m, hbatches⟩ := foldlM_applyBatch reached (log.cancelled.reverse ++ [])
    (batches log.firstSeq log.segments) files 0
  obtain ⟨n', hwalk'⟩ := walkSegments_files log.tail hnext hbatches
  refine ⟨⟨((log.records.filter fun r => reached r.2).foldl
    (applyUncancelled (log.cancelled.reverse ++ [])) files), n'.getD 1, m⟩, ?_, ?_⟩
  · rw [zipIdx_batches] at hwalk'
    change (walkSegments _ [] none (segmentFiles log.tail log.firstSeq log.segments) >>= _) = _
    rw [hwalk]
    change (walkSegments _ (files, 0) none (segmentFiles log.tail log.firstSeq log.segments) >>= _) = _
    rw [hwalk']
    rfl
  · rw [foldl_applyUncancelled]
    simp only [Log.reachedRecords, append_nil, mem_reverse]

lemma Log.reachedRecords_all : log.reachedRecords (fun _ => true) = log.applied := by
  simp [Log.reachedRecords, Log.applied]

lemma Log.reachedRecords_subset : ∀ op ∈ log.reachedRecords reached, op ∈ log.applied := by
  intro op hop
  obtain ⟨_, hr, rfl⟩ := mem_map.1 hop
  obtain ⟨hr, hc⟩ := mem_filter.1 hr
  exact mem_map_of_mem (mem_filter.2 ⟨mem_of_mem_filter hr, hc⟩)

/-- Where a crash can leave the file: at one of the contents it goes through, missing or empty. The
last two are for a key that has records. -/
def CrashedAt (s₀ : Option Bytes) (records : List Op) (c : Option Bytes) : Prop :=
  c ∈ contents s₀ records ∨ records ≠ [] ∧ (c = none ∨ c = some [])

lemma CrashedAt.within (h : CrashedAt s ops c) : Within s ops c := by
  rcases h with hmem | ⟨-, rfl | rfl⟩
  · exact .inr ⟨c, hmem, rfl⟩
  · exact .inl rfl
  · exact .inl rfl

lemma lockedAfter_of_mem (hnil : recordsOf k ops = []) (hop : op ∈ ops) (hlock : op.LocksOn k) :
    LockedAfter k ops := by
  obtain ⟨pre, post, rfl⟩ := append_of_mem hop
  refine ⟨pre, op, post, rfl, hlock, fun o ho => ?_⟩
  exact forall_of_recordsOf_eq_nil hnil o (mem_append_right _ (mem_cons_of_mem _ ho))

/-- What replaying a log from `files` does, for the file of a key that held `s₀` before the log.
`applied` leaves the cancelled records out. -/
structure Converges (log : Log) (k : String) (s₀ : Option Bytes) (files : Files) : Prop where
  replayed : ∃ r, replay files log.onDisk = .ok r ∧ r.files = log.applied.foldl apply files ∧
    r.files k = final s₀ (recordsOf k log.applied)
  resumed : ∀ stop, ∃ files' r, replayInterrupted stop files log.onDisk = .ok files' ∧
    replay files' log.onDisk = .ok r ∧ r.files k = final s₀ (recordsOf k log.applied)

/-- A head that is created, moved on and moved back, with a cancelled transition between, and a
commit; the crash left the head empty. -/
def headLog : Log where
  firstSeq := 7
  segments := [[.insert "head.json" [1], .write "commit" [9]],
    [.cas "head.json" (some [1]) [2], .cas "head.json" (some [2]) [3], .cancel 10 "head.json",
      .cas "head.json" (some [2]) [1]]]
  tail := .torn
  cancelsBack := by simp

/-- A key is removed whose name is the lock of another key, and then that one is published. -/
def lockLog : Log where
  firstSeq := 1
  segments := [[.delete "a.lock", .cas "a.json" none [1]]]
  tail := .complete
  cancelsBack := by simp

end Fluree.Wal
