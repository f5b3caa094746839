import Fluree.Proof.Wal.Durable

/-!
# Segments are retired in log order

The segment files, oldest first, are those a retirement has drained, the closed ones and the active
one (`Files.order`). A retirement takes from the front only, and only a segment without guards; a
closed segment gets no new guard, since appends go to the active one.

Most steps leave all of this alone (`Calm`).
-/

namespace Fluree.Wal.Live

section Steps

open State List Live Nat

variable {first : ℕ} {st st' st'' : State} {t t' : ℕ} {task : Task} {p : Pc} {segment : Segment}

/-- The thread holds the `retiring` mutex. -/
def Pc.retires : Pc → Bool
  | .retireScan .. | .retireFlush .. | .retireDone .. => true
  | _ => false

/-- The segments a retirement has drained and not removed. -/
def Pc.held : Pc → List Closed
  | .retireScan pending _ => pending
  | .retireFlush segment pending _ => segment :: pending
  | .retireDone kept _ => kept
  | _ => []

/-- What of a thread matters to the files. -/
def Pc.retirement (p : Pc) : Pc := if p.retires then p else .idle

def held (st : State) : List Closed :=
  match st.retiring with
  | some t => (st.pc t).held
  | none => []

structure Files (st : State) : Prop where
  holder : ∀ t, (st.pc t).retires = true ↔ st.retiring = some t
  order : st.onDisk =
    (held st).map Closed.id ++ (st.closed.map Closed.id ++ st.active.toList.map Segment.id)
  sorted : st.onDisk.Pairwise (· < ·)
  fresh : ∀ id ∈ st.onDisk, id < st.nextSegment
  segments : ∀ f ∈ st.written, f.segment < st.nextSegment
  aligned : ∀ f ∈ st.written, ∀ g ∈ st.written, f.seq < g.seq → f.segment ≤ g.segment
  distinct : ∀ f ∈ st.written, ∀ g ∈ st.written, f.seq = g.seq → f = g
  newest : ∀ s, st.active = some s → ∀ f ∈ st.written, f.segment ≤ s.id
  gone : ∀ f ∈ st.written, f.segment ∉ st.onDisk → ∀ id ∈ st.onDisk, f.segment < id
  touchedActive : ∀ s, st.active = some s → ∀ f ∈ st.written, f.segment = s.id → f.key ∈ s.touched
  touched : ∀ c ∈ held st ++ st.closed, ∀ f ∈ st.written, f.segment = c.id → f.key ∈ c.touched
  quiet : ∀ t c pending removed, st.pc t = .retireFlush c pending removed →
    ∀ g ∈ st.guards, g.segment ≠ c.id

/-- The open of a segment fails after the rename of its file. -/
def Label.orphans : Label → Bool
  | .append _ _ _ _ .orphaned _ _ => true
  | _ => false

/-- A step that leaves the files alone; guards may be dropped. -/
structure Calm (st st' : State) : Prop where
  active : st'.active = st.active
  closed : st'.closed = st.closed
  nextSegment : st'.nextSegment = st.nextSegment
  written : st'.written = st.written
  retiring : st'.retiring = st.retiring
  onDisk : st'.onDisk = st.onDisk
  guards : ∀ g ∈ st'.guards, g ∈ st.guards
  pcs : ∀ t, (st'.pc t).retirement = (st.pc t).retirement

lemma Calm.trans (h : Calm st st') (h' : Calm st' st'') : Calm st st'' :=
  ⟨h'.active.trans h.active, h'.closed.trans h.closed, h'.nextSegment.trans h.nextSegment,
    h'.written.trans h.written, h'.retiring.trans h.retiring, h'.onDisk.trans h.onDisk,
    fun g hg => h.guards g (h'.guards g hg), fun t => (h'.pcs t).trans (h.pcs t)⟩

lemma retirement_retires (p : Pc) : p.retirement.retires = p.retires := by cases p <;> rfl

lemma retirement_held (p : Pc) : p.retirement.held = p.held := by cases p <;> rfl

lemma retirement_of_retires (h : p.retires = true) : p.retirement = p := if_pos h

lemma Calm.held (h : Calm st st') : held st' = held st := by
  unfold Live.held
  rw [h.retiring]
  cases st.retiring with
  | none => rfl
  | some t =>
    have := congrArg Pc.held (h.pcs t)
    rwa [retirement_held, retirement_held] at this

lemma Files.calm (hf : Files st) (h : Calm st st') : Files st' where
  holder := fun t => by
    have := congrArg Pc.retires (h.pcs t)
    rw [retirement_retires, retirement_retires] at this
    rw [this, h.retiring]
    exact hf.holder t
  order := by
    rw [h.onDisk, h.held, h.closed, h.active]
    exact hf.order
  sorted := h.onDisk ▸ hf.sorted
  fresh := by
    rw [h.onDisk, h.nextSegment]
    exact hf.fresh
  segments := by
    rw [h.written, h.nextSegment]
    exact hf.segments
  aligned := h.written ▸ hf.aligned
  distinct := h.written ▸ hf.distinct
  newest := by
    rw [h.active, h.written]
    exact hf.newest
  gone := by
    rw [h.written, h.onDisk]
    exact hf.gone
  touchedActive := by
    rw [h.active, h.written]
    exact hf.touchedActive
  touched := by
    rw [h.held, h.closed, h.written]
    exact hf.touched
  quiet := fun t c pending removed hpc g hg => by
    have hkept := h.pcs t
    rw [hpc] at hkept
    have hold : st.pc t = .retireFlush c pending removed := by
      have hret : (st.pc t).retires = true := by
        rw [← retirement_retires, ← hkept]
        rfl
      rw [← retirement_of_retires hret, ← hkept]
      rfl
    exact hf.quiet t c pending removed hold g (h.guards g hg)

section

variable (hfrom : (st.pc t).retires = false)
include hfrom

lemma calm_goto (hto : p.retires = false) : Calm st (st.goto t p) := by
  refine ⟨rfl, rfl, rfl, rfl, rfl, rfl, fun _ h => h, fun t' => ?_⟩
  by_cases ht : t' = t
  · rw [ht, goto_pc_self]
    simp [Pc.retirement, hfrom, hto]
  · rw [goto_pc_of_ne st p ht]

lemma calm_refuse (task : Task) : Calm st (refuse st t task).1 := by
  have h := calm_goto hfrom (p := .idle) rfl
  refine ⟨rfl, rfl, rfl, rfl, rfl, rfl, fun g hg => ?_, h.pcs⟩
  cases task with
  | append => exact mem_of_mem_erase hg
  | _ => exact hg

lemma calm_proceed (task : Task) : Calm st (proceed st t task).1 := by
  cases task with
  | append | flush | tick | checkpoint => exact calm_goto hfrom rfl

lemma calm_waitDurable (task : Task) (seq : ℕ) : Calm st (waitDurable st t task seq).1 := by
  unfold waitDurable
  split
  · exact calm_refuse hfrom task
  split
  · exact calm_proceed hfrom task
  split
  · exact calm_goto hfrom rfl
  split
  · rename_i s _
    have h := calm_goto hfrom (p := .leading task seq st.nextSeq s.id) rfl
    exact ⟨rfl, rfl, rfl, rfl, rfl, rfl, h.guards, h.pcs⟩
  · exact calm_goto hfrom rfl

lemma calm_afterRotate (task : Task) : Calm st (afterRotate st t task).1 := by
  unfold afterRotate
  split
  · exact calm_waitDurable hfrom _ _
  · exact calm_proceed hfrom task

end

lemma retirement_notifyAll (st : State) (t : ℕ) :
    (st.notifyAll.pc t).retirement = (st.pc t).retirement := by
  unfold notifyAll
  cases h : st.pc t <;> simp [h, Pc.retirement, Pc.retires]

/-- **A rotation** closes the active segment or leaves the files alone. -/
lemma rotate_calm (hfrom : (st.pc t).retires = false) (task : Task) (synced : Bool) :
    Calm st (rotate st t task synced).1 ∨
      ∃ s, st.active = some s ∧ Calm (close st s) (rotate st t task synced).1 := by
  unfold rotate
  split
  · exact .inl (calm_goto hfrom rfl)
  split
  · exact .inl (calm_refuse hfrom task)
  split
  · exact .inl (calm_afterRotate hfrom task)
  rename_i s hactive
  split
  · split
    · refine .inr ⟨s, hactive, ?_⟩
      have hnotified : ∀ (st : State) (durable : List Frame) (durableEnd : ℕ),
          Calm (close st s) (close { st with durable, durableEnd }.notifyAll s) := by
        intro st durable durableEnd
        exact ⟨rfl, rfl, rfl, rfl, rfl, rfl, fun _ h => h,
          fun t => retirement_notifyAll { st with durable, durableEnd } t⟩
      refine (hnotified st _ _).trans (calm_afterRotate ?_ task)
      rw [← retirement_retires]
      change ((State.notifyAll _).pc t).retirement.retires = false
      rw [retirement_notifyAll, retirement_retires]
      exact hfrom
    · have h := calm_refuse hfrom task
      exact .inl ⟨rfl, rfl, rfl, rfl, rfl, rfl, h.guards, h.pcs⟩
  · exact .inr ⟨s, hactive, @calm_afterRotate (close st s) t hfrom task⟩

lemma Files.close (h : Files st) (hactive : st.active = some segment) : Files (close st segment) where
  holder := h.holder
  order := by
    change st.onDisk = (held st).map Closed.id ++ ((st.closed ++ [_]).map Closed.id ++ [])
    rw [h.order, hactive]
    simp
  sorted := h.sorted
  fresh := h.fresh
  segments := h.segments
  aligned := h.aligned
  distinct := h.distinct
  newest := fun s hs => by cases hs
  gone := h.gone
  touchedActive := fun s hs => by cases hs
  touched := by
    intro c hc f hf hid
    change c ∈ held st ++ (st.closed ++ [⟨segment.id, segment.touched⟩]) at hc
    rw [← append_assoc, mem_append, mem_singleton] at hc
    rcases hc with hc | rfl
    · exact h.touched c hc f hf hid
    · exact h.touchedActive segment hactive f hf hid
  quiet := h.quiet

lemma Files.opened (h : Files st) (hactive : st.active = none) (len : ℕ) :
    Files { st with
      nextSegment := st.nextSegment + 1
      active := some ⟨st.nextSegment, len, []⟩
      onDisk := st.onDisk ++ [st.nextSegment] } where
  holder := h.holder
  order := by
    change st.onDisk ++ [st.nextSegment] =
      (held st).map Closed.id ++ (st.closed.map Closed.id ++ [st.nextSegment])
    rw [h.order, hactive]
    simp
  sorted := by
    refine pairwise_append.2 ⟨h.sorted, pairwise_singleton _ _, fun id hid id' hid' => ?_⟩
    rw [mem_singleton.1 hid']
    exact h.fresh id hid
  fresh := fun id hid => by
    rcases mem_append.1 hid with hid | hid
    · exact lt_succ_of_lt (h.fresh id hid)
    · rw [mem_singleton.1 hid]
      exact lt_succ_self _
  segments := fun f hf => lt_succ_of_lt (h.segments f hf)
  aligned := h.aligned
  distinct := h.distinct
  newest := fun s hs f hf => by
    cases hs
    exact (h.segments f hf).le
  gone := fun f hf hout id hid => by
    rw [mem_append, not_or] at hout
    rcases mem_append.1 hid with hid | hid
    · exact h.gone f hf hout.1 id hid
    · rw [mem_singleton.1 hid]
      exact h.segments f hf
  touchedActive := fun s hs f hf hid => by
    cases hs
    have := h.segments f hf
    dsimp only at hid
    omega
  touched := h.touched
  quiet := h.quiet

lemma Files.active_mem (h : Files st) (hactive : st.active = some segment) :
    segment.id ∈ st.onDisk := by
  rw [h.order, hactive]
  simp

variable {c : Closed} {pending : List Closed} {removed : Bool}

section

variable (h : Files st)
include h

lemma Files.lt_active (hactive : st.active = some segment)
    (hc : c ∈ held st ++ st.closed) : c.id < segment.id := by
  have hsorted := h.sorted
  rw [h.order, hactive, ← append_assoc, ← map_append, pairwise_append] at hsorted
  exact hsorted.2.2 c.id (mem_map_of_mem hc) segment.id mem_cons_self

lemma Files.flushing_held (hpc : st.pc t = .retireFlush c pending removed) :
    held st = c :: pending := by
  have hretiring : st.retiring = some t := (h.holder t).1 (by rw [hpc]; rfl)
  unfold held
  rw [hretiring]
  change (st.pc t).held = _
  rw [hpc]
  rfl

/-- **A frame lands** in the newest segment. -/
lemma Files.land (hinv : Inv first st) (hactive : st.active = some segment)
    (key : String) (size : ℕ) : Files (land st segment key size) := by
  have hold : ∀ f ∈ (Live.land st segment key size).written,
      f ∈ st.written ∨ f = ⟨st.nextSeq, segment.id, key⟩ := fun f hf =>
    (mem_append.1 hf).imp_right mem_singleton.1
  have hfresh := h.fresh segment.id (h.active_mem hactive)
  refine ⟨h.holder, ?_, h.sorted, h.fresh, fun f hf => ?_, fun f hf g hg hlt => ?_,
    fun f hf g hg heq => ?_, fun s hs f hf => ?_, fun f hf hout id hid => ?_, fun s hs f hf hid => ?_,
    fun c hc f hf hid => ?_, fun t c pending removed hpc g hg => ?_⟩
  · change st.onDisk = (held st).map Closed.id ++ (st.closed.map Closed.id ++ [segment.id])
    rw [h.order, hactive]
    rfl
  · rcases hold f hf with hf | rfl
    · exact h.segments f hf
    · exact hfresh
  · rcases hold f hf with hf | rfl <;> rcases hold g hg with hg | rfl
    · exact h.aligned f hf g hg hlt
    · exact h.newest segment hactive f hf
    · have := hinv.below g hg
      dsimp only at hlt
      omega
    · exact le_refl _
  · rcases hold f hf with hf | rfl <;> rcases hold g hg with hg | rfl
    · exact h.distinct f hf g hg heq
    · have := hinv.below f hf
      dsimp only at heq
      omega
    · have := hinv.below g hg
      dsimp only at heq
      omega
    · rfl
  · cases hs
    rcases hold f hf with hf | rfl
    · exact h.newest segment hactive f hf
    · exact le_refl _
  · rcases hold f hf with hf | rfl
    · exact h.gone f hf hout id hid
    · exact absurd (h.active_mem hactive) hout
  · cases hs
    refine mem_append.2 ?_
    rcases hold f hf with hf | rfl
    · exact .inl (h.touchedActive segment hactive f hf hid)
    · exact .inr mem_cons_self
  · rcases hold f hf with hf | rfl
    · exact h.touched c hc f hf hid
    have := h.lt_active hactive hc
    dsimp only at hid
    omega
  · rcases mem_append.1 hg with hg | hg
    · exact h.quiet t c pending removed hpc g hg
    rw [mem_singleton.1 hg]
    have hc : c ∈ held st ++ st.closed := by
      rw [h.flushing_held hpc]
      exact mem_append_left _ mem_cons_self
    exact (h.lt_active hactive hc).ne'

lemma Files.rotate (hfrom : (st.pc t).retires = false) (task : Task) (synced : Bool) :
    Files (rotate st t task synced).1 := by
  rcases rotate_calm hfrom task synced with hcalm | ⟨s, hactive, hcalm⟩
  · exact h.calm hcalm
  · exact (h.close hactive).calm hcalm

lemma Files.write (hinv : Inv first st) (hfrom : (st.pc t).retires = false)
    (hactive : st.active = some segment) (key : String) (size : ℕ) (sync : Bool)
    (result : WriteResult) (synced : Bool) :
    Files (write st segment t key size sync result synced).1 := by
  unfold Live.write
  cases result with
  | cut => exact h
  | lost => exact h.calm ⟨rfl, rfl, rfl, rfl, rfl, rfl, fun _ hg => hg, fun _ => rfl⟩
  | written =>
    have hland := h.land hinv hactive key size
    dsimp only
    split
    · exact hland.rotate hfrom _ synced
    · exact hland.calm (@calm_afterRotate (Live.land st segment key size) t hfrom _)

lemma Files.append (hinv : Inv first st) (hfrom : (st.pc t).retires = false)
    {opening : OpenResult} (hopening : opening ≠ .orphaned) (key : String) (size : ℕ) (sync : Bool)
    (result : WriteResult) (synced : Bool) :
    Files (append st t key size sync opening result synced).1 := by
  unfold Live.append
  split
  · exact h
  rcases openSegment_cases st opening with ⟨s, hactive, heq⟩ | ⟨hactive, heq⟩ | ⟨_, hdisk, heq⟩
  · rw [heq]
    exact h.write hinv hfrom hactive key size sync result synced
  · rw [heq]
    exact (h.opened hactive _).write (hinv.opened hactive _ _ _) hfrom rfl key size sync result synced
  · rw [heq, hdisk hopening]
    exact ⟨h.holder, h.order, h.sorted, fun id hid => lt_succ_of_lt (h.fresh id hid),
      fun f hf => lt_succ_of_lt (h.segments f hf), h.aligned, h.distinct, h.newest, h.gone,
      h.touchedActive, h.touched, h.quiet⟩

lemma Files.tick (hfrom : (st.pc t).retires = false) (quiet aged synced : Bool) :
    Files (tick st t quiet aged synced).1 := by
  unfold Live.tick
  split
  · exact h
  split
  · exact h.calm (calm_proceed hfrom .tick)
  split
  · exact h.calm (calm_proceed hfrom .tick)
  split
  · exact h.rotate hfrom .tick synced
  split
  · exact h.calm (calm_waitDurable hfrom _ _)
  · exact h.calm (calm_proceed hfrom .tick)

end

lemma calm_publish {seq covered id inFile} (hfrom : (st.pc t).retires = false)
    (task : Task) (synced : Bool) : Calm st (publish st t task seq covered id inFile synced).1 := by
  have hback : ∀ (durable : List Frame) (durableEnd : ℕ) (poisoned : Bool),
      Calm st { (st.goto t .idle).notifyAll with flushing := false, durable, durableEnd, poisoned } := by
    intro durable durableEnd poisoned
    have h := calm_goto hfrom (p := .idle) rfl
    exact ⟨rfl, rfl, rfl, rfl, rfl, rfl, fun _ hg => hg,
      fun t' => (retirement_notifyAll (st.goto t .idle) t').trans (h.pcs t')⟩
  have hidle : ((st.goto t .idle).notifyAll.pc t).retires = false := by
    rw [← retirement_retires, retirement_notifyAll, goto_pc_self]
    rfl
  unfold publish
  dsimp only
  split
  · split
    · exact (hback _ _ _).trans (calm_refuse (by exact hidle) task)
    · exact (hback _ _ _).trans (calm_waitDurable (by exact hidle) task seq)
  · exact (hback _ _ _).trans (calm_refuse (by exact hidle) task)

/-! ## The steps of a retirement -/

section

variable (h : Files st)
include h

lemma Files.retiring_eq (hpc : (st.pc t).retires = true) : st.retiring = some t :=
  (h.holder t).1 hpc

lemma Files.held_eq (hpc : (st.pc t).retires = true) : held st = (st.pc t).held := by
  unfold held
  rw [h.retiring_eq hpc]

lemma Files.advance (hpc : (st.pc t).retires = true) (hto : p.retires = true)
    (removed : List Closed) (hheld : (st.pc t).held = removed ++ p.held)
    (hquiet : ∀ c pending b, p = .retireFlush c pending b → ∀ g ∈ st.guards, g.segment ≠ c.id) :
    Files { st.goto t p with onDisk := st.onDisk.drop removed.length } := by
  have hretiring := h.retiring_eq hpc
  have hnow : held { st.goto t p with onDisk := st.onDisk.drop removed.length } = p.held := by
    change (match st.retiring with
      | some t' => ((st.goto t p).pc t').held
      | none => []) = _
    rw [hretiring]
    change ((st.goto t p).pc t).held = _
    rw [goto_pc_self]
  have hbefore : held st = removed ++ p.held := (h.held_eq hpc).trans hheld
  have hrest : st.onDisk = removed.map Closed.id ++ st.onDisk.drop removed.length := by
    have : st.onDisk.take removed.length = removed.map Closed.id := by
      rw [h.order, hbefore, map_append, append_assoc, take_left' (by simp)]
    rw [← this, take_append_drop]
  have hsub : ∀ id ∈ st.onDisk.drop removed.length, id ∈ st.onDisk := fun id => mem_of_mem_drop
  refine ⟨fun t' => ?_, ?_, h.sorted.drop, fun id hid => h.fresh id (hsub id hid), h.segments,
    h.aligned, h.distinct, h.newest, fun f hf hout id hid => ?_, h.touchedActive, fun c hc => ?_,
    fun t' c pending b hpc' g hg => ?_⟩
  · change ((st.goto t p).pc t').retires = true ↔ st.retiring = some t'
    by_cases ht : t' = t
    · rw [ht, goto_pc_self, hto, hretiring]
      simp
    · rw [goto_pc_of_ne st p ht]
      exact h.holder t'
  · change st.onDisk.drop removed.length = _
    rw [hnow, h.order, hbefore, map_append, append_assoc, drop_left' (by simp)]
    rfl
  · -- a removed segment comes before everything that is left
    by_cases hin : f.segment ∈ st.onDisk
    · rw [hrest, mem_append] at hin
      rcases hin with hin | hin
      · have hsorted := h.sorted
        rw [hrest, pairwise_append] at hsorted
        exact hsorted.2.2 f.segment hin id hid
      · exact absurd hin hout
    · exact h.gone f hf hin id (hsub id hid)
  · refine h.touched c ?_
    rw [hnow] at hc
    rw [hbefore]
    rcases mem_append.1 hc with hc | hc
    · exact mem_append_left _ (mem_append_right _ hc)
    · exact mem_append_right _ hc
  · change (st.goto t p).pc t' = _ at hpc'
    by_cases ht : t' = t
    · rw [ht, goto_pc_self] at hpc'
      exact hquiet c pending b hpc' g hg
    · rw [goto_pc_of_ne st p ht] at hpc'
      exact h.quiet t' c pending b hpc' g hg

lemma Files.taken (hnone : st.retiring = none) :
    Files { st.goto t (.retireScan st.closed false) with closed := [], retiring := some t } := by
  have hbefore : held st = [] := by
    unfold held
    rw [hnone]
  have hnow : held { st.goto t (.retireScan st.closed false) with closed := [], retiring := some t } =
      st.closed := by
    change ((st.goto t (.retireScan st.closed false)).pc t).held = _
    rw [goto_pc_self]
    rfl
  refine ⟨fun t' => ?_, ?_, h.sorted, h.fresh, h.segments, h.aligned, h.distinct, h.newest, h.gone,
    h.touchedActive, fun c hc => ?_, fun t' c pending b hpc => ?_⟩
  · change ((st.goto t (.retireScan st.closed false)).pc t').retires = true ↔ some t = some t'
    by_cases ht : t' = t
    · rw [ht, goto_pc_self]
      simp [Pc.retires]
    · rw [goto_pc_of_ne st _ ht, h.holder t', hnone]
      simp [Ne.symm ht]
  · change st.onDisk = _
    rw [hnow, h.order, hbefore]
    rfl
  · rw [hnow] at hc
    refine h.touched c ?_
    rw [hbefore]
    simpa using hc
  · change (st.goto t (.retireScan st.closed false)).pc t' = _ at hpc
    by_cases ht : t' = t
    · rw [ht, goto_pc_self] at hpc
      cases hpc
    · rw [goto_pc_of_ne st _ ht] at hpc
      exact h.quiet t' c pending b hpc

lemma Files.returned (hpc : st.pc t = .retireDone kept removed) :
    Files { st.goto t .idle with closed := kept ++ st.closed, retiring := none } := by
  have hretires : (st.pc t).retires = true := by rw [hpc]; rfl
  have hbefore : held st = kept := by
    rw [h.held_eq hretires, hpc]
    rfl
  refine ⟨fun t' => ?_, ?_, h.sorted, h.fresh, h.segments, h.aligned, h.distinct, h.newest, h.gone,
    h.touchedActive, fun c hc => ?_, fun t' c pending b hpc' => ?_⟩
  · change ((st.goto t .idle).pc t').retires = true ↔ none = some t'
    by_cases ht : t' = t
    · rw [ht, goto_pc_self]
      simp [Pc.retires]
    · rw [goto_pc_of_ne st _ ht, h.holder t', h.retiring_eq hretires]
      simp [Ne.symm ht]
  · change st.onDisk = [] ++ ((kept ++ st.closed).map Closed.id ++ st.active.toList.map Segment.id)
    rw [h.order, hbefore]
    simp
  · refine h.touched c ?_
    rw [hbefore]
    exact hc
  · change (st.goto t .idle).pc t' = _ at hpc'
    by_cases ht : t' = t
    · rw [ht, goto_pc_self] at hpc'
      cases hpc'
    · rw [goto_pc_of_ne st _ ht] at hpc'
      exact h.quiet t' c pending b hpc'

lemma Files.oldest (hpc : st.pc t = .retireFlush c pending removed) :
    ∃ rest, st.onDisk = c.id :: rest := by
  rw [h.order, h.flushing_held hpc]
  exact ⟨_, rfl⟩

lemma Files.keep (hpc : (st.pc t).held = c :: pending) (hretires : (st.pc t).retires = true) :
    Files (st.goto t (.retireDone (c :: pending) removed)) :=
  h.advance hretires (p := .retireDone (c :: pending) removed) rfl [] hpc
    fun _ _ _ heq => by cases heq

/-- **Every step keeps the files in order.** -/
lemma Files.step (hinv : Inv first st) (flushEveryAppend : Bool) {label : Label}
    (hlabel : label.orphans = false) : Files (step flushEveryAppend st label).1 := by
  have hidle : ∀ {t}, st.pc t = .idle → (st.pc t).retires = false := fun hpc => by rw [hpc]; rfl
  have hgo : ∀ {t}, (st.pc t).retires = false → Files (st.goto t .idle) := fun hfrom =>
    h.calm (calm_goto hfrom rfl)
  have hat : ∀ t, ((st.goto t .idle).pc t).retires = false := fun t => by rw [goto_pc_self]; rfl
  cases label with simp only [Live.step]
  | append t key size sync opening write synced =>
    split
    · rename_i hpc
      have hopening : opening ≠ .orphaned := by
        rintro rfl
        cases hlabel
      exact h.append hinv (hidle hpc) hopening key size _ write synced
    · exact h
  | flush t =>
    split
    · rename_i hpc
      exact h.calm (calm_waitDurable (hidle hpc) _ _)
    · exact h
  | tick t quiet aged synced =>
    split
    · rename_i hpc
      exact h.tick (hidle hpc) quiet aged synced
    · exact h
  | checkpoint t synced =>
    split
    · rename_i hpc
      exact h.rotate (hidle hpc) .checkpoint synced
    · exact h
  | spurious t =>
    split
    · rename_i wait hpc
      exact h.calm (calm_goto (p := .woken wait) (by rw [hpc]; rfl) rfl)
    · exact h
  | resume t synced =>
    split
    · rename_i hpc
      exact (hgo (by rw [hpc]; rfl)).calm (calm_waitDurable (hat t) _ _)
    · rename_i hpc
      exact (hgo (by rw [hpc]; rfl)).rotate (hat t) _ synced
    · exact h
  | deviceStart t =>
    split
    · rename_i hpc
      exact h.calm (calm_goto (by rw [hpc]; rfl) rfl)
    · exact h
  | deviceEnd t synced =>
    split
    · rename_i hpc
      exact h.calm (calm_publish (by rw [hpc]; rfl) _ synced)
    · exact h
  | retireTake t =>
    split
    · rename_i hpc hnone
      have hfrom : (st.pc t).retires = false := by rw [hpc]; rfl
      split
      · exact hgo hfrom
      · exact h.taken hnone
    · exact h
  | retireCheck t =>
    split
    · rename_i removed hpc
      exact h.advance (by rw [hpc]; rfl) (p := .retireDone [] removed) rfl []
        (by rw [hpc]; rfl) fun _ _ _ heq => by cases heq
    · rename_i c pending removed hpc
      have hretires : (st.pc t).retires = true := by rw [hpc]; rfl
      have hheld : (st.pc t).held = c :: pending := by rw [hpc]; rfl
      split
      · exact h.keep hheld hretires
      rename_i hzero
      refine h.advance hretires (p := .retireFlush c pending removed) rfl [] hheld ?_
      intro c' pending' b heq g hg hid
      cases heq
      refine hzero (length_pos_of_mem (a := g) (mem_filter.2 ⟨hg, ?_⟩))
      simpa using hid
    · exact h
  | retireUnlink t filesFlushed removed =>
    split
    · rename_i c pending before hpc
      have hretires : (st.pc t).retires = true := by rw [hpc]; rfl
      have hheld : (st.pc t).held = c :: pending := by rw [hpc]; rfl
      split
      · split
        · obtain ⟨rest, hrest⟩ := h.oldest hpc
          have herase : st.onDisk.erase c.id = st.onDisk.drop [c].length := by
            rw [hrest, erase_cons_head]
            rfl
          rw [herase]
          exact h.advance hretires (p := .retireScan pending true) rfl [c] hheld fun _ _ _ heq => by cases heq
        · exact h.keep hheld hretires
      · exact h.keep hheld hretires
    · exact h
  | retireReturn t =>
    split
    · rename_i hpc
      exact h.returned hpc
    · exact h
  | dropGuard =>
    exact h.calm ⟨rfl, rfl, rfl, rfl, rfl, rfl, fun g hg => mem_of_mem_erase hg, fun _ => rfl⟩

end

end Steps

/-!
## Acknowledgement implies durability

What holds along every interleaving of the threads of one `Wal`, from the state `acquire` leaves,
whatever the device does (`Acknowledged`), and what holds of the segment files as long as none is
left behind by an open that fails after the rename (`Retired`). A file that is left behind is not
known to the log: later segments are removed before it (`orphan_stays`).

* `acknowledged_durable_group`: a run in which one flush acknowledges two appends and the segment is
  retired.
-/

open Lib State List

/-- A run of a log that was acquired with its next sequence and segment. Sequences begin at 1. -/
structure Run where
  first : ℕ
  segment : ℕ
  flushEveryAppend : Bool
  labels : List Label
  first_pos : 0 < first

namespace Run

variable (r : Run)

def stateAt (n : ℕ) : State :=
  Machine.stateAt (fun st l => (step r.flushEveryAppend st l).1) (acquired r.first r.segment)
    r.labels n

/-- What step `n` shows. -/
def eventsAt (n : ℕ) : List Event :=
  match r.labels[n]? with
  | some l => (step r.flushEveryAppend (r.stateAt n) l).2
  | none => []

/-- What the callers are promised.
* `durable`: when an append with `sync`, or a flush, returns for a sequence, every frame up to it has
  been covered by a successful flush of its segment;
* `refused`: after a failed flush no append and no flush succeeds;
* `awake`: a thread is parked only while a leader is inside its flush;
* `total`: no step panics. -/
structure Acknowledged : Prop where
  durable : ∀ n e seq, e ∈ r.eventsAt n →
    e.acknowledges = some seq →
    ∀ f ∈ (r.stateAt (n + 1)).written, f.seq ≤ seq →
      f ∈ (r.stateAt (n + 1)).durable
  refused : ∀ n m id, n ≤ m → .syncFailed id ∈ r.eventsAt n →
    ∀ e ∈ r.eventsAt m, e.succeeds = false
  awake : ∀ n t wait, (r.stateAt n).pc t = .parked wait →
    ∃ t', ((r.stateAt n).pc t').leads = true
  total : ∀ n, .panicked ∉ r.eventsAt n

/-- What is removed.
* `inOrder`: the removed segments hold a first part of the log;
* `unlinked`: the segment that is removed is the oldest one, no append in it has its guard left, and
  the files of its records have just been flushed. -/
structure Retired : Prop where
  inOrder : ∀ n, ∀ f ∈ (r.stateAt n).written,
    ∀ g ∈ (r.stateAt n).written,
    f.segment ∉ (r.stateAt n).onDisk →
    g.segment ∈ (r.stateAt n).onDisk → f.seq < g.seq
  unlinked : ∀ n id, .unlinked id ∈ r.eventsAt n →
    (r.stateAt n).onDisk.head? = some id ∧
    (∀ g ∈ (r.stateAt n).guards, g.segment ≠ id) ∧
    ∃ keys, .filesFlushed keys ∈ r.eventsAt n ∧
      ∀ f ∈ (r.stateAt n).written, f.segment = id → f.key ∈ keys

variable {r}

lemma files_acquired (first segment : ℕ) : Files (acquired first segment) where
  holder := fun t => by simp [acquired, Pc.retires]
  order := rfl
  sorted := List.Pairwise.nil
  fresh := fun id h => absurd h not_mem_nil
  segments := fun f h => absurd h not_mem_nil
  aligned := fun f h => absurd h not_mem_nil
  distinct := fun f h => absurd h not_mem_nil
  newest := fun s h => by cases h
  gone := fun f h => absurd h not_mem_nil
  touchedActive := fun s h => by cases h
  touched := fun c h => absurd h not_mem_nil
  quiet := fun t c pending removed h => by cases h

lemma inv_stateAt (r : Run) (n : ℕ) : Inv r.first (r.stateAt n) :=
  Machine.invariant (Inv r.first) (fun _ _ => True) (inv_acquired _ _)
    (fun _ l h _ => (h.step r.first_pos r.flushEveryAppend l).1) (fun _ _ _ => trivial) n

lemma files_stateAt (hlabels : ∀ l ∈ r.labels, l.orphans = false) (n : ℕ) :
    Files (r.stateAt n) := by
  have hboth := Machine.invariant (fun st => Inv r.first st ∧ Files st)
    (fun _ l => l.orphans = false) ⟨inv_acquired r.first r.segment, files_acquired _ _⟩
    (fun _ l h hl => ⟨(h.1.step r.first_pos r.flushEveryAppend l).1,
      h.2.step h.1 r.flushEveryAppend hl⟩)
    (fun _ l hl => hlabels l (mem_of_getElem? hl)) n
  exact hboth.2

lemma eventsAt_cases (h : e ∈ r.eventsAt n) :
    ∃ l, r.stateAt (n + 1) = (step r.flushEveryAppend (r.stateAt n) l).1 ∧
      r.eventsAt n = (step r.flushEveryAppend (r.stateAt n) l).2 := by
  cases hl : r.labels[n]? with
  | none =>
    rw [eventsAt, hl] at h
    exact absurd h not_mem_nil
  | some l => exact ⟨l, Machine.stateAt_succ hl, by rw [eventsAt, hl]⟩

lemma shows_at (h : e ∈ r.eventsAt n) :
    Shows (r.stateAt n) (r.stateAt (n + 1), r.eventsAt n) := by
  obtain ⟨l, hstate, hevents⟩ := eventsAt_cases h
  rw [hstate, hevents]
  exact (r.inv_stateAt n).shows r.flushEveryAppend l

lemma acknowledged (r : Run) : r.Acknowledged := by
  refine ⟨fun n e seq he hack f hf hle => ?_, fun n m id hnm hfail e he => ?_, fun n t wait hpc => ?_,
    fun n he => ?_⟩
  · have hlt := (shows_at he).acks e he seq hack
    exact (r.inv_stateAt (n + 1)).covered f hf (lt_of_le_of_lt hle hlt)
  · -- the log is poisoned after the failure, and stays so
    have hpoison : (r.stateAt (n + 1)).poisoned = true :=
      (shows_at hfail).fails id hfail
    have hlater : (r.stateAt (m + 1)).poisoned = true :=
      Machine.persists (P := fun st : State => st.poisoned = true) (Nat.succ_le_succ hnm) hpoison
        fun _ l _ _ _ h => step_poisoned h r.flushEveryAppend l
    cases hs : e.succeeds with
    | false => rfl
    | true =>
      have := (shows_at he).succeeds e he hs
      rw [hlater] at this
      cases this
  · have hok := (r.inv_stateAt n).pcs t
    rw [hpc] at hok
    exact (r.inv_stateAt n).busy hok.1
  · obtain ⟨l, -, hevents⟩ := eventsAt_cases he
    rw [hevents] at he
    exact ((r.inv_stateAt n).step r.first_pos r.flushEveryAppend l).2 he

lemma retired (hlabels : ∀ l ∈ r.labels, l.orphans = false) : r.Retired := by
  have hfiles := files_stateAt hlabels
  refine ⟨fun n f hf g hg hout hin => ?_, fun n id he => ?_⟩
  · have hlt := (hfiles n).gone f hf hout g.segment hin
    rcases Nat.lt_trichotomy f.seq g.seq with h | h | h
    · exact h
    · rw [(hfiles n).distinct f hf g hg h] at hlt
      exact absurd hlt (Nat.lt_irrefl _)
    · have := (hfiles n).aligned g hg f hf h
      omega
  · obtain ⟨t, c, pending, removed, hpc, rfl, hflushed⟩ := (shows_at he).unlinks id he
    obtain ⟨_, hrest⟩ := (hfiles n).oldest hpc
    refine ⟨by rw [hrest]; rfl, (hfiles n).quiet t c pending removed hpc, c.touched, hflushed, ?_⟩
    refine (hfiles n).touched c ?_
    rw [(hfiles n).flushing_held hpc]
    exact mem_append_left _ mem_cons_self

/-- **What a run of the log guarantees**: the promises to the callers in every run, and those about
the segment files in a run that leaves none behind. -/
theorem acknowledged_durable (r : Run) :
    r.Acknowledged ∧ ((∀ l ∈ r.labels, l.orphans = false) → r.Retired) :=
  ⟨r.acknowledged, retired⟩

/-- Two appends that wait: the second lands while the first is inside its flush, and leads the next
one. Then a checkpoint closes the segment and retires it. -/
def groupRun : Run := ⟨1, 1, false,
  [.append 0 "commit" 100 true .opened .written true, .deviceStart 0,
    .append 1 "head" 50 true .opened .written true, .deviceEnd 0 true, .resume 1 true,
    .deviceStart 1, .deviceEnd 1 true, .dropGuard ⟨1, 1⟩, .dropGuard ⟨2, 1⟩, .checkpoint 2 true,
    .retireTake 2, .retireCheck 2, .retireUnlink 2 true true, .retireCheck 2, .retireReturn 2], Nat.one_pos⟩

theorem acknowledged_durable_group :
    (groupRun.Acknowledged ∧ groupRun.Retired) ∧ .appended ⟨1, 1⟩ true ∈ groupRun.eventsAt 3 ∧
      .appended ⟨2, 1⟩ true ∈ groupRun.eventsAt 6 ∧ .unlinked 1 ∈ groupRun.eventsAt 12 :=
  ⟨(acknowledged_durable groupRun).imp_right fun h => h (by decide), by decide, by decide,
    by decide⟩

/-- The first append fails after it has renamed its segment file. The next one opens another segment,
which is then closed and removed. -/
def orphanRun : Run := ⟨1, 1, false,
  [.append 0 "commit" 100 false .orphaned .written true,
    .append 0 "commit" 100 false .opened .written true, .dropGuard ⟨1, 2⟩, .checkpoint 0 true,
    .retireTake 0, .retireCheck 0, .retireUnlink 0 true true], Nat.one_pos⟩

/-- **A later segment is removed first**: the file of the failed open stays before it. -/
theorem orphan_stays : ¬ orphanRun.Retired := by
  intro h
  have hhead := (h.unlinked 6 2 (by decide)).1
  exact absurd hhead (by decide)

end Run

end Fluree.Wal.Live
