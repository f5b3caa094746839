import Mathlib.Order.Nat
import Fluree.Lib.Machine
import Fluree.Wal.Live

/-!
# Acknowledged records are on the device

The watermark `durableEnd` is honest because frames above it are all in the active segment, which
nobody closes while a leader is inside its flush: `Inv`. A leader publishes the sequence it sampled
under the mutex, and every frame below it was in the file when its flush started (`PcOk`).
-/

namespace Fluree.Wal.Live

open Lib State List Live Nat

variable {first : ℕ} {st : State} {t t' seq : ℕ} {task : Task} {p : Pc}

/-- The thread is inside `lead_flush`. -/
def Pc.leads : Pc → Bool
  | .leading .. | .syncing .. => true
  | _ => false

/-- The sequence a task waits for, if it tells its caller so. -/
def Awaits (task : Task) (seq : ℕ) : Prop :=
  match task with
  | .append guard _ => guard.seq = seq
  | .flush last => last = seq
  | _ => True

/-- A task that may rotate. -/
def TaskOk (st : State) : Task → Prop
  | .append guard _ => guard.seq < st.nextSeq
  | .flush _ => False
  | _ => True

def WaitOk (st : State) : Wait → Prop
  | .durable task seq => seq < st.nextSeq ∧ Awaits task seq
  | .rotation task => TaskOk st task

/-- What the state owes a thread, by where it stands. -/
def PcOk (st : State) : Pc → Prop
  | .parked wait => st.flushing = true ∧ WaitOk st wait
  | .woken wait => WaitOk st wait
  | .leading task seq covered segment =>
    st.flushing = true ∧ (seq < covered ∧ Awaits task seq) ∧ covered ≤ st.nextSeq ∧
      ∃ s, st.active = some s ∧ s.id = segment
  | .syncing task seq covered segment inFile =>
    st.flushing = true ∧ (seq < covered ∧ Awaits task seq) ∧ covered ≤ st.nextSeq ∧
      (∃ s, st.active = some s ∧ s.id = segment) ∧
      ∀ f ∈ st.written, f.segment = segment → f.seq < covered → f ∈ inFile
  | _ => True

/-- **The invariant of the watermark.** -/
structure Inv (first : ℕ) (st : State) : Prop where
  first_le : first ≤ st.durableEnd
  durable_le : st.durableEnd ≤ st.nextSeq
  numbered : ∀ seq, first ≤ seq → seq < st.nextSeq → ∃ f ∈ st.written, f.seq = seq
  below : ∀ f ∈ st.written, f.seq < st.nextSeq
  covered : ∀ f ∈ st.written, f.seq < st.durableEnd → f ∈ st.durable
  tail : ∀ f ∈ st.written, st.durableEnd ≤ f.seq → ∃ s, st.active = some s ∧ s.id = f.segment
  pcs : ∀ t, PcOk st (st.pc t)
  single : ∀ t t', (st.pc t).leads = true → (st.pc t').leads = true → t = t'
  busy : st.flushing = true → ∃ t, (st.pc t).leads = true

lemma inv_acquired (first segment : ℕ) : Inv first (acquired first segment) where
  first_le := le_refl _
  durable_le := le_refl _
  numbered := fun seq h h' => absurd h' (not_lt.2 h)
  below := fun f hf => absurd hf not_mem_nil
  covered := fun f hf => absurd hf not_mem_nil
  tail := fun f hf => absurd hf not_mem_nil
  pcs := fun _ => trivial
  single := fun t t' h => by cases h
  busy := fun h => by cases h

@[simp] lemma goto_pc_self (st : State) (t : ℕ) (p : Pc) : (st.goto t p).pc t = p :=
  Function.update_self _ _ _

lemma goto_pc_of_ne (st : State) (p : Pc) (h : t' ≠ t) : (st.goto t p).pc t' = st.pc t' :=
  Function.update_of_ne h _ _

section

variable (h : Inv first st)
include h

lemma Inv.flushing_of_leads (hleads : (st.pc t).leads = true) : st.flushing = true := by
  have hok := h.pcs t
  revert hok hleads
  cases st.pc t <;> intro hleads hok <;> first | exact hok.1 | cases hleads

lemma Inv.active_of_behind (hlt : st.durableEnd < st.nextSeq) : ∃ s, st.active = some s := by
  obtain ⟨f, hf, _⟩ := h.numbered st.durableEnd h.first_le hlt
  obtain ⟨s, hs, -⟩ := h.tail f hf (by omega)
  exact ⟨s, hs⟩

lemma Inv.goto (hfrom : (st.pc t).leads = false) (hp : PcOk st p)
    (hto : p.leads = false) : Inv first (st.goto t p) := by
  have hpcs : ∀ t', ((st.goto t p).pc t').leads = true → t' ≠ t ∧ (st.pc t').leads = true := by
    intro t' hleads
    by_cases ht : t' = t
    · rw [ht, goto_pc_self, hto] at hleads
      cases hleads
    · rw [goto_pc_of_ne st p ht] at hleads
      exact ⟨ht, hleads⟩
  refine { h with
    pcs := fun t' => ?_
    single := fun t₁ t₂ h₁ h₂ => h.single t₁ t₂ (hpcs t₁ h₁).2 (hpcs t₂ h₂).2
    busy := fun hflush => ?_ }
  · by_cases ht : t' = t
    · rw [ht, goto_pc_self]
      exact hp
    · rw [goto_pc_of_ne st p ht]
      exact h.pcs t'
  · obtain ⟨t', hleads⟩ := h.busy hflush
    have hne : t' ≠ t := by
      rintro rfl
      rw [hfrom] at hleads
      cases hleads
    exact ⟨t', by rw [goto_pc_of_ne st p hne]; exact hleads⟩

/-- The guards, the closed segments, who retires and the poison are not in it. -/
lemma Inv.frame (guards : List Appended) (closed : List Closed)
    (retiring : Option ℕ) (poisoned : Bool) (onDisk : List ℕ) (nextSegment : ℕ) :
    Inv first { st with guards, closed, retiring, poisoned, onDisk, nextSegment } := by
  refine { h with pcs := fun t => ?_ }
  have hok := h.pcs t
  revert hok
  cases st.pc t <;> exact id

lemma Inv.refuse (hfrom : (st.pc t).leads = false) (task : Task) : Inv first (refuse st t task).1 :=
  (h.goto hfrom (p := .idle) trivial rfl).frame _ _ _ _ _ _

lemma Inv.proceed (hfrom : (st.pc t).leads = false) (task : Task) :
    Inv first (proceed st t task).1 := by
  cases task with
  | append | flush => exact h.goto hfrom (p := .idle) trivial rfl
  | tick => exact h.goto hfrom (p := .retireWanted .tick) trivial rfl
  | checkpoint => exact h.goto hfrom (p := .retireWanted .checkpoint) trivial rfl

lemma Inv.lead {segment} (hflush : st.flushing = false)
    (hseq : seq < st.nextSeq ∧ Awaits task seq) (hactive : st.active = some segment) :
    Inv first { st.goto t (.leading task seq st.nextSeq segment.id) with flushing := true } := by
  have hnone : ∀ t', (st.pc t').leads = false := by
    intro t'
    cases hleads : (st.pc t').leads with
    | false => rfl
    | true =>
      rw [h.flushing_of_leads hleads] at hflush
      cases hflush
  have hpc : ∀ t', t' ≠ t →
      (st.goto t (.leading task seq st.nextSeq segment.id)).pc t' = st.pc t' :=
    fun t' ht => goto_pc_of_ne st _ ht
  have honly : ∀ t', ((st.goto t (.leading task seq st.nextSeq segment.id)).pc t').leads = true →
      t' = t := by
    intro t' hleads
    by_contra ht
    rw [hpc t' ht, hnone t'] at hleads
    cases hleads
  refine { h with
    pcs := fun t' => ?_
    single := fun t₁ t₂ h₁ h₂ => (honly t₁ h₁).trans (honly t₂ h₂).symm
    busy := fun _ => ⟨t, ?_⟩ }
  · change PcOk _ ((st.goto t (.leading task seq st.nextSeq segment.id)).pc t')
    by_cases ht : t' = t
    · rw [ht, goto_pc_self]
      exact ⟨rfl, hseq, le_refl _, segment, hactive, rfl⟩
    · rw [hpc t' ht]
      have hok := h.pcs t'
      have hleads := hnone t'
      revert hok hleads
      cases st.pc t' <;> intro hok hleads <;> first | exact ⟨rfl, hok.2⟩ | exact hok
  · change ((st.goto t (.leading task seq st.nextSeq segment.id)).pc t).leads = true
    rw [goto_pc_self]
    rfl

/-- A turn that keeps the invariant and does not panic. -/
abbrev Keeps (first : ℕ) (turn : State × List Event) : Prop :=
  Inv first turn.1 ∧ .panicked ∉ turn.2

/-- **One turn of `wait_durable`.** It never meets an unflushed frame without a segment. -/
lemma Inv.waitDurable (hfrom : (st.pc t).leads = false)
    (hseq : seq < st.nextSeq ∧ Awaits task seq) : Keeps first (waitDurable st t task seq) := by
  unfold Live.waitDurable
  split
  · exact ⟨h.refuse hfrom task, by simp [Live.refuse]⟩
  split
  · refine ⟨h.proceed hfrom task, ?_⟩
    cases task <;> simp [Live.proceed]
  rename_i hbehind
  split
  · rename_i hflush
    exact ⟨h.goto hfrom ⟨hflush, hseq⟩ rfl, by simp⟩
  · rename_i hflush
    rw [Bool.not_eq_true] at hflush
    obtain ⟨segment, hactive⟩ := h.active_of_behind (by have := hseq.1; omega)
    rw [hactive]
    exact ⟨h.lead hflush hseq hactive, by simp⟩

lemma Inv.afterRotate (hfrom : (st.pc t).leads = false) (htask : TaskOk st task) :
    Keeps first (afterRotate st t task) := by
  unfold Live.afterRotate
  split
  · exact h.waitDurable hfrom ⟨htask, rfl⟩
  · refine ⟨h.proceed hfrom task, ?_⟩
    cases task <;> simp [Live.proceed]

end

lemma notifyAll_leads (st : State) (t : ℕ) : (st.notifyAll.pc t).leads = (st.pc t).leads := by
  unfold notifyAll
  cases h : st.pc t <;> simp [h, Pc.leads]

lemma notifyAll_parked (st : State) (t : ℕ) (wait : Wait) : st.notifyAll.pc t ≠ .parked wait := by
  unfold notifyAll
  cases h : st.pc t <;> simp [h]

lemma notifyAll_woken (h : st.notifyAll.pc t = .woken wait) :
    st.pc t = .woken wait ∨ st.pc t = .parked wait := by
  unfold notifyAll at h
  cases hp : st.pc t <;> simp [hp] at h
  · exact .inr (by rw [h])
  · exact .inl (by rw [h])

section

variable (h : Inv first st)
include h

lemma Inv.notifyAll : Inv first st.notifyAll := by
  refine { h with pcs := fun t => ?_, single := ?_, busy := ?_ }
  · have hok := h.pcs t
    unfold State.notifyAll
    revert hok
    cases hp : st.pc t <;> simp only [hp] <;> intro hok <;> first | exact hok.2 | exact hok
  · intro t₁ t₂ h₁ h₂
    rw [notifyAll_leads] at h₁ h₂
    exact h.single t₁ t₂ h₁ h₂
  · intro hflush
    obtain ⟨t, hleads⟩ := h.busy hflush
    exact ⟨t, by rw [notifyAll_leads]; exact hleads⟩

lemma Inv.leads_eq_false (hflush : st.flushing = false) (t : ℕ) : (st.pc t).leads = false := by
  cases hleads : (st.pc t).leads with
  | false => rfl
  | true =>
    rw [h.flushing_of_leads hleads] at hflush
    cases hflush

lemma Inv.close (hflush : st.flushing = false) (hall : st.durableEnd = st.nextSeq)
    (segment : Segment) : Inv first (close st segment) := by
  refine { h with tail := fun f hf hle => ?_, pcs := fun t => ?_ }
  · have := h.below f hf
    change st.durableEnd ≤ f.seq at hle
    omega
  · have hok := h.pcs t
    have hleads := h.leads_eq_false hflush t
    change PcOk _ (st.pc t)
    revert hok hleads
    cases st.pc t <;> intro hok hleads <;> first | exact hok | cases hleads

/-- **The watermark moves** over frames a flush has covered. -/
lemma Inv.cover {durable durableEnd}
    (hle : st.durableEnd ≤ durableEnd) (hnext : durableEnd ≤ st.nextSeq)
    (hcovered : ∀ f ∈ st.written, f.seq < durableEnd → f ∈ durable) :
    Inv first { st with durable, durableEnd } := by
  refine ⟨h.first_le.trans hle, hnext, h.numbered, h.below, hcovered, fun f hf hf' => ?_, fun t => ?_,
    h.single, h.busy⟩
  · exact h.tail f hf (hle.trans hf')
  · have hok := h.pcs t
    revert hok
    cases st.pc t <;> exact id

lemma Inv.rotated {segment} (hactive : st.active = some segment) :
    Inv first { st with durable := st.durable ++ st.inFile segment.id, durableEnd := st.nextSeq } := by
  refine h.cover h.durable_le (le_refl _) fun f hf _ => mem_append.2 ?_
  by_cases hlt : f.seq < st.durableEnd
  · exact .inl (h.covered f hf hlt)
  obtain ⟨_, hs, hid⟩ := h.tail f hf (by omega)
  cases hactive.symm.trans hs
  exact .inr (mem_filter.2 ⟨hf, by simpa using hid.symm⟩)

/-- **One turn of `rotate`.** -/
lemma Inv.rotate (hfrom : (st.pc t).leads = false) (htask : TaskOk st task) (synced : Bool) :
    Keeps first (rotate st t task synced) := by
  unfold Live.rotate
  split
  · rename_i hflush
    exact ⟨h.goto hfrom ⟨hflush, htask⟩ rfl, by simp⟩
  rename_i hflush
  rw [Bool.not_eq_true] at hflush
  split
  · exact ⟨h.refuse hfrom task, by simp [Live.refuse]⟩
  split
  · exact h.afterRotate hfrom htask
  rename_i segment hactive
  split
  · split
    · have hrotated := (h.rotated hactive).notifyAll.close (by exact hflush) rfl segment
      exact hrotated.afterRotate ((notifyAll_leads _ t).trans hfrom) htask
    · refine ⟨(h.frame st.guards st.closed st.retiring true st.onDisk st.nextSegment).refuse hfrom task, ?_⟩
      simp [Live.refuse]
  · rename_i hle
    have hall : st.durableEnd = st.nextSeq := by
      have := h.durable_le
      omega
    exact (h.close hflush hall segment).afterRotate hfrom htask

end

lemma openSegment_cases (st : State) (opening : OpenResult) :
    (∃ s, st.active = some s ∧ openSegment st opening = (st, some s)) ∨
      (st.active = none ∧
        openSegment st opening =
          ({ st with
              nextSegment := st.nextSegment + 1
              active := some ⟨st.nextSegment, SEGMENT_HEADER, []⟩
              onDisk := st.onDisk ++ [st.nextSegment] },
            some ⟨st.nextSegment, SEGMENT_HEADER, []⟩)) ∨
      ∃ onDisk, (opening ≠ .orphaned → onDisk = st.onDisk) ∧
        openSegment st opening = ({ st with nextSegment := st.nextSegment + 1, onDisk }, none) := by
  unfold openSegment
  cases hactive : st.active with
  | some s => exact .inl ⟨s, rfl, rfl⟩
  | none =>
    cases opening with
    | opened => exact .inr (.inl ⟨rfl, rfl⟩)
    | failed => exact .inr (.inr ⟨_, fun _ => rfl, rfl⟩)
    | orphaned => exact .inr (.inr ⟨_, fun h => absurd rfl h, rfl⟩)

section

variable (h : Inv first st)
include h

/-- A new segment is opened when none is active, so there is no leader and no frame to cover. -/
lemma Inv.opened (hactive : st.active = none) (segment : Segment) (nextSegment : ℕ)
    (onDisk : List ℕ) : Inv first { st with nextSegment, active := some segment, onDisk } := by
  refine { h with tail := fun f hf hle => ?_, pcs := fun t => ?_ }
  · obtain ⟨s, hs, -⟩ := h.tail f hf hle
    cases hactive.symm.trans hs
  · have hok := h.pcs t
    cases hp : st.pc t with
    | leading =>
      rw [hp] at hok
      obtain ⟨-, -, -, s, hs, -⟩ := hok
      cases hactive.symm.trans hs
    | syncing =>
      rw [hp] at hok
      obtain ⟨-, -, -, ⟨s, hs, -⟩, -⟩ := hok
      cases hactive.symm.trans hs
    | _ =>
      rw [hp] at hok
      exact hok

/-- **A frame lands.** A leader's sample is below it. -/
lemma Inv.land {segment} (hactive : st.active = some segment)
    (key : String) (size : ℕ) : Inv first (land st segment key size) := by
  have hold : ∀ f ∈ (Live.land st segment key size).written,
      f ∈ st.written ∨ f = ⟨st.nextSeq, segment.id, key⟩ := fun f hf =>
    (mem_append.1 hf).imp_right mem_singleton.1
  refine ⟨h.first_le, h.durable_le.trans (le_succ _), fun seq hfirst hlt => ?_, fun f hf => ?_,
    fun f hf hlt => ?_, fun f hf hle => ?_, fun t => ?_, h.single, h.busy⟩
  · change seq < st.nextSeq + 1 at hlt
    by_cases hseq : seq = st.nextSeq
    · exact ⟨⟨st.nextSeq, segment.id, key⟩, mem_append_right _ mem_cons_self, hseq.symm⟩
    · obtain ⟨f, hf, rfl⟩ := h.numbered seq hfirst (by omega)
      exact ⟨f, mem_append_left _ hf, rfl⟩
  · change f.seq < st.nextSeq + 1
    rcases hold f hf with hf | rfl
    · have := h.below f hf
      omega
    · exact lt_succ_self _
  · change f.seq < st.durableEnd at hlt
    rcases hold f hf with hf | rfl
    · exact h.covered f hf hlt
    have := h.durable_le
    dsimp only at hlt
    omega
  · rcases hold f hf with hf | rfl
    · obtain ⟨s, hs, hid⟩ := h.tail f hf hle
      cases hactive.symm.trans hs
      exact ⟨_, rfl, hid⟩
    · exact ⟨_, rfl, rfl⟩
  · have hok := h.pcs t
    change PcOk _ (st.pc t)
    have hwait : ∀ wait, WaitOk st wait → WaitOk (Live.land st segment key size) wait := by
      intro wait hwait
      cases wait with
      | durable => exact ⟨lt_succ_of_lt hwait.1, hwait.2⟩
      | rotation task =>
        cases task with
        | append => exact lt_succ_of_lt hwait
        | flush => exact hwait
        | _ => trivial
    cases hp : st.pc t with
    | parked wait => rw [hp] at hok; exact ⟨hok.1, hwait wait hok.2⟩
    | woken wait => rw [hp] at hok; exact hwait wait hok
    | leading =>
      rw [hp] at hok
      obtain ⟨hflush, hseq, hle, s, hs, hid⟩ := hok
      cases hactive.symm.trans hs
      exact ⟨hflush, hseq, hle.trans (le_succ _), _, rfl, hid⟩
    | syncing =>
      rw [hp] at hok
      obtain ⟨hflush, hseq, hle, ⟨s, hs, hid⟩, hfile⟩ := hok
      cases hactive.symm.trans hs
      refine ⟨hflush, hseq, hle.trans (le_succ _), ⟨_, rfl, hid⟩, fun f hf hsegment hlt => ?_⟩
      rcases hold f hf with hf | rfl
      · exact hfile f hf hsegment hlt
      · dsimp only at hlt
        omega
    | _ => trivial

lemma Inv.write {segment} (hfrom : (st.pc t).leads = false)
    (hactive : st.active = some segment) (key : String) (size : ℕ) (sync : Bool)
    (result : WriteResult) (synced : Bool) :
    Keeps first (write st segment t key size sync result synced) := by
  unfold Live.write
  cases result with
  | cut => exact ⟨h, by simp⟩
  | lost => exact ⟨h.frame st.guards st.closed st.retiring true st.onDisk st.nextSegment, by simp⟩
  | written =>
    have hland := h.land hactive key size
    have htask : TaskOk (Live.land st segment key size) (.append ⟨st.nextSeq, segment.id⟩ sync) :=
      lt_succ_self st.nextSeq
    dsimp only
    split
    · exact hland.rotate hfrom htask synced
    · exact hland.afterRotate hfrom htask

lemma Inv.append (hfrom : (st.pc t).leads = false) (key : String) (size : ℕ)
    (sync : Bool) (opening : OpenResult) (result : WriteResult) (synced : Bool) :
    Keeps first (append st t key size sync opening result synced) := by
  unfold Live.append
  split
  · exact ⟨h, by simp⟩
  rcases openSegment_cases st opening with ⟨s, hactive, heq⟩ | ⟨hactive, heq⟩ | ⟨onDisk, -, heq⟩
  · rw [heq]
    exact h.write hfrom hactive key size sync result synced
  · rw [heq]
    exact (h.opened hactive _ _ _).write hfrom rfl key size sync result synced
  · rw [heq]
    exact ⟨h.frame st.guards st.closed st.retiring st.poisoned onDisk _, by simp⟩

lemma Inv.tick (hfirst : 0 < first) (hfrom : (st.pc t).leads = false) (quiet aged synced : Bool) :
    Keeps first (tick st t quiet aged synced) := by
  have htick : TaskOk st .tick := trivial
  have hgo : Keeps first (Live.proceed st t .tick) :=
    ⟨h.proceed hfrom .tick, by simp [Live.proceed]⟩
  have hlast : st.nextSeq - 1 < st.nextSeq := by
    have := h.first_le
    have := h.durable_le
    omega
  unfold Live.tick
  split
  · exact ⟨h, by simp⟩
  split
  · exact hgo
  split
  · exact hgo
  split
  · exact h.rotate hfrom htick synced
  split
  · exact h.waitDurable hfrom ⟨hlast, trivial⟩
  · exact hgo

/-- The leader comes back: its thread is the only one that led, and nobody is parked any more. -/
lemma Inv.landed (hleads : (st.pc t).leads = true) :
    Inv first { (st.goto t .idle).notifyAll with flushing := false } := by
  have hothers : ∀ t', ((st.goto t .idle).notifyAll.pc t').leads = false := by
    intro t'
    rw [notifyAll_leads]
    by_cases ht : t' = t
    · rw [ht, goto_pc_self]
      rfl
    · rw [goto_pc_of_ne st _ ht]
      cases hl : (st.pc t').leads with
      | false => rfl
      | true => exact absurd (h.single t' t hl hleads) ht
  refine { h with
    pcs := fun t' => ?_, single := fun t₁ t₂ h₁ => ?_, busy := fun hflush => by cases hflush }
  · change PcOk _ ((st.goto t .idle).notifyAll.pc t')
    have hl := hothers t'
    have hp := notifyAll_parked (st.goto t .idle) t'
    have hwoken : ∀ wait, (st.goto t .idle).notifyAll.pc t' = .woken wait → WaitOk st wait := by
      intro wait hpc
      by_cases ht : t' = t
      · subst ht
        rcases notifyAll_woken hpc with heq | heq <;> rw [goto_pc_self] at heq <;> cases heq
      · have hok := h.pcs t'
        rcases notifyAll_woken hpc with heq | heq <;> rw [goto_pc_of_ne st _ ht] at heq <;>
          rw [heq] at hok
        · exact hok
        · exact hok.2
    cases hpc : (st.goto t .idle).notifyAll.pc t' with
    | parked wait => exact absurd hpc (hp wait)
    | woken wait => exact hwoken wait hpc
    | leading | syncing => rw [hpc] at hl; cases hl
    | _ => trivial
  · change ((st.goto t .idle).notifyAll.pc t₁).leads = true at h₁
    rw [hothers t₁] at h₁
    cases h₁

/-- **The end of `lead_flush`.** -/
lemma Inv.publish {covered segment inFile}
    (hpc : st.pc t = .syncing task seq covered segment inFile) (synced : Bool) :
    Keeps first (publish st t task seq covered segment inFile synced) := by
  have hok := h.pcs t
  have hleads : (st.pc t).leads = true := by rw [hpc]; rfl
  rw [hpc] at hok
  obtain ⟨-, hseq, hle, ⟨_, hs, hid⟩, hfile⟩ := hok
  have hlanded := h.landed hleads
  have hfrom : ((st.goto t .idle).notifyAll.pc t).leads = false := by
    rw [notifyAll_leads, goto_pc_self]
    rfl
  unfold Live.publish
  dsimp only
  split
  · -- what the flush covered was in the file when it started
    have hcovered : ∀ f ∈ st.written, f.seq < max st.durableEnd covered → f ∈ st.durable ++ inFile := by
      intro f hf hlt
      refine mem_append.2 ?_
      by_cases hold : f.seq < st.durableEnd
      · exact .inl (h.covered f hf hold)
      obtain ⟨_, hs', hid'⟩ := h.tail f hf (by omega)
      cases hs.symm.trans hs'
      exact .inr (hfile f hf (hid'.symm.trans hid) (by omega))
    split
    · refine ⟨(hlanded.cover (le_refl _) h.durable_le ?_).refuse hfrom task, by simp [Live.refuse]⟩
      exact fun f hf hlt => hcovered f hf (lt_of_lt_of_le hlt (le_max_left _ _))
    · refine (hlanded.cover (le_max_left _ _) (max_le h.durable_le hle) hcovered).waitDurable hfrom ?_
      exact ⟨lt_of_lt_of_le hseq.1 hle, hseq.2⟩
  · refine ⟨(hlanded.frame _ _ _ true _ _).refuse hfrom task, ?_⟩
    simp [Live.refuse]

lemma Inv.started {covered segment} (hpc : st.pc t = .leading task seq covered segment) :
    Inv first (st.goto t (.syncing task seq covered segment (st.inFile segment))) := by
  have hleads : ∀ t', ((st.goto t (.syncing task seq covered segment (st.inFile segment))).pc t').leads =
      (st.pc t').leads := by
    intro t'
    by_cases ht : t' = t
    · rw [ht, goto_pc_self, hpc]
      rfl
    · rw [goto_pc_of_ne st _ ht]
  refine { h with
    pcs := fun t' => ?_
    single := fun t₁ t₂ h₁ h₂ => h.single t₁ t₂ (hleads t₁ ▸ h₁) (hleads t₂ ▸ h₂)
    busy := fun hflush => ?_ }
  · by_cases ht : t' = t
    · have hok := h.pcs t
      rw [hpc] at hok
      obtain ⟨hflush, hseq, hle, hactive⟩ := hok
      rw [ht, goto_pc_self]
      refine ⟨hflush, hseq, hle, hactive, fun f hf hsegment _ => ?_⟩
      exact mem_filter.2 ⟨hf, by simpa using hsegment⟩
    · rw [goto_pc_of_ne st _ ht]
      exact h.pcs t'
  · obtain ⟨t', hl⟩ := h.busy hflush
    exact ⟨t', by rw [hleads]; exact hl⟩

/-- **Every step keeps the invariant**, and no step panics. -/
lemma Inv.step (hfirst : 0 < first) (flushEveryAppend : Bool) (label : Label) :
    Keeps first (step flushEveryAppend st label) := by
  have hidle : ∀ {t}, st.pc t = .idle → (st.pc t).leads = false := fun hpc => by rw [hpc]; rfl
  have hsame : Keeps first (st, []) := ⟨h, by simp⟩
  cases label with simp only [Live.step]
  | append t key size sync opening write synced =>
    split
    · rename_i hpc
      exact h.append (hidle hpc) key size _ opening write synced
    · exact hsame
  | flush t =>
    split
    · rename_i hpc
      have hlast : st.nextSeq - 1 < st.nextSeq := by
        have := h.first_le
        have := h.durable_le
        omega
      exact h.waitDurable (hidle hpc) ⟨hlast, rfl⟩
    · exact hsame
  | tick t quiet aged synced =>
    split
    · rename_i hpc
      exact h.tick hfirst (hidle hpc) quiet aged synced
    · exact hsame
  | checkpoint t synced =>
    split
    · rename_i hpc
      have htask : TaskOk st .checkpoint := trivial
      exact h.rotate (hidle hpc) htask synced
    · exact hsame
  | spurious t =>
    have hok := h.pcs t
    split
    · rename_i wait hpc
      rw [hpc] at hok
      exact ⟨h.goto (by rw [hpc]; rfl) (p := .woken wait) hok.2 rfl, by simp⟩
    · exact hsame
  | resume t synced =>
    have hok := h.pcs t
    have hgo : (st.pc t).leads = false → Inv first (st.goto t .idle) := fun hfrom =>
      h.goto hfrom (p := .idle) trivial rfl
    have hfrom : ((st.goto t .idle).pc t).leads = false := by rw [goto_pc_self]; rfl
    split
    · rename_i task seq hpc
      rw [hpc] at hok
      exact (hgo (by rw [hpc]; rfl)).waitDurable hfrom hok
    · rename_i task hpc
      rw [hpc] at hok
      have htask : TaskOk (st.goto t .idle) task := hok
      exact (hgo (by rw [hpc]; rfl)).rotate hfrom htask synced
    · exact hsame
  | deviceStart t =>
    split
    · rename_i hpc
      exact ⟨h.started hpc, by simp⟩
    · exact hsame
  | deviceEnd t synced =>
    split
    · rename_i hpc
      exact h.publish hpc synced
    · exact hsame
  | retireTake t =>
    split
    · rename_i hpc _
      have hfrom : (st.pc t).leads = false := by rw [hpc]; rfl
      split
      · exact ⟨h.goto hfrom (p := .idle) trivial rfl, by simp⟩
      · exact ⟨(h.goto hfrom (p := .retireScan st.closed false) trivial rfl).frame _ _ _ _ _ _, by simp⟩
    · exact hsame
  | retireCheck t =>
    split
    · rename_i removed hpc
      exact ⟨h.goto (by rw [hpc]; rfl) (p := .retireDone [] removed) trivial rfl, by simp⟩
    · rename_i segment pending removed hpc
      have hfrom : (st.pc t).leads = false := by rw [hpc]; rfl
      split
      · exact ⟨h.goto hfrom (p := .retireDone (segment :: pending) removed) trivial rfl, by simp⟩
      · exact ⟨h.goto hfrom (p := .retireFlush segment pending removed) trivial rfl, by simp⟩
    · exact hsame
  | retireUnlink t filesFlushed removed =>
    split
    · rename_i segment pending before hpc
      have hfrom : (st.pc t).leads = false := by rw [hpc]; rfl
      have hkept : Inv first (st.goto t (.retireDone (segment :: pending) before)) :=
        h.goto hfrom (p := .retireDone (segment :: pending) before) trivial rfl
      split
      · split
        · exact ⟨(h.goto hfrom (p := .retireScan pending true) trivial rfl).frame _ _ _ _ _ _, by simp⟩
        · exact ⟨hkept, by simp⟩
      · exact ⟨hkept, by simp⟩
    · exact hsame
  | retireReturn t =>
    split
    · rename_i hpc
      exact ⟨(h.goto (by rw [hpc]; rfl) (p := .idle) trivial rfl).frame _ _ _ _ _ _, by simp⟩
    · exact hsame
  | dropGuard => exact ⟨h.frame _ st.closed st.retiring st.poisoned st.onDisk st.nextSegment, by simp⟩

end

/-! ## Acknowledgements and poison -/

/-- The caller is told that its record, or all records so far, are durable. -/
def Event.acknowledges : Event → Option ℕ
  | .appended guard true => some guard.seq
  | .flushed last => some last
  | _ => none

/-- An append or a flush returns without an error. -/
def Event.succeeds : Event → Bool
  | .appended _ _ | .flushed _ => true
  | _ => false

/-- What a step may show: an acknowledgement lies below the watermark, a success comes from a log
that is not poisoned, a failed flush leaves it poisoned, and a segment is removed by a retirement
that has flushed its files. -/
structure Shows (before : State) (r : State × List Event) : Prop where
  acks : ∀ e ∈ r.2, ∀ n, e.acknowledges = some n → n < r.1.durableEnd
  succeeds : ∀ e ∈ r.2, e.succeeds = true → r.1.poisoned = false
  fails : ∀ segment, .syncFailed segment ∈ r.2 → r.1.poisoned = true
  unlinks : ∀ id, .unlinked id ∈ r.2 → ∃ t c pending removed,
    before.pc t = .retireFlush c pending removed ∧ c.id = id ∧ .filesFlushed c.touched ∈ r.2

variable {before : State}

lemma shows_nil (st : State) : Shows before (st, []) :=
  ⟨fun _ he => absurd he not_mem_nil, fun _ he => absurd he not_mem_nil,
    fun _ he => absurd he not_mem_nil, fun _ he => absurd he not_mem_nil⟩

lemma shows_single {e : Event} (hacks : ∀ n, e.acknowledges = some n → n < st.durableEnd)
    (hsucceeds : e.succeeds = true → st.poisoned = false) (hfails : ∀ segment, e ≠ .syncFailed segment)
    (hunlinks : ∀ id, e ≠ .unlinked id) : Shows before (st, [e]) := by
  refine ⟨fun e' he => ?_, fun e' he => ?_, fun segment he => ?_, fun id he => ?_⟩
  · exact mem_singleton.1 he ▸ hacks
  · exact mem_singleton.1 he ▸ hsucceeds
  · exact absurd (mem_singleton.1 he).symm (hfails segment)
  · exact absurd (mem_singleton.1 he).symm (hunlinks id)

lemma shows_refused (st : State) : Shows before (st, [.refused]) :=
  shows_single nofun nofun nofun nofun

lemma shows_proceed (hpoison : st.poisoned = false)
    (h : ∀ n, (task = .flush n ∨ ∃ guard, task = .append guard true ∧ guard.seq = n) → n < st.durableEnd) :
    Shows before (proceed st t task) := by
  cases task with
  | append guard sync =>
    refine shows_single (fun n hn => ?_) (fun _ => hpoison) nofun nofun
    cases sync with
    | false => cases hn
    | true => exact h n (.inr ⟨guard, rfl, Option.some.inj hn⟩)
  | flush =>
    refine shows_single (fun n hn => ?_) (fun _ => hpoison) nofun nofun
    exact h n (.inl (congrArg Task.flush (Option.some.inj hn)))
  | tick | checkpoint => exact shows_nil _

lemma shows_waitDurable (hawaits : Awaits task seq) : Shows before (waitDurable st t task seq) := by
  unfold waitDurable
  split
  · exact shows_refused _
  rename_i hpoison
  split
  · rename_i hlt
    refine shows_proceed (Bool.not_eq_true _ ▸ hpoison) fun n hn => ?_
    rcases hn with rfl | ⟨guard, rfl, rfl⟩ <;> exact hawaits ▸ hlt
  split
  · exact shows_nil _
  split
  · exact shows_nil _
  exact shows_single nofun nofun nofun nofun

lemma shows_afterRotate (hpoison : st.poisoned = false) (htask : TaskOk st task) :
    Shows before (afterRotate st t task) := by
  unfold afterRotate
  split
  · exact shows_waitDurable rfl
  rename_i hsync
  refine shows_proceed hpoison fun n hn => ?_
  rcases hn with rfl | ⟨guard, rfl, -⟩
  · exact htask.elim
  · exact absurd rfl (hsync guard)

lemma shows_syncFailed (segment : ℕ) (hpoison : st.poisoned = true) :
    Shows before (st, [.syncFailed segment, .refused]) := by
  refine ⟨fun e he n hn => ?_, fun e he h => ?_, fun _ _ => hpoison, fun id he => by simp at he⟩
  · simp only [mem_cons, not_mem_nil, or_false] at he
    rcases he with rfl | rfl <;> cases hn
  · simp only [mem_cons, not_mem_nil, or_false] at he
    rcases he with rfl | rfl <;> cases h

lemma shows_rotate (htask : TaskOk st task) (synced : Bool) : Shows before (rotate st t task synced) := by
  unfold rotate
  split
  · exact shows_nil _
  split
  · exact shows_refused _
  rename_i hpoison
  rw [Bool.not_eq_true] at hpoison
  split
  · exact shows_afterRotate hpoison htask
  split
  · split
    · exact shows_afterRotate hpoison htask
    · exact shows_syncFailed _ rfl
  · exact shows_afterRotate hpoison htask

lemma shows_append (key : String) (size : ℕ) (sync : Bool) (opening : OpenResult)
    (result : WriteResult) (synced : Bool) :
    Shows before (append st t key size sync opening result synced) := by
  have hwrite : ∀ (st : State) (segment : Segment), st.poisoned = false →
      Shows before (write st segment t key size sync result synced) := by
    intro st segment hpoison
    unfold write
    cases result with
    | cut | lost => exact shows_refused _
    | written =>
      have htask : TaskOk (land st segment key size) (.append ⟨st.nextSeq, segment.id⟩ sync) :=
        lt_succ_self st.nextSeq
      dsimp only
      split
      · exact shows_rotate htask synced
      · exact shows_afterRotate hpoison htask
  unfold append
  split
  · exact shows_refused _
  rename_i hpoison
  rw [Bool.not_eq_true] at hpoison
  rcases openSegment_cases st opening with ⟨s, -, heq⟩ | ⟨-, heq⟩ | ⟨_, -, heq⟩
  · rw [heq]
    exact hwrite _ _ hpoison
  · rw [heq]
    exact hwrite _ _ hpoison
  · rw [heq]
    exact shows_refused _

lemma shows_tick (quiet aged synced : Bool) : Shows before (tick st t quiet aged synced) := by
  have htick : TaskOk st .tick := trivial
  unfold tick
  split
  · exact shows_nil _
  split
  · exact shows_nil _
  split
  · exact shows_nil _
  split
  · exact shows_rotate htick synced
  split
  · exact shows_waitDurable trivial
  · exact shows_nil _

/-- **What one step shows.** -/
lemma Inv.shows (h : Inv first st) (flushEveryAppend : Bool) (label : Label) :
    Shows st (Live.step flushEveryAppend st label) := by
  cases label with simp only [Live.step]
  | append _ key size _ opening write synced =>
    split
    · exact shows_append key size _ opening write synced
    · exact shows_nil _
  | flush =>
    split
    · exact shows_waitDurable rfl
    · exact shows_nil _
  | tick t quiet aged synced =>
    split
    · exact shows_tick quiet aged synced
    · exact shows_nil _
  | checkpoint t synced =>
    split
    · have htask : TaskOk st .checkpoint := trivial
      exact shows_rotate htask synced
    · exact shows_nil _
  | spurious | deviceStart | retireReturn =>
    split <;> exact shows_nil _
  | resume t synced =>
    have hok := h.pcs t
    split
    · rename_i task seq hpc
      rw [hpc] at hok
      exact shows_waitDurable hok.2
    · rename_i task hpc
      rw [hpc] at hok
      have htask : TaskOk (st.goto t .idle) task := hok
      exact shows_rotate htask synced
    · exact shows_nil _
  | deviceEnd t synced =>
    have hok := h.pcs t
    split
    · rename_i task seq covered segment inFile hpc
      rw [hpc] at hok
      unfold Live.publish
      dsimp only
      split
      · split
        · exact shows_refused _
        · exact shows_waitDurable hok.2.1.2
      · exact shows_syncFailed _ rfl
    · exact shows_nil _
  | retireTake =>
    split
    · split <;> exact shows_nil _
    · exact shows_nil _
  | retireCheck =>
    split
    · exact shows_nil _
    · split <;> exact shows_nil _
    · exact shows_nil _
  | retireUnlink t filesFlushed removed =>
    split
    · rename_i c pending removed' hpc
      split
      · split
        · refine ⟨by simp [Event.acknowledges], by simp [Event.succeeds], by simp, fun id he => ?_⟩
          have hid : id = c.id := by simpa using he
          exact ⟨t, c, pending, removed', hpc, hid.symm, mem_cons_self⟩
        · exact ⟨by simp [Event.acknowledges], by simp [Event.succeeds], by simp, by simp⟩
      · exact shows_nil _
    · exact shows_nil _
  | dropGuard => exact shows_nil _

/-! ## Poison stays -/

lemma proceed_poisoned (st : State) (t : ℕ) (task : Task) :
    (proceed st t task).1.poisoned = st.poisoned := by
  cases task <;> rfl

lemma waitDurable_poisoned (st : State) (t : ℕ) (task : Task) (seq : ℕ) :
    (waitDurable st t task seq).1.poisoned = st.poisoned := by
  unfold waitDurable
  split
  · rfl
  split
  · exact proceed_poisoned st t task
  split
  · rfl
  split <;> rfl

lemma rotate_poisoned (hpoison : st.poisoned = true) (t : ℕ) (task : Task) (synced : Bool) :
    (rotate st t task synced).1.poisoned = true := by
  unfold rotate
  split
  · exact hpoison
  · exact hpoison

/-- **A poisoned log stays poisoned.** -/
lemma step_poisoned (hpoison : st.poisoned = true) (flushEveryAppend : Bool) (label : Label) :
    (step flushEveryAppend st label).1.poisoned = true := by
  cases label with simp only [step]
  | append =>
    simp only [append, hpoison, if_true]
    split <;> exact hpoison
  | flush =>
    split
    · exact (waitDurable_poisoned _ _ _ _).trans hpoison
    · exact hpoison
  | tick =>
    simp only [tick, hpoison, if_true]
    split <;> exact hpoison
  | checkpoint t synced =>
    split
    · exact rotate_poisoned hpoison t .checkpoint synced
    · exact hpoison
  | spurious | deviceStart | retireReturn =>
    split <;> exact hpoison
  | resume t synced =>
    split
    · exact (waitDurable_poisoned _ _ _ _).trans hpoison
    · exact rotate_poisoned (by exact hpoison) t _ synced
    · exact hpoison
  | deviceEnd =>
    split
    · unfold publish
      split
      · rw [if_pos (by exact hpoison)]
        exact hpoison
      · rfl
    · exact hpoison
  | retireTake =>
    split
    · split <;> exact hpoison
    · exact hpoison
  | retireCheck =>
    split
    · exact hpoison
    · split <;> exact hpoison
    · exact hpoison
  | retireUnlink =>
    split
    · split
      · split <;> exact hpoison
      · exact hpoison
    · exact hpoison
  | dropGuard => exact hpoison

end Fluree.Wal.Live
