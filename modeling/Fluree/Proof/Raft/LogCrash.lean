import Fluree.Proof.Raft.LogAppend
import Fluree.Proof.Raft.LogRemove

/-!
# The log store over crashes

`run_refines`: **the log store refines the abstract log** as long as each append goes right behind
what the segments hold. Each operation does to the log what `Log.Step` says, whether it returns or a
crash interrupts it, and opening always succeeds.

With the facts on histories (`Log.Run.kept`, `Log.Run.fresh`) this is crash consistency
(`crash_consistent`). An append that goes past the entries on the device is acknowledged and lost
(`appended_entry_lost`): a crash inside a purge past the end of the log leaves the old segment, and
the next append writes behind its last entry.
-/

namespace Fluree.Raft.LogStore

open Lib List Except

/-! ## Histories of the abstract log -/

namespace Log

variable {l : Log} {e : LogEntry}

lemma Step.keeps (h : Step event l l') (he : e ∈ l.entries)
    (hdrop : ¬ event.Drops e) : e ∈ l'.entries := by
  have hpurge : ∀ id, Purged id l l' → ¬ (Op.purgeThrough id).Drops e → e ∈ l'.entries := by
    intro id hp hd
    unfold Purged at hp
    split at hp
    · rw [hp.2]
      exact he
    · rw [hp.2]
      exact mem_filter.2 ⟨he, by simpa [Op.Drops] using hd⟩
  have hfilter : ∀ fromIndex, ¬ (Op.truncateFrom fromIndex).Drops e →
      e ∈ l.entries.filter (fun e => e.logId.index < fromIndex) :=
    fun fromIndex hd => mem_filter.2 ⟨he, by simpa [Op.Drops] using hd⟩
  cases event with
  | done op =>
    cases op with
    | append => rw [h.2]; exact mem_append_left _ he
    | truncateFrom => rw [h.2]; exact hfilter _ hdrop
    | purgeThrough id => exact hpurge id h hdrop
  | crashed op =>
    cases op with
    | append =>
      obtain ⟨-, _, hk⟩ := h
      rw [hk]
      exact mem_append_left _ he
    | truncateFrom => exact h.2.2 (hfilter _ hdrop)
    | purgeThrough id =>
      rcases h with h | h
      · rw [h.2]
        exact he
      · exact hpurge id h hdrop
  | refused | stopped | opened | crashedOpening => rw [h.2]; exact he

lemma Step.mem_or_appends (h : Step event l l') (he : e ∈ l'.entries) :
    e ∈ l.entries ∨ event.Appends e := by
  have hpurge : ∀ id, Purged id l l' → e ∈ l.entries := by
    intro id hp
    unfold Purged at hp
    split at hp
    · rw [hp.2] at he
      exact he
    · rw [hp.2] at he
      exact mem_of_mem_filter he
  cases event with
  | done op =>
    cases op with
    | append =>
      rw [h.2] at he
      exact mem_append.1 he
    | truncateFrom =>
      rw [h.2] at he
      exact .inl (mem_of_mem_filter he)
    | purgeThrough id => exact .inl (hpurge id h)
  | crashed op =>
    cases op with
    | append =>
      obtain ⟨-, _, hk⟩ := h
      rw [hk] at he
      exact (mem_append.1 he).imp_right mem_of_mem_take
    | truncateFrom => exact .inl (h.2.1.subset he)
    | purgeThrough id =>
      rcases h with h | h
      · rw [h.2] at he
        exact .inl he
      · exact .inl (hpurge id h)
  | refused | stopped | opened | crashedOpening => rw [h.2] at he; exact .inl he

/-- An event of a run that took one more step is the new one or stands before it. -/
lemma split_concat {α : Type} {l before later : List α} {x y : α}
    (h : l ++ [x] = before ++ y :: later) :
    later = [] ∧ x = y ∨ ∃ init, later = init ++ [x] ∧ l = before ++ y :: init := by
  rcases eq_nil_or_concat later with rfl | ⟨init, last, rfl⟩
  · exact .inl ⟨rfl, (List.cons.inj (append_inj' h rfl).2).1⟩
  · rw [concat_eq_append, ← cons_append, ← append_assoc] at h
    obtain ⟨hinit, hlast⟩ := append_inj' h rfl
    exact .inr ⟨init, by rw [concat_eq_append, hlast], hinit⟩

/-- **What the history promises is in the log.** -/
lemma Run.kept (h : Run events l) (hk : Kept events e) : e ∈ l.entries := by
  induction h with
  | start =>
    obtain ⟨before, es, later, hsplit, -⟩ := hk
    simp at hsplit
  | next _ hstep ih =>
    obtain ⟨before, es, later, hsplit, he, hlater⟩ := hk
    rcases split_concat hsplit with ⟨-, rfl⟩ | ⟨later, rfl, hbefore⟩
    · -- the append is the last event
      rw [hstep.2]
      exact mem_append_right _ he
    · refine hstep.keeps (ih ⟨before, es, later, hbefore, he, fun x hx => ?_⟩) ?_
      · exact hlater x (by simp [hx])
      · exact hlater _ (by simp)

/-- **Nothing in the log was removed by a truncation that returned**, unless it was appended
again. -/
lemma Run.fresh (h : Run events l) (he : e ∈ l.entries) : Fresh events e := by
  induction h with
  | start => cases he
  | next _ hstep ih =>
    intro before fromIndex later hsplit hindex
    rcases split_concat hsplit with ⟨-, rfl⟩ | ⟨later, rfl, hbefore⟩
    · rw [hstep.2, mem_filter, decide_eq_true_iff] at he
      omega
    · rcases hstep.mem_or_appends he with he | happ
      · obtain ⟨x, hx, hxe⟩ := ih he before fromIndex later hbefore hindex
        exact ⟨x, by simp [hx], hxe⟩
      · exact ⟨_, by simp, happ⟩

end Log

/-! ## The store refines the log -/

variable {env : Env}

def Represents (env : Env) : Node → Log → Prop
  | .running inner d, l => ∃ segs, Loaded env inner d segs ∧ l.purged = d.lastPurged ∧
      l.entries = liveEntries d.lastPurged segs
  | .down d, l => Holds env d l

variable {inner : Inner} {d : Disk} {l : Log}

lemma Loaded.represents (h : Loaded env inner d segs) :
    Represents env (.running inner d) h.layout.log :=
  ⟨segs, h, rfl, rfl⟩

lemma Stores.represents (h : Stores env lastPurged entries d) :
    ∃ l, Represents env (.down d) l ∧ l.purged = lastPurged ∧
      l.entries = entries.filter (fun e => live lastPurged e.logId.index) := by
  obtain ⟨_, _, hlayout, rfl, rfl⟩ := h
  exact ⟨hlayout.log, hlayout.holds, rfl, rfl⟩

/-- What an operation does to the log, when it returns and when it is interrupted. -/
def Refines (env : Env) (op : Op) (inner : Inner) (d : Disk) (l : Log) : Prop :=
  ∃ r ops, op.run env inner = (r, ops.flatMap (device env).durably) ∧
    (∀ inner', r = .ok inner' → ∃ l', Log.Step (.done op) l l' ∧
      Represents env (.running inner' (applyAll env ops d)) l') ∧
    (∀ e, r = .error e → applyAll env ops d = d) ∧
    (device env).CrashSafe (fun d' => ∃ l', Log.Step (.crashed op) l l' ∧
      Represents env (.down d') l') ops d

section

variable (h : Represents env (.running inner d) l)
include h

lemma append_refines (hsize : SEGMENT_HEADER < env.segmentBytes)
    (hp : (Op.append entries).Promised inner) (hc : (Op.append entries).Continues inner) :
    Refines env (.append entries) inner d l := by
  obtain ⟨segs, hloaded, hpurged, hentries⟩ := h
  rcases append_spec hloaded hsize hp hc with ⟨e, herr⟩ |
    ⟨inner', ops, segs', hrun, hloaded', hkept, hphys, hlive, hsafe⟩
  · refine ⟨.error e, [], herr, fun inner' heq => (by cases heq), fun _ _ => rfl, l, ⟨hpurged ▸ rfl, 0, ?_⟩,
      segs, [], hloaded.layout, hpurged, hentries⟩
    rw [take_zero, append_nil]
  · have hpart : ∀ k, (physical segs ++ entries.take k).filter
        (fun e => live d.lastPurged e.logId.index) = l.entries ++ entries.take k := by
      intro k
      rw [filter_append, hentries, filter_eq_self.2 fun e he => hlive e (mem_of_mem_take he)]
      rfl
    refine ⟨.ok inner', ops, hrun, fun i hi => ?_, fun e he => (by cases he), hsafe.mono ?_⟩
    · obtain rfl := ok.inj hi
      refine ⟨hloaded'.layout.log, ⟨hkept.trans hpurged.symm, ?_⟩, hloaded'.represents⟩
      have hall := hpart entries.length
      rw [take_length, ← hphys] at hall
      rw [← hall, ← hkept]
      rfl
    · rintro _ ⟨k, hstores⟩
      obtain ⟨l', hrep, hl', hes⟩ := hstores.represents
      exact ⟨l', ⟨hl'.trans hpurged.symm, k, hes.trans (hpart k)⟩, hrep⟩

lemma truncateFrom_refines (fromIndex : ℕ) : Refines env (.truncateFrom fromIndex) inner d l := by
  obtain ⟨_, hloaded, hpurged, hentries⟩ := h
  obtain ⟨inner', ops, _, hrun, htrunc⟩ := truncateFrom_spec hloaded fromIndex
  refine ⟨.ok inner', ops, hrun, fun i hi => ?_, fun e he => (by cases he), htrunc.safe.mono ?_⟩
  · obtain rfl := ok.inj hi
    refine ⟨htrunc.loaded.layout.log, ⟨htrunc.purged.trans hpurged.symm, ?_⟩, htrunc.loaded.represents⟩
    rw [hentries]
    refine Eq.trans ?_ htrunc.log
    rw [← htrunc.purged]
    rfl
  · rintro _ ⟨_, hstores, hprefix, hbelow⟩
    obtain ⟨l', hrep, hl', hes⟩ := hstores.represents
    refine ⟨l', ⟨hl'.trans hpurged.symm, ?_, ?_⟩, hrep⟩
    · rw [hes, hentries]
      exact hprefix.filter _
    · rw [hes, hentries]
      intro e he
      exact mem_filter.2 ⟨hbelow he, (mem_filter.1 (mem_of_mem_filter he)).2⟩

lemma purgeThrough_refines {id}
    (hp : (Op.purgeThrough id).Promised inner) : Refines env (.purgeThrough id) inner d l := by
  obtain ⟨segs, hloaded, hpurged, hentries⟩ := h
  rcases purgeThrough_spec hloaded hp with ⟨hpast, hrun⟩ | ⟨hpast, inner', ops, segs', hrun, hto⟩
  · refine ⟨.ok inner, [], hrun, fun i hi => ?_, fun _ _ => rfl, l, .inl ⟨rfl, rfl⟩, segs, [],
      hloaded.layout, hpurged, hentries⟩
    obtain rfl := ok.inj hi
    refine ⟨l, ?_, segs, hloaded, hpurged, hentries⟩
    rw [← hpurged] at hpast
    exact (if_pos hpast).mpr ⟨rfl, rfl⟩
  · rw [← hpurged] at hpast
    have hmoved : ∀ l' : Log, l'.purged = some id →
        l'.entries = (liveEntries d.lastPurged segs).filter (fun e => id.index < e.logId.index) →
        Log.Purged id l l' := by
      intro l' hl' hes
      rw [← hentries] at hes
      exact (if_neg hpast).mpr ⟨hl', hes⟩
    refine ⟨.ok inner', ops, hrun, fun i hi => ?_, fun e he => (by cases he), hto.safe.mono ?_⟩
    · obtain rfl := ok.inj hi
      refine ⟨hto.loaded.layout.log, hmoved _ hto.purged ?_, hto.loaded.represents⟩
      refine Eq.trans ?_ hto.log
      rw [← hto.purged]
      rfl
    · rintro _ (hstores | ⟨_, hstores, hP⟩)
      · obtain ⟨l', hrep, hl', hes⟩ := hstores.represents
        exact ⟨l', .inl ⟨hl'.trans hpurged.symm, hes.trans hentries.symm⟩, hrep⟩
      · obtain ⟨l', hrep, hl', hes⟩ := hstores.represents
        exact ⟨l', .inr (hmoved l' hl' (hes.trans hP)), hrep⟩

end

def Guarded (inner : Inner) (op : Op) : Prop := op.Promised inner ∧ op.Continues inner

lemma op_refines (h : Represents env (.running inner d) l)
    (hsize : SEGMENT_HEADER < env.segmentBytes) (hg : Guarded inner op) :
    Refines env op inner d l := by
  cases op with
  | append => exact append_refines h hsize hg.1 hg.2
  | truncateFrom fromIndex => exact truncateFrom_refines h fromIndex
  | purgeThrough => exact purgeThrough_refines h hg.1

/-- **Each step of a node is a step of its log.** -/
lemma step_refines (hsize : SEGMENT_HEADER < env.segmentBytes)
    (h : Step env Guarded event node node') (hl : Represents env node l) :
    ∃ l', Log.Step event l l' ∧ Represents env node' l' := by
  cases h with
  | done hg hrun =>
    obtain ⟨r, ops, hop, hok, -, -⟩ := op_refines hl hsize hg
    obtain ⟨rfl, rfl⟩ := Prod.mk.inj (hop.symm.trans hrun)
    rw [after_durably]
    exact hok _ rfl
  | refused hg hrun =>
    obtain ⟨r, ops, hop, -, herr, -⟩ := op_refines hl hsize hg
    obtain ⟨rfl, rfl⟩ := Prod.mk.inj (hop.symm.trans hrun)
    rw [after_durably, herr _ rfl]
    exact ⟨l, ⟨rfl, rfl⟩, hl⟩
  | crashed hg hcrash =>
    obtain ⟨r, ops, hop, -, -, hsafe⟩ := op_refines hl hsize hg
    rw [hop] at hcrash
    have hafter := Device.crashSafe_sound hsafe hcrash
    exact hafter
  | stopped =>
    obtain ⟨segs, hloaded, hpurged, hentries⟩ := hl
    exact ⟨l, ⟨rfl, rfl⟩, segs, [], hloaded.layout, hpurged, hentries⟩
  | opened hopen =>
    obtain ⟨segs, junk, hlayout, hpurged, hentries⟩ := hl
    obtain ⟨inner, hspec, hloaded⟩ := openInner_spec hlayout
    obtain ⟨hinner, rfl⟩ := Prod.mk.inj (hspec.symm.trans hopen)
    obtain rfl := ok.inj hinner
    have hkept := (cutJunk_spec hlayout).2.1
    rw [after_durably]
    exact ⟨l, ⟨rfl, rfl⟩, segs, hloaded, hpurged.trans hkept.symm, by rw [hkept]; exact hentries⟩
  | crashedOpening hcrash =>
    obtain ⟨segs, junk, hlayout, hpurged, hentries⟩ := hl
    obtain ⟨inner, hspec, -⟩ := openInner_spec hlayout
    rw [hspec] at hcrash
    obtain ⟨l', hrep, hl', hes⟩ :=
      (Device.crashSafe_sound (cutJunk_spec hlayout).2.2 hcrash).represents
    exact ⟨l', ⟨hl'.trans hpurged.symm, hes.trans hentries.symm⟩, hrep⟩

/-- **The log store refines the abstract log.** -/
lemma run_refines (hsize : SEGMENT_HEADER < env.segmentBytes)
    (h : Run env Guarded events node) : ∃ l, Log.Run events l ∧ Represents env node l := by
  induction h with
  | start => exact ⟨Log.empty, .start, [], [], layout_blank, rfl, rfl⟩
  | next _ hstep ih =>
    obtain ⟨l, hrun, hrep⟩ := ih
    obtain ⟨l', hl', hrep'⟩ := step_refines hsize hstep hrep
    exact ⟨l', hrun.next hl', hrep'⟩

lemma Represents.exposes (h : Represents env (.running inner d) l) : Exposes env inner d l := by
  obtain ⟨_, hloaded, hpurged, hentries⟩ := h
  refine ⟨?_, ?_⟩
  · rw [hpurged, hentries]
    exact hloaded.exposes.state
  · rw [hentries]
    exact hloaded.exposes.ranges

lemma Represents.consistent (h : Represents env (.running inner d) l)
    (hrun : Log.Run events l) : Consistent env events inner d :=
  ⟨l, h.exposes, fun _ he => hrun.kept he, fun _ he => hrun.fresh he⟩

/-- **The log store is crash consistent** in every history whose appends go right behind what the
segments hold. -/
theorem crash_consistent (hsize : SEGMENT_HEADER < env.segmentBytes) {events : List Event}
    {node : Node} (h : Run env Guarded events node) : CrashConsistent env events node := by
  obtain ⟨_, hrun, hrep⟩ := run_refines hsize h
  cases node with
  | running => exact hrep.consistent hrun
  | down =>
    obtain ⟨segs, _, hlayout, hpurged, hentries⟩ := hrep
    obtain ⟨inner, hopen, hloaded⟩ := openInner_spec hlayout
    have hkept := (cutJunk_spec hlayout).2.1
    refine ⟨inner, _, hopen, ?_⟩
    rw [after_durably]
    exact Represents.consistent ⟨segs, hloaded, hpurged.trans hkept.symm, by rw [hkept]; exact hentries⟩ hrun

/-- In every history, a node that crashes inside an operation opens again, and shows what it showed
before with that operation done in part. -/
def RecoversInPart (env : Env) : Prop :=
  ∀ events inner d op d', Run env Guarded events (.running inner d) → Guarded inner op →
    (device env).CrashesTo (op.run env inner).2 d d' →
    ∃ l l' inner' trace, Exposes env inner d l ∧ openInner env d' = (.ok inner', trace) ∧
      Exposes env inner' (after env trace d') l' ∧ Log.Step (.crashed op) l l'

/-- **An interrupted operation is done in part**: of a batch a front part is appended, a truncation
leaves a front part with all it has to leave, a purge is done or not. -/
theorem recoversInPart (hsize : SEGMENT_HEADER < env.segmentBytes) : RecoversInPart env := by
  intro events inner d op d' hrun hg hcrash
  obtain ⟨l, hl, hrep⟩ := run_refines hsize hrun
  obtain ⟨l₁, hstep, hdown⟩ := step_refines hsize (.crashed hg hcrash) hrep
  obtain ⟨segs, junk, hlayout, -⟩ := id hdown
  obtain ⟨inner', hopen, -⟩ := openInner_spec hlayout
  obtain ⟨l', hsame, hup⟩ := step_refines hsize (.opened hopen) hdown
  refine ⟨l, l', inner', _, hrep.exposes, hopen, hup.exposes, ?_⟩
  obtain ⟨hpurged, hentries⟩ := hsame
  cases op <;> simpa only [Log.Step, Log.Purged, hpurged, hentries] using hstep

/-! ## A crash inside a purge -/

namespace Scenario

def store : Env := ⟨fun _ => 0, fun _ => "log.seg", DEFAULT_SEGMENT_BYTES⟩

def entry (index : ℕ) : LogEntry := ⟨⟨1, index⟩, []⟩

/-- The store a call returned. -/
def okInner : Except StorageError Inner × Trace → Inner
  | (.ok inner, _) => inner
  | (.error _, _) => ⟨[], .empty, none⟩

def isOk : Except StorageError Inner × Trace → Bool
  | (.ok _, _) => true
  | (.error _, _) => false

lemma eq_ok (h : isOk r = true) : r = (.ok (okInner r), r.2) := by
  obtain ⟨r, _⟩ := r
  cases r with
  | ok => rfl
  | error => cases h

variable (index : ℕ)

def first : Inner × Disk := (okInner (openInner store Disk.blank), Disk.blank)

def appended : Inner × Disk :=
  (okInner (append store first.1 [entry 1]), after store (append store first.1 [entry 1]).2 first.2)

/-- A purge through `index` has moved the marker when the node crashes. -/
def marked : Disk := { appended.2 with lastPurged := some ⟨1, index⟩ }

def reopened : Inner × Disk :=
  (okInner (openInner store (marked index)), after store (openInner store (marked index)).2 (marked index))

def continued : Disk :=
  after store (append store (reopened index).1 [entry (index + 1)]).2 (reopened index).2

def events : List Event :=
  [.opened, .done (.append [entry 1]), .crashed (.purgeThrough ⟨1, index⟩), .opened,
    .done (.append [entry (index + 1)]), .stopped]

lemma append_promised (hindex : index < 2 ^ 64) (h : ∀ p ∈ inner.lastPurged, index = p.index + 1) :
    (Op.append [entry index]).Promised inner := by
  intro e he
  obtain rfl : entry index = e := Option.some.inj he
  refine ⟨⟨rfl, trivial⟩, fun x hx => ?_, fun _ => h⟩
  rw [mem_singleton.1 hx]
  exact ⟨by simp [entry], hindex, by simp [entry]⟩

lemma purge_promised : (Op.purgeThrough ⟨1, index⟩).Promised appended.1 := by
  intro l hl
  have hhead : appended.1.index.entries.head?.map (·.1) = some 1 := by decide +kernel
  rw [Option.mem_def.1 hl] at hhead
  have hone : l.1 = 1 := Option.some.inj hhead
  rw [hone]
  exact Nat.le_add_left 1 index

lemma crashes : (device store).CrashesTo (purgeThrough store appended.1 ⟨1, index⟩).2 appended.2
    (marked index) := by
  have hnone : appended.1.lastPurged = none := by decide +kernel
  rw [purgeThrough, hnone]
  exact ⟨2, .nil _⟩

lemma run {guard : Inner → Op → Prop} (happend : guard first.1 (.append [entry 1]))
    (hpurge : guard appended.1 (.purgeThrough ⟨1, index⟩))
    (hopens : isOk (openInner store (marked index)))
    (hnext : guard (reopened index).1 (.append [entry (index + 1)]))
    (hacked : isOk (append store (reopened index).1 [entry (index + 1)])) :
    Run store guard (events index) (.down (continued index)) := by
  have h₁ : Run store guard [.opened] (.running first.1 first.2) :=
    Run.start.next (.opened (eq_ok (by decide +kernel)))
  have h₂ : Run store guard [.opened, .done (.append [entry 1])] (.running appended.1 appended.2) :=
    h₁.next (.done happend (eq_ok (by decide +kernel)))
  have h₃ := h₂.next (.crashed hpurge (crashes index))
  have h₄ := h₃.next (.opened (eq_ok hopens))
  have h₅ := h₄.next (.done hnext (eq_ok hacked))
  exact h₅.next .stopped

end Scenario

theorem recoversInPart_default : RecoversInPart Scenario.store := recoversInPart (by decide)

/-- **An entry appended after a crash inside a purge is there** when the purge did not go past the
entries on the device. -/
theorem crash_consistent_recovered :
    CrashConsistent Scenario.store (Scenario.events 1) (.down (Scenario.continued 1)) := by
  refine crash_consistent (by decide) (Scenario.run 1 ⟨?_, ?_⟩
    ⟨Scenario.purge_promised 1, trivial⟩ (by decide +kernel) ⟨?_, ?_⟩ (by decide +kernel))
  · exact Scenario.append_promised 1 (by decide) (by decide +kernel)
  · decide +kernel
  · exact Scenario.append_promised 2 (by decide) (by decide +kernel)
  · decide +kernel

/-- **An acknowledged append is lost**: a purge through 3 of a log that ends at 1 is interrupted
before it removes the segment, 4 is appended behind 1, and opening cuts it off as torn. -/
theorem appended_entry_lost :
    Run Scenario.store (fun inner op => op.Promised inner) (Scenario.events 3)
        (.down (Scenario.continued 3)) ∧
      ¬ CrashConsistent Scenario.store (Scenario.events 3) (.down (Scenario.continued 3)) := by
  constructor
  · refine Scenario.run 3 ?_ (Scenario.purge_promised 3) (by decide +kernel) ?_ (by decide +kernel)
    · exact Scenario.append_promised 1 (by decide) (by decide +kernel)
    · exact Scenario.append_promised 4 (by decide) (by decide +kernel)
  · rintro ⟨inner, trace, hopen, l, hexposes, hkept, -⟩
    have hnone : (logState (Scenario.okInner (openInner Scenario.store (Scenario.continued 3)))).lastLog =
        none := by decide +kernel
    rw [hopen] at hnone
    have hlast := congrArg LogState.lastLog hexposes.state
    rw [show Scenario.okInner (.ok inner, trace) = inner from rfl] at hnone
    rw [hnone] at hlast
    have hnil : l.entries = [] := List.getLast?_eq_none_iff.1 (Option.map_eq_none_iff.1 hlast.symm)
    have hmem := hkept (Scenario.entry 4)
      ⟨[.opened, .done (.append [Scenario.entry 1]), .crashed (.purgeThrough ⟨1, 3⟩), .opened],
        [Scenario.entry 4], [.stopped], rfl, mem_singleton_self _, by simp [Event.Drops]⟩
    rw [hnil] at hmem
    cases hmem

end Fluree.Raft.LogStore
