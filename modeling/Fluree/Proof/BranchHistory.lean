import Fluree.Api.MergeCopy
import Fluree.Proof.MergeBase
import Mathlib.Data.List.TakeWhile

/-!
# Branch histories

A history is a commit graph whose commits carry flakes. The facts of a head are what the commits of
its first-parent line leave asserted, and a stop on the transaction time cuts the line in two: the
commits above it, and the facts before them.

* `range_of_segment`: a stop at a commit of the line cuts it there.
-/

namespace Fluree.Branch

open Chain Lib Lib.Changes List

variable {Cid Value : Type} [DecidableEq Cid] [DecidableEq Value]

/-- A commit graph with flakes; transaction times start at 1. -/
structure History (Cid Value : Type) [DecidableEq Cid] [DecidableEq Value] extends
    CommitGraph Cid where
  flakes : Cid → List (Change Value)
  positive : ∀ c ∈ commits, 0 < (envelope c).t

/-- A history in which no commit both asserts and retracts one fact. Staging cancels such pairs;
a pushed commit may hold one. -/
structure CleanHistory (Cid Value : Type) [DecidableEq Cid] [DecidableEq Value] extends
    History Cid Value where
  noClash : ∀ c ∈ commits, NoClash (flakes c)

namespace History

variable (H : History Cid Value)

def commit (c : Cid) : Commit Cid Value := ⟨H.envelope c, H.flakes c⟩

def store : CommitStore Cid Value := fun c => if c ∈ H.commits then some (H.commit c) else none

lemma envelopes_store : H.store.envelopes = H.toCommitGraph.store := by
  funext c
  simp only [CommitStore.envelopes, store, CommitGraph.store]
  split <;> rfl

variable {H}

variable {c d : Cid} {l : List Cid} {stop : ℤ} {key : ConflictKey}

lemma load_eq (h : c ∈ H.commits) : loadCommitById H.store c = .ok (H.commit c) := by
  rw [loadCommitById, show H.store c = some (H.commit c) from if_pos h]

/-! ## The line of a head -/

open Classical in
variable (H) in
/-- The first-parent line of a head down to genesis, newest first. -/
noncomputable def line (c : Cid) : List Cid :=
  if h : c ∈ H.commits then (CommitGraph.exists_line h).choose else []

lemma line_segment (h : c ∈ H.commits) : H.Segment (some c) (H.line c) none := by
  rw [line, dif_pos h]
  exact (CommitGraph.exists_line h).choose_spec

lemma segment_unique (hl : H.Segment x l none) (hm : H.Segment x m none) : l = m := by
  rcases hl.comparable hm with ⟨k, rfl, hk⟩ | ⟨k, rfl, hk⟩ <;>
    rw [hk.from_none.1, append_nil]

lemma line_eq (h : c ∈ H.commits) (hl : H.Segment (some c) l none) :
    H.line c = l := segment_unique (line_segment h) hl

lemma line_eq_append (hc : c ∈ H.commits) (hd : d ∈ H.commits)
    (hl : H.Segment (some c) l (some d)) : H.line c = l ++ H.line d :=
  line_eq hc (hl.trans (line_segment hd))

lemma exists_line_eq_cons (h : c ∈ H.commits) : ∃ rest, H.line c = c :: rest := by
  have hseg := line_segment h
  generalize H.line c = l at hseg
  cases hseg with
  | cons => exact ⟨_, rfl⟩

lemma mem_of_mem_line (hc : c ∈ H.commits) (hd : d ∈ H.line c) : d ∈ H.commits :=
  CommitGraph.Reach.mem ((line_segment hc).onLine_of_mem hd).reach hc

/-! ## Cutting the line at a time -/

variable (H) in
noncomputable def range (c : Cid) (stop : ℤ) : List Cid :=
  (H.line c).takeWhile fun d => decide (stop < H.t d)

variable (H) in
noncomputable def batches (c : Cid) (stop : ℤ) : List (List (Change Value)) :=
  (H.range c stop).reverse.map H.flakes

variable (H) in
noncomputable def before (c : Cid) (stop : ℤ) : List (FactKey Value) :=
  replay [] (((H.line c).dropWhile fun d => decide (stop < H.t d)).reverse.map H.flakes)

variable (H) in
noncomputable def facts (c : Cid) : List (FactKey Value) :=
  replay [] ((H.line c).reverse.map H.flakes)

/-- **The facts of a head** are those before a stop with the commits above it replayed. -/
lemma facts_eq_replay (c : Cid) (stop : ℤ) :
    H.facts c = replay (H.before c stop) (H.batches c stop) := by
  rw [facts, before, batches, range, ← replay_append, ← map_append, ← reverse_append,
    takeWhile_append_dropWhile]

section

variable (hc : c ∈ H.commits)
include hc

lemma range_zero : H.range c 0 = H.line c := by
  rw [range, takeWhile_eq_self_iff]
  exact fun d hd => decide_eq_true (H.positive d (mem_of_mem_line hc hd))

lemma line_pairwise : (H.line c).Pairwise fun a b => H.t b < H.t a :=
  (line_segment hc).pairwise fun a ha => by cases ha; exact hc

lemma mem_range : d ∈ H.range c stop ↔ d ∈ H.line c ∧ stop < H.t d := by
  have hline := line_pairwise hc
  rw [range]
  generalize H.line c = l at hline ⊢
  induction l with
  | nil => simp
  | cons a l ih =>
    obtain ⟨ha, hl⟩ := pairwise_cons.1 hline
    by_cases hstop : stop < H.t a
    · rw [takeWhile_cons_of_pos (by simpa using hstop), mem_cons, mem_cons]
      constructor
      · rintro (rfl | hd)
        · exact ⟨.inl rfl, hstop⟩
        · exact ⟨.inr ((ih hl).1 hd).1, ((ih hl).1 hd).2⟩
      · exact fun ⟨hd, hlt⟩ => hd.imp id fun hd => (ih hl).2 ⟨hd, hlt⟩
    · rw [takeWhile_cons_of_neg (by simpa using hstop)]
      refine ⟨fun h => (nomatch h), fun ⟨hd, hlt⟩ => ?_⟩
      rcases mem_cons.1 hd with rfl | hd
      · exact absurd hlt hstop
      · exact absurd (hlt.trans (ha d hd)) hstop

lemma range_of_segment (hd : d ∈ H.commits)
    (hl : H.Segment (some c) l (some d)) : H.range c (H.t d) = l := by
  have habove : ∀ x ∈ l, decide (H.t d < H.t x) = true := fun x hx =>
    decide_eq_true (hl.lt (fun a ha => by cases ha; exact hc) hx)
  obtain ⟨_, hrest⟩ := exists_line_eq_cons hd
  rw [range, line_eq_append hc hd hl, takeWhile_append_of_pos habove, hrest,
    takeWhile_cons_of_neg (by simp), append_nil]

lemma before_of_segment (hd : d ∈ H.commits)
    (hl : H.Segment (some c) l (some d)) : H.before c (H.t d) = H.facts d := by
  have hcut := takeWhile_append_dropWhile (p := fun x => decide (H.t d < H.t x)) (l := H.line c)
  have htake : (H.line c).takeWhile (fun x => decide (H.t d < H.t x)) = l :=
    range_of_segment hc hd hl
  rw [htake] at hcut
  have hdrop : (H.line c).dropWhile (fun x => decide (H.t d < H.t x)) = H.line d :=
    append_cancel_left (hcut.trans (line_eq_append hc hd hl))
  rw [before, facts, hdrop]

end

/-! ## The walk -/

lemma walk_from : ∀ {next : Option Cid}
    {walked : List (Cid × Commit Cid Value)}, H.Segment next l none → (∀ x ∈ next, x ∈ H.commits) →
    (∀ child ∈ walked.getLast?, ∀ x ∈ next, H.t x < child.2.t) →
    Returns (loop (fun _ => lineageTurn H.store stop) · (next, walked))
      (.ok (walked ++ (l.takeWhile fun d => decide (stop < H.t d)).map fun d => (d, H.commit d))) := by
  induction l with
  | nil =>
    intro next walked hseg _ _
    obtain rfl := CommitGraph.Segment.nil_iff.1 hseg
    rw [takeWhile_nil, map_nil, append_nil]
    exact Returns.leave (returns_of_eq fun _ => rfl)
  | cons c l ih =>
    intro next walked hseg hmem hchild
    obtain ⟨rfl, hrest⟩ := CommitGraph.Segment.cons_iff.1 hseg
    have hc : c ∈ H.commits := hmem c rfl
    by_cases hstop : H.t c ≤ stop
    · rw [takeWhile_cons_of_neg (by simpa using hstop), map_nil, append_nil]
      refine Returns.leave (returns_of_eq fun _ => ?_)
      show (loadCommitById H.store c >>= visitLineage stop walked c) = _
      rw [load_eq hc]
      exact if_pos hstop
    · have hnext : Returns (fun _ => lineageTurn H.store stop (some c, walked))
          (.ok (.again (if stop < H.t c - 1 then H.firstParent c else none,
            walked ++ [(c, H.commit c)]))) := by
        refine returns_of_eq fun _ => ?_
        have hnone : walked.getLast?.filter (fun child => decide (child.2.t ≤ (H.commit c).t)) =
            none := by
          rw [Option.filter_eq_none_iff]
          intro child hlast
          rw [decide_eq_true_eq]
          exact not_le.2 (hchild child hlast c rfl)
        show (loadCommitById H.store c >>= visitLineage stop walked c) = _
        rw [load_eq hc]
        show visitLineage stop walked c (H.commit c) = _
        rw [visitLineage, if_neg (show ¬ (H.commit c).t ≤ stop from hstop)]
        rw [hnone]
        rfl
      rw [takeWhile_cons_of_pos (by simpa using hstop), map_cons, append_cons]
      refine hnext.again ?_
      by_cases hlow : stop < H.t c - 1
      · rw [if_pos hlow]
        refine ih hrest (fun x hx => H.closed c hc x (mem_of_mem_head? hx)) ?_
        intro child hlast x hx
        rw [List.getLast?_concat] at hlast
        cases hlast
        exact H.decreasing c hc x hx
      · -- the parent is below the stop, so the walk of the rest of the line is empty
        have hempty : l.takeWhile (fun d => decide (stop < H.t d)) = [] := by
          cases l with
          | nil => rfl
          | cons p =>
            have hp := H.decreasing c hc p (CommitGraph.Segment.cons_iff.1 hrest).1
            refine takeWhile_cons_of_neg ?_
            have : H.t p < H.t c := hp
            simp only [decide_eq_true_eq]
            omega
        rw [if_neg hlow, hempty, map_nil, append_nil]
        exact Returns.leave (returns_of_eq fun _ => rfl)

/-- **The walk** returns the commits of the line above the stop. -/
lemma walkFirstParent_returns (hc : c ∈ H.commits) (stop : ℤ) :
    Returns (walkFirstParent H.store c stop)
      (.ok ((H.range c stop).map fun d => (d, H.commit d))) :=
  walk_from (line_segment hc) (fun x hx => by cases hx; exact hc) (fun _ h => (nomatch h))

/-! ## What the operations read -/

omit [DecidableEq Cid] [DecidableEq Value] in
lemma steady_walkFirstParent (store : CommitStore Cid Value) (c : Cid) (stop : ℤ) :
    Steady (walkFirstParent store c stop) := steady_loop _ _

omit [DecidableEq Cid] [DecidableEq Value] in
lemma steady_computeDeltaKeys (store : CommitStore Cid Value) (c : Cid) (stop : ℤ) :
    Steady (computeDeltaKeys store c stop) :=
  (steady_walkFirstParent store c stop).bind fun _ => steady_const _

omit [DecidableEq Cid] in
lemma steady_loadState (store : CommitStore Cid Value) (c : Cid) : Steady (loadState store c) :=
  (steady_walkFirstParent store c 0).bind fun _ => steady_const _

omit [DecidableEq Cid] [DecidableEq Value] in
lemma steady_scanBranchCommits (store : CommitStore Cid Value) (c : Cid) (stop : ℤ)
    (delta : List ConflictKey) : Steady (scanBranchCommits store c stop delta) :=
  (steady_walkFirstParent store c stop).bind fun _ => steady_const _

omit [DecidableEq Cid] in
lemma steady_collectCommitData (store : CommitStore Cid Value) (c : Cid) (stop : ℤ) :
    Steady (collectCommitData store c stop) :=
  (steady_walkFirstParent store c stop).bind fun _ => steady_const _

variable (H) in
noncomputable def deltaKeys (c : Cid) (stop : ℤ) : List ConflictKey :=
  (((H.range c stop).map fun d => (d, H.commit d)).flatMap fun d => keysOf d.2.flakes).dedup

lemma computeDeltaKeys_returns (hc : c ∈ H.commits) (stop : ℤ) :
    Returns (computeDeltaKeys H.store c stop) (.ok (H.deltaKeys c stop)) :=
  (walkFirstParent_returns hc stop).bind (returns_of_eq fun _ => rfl)

omit [DecidableEq Value] in
lemma mem_keysOf {flakes : List (Change Value)} :
    key ∈ keysOf flakes ↔ ∃ f op, (f, op) ∈ flakes ∧ f.conflictKey = key := by
  simp [keysOf]

lemma mem_deltaKeys :
    key ∈ H.deltaKeys c stop ↔ ∃ batch ∈ H.batches c stop, key ∈ keysOf batch := by
  simp only [deltaKeys, mem_dedup, mem_flatMap, mem_map, batches, mem_reverse]
  constructor <;>
  · rintro ⟨_, ⟨d, hd, rfl⟩, hkey⟩
    exact ⟨_, ⟨d, hd, rfl⟩, hkey⟩

variable (H) in
noncomputable def conflicts (s b : Cid) (stop : ℤ) : List ConflictKey :=
  conflictsOf (H.deltaKeys s stop) (H.deltaKeys b stop)

lemma mem_conflicts :
    key ∈ H.conflicts s b stop ↔ key ∈ H.deltaKeys s stop ∧ key ∈ H.deltaKeys b stop := by
  rw [conflicts, conflictsOf, mem_filter, decide_eq_true_iff]

lemma lastOp_eq_none_of_not_mem {f : FactKey Value} (h : f.conflictKey ∉ H.deltaKeys c stop) :
    lastOp (H.batches c stop) f = none :=
  lastOp_eq_none.2 fun batch hbatch op hmem =>
    h (mem_deltaKeys.2 ⟨batch, hbatch, mem_keysOf.2 ⟨f, op, hmem, rfl⟩⟩)

lemma noClash_of_mem_batches {H : CleanHistory Cid Value} (hc : c ∈ H.commits)
    (h : batch ∈ H.batches c stop) : NoClash batch := by
  obtain ⟨d, hd, rfl⟩ := mem_map.1 h
  exact H.noClash d (mem_of_mem_line hc ((takeWhile_sublist _).subset (mem_reverse.1 hd)))

/-- **The net change of a range** says about a fact what the range says last. -/
lemma collectCommitData_returns {H : CleanHistory Cid Value} (hc : c ∈ H.commits) (stop : ℤ) :
    ∃ net, Returns (collectCommitData H.store c stop) (.ok net) ∧
      (∀ f, opIn net f = lastOp (H.batches c stop) f) ∧ NoClash net := by
  have hbatches : ((((H.range c stop).map fun d => (d, H.commit d)).reverse.map (·.2)).map
      (·.flakes)) = H.batches c stop := by
    rw [batches, ← map_reverse, map_map, map_map]
    rfl
  have hmem : ∀ f op, (f, op) ∈ collectFromCommits
      (((H.range c stop).map fun d => (d, H.commit d)).reverse.map (·.2)) ↔
        lastOp (H.batches c stop) f = some op := fun f op => by
    rw [collectFromCommits, hbatches]
    exact mem_net fun batch hbatch => noClash_of_mem_batches hc hbatch
  have hclash := noClash_of_lastOp fun f op => (hmem f op).1
  refine ⟨_, (walkFirstParent_returns hc stop).bind (returns_of_eq fun _ => rfl),
    fun f => Option.ext fun op => ?_, hclash⟩
  rw [hclash.opIn_eq, hmem]

lemma foldl_applyCommit (l : List Cid) (state : LedgerState Cid Value) :
    (l.map fun d => (d, H.commit d)).foldl (fun state c => state.applyCommit c.1 c.2) state =
      { headCommitId := l.getLast?.or state.headCommitId
        t := (l.getLast?.map H.t).getD state.t
        facts := replay state.facts (l.map H.flakes) } := by
  induction l generalizing state with
  | nil => rfl
  | cons c l ih =>
    rw [map_cons, foldl_cons, ih, List.getLast?_cons]
    cases l.getLast? <;> rfl

variable (H) in
noncomputable def stateOf (c : Cid) : LedgerState Cid Value := ⟨some c, H.t c, H.facts c⟩

lemma loadState_returns (hc : c ∈ H.commits) :
    Returns (loadState H.store c) (.ok (H.stateOf c)) := by
  refine (walkFirstParent_returns hc 0).bind (returns_of_eq fun _ => ?_)
  obtain ⟨_, hrest⟩ := exists_line_eq_cons hc
  have hhead : (H.line c).head? = some c := by rw [hrest]; rfl
  rw [range_zero hc, ← map_reverse, foldl_applyCommit, List.getLast?_reverse, hhead]
  rfl

lemma facts_of_load (hc : c ∈ H.commits)
    (h : loadState H.store c n = .ok state) : H.facts c = state.facts :=
  congrArg LedgerState.facts (Except.ok.inj
    ((loadState_returns hc).unique ((steady_loadState H.store c).returns h)))

lemma deltaKeys_of_compute (hc : c ∈ H.commits) {n keys}
    (h : computeDeltaKeys H.store c stop n = .ok keys) : H.deltaKeys c stop = keys :=
  Except.ok.inj ((computeDeltaKeys_returns hc stop).unique
    ((steady_computeDeltaKeys H.store c stop).returns h))

end History

end Fluree.Branch
