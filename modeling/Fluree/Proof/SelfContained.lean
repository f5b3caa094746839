import Fluree.Api.MergeCopy
import Fluree.Lib.Guard

/-!
# Whether a merge leaves its target self-contained

The commits to copy are found by a walk over all parents that stops at the time of the common
ancestor. Times do not compare across merges: a commit that was merged into the source may be older
than the ancestor and yet unknown to the target, and it is not copied.
-/

namespace Fluree.Branch.Workspace

open Chain Lib Relation List Except

variable {Cid : Type} (w : Workspace Cid)

def Reaches (h c : Cid) : Prop := ReflTransGen (fun x y => y ∈ (w.envelope x).parents) h c

/-- `c` is reached from `h` through commits that are all above the stop. -/
def ReachesAbove (stop : ℤ) (h c : Cid) : Prop :=
  stop < (w.envelope h).t ∧
    ReflTransGen (fun x y => y ∈ (w.envelope x).parents ∧ stop < (w.envelope y).t) h c

variable (branch : String)

def Readable (c : Cid) : Prop := ∃ b ∈ w.readsFrom branch, c ∈ w.namespaces b

def headOf : Option Cid := (w.records branch).bind (·.commitHeadId)

/-- A branch reads every commit that its head reaches. -/
def SelfContained : Prop := ∀ h c, w.headOf branch = some h → w.Reaches h c → w.Readable branch c

variable {w w' : Workspace Cid} {source target : String} {h c : Cid} {stop : ℤ} {fuel : ℕ}

lemma readable_write : (w.write target l).Readable target c ↔ c ∈ l ∨ w.Readable target c := by
  have hb : ∀ b, c ∈ (w.write target l).namespaces b ↔ b = target ∧ c ∈ l ∨ c ∈ w.namespaces b := by
    intro b
    by_cases hb : b = target
    · subst hb
      simp [write]
    · simp [write, hb]
  constructor
  · rintro ⟨b, hmem, hc⟩
    exact ((hb b).1 hc).imp And.right fun hc => ⟨b, hmem, hc⟩
  · rintro (hc | ⟨b, hmem, hc⟩)
    · exact ⟨target, mem_cons_self, (hb target).2 (.inl ⟨rfl, hc⟩)⟩
    · exact ⟨b, hmem, (hb b).2 (.inr hc)⟩

variable {r : BranchRecord Cid}

lemma selfContained_setHead (hr : w.records target = some r) :
    (w.setHead target h).SelfContained target ↔ ∀ c, w.Reaches h c → w.Readable target c := by
  have hhead : (w.setHead target h).headOf target = some h := by simp [headOf, setHead, hr]
  have hread : ∀ c, (w.setHead target h).Readable target c ↔ w.Readable target c := by
    simp [Readable, readsFrom, setHead, hr]
  constructor
  · exact fun hself c hc => (hread c).1 (hself h c hhead hc)
  · intro hall h' c hh' hc
    cases hhead.symm.trans hh'
    exact (hread c).2 (hall c hc)

lemma ofWalk_eq_ok {α : Type} {x : Walk Cid α} {a : α} : ofWalk x = .ok a ↔ x = .ok a := by
  rcases x with (_ | _) | _ <;> simp [ofWalk, fail]

lemma reaches_merge (hm : (w.envelope m).parents = [t, s]) :
    w.Reaches m c ↔ c = m ∨ w.Reaches t c ∨ w.Reaches s c := by
  unfold Reaches
  rw [ReflTransGen.cases_head_iff]
  simp [hm, eq_comm]

lemma mem_of_reaches {l : List Cid} (hh : h ∈ l)
    (hclosed : ∀ x ∈ l, ∀ y ∈ (w.envelope x).parents, y ∈ l) (hc : w.Reaches h c) : c ∈ l := by
  induction hc with
  | refl => exact hh
  | tail _ hstep ih => exact hclosed _ ih _ hstep

/-! ## The walk -/

variable [DecidableEq Cid]

structure Walking (w : Workspace Cid) (stop : ℤ) (h : Cid) (s : DagWalk Cid) : Prop where
  start : h ∈ s.visited ∨ h ∈ s.frontier
  sound : ∀ e ∈ s.result, w.ReachesAbove stop h e.2
  pushed : ∀ c ∈ s.frontier, c = h ∨ ∃ e ∈ s.result, c ∈ (w.envelope e.2).parents
  found : ∀ c ∈ s.visited, stop < (w.envelope c).t → c ∈ s.result.map (·.2)
  expanded : ∀ e ∈ s.result, ∀ p ∈ (w.envelope e.2).parents, p ∈ s.visited ∨ p ∈ s.frontier

lemma load_eq_envelope (hload : loadCommitEnvelopeById (w.buildBranchedStore source) c = .ok env) :
    env = w.envelope c := by
  unfold loadCommitEnvelopeById buildBranchedStore at hload
  split at hload
  · rename_i hsome
    split at hsome
    · rw [← ok.inj hload, ← Option.some.inj hsome]
    · cases hsome
  · cases hload

/-- **One turn** keeps the state of the walk, or ends with it. -/
lemma Walking.turn {s r}
    (hs : Walking w stop h s) (hturn : dagTurn (w.buildBranchedStore source) stop s = .ok r) :
    (∃ s', r = .again s' ∧ Walking w stop h s') ∨ r = .leave s.result ∧ s.frontier = [] := by
  obtain ⟨_, frontier, visited⟩ := s
  unfold dagTurn at hturn
  cases frontier with
  | nil => exact .inr ⟨(ok.inj hturn).symm, rfl⟩
  | cons x rest =>
    left
    -- the head of the frontier leaves it for the visited commits
    have hmove : ∀ {y : Cid} {l : List Cid}, y ∈ visited ∨ y ∈ x :: rest → (∀ z ∈ rest, z ∈ l) →
        y ∈ x :: visited ∨ y ∈ l := by
      rintro y l (hy | hy) hl
      · exact .inl (mem_cons_of_mem _ hy)
      · rcases mem_cons.1 hy with rfl | hy
        · exact .inl mem_cons_self
        · exact .inr (hl y hy)
    dsimp only at hturn
    by_cases hx : x ∈ visited
    · rw [if_pos hx] at hturn
      refine ⟨_, (ok.inj hturn).symm, ?_⟩
      have hdrop : ∀ {y : Cid}, y ∈ visited ∨ y ∈ x :: rest → y ∈ visited ∨ y ∈ rest := by
        rintro y (hy | hy)
        · exact .inl hy
        · rcases mem_cons.1 hy with rfl | hy
          · exact .inl hx
          · exact .inr hy
      exact ⟨hdrop hs.start, hs.sound, fun c hc => hs.pushed c (mem_cons_of_mem _ hc), hs.found,
        fun e he p hp => hdrop (hs.expanded e he p hp)⟩
    · rw [if_neg hx] at hturn
      obtain ⟨_, hload, hturn⟩ := bind_eq_ok.1 hturn
      obtain rfl := load_eq_envelope hload
      by_cases hold : (w.envelope x).t ≤ stop
      · rw [if_pos hold] at hturn
        refine ⟨_, (ok.inj hturn).symm, hmove hs.start fun _ => id, hs.sound,
          fun c hc => hs.pushed c (mem_cons_of_mem _ hc), fun c hc hlt => ?_,
          fun e he p hp => hmove (hs.expanded e he p hp) fun _ => id⟩
        rcases mem_cons.1 hc with rfl | hc
        · omega
        · exact hs.found c hc hlt
      · rw [if_neg hold] at hturn
        have hreach : w.ReachesAbove stop h x := by
          rcases hs.pushed x mem_cons_self with rfl | ⟨e, he, hp⟩
          · exact ⟨not_le.1 hold, .refl⟩
          · obtain ⟨hh, hpath⟩ := hs.sound e he
            exact ⟨hh, hpath.tail ⟨hp, not_le.1 hold⟩⟩
        have hrest : ∀ z ∈ rest, z ∈ (w.envelope x).parents.reverse ++ rest :=
          fun _ => mem_append_right _
        refine ⟨_, (ok.inj hturn).symm, hmove hs.start hrest, fun e he => ?_, fun c hc => ?_,
          fun c hc hlt => ?_, fun e he p hp => ?_⟩
        · rcases mem_append.1 he with he | he
          · exact hs.sound e he
          · cases mem_singleton.1 he
            exact hreach
        · rcases mem_append.1 hc with hc | hc
          · exact .inr ⟨_, mem_append_right _ mem_cons_self, mem_reverse.1 hc⟩
          · exact (hs.pushed c (mem_cons_of_mem _ hc)).imp_right fun ⟨e, he, hp⟩ =>
              ⟨e, mem_append_left _ he, hp⟩
        · rw [map_append]
          rcases mem_cons.1 hc with rfl | hc
          · exact mem_append_right _ mem_cons_self
          · exact mem_append_left _ (hs.found c hc hlt)
        · rcases mem_append.1 he with he | he
          · exact hmove (hs.expanded e he p hp) hrest
          · cases mem_singleton.1 he
            exact .inr (mem_append_left _ (mem_reverse.2 hp))

/-- **The walk finds what it reaches above the stop.** -/
lemma walkDag_spec
    (hrun : walkDag (w.buildBranchedStore source) h stop fuel = .ok result) (c : Cid) :
    c ∈ result.map (·.2) ↔ w.ReachesAbove stop h c := by
  have hend : ∀ (n : ℕ) (s : DagWalk Cid), Walking w stop h s →
      loop (fun _ => dagTurn (w.buildBranchedStore source) stop) n s = .ok result →
      ∃ s, Walking w stop h s ∧ s.result = result ∧ s.frontier = [] := by
    intro n
    induction n with
    | zero => exact fun s _ hloop => by cases hloop
    | succ n ih =>
      intro s hs hloop
      rw [loop] at hloop
      cases hturn : dagTurn (w.buildBranchedStore source) stop s with
      | error => rw [hturn] at hloop; cases hloop
      | ok =>
        rw [hturn] at hloop
        rcases hs.turn hturn with ⟨s', rfl, hs'⟩ | ⟨rfl, hnil⟩
        · exact ih s' hs' hloop
        · exact ⟨s, hs, ok.inj hloop, hnil⟩
  have hinit : Walking w stop h ⟨[], [h], []⟩ :=
    ⟨.inr mem_cons_self, fun _ he => (by cases he), fun c hc => .inl (mem_singleton.1 hc),
      fun _ hc => (by cases hc), fun _ he => by cases he⟩
  obtain ⟨s, hs, rfl, hnil⟩ := hend fuel _ hinit hrun
  have hvisited : ∀ {y}, y ∈ s.visited ∨ y ∈ s.frontier → y ∈ s.visited := fun hy =>
    hy.resolve_right (hnil ▸ not_mem_nil)
  constructor
  · intro hc
    obtain ⟨e, he, rfl⟩ := mem_map.1 hc
    exact hs.sound e he
  · rintro ⟨hh, hpath⟩
    induction hpath with
    | refl => exact hs.found h (hvisited hs.start) hh
    | @tail x y _ hstep ih =>
      obtain ⟨e, he, rfl⟩ := mem_map.1 ih
      exact hs.found y (hvisited (hs.expanded e he y hstep.1)) hstep.2

/-! ## The merge -/

/-- The time of the common ancestor of the heads, or 0 if the target has no head. -/
def StopsAt (w : Workspace Cid) (source target : String) (fuel : ℕ) (s : Cid) (stop : ℤ) : Prop :=
  match w.headOf target with
  | none => stop = 0
  | some t => ∃ a, findCommonAncestor (w.buildBranchedStore source) s t fuel = .ok a ∧ a.t = stop

lemma copyCommitChain_spec (hrun : w.copyCommitChain source target h stop fuel = .ok w') :
    ∃ l, w' = w.write target l ∧ ∀ c, c ∈ l ↔ w.ReachesAbove stop h c := by
  obtain ⟨_, hdag, hrun⟩ := bind_eq_ok.1 hrun
  refine ⟨_, (ok.inj hrun).symm, fun c => ?_⟩
  cases hwalk : walkDag (w.buildBranchedStore source) h stop fuel with
  | error e => cases e <;> rw [collectDagCids, hwalk] at hdag <;> cases hdag
  | ok result =>
    rw [collectDagCids, hwalk] at hdag
    rw [← walkDag_spec hwalk c, ← ok.inj hdag]
    exact ((perm_insertionSort _ result).map _).mem_iff

lemma setHead_selfContained_iff {s h : Cid} {w₁ : Workspace Cid} (hs : w.headOf source = some s)
    (hr : w₁.records target = some r)
    (hstop : ∀ stop', w.StopsAt source target fuel s stop' ↔ stop' = stop)
    (hall : (∀ c, w₁.Reaches h c → w₁.Readable target c) ↔
      ∀ c, w.Reaches s c → w.ReachesAbove stop s c ∨ w.Readable target c) :
    (w₁.setHead target h).SelfContained target ↔ ∀ s stop c, w.headOf source = some s →
      w.StopsAt source target fuel s stop → w.Reaches s c →
        w.Readable target c ∨ w.ReachesAbove stop s c := by
  rw [selfContained_setHead hr, hall, hs]
  constructor
  · rintro hall _ _ c ⟨⟩ hat hc
    rw [(hstop _).1 hat]
    exact (hall c hc).symm
  · exact fun hall c hc => (hall s stop c rfl ((hstop stop).2 rfl) hc).symm

lemma forward_selfContained_iff {s : Cid} (hs : w.headOf source = some s)
    (hr : w.records target = some r)
    (hstop : ∀ stop', w.StopsAt source target fuel s stop' ↔ stop' = stop) (hrun : (do
      let w ← w.copyCommitChain source target s stop fuel
      .ok (w.setHead target s)) = .ok w') :
    w'.SelfContained target ↔ ∀ s stop c, w.headOf source = some s →
      w.StopsAt source target fuel s stop → w.Reaches s c →
        w.Readable target c ∨ w.ReachesAbove stop s c := by
  obtain ⟨_, hcopy, hrun⟩ := bind_eq_ok.1 hrun
  obtain ⟨_, rfl, hl⟩ := copyCommitChain_spec hcopy
  rw [← ok.inj hrun]
  refine setHead_selfContained_iff hs hr hstop ?_
  simp only [readable_write, hl]
  exact Iff.rfl

/-- **When a merge leaves its target self-contained.** The target read all that its head reached,
and a merge commit is new and has the two heads for parents. After the merge the target reads all
that its new head reaches exactly if each commit that the source's head reaches was readable for the
target before, or is reached through commits that are all above the common ancestor. -/
theorem merge_selfContained_iff (commitMerge : Cid → Cid → Api Cid Cid) (w w' : Workspace Cid)
    (source target : String) (fuel : ℕ) (hparents : ∀ t s m, commitMerge t s = .ok m →
      (w.envelope m).parents = [t, s] ∧ ¬ w.Reaches s m) (htarget : w.SelfContained target)
    (hrun : mergeBranch commitMerge w source target fuel = .ok w') :
    w'.SelfContained target ↔ ∀ s stop c, w.headOf source = some s →
      w.StopsAt source target fuel s stop → w.Reaches s c →
        w.Readable target c ∨ w.ReachesAbove stop s c := by
  unfold mergeBranch at hrun
  split at hrun
  · cases hrun
  rename_i sourceRecord hsource
  split at hrun
  · cases hrun
  split at hrun
  · cases hrun
  split at hrun
  · cases hrun
  · cases hrun
  · rename_i sources sourceHead hr hs
    have hs : w.headOf source = some sourceHead := by simp [headOf, hsource, hs]
    exact forward_selfContained_iff hs hr (by simp [StopsAt, headOf, hr]) hrun
  · rename_i targetHead sources sourceHead hr hs
    have hs : w.headOf source = some sourceHead := by simp [headOf, hsource, hs]
    obtain ⟨a, ha, hrun⟩ := bind_eq_ok.1 hrun
    have hstop : ∀ stop', w.StopsAt source target fuel sourceHead stop' ↔ stop' = a.t := by
      simp [StopsAt, headOf, hr, ofWalk_eq_ok.1 ha, eq_comm]
    split at hrun
    · exact forward_selfContained_iff hs hr hstop hrun
    obtain ⟨m, hm, hrun⟩ := bind_eq_ok.1 hrun
    obtain ⟨w₁, hcopy, hrun⟩ := bind_eq_ok.1 hrun
    obtain ⟨l, rfl, hl⟩ := copyCommitChain_spec hcopy
    rw [← ok.inj hrun]
    refine setHead_selfContained_iff hs hr hstop ?_
    have hreach : ∀ c, ((w.write target l).write target [m]).Reaches m c ↔
        c = m ∨ w.Reaches targetHead c ∨ w.Reaches sourceHead c := fun c =>
      reaches_merge (hparents _ _ _ hm).1
    have hbefore : ∀ c, w.Reaches targetHead c → w.Readable target c := fun c =>
      htarget targetHead c (by simp [headOf, hr])
    simp only [hreach, readable_write, hl, mem_singleton]
    constructor
    · intro hall c hc
      rcases hall c (.inr (.inr hc)) with rfl | h
      · exact absurd hc (hparents _ _ _ hm).2
      · exact h
    · rintro hall c (rfl | hc | hc)
      · exact .inl rfl
      · exact .inr (.inr (hbefore c hc))
      · exact .inr (hall c hc)

/-- `main` has five commits, `x` one on top of the first, and `dev` starts at the fifth. -/
def early : Workspace ℕ where
  envelope
    | 1 => ⟨1, []⟩
    | 6 => ⟨2, [1]⟩
    | 7 => ⟨6, [5, 6]⟩
    | n => ⟨n, [n - 1]⟩
  records
    | "main" => some ⟨some 5, []⟩
    | "x" => some ⟨some 6, ["main"]⟩
    | "dev" => some ⟨some 5, ["main"]⟩
    | _ => none
  namespaces
    | "main" => [1, 2, 3, 4, 5]
    | "x" => [6]
    | _ => []

/-- `x` merged into `dev`: commit 6 is copied, commit 7 is the merge. -/
def merged : Workspace ℕ := ((early.write "dev" [6]).write "dev" [7]).setHead "dev" 7

def mergeSeven (t s : ℕ) : Api ℕ ℕ := if t = 5 ∧ s = 6 then .ok 7 else fail (.notFound "merge")

lemma early_merge : mergeBranch mergeSeven early "x" "dev" 20 = .ok merged := by rfl

lemma merged_merge : mergeBranch mergeSeven merged "dev" "main" 20 =
    .ok ((merged.write "main" [7]).setHead "main" 7) := by
  rfl

lemma merged_main : merged.SelfContained "main" := by
  intro h c hh hc
  obtain rfl : 5 = h := Option.some.inj hh
  have hmem : c ∈ [1, 2, 3, 4, 5] := mem_of_reaches (by decide) (by decide) hc
  exact ⟨"main", mem_cons_self, hmem⟩

theorem merge_selfContained_iff_merged :
    ((merged.write "main" [7]).setHead "main" 7).SelfContained "main" ↔
      ∀ s stop c, merged.headOf "dev" = some s → merged.StopsAt "dev" "main" 20 s stop →
        merged.Reaches s c → merged.Readable "main" c ∨ merged.ReachesAbove stop s c := by
  refine merge_selfContained_iff mergeSeven merged _ "dev" "main" 20 (fun t s m hm => ?_) merged_main
    merged_merge
  unfold mergeSeven at hm
  split at hm
  · rename_i hts
    obtain ⟨rfl, rfl⟩ := hts
    cases hm
    refine ⟨rfl, fun hc => ?_⟩
    have hmem : 7 ∈ [6, 1] := mem_of_reaches (by decide) (by decide) hc
    exact absurd hmem (by decide)
  · cases hm

/-- **A merged commit is left behind**: commit 6 is older than the fifth commit of `main`, so it is
not copied when `dev` is merged into `main`, whose new head reaches it. -/
theorem old_commit_left_behind :
    mergeBranch mergeSeven early "x" "dev" 20 = .ok merged ∧ merged.SelfContained "main" ∧
      merged.SelfContained "dev" ∧ ∃ w', mergeBranch mergeSeven merged "dev" "main" 20 = .ok w' ∧
        ¬ w'.SelfContained "main" := by
  refine ⟨early_merge, merged_main, fun h c hh hc => ?_, _, merged_merge, fun hself => ?_⟩
  · obtain rfl : 7 = h := Option.some.inj hh
    have hmem : c ∈ [1, 2, 3, 4, 5, 6, 7] := mem_of_reaches (by decide) (by decide) hc
    have hread : ∀ c ∈ [1, 2, 3, 4, 5, 6, 7], ∃ b ∈ ["dev", "main"], c ∈ merged.namespaces b := by
      decide
    exact hread c hmem
  · have hread := hself 7 6 rfl (.single (by decide))
    have hnot : ¬ ∃ b ∈ ["main"],
        6 ∈ ((merged.write "main" [7]).setHead "main" 7).namespaces b := by
      decide
    exact hnot hread

end Fluree.Branch.Workspace
