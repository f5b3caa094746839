import Fluree.Lib.Numbering
import Mathlib

/-!
# Highest-first search

A search of a graph from a start vertex that always expands a heaviest vertex of its frontier.
`Through θ h e` is a path from `h` to `e` whose vertices before `e` weigh at least `θ`; the largest
such `θ` is the level of `e`. A highest-first search finds vertices by falling level:

* `Search.through`, `Search.pending`: a vertex is found at its level and not later;
* `Search.step`: one expansion.

Two searches of one graph that take turns, the one with the heavier frontier first, are compared
level by level (`Pair`). The vertices both reach are then met in the order `MetBefore`:

* `Pair.stepLeft`, `Pair.stepRight`: one expansion on either side;
* `Pair.met_left`, `Pair.met_right`: the first vertex that is found on both sides is met before
  every other one.
-/

namespace Fluree.Lib.HighestFirst

open Relation List WithTop ReflTransGen

variable {α : Type} (w : α → ℤ) (next : α → List α)

/-- A path from `h` to `e` whose vertices before `e` weigh at least `θ`. -/
def Through (θ : WithTop ℤ) : α → α → Prop :=
  ReflTransGen fun m e => θ ≤ (w m : WithTop ℤ) ∧ e ∈ next m

/-- A path from `h` to `e`. -/
def Reach : α → α → Prop := ReflTransGen fun m e => e ∈ next m

variable {w next}

variable {θ : WithTop ℤ} {h e : α}

lemma Through.mono (hθ : θ' ≤ θ) (he : Through w next θ h e) : Through w next θ' h e :=
  ReflTransGen.mono (fun _ _ hm => ⟨hθ.trans hm.1, hm.2⟩) _ _ he

lemma Through.extend (hm : Through w next θ h m) (hθ : θ ≤ (w m : WithTop ℤ))
    (he : e ∈ next m) : Through w next θ h e :=
  tail hm ⟨hθ, he⟩

lemma Through.reach (he : Through w next θ h e) : Reach next h e :=
  ReflTransGen.mono (fun _ _ hm => hm.2) _ _ he

variable (w) in
lemma Reach.exists_through (he : Reach next h e) : ∃ θ, Through w next θ h e := by
  induction he with
  | refl => exact ⟨⊤, refl⟩
  | @tail m e _ hstep ih =>
    obtain ⟨θ, hm⟩ := ih
    exact ⟨min θ (w m), (hm.mono (min_le_left _ _)).extend (min_le_right _ _) hstep⟩

/-! ## One search -/

variable (w next) in
/-- The state of a search from `h` that has expanded vertices of weight `low` and more: what it has
visited and which of that it has still to expand. -/
structure Search (h : α) (low : WithTop ℤ) (visited frontier : List α) : Prop where
  start : h ∈ visited
  sub : ∀ x ∈ frontier, x ∈ visited
  /-- What is visited is reached without going below `low`. -/
  through : ∀ e ∈ visited, Through w next low h e
  expanded : ∀ m ∈ visited, m ∉ frontier → low ≤ (w m : WithTop ℤ) ∧ ∀ e ∈ next m, e ∈ visited
  /-- What is not visited cannot be reached above `low`. -/
  above : ∀ θ e, Through w next θ h e → e ∉ visited → θ ≤ low
  attained : low = ⊤ ∨ ∃ m ∈ visited, (w m : WithTop ℤ) ≤ low

namespace Search

variable {h : α} {low : WithTop ℤ} {visited frontier : List α}

lemma init (h : α) : Search w next h ⊤ [h] [h] where
  start := mem_singleton.2 rfl
  sub _ hx := hx
  through e he := by rw [mem_singleton.1 he]; exact refl
  expanded m hm hmf := absurd hm hmf
  above _ _ _ _ := le_top
  attained := .inl rfl

variable {θ : WithTop ℤ} {e : α}

/-- **A vertex not yet found** hides behind a vertex of the frontier of at least its level. -/
lemma pending (s : Search w next h low visited frontier) (he : Through w next θ h e)
    (hnew : e ∉ visited) : ∃ y ∈ frontier, θ ≤ (w y : WithTop ℤ) := by
  induction he with
  | refl => exact absurd s.start hnew
  | @tail m e _ hstep ih =>
    by_cases hm : m ∈ visited
    · by_cases hmf : m ∈ frontier
      · exact ⟨m, hmf, hstep.1⟩
      · exact absurd ((s.expanded m hm hmf).2 e hstep.2) hnew
    · exact ih hm

lemma exhausted (s : Search w next h low visited []) (he : Through w next θ h e) : e ∈ visited := by
  by_contra hnew
  obtain ⟨_, hy, _⟩ := s.pending he hnew
  cases hy

/-- The level of a vertex not yet found is at most that of the next expansion. -/
lemma level_le (s : Search w next h low visited frontier)
    (hmax : ∀ y ∈ frontier, w y ≤ w x) (he : Through w next θ h e) (hnew : e ∉ visited) :
    θ ≤ min low (w x) := by
  obtain ⟨y, hy, hθ⟩ := s.pending he hnew
  exact le_min (s.above θ e he hnew) (hθ.trans (coe_le_coe.2 (hmax y hy)))

lemma reach_of_mem (s : Search w next h low visited frontier) (he : e ∈ visited) : Reach next h e :=
  (s.through e he).reach

lemma mem_of_reach (s : Search w next h low visited []) (he : Reach next h e) : e ∈ visited := by
  obtain ⟨_, he⟩ := he.exists_through w
  exact s.exhausted he

variable [DecidableEq α]

/-- **One expansion** of a heaviest vertex `x` of the frontier. -/
lemma step (s : Search w next h low visited frontier)
    (hperm : ∀ y, y ∈ frontier ↔ y = x ∨ y ∈ rest) (hmax : ∀ y ∈ frontier, w y ≤ w x)
    (hnew : addNew visited (next x) = visited ++ new) :
    Search w next h (min low (w x)) (visited ++ new) (rest ++ new) := by
  have hx : x ∈ visited := s.sub x ((hperm x).2 (.inl rfl))
  have hmem : ∀ y, y ∈ visited ++ new ↔ y ∈ visited ∨ y ∈ next x := fun y => by
    rw [← hnew, mem_addNew]
  refine ⟨mem_append_left _ s.start, ?_, ?_, ?_, ?_, ?_⟩
  · intro y hy
    rcases mem_append.1 hy with hy | hy
    · exact mem_append_left _ (s.sub y ((hperm y).2 (.inr hy)))
    · exact mem_append_right _ hy
  · intro e he
    rcases (hmem e).1 he with he | he
    · exact (s.through e he).mono (min_le_left _ _)
    · exact ((s.through x hx).mono (min_le_left _ _)).extend (min_le_right _ _) he
  · intro m hm hmf
    rw [mem_append, not_or] at hmf
    have hmv : m ∈ visited := (mem_append.1 hm).resolve_right hmf.2
    by_cases hmx : m = x
    · subst hmx
      exact ⟨min_le_right _ _, fun e he => (hmem e).2 (.inr he)⟩
    · have hmo : m ∉ frontier := fun hm => (((hperm m).1 hm).resolve_left hmx) |> hmf.1
      obtain ⟨hlow, hexp⟩ := s.expanded m hmv hmo
      exact ⟨(min_le_left _ _).trans hlow, fun e he => mem_append_left _ (hexp e he)⟩
  · intro θ e he hfresh
    have hev : e ∉ visited := fun h => hfresh (mem_append_left _ h)
    exact s.level_le hmax he hev
  · right
    rcases le_total low (w x : WithTop ℤ) with hle | hle
    · rw [min_eq_left hle]
      rcases s.attained with htop | ⟨m, hm, hlow⟩
      · exact ⟨x, mem_append_left _ hx, htop ▸ le_top⟩
      · exact ⟨m, mem_append_left _ hm, hlow⟩
    · rw [min_eq_right hle]
      exact ⟨x, mem_append_left _ hx, le_refl _⟩

end Search

/-! ## The order of meetings -/

variable (w next) in
/-- Both sides reach `e` without going below `θ`. -/
def Meets (a b : α) (θ : WithTop ℤ) (e : α) : Prop := Through w next θ a e ∧ Through w next θ b e

variable (w next) in
/-- `e` is found from `b` no earlier than from `a`. -/
def FromRight (a b e : α) : Prop := ∀ θ, Through w next θ b e → Through w next θ a e

variable (w next) in
/-- `e` is met before `e'`: at a higher level, or at the same level and found last from `a` where
`e'` is found last from `b`, or in the same search and earlier there. -/
def MetBefore (earlierA earlierB : α → α → Prop) (a b e e' : α) : Prop :=
  (∃ θ, Meets w next a b θ e ∧ ¬ Meets w next a b θ e') ∨
  (∀ θ, Meets w next a b θ e ↔ Meets w next a b θ e') ∧
    ((¬ FromRight w next a b e ∧ FromRight w next a b e') ∨
     (¬ FromRight w next a b e ∧ ¬ FromRight w next a b e' ∧ earlierA e e') ∨
     (FromRight w next a b e ∧ FromRight w next a b e' ∧ earlierB e e'))

lemma Meets.mono (hθ : θ' ≤ θ) (h : Meets w next a b θ e) : Meets w next a b θ' e :=
  ⟨h.1.mono hθ, h.2.mono hθ⟩

variable {earlierA earlierB : α → α → Prop}

lemma MetBefore.asymm (hA : earlierA e e' → ¬ earlierA e' e) (hB : earlierB e e' → ¬ earlierB e' e)
    (h : MetBefore w next earlierA earlierB a b e e') :
    ¬ MetBefore w next earlierA earlierB a b e' e := by
  rintro (⟨θ', he', he⟩ | ⟨heq', h'⟩)
  · rcases h with ⟨θ, hm, hm'⟩ | ⟨heq, -⟩
    · rcases le_total θ θ' with hle | hle
      · exact hm' (he'.mono hle)
      · exact he (hm.mono hle)
    · exact he ((heq θ').2 he')
  · rcases h with ⟨θ, hm, hm'⟩ | ⟨-, h⟩
    · exact hm' ((heq' θ).2 hm)
    rcases h with ⟨hr, hr'⟩ | ⟨hr, hr', hA1⟩ | ⟨hr, hr', hB1⟩
    · rcases h' with ⟨h1, _⟩ | ⟨h1, _, _⟩ | ⟨_, h2, _⟩
      · exact h1 hr'
      · exact h1 hr'
      · exact hr h2
    · rcases h' with ⟨_, h2⟩ | ⟨_, _, hA2⟩ | ⟨h1, _, _⟩
      · exact hr h2
      · exact hA hA1 hA2
      · exact hr' h1
    · rcases h' with ⟨h1, _⟩ | ⟨h1, _, _⟩ | ⟨_, _, hB2⟩
      · exact h1 hr'
      · exact h1 hr'
      · exact hB hB1 hB2

/-- A vertex met at the level `θ`, against one met no higher: what is left is their order at `θ`. -/
lemma metBefore_of_level (he : Meets w next a b θ e) (hle : ∀ θ', Meets w next a b θ' e → θ' ≤ θ)
    (hle' : ∀ θ', Meets w next a b θ' e' → θ' ≤ θ) (htie : Meets w next a b θ e' →
      (¬ FromRight w next a b e ∧ FromRight w next a b e') ∨
      (¬ FromRight w next a b e ∧ ¬ FromRight w next a b e' ∧ earlierA e e') ∨
      (FromRight w next a b e ∧ FromRight w next a b e' ∧ earlierB e e')) :
    MetBefore w next earlierA earlierB a b e e' := by
  by_cases h : Meets w next a b θ e'
  · exact .inr ⟨fun θ' => ⟨fun hm => h.mono (hle θ' hm), fun hm => he.mono (hle' θ' hm)⟩, htie h⟩
  · exact .inl ⟨θ, he, h⟩

/-! ## Two searches -/

variable (w next) in
/-- Two searches that have taken turns and have not met: each is ahead of what the other has still
to expand, the left one on ties. -/
structure Pair (a b : α) (lowA lowB : WithTop ℤ) (visitedA frontierA visitedB frontierB : List α) :
    Prop where
  left : Search w next a lowA visitedA frontierA
  right : Search w next b lowB visitedB frontierB
  leftAhead : ∀ y ∈ frontierB, min lowB (w y) ≤ lowA
  rightAhead : ∀ y ∈ frontierA, min lowA (w y) < lowB
  /-- The left side only expands while the right side has something to expand. -/
  floor : ∃ y, Reach next b y ∧ (w y : WithTop ℤ) ≤ lowA
  apart : ∀ e ∈ visitedA, e ∉ visitedB

namespace Pair

variable {a b : α} {lowA lowB : WithTop ℤ} {visitedA frontierA visitedB frontierB : List α}

lemma init (hab : a ≠ b) : Pair w next a b ⊤ ⊤ [a] [a] [b] [b] where
  left := Search.init a
  right := Search.init b
  leftAhead _ _ := le_top
  rightAhead y _ := (min_le_right _ _).trans_lt (coe_lt_top (w y))
  floor := ⟨b, refl, le_top⟩
  apart _ he he' := hab ((mem_singleton.1 he).symm.trans (mem_singleton.1 he'))

/-- The left search is stuck as soon as the right one is exhausted: what it has not found lies
below everything on the right. -/
lemma stuck (p : Pair w next a b lowA lowB visitedA frontierA visitedB [])
    (he : Reach next b e) (hy : Reach next b y) : ¬ Through w next (w y) a e := by
  intro hthrough
  have hvisited : e ∉ visitedA := fun h => p.apart e h (p.right.mem_of_reach he)
  obtain ⟨z, hz, hyz⟩ := p.left.pending hthrough hvisited
  have hlow : lowB ≤ (w y : WithTop ℤ) :=
    (p.right.expanded y (p.right.mem_of_reach hy) not_mem_nil).1
  exact absurd (le_min (p.left.above _ e hthrough hvisited) hyz)
    (not_le.2 ((p.rightAhead z hz).trans_le hlow))

lemma stuck_lower (p : Pair w next a b lowA lowB visitedA frontierA visitedB [])
    (hA : frontierA ≠ []) (hy : Reach next b y) : ∃ x, Reach next a x ∧ w x < w y := by
  obtain ⟨z, hz⟩ := exists_mem_of_ne_nil _ hA
  have hlow : lowB ≤ (w y : WithTop ℤ) :=
    (p.right.expanded y (p.right.mem_of_reach hy) not_mem_nil).1
  rcases min_lt_iff.1 ((p.rightAhead z hz).trans_le hlow) with h | h
  · rcases p.left.attained with htop | ⟨m, hm, hle⟩
    · exact absurd (htop ▸ h) not_top_lt
    · exact ⟨m, p.left.reach_of_mem hm, coe_lt_coe.1 (hle.trans_lt h)⟩
  · exact ⟨z, p.left.reach_of_mem (p.left.sub z hz), coe_lt_coe.1 h⟩

lemma apart_of_exhausted (p : Pair w next a b lowA lowB visitedA [] visitedB [])
    (hA : Reach next a e) : ¬ Reach next b e := fun hB =>
  p.apart e (p.left.mem_of_reach hA) (p.right.mem_of_reach hB)

lemma floor_of_exhausted (p : Pair w next a b lowA lowB visitedA [] visitedB frontierB) :
    ∃ y, Reach next b y ∧ ∀ x, Reach next a x → w y ≤ w x := by
  obtain ⟨y, hy, hle⟩ := p.floor
  refine ⟨y, hy, fun x hx => coe_le_coe.1 (hle.trans ?_)⟩
  exact (p.left.expanded x (p.left.mem_of_reach hx) not_mem_nil).1

section Steps

variable [DecidableEq α] {x : α} {rest new : List α}

section

variable (p : Pair w next a b lowA lowB visitedA frontierA visitedB frontierB)
include p

/-- **The left side expands** a vertex at least as heavy as all of the right frontier. -/
lemma stepLeft (hperm : ∀ y, y ∈ frontierA ↔ y = x ∨ y ∈ rest) (hmax : ∀ y ∈ frontierA, w y ≤ w x)
    (hother : ∀ y ∈ frontierB, w y ≤ w x) (hsome : frontierB ≠ [])
    (hnew : addNew visitedA (next x) = visitedA ++ new) (hapart : ∀ e ∈ new, e ∉ visitedB) :
    Pair w next a b (min lowA (w x)) lowB (visitedA ++ new) (rest ++ new) visitedB frontierB where
  left := p.left.step hperm hmax hnew
  right := p.right
  leftAhead y hy :=
    le_min (p.leftAhead y hy) ((min_le_right _ _).trans (coe_le_coe.2 (hother y hy)))
  rightAhead _ _ := (min_le_left _ _).trans_lt (p.rightAhead x ((hperm x).2 (.inl rfl)))
  floor := by
    rcases le_total lowA (w x : WithTop ℤ) with hle | hle
    · rw [min_eq_left hle]
      exact p.floor
    · rw [min_eq_right hle]
      obtain ⟨y, hy⟩ := exists_mem_of_ne_nil _ hsome
      exact ⟨y, p.right.reach_of_mem (p.right.sub y hy), coe_le_coe.2 (hother y hy)⟩
  apart e he := (mem_append.1 he).elim (p.apart e) (hapart e)

/-- **The right side expands** a vertex heavier than all of the left frontier. -/
lemma stepRight
    (hperm : ∀ y, y ∈ frontierB ↔ y = x ∨ y ∈ rest) (hmax : ∀ y ∈ frontierB, w y ≤ w x)
    (hother : ∀ y ∈ frontierA, w y < w x)
    (hnew : addNew visitedB (next x) = visitedB ++ new) (hapart : ∀ e ∈ new, e ∉ visitedA) :
    Pair w next a b lowA (min lowB (w x)) visitedA frontierA (visitedB ++ new) (rest ++ new) where
  left := p.left
  right := p.right.step hperm hmax hnew
  leftAhead _ _ := (min_le_left _ _).trans (p.leftAhead x ((hperm x).2 (.inl rfl)))
  rightAhead y hy :=
    lt_min (p.rightAhead y hy) ((min_le_right _ _).trans_lt (coe_lt_coe.2 (hother y hy)))
  floor := p.floor
  apart e he he' := (mem_append.1 he').elim (p.apart e he) fun hm => hapart e hm he

end

variable {earlierA earlierB : α → α → Prop} {pre post : List α} {e : α}

section

variable (p : Pair w next a b lowA lowB visitedA frontierA visitedB frontierB)
include p

/-- **A meeting found by the left side** comes before every other meeting. -/
lemma met_left (hperm : ∀ y, y ∈ frontierA ↔ y = x ∨ y ∈ rest) (hmax : ∀ y ∈ frontierA, w y ≤ w x)
    (hother : ∀ y ∈ frontierB, w y ≤ w x)
    (hnew : addNew visitedA (next x) = visitedA ++ (pre ++ e :: post)) (hfresh : e ∉ visitedA)
    (hpre : ∀ e' ∈ pre, e' ∉ visitedB) (he : e ∈ visitedB)
    (hearlier : ∀ e', e' ∉ visitedA → e' ∉ pre → e' ≠ e → earlierA e e') (hne : e' ≠ e) :
    MetBefore w next earlierA earlierB a b e e' := by
  have hstep := p.left.step hperm hmax hnew
  have hlt : min lowA (w x) < lowB := p.rightAhead x ((hperm x).2 (.inl rfl))
  have hA : Through w next (min lowA (w x)) a e := hstep.through e (by simp)
  have hB : Through w next lowB b e := p.right.through e he
  have hlevel : ∀ θ, Through w next θ a e → θ ≤ min lowA (w x) := fun θ h =>
    p.left.level_le hmax h hfresh
  have hright : ¬ FromRight w next a b e := fun h => absurd (hlevel lowB (h lowB hB)) (not_le.2 hlt)
  -- what the right side has not visited lies no higher than this expansion
  have hbelow : ∀ θ e', e' ∉ visitedB → Through w next θ b e' → θ ≤ min lowA (w x) := by
    intro θ e' hv h
    obtain ⟨y, hy, hθ⟩ := p.right.pending h hv
    exact le_min ((le_min (p.right.above θ e' h hv) hθ).trans (p.leftAhead y hy))
      (hθ.trans (coe_le_coe.2 (hother y hy)))
  refine metBefore_of_level ⟨hA, hB.mono hlt.le⟩ (fun θ h => hlevel θ h.1) (fun θ h => ?_)
    (fun htie => ?_)
  · by_cases hv : e' ∈ visitedA
    · exact hbelow θ e' (p.apart e' hv) h.2
    · exact p.left.level_le hmax h.1 hv
  · by_cases hr : FromRight w next a b e'
    · exact .inl ⟨hright, hr⟩
    have hlast : ∀ hv : e' ∉ visitedB, False := fun hv =>
      hr fun θ h => htie.1.mono (hbelow θ e' hv h)
    exact .inr (.inl ⟨hright, hr, hearlier e' (fun h => hlast (p.apart e' h))
      (fun h => hlast (hpre e' h)) hne⟩)

/-- **A meeting found by the right side** comes before every other meeting. -/
lemma met_right (hperm : ∀ y, y ∈ frontierB ↔ y = x ∨ y ∈ rest)
    (hmax : ∀ y ∈ frontierB, w y ≤ w x) (hother : ∀ y ∈ frontierA, w y < w x)
    (hnew : addNew visitedB (next x) = visitedB ++ (pre ++ e :: post)) (hfresh : e ∉ visitedB)
    (hpre : ∀ e' ∈ pre, e' ∉ visitedA) (he : e ∈ visitedA)
    (hearlier : ∀ e', e' ∉ visitedB → e' ∉ pre → e' ≠ e → earlierB e e') (hne : e' ≠ e) :
    MetBefore w next earlierA earlierB a b e e' := by
  have hstep := p.right.step hperm hmax hnew
  have hle : min lowB (w x) ≤ lowA := p.leftAhead x ((hperm x).2 (.inl rfl))
  have hB : Through w next (min lowB (w x)) b e := hstep.through e (by simp)
  have hA : Through w next lowA a e := p.left.through e he
  have hlevel : ∀ θ, Through w next θ b e → θ ≤ min lowB (w x) := fun θ h =>
    p.right.level_le hmax h hfresh
  have hright : FromRight w next a b e := fun θ h => hA.mono ((hlevel θ h).trans hle)
  by_cases hv : e' ∈ visitedA
  · have hvB : e' ∉ visitedB := p.apart e' hv
    refine metBefore_of_level ⟨hA.mono hle, hB⟩ (fun θ h => hlevel θ h.2)
      (fun θ h => p.right.level_le hmax h.2 hvB) (fun htie => ?_)
    have hr : FromRight w next a b e' := fun θ h => htie.1.mono (p.right.level_le hmax h hvB)
    exact .inr (.inr ⟨hright, hr, hearlier e' hvB (fun h => hpre e' h hv) hne⟩)
  · -- what the left side has not visited lies strictly lower
    refine .inl ⟨_, ⟨hA.mono hle, hB⟩, fun h => ?_⟩
    obtain ⟨y, hy, hθ⟩ := p.left.pending h.1 hv
    have hlt := lt_min ((le_min (p.left.above _ e' h.1 hv) hθ).trans_lt (p.rightAhead y hy))
      (hθ.trans_lt (coe_lt_coe.2 (hother y hy)))
    exact lt_irrefl _ hlt

end

end Steps

end Pair

end Fluree.Lib.HighestFirst
