import Fluree.Novelty.CommitFlakes

/-!
# Taking up a commit

A ledger that is loaded stamps the flakes of a commit in one pass, one that is followed drops forged
flakes first. `loaded_eq_followed_iff` says when both take up the same flakes.
-/

namespace Fluree.Novelty

open List Namespaces

variable {Cid : Type} (x : CommitSource Cid) (flakes : List Flake) (gSid : Sid)

lemma stamped_eq_kept_iff :
    stampCommitFlakesDroppingForgeries flakes gSid = dropForgedCommitFlakes flakes gSid ↔
      ∀ f ∈ flakes, f.g = none → f.s.namespaceCode ≠ FLUREE_COMMIT := by
  unfold stampCommitFlakesDroppingForgeries dropForgedCommitFlakes
  induction flakes with
  | nil => simp
  | cons f flakes ih =>
    rw [filterMap_cons, filter_cons, forall_mem_cons, ← ih]
    obtain ⟨g, s, p, o, dt, t, op, m⟩ := f
    by_cases hs : s.namespaceCode = FLUREE_COMMIT
    · cases g with
      | none => simp [stampOrDrop, isForgedCommitFlake, hs]
      | some g => by_cases hg : g = gSid <;> simp [stampOrDrop, isForgedCommitFlake, hs, hg]
    · simp [stampOrDrop, isForgedCommitFlake, hs]

variable (c : Commit Cid Flake) (ledgerId : String) (t : ℤ)

lemma generateCommitFlakes_g {f} (h : f ∈ generateCommitFlakes x c ledgerId t) : f.g = none := by
  unfold generateCommitFlakes at h
  split at h
  · cases h
  · simp only [mem_append, mem_map, mem_cons] at h
    aesop

/-- **Loading a ledger and following its commits take up the same flakes** exactly if no flake of
a commit's own data is about a commit and in no graph. Loading makes such a flake part of the
record of a commit. -/
theorem loaded_eq_followed_iff :
    stampCommitFlakesDroppingForgeries (c.flakes ++ generateCommitFlakes x c ledgerId t) gSid =
      dropForgedCommitFlakes c.flakes gSid ++
        stampGraphOnCommitFlakes (generateCommitFlakes x c ledgerId t) gSid ↔
    ∀ f ∈ c.flakes, f.g = none → f.s.namespaceCode ≠ FLUREE_COMMIT := by
  have hmeta : (generateCommitFlakes x c ledgerId t).filterMap (stampOrDrop gSid) =
      stampGraphOnCommitFlakes (generateCommitFlakes x c ledgerId t) gSid := by
    rw [stampGraphOnCommitFlakes, ← filterMap_eq_map]
    refine filterMap_congr fun f hf => ?_
    have hg := generateCommitFlakes_g x c ledgerId t hf
    by_cases hs : f.s.namespaceCode = FLUREE_COMMIT <;> simp [stampOrDrop, hg, hs]
  rw [stampCommitFlakesDroppingForgeries, filterMap_append, hmeta, append_left_inj]
  exact stamped_eq_kept_iff c.flakes gSid

end Fluree.Novelty
