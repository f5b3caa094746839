import Fluree.Proof.NameService.Tracked

/-!
# Branch lineage

The number of children recorded on a branch is the number of branches forked from it, and the
source of a branch is a registered branch with a head, as long as no branch with a parent or
with children is reset to its unborn state and no branch has `u32::MAX` children.

* `Lineage.effect`: one command.
-/

namespace Fluree.NameService

open Lib KeyedMap NameServiceState SortUnstable

def isChildOf (parent : RefKey) (k : RefKey) (e : RefEntry) : Bool :=
  k.ledgerName = parent.ledgerName ∧ e.sourceBranch = some parent.branch

variable {e : RefEntry} {s : NameServiceState}

lemma isChildOf_iff : isChildOf parent k e = true ↔
    k.ledgerName = parent.ledgerName ∧ e.sourceBranch = some parent.branch := by
  simp [isChildOf]

/-- The counts of children and the parents of a map of heads. -/
structure Lineage (refs : KeyedMap RefKey RefEntry) : Prop where
  counts : ∀ key e, refs.lookup key = some e → e.branches = count (isChildOf key) refs
  parents : ∀ k e b, refs.lookup k = some e → e.sourceBranch = some b →
    ∃ p, refs.lookup ⟨k.ledgerName, b⟩ = some p

variable {refs : KeyedMap RefKey RefEntry} {key : RefKey}

lemma Lineage.count_eq_zero (h : Lineage refs) (hkey : refs.lookup key = none) :
    count (isChildOf key) refs = 0 := by
  by_contra hpos
  obtain ⟨k, e, he, hchild⟩ := count_pos_iff.1 (Nat.pos_of_ne_zero hpos)
  obtain ⟨hledger, hsource⟩ := isChildOf_iff.1 hchild
  obtain ⟨_, hp⟩ := h.parents k e key.branch he hsource
  rw [hledger, hkey] at hp
  cases hp

lemma Lineage.not_child (h : Lineage refs) (hkey : ∀ e, refs.lookup key = some e → e.branches = 0)
    (he : refs.lookup k = some e) : isChildOf key k e = false := by
  by_contra hchild
  have hpos : 0 < count (isChildOf key) refs := count_pos_iff.2 ⟨k, e, he, by simpa using hchild⟩
  cases hlookup : refs.lookup key with
  | none => have := h.count_eq_zero hlookup; omega
  | some p => have := h.counts key p hlookup; have := hkey p hlookup; omega

/-- The new entry has the source and the children of the old one, or neither if there is none. -/
def KeepsLineage (refs : KeyedMap RefKey RefEntry) (key : RefKey) (e : RefEntry) : Prop :=
  e.sourceBranch = (refs.lookup key).bind (·.sourceBranch) ∧
    e.branches = ((refs.lookup key).map (·.branches)).getD 0

lemma KeepsLineage.count (hkeep : KeepsLineage refs key e) (parent : RefKey) :
    count (isChildOf parent) (refs.insert key e) = count (isChildOf parent) refs := by
  have hcount := count_insert (isChildOf parent) refs key e
  obtain ⟨hsource, -⟩ := hkeep
  have hsame : (refs.lookup key).any (isChildOf parent key) = isChildOf parent key e := by
    unfold isChildOf
    rw [hsource]
    cases refs.lookup key <;> simp
  rw [hsame] at hcount
  omega

lemma Lineage.insert (h : Lineage refs) (hkeep : KeepsLineage refs key e) :
    Lineage (refs.insert key e) where
  counts := by
    intro k e' he'
    rw [hkeep.count]
    rcases lookup_insert_some he' with ⟨rfl, rfl⟩ | ⟨-, he'⟩
    · rw [hkeep.2]
      cases hlookup : refs.lookup k with
      | none => simpa using (h.count_eq_zero hlookup).symm
      | some p => exact h.counts k p hlookup
    · exact h.counts k e' he'
  parents := by
    intro k e' b he' hb
    have hparent : ∃ p, refs.lookup ⟨k.ledgerName, b⟩ = some p := by
      rcases lookup_insert_some he' with ⟨hk, rfl⟩ | ⟨-, he'⟩
      · rw [hkeep.1] at hb
        obtain ⟨p, hp, hpb⟩ := Option.bind_eq_some_iff.1 hb
        exact h.parents k p b (hk ▸ hp) hpb
      · exact h.parents k e' b he' hb
    exact exists_lookup_insert hparent

lemma Lineage.erase (h : Lineage refs) (hkey : ∀ e, refs.lookup key = some e → e.branches = 0) :
    (∀ k e, (refs.erase key).lookup k = some e → e.branches = count (isChildOf k) (refs.erase key) +
        if (refs.lookup key).any (isChildOf k key) then 1 else 0) ∧
    ∀ k e b, (refs.erase key).lookup k = some e → e.sourceBranch = some b →
      ∃ p, (refs.erase key).lookup ⟨k.ledgerName, b⟩ = some p := by
  constructor
  · intro k e he
    rw [count_erase]
    rw [lookup_erase_ite] at he
    split at he
    · cases he
    · exact h.counts k e he
  · intro k e b he hb
    rw [lookup_erase_ite] at he
    split at he
    · cases he
    obtain ⟨p, hp⟩ := h.parents k e b he hb
    refine ⟨p, ?_⟩
    rw [lookup_erase_ite, if_neg, hp]
    rintro rfl
    have := h.not_child hkey he
    simp [isChildOf, hb] at this

lemma Lineage.withoutBranch (h : Lineage refs)
    (hkey : ∀ e, refs.lookup key = some e → e.branches = 0) (hR : WithoutBranch refs key R) :
    Lineage R := by
  obtain ⟨hcounts, hparents⟩ := h.erase hkey
  -- the removed entry is a child of its source and of nothing else
  have hchild : ∀ k : RefKey, (refs.lookup key).any (isChildOf k key) = true ↔
      k.ledgerName = key.ledgerName ∧
        (refs.lookup key).bind (·.sourceBranch) = some k.branch := by
    intro k
    cases refs.lookup key with
    | none => simp
    | some =>
      rw [Option.any_some, isChildOf_iff, Option.bind_some]
      exact and_congr_left' eq_comm
  cases hR with
  | root hsource =>
    refine ⟨fun k e he => ?_, hparents⟩
    rw [hcounts k e he, if_neg (by rw [hchild, hsource]; simp), Nat.add_zero]
  | @orphan parent hsource hp =>
    refine ⟨fun k e he => ?_, hparents⟩
    rw [hcounts k e he, if_neg, Nat.add_zero]
    rw [hchild, hsource]
    rintro ⟨hledger, hbranch⟩
    have hk : k = ⟨key.ledgerName, parent⟩ := by cases k; cases hbranch; simp_all
    rw [hk, hp] at he
    cases he
  | @child parent entry hsource hp =>
    have hsame : ∀ k : RefKey, count (isChildOf k) ((refs.erase key).insert
        ⟨key.ledgerName, parent⟩ { entry with branches := entry.branches - 1 }) =
        count (isChildOf k) (refs.erase key) := by
      intro k
      have := count_insert (isChildOf k) (refs.erase key) ⟨key.ledgerName, parent⟩
        { entry with branches := entry.branches - 1 }
      have hkeep : isChildOf k ⟨key.ledgerName, parent⟩
          { entry with branches := entry.branches - 1 } =
          isChildOf k ⟨key.ledgerName, parent⟩ entry := rfl
      rw [hp, Option.any_some, hkeep] at this
      omega
    constructor
    · intro k e he
      rw [hsame]
      rcases lookup_insert_some he with ⟨hk, rfl⟩ | ⟨hk, he⟩
      · have := hcounts k entry (hk ▸ hp)
        rw [if_pos ((hchild k).2 (by rw [hk]; exact ⟨rfl, hsource⟩))] at this
        dsimp only
        omega
      · have := hcounts k e he
        rw [if_neg, Nat.add_zero] at this
        · exact this
        · rw [hchild, hsource]
          rintro ⟨hledger, hbranch⟩
          apply hk
          cases k; cases hbranch; simp_all
    · intro k e b he hb
      have hparent : ∃ p, (refs.erase key).lookup ⟨k.ledgerName, b⟩ = some p := by
        rcases lookup_insert_some he with ⟨hk, rfl⟩ | ⟨-, he⟩
        · exact hparents k entry b (hk ▸ hp) hb
        · exact hparents k e b he hb
      exact exists_lookup_insert hparent

lemma Lineage.fork (h : Lineage refs) {name branch sourceBranch source new} (hsource : refs.lookup ⟨name, sourceBranch⟩ = some source)
    (hnone : refs.lookup ⟨name, branch⟩ = none) (hnew : new.sourceBranch = some sourceBranch)
    (hbranches : new.branches = 0) : Lineage
      ((refs.insert ⟨name, sourceBranch⟩ { source with branches := source.branches + 1 }).insert
        ⟨name, branch⟩ new) := by
  have hne : (⟨name, branch⟩ : RefKey) ≠ ⟨name, sourceBranch⟩ := by
    intro heq
    rw [heq, hsource] at hnone
    cases hnone
  have hcount : ∀ k : RefKey, count (isChildOf k)
      ((refs.insert ⟨name, sourceBranch⟩ { source with branches := source.branches + 1 }).insert
        ⟨name, branch⟩ new) =
      count (isChildOf k) refs + if k = ⟨name, sourceBranch⟩ then 1 else 0 := by
    intro k
    have h₁ := count_insert (isChildOf k) refs ⟨name, sourceBranch⟩
      { source with branches := source.branches + 1 }
    have hkeep : isChildOf k ⟨name, sourceBranch⟩ { source with branches := source.branches + 1 } =
        isChildOf k ⟨name, sourceBranch⟩ source := rfl
    rw [hsource, Option.any_some, hkeep] at h₁
    have h₂ := count_insert (isChildOf k)
      (refs.insert ⟨name, sourceBranch⟩ { source with branches := source.branches + 1 })
      ⟨name, branch⟩ new
    rw [lookup_insert_ite, if_neg hne, hnone] at h₂
    have hnew' : isChildOf k ⟨name, branch⟩ new = decide (k = ⟨name, sourceBranch⟩) := by
      rw [Bool.eq_iff_iff, isChildOf_iff, hnew, decide_eq_true_eq]
      constructor
      · rintro ⟨hn, hb⟩
        cases k; cases hb; simp_all
      · rintro rfl
        exact ⟨rfl, rfl⟩
    rw [hnew'] at h₂
    simp only [Option.any_none, decide_eq_true_eq, Bool.false_eq_true, if_false] at h₂
    omega
  constructor
  · intro k e he
    rw [hcount]
    rcases lookup_insert_some he with ⟨hk, rfl⟩ | ⟨-, he⟩
    · rw [if_neg (hk ▸ hne), hbranches, hk, h.count_eq_zero hnone]
    rcases lookup_insert_some he with ⟨hk, rfl⟩ | ⟨hk, he⟩
    · rw [if_pos hk, hk, ← h.counts _ source hsource]
    · rw [if_neg hk, Nat.add_zero]
      exact h.counts k e he
  · intro k e b he hb
    have hparent : (∃ p, refs.lookup ⟨k.ledgerName, b⟩ = some p) := by
      rcases lookup_insert_some he with ⟨hk, rfl⟩ | ⟨-, he⟩
      · rw [hnew] at hb
        cases hb
        exact ⟨source, by rw [hk]; exact hsource⟩
      rcases lookup_insert_some he with ⟨hk, rfl⟩ | ⟨-, he⟩
      · exact h.parents k source b (hk ▸ hsource) hb
      · exact h.parents k e b he hb
    exact exists_lookup_insert (exists_lookup_insert hparent)

/-- A reset to the unborn state meets no parent and no child, and a fork does not overflow. -/
def KeepsFamily (s : NameServiceState) : Command → Prop
  | .resetHead ledgerId branch snapshot _ => snapshot.commitHeadId = none →
      ∀ e, s.refs.lookup ⟨ledgerId, branch⟩ = some e → e.sourceBranch = none ∧ e.branches = 0
  | .createBranch args =>
      ∀ e, s.refs.lookup ⟨args.ledgerId, args.sourceBranch⟩ = some e → e.branches < U32_MAX
  | _ => True

lemma Lineage.effect
    (h : Lineage s.refs) (ht : Tracked s) (hc : KeepsFamily s c) (heffect : Effect s c i s' r) :
    Lineage s'.refs := by
  cases heffect with
  | unchanged | created => exact h
  | @branchCreated args _ _ source _ _ hnew _ hsource =>
    have hnone : s.refs.lookup ⟨args.ledgerId, args.branch⟩ = none := by
      rw [Option.eq_none_iff_forall_ne_some]
      intro e he
      rw [ht.refs _ e he] at hnew
      cases hnew
    have hlt := hc source hsource
    rw [min_eq_left (by omega)]
    exact h.fork hsource hnone rfl rfl
  | removed _ hchildren hR => exact h.withoutBranch hchildren hR
  | resetUnborn _ _ hhead =>
    refine h.withoutBranch (fun e he => (hc hhead e he).2) (.root ?_)
    rw [Option.bind_eq_none_iff]
    exact fun e he => (hc hhead e he).1
  | resetTo | headSet => exact h.insert ⟨rfl, rfl⟩
  | retracted => exact h
  | indexSet _ hentry => exact h.insert ⟨by rw [hentry]; rfl, by rw [hentry]; rfl⟩
  | statusPushed | configPushed | aside | enqueued | markerConsumed => exact h
  | headApplied _ _ _ hR =>
    cases hR with
    | noop => exact h
    | advance => exact h.insert ⟨rfl, rfl⟩
  | poisoned | evicted => exact h

def HasChild (s : NameServiceState) (key : RefKey) : Prop :=
  ∃ k e, s.refs.lookup k = some e ∧ isChildOf key k e = true

/-- The lineage as the commands need it: exact counts, parents that are registered and have a
head, and removals refused exactly for the branches with a child. -/
structure LineageExact (s : NameServiceState) : Prop where
  counts : ∀ key e, s.refs.lookup key = some e → e.branches = count (isChildOf key) s.refs
  parents : ∀ k e b, s.refs.lookup k = some e → e.sourceBranch = some b →
    s.isKnown ⟨k.ledgerName, b⟩ = true ∧ ∃ p, s.refs.lookup ⟨k.ledgerName, b⟩ = some p
  drops : ∀ key millis, HasChild s key ↔
    ∃ n, (dropBranch s key.ledgerName key.branch millis).2 = .branchHasChildren key.ledgerId n
  purges : ∀ key millis, HasChild s key ↔
    ∃ n, (purgeBranch s key.ledgerName key.branch millis).2 = .branchHasChildren key.ledgerId n

lemma Lineage.hasChild_iff (h : Lineage s.refs) :
    HasChild s key ↔ 0 < ((s.refs.lookup key).map (·.branches)).getD 0 := by
  unfold HasChild
  rw [← count_pos_iff]
  cases hlookup : s.refs.lookup key with
  | none => simp [h.count_eq_zero hlookup]
  | some e => simp [h.counts key e hlookup]

lemma purgeBranch_refuses_iff :
    (∃ n, (purgeBranch s key.ledgerName key.branch millis).2 = .branchHasChildren key.ledgerId n) ↔
      0 < ((s.refs.lookup key).map (·.branches)).getD 0 := by
  unfold purgeBranch
  dsimp only
  split
  · rename_i hpos
    exact ⟨fun _ => hpos, fun _ => ⟨_, rfl⟩⟩
  · rename_i hpos
    refine ⟨fun ⟨n, hn⟩ => ?_, fun h => absurd h hpos⟩
    split at hn <;> cases hn

lemma dropBranch_refuses_iff :
    (∃ n, (dropBranch s key.ledgerName key.branch millis).2 = .branchHasChildren key.ledgerId n) ↔
      s.isKnown key = true ∧ 0 < ((s.refs.lookup key).map (·.branches)).getD 0 := by
  unfold dropBranch
  dsimp only
  split
  · rename_i hknown
    refine ⟨fun ⟨n, hn⟩ => ?_, fun h => absurd h.1 hknown⟩
    cases hn
  rename_i hknown
  split
  · rename_i hpos
    exact ⟨fun _ => ⟨not_not.1 hknown, hpos⟩, fun _ => ⟨_, rfl⟩⟩
  · rename_i hpos
    refine ⟨fun ⟨n, hn⟩ => ?_, fun h => absurd h.2 hpos⟩
    cases hn

lemma Lineage.exact (h : Lineage s.refs) (ht : Tracked s) : LineageExact s where
  counts := h.counts
  parents := by
    intro k e b he hb
    obtain ⟨p, hp⟩ := h.parents k e b he hb
    exact ⟨ht.refs _ p hp, p, hp⟩
  drops := by
    intro key millis
    rw [dropBranch_refuses_iff, h.hasChild_iff]
    refine ⟨fun hpos => ⟨?_, hpos⟩, fun hpos => hpos.2⟩
    cases hlookup : s.refs.lookup key with
    | none => rw [hlookup] at hpos; simp at hpos
    | some e => exact ht.refs key e hlookup
  purges := by
    intro key millis
    rw [purgeBranch_refuses_iff, h.hasChild_iff]

/-- **Lineage counts are exact in every state of a run** in which a reset to the unborn state
only meets branches without parent and children. -/
theorem lineage_exact (σ : SortUnstable) (log : List (Command × ℕ))
    (hok : ∀ n c, log[n]? = some c → KeepsFamily (stateAt σ log n) c.1) (n : ℕ) :
    LineageExact (stateAt σ log n) := by
  have hinv : Lineage (stateAt σ log n).refs ∧ Tracked (stateAt σ log n) := by
    refine stateAt_invariant (fun s => Lineage s.refs ∧ Tracked s) KeepsFamily ⟨?_, tracked_new⟩ ?_
      hok n
    · exact ⟨fun key e h => by simp [new] at h,
        fun k e b h => by simp [new] at h⟩
    · rintro s c i ⟨hl, ht⟩ hc
      exact ⟨hl.effect ht hc (apply_effect σ s c i), ht.effect (apply_effect σ s c i)⟩
  exact hinv.1.exact hinv.2

/-- A ledger with a head on `main` and the fork `dev`. -/
def forkLog : List (Command × ℕ) :=
  [(.createLedger ⟨"db", "main", 0⟩, 1),
    (.compareAndSetRef ⟨"db", "main", .commitHead, none, ⟨some ⟨7⟩, 1⟩, 0⟩, 2),
    (.createBranch ⟨"db", "dev", "main", none, 0⟩, 3)]

theorem lineage_exact_fork : LineageExact (stateAt insertion forkLog 3) := by
  refine lineage_exact insertion forkLog ?_ 3
  intro n c h
  rcases n with _ | _ | _ | n
  · cases h; trivial
  · cases h; trivial
  · cases h
    intro e he
    have : e.branches = 0 := by
      have hmain : ((stateAt insertion forkLog 2).refs.lookup ⟨"db", "main"⟩).map
          (·.branches) = some 0 := by decide
      rw [show (stateAt insertion forkLog 2).refs.lookup ⟨"db", "main"⟩ = some e from he]
        at hmain
      exact Option.some.inj hmain
    rw [this]
    decide
  · cases h

/-- After `dev` is reset to its unborn state `main` counts a child that is not there, and
dropping `main` is refused. -/
theorem lineage_reset_unborn : ¬ LineageExact (stateAt insertion
      (forkLog ++ [(.resetHead "db" "dev" ⟨none, 0, none, 0⟩ 0, 4)]) 4) := by
  intro h
  have hcount := h.counts ⟨"db", "main"⟩ ⟨⟨7⟩, 1, 0, 2, none, none, 1⟩ (by decide)
  revert hcount
  decide

end Fluree.NameService
