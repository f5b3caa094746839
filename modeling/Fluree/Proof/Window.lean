import Fluree.Proof.Replay

/-!
# What window deduplication keeps of each fact

`lifecycle` is the resolution rule on the sorted events of a single fact: every event that
does not leave the current winner in place becomes the winner. `dedupFactLifecycles` applies
it to each fact of a window: the last event of the lifecycle is the winner, the others are
superseded (`dedup_lifecycle`).

`stateAt_lifecycle`: dropping the other events changes presence at no time.
-/

namespace Fluree

open Lib List

section

variable (σ : SortUnstable) (reg : OTypeRegistry)

/-- The events that become winner, one after the other. -/
def lifecycleFrom (winner : RunRecord) : List RunRecord → List RunRecord
  | [] => [winner]
  | rec :: rest =>
    if keepsWinner winner rec then lifecycleFrom winner rest else winner :: lifecycleFrom rec rest

def lifecycle : List RunRecord → List RunRecord
  | [] => []
  | first :: rest => lifecycleFrom first rest

/-- What deduplication tells apart: the value of an event and its identity among them. -/
def RunRecord.lifeKey (r : RunRecord) : SortPart × (UInt16 × UInt32) :=
  (r.sortPart, r.resolvedIdentity reg)

open RunRecord

@[simp] lemma sameSortPrefix_iff : sameSortPrefix a b = true ↔ a.sortPart.pos = b.sortPart.pos := by
  rw [SortPart.pos_injective.eq_iff]
  simp [sameSortPrefix, sortPart, and_assoc]

lemma lifecycleFrom_ne_nil (w : RunRecord) (l : List RunRecord) : lifecycleFrom w l ≠ [] := by
  induction l generalizing w with
  | nil => simp [lifecycleFrom]
  | cons r l ih =>
    unfold lifecycleFrom
    split
    · exact ih w
    · simp

lemma lifecycleFrom_sublist (w : RunRecord) (l : List RunRecord) :
    (lifecycleFrom w l).Sublist (w :: l) := by
  induction l generalizing w with
  | nil => exact List.Sublist.refl _
  | cons r l ih =>
    unfold lifecycleFrom
    split
    · exact (ih w).trans ((sublist_cons_self r l).cons_cons w)
    · exact (ih r).cons_cons w

lemma lifecycle_sublist (l : List RunRecord) : (lifecycle l).Sublist l := by
  cases l with
  | nil => exact List.Sublist.refl _
  | cons w l => exact lifecycleFrom_sublist w l

/-! ## One value -/

/-- The position of an identity among the identities of one value. -/
def RunRecord.idPos (r : RunRecord) : ℕ :=
  (r.resolvedIdentity reg).1.toNat * 2 ^ 32 + (r.resolvedIdentity reg).2.toNat

lemma idPos_eq_iff {a b : RunRecord} :
    a.idPos reg = b.idPos reg ↔ a.resolvedIdentity reg = b.resolvedIdentity reg := by
  have h1 := (a.resolvedIdentity reg).2.toNat_lt
  have h2 := (b.resolvedIdentity reg).2.toNat_lt
  rw [Prod.ext_iff, ← UInt16.toNat_inj, ← UInt32.toNat_inj]
  simp only [idPos]
  omega

/-- The order of the lifecycle sort: identity, time, operation. -/
def RunRecord.lifePos (r : RunRecord) : ℕ := (r.idPos reg * 2 ^ 32 + r.t.toNat) * 2 + r.op.toNat

lemma cmpLifecycle_eq_compare (a b : RunRecord) :
    cmpLifecycle reg a b = compare (a.lifePos reg) (b.lifePos reg) := by
  simp only [cmpLifecycle, compare_u32, compare_u16, compare_bool]
  rw [compare_then (UInt32.toNat_lt _) (UInt32.toNat_lt _), compare_then a.t.toNat_lt b.t.toNat_lt,
    compare_then a.op.toNat_lt b.op.toNat_lt]
  rfl

variable {w : RunRecord} {l : List RunRecord}

lemma mem_dedupWalk (h : r ∈ (dedupWalk reg w l).1 ∨ r ∈ (dedupWalk reg w l).2) : r ∈ w :: l := by
  induction l generalizing w with
  | nil => simpa [dedupWalk] using h
  | cons e l ih =>
    unfold dedupWalk at h
    split at h
    · simp only [mem_cons] at h ⊢
      rcases h with (h | h) | h
      · exact .inl h
      · exact .inr (by simpa using ih (.inl h))
      · exact .inr (by simpa using ih (.inr h))
    · split at h
      · have := ih h
        simp only [mem_cons] at this ⊢
        tauto
      · simp only [mem_cons] at h ⊢
        rcases h with h | h | h
        · exact .inr (by simpa using ih (.inl h))
        · exact .inl h
        · exact .inr (by simpa using ih (.inr h))

lemma dedupWalk_filter (h : Asc (idPos reg) (w :: l)) (v : UInt16 × UInt32) :
    (dedupWalk reg w l).1.filter (fun r => r.resolvedIdentity reg = v) =
        (lifecycle ((w :: l).filter (fun r => r.resolvedIdentity reg = v))).getLast?.toList ∧
      (dedupWalk reg w l).2.filter (fun r => r.resolvedIdentity reg = v) =
        (lifecycle ((w :: l).filter (fun r => r.resolvedIdentity reg = v))).dropLast := by
  induction l generalizing w with
  | nil =>
    by_cases hv : w.resolvedIdentity reg = v <;> simp [dedupWalk, hv, lifecycle, lifecycleFrom]
  | cons e l ih =>
    have hw := pairwise_cons.1 h
    have hwl : Asc (idPos reg) (w :: l) := h.sublist ((sublist_cons_self e l).cons_cons w)
    unfold dedupWalk
    by_cases hid : e.resolvedIdentity reg = w.resolvedIdentity reg
    · rw [if_neg (not_not.2 hid)]
      by_cases hkeep : keepsWinner w e = true
      · -- the event changes nothing: the walk goes on with the same winner
        rw [if_pos hkeep]
        obtain ⟨h1, h2⟩ := ih hwl
        by_cases hv : w.resolvedIdentity reg = v
        · have hev : e.resolvedIdentity reg = v := hid.trans hv
          simp only [filter_cons, hv, hev, decide_true, if_true] at h1 h2 ⊢
          simpa [lifecycle, lifecycleFrom, hkeep] using And.intro h1 h2
        · have hev : ¬ e.resolvedIdentity reg = v := fun he => hv (hid ▸ he)
          simp only [filter_cons, hv, hev, decide_false] at h1 h2 ⊢
          exact ⟨h1, h2⟩
      · -- the event replaces the winner, which becomes superseded
        rw [if_neg hkeep]
        obtain ⟨h1, h2⟩ := ih hw.2
        by_cases hv : w.resolvedIdentity reg = v
        · have hev : e.resolvedIdentity reg = v := hid.trans hv
          simp only [filter_cons, hv, hev, decide_true, if_true] at h1 h2 ⊢
          rw [h1, h2]
          have hne := lifecycleFrom_ne_nil e (l.filter (fun r => r.resolvedIdentity reg = v))
          simp only [lifecycle, lifecycleFrom, if_neg hkeep]
          rw [dropLast_cons_of_ne_nil hne, List.getLast?_cons]
          refine ⟨?_, rfl⟩
          cases hl : (lifecycleFrom e (l.filter (fun r => r.resolvedIdentity reg = v))).getLast? with
          | none => exact absurd (List.getLast?_eq_none_iff.1 hl) hne
          | some => rfl
        · have hev : ¬ e.resolvedIdentity reg = v := fun he => hv (hid ▸ he)
          simp only [filter_cons, hv, hev, decide_false] at h1 h2 ⊢
          exact ⟨h1, h2⟩
    · -- a new identity: the old winner stands
      rw [if_pos hid]
      obtain ⟨h1, h2⟩ := ih hw.2
      by_cases hv : w.resolvedIdentity reg = v
      · have hgt : ∀ r ∈ e :: l, r.resolvedIdentity reg ≠ v := by
          intro r hr he
          have he1 : r.idPos reg = w.idPos reg := (idPos_eq_iff reg).2 (he.trans hv.symm)
          have hel : e.idPos reg ≤ r.idPos reg := by
            rcases mem_cons.1 hr with rfl | hr
            · exact le_rfl
            · exact (pairwise_cons.1 hw.2).1 r hr
          have hwe : w.idPos reg ≤ e.idPos reg := hw.1 e (by simp)
          exact hid ((idPos_eq_iff reg).1 (by omega))
        have hnil : (e :: l).filter (fun r => r.resolvedIdentity reg = v) = [] :=
          filter_eq_nil_iff.2 fun r hr => by simpa using hgt r hr
        rw [hnil] at h1 h2
        have hfull : (w :: e :: l).filter (fun r => r.resolvedIdentity reg = v) = [w] := by
          rw [filter_cons_of_pos (by simpa using hv), hnil]
        rw [hfull, filter_cons_of_pos (by simpa using hv), h1, h2]
        exact ⟨rfl, rfl⟩
      · rw [filter_cons_of_neg (by simpa using hv)]
        rw [show (w :: e :: l).filter (fun r => decide (r.resolvedIdentity reg = v)) =
          (e :: l).filter (fun r => decide (r.resolvedIdentity reg = v)) from
            filter_cons_of_neg (by simpa using hv)]
        exact ⟨h1, h2⟩

def RunRecord.time (r : RunRecord) : ℕ := r.t.toNat

lemma lifePos_asc_idPos (h : Asc (lifePos reg) l) : Asc (idPos reg) l := by
  refine h.imp fun {a b} hab => ?_
  have h1 := a.t.toNat_lt
  have h2 := b.t.toNat_lt
  have h3 := a.op.toNat_lt
  have h4 := b.op.toNat_lt
  simp only [lifePos] at hab
  omega

lemma lifePos_asc_rank {v : UInt16 × UInt32} (h : Asc (lifePos reg) l)
    (hv : ∀ r ∈ l, r.resolvedIdentity reg = v) : Asc (rank time op) l := by
  refine List.Pairwise.imp_of_mem ?_ h
  intro a b ha hb hab
  have hid : a.idPos reg = b.idPos reg := (idPos_eq_iff reg).2 ((hv a ha).trans (hv b hb).symm)
  refine rank_le_iff.2 ?_
  simp only [lifePos, time] at hab ⊢
  omega

lemma sort_nil (σ : SortUnstable) {α : Type} (cmp : α → α → Ordering) : σ.sort cmp [] = [] :=
  List.Perm.eq_nil (σ.perm cmp [])

lemma eq_of_perm_option {α : Type*} {l : List α} {o : Option α} (h : l.Perm o.toList) :
    l = o.toList := by
  cases o with
  | none => exact h.eq_nil
  | some => exact perm_singleton.1 h

/-- The events of one identity of a group, as the lifecycle rule sees them. -/
structure Lifecycle (events winners superseded : List RunRecord) (ev : List RunRecord) : Prop where
  perm : ev.Perm events
  asc : Asc (rank time op) ev
  winner : winners = (lifecycle ev).getLast?.toList
  rest : superseded = (lifecycle ev).dropLast

lemma dedupGroup_lifecycle (group : List RunRecord) (v : UInt16 × UInt32) :
    ∃ ev, Lifecycle (group.filter (fun r => r.resolvedIdentity reg = v))
      ((dedupGroup σ reg group).1.filter (fun r => r.resolvedIdentity reg = v))
      ((dedupGroup σ reg group).2.filter (fun r => r.resolvedIdentity reg = v)) ev := by
  have hperm := σ.perm (cmpLifecycle reg) group
  have hasc : Asc (lifePos reg) (σ.sort (cmpLifecycle reg) group) :=
    σ.asc (cmpLifecycle_eq_compare reg) group
  unfold dedupGroup
  revert hperm hasc
  cases σ.sort (cmpLifecycle reg) group with
  | nil =>
    intro hperm _
    rw [← List.Perm.nil_eq hperm]
    exact ⟨[], .refl _, List.Pairwise.nil, rfl, rfl⟩
  | cons w l =>
    intro hperm hasc
    obtain ⟨h1, h2⟩ := dedupWalk_filter reg (lifePos_asc_idPos reg hasc) v
    refine ⟨(w :: l).filter (fun r => r.resolvedIdentity reg = v), hperm.filter _, ?_, ?_, h2⟩
    · exact lifePos_asc_rank reg (hasc.sublist filter_sublist)
        fun r hr => by simpa using (mem_filter.1 hr).2
    · refine eq_of_perm_option ?_
      rw [← h1]
      exact (σ.perm cmpWinner _).filter _

lemma dedupRun_lifecycle (run : List RunRecord) (v : UInt16 × UInt32) :
    ∃ ev, Lifecycle (run.filter (fun r => r.resolvedIdentity reg = v))
      ((dedupRun σ reg run).1.filter (fun r => r.resolvedIdentity reg = v))
      ((dedupRun σ reg run).2.filter (fun r => r.resolvedIdentity reg = v)) ev := by
  unfold dedupRun
  split
  · rename_i hlen
    obtain ⟨a, rfl⟩ := length_eq_one_iff.1 hlen
    refine ⟨[a].filter (fun r => r.resolvedIdentity reg = v), .refl _,
      (pairwise_singleton _ a).sublist filter_sublist, ?_, ?_⟩ <;>
      by_cases ha : a.resolvedIdentity reg = v <;> simp [ha, lifecycle, lifecycleFrom]
  · exact dedupGroup_lifecycle σ reg run v

lemma mem_dedupRun (h : r ∈ (dedupRun σ reg run).1 ∨ r ∈ (dedupRun σ reg run).2) : r ∈ run := by
  unfold dedupRun at h
  split at h
  · simpa using h
  have hperm := σ.perm (cmpLifecycle reg) run
  unfold dedupGroup at h
  revert h hperm
  cases σ.sort (cmpLifecycle reg) run with
  | nil => simp
  | cons =>
    intro h hperm
    refine hperm.mem_iff.1 (mem_dedupWalk reg ?_)
    simpa using h

/-! ## A window -/

lemma dedupRun_nil : dedupRun σ reg [] = ([], []) := by simp [dedupRun, dedupGroup, sort_nil]

lemma filter_lifeKey (l : List RunRecord) (sp : SortPart) (v : UInt16 × UInt32) :
    l.filter (fun r => r.lifeKey reg = (sp, v)) =
      (l.filter (fun r => r.sortPart.pos = sp.pos)).filter (fun r => r.resolvedIdentity reg = v) := by
  rw [filter_filter]
  refine filter_congr fun r _ => ?_
  simp only [lifeKey, Prod.mk.injEq, SortPart.pos_injective.eq_iff, Bool.decide_and,
    Bool.and_comm]

/-- **Deduplication applies the lifecycle rule to each fact of a window.** -/
lemma dedup_lifecycle (h : Asc eventPos records) (sp : SortPart) (v : UInt16 × UInt32) :
    ∃ ev, Lifecycle (records.filter (fun r => r.lifeKey reg = (sp, v)))
      ((dedupFactLifecycles σ reg records).1.filter (fun r => r.lifeKey reg = (sp, v)))
      ((dedupFactLifecycles σ reg records).2.filter (fun r => r.lifeKey reg = (sp, v))) ev := by
  have hsame : ∀ a b, sameSortPrefix a b = true ↔ a.sortPart.pos = b.sortPart.pos :=
    fun a b => sameSortPrefix_iff
  have hrun1 : ((dedupFactLifecycles σ reg records).1).filter (fun r => r.sortPart.pos = sp.pos) =
      (dedupRun σ reg (records.filter (fun r => r.sortPart.pos = sp.pos))).1 :=
    flatMap_runsBy_filter hsame (asc_sortPart h) (fun run => (dedupRun σ reg run).1)
      (fun run w hw b hb => hw b (mem_dedupRun σ reg (.inl hb))) (by rw [dedupRun_nil]) sp.pos
  have hrun2 : ((dedupFactLifecycles σ reg records).2).filter (fun r => r.sortPart.pos = sp.pos) =
      (dedupRun σ reg (records.filter (fun r => r.sortPart.pos = sp.pos))).2 :=
    flatMap_runsBy_filter hsame (asc_sortPart h) (fun run => (dedupRun σ reg run).2)
      (fun run w hw b hb => hw b (mem_dedupRun σ reg (.inr hb))) (by rw [dedupRun_nil]) sp.pos
  rw [filter_lifeKey, filter_lifeKey, filter_lifeKey, hrun1, hrun2]
  exact dedupRun_lifecycle σ reg _ v

variable (p : RunRecord → Bool)

lemma dedupWalk_countP (w : RunRecord) (l : List RunRecord) :
    (dedupWalk reg w l).1.countP p + (dedupWalk reg w l).2.countP p ≤ (w :: l).countP p := by
  induction l generalizing w with
  | nil => simp [dedupWalk]
  | cons e l ih =>
    have he := ih e
    have hw := ih w
    unfold dedupWalk
    split
    · simp only [countP_cons] at he ⊢
      omega
    · split
      · simp only [countP_cons] at hw ⊢
        omega
      · simp only [countP_cons] at he ⊢
        omega

lemma dedupRun_countP (run : List RunRecord) :
    (dedupRun σ reg run).1.countP p + (dedupRun σ reg run).2.countP p ≤ run.countP p := by
  unfold dedupRun
  split
  · simp
  have hperm := σ.perm (cmpLifecycle reg) run
  unfold dedupGroup
  revert hperm
  cases σ.sort (cmpLifecycle reg) run with
  | nil => simp
  | cons w l =>
    intro hperm
    rw [← hperm.countP_eq, (σ.perm cmpWinner _).countP_eq]
    exact dedupWalk_countP reg p w l

lemma dedup_countP (records : List RunRecord) : (dedupFactLifecycles σ reg records).1.countP p +
      (dedupFactLifecycles σ reg records).2.countP p ≤ records.countP p := by
  conv_rhs => rw [← flatten_runsBy sameSortPrefix records]
  simp only [dedupFactLifecycles]
  induction runsBy sameSortPrefix records with
  | nil => simp
  | cons run =>
    have hrun := dedupRun_countP σ reg p run
    simp only [flatMap_cons, flatten_cons, countP_append]
    omega

/-! ## The lifecycle of a fact -/

lemma lifecycleFrom_head (w : RunRecord) (l : List RunRecord) :
    ∃ tl, lifecycleFrom w l = w :: tl := by
  induction l with
  | nil => exact ⟨[], rfl⟩
  | cons e l ih =>
    unfold lifecycleFrom
    split
    · exact ih
    · exact ⟨_, rfl⟩

lemma lifecycleFrom_before_assert (h : lifecycleFrom w l = K ++ [x]) (hx : x.op = true) :
    K = [] ∨ ∀ p, endState op p K = false := by
  induction l generalizing w K with
  | nil =>
    have := congrArg List.length h
    simp only [lifecycleFrom, length_singleton, length_append] at this
    exact .inl (length_eq_zero_iff.1 (by omega))
  | cons e l ih =>
    unfold lifecycleFrom at h
    split at h
    · exact ih h
    rename_i hkeep
    cases K with
    | nil => exact .inl rfl
    | cons =>
      obtain ⟨rfl, h'⟩ := List.cons.inj h
      refine .inr fun p => ?_
      rcases ih h' with rfl | hK
      · -- the winner `x` directly replaced `w`
        obtain ⟨tl, htl⟩ := lifecycleFrom_head e l
        obtain ⟨rfl, -⟩ := List.cons.inj (htl.symm.trans h')
        cases hw : w.op with
        | false => exact hw
        | true => simp [keepsWinner, hx, hw] at hkeep
      · exact hK w.op

lemma lifecycle_before_assert (h : lifecycle l = K ++ [x])
    (hx : x.op = true) : K = [] ∨ ∀ p, endState op p K = false := by
  cases l with
  | nil => simp [lifecycle] at h
  | cons => exact lifecycleFrom_before_assert h hx

/-- `w` decides the events of `P`: a retract that nothing follows in time, or an assert from whose
time on there are only asserts. -/
structure Decides (w : RunRecord) (P : List RunRecord) : Prop where
  mem : w ∈ P
  retract : w.op = false → ∀ b ∈ P, b.time ≤ w.time
  assert : w.op = true → ∀ b ∈ P, w.time ≤ b.time → b.op = true

lemma Decides.snoc (h : Decides w P)
    (hasc : ∀ b ∈ P, rank time op b ≤ rank time op e) :
    if keepsWinner w e then Decides w (P ++ [e]) else Decides e (P ++ [e]) := by
  have htime : ∀ b ∈ P, b.time ≤ e.time := fun b hb => time_le_of_rank_le (hasc b hb)
  cases hkeep : keepsWinner w e with
  | true =>
    -- `e` is an assert, after an asserting winner or at the time of a retracting one
    rw [if_pos rfl]
    have heop : e.op = true := by cases he : e.op <;> simp_all [keepsWinner]
    refine ⟨by simp [h.mem], fun hw b hb => ?_, fun hw b hb hle => ?_⟩
    · rcases mem_append.1 hb with hb | hb
      · exact h.retract hw b hb
      rw [mem_singleton.1 hb]
      have ht : e.t = w.t := by simpa [keepsWinner, heop, hw] using hkeep
      exact le_of_eq (congrArg UInt32.toNat ht)
    · rcases mem_append.1 hb with hb | hb
      · exact h.assert hw b hb hle
      · rw [mem_singleton.1 hb]; exact heop
  | false =>
    rw [if_neg (by simp)]
    refine ⟨by simp, fun _ b hb => ?_, fun he b hb hle => ?_⟩
    · rcases mem_append.1 hb with hb | hb
      · exact htime b hb
      · rw [mem_singleton.1 hb]
    · rcases mem_append.1 hb with hb | hb
      · -- an assert only replaces an earlier retract, and nothing is later than that
        have hw : w.op = false := by cases hw : w.op <;> simp_all [keepsWinner]
        have hne : e.t ≠ w.t := by
          intro ht
          simp [keepsWinner, he, hw, ht] at hkeep
        have h1 := h.retract hw b hb
        have h2 := htime w h.mem
        have h3 : e.time ≠ w.time := fun ht => hne (UInt32.toNat_inj.1 ht)
        omega
      · rw [mem_singleton.1 hb]; exact he

lemma lifecycleFrom_decides (h : Decides w P)
    (hasc : Asc (rank time op) (P ++ l)) :
    ∃ f, (lifecycleFrom w l).getLast? = some f ∧ Decides f (P ++ l) := by
  induction l generalizing w P with
  | nil => exact ⟨w, rfl, by simpa using h⟩
  | cons e l ih =>
    have hle := (pairwise_append.1 hasc).2.2
    have hstep := h.snoc (e := e) fun b hb => hle b hb e (by simp)
    have hasc' : Asc (rank time op) ((P ++ [e]) ++ l) := by
      rw [← append_cons]; exact hasc
    unfold lifecycleFrom
    split
    · rename_i hkeep
      rw [if_pos hkeep] at hstep
      simpa using ih hstep hasc'
    · rename_i hkeep
      rw [if_neg hkeep] at hstep
      obtain ⟨f, hf, hd⟩ := ih hstep hasc'
      refine ⟨f, ?_, by simpa using hd⟩
      rw [List.getLast?_cons, hf]
      rfl

/-- **The winner of a lifecycle is the retract-wins state of its events**, also when an assert and
a retract share a time. -/
lemma lifecycle_retractWins (hasc : Asc (rank time op) ev)
    (hf : (lifecycle ev).getLast? = some f) :
    f.op = true ↔ RetractWins time op (· ∈ ev) := by
  cases ev with
  | nil => simp [lifecycle] at hf
  | cons w l =>
    have hw : Decides w [w] :=
      ⟨by simp, fun _ b hb => by rw [mem_singleton.1 hb],
        fun h b hb _ => by rw [mem_singleton.1 hb]; exact h⟩
    obtain ⟨f', hf', hd⟩ := lifecycleFrom_decides (l := l) hw hasc
    obtain rfl : f' = f := Option.some.inj (hf'.symm.trans hf)
    constructor
    · intro hop
      -- the last event is the latest one
      have hne : w :: l ≠ [] := by simp
      have hmax : ∀ b ∈ w :: l, b.time ≤ ((w :: l).getLast hne).time := by
        intro b hb
        have hd' := dropLast_append_getLast hne
        have hasc' := hasc.of_rank
        rw [← hd'] at hb hasc'
        rcases mem_append.1 hb with hb | hb
        · exact (pairwise_append.1 hasc').2.2 b hb _ (by simp)
        · rw [mem_singleton.1 hb]
      refine ⟨_, getLast_mem hne, ?_, fun b hb => ⟨hmax b hb, fun he => ?_⟩⟩
      · exact hd.assert hop _ (getLast_mem hne) (hmax f' hd.mem)
      · exact hd.assert hop b hb (he ▸ hmax f' hd.mem)
    · rintro ⟨a, ha, -, hall⟩
      by_contra hop
      have hle := hd.retract (by simpa using hop) a ha
      exact hop ((hall f' hd.mem).2 (le_antisymm (hall f' hd.mem).1 hle))

lemma stateAt_lifecycleFrom (h : StrictAsc time (w :: l)) (p : Bool) (τ : ℕ) :
    stateAt time op p (lifecycleFrom w l) τ =
      stateAt time op p (w :: l) τ := by
  induction l generalizing w p with
  | nil => rfl
  | cons e l ih =>
    have hw := pairwise_cons.1 h
    have hwe : w.time < e.time := hw.1 e (by simp)
    have hwl : StrictAsc time (w :: l) := h.sublist ((sublist_cons_self e l).cons_cons w)
    unfold lifecycleFrom
    split
    · rename_i hkeep
      rw [ih hwl, stateAt_cons, stateAt_cons, stateAt_cons, stateAt_cons]
      -- times differ, so the event is a re-assert of an asserted fact
      have hne : (e.t == w.t) = false := by
        rw [beq_eq_false_iff_ne]
        rintro he
        simp only [time, he] at hwe
        omega
      have hops : e.op = w.op := by cases he : e.op <;> cases hw' : w.op <;> simp_all [keepsWinner]
      by_cases he : e.time ≤ τ
      · have hwτ : w.time ≤ τ := by omega
        simp [he, hwτ, hops]
      · simp [he]
    · rw [stateAt_cons, ih hw.2, ih hw.2]
      exact stateAt_cons.symm

/-- **With different times per event, deduplication changes presence at no time.** -/
lemma stateAt_lifecycle (h : StrictAsc time ev) (p : Bool) (τ : ℕ) :
    stateAt time op p (lifecycle ev) τ =
      stateAt time op p ev τ := by
  cases ev with
  | nil => rfl
  | cons => exact stateAt_lifecycleFrom h p τ

end

/-!
## What one indexing window does to one fact

The streams a window hands to the merge are read fact by fact, in terms of the window's own
events (`window_fact`): the winner is the last event of the fact's lifecycle, the superseded
events are the ones before it.

Deduplication groups events by object kind, while the merge and replay compare identities that
do not contain it. The two agree as long as `OneKind` holds: the events of one fact in the
window carry one object kind.
-/

open RunRecord RunRecordV2 HistEntryV2 List.Perm

variable {σ : SortUnstable} {reg : OTypeRegistry} {order : RunSortOrder} {g : UInt16}

def OneKind (reg : OTypeRegistry) (events : List RunRecord) : Prop :=
  ∀ a ∈ events, ∀ b ∈ events, a.gId = b.gId → a.factKey reg = b.factKey reg → a.oKind = b.oKind

def factEvents (reg : OTypeRegistry) (g : UInt16) (k : FactKeyV3) (events : List RunRecord) :
    List RunRecord :=
  events.filter (fun r => r.gId = g ∧ r.factKey reg = k)

@[simp] lemma toV2_factKey (r : RunRecord) : (r.toV2 reg).1.factKey = r.factKey reg := rfl

@[simp] lemma toV2_gId (r : RunRecord) : (r.toV2 reg).1.gId = r.gId := rfl

variable {k : FactKeyV3} {events : List RunRecord} {rows : List RunRecordV2}
  {E : List (RunRecordV2 × Bool)}

@[simp] lemma mem_factEvents :
    r ∈ factEvents reg g k events ↔ r ∈ events ∧ r.gId = g ∧ r.factKey reg = k := by
  simp [factEvents]

lemma lifeKey_eq_iff {a b : RunRecord} (hkind : a.gId = b.gId → a.factKey reg = b.factKey reg →
    a.oKind = b.oKind) :
    a.lifeKey reg = b.lifeKey reg ↔ a.gId = b.gId ∧ a.factKey reg = b.factKey reg := by
  constructor
  · intro h
    simp only [lifeKey, sortPart, resolvedIdentity, Prod.mk.injEq, SortPart.mk.injEq] at h
    simp only [RunRecord.factKey, RunRecordV2.fromV1, RunRecordV2.factKey, FactKeyV3.mk.injEq]
    tauto
  · rintro ⟨hg, hk⟩
    have hkd := hkind hg hk
    simp only [RunRecord.factKey, RunRecordV2.fromV1, RunRecordV2.factKey, FactKeyV3.mk.injEq] at hk
    simp only [lifeKey, sortPart, resolvedIdentity, Prod.mk.injEq, SortPart.mk.injEq]
    tauto

lemma factEvents_eq_lifeKey {l : List RunRecord} (hone : OneKind reg events) {a : RunRecord}
    (ha : a ∈ factEvents reg g k events) (hl : ∀ r ∈ l, r ∈ events) :
    factEvents reg g k l = l.filter (fun r => r.lifeKey reg = a.lifeKey reg) := by
  obtain ⟨hae, hag, hak⟩ := mem_factEvents.1 ha
  refine filter_congr fun r hr => ?_
  rw [Bool.eq_iff_iff, decide_eq_true_eq, decide_eq_true_eq,
    lifeKey_eq_iff (hone r (hl r hr) a hae), hag, hak]

lemma mem_dedup
    (h : r ∈ (dedupFactLifecycles σ reg records).1 ∨ r ∈ (dedupFactLifecycles σ reg records).2) :
    r ∈ records := by
  rw [← flatten_runsBy sameSortPrefix records, mem_flatten]
  simp only [dedupFactLifecycles, mem_flatMap] at h
  rcases h with ⟨run, hrun, hr⟩ | ⟨run, hrun, hr⟩
  · exact ⟨run, hrun, mem_dedupRun σ reg (.inl hr)⟩
  · exact ⟨run, hrun, mem_dedupRun σ reg (.inr hr)⟩

lemma dedup_fact (hone : OneKind reg events) (g : UInt16) (k : FactKeyV3) :
    ∃ ev, Lifecycle (factEvents reg g k events)
      (factEvents reg g k (dedupFactLifecycles σ reg (σ.sort cmpGraphSpot events)).1)
      (factEvents reg g k (dedupFactLifecycles σ reg (σ.sort cmpGraphSpot events)).2) ev := by
  have hmem : ∀ r, r ∈ (dedupFactLifecycles σ reg (σ.sort cmpGraphSpot events)).1 ∨
      r ∈ (dedupFactLifecycles σ reg (σ.sort cmpGraphSpot events)).2 → r ∈ events :=
    fun r hr => σ.mem_sort.1 (mem_dedup hr)
  by_cases hex : ∃ a, a ∈ factEvents reg g k events
  · obtain ⟨a, ha⟩ := hex
    have hasc : Asc eventPos (σ.sort cmpGraphSpot events) := σ.asc cmpGraphSpot_eq_compare events
    obtain ⟨ev, hev⟩ := dedup_lifecycle σ reg hasc a.sortPart (a.resolvedIdentity reg)
    refine ⟨ev, ?_, hev.asc, ?_, ?_⟩
    · rw [factEvents_eq_lifeKey hone ha (fun r hr => hr)]
      exact hev.perm.trans ((σ.perm cmpGraphSpot events).filter _)
    · rw [factEvents_eq_lifeKey hone ha (fun r hr => hmem r (.inl hr))]
      exact hev.winner
    · rw [factEvents_eq_lifeKey hone ha (fun r hr => hmem r (.inr hr))]
      exact hev.rest
  · have hnil : ∀ l : List RunRecord, (∀ r ∈ l, r ∈ events) → factEvents reg g k l = [] := by
      intro l hl
      rw [eq_nil_iff_forall_not_mem]
      intro r hr
      obtain ⟨hr, hrg⟩ := mem_factEvents.1 hr
      exact hex ⟨r, mem_factEvents.2 ⟨hl r hr, hrg⟩⟩
    rw [hnil events (fun r hr => hr), hnil _ (fun r hr => hmem r (.inl hr)),
      hnil _ (fun r hr => hmem r (.inr hr))]
    exact ⟨[], .refl _, List.Pairwise.nil, rfl, rfl⟩

lemma eventsOf_graphStream (l : List RunRecord) (k : FactKeyV3) :
    (eventsOf k (graphStream σ order g (l.map (toV2 reg)))).Perm
      ((factEvents reg g k l).map (toV2 reg)) := by
  refine ((σ.perm _ _).filter _).trans ?_
  rw [filter_map, filter_map, filter_filter, factEvents]
  refine of_eq (congrArg _ (filter_congr fun r _ => ?_))
  rw [Bool.eq_iff_iff]
  simp only [Function.comp_apply, toV2_factKey, toV2_gId, Bool.and_eq_true, decide_eq_true_eq,
    beq_iff_eq, and_comm]
  exact and_congr_right fun _ => decide_eq_true_iff

/-- One window, one fact: what reaches the merge. -/
structure WindowFact (σ : SortUnstable) (reg : OTypeRegistry) (order : RunSortOrder) (g : UInt16)
    (events : List RunRecord) (k : FactKeyV3) (ev : List RunRecord) : Prop where
  perm : ev.Perm (factEvents reg g k events)
  asc : Asc (rank time op) ev
  winner : eventsOf k (graphStream σ order g (resolveWindow σ reg events).records) =
    ((lifecycle ev).getLast?.map (toV2 reg)).toList
  rest : (eventsOf k (graphStream σ order g (resolveWindow σ reg events).superseded)).Perm
    ((lifecycle ev).dropLast.map (toV2 reg))

lemma window_fact (order : RunSortOrder) (g : UInt16) (hone : OneKind reg events) (k : FactKeyV3) :
    ∃ ev, WindowFact σ reg order g events k ev := by
  obtain ⟨ev, hev⟩ := dedup_fact (σ := σ) hone g k
  refine ⟨ev, hev.perm, hev.asc, ?_, ?_⟩
  · refine eq_of_perm_option ((eventsOf_graphStream _ k).trans (of_eq ?_))
    rw [hev.winner]
    cases (lifecycle ev).getLast? <;> rfl
  · exact (eventsOf_graphStream _ k).trans (of_eq (congrArg _ hev.rest))

lemma strictAsc_of_one (h : Asc (evPos order) l)
    (hone : ∀ k, (eventsOf k l).length ≤ 1) : StrictAsc (evPos order) l := by
  induction l with
  | nil => exact List.Pairwise.nil
  | cons a l ih =>
    obtain ⟨ha, hl⟩ := pairwise_cons.1 h
    refine pairwise_cons.2 ⟨fun b hb => lt_of_le_of_ne (ha b hb) fun he => ?_, ih hl fun k => ?_⟩
    · have hk : b.1.factKey = a.1.factKey := ((pos_eq_iff order).1 he).symm
      have hb' : b ∈ eventsOf a.1.factKey l := mem_eventsOf.2 ⟨hb, hk⟩
      have h1 := hone a.1.factKey
      rw [eventsOf, filter_cons_of_pos (by simp)] at h1
      have h2 := length_pos_of_mem hb'
      simp only [eventsOf] at h2
      simp only [length_cons] at h1
      omega
    · exact le_trans (List.Sublist.length_le ((sublist_cons_self a l).filter _)) (hone k)

lemma graphStream_asc (l : List (RunRecordV2 × Bool)) : Asc (evPos order) (graphStream σ order g l) :=
  σ.asc (fun a b => cmpV2ForOrder_eq_compare order a.1 b.1) _

/-- **The streams of a window fit the merge**: sorted, one operation per fact, and every superseded
event with its winner. -/
lemma window_ready (hone : OneKind reg events) (hrows : StrictAsc (pos order) rows) :
    MergeReady order rows (graphStream σ order g (resolveWindow σ reg events).records)
      (graphStream σ order g (resolveWindow σ reg events).superseded) := by
  refine ⟨hrows, strictAsc_of_one (graphStream_asc _) fun k => ?_, graphStream_asc _, ?_⟩
  · obtain ⟨ev, hev⟩ := window_fact (σ := σ) order g hone k
    rw [hev.winner]
    cases (lifecycle ev).getLast? <;> simp
  · intro s hs
    obtain ⟨ev, hev⟩ := window_fact (σ := σ) order g hone s.1.factKey
    have hmem := hev.rest.mem_iff.1 (mem_eventsOf.2 ⟨hs, rfl⟩)
    have hne : lifecycle ev ≠ [] := by
      intro hnil
      rw [hnil] at hmem
      simp at hmem
    have hwin := hev.winner
    rw [List.getLast?_eq_some_getLast hne] at hwin
    have hin : (((lifecycle ev).getLast hne).toV2 reg) ∈ eventsOf s.1.factKey
        (graphStream σ order g (resolveWindow σ reg events).records) := by
      rw [hwin]; simp
    exact ⟨_, mem_eventsOf.1 hin⟩

/-- The merge of a window never panics; what it returns is the result of the walk. -/
lemma mergeNovelty_window (hone : OneKind reg events)
    (hdec : columnBatchToRecords st.batch = some rows) (hrows : StrictAsc (pos order) rows) :
    mergeNovelty σ (windowInput σ reg order g st events) =
      let w := mergeWalk σ order rows (graphStream σ order g (resolveWindow σ reg events).records)
        (graphStream σ order g (resolveWindow σ reg events).superseded)
      some ⟨w.out, assembleHistory σ w.newHistory st.history, w.matched⟩ := by
  simp only [mergeNovelty, windowInput, hdec, Option.bind_eq_bind, Option.bind_some,
    mergeWalk_rest (window_ready hone hrows)]
  rfl

lemma graphStream_length (l : List RunRecord) :
    (graphStream σ order g (l.map (toV2 reg))).length = l.countP (fun r => r.gId == g) := by
  rw [graphStream, (σ.perm _ _).length_eq, filter_map, length_map, countP_eq_length_filter]
  rfl

lemma window_length (reg : OTypeRegistry) (order : RunSortOrder) (events : List RunRecord) :
    (graphStream σ order g (resolveWindow σ reg events).records).length +
      (graphStream σ order g (resolveWindow σ reg events).superseded).length ≤
        events.countP (fun r => r.gId == g) := by
  simp only [resolveWindow, graphStream_length]
  rw [← (σ.perm cmpGraphSpot events).countP_eq]
  exact dedup_countP σ reg _ _

/-! ## The merge of one fact -/

def evOf (e : RunRecordV2 × Bool) : ℕ × Bool := (e.1.t.toNat, e.2)

variable {events : List (RunRecordV2 × Bool)}

lemma sort_cmpEvent_eq (hperm : events.Perm E) (hE : StrictAsc evTime E) :
    σ.sort cmpEvent events = E := by
  have hasc : Asc evTime (σ.sort cmpEvent events) := (sort_cmpEvent_asc σ events).of_rank
  have hp : (σ.sort cmpEvent events).Perm E := (σ.perm cmpEvent events).trans hperm
  refine eq_of_pairwise ?_ hasc hE.asc hp
  intro a b ha hb hab hba
  exact hE.eq_of_key_eq (hp.mem_iff.1 ha) hb (le_antisymm hab hba)

lemma resolveTransitions_assert
    (hsort : σ.sort cmpEvent events = E ++ [(nov, true)]) (hend : endState Prod.snd p E = false) :
    resolveTransitions σ events p = (transitions Prod.snd p E, some nov) := by
  simp [resolveTransitions, hsort, hend, transitions]

lemma resolveTransitions_retract (hsort : σ.sort cmpEvent events = E ++ [(nov, false)]) :
    resolveTransitions σ events p = (transitions Prod.snd p (E ++ [(nov, false)]), none) := by
  have hend : endState Prod.snd p (transitions Prod.snd p (E ++ [(nov, false)])) = false := by
    rw [endState_transitions, endState_append]; rfl
  simp only [resolveTransitions, hsort]
  generalize transitions Prod.snd p (E ++ [(nov, false)]) = kept at hend
  cases hl : kept.getLast? with
  | none => rfl
  | some e =>
    obtain ⟨_, o⟩ := e
    obtain ⟨_, rfl⟩ := List.getLast?_eq_some_iff.1 hl
    have ho : o = false := by simpa [endState] using hend
    rw [ho]

/-- What a merged operation adds to the timeline of its fact: `M` continues the old row's
presence, and its last item is the new row. -/
structure MergedTimeline (rows : List RunRecordV2) (step : MergeStep) (nov : RunRecordV2) (op : Bool)
    (E M : List (ℕ × Bool)) : Prop where
  condenses : Condenses (!rows.isEmpty) E M
  log : (step.entries.map HistEntryV2.ev ++ step.rows.map RunRecordV2.ev).Perm
    (rows.map RunRecordV2.ev ++ M)
  row : step.rows = if op then [nov] else []
  last : op = true → M.getLast? = some nov.ev
  absent : op = false → endState Prod.snd (!rows.isEmpty) M = false

lemma map_recordToHistEntry (l : List (RunRecordV2 × Bool)) :
    (l.map (fun e => recordToHistEntry e.1 e.2)).map HistEntryV2.ev = l.map evOf := by
  rw [map_map]; rfl

lemma map_evOf_strictAsc (hE : StrictAsc evTime E) :
    StrictAsc Prod.fst (E.map evOf) := pairwise_map.2 hE

variable {rows : List RunRecordV2} {E events : List (RunRecordV2 × Bool)} {nov : RunRecordV2}

lemma rows_stepFor {op} : (stepFor σ rows events nov op).rows = if op then [nov] else [] := by
  cases rows <;> rfl

lemma ev_entries_stepFor {op kept row} (hrows : rows.length ≤ 1)
    (hres : resolveTransitions σ events (!rows.isEmpty) = (kept, row))
    (hchanged : op = true → row.isSome) :
    (stepFor σ rows events nov op).entries.map HistEntryV2.ev =
      rows.map RunRecordV2.ev ++ kept.map evOf := by
  cases rows with
  | nil =>
    have hres : resolveTransitions σ events false = _ := hres
    simp only [stepFor, absentStep, pushTransitionEntries, hres, map_recordToHistEntry]
    rfl
  | cons r rs =>
    have hrs : rs = [] := length_eq_zero_iff.1 (by simpa using hrows)
    have hres : resolveTransitions σ events true = _ := hres
    have hplain : (op && !(row.isSome || !kept.isEmpty)) = false := by
      cases op <;> simp_all
    simp only [stepFor, presentStep, pushTransitionEntries, hres, hplain, hrs, map_cons,
      cons_append, map_append, map_recordToHistEntry]
    simp [HistEntryV2.ev, recordToHistEntry, RunRecordV2.ev]

lemma stepFor_retract (hrows : rows.length ≤ 1) (hperm : events.Perm (E ++ [(nov, false)]))
    (hE : StrictAsc evTime (E ++ [(nov, false)])) :
    MergedTimeline rows (stepFor σ rows events nov false) nov false ((E ++ [(nov, false)]).map evOf)
      (transitions Prod.snd (!rows.isEmpty) ((E ++ [(nov, false)]).map evOf)) := by
  have hsort := sort_cmpEvent_eq (σ := σ) hperm hE
  refine ⟨.transitions (map_evOf_strictAsc hE) _, ?_, rows_stepFor, by simp, ?_⟩
  · rw [ev_entries_stepFor hrows (resolveTransitions_retract hsort) (by simp), rows_stepFor,
      transitions_map]
    simp [evOf]
  · intro _
    rw [endState_transitions, map_append, endState_append]
    rfl

lemma stepFor_assert (hrows : rows.length ≤ 1) (hperm : events.Perm (E ++ [(nov, true)]))
    (hE : StrictAsc evTime (E ++ [(nov, true)])) (hend : endState Prod.snd (!rows.isEmpty) E = false) :
    MergedTimeline rows (stepFor σ rows events nov true) nov true ((E ++ [(nov, true)]).map evOf)
      (transitions Prod.snd (!rows.isEmpty) ((E ++ [(nov, true)]).map evOf)) := by
  have hsort := sort_cmpEvent_eq (σ := σ) hperm hE
  have hmap : transitions Prod.snd (!rows.isEmpty) ((E ++ [(nov, true)]).map evOf) =
      (transitions Prod.snd (!rows.isEmpty) E).map evOf ++ [nov.ev] := by
    rw [transitions_map]
    simp only [evOf, transitions_append, hend, transitions]
    simp [evOf, RunRecordV2.ev]
  refine ⟨.transitions (map_evOf_strictAsc hE) _, ?_, rows_stepFor, ?_, by simp⟩
  · rw [hmap, ev_entries_stepFor hrows (resolveTransitions_assert hsort hend) (by simp),
      rows_stepFor]
    simp
  · intro _
    rw [hmap]
    simp

/-- A plain re-assert of a present fact: the old row ends where the new one starts. -/
lemma stepFor_reassert (r : RunRecordV2) :
    MergedTimeline [r] (stepFor σ [r] [(nov, true)] nov true) nov true [evOf (nov, true)]
      [(nov.t.toNat, false), (nov.t.toNat, true)] := by
  have hsort : σ.sort cmpEvent [(nov, true)] = [(nov, true)] := perm_singleton.1 (σ.perm cmpEvent _)
  refine ⟨.renew _, ?_, rfl, by simp [RunRecordV2.ev], by simp⟩
  simp [stepFor, presentStep, pushTransitionEntries, resolveTransitions, hsort, transitions,
    HistEntryV2.ev, recordToHistEntry, RunRecordV2.ev]

/-- **The merge of one fact**: before a winning assert the fact was absent, or nothing else
happened to it in the window. -/
lemma stepFor_timeline {op} (hrows : rows.length ≤ 1) (hperm : events.Perm (E ++ [(nov, op)]))
    (hE : StrictAsc evTime (E ++ [(nov, op)]))
    (hbefore : op = true → E = [] ∨ ∀ p, endState Prod.snd p E = false) :
    ∃ M, MergedTimeline rows (stepFor σ rows events nov op) nov op ((E ++ [(nov, op)]).map evOf) M := by
  cases op with
  | false => exact ⟨_, stepFor_retract hrows hperm hE⟩
  | true =>
    by_cases hend : endState Prod.snd (!rows.isEmpty) E = false
    · exact ⟨_, stepFor_assert hrows hperm hE hend⟩
    rcases hbefore rfl with rfl | hb
    · cases rows with
      | nil => simp at hend
      | cons r rs =>
        have hrs : rs = [] := length_eq_zero_iff.1 (by simpa using hrows)
        subst hrs
        rw [perm_singleton.1 hperm]
        exact ⟨_, stepFor_reassert r⟩
    · exact absurd (hb _) hend

/-- **A merged operation continues the stored timeline.** -/
lemma Stored.merge {rows' history history' L E M step op} (hs : Stored k rows history L)
    (hm : MergedTimeline (rowsOf k rows) step nov op E M) (hlt : ∀ a ∈ L, ∀ b ∈ E, a.1 < b.1)
    (hrows : rowsOf k rows' = step.rows)
    (hhist : (entriesOf k history').Perm (step.entries ++ entriesOf k history)) :
    Stored k rows' history' (L ++ M) := by
  refine ⟨?_, ?_, ?_, ?_, ?_⟩
  · calc storedLog k rows' history'
        _ = (entriesOf k history').map HistEntryV2.ev ++ step.rows.map RunRecordV2.ev := by
          rw [storedLog, hrows]
        List.Perm _ ((step.entries ++ entriesOf k history).map HistEntryV2.ev ++
            step.rows.map RunRecordV2.ev) := (hhist.map _).append_right _
        List.Perm _ ((entriesOf k history).map HistEntryV2.ev ++
            (step.entries.map HistEntryV2.ev ++ step.rows.map RunRecordV2.ev)) := by
          rw [map_append, ← append_assoc]
          exact perm_append_comm.append_right _
        List.Perm _ ((entriesOf k history).map HistEntryV2.ev ++
            ((rowsOf k rows).map RunRecordV2.ev ++ M)) := hm.log.append_left _
        List.Perm _ (L ++ M) := by
          rw [← append_assoc]
          exact hs.perm.append_right _
  · refine pairwise_append.2 ⟨hs.asc, hm.condenses.asc, ?_⟩
    intro a ha b hb
    obtain ⟨c, hc, hcb⟩ := hm.condenses.times b hb
    exact Prod.Lex.lt_iff.2 (.inl (hcb ▸ hlt a ha c hc))
  · refine flipsFrom_append.2 ⟨hs.flips, ?_⟩
    rw [hs.endState_eq]
    exact hm.condenses.flips
  · intro r hr
    rw [hrows, hm.row] at hr
    cases op with
    | false => simp at hr
    | true =>
      have hrn : r = nov := by simpa using hr
      rw [List.getLast?_append, hm.last rfl, hrn]
      rfl
  · intro hnil
    rw [hrows, hm.row] at hnil
    cases op with
    | false => rw [endState_append, hs.endState_eq]; exact hm.absent rfl
    | true => simp at hnil

end Fluree
