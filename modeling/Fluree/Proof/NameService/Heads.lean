import Fluree.Proof.NameService.Tracked

/-!
# Heads move forward, retraction freezes them
-/

namespace Fluree.NameService

open Lib Option KeyedMap Finset SortUnstable

def Command.Resets (c : Command) (key : RefKey) : Prop :=
  ∃ snapshot millis, c = .resetHead key.ledgerName key.branch snapshot millis

/-- The answers that report a new submission, head or index. -/
def Response.moves : Response → Bool
  | .enqueued .. | .headApplied .. | .refCasUpdated | .indexAdvanced .. | .headReset .. => true
  | _ => false

def Response.removes : Response → Bool
  | .branchDropped .. | .purged .. => true
  | _ => false

/-- A head is not older, is newer if it is another commit, and an index is not lost or older. -/
structure Forward (e e' : RefEntry) : Prop where
  t : e.t ≤ e'.t
  head : e.head ≠ e'.head → e.t < e'.t
  index : ∀ i, e.index = some i → ∃ i', e'.index = some i' ∧ i.t ≤ i'.t

lemma Forward.refl (e : RefEntry) : Forward e e :=
  ⟨le_rfl, fun h => absurd rfl h, fun i hi => ⟨i, hi, le_rfl⟩⟩

lemma Forward.trans (h₁ : Forward e₁ e₂) (h₂ : Forward e₂ e₃) :
    Forward e₁ e₃ where
  t := h₁.t.trans h₂.t
  head := by
    intro hne
    by_cases h : e₁.head = e₂.head
    · exact h₁.t.trans_lt (h₂.head (h ▸ hne))
    · exact (h₁.head h).trans_le h₂.t
  index := by
    intro i hi
    obtain ⟨i₂, hi₂, hle₂⟩ := h₁.index i hi
    obtain ⟨i₃, hi₃, hle₃⟩ := h₂.index i₂ hi₂
    exact ⟨i₃, hi₃, hle₂.trans hle₃⟩

def SnapshotOrdered : Command → Prop
  | .resetHead _ _ snapshot _ => snapshot.indexT ≤ snapshot.commitT
  | _ => True

def KeepsIndex (s : NameServiceState) : Command → Prop
  | .compareAndSetRef args => args.kind = .indexHead → args.new.id = none →
      ∀ e, s.refs.lookup ⟨args.ledgerId, args.branch⟩ = some e → e.index = none
  | _ => True

variable {s s' : NameServiceState} {c : Command} {i : ℕ} {r : Response} {k : RefKey}

def headView (s : NameServiceState) (k : RefKey) : Option (ContentId × ℤ × Option IndexState) :=
  (s.refs.lookup k).map fun e => (e.head, e.t, e.index)

variable {key : RefKey} {e : RefEntry}

lemma WithoutBranch.headView (h : WithoutBranch s.refs key R) (hk : k ≠ key) :
    (R.lookup k).map (fun e => (e.head, e.t, e.index)) = NameService.headView s k := by
  obtain ⟨_, hf⟩ := h.lookup_other hk
  rw [hf, NameService.headView, Option.map_map]
  rfl

lemma headView_fork
    (hsource : s.refs.lookup ⟨name, sourceBranch⟩ = some source) (hk : k ≠ ⟨name, branch⟩) :
    (((s.refs.insert ⟨name, sourceBranch⟩ { source with branches := n }).insert
      ⟨name, branch⟩ new).lookup k).map (fun e => (e.head, e.t, e.index)) = headView s k := by
  rw [lookup_insert_ite, if_neg hk, lookup_insert_ite, headView]
  split
  · rename_i hk; rw [hk, hsource]; rfl
  · rfl

def IndexBehind (s : NameServiceState) : Prop :=
  ∀ k e i, s.refs.lookup k = some e → e.index = some i → i.t ≤ e.t

lemma IndexBehind.insert (h : IndexBehind s) (he : ∀ i, e.index = some i → i.t ≤ e.t) :
    IndexBehind { s with refs := s.refs.insert key e } := by
  intro k e' i hlookup hi
  rcases lookup_insert_some hlookup with ⟨-, rfl⟩ | ⟨-, hlookup⟩
  · exact he i hi
  · exact h k e' i hlookup hi

lemma IndexBehind.over (h : IndexBehind s)
    (ht : ∀ e, s.refs.lookup key = some e → e.t < t) (i : IndexState)
    (hi : (s.refs.lookup key).bind (·.index) = some i) : i.t ≤ t := by
  obtain ⟨e, he, hei⟩ := bind_eq_some_iff.1 hi
  exact (h key e i he hei).trans (ht e he).le

lemma IndexBehind.effect (h : IndexBehind s) (hc : SnapshotOrdered c) (heffect : Effect s c i s' r) :
    IndexBehind s' := by
  cases heffect with
  | unchanged | created => exact h
  | @branchCreated _ i _ source _ _ _ _ hsource =>
    intro k e i he hi
    rcases lookup_insert_some he with ⟨-, rfl⟩ | ⟨-, he⟩
    · cases hi
    rcases lookup_insert_some he with ⟨-, rfl⟩ | ⟨-, he⟩
    · exact h _ source i hsource hi
    · exact h k e i he hi
  | @removed _ i key _ _ _ _ _ _ _ hR =>
    intro k e i he hi
    have hk : k ≠ key := by
      rintro rfl
      rw [hR.lookup_self] at he
      cases he
    obtain ⟨_, hf⟩ := hR.lookup_other hk
    rw [hf] at he
    obtain ⟨e', he', rfl⟩ := map_eq_some_iff.1 he
    exact h k e' i he' hi
  | resetUnborn =>
    intro k e i he hi
    exact h k e i (lookup_erase_some he).2 hi
  | resetTo =>
    refine h.insert fun i hi => ?_
    obtain ⟨_, -, rfl⟩ := map_eq_some_iff.1 hi
    exact hc
  | retracted => exact h
  | indexSet _ _ _ hahead => exact h.insert hahead
  | headSet _ _ _ hmono => exact h.insert (h.over hmono)
  | statusPushed | configPushed | aside | enqueued | markerConsumed => exact h
  | headApplied _ _ _ hR =>
    cases hR with
    | noop => exact h
    | advance hadvance => exact h.insert (h.over hadvance)
  | poisoned | evicted => exact h

def MovedOn (e : RefEntry) (R : KeyedMap RefKey RefEntry) (k : RefKey) : Prop :=
  ∃ e', R.lookup k = some e' ∧ Forward e e'

lemma MovedOn.of_headView (he : s.refs.lookup k = some e)
    (h : (R.lookup k).map (fun e => (e.head, e.t, e.index)) = headView s k) : MovedOn e R k := by
  rw [headView, he, map_some] at h
  obtain ⟨e', he', hview⟩ := map_eq_some_iff.1 h
  simp only [Prod.mk.injEq] at hview
  obtain ⟨hhead, ht, hindex⟩ := hview
  exact ⟨e', he', ht.ge, fun hne => absurd hhead.symm hne, fun i hi => ⟨i, hindex.trans hi, le_rfl⟩⟩

lemma MovedOn.insert (he : s.refs.lookup k = some e) (h : k = key → Forward e e') :
    MovedOn e (s.refs.insert key e') k := by
  unfold MovedOn
  rw [lookup_insert_ite]
  split
  · exact ⟨e', rfl, h ‹_›⟩
  · exact ⟨e, he, .refl e⟩

lemma Forward.newer (he : s.refs.lookup key = some e) (ht : e.t < e'.t)
    (hindex : e'.index = (s.refs.lookup key).bind (·.index)) : Forward e e' := by
  refine ⟨ht.le, fun _ => ht, fun i hi => ⟨i, ?_, le_rfl⟩⟩
  rw [hindex, he, bind_some, hi]

/-- **One command moves a branch forward** unless it resets or removes it. -/
lemma Forward.effect (ht : Tracked s) (hc : KeepsIndex s c) (hreset : ¬ c.Resets k)
    (hremove : ¬ c.Removes k) (heffect : Effect s c i s' r) (he : s.refs.lookup k = some e) :
    MovedOn e s'.refs k := by
  have hsame : MovedOn e s.refs k := ⟨e, he, .refl e⟩
  cases heffect with
  | unchanged | created => exact hsame
  | branchCreated hnew _ hsource =>
    refine MovedOn.of_headView he (headView_fork hsource ?_)
    rintro rfl
    rw [ht.refs _ e he] at hnew
    cases hnew
  | removed hc _ hR =>
    refine MovedOn.of_headView he (hR.headView ?_)
    rintro rfl
    exact hremove hc
  | @resetUnborn ledgerId branch snapshot millis =>
    have hk : k ≠ ⟨ledgerId, branch⟩ := by
      rintro rfl
      exact hreset ⟨snapshot, millis, rfl⟩
    refine ⟨e, ?_, .refl e⟩
    simp only [lookup_erase_ite, if_neg hk, he]
  | @resetTo _ _ snapshot millis =>
    refine MovedOn.insert he ?_
    rintro rfl
    exact absurd ⟨snapshot, millis, rfl⟩ hreset
  | retracted => exact hsame
  | @indexSet _ _ _ entry index _ _ hset hentry _ _ hstale =>
    refine MovedOn.insert he ?_
    rintro rfl
    obtain rfl : e = entry := some.inj (he.symm.trans hentry)
    refine ⟨le_rfl, fun h => absurd rfl h, fun old hold => ?_⟩
    cases hindex : index with
    | some new => exact ⟨new, rfl, hstale old new hold hindex⟩
    | none =>
      -- only a compare-and-set to no id installs no index
      rcases hset with ⟨args, -, -, h⟩ | ⟨args, rfl, hkind, rfl, h⟩
      · rw [hindex] at h; cases h
      rw [hindex] at h
      have := hc hkind (map_eq_none_iff.1 h.symm) e he
      rw [hold] at this
      cases this
  | headSet _ _ _ hmono =>
    refine MovedOn.insert he ?_
    rintro rfl
    exact .newer he (hmono e he) rfl
  | statusPushed | configPushed | aside | enqueued | markerConsumed => exact hsame
  | headApplied _ _ _ hR =>
    cases hR with
    | noop => exact hsame
    | advance hadvance =>
      refine MovedOn.insert he ?_
      rintro rfl
      exact .newer he (hadvance e he) rfl
  | poisoned | evicted => exact hsame

/-- The branch is retracted, its head is `view` and nothing is queued on it. -/
structure Frozen (k : RefKey) (view : Option (ContentId × ℤ × Option IndexState))
    (s : NameServiceState) : Prop where
  retracted : k ∈ s.retracted
  view : headView s k = view
  queue : s.queues.lookup k = none

lemma headView_insert_ne (hk : k ≠ key) :
    ((s.refs.insert key e).lookup k).map (fun e => (e.head, e.t, e.index)) = headView s k := by
  rw [lookup_insert_ite, if_neg hk]
  rfl

/-- **One command leaves a retracted branch as it is** unless it removes it, and answers no
command on it with a new submission, head or index. -/
lemma Frozen.effect {view} (hf : Frozen k view s)
    (ht : Tracked s) (hremove : ¬ (c.Removes k ∧ r.removes = true)) (heffect : Effect s c i s' r) :
    Frozen k view s' ∧ (c.target = some k → r.moves = false) := by
  have hknown := ht.retracted k hf.retracted
  -- what a guard against retracted branches excludes
  have hne : ∀ key, key ∉ s.retracted → k ≠ key := fun key hkey h => hkey (h ▸ hf.retracted)
  cases heffect with
  | @unchanged c i Q r hQ hr =>
    refine ⟨⟨hf.retracted, hf.view, (hQ k).trans hf.queue⟩, fun _ => ?_⟩
    cases r <;> first | rfl | cases hr
  | created => exact ⟨⟨hf.retracted, hf.view, hf.queue⟩, fun _ => rfl⟩
  | branchCreated hnew _ hsource =>
    refine ⟨⟨hf.retracted, (headView_fork hsource ?_).trans hf.view, hf.queue⟩, fun _ => rfl⟩
    rintro rfl
    rw [hknown] at hnew
    cases hnew
  | @removed _ _ key _ _ _ _ _ hc _ hR _ hclear hr =>
    have hk : k ≠ key := by
      rintro rfl
      rcases hr with ⟨n, rfl⟩ | rfl | ⟨rfl, hunknown⟩
      · exact hremove ⟨hc, rfl⟩
      · exact hremove ⟨hc, rfl⟩
      · rw [hknown] at hunknown; cases hunknown
    refine ⟨⟨mem_erase.2 ⟨hk, hf.retracted⟩, (hR.headView hk).trans hf.view,
      hclear.lookup_eq_none fun _ => hf.queue⟩, fun _ => ?_⟩
    rcases hr with ⟨n, rfl⟩ | rfl | ⟨rfl, -⟩ <;> rfl
  | resetUnborn _ hret _ hclear =>
    have hk := hne _ hret
    refine ⟨⟨hf.retracted, ?_, hclear.lookup_eq_none fun _ => hf.queue⟩, fun h => ?_⟩
    · rw [← hf.view]
      simp only [headView, lookup_erase_ite, if_neg hk]
    · exact absurd (some.inj h).symm hk
  | resetTo _ hret _ hclear =>
    have hk := hne _ hret
    exact ⟨⟨hf.retracted, (headView_insert_ne hk).trans hf.view,
      hclear.lookup_eq_none fun _ => hf.queue⟩, fun h => absurd (some.inj h).symm hk⟩
  | retracted _ _ hclear =>
    exact ⟨⟨mem_insert_of_mem hf.retracted, hf.view,
      hclear.lookup_eq_none fun _ => hf.queue⟩, fun _ => rfl⟩
  | @indexSet _ _ _ _ _ _ _ hset _ hret =>
    have hk := hne _ hret
    refine ⟨⟨hf.retracted, (headView_insert_ne hk).trans hf.view, hf.queue⟩, fun h => ?_⟩
    rw [hset.target] at h
    exact absurd (some.inj h).symm hk
  | headSet _ _ hret =>
    have hk := hne _ hret
    exact ⟨⟨hf.retracted, (headView_insert_ne hk).trans hf.view, hf.queue⟩,
      fun h => absurd (some.inj h).symm hk⟩
  | statusPushed | configPushed => exact ⟨⟨hf.retracted, hf.view, hf.queue⟩, fun _ => rfl⟩
  | @aside c i G W r hr | @markerConsumed _ _ _ r hr =>
    refine ⟨⟨hf.retracted, hf.view, hf.queue⟩, fun _ => ?_⟩
    cases r <;> first | rfl | cases hr
  | enqueued _ hret =>
    have hk := hne _ hret
    refine ⟨⟨hf.retracted, hf.view, ?_⟩, fun h => absurd (some.inj h).symm hk⟩
    simp only [lookup_insert_ite, if_neg hk, hf.queue]
  | headApplied hret _ _ hR _ hQ =>
    have hk := hne _ hret
    refine ⟨⟨hf.retracted, ?_, ?_⟩, fun h => absurd (some.inj h).symm hk⟩
    · cases hR with
      | noop => exact hf.view
      | advance => exact (headView_insert_ne hk).trans hf.view
    · exact (hQ k).trans (by rw [if_neg hk, hf.queue])
  | @poisoned args _ _ _ _ _ _ hqueue _ hQ =>
    have hk : k ≠ ⟨args.ledgerId, args.branch⟩ := by
      rintro rfl
      have := hf.queue
      rw [lookup_of_queue_cons hqueue] at this
      cases this
    exact ⟨⟨hf.retracted, hf.view, (hQ k).trans (by rw [if_neg hk, hf.queue])⟩, fun _ => rfl⟩
  | evicted => exact ⟨⟨hf.retracted, hf.view, hf.queue⟩, fun _ => rfl⟩

lemma Frozen.start (hout : k ∉ s.retracted) (hin : k ∈ s'.retracted) (heffect : Effect s c i s' r) :
    Frozen k (headView s k) s' := by
  cases heffect with
  | removed => exact absurd (mem_of_mem_erase hin) hout
  | retracted _ _ hclear =>
    refine ⟨hin, rfl, hclear.lookup_eq_none fun hk => ?_⟩
    exact absurd ((mem_insert.1 hin).resolve_left hk) hout
  | _ => exact absurd hin hout

/-- What the commands promise about heads, over a whole log. -/
structure HeadsForward (σ : SortUnstable) (log : List (Command × ℕ)) : Prop where
  /-- an index covers no more than the commits -/
  indexBehind : ∀ n k e i, (stateAt σ log n).refs.lookup k = some e → e.index = some i → i.t ≤ e.t
  /-- between two resets, drops or purges of a branch its head and its index move forward -/
  forward : ∀ n m k e, n ≤ m →
    (∀ j c, n ≤ j → j < m → log[j]? = some c → ¬ c.1.Resets k ∧ ¬ c.1.Removes k) →
    (stateAt σ log n).refs.lookup k = some e → MovedOn e (stateAt σ log m).refs k
  /-- from its retraction until it is dropped or purged a branch stays as it is -/
  frozen : ∀ n m k, n < m → k ∉ (stateAt σ log n).retracted → k ∈ (stateAt σ log (n + 1)).retracted →
    (∀ j c r, n < j → j < m → log[j]? = some c → answerAt σ log j = some r →
      ¬ (c.1.Removes k ∧ r.removes = true)) →
    Frozen k (headView (stateAt σ log n) k) (stateAt σ log m) ∧
      ∀ c r, log[m]? = some c → answerAt σ log m = some r → c.1.target = some k →
        r.moves = false

/-- **Heads move forward and retraction freezes them** in every run whose reset snapshots cover
their index and whose compare-and-sets to no index id meet no index. -/
theorem heads_forward (σ : SortUnstable) (log : List (Command × ℕ))
    (hsnapshot : ∀ (n : ℕ) c, log[n]? = some c → SnapshotOrdered c.1)
    (hindex : ∀ n c, log[n]? = some c → KeepsIndex (stateAt σ log n) c.1) :
    HeadsForward σ log where
  indexBehind := by
    intro n
    refine stateAt_invariant IndexBehind (fun _ => SnapshotOrdered) ?_ ?_ hsnapshot n
    · intro k e i h
      simp [NameServiceState.new] at h
    · intro s c i h hc
      exact h.effect hc (apply_effect σ s c i)
  forward := by
    intro n m k e hnm hquiet he
    refine stateAt_persists (fun s => MovedOn e s.refs k) hnm ⟨e, he, .refl e⟩ ?_
    rintro j c hnj hjm hc ⟨_, he', hfwd⟩
    obtain ⟨hreset, hremove⟩ := hquiet j c hnj hjm hc
    obtain ⟨e'', he'', hfwd'⟩ := Forward.effect (tracked_stateAt σ log j) (hindex j c hc) hreset
      hremove (apply_effect σ (stateAt σ log j) c.1 c.2) he'
    exact ⟨e'', he'', hfwd.trans hfwd'⟩
  frozen := by
    intro n m k hnm hout hin hquiet
    have hstep : ∃ c, log[n]? = some c := by
      cases hc : log[n]? with
      | some c => exact ⟨c, rfl⟩
      | none =>
        rw [stateAt, Machine.stateAt_succ_of_none hc] at hin
        exact absurd hin hout
    obtain ⟨c, hc⟩ := hstep
    have hfrozen : Frozen k (headView (stateAt σ log n) k) (stateAt σ log m) := by
      refine stateAt_persists (Frozen k _) (show n + 1 ≤ m from hnm) ?_ ?_
      · have heffect := apply_effect σ (stateAt σ log n) c.1 c.2
        rw [← stateAt_succ hc] at heffect
        exact Frozen.start hout hin heffect
      · intro j c hnj hjm hc hf
        exact (hf.effect (tracked_stateAt σ log j)
          (hquiet j c _ hnj hjm hc (answerAt_eq hc)) (apply_effect σ (stateAt σ log j) c.1 c.2)).1
    refine ⟨hfrozen, fun c r hc hr htarget => ?_⟩
    rw [answerAt_eq hc] at hr
    cases hr
    by_cases hremoves : c.1.Removes k ∧ (apply σ (stateAt σ log m) c.1 c.2).2.removes = true
    · -- a removal answers with a removal
      cases hresp : (apply σ (stateAt σ log m) c.1 c.2).2 <;> first | rfl | simp_all [Response.removes]
    · exact (hfrozen.effect (tracked_stateAt σ log m) hremoves
        (apply_effect σ (stateAt σ log m) c.1 c.2)).2 htarget

/-- A branch with a commit and an index at `t = 5`. -/
def indexedLog : List (Command × ℕ) :=
  [(.createLedger ⟨"db", "main", 0⟩, 1),
    (.compareAndSetRef ⟨"db", "main", .commitHead, none, ⟨some ⟨7⟩, 5⟩, 0⟩, 2),
    (.advanceIndexHead ⟨"db", "main", ⟨8⟩, 5, 0⟩, 3)]

theorem heads_forward_retract :
    HeadsForward insertion (indexedLog ++ [(.retractLedger "db" "main" 0, 4)]) := by
  refine heads_forward insertion _ ?_ ?_
  · intro n c h
    rcases n with _ | _ | _ | _ | n <;> cases h <;> trivial
  · intro n c h
    rcases n with _ | _ | _ | _ | n <;> cases h <;> first | trivial | exact fun h => nomatch h

/-- The index at `t = 5` is set to no id, then an index at `t = 1` is accepted. -/
theorem index_cleared_by_cas : ¬ HeadsForward insertion (indexedLog ++
      [(.compareAndSetRef ⟨"db", "main", .indexHead, some ⟨some ⟨8⟩, 5⟩, ⟨none, 5⟩, 0⟩, 4),
        (.advanceIndexHead ⟨"db", "main", ⟨9⟩, 1, 0⟩, 5)]) := by
  intro h
  have hforward := h.forward 3 5 ⟨"db", "main"⟩ ⟨⟨7⟩, 5, 0, 2, some ⟨⟨8⟩, 5⟩, none, 0⟩ (by decide) ?_
    (by decide)
  · obtain ⟨e', he', -, -, hindex⟩ := hforward
    obtain ⟨_, hi', hle⟩ := hindex ⟨⟨8⟩, 5⟩ rfl
    obtain rfl : e' = ⟨⟨7⟩, 5, 0, 2, some ⟨⟨9⟩, 1⟩, none, 0⟩ := by
      have : (stateAt insertion (indexedLog ++
          [(.compareAndSetRef ⟨"db", "main", .indexHead, some ⟨some ⟨8⟩, 5⟩, ⟨none, 5⟩, 0⟩, 4),
            (.advanceIndexHead ⟨"db", "main", ⟨9⟩, 1, 0⟩, 5)]) 5).refs.lookup ⟨"db", "main"⟩ =
          some ⟨⟨7⟩, 5, 0, 2, some ⟨⟨9⟩, 1⟩, none, 0⟩ := by decide
      exact some.inj (he'.symm.trans this)
    cases hi'
    exact absurd hle (by decide)
  · intro j c h₃ h₅ hc
    obtain rfl | rfl : j = 3 ∨ j = 4 := by omega
    all_goals
      cases hc
      constructor
      · rintro ⟨_, millis, h⟩
        cases h
      · rintro (⟨millis, h⟩ | ⟨millis, h⟩) <;> cases h

end Fluree.NameService
