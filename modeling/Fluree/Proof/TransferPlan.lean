import Fluree.Proof.MergeBase

/-!
# The pages of a commit transfer

A page of a transfer walks the line below its start, and collects what the merges on it brought
in. Three walks are extended as they are needed: the line, what the receiver holds, and the
depth-first walk over merged-in commits.
-/

namespace Fluree.Chain

open Lib Relation CommitGraph List Option FirstParentLine PageWalk

variable {Cid : Type} [DecidableEq Cid] {g : CommitGraph Cid}

/-! ## What the receiver holds -/

namespace CommitGraph

variable (g) in
/-- The receiver at `base` holds `c`. -/
def HeldBy (base : Option Cid) (c : Cid) : Prop := ∃ b ∈ base, g.Reach b c

variable {base : Option Cid} {c from_ cid : Cid} {held : Held Cid} {line : FirstParentLine Cid}
  {loaded : List Cid} {stack : List (Cid × Bool)} {found' : Found Cid} {walk : PageWalk Cid}

lemma HeldBy.parent (h : g.HeldBy base c) (hp : p ∈ g.parents c) : g.HeldBy base p :=
  h.imp fun _ hb => ⟨hb.1, hb.2.parent hp⟩

variable (g) in
/-- The walk down from the base as far as it has got. -/
structure HeldOk (base : Option Cid) (held : Held Cid) : Prop where
  members_held : ∀ c ∈ held.members, g.HeldBy base c
  frontier_held : ∀ c ∈ held.frontier, g.HeldBy base c
  start : ∀ b ∈ base, b ∈ held.members ∨ b ∈ held.frontier
  parents : ∀ c ∈ held.members, ∀ p ∈ g.parents c, p ∈ held.members ∨ p ∈ held.frontier

lemma heldOk_new (base : Option Cid) : g.HeldOk base (Held.new base) where
  members_held _ hc := nomatch hc
  frontier_held c hc := ⟨c, mem_toList.1 hc, .refl c⟩
  start _ hb := .inr (mem_toList.2 hb)
  parents _ hc := nomatch hc

lemma HeldOk.complete (h : g.HeldOk base held) (hdone : held.frontier = []) (hc : g.HeldBy base c) :
    c ∈ held.members := by
  have hnot : ∀ d, d ∉ held.frontier := fun d => hdone ▸ not_mem_nil
  obtain ⟨b, hb, hreach⟩ := hc
  induction hreach with
  | refl => exact (h.start b hb).resolve_right (hnot b)
  | @tail m c _ hp ih => exact (h.parents m ih c hp).resolve_right (hnot c)

lemma HeldOk.skip {next rest} (h : g.HeldOk base held) (hf : held.frontier = next :: rest)
    (hm : next ∈ held.members) : g.HeldOk base ⟨held.members, rest⟩ := by
  have hcases : ∀ c, c ∈ held.frontier → c ∈ held.members ∨ c ∈ rest := fun c hc => by
    rw [hf] at hc
    rcases mem_cons.1 hc with rfl | hc
    · exact .inl hm
    · exact .inr hc
  exact ⟨h.members_held, fun c hc => h.frontier_held c (hf ▸ mem_cons_of_mem _ hc),
    fun b hb => (h.start b hb).elim .inl (hcases b),
    fun c hc p hp => (h.parents c hc p hp).elim .inl (hcases p)⟩

lemma HeldOk.load {next rest} (h : g.HeldOk base held) (hf : held.frontier = next :: rest) :
    g.HeldOk base ⟨next :: held.members, (g.parents next).reverse ++ rest⟩ := by
  have hnext : g.HeldBy base next := h.frontier_held next (hf ▸ mem_cons_self)
  have hcases : ∀ c, c ∈ held.members ∨ c ∈ held.frontier →
      c ∈ next :: held.members ∨ c ∈ (g.parents next).reverse ++ rest := by
    rintro c (hc | hc)
    · exact .inl (mem_cons_of_mem _ hc)
    · rw [hf] at hc
      rcases mem_cons.1 hc with rfl | hc
      · exact .inl mem_cons_self
      · exact .inr (mem_append_right _ hc)
  refine ⟨fun c hc => ?_, fun c hc => ?_, fun b hb => hcases b (h.start b hb), fun c hc p hp => ?_⟩
  · rcases mem_cons.1 hc with rfl | hc
    · exact hnext
    · exact h.members_held c hc
  · rcases mem_append.1 hc with hc | hc
    · exact hnext.parent (mem_reverse.1 hc)
    · exact h.frontier_held c (hf ▸ mem_cons_of_mem _ hc)
  · rcases mem_cons.1 hc with rfl | hc
    · exact .inr (mem_append_left _ (mem_reverse.2 hp))
    · exact hcases p (h.parents c hc p hp)

/-- **The lazy set of held commits** answers by what the base reaches. -/
lemma held_contains_returns (hbase : ∀ b ∈ base, b ∈ g.commits) (h : g.HeldOk base held)
    (cid : Cid) : ∃ r : Bool × Held Cid, Returns (fun n => held.contains g.store cid n) (.ok r) ∧
      (r.1 = true ↔ g.HeldBy base cid) ∧ g.HeldOk base r.2 := by
  by_cases hm : cid ∈ held.members
  · exact ⟨(true, held), returns_of_eq fun n => if_pos hm,
      ⟨fun _ => h.members_held cid hm, fun _ => rfl⟩, h⟩
  · have heq : (fun n => held.contains g.store cid n) =
        (loop (fun _ => Held.searchTurn g.store cid) · held) := funext fun n => if_neg hm
    rw [heq]
    refine loop_returns (fun held => g.HeldOk base held ∧ cid ∉ held.members)
      (fun r : Bool × Held Cid => (r.1 = true ↔ g.HeldBy base cid) ∧ g.HeldOk base r.2)
      (fun held => remaining g.commits (fun c => 1 + (g.parents c).length) held.members +
        held.frontier.length) ?_ ⟨h, hm⟩
    rintro held ⟨h, hm⟩
    cases hf : held.frontier with
    | nil =>
      refine .inr ⟨(false, held), returns_of_eq fun n => ?_, ⟨fun h => (nomatch h), fun hc => ?_⟩, h⟩
      · show Held.searchTurn g.store cid held = _
        rw [Held.searchTurn, hf]
        rfl
      · exact absurd (h.complete hf hc) hm
    | cons next rest =>
      by_cases hn : next ∈ held.members
      · refine .inl ⟨⟨held.members, rest⟩, returns_of_eq fun n => ?_, ⟨h.skip hf hn, hm⟩, ?_⟩
        · show Held.searchTurn g.store cid held = _
          rw [Held.searchTurn, hf]
          exact if_pos hn
        · simp
      · have hnext : g.HeldBy base next := h.frontier_held next (hf ▸ mem_cons_self)
        have hnc : next ∈ g.commits := by
          obtain ⟨b, hb, hreach⟩ := hnext
          exact hreach.mem (hbase b hb)
        have hturn : Held.searchTurn g.store cid held =
            if next = cid then
              .ok (.leave (true, ⟨next :: held.members, (g.parents next).reverse ++ rest⟩))
            else .ok (.again ⟨next :: held.members, (g.parents next).reverse ++ rest⟩) := by
          rw [Held.searchTurn, hf]
          simp only [if_neg hn]
          rw [bind_of_ok (load_eq hnc)]
          rfl
        by_cases hcid : next = cid
        · refine .inr ⟨_, returns_of_eq fun n => hturn.trans (if_pos hcid), ?_, h.load hf⟩
          exact ⟨fun _ => hcid ▸ hnext, fun _ => rfl⟩
        · refine .inl ⟨_, returns_of_eq fun n => hturn.trans (if_neg hcid), ⟨h.load hf, ?_⟩, ?_⟩
          · exact fun hmem => (mem_cons.1 hmem).elim (fun h => hcid h.symm) hm
          · have hrem : remaining g.commits (fun c => 1 + (g.parents c).length)
                (next :: held.members) + (1 + (g.parents next).length) =
                  remaining g.commits (fun c => 1 + (g.parents c).length) held.members :=
              remaining_cons hnc hn
            simp only [length_append, length_reverse, length_cons]
            omega

/-! ## The line -/

variable (g) in
/-- The line of `from_` as far as it has been loaded: the stretch `loaded`, and perhaps commits that
the walk has taken. -/
structure LineOk (from_ : Cid) (line : FirstParentLine Cid) (loaded : List Cid) : Prop where
  segment : g.Segment (some from_) loaded line.next
  loaded_mem : ∀ c ∈ loaded, c ∈ line.members
  members_on : ∀ c ∈ line.members, g.OnLine from_ c
  lowest : line.lowestT = (loaded.getLast?.map g.t).getD i64Max

lemma lineOk_new (from_ : Cid) : g.LineOk from_ ⟨[], some from_, i64Max⟩ [] :=
  ⟨.nil _, fun _ hc => (nomatch hc), fun _ hc => (nomatch hc), rfl⟩

lemma LineOk.load {next} (h : g.LineOk from_ line loaded) (hnext : line.next = some next) :
    g.LineOk from_ ⟨next :: line.members, g.firstParent next, g.t next⟩ (loaded ++ [next]) := by
  have hseg : g.Segment (some from_) loaded (some next) := hnext ▸ h.segment
  refine ⟨hseg.snoc, fun c hc => ?_, fun c hc => ?_, by simp⟩
  · rcases mem_append.1 hc with hc | hc
    · exact mem_cons_of_mem _ (h.loaded_mem c hc)
    · rw [mem_singleton.1 hc]
      exact mem_cons_self
  · rcases mem_cons.1 hc with rfl | hc
    · exact ⟨loaded, hseg⟩
    · exact h.members_on c hc

lemma LineOk.older (h : g.LineOk from_ line loaded) (hfrom : from_ ∈ g.commits)
    (hc : g.OnLine from_ c) (hnot : c ∉ loaded) :
    line.next ≠ none ∧ (c = from_ ∨ g.t c < line.lowestT) := by
  obtain ⟨d, k, hd, hk⟩ := hc.below h.segment hnot
  refine ⟨by rw [hd]; exact some_ne_none d, ?_⟩
  have hseg : g.Segment (some from_) (loaded ++ k) (some c) := (hd ▸ h.segment).trans hk
  cases hl : loaded.getLast? with
  | none =>
    rw [List.getLast?_eq_none_iff.1 hl, nil_append] at hseg
    rw [h.lowest, hl]
    cases k with
    | nil => exact .inl (some.inj (Segment.nil_iff.1 hseg)).symm
    | cons a =>
      have hlt := hseg.lt (fun a ha => some.inj ha ▸ hfrom) mem_cons_self
      obtain rfl := some.inj (Segment.cons_iff.1 hseg).1
      exact .inr (hlt.trans_le (g.inRange _ hfrom))
  | some =>
    rw [h.lowest, hl]
    exact .inr (hseg.lt (fun a ha => some.inj ha ▸ hfrom)
      (mem_append_left _ (mem_of_getLast? hl)))

/-- **The lazy line** answers by the whole line. -/
lemma line_contains_returns (cid : Cid) (hfrom : from_ ∈ g.commits)
    (h : g.LineOk from_ line loaded) (hmem : from_ ∈ line.members) :
    ∃ r : Bool × FirstParentLine Cid,
      Returns (fun n => line.contains g.store cid (g.t cid) n) (.ok r) ∧
      (r.1 = true ↔ g.OnLine from_ cid) ∧ (∃ loaded', g.LineOk from_ r.2 loaded') ∧
      ∀ c ∈ line.members, c ∈ r.2.members := by
  -- by induction on what is left of the line
  have hend : ∃ rest, g.Segment line.next rest none := by
    obtain ⟨_, hall⟩ := exists_line hfrom
    rcases h.segment.comparable hall with ⟨k, -, hk⟩ | ⟨k, -, hk⟩
    · exact ⟨k, hk⟩
    · exact ⟨[], hk.from_none.2 ▸ .nil _⟩
  obtain ⟨rest, hrest⟩ := hend
  have hanswer : ∀ {line loaded}, g.LineOk from_ line loaded → from_ ∈ line.members →
      (line.next = none ∨ line.lowestT ≤ g.t cid) →
      (decide (cid ∈ line.members) = true ↔ g.OnLine from_ cid) := by
    intro line loaded h hmem hstop
    rw [decide_eq_true_iff]
    refine ⟨h.members_on cid, fun hon => ?_⟩
    by_contra hnot
    obtain ⟨hnext, rfl | _⟩ := h.older hfrom hon fun hl => hnot (h.loaded_mem cid hl)
    · exact hnot hmem
    · rcases hstop with hstop | hstop
      · exact hnext hstop
      · omega
  induction rest generalizing line loaded with
  | nil =>
    have hnone : line.next = none := Segment.nil_iff.1 hrest
    refine ⟨(decide (cid ∈ line.members), line), .leave (returns_of_eq fun n => ?_),
      hanswer h hmem (.inl hnone), ⟨loaded, h⟩, fun c hc => hc⟩
    rw [loadTurn, hnone]
    split <;> rfl
  | cons next _ ih =>
    obtain ⟨hnext, hrest⟩ := Segment.cons_iff.1 hrest
    by_cases hlow : g.t cid < line.lowestT
    · have hnc : next ∈ g.commits := (hnext ▸ h.segment).reach.mem hfrom
      obtain ⟨r, hr, hiff, hok, hsub⟩ := ih (h.load hnext) (mem_cons_of_mem _ hmem) hrest
      refine ⟨r, .again (returns_of_eq fun n => ?_) hr, hiff, hok,
        fun c hc => hsub c (mem_cons_of_mem _ hc)⟩
      rw [loadTurn, if_pos hlow, hnext]
      show (loadCommitEnvelopeById g.store next >>= _) = _
      rw [bind_of_ok (load_eq hnc)]
      rfl
    · refine ⟨(decide (cid ∈ line.members), line), .leave (returns_of_eq fun n => ?_),
        hanswer h hmem (.inr (by omega)), ⟨loaded, h⟩, fun c hc => hc⟩
      rw [loadTurn, if_neg hlow]
      rfl

lemma LineOk.take (h : g.LineOk from_ line loaded)
    (hwalked : ∀ c ∈ walked, c ∈ line.members) (hseg : g.Segment (some from_) walked (some cid)) :
    ∃ loaded', g.LineOk from_ (line.take cid (g.envelope cid)) loaded' := by
  have hon : ∀ c ∈ cid :: line.members, g.OnLine from_ c := fun c hc => by
    rcases mem_cons.1 hc with rfl | hc
    · exact ⟨walked, hseg⟩
    · exact h.members_on c hc
  unfold FirstParentLine.take
  split
  · refine ⟨walked ++ [cid], hseg.snoc, fun c hc => ?_, hon, by simp [t]⟩
    rcases mem_append.1 hc with hc | hc
    · exact mem_cons_of_mem _ (hwalked c hc)
    · rw [mem_singleton.1 hc]
      exact mem_cons_self
  · exact ⟨loaded, h.segment, fun c hc => mem_cons_of_mem _ (h.loaded_mem c hc), hon, h.lowest⟩

omit [DecidableEq Cid] in
lemma mem_take {envelope} : c ∈ (line.take cid envelope).members ↔ c = cid ∨ c ∈ line.members := by
  unfold FirstParentLine.take
  split <;> exact mem_cons

/-! ## What merges brought in -/

variable (g) in
/-- The walk over merged-in commits stops at the line and at what the receiver holds. -/
def Skip (from_ : Cid) (base : Option Cid) (c : Cid) : Prop := g.OnLine from_ c ∨ g.HeldBy base c

variable (g) in
/-- What is known of an entry `c` whose parents have been pushed above it. -/
structure Expanded (from_ : Cid) (base : Option Cid) (found : Found Cid)
    (above : List (Cid × Bool)) (c : Cid) : Prop where
  wanted : ¬ g.Skip from_ base c
  seen : c ∈ found.seen
  pending : c ∉ found.merged
  path : ∀ x ∈ above, g.Above c x.1
  parents : ∀ p ∈ g.parents c, g.Skip from_ base p ∨ p ∈ found.merged ∨ p ∈ above.map (·.1)

variable (g) in
/-- The state of the walk over what the merges of `walked` brought in. -/
structure MergedOk (from_ : Cid) (base : Option Cid) (walked : List Cid)
    (stack : List (Cid × Bool)) (found : Found Cid) : Prop where
  reach : ∀ e ∈ stack, g.Reach from_ e.1
  expanded : ∀ above c below, stack = above ++ (c, true) :: below →
    g.Expanded from_ base found above c
  seen : ∀ c ∈ found.seen, g.Skip from_ base c ∨ c ∈ found.merged ∨ (c, true) ∈ stack
  merged : ∀ c ∈ found.merged, c ∈ found.seen ∧ ¬ g.Skip from_ base c ∧ g.Reach from_ c
  nodup : found.merged.Nodup
  /-- Parents come first. -/
  order : ∀ pre c post, found.merged = pre ++ c :: post → ∀ p ∈ g.parents c,
    g.Skip from_ base p ∨ p ∈ pre
  brought : ∀ c ∈ walked, ∀ p ∈ (g.parents c).tail,
    g.Skip from_ base p ∨ p ∈ found.merged ∨ p ∈ stack.map (·.1)
  line : ∃ loaded, g.LineOk from_ found.line loaded
  walked_mem : ∀ c ∈ walked, c ∈ found.line.members
  held : g.HeldOk base found.held

variable {from_ : Cid} {base : Option Cid} {walked : List Cid} {found : Found Cid}

lemma MergedOk.emit (hfrom : from_ ∈ g.commits)
    (h : g.MergedOk from_ base walked ((c, true) :: stack) found) :
    g.MergedOk from_ base walked stack { found with merged := found.merged ++ [c] } := by
  have hc := h.expanded [] c stack rfl
  have hreach : g.Reach from_ c := h.reach _ mem_cons_self
  have hkeep : ∀ {P : Prop} {p : Cid} {above : List (Cid × Bool)},
      P ∨ p ∈ found.merged ∨ p ∈ ((c, true) :: above).map (·.1) →
      P ∨ p ∈ found.merged ++ [c] ∨ p ∈ above.map (·.1) := by
    rintro P p above (hp | hp | hp)
    · exact .inl hp
    · exact .inr (.inl (mem_append_left _ hp))
    · rcases mem_cons.1 hp with rfl | hp
      · exact .inr (.inl (mem_append_right _ mem_cons_self))
      · exact .inr (.inr hp)
  refine ⟨fun e he => h.reach e (mem_cons_of_mem _ he), fun above d below hsplit => ?_,
    fun d hd => ?_, fun d hd => ?_, ?_, fun pre d post hsplit p hp => ?_,
    fun d hd p hp => hkeep (h.brought d hd p hp), h.line, h.walked_mem, h.held⟩
  · have hd := h.expanded ((c, true) :: above) d below (by rw [hsplit]; rfl)
    have hdc : g.Above d c := hd.path _ mem_cons_self
    have hdmem : d ∈ g.commits :=
      (h.reach (d, true) (hsplit ▸ mem_cons_of_mem _ (by simp))).mem hfrom
    refine ⟨hd.wanted, hd.seen, fun hm => ?_, fun x hx => hd.path x (mem_cons_of_mem _ hx),
      fun p hp => hkeep (hd.parents p hp)⟩
    rcases mem_append.1 hm with hm | hm
    · exact hd.pending hm
    · exact hdc.irrefl hdmem (mem_singleton.1 hm)
  · rcases h.seen d hd with hs | hm | hstack
    · exact .inl hs
    · exact .inr (.inl (mem_append_left _ hm))
    rcases mem_cons.1 hstack with heq | hstack
    · obtain rfl : d = c := congrArg Prod.fst heq
      exact .inr (.inl (mem_append_right _ mem_cons_self))
    · exact .inr (.inr hstack)
  · rcases mem_append.1 hd with hd | hd
    · exact h.merged d hd
    · rw [mem_singleton.1 hd]
      exact ⟨hc.seen, hc.wanted, hreach⟩
  · exact nodup_append.2 ⟨h.nodup, nodup_singleton c, fun a ha b hb hab =>
      hc.pending (mem_singleton.1 hb ▸ hab ▸ ha)⟩
  · -- `d` was listed before, or it is the commit listed now
    rcases eq_nil_or_concat post with rfl | ⟨post, last, rfl⟩
    · obtain ⟨rfl, hlast⟩ := append_inj' hsplit rfl
      obtain rfl : c = d := head_eq_of_cons_eq hlast
      exact (hc.parents p hp).imp id fun hp => hp.elim id fun hp => nomatch hp
    · have hsplit : found.merged ++ [c] = (pre ++ d :: post) ++ [last] := by simpa using hsplit
      exact h.order pre d post (append_inj' hsplit rfl).1 p hp

variable (g) in
/-- What a look at `c` may change: `c` has been seen, and the lazy sets have been extended. -/
structure Looked (from_ : Cid) (base : Option Cid) (walked : List Cid) (c : Cid)
    (found found' : Found Cid) : Prop where
  merged : found'.merged = found.merged
  seen : ∀ d ∈ found.seen, d ∈ found'.seen
  seen_or : ∀ d ∈ found'.seen, d = c ∨ d ∈ found.seen
  line : ∃ loaded, g.LineOk from_ found'.line loaded
  walked_mem : ∀ d ∈ walked, d ∈ found'.line.members
  held : g.HeldOk base found'.held

lemma MergedOk.seen_below (h : g.MergedOk from_ base walked ((c, false) :: stack) found)
    (hd : d ∈ found.seen) : g.Skip from_ base d ∨ d ∈ found.merged ∨ (d, true) ∈ stack :=
  (h.seen d hd).imp id (Or.imp id fun hm => (mem_cons.1 hm).resolve_left fun heq => by cases heq)

lemma Looked.merged_seen (hlook : g.Looked from_ base walked c found found')
    (h : g.MergedOk from_ base walked stack found) :
    ∀ d ∈ found'.merged, d ∈ found'.seen ∧ ¬ g.Skip from_ base d ∧ g.Reach from_ d := by
  intro d hd
  obtain ⟨hs, hrest⟩ := h.merged d (hlook.merged ▸ hd)
  exact ⟨hlook.seen d hs, hrest⟩

lemma MergedOk.not_below (hfrom : from_ ∈ g.commits)
    (h : g.MergedOk from_ base walked ((c, b) :: (above ++ (d, true) :: below)) found)
    (hc : (c, true) ∈ (d, true) :: below) : False := by
  have hdc : g.Above d c := (h.expanded ((c, b) :: above) d below rfl).path _ mem_cons_self
  have hcmem : c ∈ g.commits := (h.reach (c, b) mem_cons_self).mem hfrom
  rcases mem_cons.1 hc with heq | hc
  · obtain rfl : c = d := congrArg Prod.fst heq
    exact hdc.irrefl hcmem rfl
  · obtain ⟨l₁, l₂, rfl⟩ := append_of_mem hc
    have hcd : g.Above c d :=
      (h.expanded ((c, b) :: (above ++ (d, true) :: l₁)) c l₂ (by simp)).path (d, true) (by simp)
    exact hcd.reach.not_above hcmem hdc

lemma MergedOk.drop (hfrom : from_ ∈ g.commits)
    (h : g.MergedOk from_ base walked ((c, false) :: stack) found)
    (hlook : g.Looked from_ base walked c found found')
    (hc : g.Skip from_ base c ∨ c ∈ found.merged ∨ (c, true) ∈ stack) :
    g.MergedOk from_ base walked stack found' := by
  have hmerged := hlook.merged
  refine ⟨fun e he => h.reach e (mem_cons_of_mem _ he), fun above d below hsplit => ?_,
    fun d hd => ?_, hlook.merged_seen h, hmerged ▸ h.nodup, fun pre d post hsplit p hp => ?_,
    fun d hd p hp => ?_, hlook.line, hlook.walked_mem, hlook.held⟩
  · subst hsplit
    have hd := h.expanded ((c, false) :: above) d below rfl
    refine ⟨hd.wanted, hlook.seen d hd.seen, hmerged ▸ hd.pending,
      fun x hx => hd.path x (mem_cons_of_mem _ hx), fun p hp => ?_⟩
    rw [hmerged]
    rcases hd.parents p hp with hp | hp | hp
    · exact .inl hp
    · exact .inr (.inl hp)
    rcases mem_cons.1 hp with rfl | hp
    · refine hc.imp id (Or.imp id fun hstack => ?_)
      rcases mem_append.1 hstack with habove | hbelow
      · exact mem_map.2 ⟨_, habove, rfl⟩
      · exact (h.not_below hfrom hbelow).elim
    · exact .inr (.inr hp)
  · rw [hmerged]
    rcases hlook.seen_or d hd with rfl | hd
    · exact hc
    · exact h.seen_below hd
  · exact h.order pre d post (hmerged ▸ hsplit) p hp
  · rw [hmerged]
    rcases h.brought d hd p hp with hp | hp | hp
    · exact .inl hp
    · exact .inr (.inl hp)
    rcases mem_cons.1 hp with rfl | hp
    · exact hc.imp id (Or.imp id fun hstack => mem_map.2 ⟨_, hstack, rfl⟩)
    · exact .inr (.inr hp)

lemma split_past {α : Type} {top rest above below : List α} {y : α}
    (h : top ++ rest = above ++ y :: below) (hy : y ∉ top) :
    ∃ mid, above = top ++ mid ∧ rest = mid ++ y :: below := by
  rcases append_eq_append_iff.1 h with ⟨mid, rfl, hrest⟩ | ⟨mid, rfl, hrest⟩
  · exact ⟨mid, rfl, hrest⟩
  cases mid with
  | nil => exact ⟨[], by simp, by simpa using hrest.symm⟩
  | cons =>
    obtain ⟨rfl, _⟩ := List.cons.inj hrest
    exact absurd (mem_append_right _ mem_cons_self) hy

lemma MergedOk.expand (h : g.MergedOk from_ base walked ((c, false) :: stack) found)
    (hlook : g.Looked from_ base walked c found found') (hseen : c ∈ found'.seen)
    (hnew : c ∉ found.seen) (hwanted : ¬ g.Skip from_ base c) :
    g.MergedOk from_ base walked ((g.parents c).reverse.map (·, false) ++ (c, true) :: stack)
      found' := by
  have hmerged := hlook.merged
  have hreach : g.Reach from_ c := h.reach _ mem_cons_self
  have hpushed : ∀ x ∈ (g.parents c).reverse.map (·, false), x.1 ∈ g.parents c := fun x hx => by
    obtain ⟨p, hp, rfl⟩ := mem_map.1 hx
    exact mem_reverse.1 hp
  have hnotpushed : ∀ d, (d, true) ∉ (g.parents c).reverse.map (·, false) := fun d hd => by
    obtain ⟨p, _, heq⟩ := mem_map.1 hd
    cases heq
  refine ⟨fun e he => ?_, fun above d below hsplit => ?_, fun d hd => ?_, hlook.merged_seen h,
    hmerged ▸ h.nodup, fun pre d post hsplit p hp => h.order pre d post (hmerged ▸ hsplit) p hp,
    fun d hd p hp => ?_, hlook.line, hlook.walked_mem, hlook.held⟩
  · rcases mem_append.1 he with he | he
    · exact hreach.parent (hpushed e he)
    rcases mem_cons.1 he with rfl | he
    · exact hreach
    · exact h.reach e (mem_cons_of_mem _ he)
  · -- the expanded entry is `c` itself or one below it
    obtain ⟨mid, rfl, hrest⟩ := split_past hsplit (hnotpushed d)
    cases mid with
    | nil =>
      obtain ⟨heq, rfl⟩ := List.cons.inj hrest
      obtain rfl : c = d := congrArg Prod.fst heq
      rw [append_nil]
      refine ⟨hwanted, hseen, fun hm => hnew (h.merged c (hmerged ▸ hm)).1,
        fun x hx => TransGen.single (hpushed x hx), fun p hp => .inr (.inr ?_)⟩
      exact mem_map.2 ⟨(p, false), mem_map.2 ⟨p, mem_reverse.2 hp, rfl⟩, rfl⟩
    | cons e mid =>
      obtain ⟨rfl, rfl⟩ := List.cons.inj hrest
      have hd := h.expanded ((c, false) :: mid) d below rfl
      have hdc : g.Above d c := hd.path _ mem_cons_self
      refine ⟨hd.wanted, hlook.seen d hd.seen, hmerged ▸ hd.pending, fun x hx => ?_, fun p hp => ?_⟩
      · rcases mem_append.1 hx with hx | hx
        · exact TransGen.tail hdc (hpushed x hx)
        rcases mem_cons.1 hx with rfl | hx
        · exact hdc
        · exact hd.path x (mem_cons_of_mem _ hx)
      · rw [hmerged]
        refine (hd.parents p hp).imp id (Or.imp id fun hp => ?_)
        rw [map_append]
        exact mem_append_right _ hp
  · rw [hmerged]
    rcases hlook.seen_or d hd with rfl | hd
    · exact .inr (.inr (by simp))
    refine (h.seen_below hd).imp id (Or.imp id fun hstack => ?_)
    exact mem_append_right _ (mem_cons_of_mem _ hstack)
  · rw [hmerged]
    refine (h.brought d hd p hp).imp id (Or.imp id fun hp => ?_)
    rw [map_append]
    exact mem_append_right _ hp

variable (g) in
def mergedToDo (s : List (Cid × Bool) × Found Cid) : ℕ :=
  remaining g.commits (fun c => 2 + (g.parents c).length) s.2.seen + s.1.length

lemma mergedToDo_seen (hc : c ∈ g.commits) (hnew : c ∉ found.seen)
    (hseen : found'.seen = c :: found.seen)
    (hlen : stack'.length ≤ stack.length + (1 + (g.parents c).length)) :
    g.mergedToDo (stack', found') < g.mergedToDo ((c, false) :: stack, found) := by
  have hrem : remaining g.commits (fun c => 2 + (g.parents c).length) (c :: found.seen) +
      (2 + (g.parents c).length) =
        remaining g.commits (fun c => 2 + (g.parents c).length) found.seen :=
    remaining_cons hc hnew
  simp only [mergedToDo, hseen, length_cons]
  omega

/-- **One turn of the depth-first walk.** -/
lemma mergedTurn_returns (hfrom : from_ ∈ g.commits) (hbase : ∀ b ∈ base, b ∈ g.commits)
    (hstart : from_ ∈ walked) (h : g.MergedOk from_ base walked s.1 s.2) :
    (∃ s', Returns (mergedTurn g.store · s) (.ok (.again s')) ∧
      g.MergedOk from_ base walked s'.1 s'.2 ∧ g.mergedToDo s' < g.mergedToDo s) ∨
    (∃ found, Returns (mergedTurn g.store · s) (.ok (.leave found)) ∧
      g.MergedOk from_ base walked [] found) := by
  obtain ⟨stack, found⟩ := s
  match stack with
  | [] => exact .inr ⟨found, returns_of_eq fun _ => rfl, h⟩
  | (c, true) :: stack =>
    refine .inl ⟨_, returns_of_eq fun _ => rfl, h.emit hfrom, ?_⟩
    simp [mergedToDo]
  | (c, false) :: stack =>
    left
    have hcmem : c ∈ g.commits := (h.reach (c, false) mem_cons_self).mem hfrom
    by_cases hskip : c ∈ found.line.members ∨ c ∈ found.seen
    · refine ⟨(stack, found), returns_of_eq fun _ => if_pos hskip, h.drop hfrom
        ⟨rfl, fun _ hd => hd, fun _ => .inr, h.line, h.walked_mem, h.held⟩ ?_, by simp [mergedToDo]⟩
      rcases hskip with hline | hseen
      · obtain ⟨loaded, hok⟩ := h.line
        exact .inl (.inl (hok.members_on c hline))
      · exact h.seen_below hseen
    · rw [not_or] at hskip
      obtain ⟨⟨isHeld, held⟩, hheld, hiff, hok⟩ := held_contains_returns hbase h.held c
      have hlook : ∀ line, (∃ loaded, g.LineOk from_ line loaded) →
          (∀ d ∈ walked, d ∈ line.members) → g.Looked from_ base walked c found
            { found with seen := c :: found.seen, held := held, line := line } := fun _ hl hw =>
        ⟨rfl, fun _ => mem_cons_of_mem c, fun _ hd => mem_cons.1 hd, hl, hw, hok⟩
      have hturn : (mergedTurn g.store · ((c, false) :: stack, found)) =
          fun n => lookAt g.store n stack found c := funext fun n => if_neg (not_or.2 hskip)
      rw [hturn]
      cases isHeld with
      | true =>
        refine ⟨_, hheld.bind (returns_of_eq fun _ => rfl),
          h.drop hfrom (hlook found.line h.line h.walked_mem) (.inl (.inr (hiff.1 rfl))),
          mergedToDo_seen hcmem hskip.2 rfl (by omega)⟩
      | false =>
        have hnotheld : ¬ g.HeldBy base c := fun hc => by cases hiff.2 hc
        obtain ⟨loaded, hline⟩ := h.line
        obtain ⟨⟨onLine, line⟩, hcontains, honline, hlineok, hsub⟩ :=
          line_contains_returns c hfrom hline (h.walked_mem _ hstart)
        have hlook := hlook line hlineok fun d hd => hsub d (h.walked_mem d hd)
        cases onLine with
        | true =>
          refine ⟨_, hheld.bind ?_, h.drop hfrom hlook (.inl (.inl (honline.1 rfl))),
            mergedToDo_seen hcmem hskip.2 rfl (by omega)⟩
          refine .bind (returns_of_eq fun _ => load_eq hcmem) ?_
          exact hcontains.bind (returns_of_eq fun _ => rfl)
        | false =>
          have hnotline : ¬ g.OnLine from_ c := fun hc => by cases honline.2 hc
          refine ⟨_, hheld.bind ?_, h.expand hlook mem_cons_self hskip.2
            (not_or.2 ⟨hnotline, hnotheld⟩), mergedToDo_seen hcmem hskip.2 rfl ?_⟩
          · refine .bind (returns_of_eq fun _ => load_eq hcmem) ?_
            exact hcontains.bind (returns_of_eq fun _ => rfl)
          · simp only [length_append, length_map, length_reverse, length_cons]
            omega

lemma merged_returns (hfrom : from_ ∈ g.commits) (hbase : ∀ b ∈ base, b ∈ g.commits)
    (hstart : from_ ∈ walked) (h : g.MergedOk from_ base walked stack found) :
    ∃ found', Returns (loop (mergedTurn g.store) · (stack, found)) (.ok found') ∧
      g.MergedOk from_ base walked [] found' :=
  loop_returns (fun s => g.MergedOk from_ base walked s.1 s.2)
    (g.MergedOk from_ base walked []) g.mergedToDo
    (fun _ hs => mergedTurn_returns hfrom hbase hstart hs) h

/-! ## A page -/

lemma mergedOk_new (hfrom : Cid) (base : Option Cid) :
    g.MergedOk hfrom base [] [] ⟨[], [], ⟨[], some hfrom, i64Max⟩, Held.new base⟩ where
  reach _ he := nomatch he
  expanded above c below hsplit := by simp at hsplit
  seen _ hc := nomatch hc
  merged _ hc := nomatch hc
  nodup := nodup_nil
  order pre c post hsplit := by simp at hsplit
  brought _ hc := nomatch hc
  line := ⟨[], lineOk_new hfrom⟩
  walked_mem _ hc := nomatch hc
  held := heldOk_new base

lemma MergedOk.start (h : g.MergedOk from_ base walked [] found)
    (hseg : g.Segment (some from_) walked (some cid)) :
    g.MergedOk from_ base (walked ++ [cid]) ((g.parents cid).tail.map (·, false))
      { found with line := found.line.take cid (g.envelope cid) } := by
  obtain ⟨_, hline⟩ := h.line
  refine ⟨fun e he => ?_, fun above c below hsplit => ?_, fun c hc => ?_, h.merged, h.nodup,
    h.order, fun c hc p hp => ?_, hline.take h.walked_mem hseg, fun c hc => ?_, h.held⟩
  · obtain ⟨p, hp, rfl⟩ := mem_map.1 he
    exact hseg.reach.parent (mem_of_mem_tail hp)
  · have hmem : (c, true) ∈ (g.parents cid).tail.map (·, false) := hsplit ▸ by simp
    obtain ⟨_, _, heq⟩ := mem_map.1 hmem
    cases heq
  · exact (h.seen c hc).imp id (Or.imp id fun hm => nomatch hm)
  · rcases mem_append.1 hc with hc | hc
    · exact (h.brought c hc p hp).imp id (Or.imp id fun hm => nomatch hm)
    · rw [mem_singleton.1 hc] at hp
      exact .inr (.inr (mem_map.2 ⟨(p, false), mem_map.2 ⟨p, hp, rfl⟩, rfl⟩))
  · refine mem_take.2 ?_
    rcases mem_append.1 hc with hc | hc
    · exact .inr (h.walked_mem c hc)
    · exact .inl (mem_singleton.1 hc)

variable (g) in
/-- The walk of a page that starts at `from_`, between two line commits. -/
structure PageOk (from_ : Cid) (base : Option Cid) (walk : PageWalk Cid) : Prop where
  segment : g.Segment (some from_) walk.lineage walk.next
  child : walk.childT = walk.lineage.getLast?.map g.t
  merged : g.MergedOk from_ base walk.lineage [] walk.found
  /-- The base has not been passed. -/
  younger : ∀ b ∈ base, ∀ c ∈ walk.lineage, g.t b < g.t c
  unfinished : base ≠ none → walk.next ≠ none

variable (g) in
/-- A page: a stretch of the line below `from_`, what its merges brought in, and where it leaves
off. -/
structure IsPage (from_ : Cid) (base : Option Cid) (page : CommitTransferPage Cid)
    (below : Option Cid) : Prop where
  nonempty : page.plan.lineage ≠ []
  segment : g.Segment (some from_) page.plan.lineage.reverse below
  merged : ∃ found : Found Cid, found.merged = page.plan.merged ∧
    g.MergedOk from_ base page.plan.lineage.reverse [] found
  younger : ∀ b ∈ base, ∀ c ∈ page.plan.lineage, g.t b < g.t c
  next : (page.next = none ∧ below = base) ∨
    (page.next = below ∧ below ≠ none ∧ below ≠ base)

variable (g) in
/-- What a call returns: a page, or `none` because the base is not on the line. -/
def PageResult (from_ : Cid) (base : Option Cid) : Option (CommitTransferPage Cid) → Prop
  | none => ∃ b ∈ base, ¬ g.OnLine from_ b
  | some page => ∃ below, g.IsPage from_ base page below

variable (g) in
def timed (base : Option Cid) : Option (Cid × ℤ) := base.map fun b => (b, g.t b)

lemma PageOk.isPage (h : g.PageOk from_ base walk) (hne : walk.lineage ≠ []) (hbelow : walk.next = below)
    (hnext : (full = true ∧ below ≠ none) ∨ (full = false ∧ below = base)) :
    g.IsPage from_ base (walk.page (g.timed base) below full) below := by
  refine ⟨by simpa [page] using hne, by simpa [page, hbelow] using h.segment,
    ⟨walk.found, rfl, by simpa [page] using h.merged⟩, fun b hb c hc => ?_, ?_⟩
  · exact h.younger b hb c (mem_reverse.1 hc)
  · rcases hnext with ⟨rfl, hsome⟩ | ⟨rfl, rfl⟩
    · obtain ⟨cid, rfl⟩ := ne_none_iff_exists'.1 hsome
      by_cases hb : base = some cid
      · left
        subst hb
        exact ⟨by simp [page, timed], rfl⟩
      · right
        refine ⟨?_, some_ne_none cid, Ne.symm hb⟩
        have hall : ∀ b ∈ g.timed base, cid ≠ b.1 := by
          intro b hmem heq
          obtain ⟨_, hb', rfl⟩ := map_eq_some_iff.1 hmem
          exact hb (hb' ▸ congrArg some heq.symm)
        simp only [page, Bool.true_and]
        exact filter_eq_some_iff.2 ⟨rfl, decide_eq_true hall⟩
    · left
      refine ⟨?_, rfl⟩
      cases below <;> rfl

/-- A base younger than the next commit of the line, and older than all before it, is missed. -/
lemma not_onLine_of_passed (hfrom : from_ ∈ g.commits)
    (hseg : g.Segment (some from_) l (some cid)) (hyounger : ∀ c ∈ l, g.t b < g.t c)
    (hle : g.t cid ≤ g.t b) (hne : cid ≠ b) : ¬ g.OnLine from_ b := by
  intro hon
  obtain ⟨_, k, hd, hk⟩ := hon.below hseg fun hb => lt_irrefl _ (hyounger b hb)
  obtain rfl := some.inj hd
  cases k with
  | nil => exact hne (some.inj (Segment.nil_iff.1 hk))
  | cons a =>
    obtain rfl := some.inj (Segment.cons_iff.1 hk).1
    have hmem : ∀ a ∈ some cid, a ∈ g.commits := fun a ha =>
      some.inj ha ▸ hseg.reach.mem hfrom
    exact absurd (hk.lt hmem mem_cons_self) (not_lt.2 hle)

lemma from_mem_of_segment (h : g.Segment (some from_) (l ++ [cid]) y) : from_ ∈ l ++ [cid] := by
  cases l with
  | nil | cons => exact (some.inj (Segment.cons_iff.1 h).1) ▸ mem_cons_self

section

variable (hfrom : from_ ∈ g.commits) (hbase : ∀ b ∈ base, b ∈ g.commits)
include hfrom hbase

lemma takeLineCommit_returns (h : g.PageOk from_ base walk) (hnext : walk.next = some cid)
    (hyounger : ∀ b ∈ base, g.t b < g.t cid) :
    (∃ walk', Returns (fun n => takeLineCommit g.store (g.timed base) n walk cid (g.envelope cid))
      (.ok (.again walk')) ∧ g.PageOk from_ base walk' ∧ walk'.next = g.firstParent cid) ∨
    (∃ r, Returns (fun n => takeLineCommit g.store (g.timed base) n walk cid (g.envelope cid))
      (.ok (.leave r)) ∧ g.PageResult from_ base r) := by
  have hseg : g.Segment (some from_) walk.lineage (some cid) := hnext ▸ h.segment
  have hall : ∀ b ∈ base, ∀ c ∈ walk.lineage ++ [cid], g.t b < g.t c := fun b hb c hc => by
    rcases mem_append.1 hc with hc | hc
    · exact h.younger b hb c hc
    · rw [mem_singleton.1 hc]
      exact hyounger b hb
  obtain ⟨_, hfound, hmerged⟩ := merged_returns hfrom hbase (from_mem_of_segment hseg.snoc)
    (h.merged.start hseg)
  by_cases hgenesis : (g.envelope cid).parents.head? = none ∧ g.timed base ≠ none
  · refine .inr ⟨none, hfound.bind (returns_of_eq fun _ => if_pos hgenesis), ?_⟩
    obtain ⟨b, hb⟩ : ∃ b, base = some b := by
      cases base with
      | none => exact absurd rfl hgenesis.2
      | some b => exact ⟨b, rfl⟩
    refine ⟨b, hb, fun hon => ?_⟩
    have hend : g.Segment (some from_) (walk.lineage ++ [cid]) none :=
      (show g.firstParent cid = none from hgenesis.1) ▸ hseg.snoc
    obtain ⟨_, _, hd, _⟩ := hon.below hend fun hmem => lt_irrefl _ (hall b hb b hmem)
    cases hd
  · refine .inl ⟨_, hfound.bind (returns_of_eq fun _ => if_neg hgenesis), ⟨hseg.snoc, ?_, hmerged,
      hall, fun hsome hnone => hgenesis ⟨hnone, ?_⟩⟩, rfl⟩
    · simp [t]
    · obtain ⟨b, rfl⟩ := ne_none_iff_exists'.1 hsome
      exact some_ne_none _

lemma visitLineCommit_returns (hne : base ≠ some from_) (h : g.PageOk from_ base walk)
    (hnext : walk.next = some cid) :
    (∃ walk', Returns (fun n => visitLineCommit g.store (g.timed base) n walk cid (g.envelope cid))
      (.ok (.again walk')) ∧ g.PageOk from_ base walk' ∧ walk'.next = g.firstParent cid) ∨
    (∃ r, Returns (fun n => visitLineCommit g.store (g.timed base) n walk cid (g.envelope cid))
      (.ok (.leave r)) ∧ g.PageResult from_ base r) := by
  have hseg : g.Segment (some from_) walk.lineage (some cid) := hnext ▸ h.segment
  by_cases hpassed : ∃ b ∈ base, g.t cid ≤ g.t b
  · right
    obtain ⟨b, rfl, hle⟩ := hpassed
    have hfilter : (g.timed (some b)).filter (fun b => decide ((g.envelope cid).t ≤ b.2)) =
        some (b, g.t b) := filter_eq_some_iff.2 ⟨rfl, decide_eq_true hle⟩
    refine ⟨if cid = b then some (walk.page (g.timed (some b)) (some cid) false) else none,
      returns_of_eq fun n => ?_, ?_⟩
    · rw [visitLineCommit, hfilter]
      rfl
    · split
      · rename_i hcid
        subst hcid
        refine ⟨some cid, h.isPage (fun hnil => hne ?_) hnext (.inr ⟨rfl, rfl⟩)⟩
        rw [hnil] at hseg
        exact (Segment.nil_iff.1 hseg).symm
      · rename_i hcid
        exact ⟨b, rfl, not_onLine_of_passed hfrom hseg (h.younger b rfl) hle hcid⟩
  · have hfilter : (g.timed base).filter (fun b => decide ((g.envelope cid).t ≤ b.2)) = none := by
      refine filter_eq_none_iff.2 fun b hb => ?_
      obtain ⟨b', hb', rfl⟩ := map_eq_some_iff.1 hb
      exact fun hle => hpassed ⟨b', hb', of_decide_eq_true hle⟩
    have hchild : walk.childT.filter (fun childT => decide (childT ≤ (g.envelope cid).t)) = none := by
      rw [h.child]
      refine filter_eq_none_iff.2 fun childT hct => ?_
      obtain ⟨last, hlast, rfl⟩ := map_eq_some_iff.1 hct
      have hlt : g.t cid < g.t last := hseg.lt (fun a ha => some.inj ha ▸ hfrom)
        (mem_of_getLast? hlast)
      exact fun hle => absurd (of_decide_eq_true hle) (not_le.2 hlt)
    have hturn : (fun n => visitLineCommit g.store (g.timed base) n walk cid (g.envelope cid)) =
        fun n => takeLineCommit g.store (g.timed base) n walk cid (g.envelope cid) := by
      funext n
      rw [visitLineCommit, hfilter]
      simp only [hchild]
    rw [hturn]
    exact takeLineCommit_returns hfrom hbase h hnext fun b hb =>
      not_le.1 fun hle => hpassed ⟨b, hb, hle⟩

/-- **One turn of a page's walk.** -/
lemma pageTurn_returns (hne : base ≠ some from_) (limit : ℕ) (h : g.PageOk from_ base walk) :
    (∃ walk' cid, Returns (pageTurn g.store (g.timed base) limit · walk) (.ok (.again walk')) ∧
      g.PageOk from_ base walk' ∧ walk.next = some cid ∧ walk'.next = g.firstParent cid) ∨
    (∃ r, Returns (pageTurn g.store (g.timed base) limit · walk) (.ok (.leave r)) ∧
      g.PageResult from_ base r) := by
  cases hnext : walk.next with
  | none =>
    have hbasenone : base = none := by
      by_contra hsome
      exact h.unfinished hsome hnext
    have hlineage : walk.lineage ≠ [] := fun hnil => by
      have hseg := h.segment
      rw [hnil, hnext] at hseg
      cases Segment.nil_iff.1 hseg
    refine .inr ⟨some (walk.page (g.timed base) none false), returns_of_eq fun n => ?_,
      none, h.isPage hlineage hnext (.inr ⟨rfl, hbasenone.symm⟩)⟩
    rw [pageTurn, hnext]
    rfl
  | some cid =>
    by_cases hfull : walk.lineage ≠ [] ∧ limit ≤ walk.lineage.length + walk.found.merged.length
    · refine .inr ⟨some (walk.page (g.timed base) (some cid) true), returns_of_eq fun n => ?_,
        some cid, h.isPage hfull.1 hnext (.inl ⟨rfl, some_ne_none cid⟩)⟩
      rw [pageTurn, hnext]
      exact if_pos hfull
    · have hcid : cid ∈ g.commits := (hnext ▸ h.segment).reach.mem hfrom
      have hturn : (pageTurn g.store (g.timed base) limit · walk) =
          fun n => visitLineCommit g.store (g.timed base) n walk cid (g.envelope cid) := by
        funext n
        rw [pageTurn, hnext]
        simp only [if_neg hfull]
        rw [bind_of_ok (load_eq hcid)]
      rw [hturn]
      rcases visitLineCommit_returns hfrom hbase hne h hnext with ⟨walk', hr, hok, hn⟩ | hleave
      · exact .inl ⟨walk', cid, hr, hok, rfl, hn⟩
      · exact .inr hleave

/-- **A page ends**: it is a stretch of the line with all that its merges brought in, or the base
is not on the line. -/
lemma walkPage_returns (hne : base ≠ some from_) (limit : ℕ) :
    ∃ r, Returns (walkPage g.store from_ (g.timed base) limit) (.ok r) ∧
      g.PageResult from_ base r := by
  -- by induction on what is left of the line
  have hwalk : ∀ rest (walk : PageWalk Cid), g.PageOk from_ base walk →
      g.Segment walk.next rest none →
      ∃ r, Returns (loop (pageTurn g.store (g.timed base) limit) · walk) (.ok r) ∧
        g.PageResult from_ base r := by
    intro rest
    induction rest with
    | nil =>
      intro walk hok hrest
      have hnone : walk.next = none := Segment.nil_iff.1 hrest
      rcases pageTurn_returns hfrom hbase hne limit hok with ⟨_, _, _, _, hsome, _⟩ | ⟨r, hr, hres⟩
      · rw [hnone] at hsome
        cases hsome
      · exact ⟨r, hr.leave, hres⟩
    | cons c _ ih =>
      intro walk hok hrest
      obtain ⟨hc, hrest⟩ := Segment.cons_iff.1 hrest
      rcases pageTurn_returns hfrom hbase hne limit hok with
        ⟨walk', cid, hr, hok', hcid, hnext'⟩ | ⟨r, hr, hres⟩
      · obtain rfl : c = cid := some.inj (hc.symm.trans hcid)
        obtain ⟨r, hloop, hres⟩ := ih walk' hok' (hnext' ▸ hrest)
        exact ⟨r, hr.again hloop, hres⟩
      · exact ⟨r, hr.leave, hres⟩
  obtain ⟨rest, hrest⟩ := exists_line hfrom
  have hnew := mergedOk_new (g := g) from_ base
  have hmap : (g.timed base).map (·.1) = base := by cases base <;> rfl
  refine hwalk rest _ ⟨.nil _, rfl, ?_, fun _ _ _ hc => (nomatch hc),
    fun _ => some_ne_none from_⟩ hrest
  rw [hmap]
  exact hnew

end

end CommitGraph

end Fluree.Chain
