import Fluree.Proof.TransferPlan

/-!
# A whole transfer

A client asks for one page after the other. The pages together send the line above the base and
everything its merges brought in that the receiver lacks.

* `planCommitTransferPage_returns`: what one call returns.
-/

namespace Fluree.Chain

open Lib Relation CommitGraph List Option

variable {Cid : Type} [DecidableEq Cid] {g : CommitGraph Cid}

namespace CommitGraph

variable {from_ c : Cid}

lemma planCommitTransferPage_returns (hfrom : from_ ∈ g.commits)
    (hne : base ≠ some from_) (limit : ℕ) :
    ∃ r, Returns (planCommitTransferPage g.store from_ base limit) (.ok r) ∧
      g.PageResult from_ base r := by
  cases base with
  | none => exact walkPage_returns hfrom (fun _ (h : _ ∈ (none : Option Cid)) => by cases h) hne limit
  | some b =>
    have hbf : b ≠ from_ := fun h => hne (congrArg some h)
    by_cases hb : b ∈ g.commits
    · obtain ⟨r, hr, hres⟩ := walkPage_returns hfrom
        (fun _ h => some.inj h ▸ hb) hne limit
      refine ⟨r, ?_, hres⟩
      have hcall : planCommitTransferPage g.store from_ (some b) limit =
          walkPage g.store from_ (g.timed (some b)) limit := by
        funext n
        have hstore : g.store b ≠ none := by rw [store_of_mem hb]; exact some_ne_none _
        simp only [planCommitTransferPage, if_neg hbf, if_neg hstore]
        rw [bind_of_ok (load_eq hb)]
        rfl
      rw [hcall]
      exact hr
    · refine ⟨none, returns_of_eq fun n => ?_, b, rfl, fun hon => hb (hon.reach.mem hfrom)⟩
      simp only [planCommitTransferPage, if_neg hbf, if_pos (store_of_not_mem hb)]
      rfl

def linesOf (pages : List (CommitTransferPage Cid)) : List Cid :=
  pages.flatMap fun p => p.plan.lineage.reverse

variable (g) in
structure PagesOk (head : Cid) (base : Option Cid) (pages : List (CommitTransferPage Cid))
    (below : Option Cid) : Prop where
  segment : g.Segment (some head) (linesOf pages) below
  pages : ∀ p ∈ pages, ∃ from_ y, g.OnLine head from_ ∧ g.IsPage from_ base p y

variable (g) in
/-- The pages send the line above the base once, oldest first in each page, and exactly the other
commits that the receiver lacks, parents first; the receiver then holds all that `head` reaches. -/
structure SendsMissing (head : Cid) (base : Option Cid) (pages : List (CommitTransferPage Cid)) :
    Prop where
  lineage : g.Segment (some head) (linesOf pages) base
  once : (linesOf pages).Nodup
  merged : ∀ c, (∃ p ∈ pages, c ∈ p.plan.merged) ↔
    g.Reach head c ∧ ¬ g.OnLine head c ∧ ¬ g.HeldBy base c
  order : ∀ p ∈ pages, ∀ pre c post, p.plan.merged = pre ++ c :: post →
    ∀ q ∈ g.parents c, q ∈ p.plan.merged → q ∈ pre
  receives : ∀ c, g.Reach head c →
    g.HeldBy base c ∨ ∃ p ∈ pages, c ∈ p.plan.lineage ∨ c ∈ p.plan.merged

variable {head : Cid} {base below : Option Cid} {pages : List (CommitTransferPage Cid)}

omit [DecidableEq Cid] in
lemma mem_linesOf : c ∈ linesOf pages ↔ ∃ p ∈ pages, c ∈ p.plan.lineage := by simp [linesOf]

lemma PagesOk.younger (h : g.PagesOk head base pages below) (hb : b ∈ base)
    (hc : c ∈ linesOf pages) : g.t b < g.t c := by
  obtain ⟨p, hp, hc⟩ := mem_linesOf.1 hc
  obtain ⟨_, _, _, hpage⟩ := h.pages p hp
  exact hpage.younger b hb c hc

section

variable (h : g.PagesOk head base pages base)
include h

lemma PagesOk.onLine (hc : g.OnLine head c) :
    g.HeldBy base c ∨ ∃ p ∈ pages, c ∈ p.plan.lineage := by
  by_cases hmem : c ∈ linesOf pages
  · exact .inr (mem_linesOf.1 hmem)
  · obtain ⟨d, _, hd, hk⟩ := hc.below h.segment hmem
    exact .inl ⟨d, hd, hk.reach⟩

lemma PagesOk.skipped (hfrom : g.OnLine head from_) (hc : g.Skip from_ base c) :
    g.HeldBy base c ∨ ∃ p ∈ pages, c ∈ p.plan.lineage ∨ c ∈ p.plan.merged := by
  rcases hc with hc | hc
  · exact (h.onLine (hfrom.trans hc)).imp id fun ⟨p, hp, hc⟩ => ⟨p, hp, .inl hc⟩
  · exact .inl hc

/-- **With all pages the receiver holds everything below the head.** -/
lemma PagesOk.covers (hc : g.Reach head c) :
    g.HeldBy base c ∨ ∃ p ∈ pages, c ∈ p.plan.lineage ∨ c ∈ p.plan.merged := by
  induction hc with
  | refl => exact (h.onLine (OnLine.refl head)).imp id fun ⟨p, hp, hc⟩ => ⟨p, hp, .inl hc⟩
  | @tail m c _ hparent ih =>
    rcases ih with hheld | ⟨p, hp, hm | hm⟩
    · exact .inl (hheld.parent hparent)
    · obtain ⟨from_, y, hfrom, hpage⟩ := h.pages p hp
      obtain ⟨found, hfound, hok⟩ := hpage.merged
      -- the first parent is on the line, the others were brought in
      have hline : g.OnLine head m := hfrom.trans (hpage.segment.onLine_of_mem (mem_reverse.2 hm))
      cases hps : g.parents m with
      | nil => rw [hps] at hparent; cases hparent
      | cons =>
        rw [hps] at hparent
        rcases mem_cons.1 hparent with rfl | htail
        · have hfirst : g.firstParent m = some c := by rw [firstParent, hps]; rfl
          have hmc : g.OnLine m c := ⟨[m], .cons (hfirst ▸ .nil _)⟩
          exact (h.onLine (hline.trans hmc)).imp id fun ⟨p, hp, hc⟩ => ⟨p, hp, .inl hc⟩
        · rcases hok.brought m (mem_reverse.2 hm) c (by rw [hps]; exact htail) with hs | hs | hs
          · exact h.skipped hfrom hs
          · exact .inr ⟨p, hp, .inr (hfound ▸ hs)⟩
          · cases hs
    · obtain ⟨from_, y, hfrom, hpage⟩ := h.pages p hp
      obtain ⟨found, hfound, hok⟩ := hpage.merged
      obtain ⟨pre, post, hsplit⟩ := append_of_mem (hfound ▸ hm)
      rcases hok.order pre m post hsplit c hparent with hs | hs
      · exact h.skipped hfrom hs
      · exact .inr ⟨p, hp, .inr (hfound ▸ hsplit ▸ mem_append_left _ hs)⟩

lemma PagesOk.sendsMissing (hhead : head ∈ g.commits) : g.SendsMissing head base pages := by
  refine ⟨h.segment, h.segment.nodup fun a ha => some.inj ha ▸ hhead, fun c => ⟨?_, ?_⟩,
    fun p hp pre c post hsplit q hq hmem => ?_, fun c hc => h.covers hc⟩
  · rintro ⟨p, hp, hc⟩
    obtain ⟨from_, y, ⟨l, hl⟩, hpage⟩ := h.pages p hp
    obtain ⟨found, hfound, hok⟩ := hpage.merged
    obtain ⟨-, hwanted, hreach⟩ := hok.merged c (hfound ▸ hc)
    refine ⟨hl.reach.trans hreach, fun hon => ?_, fun hheld => hwanted (.inr hheld)⟩
    by_cases hcl : c ∈ l
    · exact hreach.not_above (hl.reach.mem hhead) (hl.above hcl)
    obtain ⟨_, k, hd, hk⟩ := hon.below hl hcl
    obtain rfl := some.inj hd
    exact hwanted (.inl ⟨k, hk⟩)
  · rintro ⟨hreach, hline, hheld⟩
    rcases h.covers hreach with hc | ⟨p, hp, hc | hc⟩
    · exact absurd hc hheld
    · exact absurd (h.segment.onLine_of_mem (mem_linesOf.2 ⟨p, hp, hc⟩)) hline
    · exact ⟨p, hp, hc⟩
  · obtain ⟨from_, y, _, hpage⟩ := h.pages p hp
    obtain ⟨found, hfound, hok⟩ := hpage.merged
    refine (hok.order pre c post (hfound.trans hsplit) q hq).resolve_left fun hskip => ?_
    exact (hok.merged q (hfound ▸ hmem)).2.1 hskip

end

omit [DecidableEq Cid] in
lemma linesOf_append (pages : List (CommitTransferPage Cid)) (p : CommitTransferPage Cid) :
    linesOf (pages ++ [p]) = linesOf pages ++ p.plan.lineage.reverse := by
  simp [linesOf]

variable (g) in
/-- How the transfer to a receiver at `base` ends. -/
def TransferResult (head : Cid) (base : Option Cid) :
    Option (List (CommitTransferPage Cid)) → Prop
  | none => ∃ b ∈ base, ¬ g.OnLine head b
  | some pages => g.PagesOk head base pages base

lemma followTurn_of_page
    (hr : Returns (planCommitTransferPage g.store from_ base (limits pages.length)) (.ok r)) :
    Returns (followTurn g.store base limits · (from_, pages)) (.ok (followed pages r)) :=
  hr.bind (returns_of_eq fun _ => rfl)

/-- **Page after page**: from a commit of the line that is not the base, by induction on the line
below it. -/
lemma follow_returns (limits : ℕ → ℕ) (hhead : head ∈ g.commits)
    (hok : g.PagesOk head base pages (some from_)) (hne : base ≠ some from_)
    (hrest : g.Segment (some from_) rest none) :
    ∃ r, Returns (loop (followTurn g.store base limits) · (from_, pages)) (.ok r) ∧
      g.TransferResult head base r := by
  induction hn : rest.length using Nat.strong_induction_on generalizing from_ rest pages with
  | _ n ih =>
    have hfrom : from_ ∈ g.commits := hok.segment.reach.mem hhead
    obtain ⟨r, hr, hres⟩ := planCommitTransferPage_returns hfrom hne (limits pages.length)
    have hturn := followTurn_of_page hr
    cases r with
    | none =>
      obtain ⟨b, hb, hnot⟩ := hres
      refine ⟨none, hturn.leave, b, hb, fun hon => ?_⟩
      obtain ⟨d, k, hd, hk⟩ := hon.below hok.segment fun hmem => lt_irrefl _ (hok.younger hb hmem)
      obtain rfl := some.inj hd
      exact hnot ⟨k, hk⟩
    | some page =>
      obtain ⟨below, hpage⟩ := hres
      have hpages : g.PagesOk head base (pages ++ [page]) below := by
        refine ⟨?_, fun p hp => ?_⟩
        · rw [linesOf_append]
          exact hok.segment.trans hpage.segment
        · rcases mem_append.1 hp with hp | hp
          · exact hok.pages p hp
          · rw [mem_singleton.1 hp]
            exact ⟨from_, below, ⟨_, hok.segment⟩, hpage⟩
      rcases hpage.next with ⟨hnext, rfl⟩ | ⟨hnext, hsome, hbelow⟩
      · simp only [followed, hnext] at hturn
        exact ⟨some (pages ++ [page]), hturn.leave, hpages⟩
      · obtain ⟨d, rfl⟩ := ne_none_iff_exists'.1 hsome
        simp only [followed, hnext] at hturn
        -- the next page starts further down
        obtain ⟨rest', hlen, hrest'⟩ : ∃ rest', rest'.length < rest.length ∧
            g.Segment (some d) rest' none := by
          have hpos : 0 < page.plan.lineage.reverse.length := by
            rw [length_reverse]
            exact length_pos_iff.2 hpage.nonempty
          rcases hpage.segment.comparable hrest with ⟨k, rfl, hk⟩ | ⟨k, -, hk⟩
          · exact ⟨k, by rw [length_append]; omega, hk⟩
          · cases hk.from_none.2
        obtain ⟨r, hloop, hres⟩ := ih _ (hn ▸ hlen) hpages (Ne.symm hbelow) hrest' rfl
        exact ⟨r, hturn.again hloop, hres⟩

/-- **A transfer sends exactly what is missing.** If the base is on the line of the head, or there is
none, following the pages ends with all of it; otherwise it ends with `none`. -/
theorem followPages_exact (g : CommitGraph Cid) (head : g.commits) (base : Option Cid)
    (limits : ℕ → ℕ) : ((∀ b ∈ base, g.OnLine head b) ∧ ∃ pages,
      Returns (followPages g.store head base limits) (.ok (some pages)) ∧
      g.SendsMissing head base pages) ∨ ((∃ b ∈ base, ¬ g.OnLine head b) ∧
      Returns (followPages g.store head base limits) (.ok none)) := by
  obtain ⟨head, hhead⟩ := head
  by_cases hself : base = some head
  · -- the receiver is at the head: one empty page
    subst hself
    have hpage : Returns (planCommitTransferPage g.store head (some head) (limits 0))
        (.ok (some ⟨⟨[], []⟩, none⟩)) := returns_of_eq fun n => if_pos rfl
    have hturn : Returns (followTurn g.store (some head) limits · (head, []))
        (.ok (followed [] (some ⟨⟨[], []⟩, none⟩))) := followTurn_of_page hpage
    have hok : g.PagesOk head (some head) [] (some head) := ⟨.nil _, fun _ hp => nomatch hp⟩
    refine .inl ⟨fun b hb => some.inj hb ▸ OnLine.refl head, [⟨⟨[], []⟩, none⟩],
      hturn.leave, ?_⟩
    have hsend := hok.sendsMissing hhead
    refine ⟨hsend.lineage, hsend.once, fun c => ?_, fun p hp pre c post hsplit => ?_, fun c hc => ?_⟩
    · rw [← hsend.merged c]
      simp
    · rw [mem_singleton.1 hp] at hsplit
      simp at hsplit
    · exact .inl ⟨head, rfl, hc⟩
  · obtain ⟨_, hrest⟩ := exists_line hhead
    obtain ⟨r, hr, hres⟩ := follow_returns limits hhead
      (⟨.nil _, fun _ hp => nomatch hp⟩ : g.PagesOk head base [] (some head)) hself hrest
    cases r with
    | none => exact .inr ⟨hres, hr⟩
    | some pages =>
      refine .inl ⟨fun b hb => ?_, pages, hr, PagesOk.sendsMissing hres hhead⟩
      obtain rfl : base = some b := hb
      exact ⟨_, hres.segment⟩

end CommitGraph

end Fluree.Chain
