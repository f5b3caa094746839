import Fluree.Transact.Namespace

/-!
# One encoding for readers and writers

A table is one-to-one (`NsTables.OneToOne`), tables only grow, and the cut of an IRI does not depend
on them. So an id that fits one table fits every later one.

* `canonicalSplit_append`: the two parts of a cut make up the IRI.
-/

namespace Fluree

open Lib Namespaces List Option

lemma canonicalSplit_append
    (h : canonicalSplit iri mode = some (text, name)) : text ++ name = iri := by
  obtain ⟨_, -, hk⟩ := map_eq_some_iff.1 h
  obtain ⟨rfl, rfl⟩ := Prod.mk.inj hk
  rw [← String.ofList_append, take_append_drop, String.ofList_toList]

/-! ## One-to-one tables -/

/-- A relation between codes and texts that is one-to-one. -/
structure OneToOne (r : UInt16 → String → Prop) : Prop where
  text_eq : ∀ {code text text'}, r code text → r code text' → text = text'
  code_eq : ∀ {code code' text}, r code text → r code' text → code = code'

namespace NsTables

variable (t : NsTables)

/-- Both directions of a table say the same. -/
def Agree : Prop := ∀ code text, t.codes.lookup code = some text ↔ t.reverse.lookup text = some code

/-- A table that holds no entry outside `r`. -/
structure Within (t : NsTables) (r : UInt16 → String → Prop) : Prop where
  agree : t.Agree
  sub : ∀ {code text}, t.codes.lookup code = some text → r code text

def Has (code : UInt16) (text : String) : Prop := t.codes.lookup code = some text

def Sub (t t' : NsTables) : Prop :=
  ∀ code text, t.codes.lookup code = some text → t'.codes.lookup code = some text

lemma Sub.refl : t.Sub t := fun _ _ h => h

lemma Sub.trans {t t' t'' : NsTables} (h : t.Sub t') (h' : t'.Sub t'') : t.Sub t'' :=
  fun code text hc => h' code text (h code text hc)

lemma lookup_insert (code c : UInt16) (text : String) :
    (t.insert code text).codes.lookup c = if c = code then some text else t.codes.lookup c :=
  KeyedMap.lookup_insert_ite _ _ _ _

lemma reverse_insert (code : UInt16) (text x : String) :
    (t.insert code text).reverse.lookup x = if x = text then some code else t.reverse.lookup x :=
  KeyedMap.lookup_insert_ite _ _ _ _

variable {r : UInt16 → String → Prop} {t : NsTables}

variable {code : UInt16} {text : String}

lemma Within.insert (ht : t.Within r) (hr : OneToOne r) (h : r code text) :
    (t.insert code text).Within r := by
  refine ⟨fun c x => ?_, fun {c x} hc => ?_⟩
  · rw [lookup_insert, reverse_insert]
    by_cases hcode : c = code <;> by_cases htext : x = text
    · simp [hcode, htext]
    · rw [if_pos hcode, if_neg htext]
      refine ⟨fun he => absurd (Option.some.inj he).symm htext, fun hx => ?_⟩
      exact absurd (hr.text_eq (hcode ▸ ht.sub ((ht.agree c x).2 hx)) h) htext
    · rw [if_neg hcode, if_pos htext]
      refine ⟨fun hc => ?_, fun he => absurd (Option.some.inj he).symm hcode⟩
      exact absurd (hr.code_eq (htext ▸ ht.sub hc) h) hcode
    · rw [if_neg hcode, if_neg htext]
      exact ht.agree c x
  · rw [lookup_insert] at hc
    split at hc
    · rename_i hcode
      rw [hcode, ← Option.some.inj hc]
      exact h
    · exact ht.sub hc

lemma Within.sub_insert (ht : t.Within r) (hr : OneToOne r) (h : r code text) :
    t.Sub (t.insert code text) := by
  intro c x hc
  rw [lookup_insert]
  split
  · rename_i hcode
    subst hcode
    rw [hr.text_eq (ht.sub hc) h]
  · exact hc

/-- **An entry of the relation is no conflict.** -/
lemma Within.checkEntry (ht : t.Within r) (hr : OneToOne r) (h : r code text) :
    checkEntry t.codes.lookup t.reverse.lookup code text = .ok (t.codes.lookup code).isNone := by
  rw [Fluree.checkEntry]
  cases hc : t.codes.lookup code with
  | some => rw [hr.text_eq (ht.sub hc) h]; simp
  | none =>
    cases hx : t.reverse.lookup text with
    | some existing =>
      have hback := (ht.agree existing text).2 hx
      rw [hr.code_eq (ht.sub hback) h] at hback
      rw [hback] at hc
      cases hc
    | none => rfl

lemma Within.mem_of_not_isNone (ht : t.Within r) (hr : OneToOne r) (h : r code text)
    (hnot : ¬ (t.codes.lookup code).isNone = true) : t.codes.lookup code = some text := by
  cases hc : t.codes.lookup code with
  | none => rw [hc] at hnot; simp at hnot
  | some => rw [hr.text_eq (ht.sub hc) h]

end NsTables

/-! ## Deltas -/

variable {r : UInt16 → String → Prop}

/-- `t'` is `t` with the entries of a delta. -/
structure Takes (r : UInt16 → String → Prop) (t : NsTables) (delta : List (UInt16 × String))
    (t' : NsTables) : Prop where
  within : t'.Within r
  sub : t.Sub t'
  mem : ∀ e ∈ delta, t'.Has e.1 e.2
  only : ∀ code text, t'.Has code text → t.Has code text ∨ (code, text) ∈ delta

variable {t : NsTables} {delta : List (UInt16 × String)} {mode : NsSplitMode} {iri : String}

lemma Takes.nil (ht : t.Within r) : Takes r t [] t :=
  ⟨ht, .refl t, fun _ he => (nomatch he), fun _ _ => .inl⟩

lemma Takes.insert {t' : NsTables} (hr : OneToOne r) (ht : t.Within r) {e : UInt16 × String}
    (he : r e.1 e.2) (h : Takes r (t.insert e.1 e.2) delta t') : Takes r t (e :: delta) t' where
  within := h.within
  sub := (ht.sub_insert hr he).trans h.sub
  mem d hd := by
    rcases mem_cons.1 hd with rfl | hd
    · exact h.sub _ _ (by rw [NsTables.lookup_insert, if_pos rfl])
    · exact h.mem d hd
  only code text hc := by
    rcases h.only code text hc with hc | hc
    · rw [NsTables.Has, NsTables.lookup_insert] at hc
      split at hc
      · rename_i hcode
        rw [hcode, ← Option.some.inj hc]
        exact .inr mem_cons_self
      · exact .inl hc
    · exact .inr (mem_cons_of_mem _ hc)

lemma Takes.skip (he : t.Has e.1 e.2)
    (h : Takes r t delta t') : Takes r t (e :: delta) t' where
  within := h.within
  sub := h.sub
  mem d hd := by
    rcases mem_cons.1 hd with rfl | hd
    · exact h.sub _ _ he
    · exact h.mem d hd
  only code text hc := (h.only code text hc).imp_right (mem_cons_of_mem _)

/-- **A delta that `r` covers is applied.** -/
lemma applyNamespaceDelta_ok (hr : OneToOne r) {s : LedgerSnapshot} (hs : s.tables.Within r)
    (hdelta : ∀ e ∈ delta, r e.1 e.2) :
    ∃ t, s.applyNamespaceDelta delta = .ok { s with tables := t } ∧ Takes r s.tables delta t := by
  induction delta generalizing s with
  | nil => exact ⟨s.tables, rfl, .nil hs⟩
  | cons e delta ih =>
    have he : r e.1 e.2 := hdelta e mem_cons_self
    have hdelta' : ∀ d ∈ delta, r d.1 d.2 := fun d hd => hdelta d (mem_cons_of_mem _ hd)
    by_cases hnew : (s.tables.codes.lookup e.1).isNone = true
    · have hstep : s.applyEntry e.1 e.2 = .ok { s with tables := s.tables.insert e.1 e.2 } := by
        rw [LedgerSnapshot.applyEntry, hs.checkEntry hr he, hnew]
        rfl
      obtain ⟨t, hok, ht⟩ :=
        ih (s := { s with tables := s.tables.insert e.1 e.2 }) (hs.insert hr he) hdelta'
      exact ⟨t, (bind_of_ok hstep).trans hok, ht.insert hr hs he⟩
    · have hstep : s.applyEntry e.1 e.2 = .ok s := by
        rw [LedgerSnapshot.applyEntry, hs.checkEntry hr he, Bool.eq_false_iff.2 hnew]
        rfl
      obtain ⟨t, hok, ht⟩ := ih hs hdelta'
      exact ⟨t, (bind_of_ok hstep).trans hok, ht.skip (hs.mem_of_not_isNone hr he hnew)⟩

lemma filterM_checkEntry (hr : OneToOne r) (ht : t.Within r) (hdelta : ∀ e ∈ delta, r e.1 e.2) :
    delta.filterM (fun e => checkEntry t.codes.lookup t.reverse.lookup e.1 e.2) =
      .ok (delta.filter fun e => (t.codes.lookup e.1).isNone) := by
  have hgo : ∀ (l acc : List (UInt16 × String)), (∀ e ∈ l, r e.1 e.2) →
      List.filterAuxM (fun e => checkEntry t.codes.lookup t.reverse.lookup e.1 e.2) l acc =
        .ok ((l.filter fun e => (t.codes.lookup e.1).isNone).reverse ++ acc) := by
    intro l
    induction l with
    | nil => intro acc _; rfl
    | cons e l ih =>
      intro acc hl
      have he := ht.checkEntry hr (hl e mem_cons_self)
      have hl' : ∀ d ∈ l, r d.1 d.2 := fun d hd => hl d (mem_cons_of_mem _ hd)
      rw [List.filterAuxM, bind_of_ok he, ih _ hl']
      cases hnone : (t.codes.lookup e.1).isNone <;> simp [hnone]
  rw [List.filterM, bind_of_ok (hgo delta [] hdelta), append_nil, reverse_reverse]
  rfl

lemma foldl_insert_takes (hr : OneToOne r) (ht : t.Within r) (hentries : ∀ e ∈ entries, r e.1 e.2) :
    Takes r t entries (entries.foldl (fun t e => t.insert e.1 e.2) t) := by
  induction entries generalizing t with
  | nil => exact .nil ht
  | cons e _ ih =>
    have he : r e.1 e.2 := hentries e mem_cons_self
    exact (ih (ht.insert hr he) fun d hd => hentries d (mem_cons_of_mem _ hd)).insert hr ht he

/-- **The loaded index accepts what `r` covers.** -/
lemma augmentNamespaceCodes_ok (hr : OneToOne r) {s : BinaryIndexStore} (hs : s.tables.Within r)
    (hdelta : ∀ e ∈ delta, r e.1 e.2) :
    ∃ t, s.augmentNamespaceCodes delta = .ok { s with tables := t } ∧ Takes r s.tables delta t := by
  have hnew : ∀ e ∈ delta.filter fun e => (s.tables.codes.lookup e.1).isNone, r e.1 e.2 :=
    fun e he => hdelta e (mem_of_mem_filter he)
  have htakes := foldl_insert_takes hr hs hnew
  refine ⟨_, bind_of_ok (filterM_checkEntry hr hs hdelta), htakes.within, htakes.sub,
    fun e he => ?_, fun code text hc => (htakes.only code text hc).imp_right mem_of_mem_filter⟩
  by_cases hnone : (s.tables.codes.lookup e.1).isNone = true
  · exact htakes.mem e (mem_filter.2 ⟨he, hnone⟩)
  · exact htakes.sub _ _ (hs.mem_of_not_isNone hr (hdelta e he) hnone)

/-! ## Ids that fit a table -/

/-- `sid` is the code and the name of `iri` under the entries `r`. -/
structure Fits (r : UInt16 → String → Prop) (mode : NsSplitMode) (iri : String) (sid : Sid) :
    Prop where
  proper : sid.namespaceCode ≠ OVERFLOW
  cut : ∃ text, canonicalSplit iri mode = some (text, sid.name) ∧ r sid.namespaceCode text

lemma Fits.mono {r' : UInt16 → String → Prop} (hfits : Fits r mode iri sid)
    (h : ∀ text, r sid.namespaceCode text → r' sid.namespaceCode text) : Fits r' mode iri sid := by
  obtain ⟨text, hsplit, hcode⟩ := hfits.cut
  exact ⟨hfits.proper, text, hsplit, h _ hcode⟩

/-- **Readers compute the id that fits.** -/
lemma Fits.encode (ht : t.Agree) (h : Fits t.Has mode iri sid) :
    encodeWith t mode iri = some sid := by
  obtain ⟨_, hsplit, hcode⟩ := h.cut
  rw [encodeWith, hsplit, map_some]
  simp only [(ht _ _).1 hcode]

/-- **The id that fits decodes to its IRI.** -/
lemma Fits.decode (hempty : t.Has EMPTY "") (h : Fits t.Has mode iri sid) :
    decodeWith t sid = some iri := by
  obtain ⟨text, hsplit, hcode⟩ := h.cut
  have happend := canonicalSplit_append hsplit
  rw [decodeWith]
  split
  · rename_i hfull
    have hzero : sid.namespaceCode = EMPTY := by simpa [isFullIri, h.proper] using hfull
    rw [hzero, NsTables.Has, hempty] at hcode
    obtain rfl := Option.some.inj hcode
    rw [← happend, String.empty_append]
  · rw [hcode, map_some, happend]

end Fluree

/-!
## A writer of subject ids

The table of a writer is one-to-one and covers the readers' tables; what it adds reaches them with
the commit.

* `WritingOk.step`: what one writer and its readers keep.
-/

namespace Fluree.Transact

open Lib Namespaces List KeyedMap NamespaceCodes Option UInt16

/-! ## The table of a writer -/

def Entry (c : NamespaceCodes) (code : UInt16) (text : String) : Prop := c.getPrefix code = some text

/-- A writer's table is one-to-one, holds no sentinel, and `nextCode` is free. -/
structure Codes (c : NamespaceCodes) : Prop where
  agree : ∀ code text, c.getPrefix code = some text ↔ c.getCode text = some code
  proper : ∀ code text, c.getPrefix code = some text → code ≠ OVERFLOW
  below : ∀ code text, c.getPrefix code = some text → code < OVERFLOW → code < c.nextCode
  delta : ∀ code text, c.delta.lookup code = some text → c.getPrefix code = some text

variable {c : NamespaceCodes} {text iri : String} {code : UInt16} {r : UInt16 → String → Prop}
  {snapshot : LedgerSnapshot} {store : BinaryIndexStore} {s : Writing}

lemma Codes.oneToOne (h : Codes c) : OneToOne (Entry c) where
  text_eq h₁ h₂ := some.inj (h₁.symm.trans h₂)
  code_eq h₁ h₂ := some.inj (((h.agree _ _).1 h₁).symm.trans ((h.agree _ _).1 h₂))

def added (c : NamespaceCodes) (code : UInt16) (text : String) : NamespaceCodes :=
  { c with nextCode := code + 1, own := c.own.insert code text, delta := c.delta.insert code text }

lemma getPrefix_added (c : NamespaceCodes) (code x : UInt16) (text : String) :
    (added c code text).getPrefix x = if x = code then some text else c.getPrefix x := by
  simp only [getPrefix, added, NsTables.lookup_insert]
  split <;> simp

lemma getCode_added (c : NamespaceCodes) (code : UInt16) (text x : String) :
    (added c code text).getCode x = if x = text then some code else c.getCode x := by
  simp only [getCode, added, NsTables.reverse_insert]
  split <;> simp

lemma Codes.next_free (h : Codes c) (hnext : c.nextCode < OVERFLOW) :
    c.getPrefix c.nextCode = none := by
  cases hc : c.getPrefix c.nextCode with
  | none => rfl
  | some => exact absurd (h.below _ _ hc hnext) (lt_irrefl _)

lemma lt_add_one (h : a < OVERFLOW) (hb : b ≤ a) : b < a + 1 := by
  have ha : a.toNat < 65534 := UInt16.lt_iff_toNat_lt.1 h
  have hb : b.toNat ≤ a.toNat := UInt16.le_iff_toNat_le.1 hb
  rw [UInt16.lt_iff_toNat_lt, UInt16.toNat_add]
  have hone : (1 : UInt16).toNat = 1 := rfl
  omega

lemma Codes.insertNext (h : Codes c) (hnext : c.nextCode < OVERFLOW)
    (hnew : c.getCode text = none) : Codes (added c c.nextCode text) := by
  have hfree := h.next_free hnext
  refine ⟨fun code x => ?_, fun code x hx => ?_, fun code x hx hlt => ?_, fun code x hx => ?_⟩
  · rw [getPrefix_added, getCode_added]
    by_cases hcode : code = c.nextCode <;> by_cases htext : x = text
    · simp [hcode, htext]
    · rw [if_pos hcode, if_neg htext, ← h.agree, hcode, hfree]
      exact ⟨fun he => absurd (some.inj he).symm htext, (nomatch ·)⟩
    · rw [if_neg hcode, if_pos htext, h.agree, htext, hnew]
      exact ⟨(nomatch ·), fun he => absurd (some.inj he).symm hcode⟩
    · rw [if_neg hcode, if_neg htext]
      exact h.agree code x
  · rw [getPrefix_added] at hx
    split at hx
    · rename_i hcode
      exact hcode ▸ ne_of_lt hnext
    · exact h.proper code x hx
  · rw [getPrefix_added] at hx
    split at hx
    · rename_i hcode
      exact lt_add_one hnext (hcode ▸ le_refl _)
    · exact lt_add_one hnext (le_of_lt (h.below code x hx hlt))
  · rw [getPrefix_added]
    have hx : (c.delta.insert c.nextCode text).lookup code = some x := hx
    rw [lookup_insert_ite] at hx
    split at hx
    · rename_i hcode
      rw [if_pos hcode, hx]
    · rename_i hcode
      rw [if_neg hcode]
      exact h.delta code x hx

def HasRoom (c : NamespaceCodes) (text : String) : Prop :=
  c.getCode text ≠ none ∨ c.nextCode < OVERFLOW

/-- What an allocation does to the table. -/
structure Allocates (c : NamespaceCodes) (text : String) (code : UInt16) (c' : NamespaceCodes) :
    Prop where
  ok : Codes c'
  entry : c'.getPrefix code = some text
  keeps : ∀ x y, c.getPrefix x = some y → c'.getPrefix x = some y
  delta : ∀ x y, c.delta.lookup x = some y → c'.delta.lookup x = some y
  /-- What is new is in the delta, under a code that was free. -/
  new : ∀ x y, c'.getPrefix x = some y →
    c.getPrefix x = some y ∨ c'.delta.lookup x = some y ∧ c.nextCode ≤ x ∧ x < OVERFLOW
  next : c.nextCode ≤ c'.nextCode

/-- **A writer with room** finds or adds the code of a text. -/
lemma Codes.getOrAllocate (h : Codes c) (hroom : HasRoom c text) :
    Allocates c text (getOrAllocate c text).1 (getOrAllocate c text).2 := by
  cases hcode : c.getCode text with
  | some code =>
    have heq : Transact.getOrAllocate c text = (code, c) := by
      simp [Transact.getOrAllocate, allocatePrefix, hcode]
    rw [heq]
    exact ⟨h, (h.agree _ _).2 hcode, fun _ _ hx => hx, fun _ _ hx => hx, fun _ _ => .inl,
      le_refl _⟩
  | none =>
    have hnext : c.nextCode < OVERFLOW := hroom.resolve_left fun hn => hn hcode
    have heq : Transact.getOrAllocate c text = (c.nextCode, Transact.added c c.nextCode text) := by
      simp [Transact.getOrAllocate, allocatePrefix, hcode, not_le.2 hnext, Transact.added]
    have hfree := h.next_free hnext
    rw [heq]
    refine ⟨h.insertNext hnext hcode, by rw [getPrefix_added, if_pos rfl], fun x y hx => ?_,
      fun x y hx => ?_, fun x y hx => ?_, le_of_lt (lt_add_one hnext (le_refl _))⟩
    · rw [getPrefix_added]
      split
      · rename_i hxc
        rw [hxc, hfree] at hx
        cases hx
      · exact hx
    · show (c.delta.insert _ _).lookup x = _
      rw [lookup_insert_ite]
      split
      · rename_i hxc
        rw [hxc] at hx
        rw [h.delta _ _ hx] at hfree
        cases hfree
      · exact hx
    · rw [getPrefix_added] at hx
      split at hx
      · rename_i hxc
        refine .inr ⟨?_, hxc ▸ le_refl _, hxc ▸ hnext⟩
        show (c.delta.insert _ _).lookup x = _
        rw [lookup_insert_ite, if_pos hxc, hx]
      · exact .inl hx

lemma Allocates.entries (h : Allocates c text code c') (hfits : Fits (Entry c) mode iri sid) : Fits (Entry c') mode iri sid :=
  hfits.mono fun _ => h.keeps _ _

lemma fits_sidOf (h : Codes c) (hsplit : canonicalSplit iri mode = some (text, name))
    (hcode : c.getPrefix code = some text) : Fits (Entry c) mode iri (sidOf code iri name) := by
  have hproper := h.proper _ _ hcode
  rw [sidOf, if_neg hproper]
  exact ⟨hproper, text, hsplit, hcode⟩

/-- **The first free code lies above all codes of the table.** -/
lemma lt_nextAfter (hcode : code ∈ codes.keys)
    (hlt : code < OVERFLOW) : code < nextAfter codes := by
  have hmem : code ∈ codes.keys.filter (· < OVERFLOW) := mem_filter.2 ⟨hcode, by simpa using hlt⟩
  obtain ⟨m, hm⟩ := isSome_iff_exists.1 (isSome_max?_of_mem hmem)
  obtain ⟨hm_mem, hle⟩ := List.max?_eq_some_iff.1 hm
  have hm_lt : m < OVERFLOW := by simpa using (mem_filter.1 hm_mem).2
  rw [nextAfter, hm, getD_some]
  exact Std.lt_of_lt_of_le (lt_add_one hm_lt (hle code hmem)) Std.left_le_max

/-- The table of a ledger: one-to-one, with the fixed codes and without the sentinel. -/
structure Sound (t : NsTables) : Prop where
  agree : t.Agree
  builtin : ∀ e ∈ builtinNamespaces, t.Has e.1 e.2
  proper : ∀ text, ¬ t.Has OVERFLOW text

lemma mergeDelta_known {delta}
    (h : ∀ e ∈ delta, c.getPrefix e.1 = some e.2) : c.mergeDelta delta = .ok c := by
  induction delta with
  | nil => rfl
  | cons e _ ih =>
    have he : c.mergeEntry e.1 e.2 = .ok c := by
      simp [mergeEntry, checkEntry, h e mem_cons_self, bind, Except.bind]
    exact (bind_of_ok he).trans (ih fun d hd => h d (mem_cons_of_mem _ hd))

def layered (t : NsTables) : NamespaceCodes := ⟨some t, .empty, nextAfter t.codes, ∅⟩

lemma entry_layered (t : NsTables) : Entry (layered t) = t.Has := by
  funext code text
  simp [Entry, layered, getPrefix, NsTables.empty, NsTables.Has]

lemma Sound.layeredOver {t} (h : Sound t) : layeredOver t = .ok (layered t) :=
  mergeDelta_known fun e he => (congrFun₂ (entry_layered t) e.1 e.2).mpr (h.builtin e he)

lemma Sound.codes (h : Sound t) : Codes (layered t) := by
  have hentry : ∀ code text, (layered t).getPrefix code = some text ↔ t.Has code text :=
    fun code text => Iff.of_eq (congrFun₂ (entry_layered t) code text)
  refine ⟨fun code text => ?_, fun code text hc => ?_, fun code text hc hlt => ?_, fun _ _ hc => ?_⟩
  · rw [hentry, NsTables.Has, h.agree]
    simp [layered, getCode, NsTables.empty]
  · rintro rfl
    exact h.proper text ((hentry _ _).1 hc)
  · have hmem : code ∈ t.codes := AList.lookup_isSome.1 (by rw [(hentry _ _).1 hc]; rfl)
    exact lt_nextAfter (AList.mem_keys.2 hmem) hlt
  · cases hc

/-! ## Readers -/

/-- Snapshot and loaded index have the same entries, all of them among `r`. -/
structure Readers (r : UInt16 → String → Prop) (snapshot : LedgerSnapshot)
    (store : BinaryIndexStore) : Prop where
  within : snapshot.tables.Within r
  storeWithin : store.tables.Within r
  fore : snapshot.tables.Sub store.tables
  back : store.tables.Sub snapshot.tables
  builtin : ∀ e ∈ builtinNamespaces, snapshot.tables.Has e.1 e.2
  mode : store.nsSplitMode = snapshot.nsSplitMode

lemma Readers.mono {r' : UInt16 → String → Prop} (h : Readers r snapshot store)
    (hr : ∀ code text, r code text → r' code text) : Readers r' snapshot store :=
  { h with
    within := ⟨h.within.agree, fun hc => hr _ _ (h.within.sub hc)⟩
    storeWithin := ⟨h.storeWithin.agree, fun hc => hr _ _ (h.storeWithin.sub hc)⟩ }

/-- **A delta from a writer's table reaches the readers.** -/
lemma Readers.publish (hr : OneToOne r) (h : Readers r snapshot store)
    {delta} (hdelta : ∀ e ∈ delta, r e.1 e.2) :
    ∃ t t', publish snapshot store delta = .ok ({ snapshot with tables := t }, { store with tables := t' }) ∧
      Readers r { snapshot with tables := t } { store with tables := t' } ∧
      snapshot.tables.Sub t ∧ ∀ e ∈ delta, t.Has e.1 e.2 := by
  obtain ⟨t, hok, ht⟩ := applyNamespaceDelta_ok hr h.within hdelta
  obtain ⟨t', hok', ht'⟩ := augmentNamespaceCodes_ok hr h.storeWithin hdelta
  refine ⟨t, t', ?_, ⟨ht.within, ht'.within, fun code text hc => ?_, fun code text hc => ?_,
    fun e he => ht.sub _ _ (h.builtin e he), h.mode⟩, ht.sub, ht.mem⟩
  · exact (bind_of_ok hok).trans (bind_of_ok hok')
  · rcases ht.only code text hc with hc | hc
    · exact ht'.sub _ _ (h.fore _ _ hc)
    · exact ht'.mem _ hc
  · rcases ht'.only code text hc with hc | hc
    · exact ht.sub _ _ (h.back _ _ hc)
    · exact ht.mem _ hc

/-- Readers compute `sid` for `iri`, and get `iri` back from it. -/
structure ReadAs (snapshot : LedgerSnapshot) (store : BinaryIndexStore) (iri : String) (sid : Sid) :
    Prop where
  encodeIri : snapshot.encodeIri iri = some sid
  storeEncodeIri : store.encodeIri iri = some sid
  decodeSid : snapshot.decodeSid sid = some iri
  sidToIri : store.sidToIri sid = some iri

lemma Readers.readAs (h : Readers r snapshot store)
    (hfits : Fits snapshot.tables.Has snapshot.nsSplitMode iri sid) :
    ReadAs snapshot store iri sid := by
  have hempty : snapshot.tables.Has EMPTY "" := h.builtin (EMPTY, "") (by decide)
  have hfits' : Fits store.tables.Has store.nsSplitMode iri sid := by
    rw [h.mode]
    exact hfits.mono fun _ => h.fore _ _
  exact ⟨hfits.encode h.within.agree, hfits'.encode h.storeWithin.agree, hfits.decode hempty,
    hfits'.decode (h.fore _ _ hempty)⟩

lemma Readers.sound (hc : Codes c) (h : Readers (Entry c) snapshot store) : Sound snapshot.tables :=
  ⟨h.within.agree, h.builtin, fun _ ht => hc.proper _ _ (h.within.sub ht) rfl⟩

lemma Sound.readers (h : Sound snapshot.tables) (htables : store.tables = snapshot.tables)
    (hmode : store.nsSplitMode = snapshot.nsSplitMode) :
    Readers (Entry (layered snapshot.tables)) snapshot store := by
  rw [entry_layered]
  refine ⟨⟨h.agree, id⟩, ?_, ?_, ?_, h.builtin, hmode⟩ <;> rw [htables]
  · exact ⟨h.agree, id⟩
  · exact .refl _
  · exact .refl _

lemma fromDb_of_sound (snapshot : LedgerSnapshot) (h : Sound snapshot.tables) :
    NamespaceRegistry.fromDb snapshot = some ⟨layered snapshot.tables, snapshot.nsSplitMode⟩ := by
  rw [NamespaceRegistry.fromDb, h.layeredOver]
  rfl

/-! ## One writer -/

/-- What holds of a ledger and its writer all along. -/
structure WritingOk (s : Writing) : Prop where
  codes : Codes s.registry.codes
  readers : Readers (Entry s.registry.codes) s.snapshot s.store
  /-- What readers lack goes with the next commit. -/
  cover : ∀ code text, Entry s.registry.codes code text →
    s.snapshot.tables.Has code text ∨ s.registry.codes.delta.lookup code = some text
  mode : s.registry.splitMode = s.snapshot.nsSplitMode
  pending : ∀ e ∈ s.pending, Fits (Entry s.registry.codes) s.snapshot.nsSplitMode e.1 e.2
  committed : ∀ e ∈ s.committed, Fits s.snapshot.tables.Has s.snapshot.nsSplitMode e.1 e.2

/-- A code is free if the act needs one. -/
def Writing.HasRoom (s : Writing) : WriteAct → Prop
  | .sidForIri iri => ∀ cut ∈ canonicalSplit iri s.registry.splitMode,
      Transact.HasRoom s.registry.codes cut.1
  | _ => True

lemma WritingOk.begin (h : WritingOk s) : WritingOk (s.step .begin) := by
  have hsound := h.readers.sound h.codes
  rw [Writing.step, fromDb_of_sound _ hsound]
  refine ⟨hsound.codes, ?_, fun code text hc => .inl ?_, rfl, fun _ he => (nomatch he), h.committed⟩
  · rw [entry_layered]
    exact { h.readers with
      within := ⟨h.readers.within.agree, id⟩
      storeWithin := ⟨h.readers.storeWithin.agree, fun hc => h.readers.back _ _ hc⟩ }
  · exact (congrFun₂ (entry_layered s.snapshot.tables) code text).mp hc

lemma WritingOk.sidForIri (h : WritingOk s) (hroom : s.HasRoom (.sidForIri iri)) :
    WritingOk (s.step (.sidForIri iri)) := by
  rw [Writing.step, NamespaceRegistry.sidForIri]
  cases hsplit : canonicalSplit iri s.registry.splitMode with
  | none => exact h
  | some cut =>
    obtain ⟨_, _⟩ := cut
    have halloc := h.codes.getOrAllocate (hroom _ hsplit)
    refine ⟨halloc.ok, h.readers.mono fun _ _ => halloc.keeps _ _, fun code x hx => ?_, h.mode,
      fun e he => ?_, h.committed⟩
    · rcases halloc.new code x hx with hx | hx
      · exact (h.cover code x hx).imp_right (halloc.delta code x)
      · exact .inr hx.1
    · rcases mem_cons.1 he with rfl | he
      · exact fits_sidOf halloc.ok (h.mode ▸ hsplit) halloc.entry
      · exact halloc.entries (h.pending e he)

lemma WritingOk.commit (h : WritingOk s) : WritingOk (s.step .commit) := by
  have hdelta : ∀ e ∈ entriesOf s.registry.codes.delta, Entry s.registry.codes e.1 e.2 := by
    intro e he
    obtain ⟨_, hd, rfl⟩ := mem_map.1 he
    exact h.codes.delta _ _ (AList.mem_lookup_iff.2 hd)
  obtain ⟨t, _, hok, hreaders, hsub, hmem⟩ := h.readers.publish h.codes.oneToOne hdelta
  have hall : ∀ code text, Entry s.registry.codes code text → t.Has code text := by
    intro code text hc
    rcases h.cover code text hc with hc | hc
    · exact hsub _ _ hc
    · exact hmem (code, text) (mem_map.2 ⟨⟨code, text⟩, AList.mem_lookup_iff.1 hc, rfl⟩)
  simp only [Writing.step, takeDelta, hok]
  refine ⟨⟨h.codes.agree, h.codes.proper, h.codes.below, fun _ _ hc => nomatch hc⟩, hreaders,
    fun code text hc => .inl (hall code text hc), h.mode, fun _ he => (nomatch he), fun e he => ?_⟩
  rcases mem_append.1 he with he | he
  · exact (h.pending e he).mono fun _ => hall _ _
  · exact (h.committed e he).mono fun _ => hsub _ _

lemma WritingOk.step (h : WritingOk s) (act : WriteAct) (hroom : s.HasRoom act) :
    WritingOk (s.step act) := by
  cases act with
  | begin => exact h.begin
  | sidForIri => exact h.sidForIri hroom
  | commit => exact h.commit

/-- A ledger at rest, with a writer over its tables. -/
structure Writing.Start (s : Writing) : Prop where
  sound : Sound s.snapshot.tables
  tables : s.store.tables = s.snapshot.tables
  mode : s.store.nsSplitMode = s.snapshot.nsSplitMode
  registry : NamespaceRegistry.fromDb s.snapshot = some s.registry
  pending : s.pending = []
  committed : s.committed = []

lemma Writing.Start.ok (h : s.Start) : WritingOk s := by
  have hreg : ⟨layered s.snapshot.tables, s.snapshot.nsSplitMode⟩ = s.registry :=
    some.inj ((fromDb_of_sound _ h.sound).symm.trans h.registry)
  have hreaders := h.sound.readers h.tables h.mode
  refine ⟨?_, ?_, ?_, ?_, ?_, ?_⟩
  · rw [← hreg]; exact h.sound.codes
  · rw [← hreg]; exact hreaders
  · rw [← hreg]
    exact fun code text hc => .inl ((congrFun₂ (entry_layered s.snapshot.tables) code text).mp hc)
  · rw [← hreg]
  · rw [h.pending]; exact fun _ he => nomatch he
  · rw [h.committed]; exact fun _ he => nomatch he

end Fluree.Transact
