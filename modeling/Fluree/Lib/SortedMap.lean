import Mathlib.Data.List.AList
import Mathlib.Algebra.BigOperators.Group.List.Basic
import Mathlib.Data.Nat.Cast.Basic
import Mathlib.Data.Prod.Lex
import Mathlib.Data.String.Basic

/-!
# Keyed maps

A hash map is Mathlib's association list with pairwise different keys. Reads after writes are
stated once for every key (`lookup_insert_ite`, `lookup_erase_ite`), `retain` keeps the entries
that pass a test, and `count` is the number of entries that do:

* `count_insert`, `count_erase`: how one write moves the count;
* `count_pos_iff`: a positive count is an entry that can be looked up.
-/

namespace Fluree.Lib

section

open List AList

/-- A map from keys to values, each key at most once. -/
abbrev KeyedMap (κ β : Type) := AList (fun _ : κ => β)

namespace KeyedMap

variable {κ β : Type} [DecidableEq κ]

lemma lookup_insert_ite (m : KeyedMap κ β) (a a' : κ) (b : β) :
    (m.insert a b).lookup a' = if a' = a then some b else m.lookup a' := by
  by_cases h : a' = a
  · subst h; rw [if_pos rfl, lookup_insert]
  · rw [if_neg h, lookup_insert_ne h]

lemma lookup_erase_ite (m : KeyedMap κ β) (a a' : κ) :
    (m.erase a).lookup a' = if a' = a then none else m.lookup a' := by
  by_cases h : a' = a
  · subst h; rw [if_pos rfl, lookup_erase]
  · rw [if_neg h, lookup_erase_ne h]

variable {a : κ} {m : KeyedMap κ β} {b : β}

lemma lookup_insert_some (h : (m.insert a b).lookup k = some v) :
    k = a ∧ b = v ∨ k ≠ a ∧ m.lookup k = some v := by
  rw [lookup_insert_ite] at h
  split at h
  · exact .inl ⟨‹_›, Option.some.inj h⟩
  · exact .inr ⟨‹_›, h⟩

lemma lookup_erase_some (h : (m.erase a).lookup k = some v) : k ≠ a ∧ m.lookup k = some v := by
  rw [lookup_erase_ite] at h
  split at h
  · cases h
  · exact ⟨‹_›, h⟩

lemma exists_lookup_insert (h : ∃ v, m.lookup k = some v) :
    ∃ v, (m.insert a b).lookup k = some v := by
  rw [lookup_insert_ite]
  split
  · exact ⟨b, rfl⟩
  · exact h

lemma lookup_eq_some_iff : m.lookup a = some b ↔ (⟨a, b⟩ : Sigma fun _ : κ => β) ∈ m.entries :=
  mem_lookup_iff

lemma lookup_empty (a : κ) : (∅ : KeyedMap κ β).lookup a = none := AList.lookup_empty a

def ofList {α : Type} (k : α → κ) (v : α → β) (l : List α) (m : KeyedMap κ β) : KeyedMap κ β :=
  l.foldl (fun m e => m.insert (k e) (v e)) m

/-- **Where an entry of a map made of a list comes from.** -/
lemma mem_of_lookup_ofList {α : Type} {k : α → κ} {v : α → β} {l : List α}
    (h : (ofList k v l m).lookup a = some b) :
    m.lookup a = some b ∨ ∃ e ∈ l, k e = a ∧ v e = b := by
  induction l generalizing m with
  | nil => exact .inl h
  | cons e l ih =>
    rcases ih h with h | ⟨d, hd, hk, hv⟩
    · rcases lookup_insert_some h with ⟨hk, hv⟩ | ⟨-, h⟩
      · exact .inr ⟨e, mem_cons_self, hk.symm, hv⟩
      · exact .inl h
    · exact .inr ⟨d, mem_cons_of_mem _ hd, hk, hv⟩

lemma lookup_ofList_of_not_mem {α : Type} {k : α → κ} {v : α → β} {l : List α} (m : KeyedMap κ β)
    (h : ∀ e ∈ l, k e ≠ a) : (ofList k v l m).lookup a = m.lookup a := by
  induction l generalizing m with
  | nil => rfl
  | cons c l ih =>
    have hl := ih (m.insert (k c) (v c)) fun e he => h e (mem_cons_of_mem _ he)
    exact hl.trans (lookup_insert_ne (h c mem_cons_self).symm)

lemma exists_lookup_ofList {α : Type} {k : α → κ} {v : α → β} {l : List α} (m : KeyedMap κ β)
    (h : ∃ e ∈ l, k e = a) : ∃ e ∈ l, k e = a ∧ (ofList k v l m).lookup a = some (v e) := by
  induction l generalizing m with
  | nil => obtain ⟨e, he, -⟩ := h; exact absurd he not_mem_nil
  | cons c l ih =>
    by_cases hl : ∃ e ∈ l, k e = a
    · obtain ⟨e, he, hk, hlookup⟩ := ih (m.insert (k c) (v c)) hl
      exact ⟨e, mem_cons_of_mem _ he, hk, hlookup⟩
    · have hnot : ∀ e ∈ l, k e ≠ a := fun e he hk => hl ⟨e, he, hk⟩
      obtain ⟨e, he, hk⟩ := h
      rcases mem_cons.1 he with rfl | he
      · refine ⟨e, mem_cons_self, hk, ?_⟩
        have hhead := lookup_ofList_of_not_mem (m.insert (k e) (v e)) (v := v) hnot
        rw [lookup_insert_ite, if_pos hk.symm] at hhead
        exact hhead
      · exact absurd hk (hnot e he)

/-- The values of a list pushed under their keys. -/
def group (l : List (κ × β)) (m : KeyedMap κ (List β)) : KeyedMap κ (List β) :=
  l.foldl (fun m e => m.insert e.1 ((m.lookup e.1).getD [] ++ [e.2])) m

lemma mem_group {l : List (κ × β)} {m : KeyedMap κ (List β)} :
    b ∈ ((group l m).lookup a).getD [] ↔ b ∈ (m.lookup a).getD [] ∨ (a, b) ∈ l := by
  induction l generalizing m with
  | nil => simp [group]
  | cons e l ih =>
    obtain ⟨k, v⟩ := e
    rw [group, foldl_cons, ← group, ih, lookup_insert_ite]
    split
    · rename_i h
      obtain rfl : a = k := h
      simp [or_assoc]
    · rename_i h
      simp [show a ≠ k from h]

lemma mem_getD_lookup {m : KeyedMap κ (List β)} :
    b ∈ (m.lookup a).getD [] ↔ ∃ e ∈ m.entries, e.1 = a ∧ b ∈ e.2 := by
  constructor
  · intro h
    cases hl : m.lookup a with
    | none => simp [hl] at h
    | some l => exact ⟨_, lookup_eq_some_iff.1 hl, rfl, by simpa [hl] using h⟩
  · rintro ⟨e, he, rfl, hb⟩
    rwa [lookup_eq_some_iff.2 he]

/-- Keep the entries that pass `p`. -/
def retain (p : κ → β → Bool) (m : KeyedMap κ β) : KeyedMap κ β where
  entries := m.entries.filter (fun e => p e.1 e.2)
  nodupKeys := m.nodupKeys.sublist filter_sublist

variable (p : κ → β → Bool) (m : KeyedMap κ β)

lemma lookup_retain (a : κ) : (retain p m).lookup a = (m.lookup a).filter (p a) := by
  ext b
  rw [lookup_eq_some_iff, Option.filter_eq_some_iff, lookup_eq_some_iff]
  simp [retain]

def count (p : κ → β → Bool) (m : KeyedMap κ β) : ℕ := m.entries.countP (fun e => p e.1 e.2)

lemma count_erase (a : κ) :
    count p (m.erase a) + (if (m.lookup a).any (p a) then 1 else 0) = count p m := by
  cases h : m.lookup a with
  | none =>
    have hkeys : a ∉ m.entries.keys := lookup_eq_none.1 h
    have herase : (m.erase a).entries = m.entries := kerase_of_notMem_keys hkeys
    simp [count, herase]
  | some b =>
    have hmem : a ∈ m.entries.keys := mem_keys_of_mem (lookup_eq_some_iff.1 h)
    obtain ⟨b', l₁, l₂, -, hentries, herase⟩ := exists_of_kerase hmem
    have hb : m.lookup a = some b' := lookup_eq_some_iff.2 (by simp [hentries])
    obtain rfl : b = b' := by rw [h] at hb; exact Option.some.inj hb
    have herase' : (m.erase a).entries = l₁ ++ l₂ := herase
    simp only [count, hentries, herase', countP_append, countP_cons, Option.any_some]
    omega

lemma count_insert (a : κ) (b : β) :
    count p (m.insert a b) + (if (m.lookup a).any (p a) then 1 else 0) =
      count p m + (if p a b then 1 else 0) := by
  have h := count_erase p m a
  have hinsert : count p (m.insert a b) = count p (m.erase a) + (if p a b then 1 else 0) := by
    simp only [count, entries_insert, countP_cons]
    rfl
  omega

lemma count_pos_iff {p : κ → β → Bool} {m : KeyedMap κ β} :
    0 < count p m ↔ ∃ a b, m.lookup a = some b ∧ p a b = true := by
  rw [count, countP_pos_iff]
  constructor
  · rintro ⟨⟨a, b⟩, hmem, hp⟩
    exact ⟨a, b, lookup_eq_some_iff.2 hmem, hp⟩
  · rintro ⟨a, b, hab, hp⟩
    exact ⟨⟨a, b⟩, lookup_eq_some_iff.1 hab, hp⟩

end KeyedMap

end

/-!
## Ordered maps

An ordered map is the list of its entries in the order of their keys, each key once. Reads after
writes are stated once for every key (`get?_insert`, `get?_erase`); the entries are what can be
read (`get?_eq_some_iff`), and a total over them follows the writes (`sum_erase`,
`sum_insert_of_none`). Writes at either end are list operations on the entries
(`entries_foldl_insert`).
-/

open List Option Prod

/-- The entries of an ordered map, strictly ascending in their keys. -/
structure SortedMap (κ β : Type*) [LinearOrder κ] where
  entries : List (κ × β)
  sorted : entries.Pairwise (fun a b => a.1 < b.1)

namespace SortedMap

variable {κ β : Type*} [LinearOrder κ]

def empty : SortedMap κ β := ⟨[], List.Pairwise.nil⟩

def get? (m : SortedMap κ β) (k : κ) : Option β := (m.entries.find? (fun e => e.1 = k)).map snd

/-- Put an entry in its place, over an entry with the same key. -/
def insertEntry (k : κ) (b : β) : List (κ × β) → List (κ × β)
  | [] => [(k, b)]
  | e :: rest =>
    if k < e.1 then (k, b) :: e :: rest
    else if k = e.1 then (k, b) :: rest
    else e :: insertEntry k b rest

variable {k : κ} {b : β} {l : List (κ × β)} {m : SortedMap κ β}

lemma mem_insertEntry (h : e ∈ insertEntry k b l) : e = (k, b) ∨ e ∈ l := by
  induction l with
  | nil => exact .inl (mem_singleton.1 h)
  | cons x l ih =>
    unfold insertEntry at h
    split at h
    · exact mem_cons.1 h
    split at h
    · exact (mem_cons.1 h).imp_right (mem_cons_of_mem _)
    rcases mem_cons.1 h with rfl | h
    · exact .inr mem_cons_self
    · exact (ih h).imp_right (mem_cons_of_mem _)

lemma sorted_insertEntry (h : l.Pairwise (fun a b => a.1 < b.1)) :
    (insertEntry k b l).Pairwise (fun a b => a.1 < b.1) := by
  induction l with
  | nil => exact pairwise_singleton _ _
  | cons x l ih =>
    obtain ⟨hx, hl⟩ := pairwise_cons.1 h
    unfold insertEntry
    split
    · rename_i hk
      refine pairwise_cons.2 ⟨fun e he => ?_, h⟩
      rcases mem_cons.1 he with rfl | he
      · exact hk
      · exact hk.trans (hx e he)
    · split
      · rename_i hk
        exact pairwise_cons.2 ⟨fun e he => by rw [hk]; exact hx e he, hl⟩
      · rename_i hlt hne
        refine pairwise_cons.2 ⟨fun e he => ?_, ih hl⟩
        rcases mem_insertEntry he with rfl | he
        · exact lt_of_le_of_ne (not_lt.1 hlt) (Ne.symm hne)
        · exact hx e he

def insert (m : SortedMap κ β) (k : κ) (b : β) : SortedMap κ β :=
  ⟨insertEntry k b m.entries, sorted_insertEntry m.sorted⟩

def erase (m : SortedMap κ β) (k : κ) : SortedMap κ β :=
  ⟨m.entries.filter (fun e => e.1 ≠ k), m.sorted.sublist filter_sublist⟩

@[simp] lemma get?_empty (k : κ) : (empty : SortedMap κ β).get? k = none := rfl

/-- **Reading after writing.** -/
lemma get?_insert (m : SortedMap κ β) (k k' : κ) (b : β) :
    (m.insert k b).get? k' = if k' = k then some b else m.get? k' := by
  suffices h : ∀ l : List (κ × β), ((insertEntry k b l).find? (fun e => e.1 = k')).map snd =
      if k' = k then some b else (l.find? (fun e => e.1 = k')).map snd from h m.entries
  intro l
  induction l with
  | nil => by_cases hk : k' = k <;> simp [insertEntry, hk, eq_comm]
  | cons x l ih =>
    unfold insertEntry
    by_cases hk : k' = k
    · subst hk
      rw [if_pos rfl] at ih ⊢
      split
      · simp
      split
      · simp
      rename_i hne
      rw [find?_cons_of_neg (by simpa using Ne.symm hne)]
      exact ih
    · rw [if_neg hk] at ih ⊢
      split
      · rw [find?_cons_of_neg (by simpa using Ne.symm hk)]
      split
      · rename_i hkx
        rw [find?_cons_of_neg (by simpa using Ne.symm hk),
          find?_cons_of_neg (by simpa [← hkx] using Ne.symm hk)]
      · rw [find?_cons, find?_cons]
        split
        · rfl
        · exact ih

lemma get?_erase (m : SortedMap κ β) (k k' : κ) :
    (m.erase k).get? k' = if k' = k then none else m.get? k' := by
  unfold get? erase
  rw [find?_filter]
  by_cases hk : k' = k
  · subst hk
    rw [if_pos rfl, find?_eq_none.2 fun e _ => by simp]
    rfl
  · rw [if_neg hk]
    refine congrArg (Option.map snd) (congrArg (fun p => find? p m.entries) (funext fun e => ?_))
    by_cases he : e.1 = k'
    · simp [he, hk]
    · simp [he]

/-- **What is there is what can be read.** -/
lemma get?_eq_some_iff : m.get? k = some b ↔ (k, b) ∈ m.entries := by
  obtain ⟨l, hl⟩ := m
  unfold get?
  induction l with
  | nil => simp
  | cons x l ih =>
    obtain ⟨hx, hl'⟩ := pairwise_cons.1 hl
    by_cases hk : x.1 = k
    · rw [find?_cons_of_pos (by simpa using hk), map_some, mem_cons]
      constructor
      · intro h
        exact .inl (Prod.ext hk.symm (Option.some.inj h).symm)
      · rintro (h | h)
        · rw [← h]
        · exact absurd (hx _ h) (by rw [hk]; exact lt_irrefl k)
    · rw [find?_cons_of_neg (by simpa using hk), ih hl', mem_cons]
      constructor
      · exact .inr
      · rintro (h | h)
        · exact absurd (congrArg fst h).symm hk
        · exact h

/-- **A map is what can be read from it.** -/
lemma entries_ext {m' : SortedMap κ β} (h : ∀ k, m.get? k = m'.get? k) :
    m.entries = m'.entries := by
  have hmem : ∀ e, e ∈ m.entries ↔ e ∈ m'.entries := fun e => by
    rw [← get?_eq_some_iff, ← get?_eq_some_iff, h]
  have hnodup : ∀ m : SortedMap κ β, m.entries.Nodup := fun m =>
    m.sorted.imp fun hab heq => absurd (congrArg fst heq) hab.ne
  refine List.Perm.eq_of_pairwise ?_ m.sorted m'.sorted
    ((perm_ext_iff_of_nodup (hnodup m) (hnodup m')).2 hmem)
  intro a b _ _ hab hba
  exact absurd (hab.trans hba) (lt_irrefl _)

lemma sum_filter_add_find? (hl : l.Pairwise (fun a b => a.1 < b.1)) (k : κ) (g : κ × β → ℕ) :
    ((l.filter (fun e => e.1 ≠ k)).map g).sum + ((l.find? (fun e => e.1 = k)).map g).getD 0 =
      (l.map g).sum := by
  induction l with
  | nil => rfl
  | cons x l ih =>
    obtain ⟨hx, hl'⟩ := pairwise_cons.1 hl
    by_cases hk : x.1 = k
    · have hrest : l.filter (fun e => e.1 ≠ k) = l := by
        refine filter_eq_self.2 fun e he => ?_
        have := hx e he
        rw [hk] at this
        simpa using this.ne'
      rw [find?_cons_of_pos (by simpa using hk), filter_cons_of_neg (by simpa using hk),
        hrest]
      simp only [map_some, getD_some, map_cons, sum_cons]
      omega
    · rw [find?_cons_of_neg (by simpa using hk), filter_cons_of_pos (by simpa using hk)]
      have := ih hl'
      simp only [map_cons, sum_cons]
      omega

/-- **A total over the entries after a removal.** -/
lemma sum_erase (m : SortedMap κ β) (k : κ) (g : κ × β → ℕ) :
    ((m.erase k).entries.map g).sum + ((m.get? k).map fun b => g (k, b)).getD 0 =
      (m.entries.map g).sum := by
  have h := sum_filter_add_find? m.sorted k g
  have hget : (m.get? k).map (fun b => g (k, b)) = (m.entries.find? (fun e => e.1 = k)).map g := by
    unfold get?
    cases hf : m.entries.find? (fun e => e.1 = k) with
    | none => rfl
    | some e =>
      have he : e.1 = k := by simpa using find?_some hf
      rw [← he]
      rfl
  rw [hget]
  exact h

/-- **And after a new key is written.** -/
lemma sum_insert_of_none (h : m.get? k = none) (b : β) (g : κ × β → ℕ) :
    ((m.insert k b).entries.map g).sum = (m.entries.map g).sum + g (k, b) := by
  have hne : ∀ e ∈ m.entries, e.1 ≠ k := by
    rintro ⟨_, _⟩ he rfl
    rw [get?_eq_some_iff.2 he] at h
    cases h
  change ((insertEntry k b m.entries).map g).sum = (m.entries.map g).sum + g (k, b)
  generalize m.entries = l at hne
  induction l with
  | nil => simp [insertEntry]
  | cons x l ih =>
    have hx := hne x mem_cons_self
    have := ih fun e he => hne e (mem_cons_of_mem _ he)
    unfold insertEntry
    rw [if_neg (Ne.symm hx)]
    split <;> simp only [map_cons, sum_cons] <;> omega

lemma length_erase_add (m : SortedMap κ β) (k : κ) :
    (m.erase k).entries.length + (m.get? k).isSome.toNat = m.entries.length := by
  have h := sum_erase m k fun _ => 1
  cases hget : m.get? k <;> simpa [hget] using h

lemma length_insert_of_none (h : m.get? k = none) (b : β) :
    (m.insert k b).entries.length = m.entries.length + 1 := by
  have h := sum_insert_of_none h b fun _ => 1
  simpa using h

/-! ## At the ends -/

lemma entries_insert_of_lt (h : ∀ e ∈ m.entries, e.1 < k) (b : β) :
    (m.insert k b).entries = m.entries ++ [(k, b)] := by
  change insertEntry k b m.entries = m.entries ++ [(k, b)]
  generalize m.entries = l at h
  induction l with
  | nil => rfl
  | cons x l ih =>
    have hx := h x mem_cons_self
    unfold insertEntry
    rw [if_neg hx.not_gt, if_neg hx.ne', ih fun e he => h e (mem_cons_of_mem _ he), cons_append]

lemma lt_of_entries_eq_append (h : m.entries = l ++ [(k, b)]) : ∀ e ∈ l, e.1 < k := by
  intro e he
  have hsorted := m.sorted
  rw [h, pairwise_append] at hsorted
  exact hsorted.2.2 e he (k, b) mem_cons_self

lemma get?_last (h : m.entries = l ++ [(k, b)]) : m.get? k = some b :=
  get?_eq_some_iff.2 (by simp [h])

lemma entries_erase_last (h : m.entries = l ++ [(k, b)]) : (m.erase k).entries = l := by
  have hlt := lt_of_entries_eq_append h
  change m.entries.filter (fun e => e.1 ≠ k) = l
  rw [h, filter_append, filter_eq_self.2 fun e he => by simpa using (hlt e he).ne]
  simp

lemma entries_erase_head (h : m.entries = (k, b) :: l) : (m.erase k).entries = l := by
  have hsorted := m.sorted
  rw [h, pairwise_cons] at hsorted
  change m.entries.filter (fun e => e.1 ≠ k) = l
  rw [h, filter_cons_of_neg (by simp)]
  exact filter_eq_self.2 fun e he => by simpa using (hsorted.1 e he).ne'

lemma entries_insert_last (h : m.entries = l ++ [(k, b)]) (b' : β) :
    (m.insert k b').entries = l ++ [(k, b')] := by
  have hlt := lt_of_entries_eq_append h
  change insertEntry k b' m.entries = l ++ [(k, b')]
  rw [h]
  clear h
  induction l with
  | nil => simp [insertEntry]
  | cons x l ih =>
    have hx := hlt x mem_cons_self
    rw [cons_append, insertEntry, if_neg hx.not_gt, if_neg hx.ne',
      ih fun e he => hlt e (mem_cons_of_mem _ he), cons_append]

/-- **Entries that are inserted in order behind all others are appended.** -/
lemma entries_foldl_insert (h : (m.entries ++ l).Pairwise (fun a b => a.1 < b.1)) :
    (l.foldl (fun m e => m.insert e.1 e.2) m).entries = m.entries ++ l := by
  induction l generalizing m with
  | nil => exact (append_nil _).symm
  | cons x l ih =>
    have hins : (m.insert x.1 x.2).entries = m.entries ++ [x] :=
      entries_insert_of_lt (fun e he => (pairwise_append.1 h).2.2 e he x mem_cons_self) x.2
    rw [foldl_cons, ih (by rw [hins, append_assoc]; exact h), hins, append_assoc]
    rfl

end SortedMap

end Fluree.Lib
