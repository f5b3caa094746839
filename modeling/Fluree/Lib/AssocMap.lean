import Mathlib.Data.List.Basic
import Mathlib.Data.List.Nodup

/-!
# Maps whose keys are told apart by a comparison

The keys of an ordered map are equal when their comparison says so. `get?` and `insert` are
the two operations; the results assume that comparing as equal is an equivalence on the keys
that are in use.
-/

namespace Fluree.Lib.OrdMap

variable {κ ν : Type*} (cmp : κ → κ → Ordering)

def get? (m : List (κ × ν)) (k : κ) : Option ν :=
  (m.find? (fun e => cmp k e.1 == Ordering.eq)).map Prod.snd

/-- Replace the value of an equal key, or add the key. -/
def insert : List (κ × ν) → κ → ν → List (κ × ν)
  | [], k, v => [(k, v)]
  | e :: m, k, v => if cmp k e.1 == Ordering.eq then (k, v) :: m else e :: insert m k v

variable {cmp} {m : List (κ × ν)} {k k' : κ} {v : ν}

lemma get?_cons (e : κ × ν) :
    get? cmp (e :: m) k = if cmp k e.1 == .eq then some e.2 else get? cmp m k := by
  unfold get?
  rw [List.find?_cons]
  split <;> (rename_i h; rw [h]; rfl)

/-- Comparing as equal is an equivalence on the keys in `S`. -/
structure EquivOn (cmp : κ → κ → Ordering) (S : κ → Prop) : Prop where
  refl : ∀ a, S a → cmp a a = Ordering.eq
  symm : ∀ a b, S a → S b → cmp a b = Ordering.eq → cmp b a = Ordering.eq
  trans : ∀ a b c, S a → S b → S c → cmp a b = Ordering.eq → cmp b c = Ordering.eq →
    cmp a c = Ordering.eq

variable {S : κ → Prop}

lemma get?_congr (hS : EquivOn cmp S) (hm : ∀ e ∈ m, S e.1) (hk : S k) (hk' : S k')
    (h : cmp k k' = .eq) : get? cmp m k = get? cmp m k' := by
  induction m with
  | nil => rfl
  | cons e m ih =>
    have he : S e.1 := hm e (by simp)
    rw [get?_cons, get?_cons, ih fun x hx => hm x (by simp [hx])]
    by_cases hke : cmp k e.1 = .eq
    · have hke' := hS.trans k' k e.1 hk' hk he (hS.symm k k' hk hk' h) hke
      simp [hke, hke']
    · have hke' : cmp k' e.1 ≠ .eq := fun h' => hke (hS.trans k k' e.1 hk hk' he h h')
      simp [hke, hke']

/-- **Reading after writing.** -/
lemma get?_insert (hS : EquivOn cmp S) (hm : ∀ e ∈ m, S e.1) (hk : S k)
    (hk' : S k') :
    get? cmp (insert cmp m k v) k' = if cmp k' k = .eq then some v else get? cmp m k' := by
  induction m with
  | nil => simp [insert, get?_cons]
  | cons e m ih =>
    have he : S e.1 := hm e (by simp)
    unfold insert
    by_cases hke : cmp k e.1 = .eq
    · rw [if_pos (by simp [hke]), get?_cons, get?_cons]
      by_cases hk'k : cmp k' k = .eq
      · simp [hk'k]
      have hk'e : cmp k' e.1 ≠ .eq := fun h =>
        hk'k (hS.trans k' e.1 k hk' he hk h (hS.symm k e.1 hk he hke))
      simp [hk'k, hk'e]
    · rw [if_neg (by simp [hke]), get?_cons, get?_cons, ih (fun x hx => hm x (by simp [hx]))]
      by_cases hk'e : cmp k' e.1 = .eq
      · have hk'k : cmp k' k ≠ .eq := fun h =>
          hke (hS.trans k k' e.1 hk hk' he (hS.symm k' k hk' hk h) hk'e)
        simp [hk'e, hk'k]
      · simp [hk'e]

lemma keys_insert : ∀ e ∈ insert cmp m k v, e.1 = k ∨ e ∈ m := by
  induction m with
  | nil => simp [insert]
  | cons x m ih =>
    intro e he
    unfold insert at he
    split at he
    · rcases List.mem_cons.1 he with rfl | he
      · exact .inl rfl
      · exact .inr (by simp [he])
    · rcases List.mem_cons.1 he with rfl | he
      · exact .inr (by simp)
      rcases ih e he with h | h
      · exact .inl h
      · exact .inr (by simp [h])

end Fluree.Lib.OrdMap

/-!
## Maps as association lists

A hash map that is only read through its keys is a list of key and value pairs with
different keys. `upsert` is "insert a default if the key is new, then update".
`get?_foldl_upsert` reads a map built by a fold of updates key by key.
-/

namespace Fluree.Lib.AssocMap

open List Option Prod

variable {κ β α : Type*} [DecidableEq κ]

def get? (m : List (κ × β)) (k : κ) : Option β := (m.find? (fun e => e.1 = k)).map snd

/-- Update the value at `k`, starting from `d` when there is none. -/
def upsert (m : List (κ × β)) (k : κ) (d : β) (f : β → β) : List (κ × β) :=
  match m with
  | [] => [(k, f d)]
  | e :: m => if e.1 = k then (k, f e.2) :: m else e :: upsert m k d f

def insert (m : List (κ × β)) (k : κ) (v : β) : List (κ × β) := upsert m k v (fun _ => v)

@[simp] lemma get?_nil (k : κ) : get? ([] : List (κ × β)) k = none := rfl

lemma get?_cons (e : κ × β) (m : List (κ × β)) (k : κ) :
    get? (e :: m) k = if e.1 = k then some e.2 else get? m k := by
  by_cases h : e.1 = k <;> simp [get?, h]

lemma get?_upsert (m : List (κ × β)) (k k' : κ) (d : β) (f : β → β) :
    get? (upsert m k d f) k' = if k = k' then some (f ((get? m k).getD d)) else get? m k' := by
  induction m with
  | nil => by_cases h : k = k' <;> simp [upsert, get?_cons, h]
  | cons e m ih =>
    by_cases he : e.1 = k
    · subst he
      by_cases h : e.1 = k' <;> simp [upsert, get?_cons, h]
    · by_cases h : k = k'
      · subst h
        simp [upsert, get?_cons, he, ih]
      · by_cases h' : e.1 = k'
        · rw [upsert, if_neg he, get?_cons, if_pos h', if_neg h, get?_cons, if_pos h']
        · simp [upsert, get?_cons, he, h, h', ih]

lemma keys_upsert (m : List (κ × β)) (k : κ) (d : β) (f : β → β) :
    (upsert m k d f).map fst = if k ∈ m.map fst then m.map fst
      else m.map fst ++ [k] := by
  induction m with
  | nil => rfl
  | cons e m ih =>
    by_cases he : e.1 = k
    · subst he; simp [upsert]
    · simp only [upsert, if_neg he, map_cons, ih, mem_cons, Ne.symm he, false_or]
      split <;> simp

variable {m : List (κ × β)}

lemma nodup_upsert (h : (m.map fst).Nodup) (k : κ) (d : β) (f : β → β) :
    ((upsert m k d f).map fst).Nodup := by
  rw [keys_upsert]
  split
  · exact h
  rename_i hk
  rw [nodup_append]
  refine ⟨h, nodup_singleton k, ?_⟩
  intro a ha b hb hab
  rw [mem_singleton.1 hb] at hab
  exact hk (hab ▸ ha)

lemma mem_of_get? (h : get? m k = some v) : (k, v) ∈ m := by
  obtain ⟨e, he, rfl⟩ := map_eq_some_iff.1 h
  have hk : e.1 = k := by simpa using List.find?_some he
  have := mem_of_find?_eq_some he
  rwa [← hk]

lemma get?_of_mem (hn : (m.map fst).Nodup) (h : (k, v) ∈ m) : get? m k = some v := by
  induction m with
  | nil => simp at h
  | cons e m ih =>
    rw [map_cons, nodup_cons] at hn
    rw [get?_cons]
    rcases mem_cons.1 h with rfl | h
    · simp
    · have hne : e.1 ≠ k := fun he => hn.1 (he ▸ mem_map.2 ⟨(k, v), h, rfl⟩)
      rw [if_neg hne, ih hn.2 h]

lemma get?_foldl_upsert (l : List α) (key : α → κ) (d : κ → β) (f : α → β → β)
    (m : List (κ × β)) (k : κ) :
    get? (l.foldl (fun m a => upsert m (key a) (d (key a)) (f a)) m) k =
      match l.filter (fun a => key a = k) with
      | [] => get? m k
      | as => some (as.foldl (fun b a => f a b) ((get? m k).getD (d k))) := by
  induction l generalizing m with
  | nil => rfl
  | cons a l ih =>
    rw [foldl_cons, ih]
    by_cases h : key a = k
    · subst h
      rw [filter_cons_of_pos (by simp)]
      cases hl : l.filter (fun b => key b = key a) with
      | nil => simp [get?_upsert]
      | cons => simp [get?_upsert]
    · rw [filter_cons_of_neg (by simpa using h)]
      cases hl : l.filter (fun b => key b = k) with
      | nil => simp [get?_upsert, h]
      | cons => simp [get?_upsert, h]

lemma nodup_foldl_upsert (l : List α) (key : α → κ) (d : κ → β) (f : α → β → β)
    (h : (m.map fst).Nodup) :
    ((l.foldl (fun m a => upsert m (key a) (d (key a)) (f a)) m).map fst).Nodup := by
  induction l generalizing m with
  | nil => exact h
  | cons a l ih => exact ih (nodup_upsert h _ _ _)

lemma insert_eq_upsert (m : List (κ × β)) (k : κ) (d v : β) :
    insert m k v = upsert m k d (fun _ => v) := by
  induction m with
  | nil => rfl
  | cons e m ih =>
    unfold insert upsert
    split
    · rfl
    · exact congrArg _ ih

lemma get?_foldl_insert [Inhabited β] (l : List α) (key : α → κ) (v : α → β) (k : κ) :
    get? (l.foldl (fun m a => insert m (key a) (v a)) []) k =
      (l.filter (fun a => key a = k)).getLast?.map v := by
  have hfold : ∀ (as : List α) (a : α) (b : β),
      (a :: as).foldl (fun _ a => v a) b = v ((a :: as).getLast (by simp)) := by
    intro as
    induction as with
    | nil => intro a b; rfl
    | cons _ _ ih => intro a b; rw [foldl_cons, ih, getLast_cons_cons]
  simp only [fun m a => insert_eq_upsert (β := β) m (key a) default (v a)]
  rw [get?_foldl_upsert l key (fun _ => default) (fun a _ => v a) [] k]
  cases l.filter (fun a => key a = k) with
  | nil => rfl
  | cons =>
    simp only [hfold]
    rw [List.getLast?_eq_some_getLast (by simp), map_some]

lemma filter_filterMap (hn : (m.map fst).Nodup) (f : κ × β → Option α) {keyOf : α → κ}
    (hf : ∀ e ∈ m, ∀ a, f e = some a → keyOf a = e.1) (k : κ) :
    (m.filterMap f).filter (fun a => keyOf a = k) = ((get? m k).bind (fun v => f (k, v))).toList := by
  induction m with
  | nil => rfl
  | cons e m ih =>
    rw [map_cons, nodup_cons] at hn
    rw [filterMap_cons, get?_cons]
    by_cases he : e.1 = k
    · subst he
      have hrest : (m.filterMap f).filter (fun a => keyOf a = e.1) = [] := by
        rw [filter_eq_nil_iff]
        intro a ha
        obtain ⟨e', he', hfe⟩ := mem_filterMap.1 ha
        rw [hf e' (by simp [he']) a hfe]
        have : e'.1 ≠ e.1 := fun h => hn.1 (h ▸ mem_map.2 ⟨e', he', rfl⟩)
        simpa using this
      rw [if_pos rfl, bind_some]
      cases hfe : f e with
      | none => simpa using hrest
      | some a => rw [filter_cons_of_pos (by simpa using hf e (by simp) a hfe), hrest]; rfl
    · rw [if_neg he, ← ih hn.2 (fun e' he' => hf e' (by simp [he']))]
      cases hfe : f e with
      | none => rfl
      | some a => exact filter_cons_of_neg (by rw [hf e (by simp) a hfe]; simpa using he)

end Fluree.Lib.AssocMap
