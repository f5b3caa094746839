import Fluree.Ledger.GraphPaths

/-!
# What a graph registry holds

A registry is a numbering of IRIs, with the system graphs first (`Numbers`). Each operation is
the same operation on the numbering:

* `Numbers.applyDelta`: **a batch is numbered in ascending order**, while there is room;
* `Numbers.room_of_applyDelta`: and a batch for which there is no room panics.
-/

namespace Fluree.Ledger

open Lib GraphRegistry List KeyedMap Option Nat

/-- The largest number of named graphs. Without overflow checks the last number is given out too. -/
def maxGraphs (checks : Bool) : ℕ := if checks then 65534 else 65535

variable (checks : Bool)

lemma maxGraphs_le : maxGraphs checks ≤ 65535 := by cases checks <;> decide

lemma le_maxGraphs : 65534 ≤ maxGraphs checks := by cases checks <;> decide

lemma addU16_of_lt {a b} (h : a + b < 2 ^ 16) : addU16 checks a b = .ok (a + b) := if_pos h

lemma addU16_of_room {checks n} (h : n < maxGraphs checks) :
    addU16 checks (n + 1) 1 = .ok ((n + 2) % 2 ^ 16) := by
  unfold addU16
  split
  · rename_i hlt
    rw [mod_eq_of_lt hlt]
  · rename_i hlt
    cases checks with
    | true =>
      have h' : n < 65534 := h
      omega
    | false => rfl

variable (ledgerId : String)

def systemGraphs : List String := [txnMetaGraphIri ledgerId, configGraphIri ledgerId]

lemma txnMeta_ne_config : txnMetaGraphIri ledgerId ≠ configGraphIri ledgerId := by
  intro h
  have hlen := congrArg String.length h
  simp [txnMetaGraphIri, configGraphIri, String.length_append] at hlen
  exact absurd hlen (by decide)

lemma txnMetaGraphIri_inj {a b : String} (h : txnMetaGraphIri a = txnMetaGraphIri b) : a = b := by
  have hlists := congrArg String.toList h
  simpa [txnMetaGraphIri, String.toList_append, String.toList_inj, toString] using hlists

lemma nodup_systemGraphs : (systemGraphs ledgerId).Nodup := by
  simp [systemGraphs, txnMeta_ne_config]

lemma systemGraphs_named : "" ∉ systemGraphs ledgerId := by
  intro h
  rcases mem_pair.1 h with heq | heq
  all_goals
    have hlen := congrArg String.length heq
    simp only [txnMetaGraphIri, configGraphIri, String.length_append] at hlen
    have hpos : 0 < (toString "urn:fluree:").length := by decide
    have hzero : ("" : String).length = 0 := rfl
    omega

/-- A registry that holds the graphs of a list under their positions, counted from 1. -/
structure Numbers (checks : Bool) (r : GraphRegistry) (l : List String) : Prop where
  nodup : l.Nodup
  two_le : 2 ≤ l.length
  room : l.length ≤ maxGraphs checks
  slots : r.idToIri = none :: l.map some
  ids : ∀ iri, r.graphIdForIri iri = (l.idxOf? iri).map (· + 1)
  next : l.length < 65535 → r.nextId = l.length + 1

namespace Numbers

variable {checks : Bool} {r r' : GraphRegistry} {l l' : List String}

section

variable (h : Numbers checks r l)
include h

lemma iriForGraphId_succ (i : ℕ) : r.iriForGraphId (i + 1) = l[i]? := by
  rw [iriForGraphId, h.slots, List.getElem?_cons_succ, List.getElem?_map]
  cases l[i]? <;> rfl

lemma iriForGraphId_zero : r.iriForGraphId 0 = none := by
  rw [iriForGraphId, h.slots]
  rfl

lemma isSome_iff {iri} : (r.graphIdForIri iri).isSome = true ↔ iri ∈ l := by
  rw [h.ids, isSome_map, isSome_idxOf?]

lemma graphId_pos {iri id}
    (hid : r.graphIdForIri iri = some id) : ∃ i, id = i + 1 ∧ l[i]? = some iri := by
  rw [h.ids] at hid
  obtain ⟨i, hi, rfl⟩ := map_eq_some_iff.1 hid
  exact ⟨i, rfl, getElem?_of_idxOf? hi⟩

end

end Numbers

/-- Two registries that give the same answers. -/
structure SameIds (r r' : GraphRegistry) : Prop where
  ids : ∀ iri, r.graphIdForIri iri = r'.graphIdForIri iri
  iris : ∀ id, r.iriForGraphId id = r'.iriForGraphId id

lemma Numbers.sameIds {checks r r' l}
    (h : Numbers checks r l) (h' : Numbers checks r' l) : SameIds r r' where
  ids iri := by rw [h.ids, h'.ids]
  iris id := by
    cases id with
    | zero => rw [h.iriForGraphId_zero, h'.iriForGraphId_zero]
    | succ => rw [h.iriForGraphId_succ, h'.iriForGraphId_succ]

lemma Numbers.eq_of_sameIds {checks r r' l l'}
    (h : Numbers checks r l) (h' : Numbers checks r' l') (hs : SameIds r r') : l = l' := by
  refine ext_getElem? fun i => ?_
  rw [← h.iriForGraphId_succ, ← h'.iriForGraphId_succ]
  exact hs.iris (i + 1)

lemma numbers_newForLedger :
    Numbers checks (newForLedger ledgerId) (systemGraphs ledgerId) where
  nodup := nodup_systemGraphs ledgerId
  two_le := le_refl 2
  room := le_trans (by decide : 2 ≤ 65534) (le_maxGraphs checks)
  slots := rfl
  ids iri := by
    rw [graphIdForIri, newForLedger, lookup_insert_ite, lookup_insert_ite]
    have hne := txnMeta_ne_config ledgerId
    by_cases hc : iri = configGraphIri ledgerId
    · subst hc
      simp [systemGraphs, List.idxOf?_cons, hne, CONFIG_GRAPH_ID]
    · by_cases ht : iri = txnMetaGraphIri ledgerId
      · subst ht
        simp [systemGraphs, List.idxOf?_cons, hne, TXN_META_GRAPH_ID]
      · rw [if_neg hc, if_neg ht, lookup_empty]
        have : iri ∉ systemGraphs ledgerId := by simp [systemGraphs, hc, ht]
        rw [List.idxOf?_eq_none_iff.2 this]
        rfl
  next _ := rfl

/-! ## Registration -/

lemma place_length (slots : List (Option String)) (iri : String) :
    place slots slots.length iri = slots ++ [some iri] := by
  rw [place, Nat.add_sub_cancel_left]
  simp

namespace Numbers

variable {checks : Bool} {r r' : GraphRegistry} {l : List String}

section

variable (h : Numbers checks r l)
include h

lemma length_slots : r.idToIri.length = l.length + 1 := by rw [h.slots, length_cons, length_map]

lemma append {x} (hx : x ∉ l) (hroom : l.length < maxGraphs checks) {next}
    (hnext : l.length + 1 < 65535 → next = l.length + 2) :
    Numbers checks
      { iriToId := r.iriToId.insert x (l.length + 1)
        idToIri := place r.idToIri (l.length + 1) x
        nextId := next } (l ++ [x]) where
  nodup := nodup_append'.2 ⟨h.nodup, nodup_singleton x, by simpa using hx⟩
  two_le := by
    rw [length_append]
    exact le_trans h.two_le (le_add_right _ _)
  room := by
    rw [length_append]
    exact hroom
  slots := by
    have hplace : place r.idToIri (l.length + 1) x = r.idToIri ++ [some x] := by
      rw [← h.length_slots]
      exact place_length _ _
    rw [hplace, h.slots, map_append]
    rfl
  ids iri := by
    rw [graphIdForIri, lookup_insert_ite, idxOf?_append_singleton hx]
    split
    · rfl
    · exact h.ids iri
  next hlt := by
    rw [length_append, length_singleton] at hlt ⊢
    exact hnext hlt

/-- **While there is room, a new graph gets the next number.** -/
lemma assign {x} (hx : x ∉ l) (hroom : l.length < maxGraphs checks) :
    ∃ r', r.assign checks x = .ok r' ∧ Numbers checks r' (l ++ [x]) ∧
      r'.nextId = (l.length + 2) % 2 ^ 16 := by
  have hlt : l.length < 65535 := lt_of_lt_of_le hroom (maxGraphs_le checks)
  have htwo := h.two_le
  have hnext := h.next hlt
  have hfirst : ¬ r.nextId < FIRST_USER_GRAPH_ID := by
    rw [hnext, FIRST_USER_GRAPH_ID]
    omega
  have hstep := addU16_of_room hroom
  refine ⟨_, ?_, h.append hx hroom (fun hlt' => mod_eq_of_lt (by omega)), rfl⟩
  rw [GraphRegistry.assign, if_neg hfirst, hnext]
  exact bind_of_ok hstep

/-- **Without room it panics.** -/
lemma assign_panics (hnext : r.nextId = (l.length + 1) % 2 ^ 16)
    (hfull : l.length = maxGraphs checks) (x : String) : r.assign checks x = .error .panic := by
  rw [hfull] at hnext
  cases checks with
  | true =>
    have hid : r.nextId = 65535 := hnext
    rw [GraphRegistry.assign, hid]
    rfl
  | false =>
    have hid : r.nextId = 0 := hnext
    rw [GraphRegistry.assign, hid]
    rfl

lemma assignAll {xs} (hxs : (l ++ xs).Nodup) (hroom : (l ++ xs).length ≤ maxGraphs checks) :
    ∃ r', r.assignAll checks xs = .ok r' ∧ Numbers checks r' (l ++ xs) ∧
      (r.nextId = (l.length + 1) % 2 ^ 16 → r'.nextId = ((l ++ xs).length + 1) % 2 ^ 16) := by
  induction xs generalizing r l with
  | nil => exact ⟨r, rfl, by rwa [append_nil], by rw [append_nil]; exact id⟩
  | cons x xs ih =>
    have hx : x ∉ l := fun hx => (nodup_append'.1 hxs).2.2 hx mem_cons_self
    rw [length_append, length_cons] at hroom
    obtain ⟨_, h₁, hn₁, hid₁⟩ := h.assign hx (by omega)
    have hsplit : l ++ x :: xs = (l ++ [x]) ++ xs := by simp
    rw [hsplit] at hxs ⊢
    obtain ⟨r', h', hn', hid'⟩ := ih hn₁ hxs (by simp; omega)
    refine ⟨r', (bind_of_ok h₁).trans h', hn', fun _ => hid' ?_⟩
    rw [hid₁, length_append, length_singleton]

lemma room_of_assignAll (hnext : r.nextId = (l.length + 1) % 2 ^ 16)
    {xs} (hxs : (l ++ xs).Nodup) (hok : r.assignAll checks xs = .ok r') :
    (l ++ xs).length ≤ maxGraphs checks := by
  induction xs generalizing r l with
  | nil => rw [append_nil]; exact h.room
  | cons x xs ih =>
    obtain ⟨r₁, h₁, hrest⟩ := bind_eq_ok.1 hok
    have hx : x ∉ l := fun hx => (nodup_append'.1 hxs).2.2 hx mem_cons_self
    rcases lt_or_eq_of_le h.room with hroom | hfull
    · obtain ⟨r₂, h₂, hn₂, hid₂⟩ := h.assign hx hroom
      obtain rfl : r₂ = r₁ := Except.ok.inj (h₂.symm.trans h₁)
      have hsplit : l ++ x :: xs = (l ++ [x]) ++ xs := by simp
      rw [hsplit] at hxs ⊢
      refine ih hn₂ ?_ hxs hrest
      rw [hid₂, length_append, length_singleton]
    · rw [h.assign_panics hnext hfull x] at h₁
      cases h₁

end

end Numbers

def batch (iris : List String) : List String := iris.insertionSort (· ≤ ·)

lemma pairwise_batch (iris : List String) : (batch iris).Pairwise (· ≤ ·) :=
  pairwise_insertionSort (· ≤ ·) iris

lemma mem_batch {iris x} : x ∈ batch iris ↔ x ∈ iris :=
  (perm_insertionSort (· ≤ ·) iris).mem_iff

lemma unregistered_spec {r : GraphRegistry} (iris : List String) : (r.unregistered iris).Nodup ∧
      ∀ x, x ∈ r.unregistered iris ↔ x ∈ iris ∧ (r.graphIdForIri x).isSome = false := by
  induction iris using List.reverseRecOn with
  | nil => exact ⟨nodup_nil, by simp [unregistered]⟩
  | append_singleton iris y ih =>
    obtain ⟨hnodup, hmem⟩ := ih
    have hstep : r.unregistered (iris ++ [y]) =
        if (r.graphIdForIri y).isSome || decide (y ∈ r.unregistered iris) then r.unregistered iris
        else r.unregistered iris ++ [y] := by
      rw [unregistered, foldl_append]
      rfl
    rw [hstep]
    split
    · rename_i hy
      refine ⟨hnodup, fun x => ?_⟩
      rw [hmem, mem_append, mem_singleton]
      refine ⟨fun h => ⟨.inl h.1, h.2⟩, fun ⟨hx, hs⟩ => ⟨hx.elim id ?_, hs⟩⟩
      rintro rfl
      rw [hs, Bool.false_or, decide_eq_true_iff] at hy
      exact ((hmem x).1 hy).1
    · rename_i hy
      obtain ⟨hs, hn⟩ : (r.graphIdForIri y).isSome = false ∧ y ∉ r.unregistered iris := by
        simpa using hy
      refine ⟨nodup_append'.2 ⟨hnodup, nodup_singleton y, by simpa using hn⟩,
        fun x => ?_⟩
      rw [mem_append, mem_append, mem_singleton, hmem]
      constructor
      · rintro (h | rfl)
        · exact ⟨.inl h.1, h.2⟩
        · exact ⟨.inr rfl, hs⟩
      · rintro ⟨hx | rfl, h⟩
        · exact .inl ⟨hx, h⟩
        · exact .inr rfl

namespace Numbers

variable {checks : Bool} {r r' : GraphRegistry} {l : List String}

lemma append_new (h : Numbers checks r l) (iris : List String) :
    l ++ batch (r.unregistered iris) = addNew l (batch iris) ∧
      (l ++ batch (r.unregistered iris)).Nodup := by
  obtain ⟨hnodup, hmem⟩ := unregistered_spec (r := r) iris
  have hnd : (batch (r.unregistered iris)).Nodup :=
    (perm_insertionSort (· ≤ ·) _).nodup_iff.2 hnodup
  have hnew : ∀ y, y ∈ batch (r.unregistered iris) ↔ y ∈ batch iris ∧ y ∉ l := by
    intro y
    rw [mem_batch, mem_batch, hmem, ← h.isSome_iff, Bool.not_eq_true]
  have heq : addNew l (batch iris) = l ++ batch (r.unregistered iris) :=
    addNew_eq_append h.nodup (pairwise_batch iris)
      (((pairwise_batch _).and hnd).imp fun hab => lt_of_le_of_ne hab.1 hab.2) hnew
  rw [← heq]
  exact ⟨rfl, nodup_addNew h.nodup _⟩

/-- **A batch is numbered in ascending order.** -/
lemma applyDelta (h : Numbers checks r l) {iris}
    (hroom : (addNew l (batch iris)).length ≤ maxGraphs checks) :
    ∃ r', r.applyDelta checks iris = .ok r' ∧ Numbers checks r' (addNew l (batch iris)) ∧
      (r.nextId = (l.length + 1) % 2 ^ 16 →
        r'.nextId = ((addNew l (batch iris)).length + 1) % 2 ^ 16) := by
  obtain ⟨heq, hnodup⟩ := h.append_new iris
  rw [← heq] at hroom ⊢
  exact h.assignAll hnodup hroom

lemma room_of_applyDelta (h : Numbers checks r l) (hnext : r.nextId = (l.length + 1) % 2 ^ 16)
    {iris} (hok : r.applyDelta checks iris = .ok r') :
    (addNew l (batch iris)).length ≤ maxGraphs checks := by
  obtain ⟨heq, hnodup⟩ := h.append_new iris
  rw [← heq]
  exact h.room_of_assignAll hnext hnodup hok

end Numbers

/-! ## Roots -/

/-- What has been read of a root. -/
structure Seeded (r : GraphRegistry) (l : List String) : Prop where
  nodup : l.Nodup
  named : "" ∉ l
  slots : r.idToIri = none :: l.map some
  ids : ∀ iri, r.iriToId.lookup iri = (l.idxOf? iri).map (· + 1)

variable {r r' : GraphRegistry} {l : List String} {checks : Bool}

lemma seedOne_ok (checks : Bool) (h : Seeded r l) {x} (hx : x ∉ l) (hne : x ≠ "")
    (hroom : l.length < 65535) :
    ∃ r', seedOne checks r l.length x = .ok r' ∧ Seeded r' (l ++ [x]) := by
  have hmod : l.length % 2 ^ 16 = l.length := mod_eq_of_lt (by omega)
  have hid : addU16 checks (l.length % 2 ^ 16) 1 = .ok (l.length + 1) := by
    rw [hmod]
    exact addU16_of_lt checks (by omega)
  have hnew : r.iriToId.lookup x = none := by
    rw [h.ids, List.idxOf?_eq_none_iff.2 hx]
    rfl
  have hstep : seedOne checks r l.length x = .ok
      { r with iriToId := r.iriToId.insert x (l.length + 1), idToIri := r.idToIri ++ [some x] } := by
    rw [seedOne, bind_of_ok hid, if_neg hne, hnew]
  refine ⟨_, hstep, ⟨nodup_append'.2 ⟨h.nodup, nodup_singleton x, by simpa using hx⟩,
    ?_, ?_, fun iri => ?_⟩⟩
  · rw [mem_append, mem_singleton]
    exact fun hmem => hmem.elim h.named (fun heq => hne heq.symm)
  · rw [h.slots, map_append]
    rfl
  · rw [lookup_insert_ite, idxOf?_append_singleton hx]
    split
    · rfl
    · exact h.ids iri

lemma seedAll_ok (checks : Bool) {xs} (h : Seeded r l) (hnodup : (l ++ xs).Nodup)
    (hnamed : "" ∉ xs) (hroom : (l ++ xs).length ≤ 65535) :
    ∃ r', seedAll checks l.length r xs = .ok r' ∧ Seeded r' (l ++ xs) := by
  induction xs generalizing r l with
  | nil => exact ⟨r, rfl, by rwa [append_nil]⟩
  | cons x xs ih =>
    have hx : x ∉ l := fun hx => (nodup_append'.1 hnodup).2.2 hx mem_cons_self
    obtain ⟨hne, hnamed'⟩ := not_or.1 (mt mem_cons.2 hnamed)
    rw [length_append, length_cons] at hroom
    obtain ⟨_, h₁, hs₁⟩ := seedOne_ok checks h hx (Ne.symm hne) (by omega)
    have hsplit : l ++ x :: xs = (l ++ [x]) ++ xs := by simp
    rw [hsplit] at hnodup ⊢
    obtain ⟨r', h', hs'⟩ := ih hs₁ hnodup hnamed' (by simp; omega)
    rw [length_append, length_singleton] at h'
    exact ⟨r', (bind_of_ok h₁).trans h', hs'⟩

/-- **The registry of a root is the list of the root.** -/
lemma numbers_seedFromRootIris {iris} (hnodup : iris.Nodup) (hnamed : "" ∉ iris)
    (htwo : 2 ≤ iris.length) (hroom : iris.length ≤ maxGraphs checks) :
    ∃ r, seedFromRootIris checks iris = .ok r ∧ Numbers checks r iris := by
  have hempty : iris.isEmpty = false := by
    cases iris with
    | nil => simp at htwo
    | cons => rfl
  have hmax := maxGraphs_le checks
  have hstart : Seeded ⟨∅, [none], 0⟩ [] := ⟨nodup_nil, by simp, rfl, fun iri => lookup_empty iri⟩
  obtain ⟨r, hr, hs⟩ := seedAll_ok checks hstart hnodup hnamed (by simp; omega)
  rw [nil_append] at hs
  have hseed : seedFromRootIris checks iris = .ok
      { r with nextId := max (r.idToIri.length % 2 ^ 16) FIRST_USER_GRAPH_ID } := by
    rw [seedFromRootIris, hempty, if_neg (by decide)]
    exact bind_of_ok hr
  refine ⟨_, hseed, ⟨hnodup, htwo, hroom, hs.slots, hs.ids, fun hlt => ?_⟩⟩
  have hlen : r.idToIri.length = iris.length + 1 := by rw [hs.slots, length_cons, length_map]
  simp only [hlen, FIRST_USER_GRAPH_ID]
  rw [mod_eq_of_lt (by omega)]
  omega

lemma ne_empty_of_seedOne {i x} (h : seedOne checks r i x = .ok r') : x ≠ "" := by
  rintro rfl
  obtain ⟨_, -, h⟩ := bind_eq_ok.1 h
  rw [if_pos rfl] at h
  cases h

lemma named_of_seedAll {i xs} (h : seedAll checks i r xs = .ok r') : "" ∉ xs := by
  induction xs generalizing r i with
  | nil => simp
  | cons _ _ ih =>
    obtain ⟨_, h₁, hrest⟩ := bind_eq_ok.1 h
    rw [mem_cons]
    exact fun hmem => hmem.elim (fun heq => ne_empty_of_seedOne h₁ heq.symm) (ih hrest)

lemma named_of_seedFromRootIris {iris} (h : seedFromRootIris checks iris = .ok r) : "" ∉ iris := by
  rw [seedFromRootIris] at h
  split at h
  · cases h
  · obtain ⟨_, hr', -⟩ := bind_eq_ok.1 h
    exact named_of_seedAll hr'

/-! ## Carrying numbers over -/

section

variable (h : Numbers checks r l)
include h

lemma iterEntries_eq : r.iterEntries = (l.zipIdx 1).map fun e => (e.2, e.1) := by
  rw [iterEntries, h.slots, zipIdx_cons, filterMap_cons, zipIdx_map]
  simp only [map_none, filterMap_map]
  rw [← filterMap_eq_map]
  rfl

lemma keepAll_known {es} (hes : ∀ e ∈ es, e.2 ∈ l) : keepAll checks (r, []) es = .ok (r, []) := by
  induction es with
  | nil => rfl
  | cons e _ ih =>
    have hknown : e.1 = 0 ∨ (r.graphIdForIri e.2).isSome = true :=
      .inr (h.isSome_iff.2 (hes e mem_cons_self))
    have hstep : keepOne checks (r, []) e = .ok (r, []) := by
      rw [keepOne]
      exact if_pos hknown
    exact (bind_of_ok hstep).trans (ih fun e he => hes e (mem_cons_of_mem _ he))

lemma keepOne_next {x} (hx : x ∉ l) (hroom : l.length < maxGraphs checks) :
    ∃ r', keepOne checks (r, []) (l.length + 1, x) = .ok (r', []) ∧
      Numbers checks r' (l ++ [x]) := by
  have hlt : l.length < 65535 := lt_of_lt_of_le hroom (maxGraphs_le checks)
  have hnew : ¬ (l.length + 1 = 0 ∨ (r.graphIdForIri x).isSome = true) := by
    rintro (h0 | hs)
    · omega
    · exact hx (h.isSome_iff.1 hs)
  have hfree : (r.iriForGraphId (l.length + 1)).isSome ≠ true := by
    rw [h.iriForGraphId_succ]
    simp
  have hstep := addU16_of_room hroom
  have hkeep : keepOne checks (r, []) (l.length + 1, x) = .ok
      ({ iriToId := r.iriToId.insert x (l.length + 1)
         idToIri := place r.idToIri (l.length + 1) x
         nextId := max (max r.nextId ((l.length + 2) % 2 ^ 16)) FIRST_USER_GRAPH_ID }, []) := by
    rw [keepOne, if_neg hnew, if_neg hfree]
    exact bind_of_ok hstep
  refine ⟨_, hkeep, h.append hx hroom fun hlt' => ?_⟩
  have htwo := h.two_le
  have hmod : (l.length + 2) % 2 ^ 16 = l.length + 2 := mod_eq_of_lt (by omega)
  rw [h.next hlt, hmod, FIRST_USER_GRAPH_ID]
  omega

lemma keepAll_next {new} (hnodup : (l ++ new).Nodup)
    (hroom : (l ++ new).length ≤ maxGraphs checks) :
    ∃ r', keepAll checks (r, []) ((new.zipIdx (l.length + 1)).map fun e => (e.2, e.1)) =
        .ok (r', []) ∧ Numbers checks r' (l ++ new) := by
  induction new generalizing r l with
  | nil => exact ⟨r, rfl, by rwa [append_nil]⟩
  | cons x new ih =>
    have hx : x ∉ l := fun hx => (nodup_append'.1 hnodup).2.2 hx mem_cons_self
    rw [length_append, length_cons] at hroom
    obtain ⟨_, h₁, hn₁⟩ := keepOne_next h hx (by omega)
    have hsplit : l ++ x :: new = (l ++ [x]) ++ new := by simp
    rw [hsplit] at hnodup ⊢
    obtain ⟨r', h', hn'⟩ := ih hn₁ hnodup (by simp; omega)
    rw [length_append, length_singleton] at h'
    exact ⟨r', (bind_of_ok h₁).trans h', hn'⟩

end

lemma keepAll_append {acc acc' es es'} (h : keepAll checks acc es = .ok acc') :
    keepAll checks acc (es ++ es') = keepAll checks acc' es' := by
  induction es generalizing acc with
  | nil => rw [Except.ok.inj h]; rfl
  | cons _ _ ih =>
    obtain ⟨_, h₁, hrest⟩ := bind_eq_ok.1 h
    exact (bind_of_ok h₁).trans (ih hrest)

/-- **Carrying over a longer numbering gives the longer numbering.** -/
lemma Numbers.merge {l'} (h : Numbers checks r l) (h' : Numbers checks r' l') (hle : l' <+: l) :
    ∃ r'', r'.mergePreservingIds checks r.iterEntries = .ok r'' ∧ Numbers checks r'' l := by
  obtain ⟨_, rfl⟩ := hle
  have hknown : keepAll checks (r', []) ((l'.zipIdx 1).map fun e => (e.2, e.1)) = .ok (r', []) := by
    refine keepAll_known h' fun e he => ?_
    obtain ⟨⟨_, _⟩, hx, rfl⟩ := mem_map.1 he
    exact (mem_zipIdx hx).2.2 ▸ getElem_mem _
  obtain ⟨r'', hr'', hn⟩ := keepAll_next h' h.nodup h.room
  have hall : keepAll checks (r', []) r.iterEntries = .ok (r'', []) := by
    rw [iterEntries_eq h, zipIdx_append, map_append, keepAll_append hknown, add_comm 1]
    exact hr''
  refine ⟨r'', ?_, hn⟩
  rw [mergePreservingIds, bind_of_ok hall]
  rfl

end Fluree.Ledger
