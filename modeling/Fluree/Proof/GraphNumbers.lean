import Fluree.Proof.GraphRegistry
import Mathlib.Data.List.Dedup

/-!
# Numbers of graphs over a history

A live ledger numbers graphs commit by commit, a ledger that is loaded numbers all graphs above its
index in one batch, and an index build numbers them on its own. They agree exactly on histories
whose commits register graphs in ascending order and mention no graph before it is registered
(`InOrder`). The IRIs of the system graphs hold the ledger id, so a branch that starts with the
root of its source is never in order.
-/

namespace Fluree.Ledger

open Lib Indexer GraphRegistry List Except Nat

variable {Cid : Type}

/-! ## The index build -/

lemma getOrInsert_snd (d : PredicateDict) (s : String) : (d.getOrInsert s).2 = addOne d s :=
  lookupOrAdd_snd d s

lemma getOrInsert_fst_lt (d : PredicateDict) (s : String) :
    (d.getOrInsert s).1 < (addOne d s).length := lookupOrAdd_fst_lt d s

/-- The graphs full-text settings name. -/
def namedGraphs (properties : List ConfiguredFulltextProperty) : List String :=
  properties.filterMap fun p => match p.scope with
    | .namedGraph iri => some iri
    | _ => none

variable (ns : NamespaceTable)

def graphIri (g : Sid) : Option String :=
  if g.namespaceCode = Namespaces.EMPTY ∧ g.name = "" then none
  else some ((ns.lookup g.namespaceCode).getD "" ++ g.name)

def opIris (flakes : List Flake) : List String :=
  flakes.filterMap fun f => graphIri ns (SharedResolverState.opGraph f)

/-- The graphs of some commits in the order an index build comes to them. -/
def mentioned : NamespaceTable → List (Commit Cid Flake) → List String
  | _, [] => []
  | ns, c :: cs =>
    batch (graphIris c) ++ opIris (insertMissing ns c.namespaceDelta) c.flakes ++
      mentioned (insertMissing ns c.namespaceDelta) cs

lemma mentioned_append (cs ds : List (Commit Cid Flake)) :
    mentioned ns (cs ++ ds) = mentioned ns cs ++ mentioned (tableAfter ns cs) ds := by
  induction cs generalizing ns with
  | nil => rfl
  | cons _ _ ih =>
    simp only [cons_append, mentioned, ih, append_assoc]
    rfl

section Build

open SharedResolverState

section

variable (s : SharedResolverState)
include s

lemma configureOne_graphs (p : ConfiguredFulltextProperty) :
    (s.configureOne p).graphs = addNew s.graphs (namedGraphs [p]) ∧
      (s.configureOne p).nsPrefixes = s.nsPrefixes := by
  obtain ⟨scope, iri⟩ := p
  cases scope with
  | anyGraph | defaultGraph | txnMetaGraph => exact ⟨rfl, rfl⟩
  | namedGraph g =>
    have hadd : addNew s.graphs (namedGraphs [⟨.namedGraph g, iri⟩]) = (s.graphs.getOrInsert g).2 :=
      (getOrInsert_snd s.graphs g).symm
    rw [hadd, configureOne]
    simp only
    split <;> exact ⟨rfl, rfl⟩

lemma configure_graphs (ps : List ConfiguredFulltextProperty) :
    (s.configureFulltextProperties ps).graphs = addNew s.graphs (namedGraphs ps) ∧
      (s.configureFulltextProperties ps).nsPrefixes = s.nsPrefixes := by
  rw [configureFulltextProperties]
  induction ps using List.reverseRecOn with
  | nil => exact ⟨rfl, rfl⟩
  | append_singleton ps p ih =>
    rw [foldl_append, foldl_cons, foldl_nil]
    obtain ⟨hg, hns⟩ := configureOne_graphs
      (ps.foldl configureOne { s with fulltextHookConfig := .empty }) p
    rw [hg, hns, ih.1, ih.2, ← addNew_append]
    refine ⟨?_, rfl⟩
    rw [namedGraphs, namedGraphs, namedGraphs, filterMap_append]

lemma applyGraphDelta_graphs (delta : SortedMap UInt16 String) :
    (s.applyGraphDelta delta).graphs = addNew s.graphs (batch (delta.entries.map Prod.snd)) := by
  have hstep : (fun (d : PredicateDict) iri => (d.getOrInsert iri).2) = addOne := by
    funext d iri
    exact getOrInsert_snd d iri
  rw [applyGraphDelta]
  simp only [hstep]
  rfl

lemma resolveGraph_cases (g : Sid) :
    (∃ id, s.resolveGraph g =
        .ok (id, { s with graphs := addNew s.graphs (graphIri s.nsPrefixes g).toList })) ∨
      (∃ e, s.resolveGraph g = .error e) ∧
        2 ^ 16 ≤ (addNew s.graphs (graphIri s.nsPrefixes g).toList).length := by
  rw [resolveGraph, graphIri]
  split
  · exact .inl ⟨0, rfl⟩
  have hadd := getOrInsert_snd s.graphs ((s.nsPrefixes.lookup g.namespaceCode).getD "" ++ g.name)
  have hlt := getOrInsert_fst_lt s.graphs ((s.nsPrefixes.lookup g.namespaceCode).getD "" ++ g.name)
  rw [Option.toList_some, addNew_cons, addNew_nil, ← hadd]
  rw [← hadd] at hlt
  simp only
  split
  · exact .inl ⟨_, rfl⟩
  · rename_i hbig
    exact .inr ⟨⟨_, rfl⟩, by omega⟩

end

lemma opIris_cons (ns : NamespaceTable) (f : Flake) (fs : List Flake) :
    opIris ns (f :: fs) = (graphIri ns (opGraph f)).toList ++ opIris ns fs := by
  rw [opIris, filterMap_cons]
  cases graphIri ns (opGraph f) <;> rfl

lemma resolveGraphs_cases (s : SharedResolverState) (fs : List Flake) :
    s.resolveGraphs fs = .ok { s with graphs := addNew s.graphs (opIris s.nsPrefixes fs) } ∨
      (∃ e, s.resolveGraphs fs = .error e) ∧
        2 ^ 16 ≤ (addNew s.graphs (opIris s.nsPrefixes fs)).length := by
  induction fs generalizing s with
  | nil => exact .inl rfl
  | cons f fs ih =>
    rw [opIris_cons, addNew_append]
    rcases resolveGraph_cases s (opGraph f) with ⟨id, hok⟩ | ⟨⟨e, he⟩, hbig⟩
    · have hrun : s.resolveGraphs (f :: fs) =
          resolveGraphs { s with
            graphs := addNew s.graphs (graphIri s.nsPrefixes (opGraph f)).toList } fs :=
        bind_of_ok hok
      rw [hrun]
      exact ih { s with graphs := addNew s.graphs (graphIri s.nsPrefixes (opGraph f)).toList }
    · refine .inr ⟨⟨e, bind_of_error he⟩, le_trans hbig ?_⟩
      exact (prefix_addNew _ _).length_le

lemma resolveCommits_cases (s : SharedResolverState) (cs : List (Commit Cid Flake)) :
    s.resolveCommits cs = .ok { s with
        nsPrefixes := tableAfter s.nsPrefixes cs
        graphs := addNew s.graphs (mentioned s.nsPrefixes cs) } ∨
      (∃ e, s.resolveCommits cs = .error e) ∧
        2 ^ 16 ≤ (addNew s.graphs (mentioned s.nsPrefixes cs)).length := by
  induction cs generalizing s with
  | nil => exact .inl rfl
  | cons c cs ih =>
    rw [mentioned, addNew_append, addNew_append]
    have hdelta := applyGraphDelta_graphs (s.applyNamespaceDelta c.namespaceDelta) c.graphDelta
    rcases resolveGraphs_cases
      ((s.applyNamespaceDelta c.namespaceDelta).applyGraphDelta c.graphDelta) c.flakes with
      hok | ⟨⟨e, he⟩, hbig⟩
    · have hrun := bind_of_ok (f := fun s => resolveCommits s cs) hok
      rw [hdelta] at hrun
      rw [resolveCommits, resolveCommit, hrun]
      exact ih _
    · rw [hdelta] at hbig
      exact .inr ⟨⟨e, bind_of_error he⟩, le_trans hbig (prefix_addNew _ _).length_le⟩

end Build

/-! ## Histories -/

def userGraphs (ledgerId : String) (cs : List (Commit Cid Flake)) : List String :=
  (cs.flatMap graphIris).filter (· ∉ systemGraphs ledgerId)

namespace History

variable (h : History Cid) (k : ℕ)

def users : List String := userGraphs h.ledgerId (h.upTo k)

/-- The graphs of users in the first commits, in ascending order. -/
def sortedUsers : List String := batch (h.users k).dedup

/-- The registry of a ledger that has taken up the first commits one by one. -/
def live (checks : Bool) (k : ℕ) : Except Failure GraphRegistry :=
  (newForLedger h.ledgerId).applyCommits checks (h.upTo k)

/-- The full-text settings of an index, as the graphs of users they name, each once. -/
def configured : List String :=
  addNew [] ((namedGraphs (h.properties k)).filter (· ∉ systemGraphs h.ledgerId))

/-- **A history in order**: graphs are registered in ascending order and not mentioned before. -/
structure InOrder (checks : Bool) : Prop where
  /-- A commit that registers a graph registers no graph below those already registered. -/
  ascending : ∀ k < h.commits.length, ∀ a ∈ h.users k, ∀ b ∈ h.users (k + 1), b ∉ h.users k → a < b
  /-- There is a number for every graph. -/
  few : (h.users h.commits.length).dedup.length + 2 ≤ maxGraphs checks
  /-- No graph has an empty IRI. -/
  named : "" ∉ h.users h.commits.length
  /-- Flakes are in graphs that their commit or an earlier one declares. -/
  written : ∀ k < h.commits.length, ∀ c, h.commits[k]? = some c →
    ∀ iri ∈ opIris (h.table (k + 1)) c.flakes,
      iri ∈ systemGraphs h.ledgerId ∨ iri ∈ h.users (k + 1)
  /-- The settings of an index name the first graphs of users, in order. -/
  settings : ∀ k, 0 < k → k ≤ h.commits.length → h.configured k <+: h.sortedUsers k
  /-- A root the ledger was given has the ledger's own id and graphs. -/
  adopted : ∀ a, h.adopted = some a → 0 < a.indexed → a.indexed ≤ h.commits.length →
    a.ledgerId = h.ledgerId ∧ a.graphIris = systemGraphs h.ledgerId ++ h.sortedUsers a.indexed

/-- **All ways to number the graphs of a history agree.** -/
structure NumbersAlike (checks : Bool) : Prop where
  /-- Every registry that is obtained numbers graphs as the live registry does. -/
  registries : ∀ j out, h.RegistryAt checks j out →
    ∃ r r', out = .ok r ∧ h.live checks j = .ok r' ∧ SameIds r r'
  /-- So does every root that is written: the first IRI of a root has number 1. -/
  roots : ∀ k out, h.RootAt k out → ∃ root r, out = .ok root ∧ h.live checks k = .ok r ∧
    (∀ i, root.graphIris[i]? = r.iriForGraphId (i + 1)) ∧
    ∀ iri, (root.graphIris.idxOf? iri).map (· + 1) = r.graphIdForIri iri
  /-- Numbers stay with their graphs. -/
  stable : ∀ i j r r', i ≤ j → h.RegistryAt checks i (.ok r) → h.RegistryAt checks j (.ok r') →
    ∀ iri id, r.graphIdForIri iri = some id →
      r'.graphIdForIri iri = some id ∧ r'.iriForGraphId id = some iri
  /-- Graphs of users are not under the numbers of the default and the system graphs. -/
  user : ∀ j r, h.RegistryAt checks j (.ok r) → ∀ iri id, r.graphIdForIri iri = some id →
    iri ∉ systemGraphs h.ledgerId → FIRST_USER_GRAPH_ID ≤ id

/-- The graphs of the first commits in the order a live ledger registers them. -/
def registered : List String :=
  addNew (systemGraphs h.ledgerId) ((h.upTo k).flatMap fun c => batch (graphIris c))

variable {h}

variable {k : ℕ} {c : Commit Cid Flake} {checks : Bool} {r : GraphRegistry}

lemma mem_users :
    x ∈ h.users k ↔ x ∈ (h.upTo k).flatMap graphIris ∧ x ∉ systemGraphs h.ledgerId := by
  rw [users, userGraphs, mem_filter, decide_eq_true_iff]

lemma mem_sortedUsers : x ∈ h.sortedUsers k ↔ x ∈ h.users k := by
  rw [sortedUsers, mem_batch, mem_dedup]

lemma sortedUsers_ascending (k : ℕ) : (h.sortedUsers k).Pairwise (· < ·) := by
  have hnd : (h.sortedUsers k).Nodup := (perm_insertionSort (· ≤ ·) _).nodup_iff.2 (nodup_dedup _)
  exact ((pairwise_batch _).and hnd).imp fun hab => lt_of_le_of_ne hab.1 hab.2

lemma length_sortedUsers (k : ℕ) : (h.sortedUsers k).length = (h.users k).dedup.length :=
  (perm_insertionSort (· ≤ ·) _).length_eq

lemma nodup_registered (k : ℕ) : (h.registered k).Nodup :=
  nodup_addNew (nodup_systemGraphs h.ledgerId) _

lemma system_prefix_registered (k : ℕ) : systemGraphs h.ledgerId <+: h.registered k :=
  prefix_addNew _ _

lemma mem_registered : x ∈ h.registered k ↔ x ∈ systemGraphs h.ledgerId ∨ x ∈ h.users k := by
  have hbatches : x ∈ (h.upTo k).flatMap (fun c => batch (graphIris c)) ↔
      x ∈ (h.upTo k).flatMap graphIris := by
    simp only [mem_flatMap, mem_batch]
  rw [registered, mem_addNew, hbatches, mem_users]
  by_cases hx : x ∈ systemGraphs h.ledgerId <;> simp [hx]

lemma upTo_succ (hc : h.commits[k]? = some c) : h.upTo (k + 1) = h.upTo k ++ [c] := by
  rw [upTo, take_add_one, hc]
  rfl

lemma exists_commit (hk : k < h.commits.length) : ∃ c, h.commits[k]? = some c :=
  ⟨h.commits[k], List.getElem?_eq_getElem hk⟩

lemma table_succ (hc : h.commits[k]? = some c) :
    h.table (k + 1) = insertMissing (h.table k) c.namespaceDelta := by
  rw [table, upTo_succ hc, tableAfter, foldl_append]
  rfl

lemma newForLedger_graphs (ledgerId : String) :
    (SharedResolverState.newForLedger ledgerId).graphs = systemGraphs ledgerId := by
  simp only [SharedResolverState.newForLedger, getOrInsert_snd]
  rw [addOne_of_not_mem (not_mem_nil), addOne_of_not_mem
    (by simpa using Ne.symm (txnMeta_ne_config ledgerId))]
  rfl

lemma registered_succ (hc : h.commits[k]? = some c) :
    h.registered (k + 1) = addNew (h.registered k) (batch (graphIris c)) := by
  rw [registered, upTo_succ hc, flatMap_append, addNew_append]
  simp [registered]

lemma registered_mono (hjk : j ≤ k) : h.registered j <+: h.registered k := by
  obtain ⟨_, hds⟩ := take_prefix_take_left (l := h.commits) hjk
  rw [registered, registered, upTo, upTo, ← hds, flatMap_append, addNew_append]
  exact prefix_addNew _ _

lemma registered_succ_eq (hk : k < h.commits.length) :
    ∃ new, h.registered (k + 1) = h.registered k ++ new ∧ new.Pairwise (· < ·) := by
  obtain ⟨_, hc⟩ := exists_commit hk
  rw [registered_succ hc]
  obtain ⟨new, heq, hnew, -⟩ := exists_addNew_ascending (nodup_registered k) (pairwise_batch _)
  exact ⟨new, heq, hnew⟩

lemma exists_registered_eq (k : ℕ) : ∃ us, h.registered k = systemGraphs h.ledgerId ++ us ∧
    ∀ x, x ∈ us ↔ x ∈ h.users k := by
  obtain ⟨us, hus⟩ := system_prefix_registered (h := h) k
  refine ⟨us, hus.symm, fun x => ?_⟩
  have hdis := (nodup_append'.1 (hus ▸ nodup_registered k)).2.2
  have hmem : x ∈ systemGraphs h.ledgerId ∨ x ∈ us ↔
      x ∈ systemGraphs h.ledgerId ∨ x ∈ h.users k := by
    rw [← mem_append, hus]
    exact mem_registered
  constructor
  · intro hx
    exact (hmem.1 (.inr hx)).resolve_left fun hs => hdis hs hx
  · intro hx
    exact (hmem.2 (.inr hx)).resolve_left (mem_users.1 hx).2

/-- **In order, the registered graphs are sorted.** -/
lemma registered_eq_sorted
    (hasc : ∀ k < h.commits.length, ∀ a ∈ h.users k, ∀ b ∈ h.users (k + 1), b ∉ h.users k → a < b)
    (hk : k ≤ h.commits.length) : h.registered k = systemGraphs h.ledgerId ++ h.sortedUsers k := by
  induction k with
  | zero =>
    have hu : h.users 0 = [] := rfl
    rw [sortedUsers, hu]
    rfl
  | succ k ih =>
    obtain ⟨new, heq, hnew⟩ := registered_succ_eq (lt_of_succ_le hk)
    obtain ⟨us, hus, hmem⟩ := exists_registered_eq (h := h) (k + 1)
    rw [ih (le_of_succ_le hk), append_assoc] at heq
    have hsplit : us = h.sortedUsers k ++ new := append_cancel_left (hus.symm.trans heq)
    have hnodup := (nodup_append'.1 (hus ▸ nodup_registered (k + 1))).2.1
    -- the new graphs are above the old ones
    have hup : us.Pairwise (· < ·) := by
      rw [hsplit, pairwise_append]
      refine ⟨sortedUsers_ascending k, hnew, fun a ha b hb => ?_⟩
      refine hasc k (lt_of_succ_le hk) a (mem_sortedUsers.1 ha) b ?_ fun hbk => ?_
      · rw [← hmem, hsplit]
        exact mem_append_right _ hb
      · rw [hsplit] at hnodup
        exact (nodup_append'.1 hnodup).2.2 (mem_sortedUsers.2 hbk) hb
    rw [hus, eq_of_ascending hup (sortedUsers_ascending (k + 1)) fun x =>
      (hmem x).trans mem_sortedUsers.symm]

lemma ascending_of_registered (heq : h.registered h.commits.length =
      systemGraphs h.ledgerId ++ h.sortedUsers h.commits.length) :
    ∀ k < h.commits.length, ∀ a ∈ h.users k, ∀ b ∈ h.users (k + 1), b ∉ h.users k → a < b := by
  intro k hk a ha b hb hbk
  obtain ⟨new, hnew, -⟩ := registered_succ_eq hk
  obtain ⟨us, hus, hmem⟩ := exists_registered_eq (h := h) k
  obtain ⟨rest, hrest⟩ := registered_mono (h := h) (succ_le_of_lt hk)
  have hsplit : us ++ (new ++ rest) = h.sortedUsers h.commits.length := by
    refine append_cancel_left (Eq.trans ?_ heq)
    rw [← hrest, hnew, hus]
    simp only [append_assoc]
  have hasc := sortedUsers_ascending (h := h) h.commits.length
  rw [← hsplit, pairwise_append] at hasc
  have hbnew : b ∈ new := by
    have hreg : b ∈ h.registered k ++ new := by
      rw [← hnew]
      exact mem_registered.2 (.inr hb)
    refine (mem_append.1 hreg).resolve_left fun hold => ?_
    exact (mem_registered.1 hold).elim (mem_users.1 hb).2 hbk
  exact hasc.2.2 a ((hmem a).2 ha) b (mem_append_left rest hbnew)

/-! ## The live registry -/

variable {cs : List (Commit Cid Flake)} {l : List String}

lemma applyCommits_ok (hr : Numbers checks r l)
    (hroom : (addNew l (cs.flatMap fun c => batch (graphIris c))).length ≤ maxGraphs checks) :
    ∃ r', r.applyCommits checks cs = .ok r' ∧
      Numbers checks r' (addNew l (cs.flatMap fun c => batch (graphIris c))) := by
  induction cs generalizing r l with
  | nil => exact ⟨r, rfl, hr⟩
  | cons c _ ih =>
    rw [flatMap_cons, addNew_append] at hroom ⊢
    have hone : (addNew l (batch (graphIris c))).length ≤ maxGraphs checks :=
      le_trans (prefix_addNew _ _).length_le hroom
    obtain ⟨_, h₁, hn₁, -⟩ := hr.applyDelta hone
    obtain ⟨r', h', hn'⟩ := ih hn₁ hroom
    exact ⟨r', (bind_of_ok h₁).trans h', hn'⟩

lemma room_of_applyCommits {r' : GraphRegistry} (hr : Numbers checks r l)
    (hnext : r.nextId = (l.length + 1) % 2 ^ 16) (hok : r.applyCommits checks cs = .ok r') :
    (addNew l (cs.flatMap fun c => batch (graphIris c))).length ≤ maxGraphs checks := by
  induction cs generalizing r l with
  | nil => exact hr.room
  | cons _ _ ih =>
    obtain ⟨r₁, h₁, hrest⟩ := bind_eq_ok.1 hok
    have hroom := hr.room_of_applyDelta hnext h₁
    obtain ⟨r₂, h₂, hn₂, hnext₂⟩ := hr.applyDelta hroom
    obtain rfl : r₂ = r₁ := ok.inj (h₂.symm.trans h₁)
    rw [flatMap_cons, addNew_append]
    exact ih hn₂ (hnext₂ hnext) hrest

lemma live_ok (hroom : (h.registered k).length ≤ maxGraphs checks) :
    ∃ r, h.live checks k = .ok r ∧ Numbers checks r (h.registered k) :=
  applyCommits_ok (numbers_newForLedger checks h.ledgerId) hroom

lemma numbers_of_live (hr : h.live checks k = .ok r) : Numbers checks r (h.registered k) := by
  obtain ⟨r', hr', hn⟩ := live_ok
    (room_of_applyCommits (numbers_newForLedger checks h.ledgerId) rfl hr)
  obtain rfl : r' = r := ok.inj (hr'.symm.trans hr)
  exact hn

lemma addNew_replay (k : ℕ) :
    addNew (systemGraphs h.ledgerId) (batch ((h.upTo k).flatMap graphIris)) =
      systemGraphs h.ledgerId ++ h.sortedUsers k := by
  refine addNew_eq_append (nodup_systemGraphs _) (pairwise_batch _) (sortedUsers_ascending k)
    fun y => ?_
  rw [mem_sortedUsers, mem_users, mem_batch]

/-! ## Roots of a history in order -/

section InOrder

variable {checks : Bool} (ho : h.InOrder checks)

include ho

variable {k j : ℕ}

lemma InOrder.registered_eq (hk : k ≤ h.commits.length) :
    h.registered k = systemGraphs h.ledgerId ++ h.sortedUsers k :=
  registered_eq_sorted ho.ascending hk

lemma InOrder.room (hk : k ≤ h.commits.length) : (h.registered k).length ≤ maxGraphs checks := by
  refine le_trans (registered_mono hk).length_le ?_
  rw [ho.registered_eq (le_refl _), length_append, length_sortedUsers, add_comm]
  exact ho.few

lemma InOrder.named_registered (hk : k ≤ h.commits.length) : "" ∉ h.registered k := by
  intro hmem
  have hmem' := (registered_mono hk).subset hmem
  rcases mem_registered.1 hmem' with hs | hu
  · exact systemGraphs_named h.ledgerId hs
  · exact ho.named hu

lemma InOrder.addNew_mentioned (hjk : j ≤ k) (hk : k ≤ h.commits.length) :
    addNew (h.registered j) (mentioned (h.table j) (h.between j k)) = h.registered k ∧
      tableAfter (h.table j) (h.between j k) = h.table k := by
  induction k, hjk using le_induction with
  | base =>
    have hnil : h.between j j = [] := by
      rw [between]
      exact drop_eq_nil_of_le (length_take_le _ _)
    rw [hnil]
    exact ⟨rfl, rfl⟩
  | succ k _ ih =>
    obtain ⟨hm, ht⟩ := ih (le_of_succ_le hk)
    obtain ⟨c, hc⟩ := exists_commit (lt_of_succ_le hk)
    have hlen : j ≤ (h.upTo k).length := by
      rw [upTo, length_take]
      omega
    have hnext : h.between j (k + 1) = h.between j k ++ [c] := by
      rw [between, ← upTo, upTo_succ hc, drop_append_of_le_length hlen]
      rfl
    have htable := table_succ hc
    rw [hnext, mentioned_append, addNew_append, hm, ht]
    have hlast : tableAfter (h.table j) (h.between j k ++ [c]) =
        insertMissing (tableAfter (h.table j) (h.between j k)) c.namespaceDelta := by
      rw [tableAfter, foldl_append]
      rfl
    rw [hlast, ht, ← htable]
    refine ⟨?_, rfl⟩
    rw [mentioned, mentioned, append_nil, addNew_append, ← registered_succ hc, ← htable]
    refine addNew_of_subset fun x hx => mem_registered.2 ?_
    exact ho.written k (lt_of_succ_le hk) c hc x hx

lemma InOrder.addNew_configured (hjk : j ≤ k) (hpos : 0 < k) (hk : k ≤ h.commits.length) :
    addNew (h.registered j) (namedGraphs (h.properties k)) <+: h.registered k := by
  have hfirst : addNew (systemGraphs h.ledgerId) (namedGraphs (h.properties k)) <+:
      h.registered k := by
    have hsplit := addNew_append_left (systemGraphs h.ledgerId) [] (namedGraphs (h.properties k))
    rw [append_nil] at hsplit
    rw [hsplit, ho.registered_eq hk]
    exact (prefix_append_right_inj _).2 (ho.settings k hpos hk)
  rw [← addNew_addNew fun x hx => (system_prefix_registered j).subset hx]
  exact addNew_prefix_of_prefix (nodup_registered k) (registered_mono hjk) hfirst

/-- **A build that starts with the registered graphs ends with them.** -/
lemma InOrder.resolveCommits (hjk : j ≤ k) (hpos : 0 < k) (hk : k ≤ h.commits.length)
    {s : SharedResolverState} (hgraphs : s.graphs = h.registered j) (hns : s.nsPrefixes = h.table j)
    :
    ∃ s', (s.configureFulltextProperties (h.properties k)).resolveCommits (h.between j k) = .ok s' ∧
      s'.graphs = h.registered k ∧ s'.nsPrefixes = h.table k := by
  obtain ⟨hcg, hcn⟩ := configure_graphs s (h.properties k)
  obtain ⟨hm, ht⟩ := ho.addNew_mentioned hjk hk
  have hend : addNew (s.configureFulltextProperties (h.properties k)).graphs
      (mentioned (s.configureFulltextProperties (h.properties k)).nsPrefixes (h.between j k)) =
        h.registered k := by
    rw [hcg, hcn, hgraphs, hns, addNew_eq_of_between (prefix_addNew _ _), hm]
    rw [hm]
    exact ho.addNew_configured hjk hpos hk
  rcases resolveCommits_cases (s.configureFulltextProperties (h.properties k)) (h.between j k) with
    hok | ⟨-, hbig⟩
  · rw [hend, hcn, hns, ht] at hok
    exact ⟨_, hok, rfl, rfl⟩
  · rw [hend] at hbig
    have hroom := ho.room hk
    have hmax := maxGraphs_le checks
    omega

/-- **Every root that is written lists the registered graphs.** -/
lemma InOrder.rootAt {out : Except ResolverError IndexRoot} (hr : h.RootAt k out) :
    0 < k ∧ k ≤ h.commits.length ∧ out = .ok ⟨h.ledgerId, h.table k, h.registered k⟩ := by
  suffices hroot : 0 < k ∧ k ≤ h.commits.length ∧ ∃ root, out = .ok root ∧
      root.ledgerId = h.ledgerId ∧ root.namespaceCodes = h.table k ∧
      root.graphIris = h.registered k by
    obtain ⟨hpos, hk, ⟨_, _, _⟩, hout, rfl, rfl, rfl⟩ := hroot
    exact ⟨hpos, hk, hout⟩
  induction hr with
  | rebuilt k pos le =>
    obtain ⟨s', hok, hg, hn⟩ := ho.resolveCommits (zero_le k) pos le
      (newForLedger_graphs h.ledgerId) rfl
    exact ⟨pos, le, _, bind_of_ok hok, rfl, hn, hg⟩
  | @extended j base _ predicates _ le_next le ih =>
    obtain ⟨hpos, _, root, hout, hid, hns, hgraphs⟩ := ih
    obtain rfl : base = root := ok.inj hout
    obtain ⟨_, hus, -⟩ := exists_registered_eq (h := h) j
    have hhead : base.graphIris.head? = some (txnMetaGraphIri base.ledgerId) := by
      rw [hgraphs, hus, hid]
      rfl
    have hlen : base.graphIris.length ≠ 1 := by
      rw [hgraphs, hus]
      simp [systemGraphs]
    have hfrom := SharedResolverState.fromIndexRoot.eq_1 base predicates
    rw [if_pos hhead, if_neg hlen] at hfrom
    obtain ⟨s', hok, hg, hn⟩ := ho.resolveCommits le_next (lt_of_lt_of_le hpos le_next) le
      (s := ⟨base.namespaceCodes, predicates, base.graphIris, .empty⟩) hgraphs hns
    refine ⟨lt_of_lt_of_le hpos le_next, le, s'.root h.ledgerId, ?_, rfl, hn, hg⟩
    rw [extend, bind_of_ok hfrom]
    exact bind_of_ok hok
  | adopted a given pos le =>
    obtain ⟨hid, hgraphs⟩ := ho.adopted a given pos le
    exact ⟨pos, le, _, rfl, hid, rfl, hgraphs.trans (ho.registered_eq le).symm⟩

/-! ## Registries of a history in order -/

lemma InOrder.addNew_between (hkj : k ≤ j) (hj : j ≤ h.commits.length) :
    addNew (h.registered k) (batch ((h.between k j).flatMap graphIris)) = h.registered j := by
  obtain ⟨new, hnew⟩ := registered_mono (h := h) hkj
  have hasc : new.Pairwise (· < ·) := by
    have hsorted := sortedUsers_ascending (h := h) j
    obtain ⟨us, hus, -⟩ := exists_registered_eq (h := h) k
    have hsplit : us ++ new = h.sortedUsers j := by
      refine append_cancel_left (Eq.trans ?_ (ho.registered_eq hj))
      rw [← hnew, hus, append_assoc]
    rw [← hsplit, pairwise_append] at hsorted
    exact hsorted.2.1
  rw [← hnew]
  refine addNew_eq_append (nodup_registered k) (pairwise_batch _) hasc fun y => ?_
  have hdis := (nodup_append'.1 (hnew ▸ nodup_registered j)).2.2
  have hcommits : h.upTo j = h.upTo k ++ h.between k j := by
    have htake : h.upTo k = (h.upTo j).take k := by rw [upTo, upTo, take_take, min_eq_left hkj]
    rw [htake, between, upTo, take_append_drop]
  have hmem : y ∈ h.registered k ∨ y ∈ new ↔
      y ∈ h.registered k ∨ y ∈ (h.between k j).flatMap graphIris := by
    rw [← mem_append, hnew, mem_registered, mem_registered, mem_users, mem_users, hcommits,
      flatMap_append, mem_append]
    by_cases hs : y ∈ systemGraphs h.ledgerId <;> simp [hs]
  rw [mem_batch]
  constructor
  · intro hy
    exact ⟨(hmem.1 (.inr hy)).resolve_left fun hk => hdis hk hy, fun hk => hdis hk hy⟩
  · rintro ⟨hy, hk⟩
    exact (hmem.2 (.inr hy)).resolve_left hk

lemma InOrder.ofRoot (hk : k ≤ h.commits.length) :
    ∃ r, GraphRegistry.ofRoot checks ⟨h.ledgerId, h.table k, h.registered k⟩ = .ok r ∧
      Numbers checks r (h.registered k) := by
  have htwo : 2 ≤ (h.registered k).length := (system_prefix_registered k).length_le
  have hempty : (h.registered k).isEmpty = false := by
    cases heq : h.registered k with
    | nil => simp [heq] at htwo
    | cons => rfl
  rw [GraphRegistry.ofRoot, hempty, if_neg (by decide)]
  exact numbers_seedFromRootIris (nodup_registered k) (ho.named_registered hk) htwo (ho.room hk)

/-- **Every registry that is obtained holds the registered graphs.** -/
lemma InOrder.registryAt (hr : h.RegistryAt checks j out) :
    j ≤ h.commits.length ∧ ∃ r, out = .ok r ∧ Numbers checks r (h.registered j) := by
  induction hr with
  | created => exact ⟨zero_le _, _, rfl, numbers_newForLedger checks h.ledgerId⟩
  | @applied j r _ _ next ih =>
    obtain ⟨-, r', hok, hn⟩ := ih
    obtain rfl : r = r' := ok.inj hok
    have hj : j < h.commits.length := (List.getElem?_eq_some_iff.1 next).1
    have hroom := ho.room (succ_le_of_lt hj)
    rw [registered_succ next] at hroom ⊢
    obtain ⟨r', h', hn', -⟩ := hn.applyDelta hroom
    exact ⟨hj, r', h', hn'⟩
  | replayed j le =>
    have heq := (addNew_replay j).trans (ho.registered_eq le).symm
    obtain ⟨r', h', hn', -⟩ := (numbers_newForLedger checks h.ledgerId).applyDelta
      (heq ▸ ho.room le)
    rw [heq] at hn'
    exact ⟨le, r', h', hn'⟩
  | @loaded _ _ _ at_root le_head le =>
    obtain ⟨-, hk, hroot⟩ := ho.rootAt at_root
    obtain rfl := ok.inj hroot
    obtain ⟨r, hr, hn⟩ := ho.ofRoot hk
    have heq := ho.addNew_between le_head le
    obtain ⟨r', h', hn', -⟩ := hn.applyDelta (heq ▸ ho.room le)
    rw [heq] at hn'
    exact ⟨le, r', (bind_of_ok hr).trans h', hn'⟩
  | @attached _ _ r _ _ at_root lt_head _ ih =>
    obtain ⟨hj, r₀, hok, hn⟩ := ih
    obtain rfl : r = r₀ := ok.inj hok
    obtain ⟨-, hk, hroot⟩ := ho.rootAt at_root
    obtain rfl := ok.inj hroot
    obtain ⟨r', hr', hn'⟩ := ho.ofRoot hk
    obtain ⟨r'', h'', hn''⟩ := hn.merge hn' (registered_mono (le_of_lt lt_head))
    exact ⟨hj, r'', (bind_of_ok hr').trans h'', hn''⟩

lemma InOrder.numbersAlike : h.NumbersAlike checks where
  registries j out hr := by
    obtain ⟨hj, r, hok, hn⟩ := ho.registryAt hr
    obtain ⟨r', hr', hn'⟩ := live_ok (ho.room hj)
    exact ⟨r, r', hok, hr', hn.sameIds hn'⟩
  roots k out hr := by
    obtain ⟨-, hk, hok⟩ := ho.rootAt hr
    obtain ⟨r, hr, hn⟩ := live_ok (ho.room hk)
    exact ⟨_, r, hok, hr, fun i => (hn.iriForGraphId_succ i).symm, fun iri => (hn.ids iri).symm⟩
  stable i j r r' hij hr hr' iri id hid := by
    obtain ⟨-, r₁, hok, hn⟩ := ho.registryAt hr
    obtain rfl : r = r₁ := ok.inj hok
    obtain ⟨-, r₂, hok', hn'⟩ := ho.registryAt hr'
    obtain rfl : r' = r₂ := ok.inj hok'
    obtain ⟨p, rfl, hp⟩ := hn.graphId_pos hid
    obtain ⟨_, hnew⟩ := registered_mono (h := h) hij
    have hp' : (h.registered j)[p]? = some iri := by
      rw [← hnew, List.getElem?_append_left (List.getElem?_eq_some_iff.1 hp).1]
      exact hp
    refine ⟨?_, (hn'.iriForGraphId_succ p).trans hp'⟩
    rw [hn'.ids, idxOf?_of_getElem? hn'.nodup hp']
    rfl
  user j r hr iri id hid hs := by
    obtain ⟨-, r₁, hok, hn⟩ := ho.registryAt hr
    obtain rfl : r = r₁ := ok.inj hok
    obtain ⟨p, rfl, hp⟩ := hn.graphId_pos hid
    obtain ⟨_, hus, -⟩ := exists_registered_eq (h := h) j
    -- the first two positions are those of the system graphs
    by_contra hlt
    have hp2 : p < (systemGraphs h.ledgerId).length := by
      rw [FIRST_USER_GRAPH_ID] at hlt
      exact (by omega : p < 2)
    rw [hus, List.getElem?_append_left hp2] at hp
    exact hs (mem_of_getElem? hp)

end InOrder

/-! ## Histories out of order -/

section Conversely

variable {checks : Bool} (ha : h.NumbersAlike checks)

include ha

/-- A root lists the registered graphs. -/
lemma NumbersAlike.graphIris_eq {root : IndexRoot} (hat : h.RootAt k (.ok root)) :
    root.graphIris = h.registered k := by
  obtain ⟨_, _, ⟨⟩, hr, hiris, -⟩ := ha.roots k _ hat
  refine ext_getElem? fun i => ?_
  rw [hiris, (numbers_of_live hr).iriForGraphId_succ]

lemma NumbersAlike.rebuilt (hpos : 0 < k) (hk : k ≤ h.commits.length) :
    addNew (addNew (systemGraphs h.ledgerId) (namedGraphs (h.properties k)))
        (mentioned defaultNamespaceCodes (h.upTo k)) = h.registered k ∧
      h.RootAt k (.ok ⟨h.ledgerId, h.table k, h.registered k⟩) := by
  have hat := RootAt.rebuilt k hpos hk
  obtain ⟨root, _, hok, -⟩ := ha.roots k _ hat
  have hgraphs : root.graphIris = h.registered k := ha.graphIris_eq (hok ▸ hat)
  obtain ⟨s, hs, hroot⟩ := bind_eq_ok.1 hok
  obtain rfl : s.root h.ledgerId = root := ok.inj hroot
  obtain ⟨hcg, hcn⟩ := configure_graphs (SharedResolverState.newForLedger h.ledgerId)
    (h.properties k)
  rcases resolveCommits_cases ((SharedResolverState.newForLedger
    h.ledgerId).configureFulltextProperties (h.properties k)) (h.upTo k) with hrun | ⟨⟨e, he⟩, -⟩
  · rw [hcg, hcn] at hrun
    obtain rfl := ok.inj (hs.symm.trans hrun)
    rw [← newForLedger_graphs h.ledgerId]
    refine ⟨hgraphs, ?_⟩
    rw [hok] at hat
    rw [← hgraphs]
    exact hat
  · rw [hs] at he
    cases he

/-- A root with another ledger id cannot be built on: it does not start with the graph it should. -/
lemma NumbersAlike.ledgerId_eq {root : IndexRoot} (hat : h.RootAt k (.ok root))
    (hk : k ≤ h.commits.length) : root.ledgerId = h.ledgerId := by
  obtain ⟨_, _, hok, -⟩ := ha.roots k _ (hat.extended k [] (le_refl k) hk)
  obtain ⟨_, hfrom, -⟩ := bind_eq_ok.1 hok
  by_contra hne
  rw [SharedResolverState.fromIndexRoot, if_neg] at hfrom
  · cases hfrom
  obtain ⟨_, hus, -⟩ := exists_registered_eq (h := h) k
  rw [ha.graphIris_eq hat, hus]
  intro heq
  exact hne (txnMetaGraphIri_inj (Option.some.inj heq)).symm

lemma NumbersAlike.inOrder : h.InOrder checks := by
  obtain ⟨r, _, hrep, hlive, hsame⟩ := ha.registries _ _ (.replayed _ (le_refl _))
  have hn' := numbers_of_live hlive
  have hroom : (systemGraphs h.ledgerId ++ h.sortedUsers h.commits.length).length ≤
      maxGraphs checks := by
    rw [← addNew_replay]
    exact (numbers_newForLedger checks h.ledgerId).room_of_applyDelta rfl hrep
  -- one batch and one commit after the other give the same list
  have hsorted : h.registered h.commits.length =
      systemGraphs h.ledgerId ++ h.sortedUsers h.commits.length := by
    obtain ⟨r₁, h₁, hn₁, -⟩ := (numbers_newForLedger checks h.ledgerId).applyDelta
      ((addNew_replay (h := h) h.commits.length).symm ▸ hroom)
    obtain rfl : r₁ = r := ok.inj (h₁.symm.trans hrep)
    rw [addNew_replay] at hn₁
    exact (hn₁.eq_of_sameIds hn' hsame).symm
  have hasc := ascending_of_registered hsorted
  refine ⟨hasc, ?_, fun hempty => ?_, fun k hk c hc iri hiri => ?_, fun k hpos hk => ?_,
    fun a given pos le => ?_⟩
  · rw [length_append, length_sortedUsers, add_comm] at hroom
    exact hroom
  · have hpos : 0 < h.commits.length := by
      rcases Nat.eq_zero_or_pos h.commits.length with h0 | hpos
      · rw [length_eq_zero_iff] at h0
        rw [users, userGraphs, upTo, h0] at hempty
        simp at hempty
      · exact hpos
    obtain ⟨-, hat⟩ := ha.rebuilt hpos (le_refl _)
    obtain ⟨r₁, -, hok, -⟩ := ha.registries _ _
      (.loaded _ hat (le_refl _) (le_refl _))
    obtain ⟨_, hseed, -⟩ := bind_eq_ok.1 hok
    obtain ⟨_, hus, -⟩ := exists_registered_eq (h := h) h.commits.length
    have hne : (h.registered h.commits.length).isEmpty = false := by
      rw [hus]
      rfl
    rw [GraphRegistry.ofRoot, hne, if_neg (by decide)] at hseed
    exact named_of_seedFromRootIris hseed (mem_registered.2 (.inr hempty))
  · obtain ⟨hroot, -⟩ := ha.rebuilt (succ_pos k) (succ_le_of_lt hk)
    rw [← mem_registered, ← hroot, mem_addNew, upTo_succ hc, mentioned_append, mem_append]
    rw [table_succ hc] at hiri
    refine .inr (.inr ?_)
    rw [mentioned, mentioned, append_nil]
    exact mem_append_right _ hiri
  · obtain ⟨hroot, -⟩ := ha.rebuilt hpos hk
    have hfirst := prefix_addNew (addNew (systemGraphs h.ledgerId) (namedGraphs (h.properties k)))
      (mentioned defaultNamespaceCodes (h.upTo k))
    have hsplit := addNew_append_left (systemGraphs h.ledgerId) [] (namedGraphs (h.properties k))
    rw [append_nil] at hsplit
    rw [hroot, registered_eq_sorted hasc hk, hsplit] at hfirst
    exact (prefix_append_right_inj _).1 hfirst
  · have hat := RootAt.adopted a given pos le
    exact ⟨ha.ledgerId_eq hat le, (ha.graphIris_eq hat).trans (registered_eq_sorted hasc le)⟩

end Conversely

/-- **All ways to number the graphs of a history agree exactly when the history is in order.** -/
theorem numbersAlike_iff (checks : Bool) (h : History Cid) :
    h.NumbersAlike checks ↔ h.InOrder checks :=
  ⟨fun ha => ha.inOrder, fun ho => ho.numbersAlike⟩

def declares (t : ℤ) (iri : String) : Commit Unit Flake where
  id := some ()
  t := t
  time := none
  flakes := []
  parents := []
  txn := none
  namespaceDelta := .empty
  txnSignature := none
  commitSignatures := []
  txnMeta := []
  graphDelta := SortedMap.empty.insert 3 iri
  nsSplitMode := none

/-- The second commit declares a graph below that of the first. -/
def crossed : History Unit := ⟨"db:main", [declares 1 "urn:b", declares 2 "urn:a"], fun _ => [],
  none⟩

/-- **A live ledger has `urn:b` under 3 and `urn:a` under 4; loading it again swaps them.** -/
lemma crossed_renumbers (checks : Bool) :
    (crossed.live checks 2).toOption.map (fun r => [r.graphIdForIri "urn:a", r.graphIdForIri "urn:b"]) =
        some [some 4, some 3] ∧
      ((newForLedger "db:main").loadNovelty checks crossed.commits).toOption.map
          (fun r => [r.graphIdForIri "urn:a", r.graphIdForIri "urn:b"]) = some [some 3, some 4] := by
  cases checks <;> exact ⟨by decide +kernel, by decide +kernel⟩

lemma not_numbersAlike_crossed (checks : Bool) : ¬ crossed.NumbersAlike checks := by
  intro ha
  obtain ⟨r, r', hrep, hlive, hs⟩ := ha.registries 2 _ (.replayed 2 (by decide))
  obtain ⟨h₁, h₂⟩ := crossed_renumbers checks
  have hrep' : (newForLedger "db:main").loadNovelty checks crossed.commits = .ok r := hrep
  rw [hlive] at h₁
  rw [hrep'] at h₂
  have h4 : [r'.graphIdForIri "urn:a", r'.graphIdForIri "urn:b"] = [some 4, some 3] :=
    Option.some.inj h₁
  have h3 : [r.graphIdForIri "urn:a", r.graphIdForIri "urn:b"] = [some 3, some 4] :=
    Option.some.inj h₂
  rw [← hs.ids, ← hs.ids, h3] at h4
  exact absurd h4 (by decide)

/-- A reload numbers the graphs of two commits the other way round. -/
theorem crossed_not_alike : ¬ crossed.NumbersAlike true ∧ ¬ crossed.NumbersAlike false :=
  ⟨not_numbersAlike_crossed true, not_numbersAlike_crossed false⟩

end History

end Fluree.Ledger
