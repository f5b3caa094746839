import Fluree.Lib.Changes
import Fluree.Lib.Guard
import Fluree.Lib.Slices
import Fluree.Transact.Stage

/-!
# Whether an update deletes first

An update should hold what it inserts, whatever it deletes. The accumulator counts instead: a fact
that is deleted and inserted equally often is not touched, and one that is deleted more often is
retracted. What is deleted and inserted is said over the rows that the WHERE clause emits, before
they are projected (`solutions`).
-/

namespace Fluree.Transact

open Lib Lib.Changes KeyedMap Except

variable {Template Var Binding Fact ε : Type} [DecidableEq Fact] [DecidableEq Var]

section Buckets

variable {set op : Bool} {m : KeyedMap Fact FlakeBucket} {f g : Fact} {l : List Fact}

def countsOf (m : KeyedMap Fact FlakeBucket) (f : Fact) : FlakeBucket := (m.lookup f).getD ⟨0, 0⟩

/-- A count of `u32`. -/
def saturate (n : ℕ) : ℕ := min n (2 ^ 32 - 1)

lemma countOne_saturate (n : ℕ) : countOne (saturate n) = saturate (n + 1) := by
  unfold countOne saturate
  omega

lemma countsOf_push :
    countsOf (pushIntoMixed false op m f) g =
      if g = f then (countsOf m f).add false op else countsOf m g := by
  unfold pushIntoMixed countsOf
  split
  · rename_i b hb
    rw [lookup_insert_ite, hb]
    split <;> rfl
  · rename_i hnone
    rw [lookup_insert_ite, hnone]
    split
    · cases op <;> rfl
    · rfl

variable (op) in
lemma countsOf_pushAll {D I : List Fact} (h : ∀ f, countsOf m f = ⟨saturate (I.count f),
    saturate (D.count f)⟩) (f : Fact) :
    countsOf (l.foldl (pushIntoMixed false op) m) f = ⟨saturate ((if op then I ++ l else I).count f),
      saturate ((if op then D else D ++ l).count f)⟩ := by
  induction l generalizing m D I with
  | nil => rw [List.foldl_nil, h, List.append_nil, List.append_nil, ite_self, ite_self]
  | cons g l ih =>
    have hone (l : List Fact) (f : Fact) : saturate ((l ++ [g]).count f) =
        if f = g then countOne (saturate (l.count g)) else saturate (l.count f) := by
      rw [List.count_append, List.count_singleton, countOne_saturate]
      split
      · rename_i hf
        rw [beq_iff_eq.1 hf, if_pos rfl]
      · rename_i hf
        rw [if_neg fun h => hf (beq_iff_eq.2 h.symm), Nat.add_zero]
    rw [List.foldl_cons]
    cases op with
    | true =>
      refine (ih (D := D) (I := I ++ [g]) fun f => ?_).trans (by rw [List.append_assoc]; rfl)
      rw [countsOf_push, h, h, hone]
      split
      · rename_i hf
        rw [hf]
        rfl
      · rfl
    | false =>
      refine (ih (D := D ++ [g]) (I := I) fun f => ?_).trans (by rw [List.append_assoc]; rfl)
      rw [countsOf_push, h, h, hone]
      split
      · rename_i hf
        rw [hf]
        rfl
      · rfl

lemma mem_finalize_mixed : (f, op) ∈ (FlakeAccumulator.mixed set m).finalize ↔
    if op then (countsOf m f).retractCount < (countsOf m f).assertCount
    else (countsOf m f).assertCount < (countsOf m f).retractCount := by
  have hmem : (f, op) ∈ (FlakeAccumulator.mixed set m).finalize ↔ ∃ b, m.lookup f = some b ∧
      if op then b.retractCount < b.assertCount else b.assertCount < b.retractCount := by
    have hleft (a b : ℕ) : min a b < a ↔ b < a := by omega
    have hright (a b : ℕ) : min a b < b ↔ a < b := by omega
    simp only [FlakeAccumulator.finalize, hleft, hright, List.mem_flatMap, List.mem_append,
      lookup_eq_some_iff]
    constructor
    · rintro ⟨⟨_, b⟩, hb, h | h⟩ <;> split at h
      · cases List.mem_singleton.1 h
        exact ⟨b, hb, ‹_›⟩
      · cases h
      · cases List.mem_singleton.1 h
        exact ⟨b, hb, ‹_›⟩
      · cases h
    · rintro ⟨b, hb, h⟩
      cases op with
      | true => exact ⟨⟨f, b⟩, hb, .inl (if_pos h ▸ List.mem_singleton_self _)⟩
      | false => exact ⟨⟨f, b⟩, hb, .inr (if_pos h ▸ List.mem_singleton_self _)⟩
  rw [hmem]
  unfold countsOf
  cases m.lookup f with
  | none => cases op <;> simp
  | some => simp

end Buckets

def FlakeAccumulator.Holds (acc : FlakeAccumulator Fact) (pureDelete : Bool) (D I : List Fact) :
    Prop :=
  match acc with
  | .pureRetract facts => pureDelete = true ∧ (∀ f, f ∈ facts ↔ f ∈ D) ∧ I = []
  | .mixed set m => pureDelete = false ∧ set = false ∧
    ∀ f, countsOf m f = ⟨saturate (I.count f), saturate (D.count f)⟩

namespace FlakeAccumulator.Holds

variable {acc : FlakeAccumulator Fact} {pureDelete : Bool} {D I d i : List Fact}

lemma pushRetractions (h : acc.Holds pureDelete D I) :
    (acc.pushRetractions d).Holds pureDelete (D ++ d) I := by
  cases acc with
  | pureRetract facts =>
    obtain ⟨hmode, hmem, hI⟩ := h
    refine ⟨hmode, fun f => ?_, hI⟩
    rw [List.mem_append, ← hmem]
    clear hmem
    induction d generalizing facts with
    | nil => simp
    | cons g d ih =>
      rw [List.foldl_cons, ih, List.mem_insert_iff, List.mem_cons]
      tauto
  | mixed =>
    obtain ⟨hmode, rfl, h⟩ := h
    exact ⟨hmode, rfl, countsOf_pushAll false h⟩

lemma pushAssertions (h : acc.Holds false D I) : (acc.pushAssertions i).Holds false D (I ++ i) := by
  cases acc with
  | pureRetract => exact absurd h.1 Bool.false_ne_true
  | mixed =>
    obtain ⟨hmode, rfl, h⟩ := h
    exact ⟨hmode, rfl, countsOf_pushAll true h⟩

lemma mem_finalize (h : acc.Holds pureDelete D I) (f : Fact) (op : Bool) :
    (f, op) ∈ acc.finalize ↔ if op then saturate (D.count f) < saturate (I.count f)
      else saturate (I.count f) < saturate (D.count f) := by
  cases acc with
  | pureRetract =>
    obtain ⟨-, hmem, rfl⟩ := h
    cases op with
    | true => simp [finalize, saturate]
    | false => simp [finalize, hmem, saturate]
  | mixed =>
    obtain ⟨-, rfl, h⟩ := h
    rw [mem_finalize_mixed, h]

end FlakeAccumulator.Holds

section Runs

variable {m : Materializer Template Var Binding Fact ε} {templates : List Template} {base : ℕ}
  {batch : Batch Var Binding} {batches : List (Batch Var Binding)} {vars : List Var}
  {rows rows' : List (Var → Option Binding)} {txn : Txn Template} {pureDelete : Bool}
  {acc acc' : FlakeAccumulator Fact × ℕ} {D I d i : List Fact}

def Batch.solutions (batch : Batch Var Binding) : List (Var → Option Binding) :=
  batch.rows.map batch.get

/-- The solutions of the WHERE clause, and one empty solution when there is none. -/
def solutions (cursor : Option (List (Batch Var Binding))) : List (Var → Option Binding) :=
  cursor.elim [fun _ => none] (·.flatMap Batch.solutions)

/-- No batch without rows loses all its columns in the projection. -/
def KeepsColumns (cursor : Option (List (Batch Var Binding))) (vars : List Var) : Prop :=
  ∀ batches, cursor = some batches → ∀ batch ∈ batches, batch.rows = [] →
    ∃ v ∈ batch.schema, v ∈ vars

omit [DecidableEq Fact] [DecidableEq Var] in
lemma instantiate_append : instantiate m templates base (rows ++ rows') = .ok d ↔
      ∃ d₁ d₂, instantiate m templates base rows = .ok d₁ ∧
        instantiate m templates (base + rows.length) rows' = .ok d₂ ∧ d = d₁ ++ d₂ := by
  simp only [instantiate, List.zipIdx_append, List.mapM_append, bind_eq_ok]
  constructor
  · rintro ⟨_, ⟨l₁, h₁, l₂, h₂, hl⟩, h⟩
    rw [← ok.inj hl, List.flatMap_append] at h
    exact ⟨_, _, ⟨l₁, h₁, rfl⟩, ⟨l₂, h₂, rfl⟩, (ok.inj h).symm⟩
  · rintro ⟨_, _, ⟨l₁, h₁, h⟩, ⟨l₂, h₂, h'⟩, rfl⟩
    refine ⟨l₁ ++ l₂, ⟨l₁, h₁, l₂, h₂, rfl⟩, ?_⟩
    rw [List.flatMap_append, ← ok.inj h, ← ok.inj h']

omit [DecidableEq Fact] [DecidableEq Var] in
lemma instantiate_nil (h : instantiate m [] base rows = .ok d) : d = [] := by
  obtain ⟨_, hflakes, h⟩ := bind_eq_ok.1 h
  have hnone : ∀ row, [].mapM (materializeTemplate m row) = .ok [] := fun _ => rfl
  simp only [hnone] at hflakes
  rw [mapM_eq_ok_map (g := fun _ => []) fun _ _ => rfl] at hflakes
  rw [← ok.inj h, ← ok.inj hflakes]
  exact List.flatMap_eq_nil_iff.2 fun l hl => by obtain ⟨_, _, rfl⟩ := List.mem_map.1 hl; rfl

lemma mem_projectOwned {v : Var} :
    v ∈ (batch.projectOwned vars).schema ↔ v ∈ vars ∧ v ∈ batch.schema := by
  simp [Batch.projectOwned]

omit [DecidableEq Fact] in
/-- A template is the same for the columns of its variables. -/
lemma instantiate_projectOwned (hvars : ∀ t ∈ templates, ∀ v ∈ m.vars t, v ∈ vars) :
    instantiate m templates base (batch.rows.map (batch.projectOwned vars).get) =
      instantiate m templates base batch.solutions := by
  have hget : ∀ row, ∀ t ∈ templates, (m.vars t).map ((batch.projectOwned vars).get row) =
      (m.vars t).map (batch.get row) := by
    intro row t ht
    refine List.map_congr_left fun v hv => ?_
    simp only [Batch.get, mem_projectOwned, hvars t ht v hv, true_and]
  have hmap : ∀ f : Template → Except ε (Option Fact), templates.mapM f =
      (templates.map f).mapM id := fun f => by rw [List.mapM_map, Function.id_comp]
  have hrow : ∀ row n, templates.mapM (materializeTemplate m ((batch.projectOwned vars).get row, n))
      = templates.mapM (materializeTemplate m (batch.get row, n)) := fun row n => by
    rw [hmap, hmap (materializeTemplate m (batch.get row, n))]
    refine congrArg _ (List.map_congr_left fun t ht => ?_)
    rw [materializeTemplate, materializeTemplate, hget row t ht]
  unfold instantiate Batch.solutions
  rw [List.zipIdx_map, List.zipIdx_map, List.mapM_map, List.mapM_map]
  simp only [Function.comp_def, Prod.map, id_eq, hrow]

omit [DecidableEq Fact] in
/-- **A projected batch** gives the instances of its solutions. -/
lemma generateFlakes_projectOwned (hvars : ∀ t ∈ templates, ∀ v ∈ m.vars t, v ∈ vars)
    (hrows : batch.rows = [] → ∃ v ∈ batch.schema, v ∈ vars) :
    generateFlakes m templates base (batch.projectOwned vars) =
      instantiate m templates base batch.solutions := by
  rw [← instantiate_projectOwned hvars, generateFlakes, Batch.templateRows]
  rw [show (batch.projectOwned vars).rows = batch.rows from rfl]
  by_cases hempty : batch.rows = []
  · obtain ⟨v, hv, hmem⟩ := hrows hempty
    have hschema : (batch.projectOwned vars).schema.isEmpty = false :=
      List.isEmpty_eq_false_iff.2 (List.ne_nil_of_mem (mem_projectOwned.2 ⟨hmem, hv⟩))
    simp [hempty, hschema]
  · simp [hempty]

omit [DecidableEq Fact] in
lemma mem_templateVars {t : Template} (ht : t ∈ txn.deleteTemplates ∨
      pureDelete = false ∧ t ∈ txn.insertTemplates) {v : Var} (hv : v ∈ m.vars t) :
    v ∈ templateVars m txn pureDelete := by
  have hmem : t ∈ if pureDelete then txn.deleteTemplates
      else txn.deleteTemplates ++ txn.insertTemplates := by
    rcases ht with ht | ⟨rfl, ht⟩
    · cases pureDelete with
      | true => exact ht
      | false => exact List.mem_append_left _ ht
    · exact List.mem_append_right _ ht
  simp only [templateVars, collectTemplateVars, List.mem_eraseDups, List.mem_flatMap]
  exact ⟨t, hmem, hv⟩

/-- **One batch** adds the instances for its rows. -/
lemma FlakeAccumulator.Holds.streamBatch (h : acc.1.Holds pureDelete D I)
    (hd : generateFlakes m txn.deleteTemplates acc.2
      (batch.projectOwned (templateVars m txn pureDelete)) = .ok d)
    (hi : pureDelete = false → generateFlakes m txn.insertTemplates acc.2
      (batch.projectOwned (templateVars m txn pureDelete)) = .ok i)
    (hnil : pureDelete = true → i = [])
    (hrun : Transact.streamBatch m txn pureDelete acc batch = .ok acc') :
    acc'.1.Holds pureDelete (D ++ d) (I ++ i) ∧ acc'.2 = acc.2 + batch.rows.length := by
  unfold Transact.streamBatch at hrun
  rw [bind_of_ok hd] at hrun
  cases pureDelete with
  | true =>
    rw [hnil rfl, List.append_nil, ← ok.inj hrun]
    exact ⟨h.pushRetractions, rfl⟩
  | false =>
    rw [hi rfl] at hrun
    rw [← ok.inj hrun]
    exact ⟨h.pushRetractions.pushAssertions, rfl⟩

/-- **All batches**, by induction on them. -/
lemma FlakeAccumulator.Holds.stream (h : acc.1.Holds pureDelete D I)
    (hpure : pureDelete = true → txn.insertTemplates = [])
    (hrows : ∀ batch ∈ batches, batch.rows = [] →
      ∃ v ∈ batch.schema, v ∈ templateVars m txn pureDelete)
    (hd : instantiate m txn.deleteTemplates acc.2 (batches.flatMap Batch.solutions) = .ok d)
    (hi : instantiate m txn.insertTemplates acc.2 (batches.flatMap Batch.solutions) = .ok i)
    (hrun : batches.foldlM (Transact.streamBatch m txn pureDelete) acc = .ok acc') :
    acc'.1.Holds pureDelete (D ++ d) (I ++ i) := by
  induction batches generalizing acc D I d i with
  | nil =>
    rw [← ok.inj hd, ← ok.inj hi, ← ok.inj hrun]
    simpa using h
  | cons batch _ ih =>
    obtain ⟨hbatch, hrest⟩ := List.forall_mem_cons.1 hrows
    obtain ⟨_, _, hd₁, hd₂, rfl⟩ := instantiate_append.1 hd
    obtain ⟨_, _, hi₁, hi₂, rfl⟩ := instantiate_append.1 hi
    rw [List.foldlM_cons] at hrun
    obtain ⟨_, hacc, hrun⟩ := bind_eq_ok.1 hrun
    have hlen : batch.solutions.length = batch.rows.length := List.length_map _
    obtain ⟨hholds, hbase⟩ := h.streamBatch
      ((generateFlakes_projectOwned
        (fun t ht v hv => mem_templateVars (.inl ht) hv) hbatch).trans hd₁)
      (fun hp => (generateFlakes_projectOwned
        (fun t ht v hv => mem_templateVars (.inr ⟨hp, ht⟩) hv) hbatch).trans hi₁)
      (fun hp => instantiate_nil (hpure hp ▸ hi₁)) hacc
    rw [hlen, ← hbase] at hd₂ hi₂
    rw [← List.append_assoc, ← List.append_assoc]
    exact ih hholds hrest hd₂ hi₂ hrun

/-- **The whole WHERE clause**, or the one empty solution without one. -/
lemma FlakeAccumulator.Holds.streamWhere {cursor : Option (List (Batch Var Binding))}
    (h : start.Holds pureDelete [] []) (hpure : pureDelete = true → txn.insertTemplates = [])
    (hrows : KeepsColumns cursor (templateVars m txn pureDelete))
    (hd : instantiate m txn.deleteTemplates 0 (Transact.solutions cursor) = .ok D)
    (hi : instantiate m txn.insertTemplates 0 (Transact.solutions cursor) = .ok I)
    (hrun : (whereBatches cursor).foldlM (Transact.streamBatch m txn pureDelete) (start, 0)
      = .ok acc') : acc'.1.Holds pureDelete D I := by
  have h : (start, 0).1.Holds pureDelete [] [] := h
  cases cursor with
  | some batches => exact h.stream hpure (hrows batches rfl) hd hi hrun
  | none =>
    obtain ⟨_, hacc, hrun⟩ := bind_eq_ok.1 hrun
    rw [← ok.inj hrun]
    have hone : ∀ templates, generateFlakes m templates 0
        (Batch.projectOwned ⟨[], []⟩ (templateVars m txn pureDelete)) =
          instantiate m templates 0 [fun _ => none] := fun templates => by
      simp [generateFlakes, Batch.templateRows, Batch.projectOwned]
    exact (h.streamBatch ((hone _).trans hd) (fun _ => (hone _).trans hi)
      (fun hp => instantiate_nil (hpure hp ▸ hi)) hacc).1

end Runs

/-- A template is a number, or the value of the one variable. -/
def numbers : Materializer (Option ℕ) Unit ℕ ℕ Unit where
  vars
    | none => [()]
    | some _ => []
  run
    | none, _, values => .ok values.reduceOption.head?
    | some n, _, _ => .ok (some n)

/-- Delete the values found and insert one value, once for each solution. -/
def replaceAll : Txn (Option ℕ) := ⟨.update, [none], [some 2], false⟩

/-- An update without a WHERE clause that deletes and inserts one fact. -/
def replaceOne : Txn (Option ℕ) := ⟨.update, [some 0], [some 0], false⟩

end Fluree.Transact
