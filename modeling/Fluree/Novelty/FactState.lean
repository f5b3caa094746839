import Fluree.Core.Flake
import Fluree.Lib.AssocMap

/-!
# The current state of facts in novelty

`NoveltyFactState` keeps for each graph and fact identity the operation that decides the
fact's presence: the one with the highest `t`, a retract before an assert of the same `t`.
-/

namespace Fluree

open Lib OrdMap

/-- Fact identity within one graph. -/
structure FactKey where
  s : Sid
  p : Sid
  o : FlakeValue
  dt : Sid
  m : Option FlakeMeta

/-- Component by component. -/
def FactKey.cmp (a b : FactKey) : Ordering :=
  ((((a.s.cmp b.s).then (a.p.cmp b.p)).then (a.o.cmp b.o)).then (a.dt.cmp b.dt)).then
    (cmpOption FlakeMeta.cmp a.m b.m)

lemma FactKey.cmp_self (k : FactKey) : k.cmp k = .eq := by
  simp [FactKey.cmp, Sid.cmp_self, FlakeValue.cmp_self, cmpOption_self FlakeMeta.cmp_self]

def keyOf (f : Flake) : FactKey := ⟨f.s, f.p, f.o, f.dt, f.m⟩

/-- Latest known operation per graph and identity: its time and whether it is an assert. -/
structure NoveltyFactState where
  graphs : List (Option (List (FactKey × (ℤ × Bool))))

namespace NoveltyFactState

def new : NoveltyFactState := ⟨[]⟩

variable (st : NoveltyFactState)

/-- The recorded operation of a fact. -/
def lookup (g : ℕ) (key : FactKey) : Option (ℤ × Bool) := do
  let m ← (← st.graphs[g]?)
  get? FactKey.cmp m key

def isAsserted (g : ℕ) (f : Flake) : Bool := ((st.lookup g (keyOf f)).map Prod.snd).getD false

/-- A flake replaces what is recorded when it is later, or retracts an assert of the same time. -/
def wins (cur : Option (ℤ × Bool)) (f : Flake) : Bool :=
  match cur with
  | some (curT, curOp) => decide (f.t > curT) || (f.t == curT && curOp && !f.op)
  | none => true

def recordIn (m : List (FactKey × (ℤ × Bool))) (f : Flake) : List (FactKey × (ℤ × Bool)) :=
  if wins (get? FactKey.cmp m (keyOf f)) f then
    insert FactKey.cmp m (keyOf f) (f.t, f.op)
  else m

def record (g : ℕ) (f : Flake) : NoveltyFactState :=
  let graphs := st.graphs ++ List.replicate (g + 1 - st.graphs.length) none
  ⟨graphs.modify g (fun m => some (recordIn (m.getD []) f))⟩

end NoveltyFactState

end Fluree
