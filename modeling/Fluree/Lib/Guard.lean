import Fluree.Lib.Reader

/-!
# Steps that may fail

How a sequence of fallible steps ends, by how its first step ends.
-/

namespace Fluree

variable {ε α β : Type}

variable {x : Except ε α} {f : α → Except ε β}

lemma bind_eq_ok {b : β} : (x >>= f) = .ok b ↔ ∃ a, x = .ok a ∧ f a = .ok b := by
  cases x with
  | error => exact ⟨fun h => (nomatch h), fun ⟨_, h, _⟩ => (nomatch h)⟩
  | ok a =>
    refine ⟨fun h => ⟨a, rfl, h⟩, fun ⟨a', ha, h⟩ => ?_⟩
    obtain rfl := Except.ok.inj ha
    exact h

lemma bind_of_ok {a : α} (h : x = .ok a) : (x >>= f) = f a := by
  subst h
  rfl

lemma bind_of_error {e : ε} (h : x = .error e) : (x >>= f) = .error e := by
  subst h
  rfl

end Fluree

/-!
## Programs built in several ways

One program text is built in several ways: with or without overflow checks, with more or less
memory. The strictest build stops where any other goes wrong.

* `Guarded V D safe`: the strict build of `D` stops badly exactly when `safe` fails, and on safe
  inputs every build does what the strict one does. It is closed under sequencing
  (`Guarded.bind`), for readers also under repetition (`GuardedReader.repeatRead`), so the exact
  condition of a program is assembled from those of its steps;
* `Mirrors bad p q rel`: two readers of one format, the first of which refuses more;
* `MirrorsIf bad safe p q rel`: the first one may also stop badly on its own, exactly when `safe`
  fails.
-/

namespace Fluree.Lib

/-- The strict build, the builds compared with it, and the stops that must not happen. -/
structure Variants (ι ε : Type) where
  strict : ι
  loose : ι → Prop
  bad : ε → Prop

variable {ι ε α β : Type} {V : Variants ι ε}

def Avoids (bad : ε → Prop) (x : Except ε α) : Prop := ∀ e, x = .error e → ¬ bad e

variable {bad : ε → Prop}

lemma avoids_ok (a : α) : Avoids bad (.ok a : Except ε α) := fun _ h => nomatch h

lemma avoids_error : Avoids bad (.error e : Except ε α) ↔ ¬ bad e :=
  ⟨fun h => h e rfl, fun h e' he' => by cases he'; exact h⟩

variable {x : Except ε α} {f : α → Except ε β}

lemma avoids_eq_iff : Avoids (· = e) x ↔ x ≠ .error e :=
  ⟨fun h he => h e he rfl, fun h _ he hp => h (hp ▸ he)⟩

lemma avoids_bind : Avoids bad (x >>= f) ↔ Avoids bad x ∧ ∀ a, x = .ok a → Avoids bad (f a) := by
  cases x with
  | error =>
    refine ⟨fun h => ⟨fun e' he' => h e' ?_, fun a ha => nomatch ha⟩, fun h e' he' => h.1 e' ?_⟩
    · cases he'
      rfl
    · cases he'
      rfl
  | ok a =>
    refine ⟨fun h => ⟨avoids_ok a, fun b hb => ?_⟩, fun h => h.2 a rfl⟩
    cases hb
    exact h

lemma Avoids.bind (hx : Avoids bad x) (hf : ∀ a, x = .ok a → Avoids bad (f a)) :
    Avoids bad (x >>= f) := avoids_bind.2 ⟨hx, hf⟩

/-- **The strict build avoids bad stops exactly on safe inputs, where every build agrees with
it.** -/
structure Guarded (V : Variants ι ε) (D : ι → Except ε α) (safe : Prop) : Prop where
  avoids : Avoids V.bad (D V.strict) ↔ safe
  follows : safe → ∀ i, V.loose i → D i = D V.strict

namespace Guarded

variable {D : ι → Except ε α} {safe : Prop}

lemma congr {w : Prop} (h : Guarded V D safe) (hiff : safe ↔ w) : Guarded V D w :=
  ⟨h.avoids.trans hiff, fun hs => h.follows (hiff.2 hs)⟩

lemma self (h : Guarded V D safe) : Guarded V D (Avoids V.bad (D V.strict)) :=
  ⟨Iff.rfl, fun hs => h.follows (h.avoids.1 hs)⟩

lemma fixed (h : Avoids V.bad x) : Guarded V (fun _ => x) True :=
  ⟨iff_of_true h trivial, fun _ _ _ => rfl⟩

variable {E : ι → α → Except ε β} {w : α → Prop}

lemma bind (hD : Guarded V D safe)
    (hE : ∀ a, D V.strict = .ok a → Guarded V (fun i => E i a) (w a)) :
    Guarded V (fun i => D i >>= E i) (safe ∧ ∀ a, D V.strict = .ok a → w a) where
  avoids := by
    rw [avoids_bind, hD.avoids]
    exact and_congr_right fun _ => forall_congr' fun a => forall_congr' fun ha => (hE a ha).avoids
  follows := by
    rintro ⟨hs, hs'⟩ i hi
    rw [hD.follows hs i hi]
    cases h : D V.strict with
    | error => rfl
    | ok a => exact (hE a h).follows (hs' a h) i hi

lemma fixed_bind (h : Avoids V.bad x) (hE : ∀ a, x = .ok a → Guarded V (fun i => E i a) (w a)) :
    Guarded V (fun i => x >>= E i) (∀ a, x = .ok a → w a) :=
  ((fixed h).bind hE).congr (and_iff_right trivial)

lemma bind_fixed (hD : Guarded V D safe) (hf : ∀ a, Avoids V.bad (f a)) :
    Guarded V (fun i => D i >>= f) safe :=
  (hD.bind (E := fun _ => f) fun a _ => fixed (hf a)).congr (and_iff_left fun _ _ => trivial)

end Guarded

/-! ## Readers -/

/-- The rest of a reading is safe, should its first part succeed. -/
def Then (p : Reader ε α) (safe : α → List UInt8 → Prop) (bs : List UInt8) : Prop :=
  ∀ a rest, p.run bs = .ok (a, rest) → safe a rest

/-- Safe readings of `n` values one after the other. -/
def Each (p : Reader ε α) (safe : List UInt8 → Prop) : ℕ → List UInt8 → Prop
  | 0, _ => True
  | n + 1, bs => safe bs ∧ Then p (fun _ rest => Each p safe n rest) bs

def GuardedReader (V : Variants ι ε) (D : ι → Reader ε α) (safe : List UInt8 → Prop) : Prop :=
  ∀ bs, Guarded V (fun i => (D i).run bs) (safe bs)

namespace GuardedReader

variable {D : ι → Reader ε α} {safe : List UInt8 → Prop}

lemma congr {w : List UInt8 → Prop} (h : GuardedReader V D safe)
    (hiff : ∀ bs, safe bs ↔ w bs) : GuardedReader V D w := fun bs => (h bs).congr (hiff bs)

variable {p : Reader ε α}

lemma fixed (h : ∀ bs, Avoids V.bad (p.run bs)) :
    GuardedReader V (fun _ => p) fun _ => True := fun bs => Guarded.fixed (h bs)

lemma pure (a : α) : GuardedReader V (fun _ => Pure.pure a) fun _ => True :=
  fixed fun _ => avoids_ok _

variable {w : α → List UInt8 → Prop} {E : ι → α → Reader ε β}

lemma bind (hD : GuardedReader V D safe) (hE : ∀ a, GuardedReader V (fun i => E i a) (w a)) :
    GuardedReader V (fun i => D i >>= E i) fun bs => safe bs ∧ Then (D V.strict) w bs := by
  intro bs
  have h := (hD bs).bind (E := fun i r => (E i r.1).run r.2) fun r _ => hE r.1 r.2
  exact h.congr (and_congr_right fun _ => Prod.forall)

lemma fixed_bind
    (h : ∀ bs, Avoids V.bad (p.run bs)) (hE : ∀ a, GuardedReader V (fun i => E i a) (w a)) :
    GuardedReader V (fun i => p >>= E i) (Then p w) :=
  ((fixed h).bind hE).congr fun _ => and_iff_right trivial

lemma bind_fixed {f : α → Reader ε β} (hD : GuardedReader V D safe)
    (hf : ∀ a bs, Avoids V.bad ((f a).run bs)) : GuardedReader V (fun i => D i >>= f) safe :=
  (hD.bind (E := fun _ => f) fun a => fixed (hf a)).congr fun _ => and_iff_left fun _ _ _ => trivial

lemma map (hD : GuardedReader V D safe) (g : α → β) :
    GuardedReader V (fun i => D i >>= fun a => Pure.pure (g a)) safe :=
  hD.bind_fixed fun _ _ => avoids_ok _

lemma repeatRead (hD : GuardedReader V D safe) (n : ℕ) :
    GuardedReader V (fun i => Lib.repeatRead (D i) n) (Each (D V.strict) safe n) := by
  induction n with
  | zero => exact GuardedReader.pure []
  | succ n ih => exact hD.bind fun _ => ih.map _

end GuardedReader

/-! ## A reader that refuses more than another -/

/-- What `p` returns, `q` returns in its own form after the same bytes; where `q` does not stop badly,
`p` does so exactly when `safe` fails. -/
def MirrorsIf (bad : ε → Prop) (safe : List UInt8 → Prop) (p : Reader ε α) (q : Reader ε β)
    (rel : α → β → Prop) : Prop :=
  ∀ bs, (Avoids bad (q.run bs) → (Avoids bad (p.run bs) ↔ safe bs)) ∧
    ∀ a rest, p.run bs = .ok (a, rest) → ∃ b, q.run bs = .ok (b, rest) ∧ rel a b

abbrev Mirrors (bad : ε → Prop) (p : Reader ε α) (q : Reader ε β) (rel : α → β → Prop) : Prop :=
  MirrorsIf bad (fun _ => True) p q rel

variable {γ δ : Type} {bad : ε → Prop} {p : Reader ε α} {q : Reader ε β} {rel : α → β → Prop}
  {rel' : γ → δ → Prop} {f : α → Reader ε γ} {g : β → Reader ε δ} {safe : List UInt8 → Prop}
  {w : α → List UInt8 → Prop}

namespace MirrorsIf

lemma congr {safe' : List UInt8 → Prop} (h : MirrorsIf bad safe p q rel)
    (hiff : ∀ bs, safe bs ↔ safe' bs) : MirrorsIf bad safe' p q rel :=
  fun bs => ⟨fun hq => ((h bs).1 hq).trans (hiff bs), (h bs).2⟩

lemma bind (h : MirrorsIf bad safe p q rel)
    (hf : ∀ a b, rel a b → MirrorsIf bad (w a) (f a) (g b) rel') :
    MirrorsIf bad (fun bs => safe bs ∧ Then p w bs) (p >>= f) (q >>= g) rel' := by
  intro bs
  refine ⟨fun hq => ?_, fun c rest hc => ?_⟩
  · rw [StateT.run_bind, avoids_bind] at hq ⊢
    rw [(h bs).1 hq.1]
    refine and_congr_right fun _ => Prod.forall.trans ?_
    refine forall_congr' fun a => forall_congr' fun rest => forall_congr' fun hp => ?_
    obtain ⟨b, hqb, hab⟩ := (h bs).2 a rest hp
    exact (hf a b hab rest).1 (hq.2 (b, rest) hqb)
  · obtain ⟨a, r, hp, hc⟩ := run_bind_eq_ok.1 hc
    obtain ⟨b, hqb, hab⟩ := (h bs).2 a r hp
    rw [run_bind_of_ok hqb]
    exact (hf a b hab r).2 c rest hc

lemma bindMirrors (h : MirrorsIf bad safe p q rel)
    (hf : ∀ a b, rel a b → Mirrors bad (f a) (g b) rel') :
    MirrorsIf bad safe (p >>= f) (q >>= g) rel' :=
  (h.bind hf).congr fun _ => and_iff_left fun _ _ _ => trivial

end MirrorsIf

namespace Mirrors

lemma refl (p : Reader ε α) : Mirrors bad p p Eq :=
  fun _ => ⟨fun h => iff_of_true h trivial, fun a _ h => ⟨a, h, rfl⟩⟩

lemma pure {a : α} {b : β} (h : rel a b) : Mirrors bad (Pure.pure a) (Pure.pure b) rel := by
  refine fun bs => ⟨fun _ => iff_of_true (avoids_ok _) trivial, fun a' rest ha => ?_⟩
  cases ha
  exact ⟨b, rfl, h⟩

lemma bindIf (h : Mirrors bad p q rel)
    (hf : ∀ a b, rel a b → MirrorsIf bad (w a) (f a) (g b) rel') :
    MirrorsIf bad (Then p w) (p >>= f) (q >>= g) rel' :=
  (MirrorsIf.bind h hf).congr fun _ => and_iff_right trivial

lemma bind (h : Mirrors bad p q rel) (hf : ∀ a b, rel a b → Mirrors bad (f a) (g b) rel') :
    Mirrors bad (p >>= f) (q >>= g) rel' := MirrorsIf.bindMirrors h hf

lemma check (hc : ∀ bs, c.run bs = .ok ((), bs) ∨ ∃ e, c.run bs = .error e ∧ ¬ bad e)
    (h : (∃ bs, c.run bs = .ok ((), bs)) → Mirrors bad p q rel) :
    Mirrors bad (c >>= fun _ => p) q rel := by
  intro bs
  rcases hc bs with hok | ⟨e, he, hn⟩
  · rw [run_bind_of_ok hok]
    exact h ⟨bs, hok⟩ bs
  · rw [run_bind_of_error he]
    exact ⟨fun _ => iff_of_true (avoids_error.2 hn) trivial, fun a rest ha => nomatch ha⟩

end Mirrors

lemma MirrorsIf.repeatRead (h : MirrorsIf bad safe p q rel) (n : ℕ) :
    MirrorsIf bad (Each p safe n) (Lib.repeatRead p n) (Lib.repeatRead q n) (List.Forall₂ rel) := by
  induction n with
  | zero => exact Mirrors.pure List.Forall₂.nil
  | succ n ih =>
    exact h.bind fun a b hab => ih.bindMirrors fun l m hlm => .pure (List.Forall₂.cons hab hlm)

end Fluree.Lib
