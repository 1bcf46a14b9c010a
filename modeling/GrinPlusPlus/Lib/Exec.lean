import Mathlib.Data.List.Forall2
import Mathlib.Order.Defs.PartialOrder
import Mathlib.Tactic.Common

/-!
# Computations that keep their state when they stop

A method that throws leaves behind every change it made before the throw. The
computations of this file are therefore `ExceptT` *over* `StateM`: a run from a
state gives a result **and** the state reached, whether the result is a value or
an error.

* `Exec` – the computations, and `Exec.run`, one run of them;
* `Exec.zoom` – a computation on a component, seen on the whole state;
* `Exec.Steps` – the **frame rule**: whatever the outcome, the state before and
  the state after are related by a preorder, for instance by having some part in common
  (`Exec.Same`). One lemma for each construct of the
  language (`Exec.steps_bind`, `Exec.steps_forM`, …) makes a frame condition of a
  whole method a syntactic matter;
* `Exec.Holds` – the two-sided postcondition, one for the values and one for the
  errors, with its rule for sequencing (`Exec.holds_bind`);
* `Exec.Alike` – two runs with the same outcome, with a rule for each construct.
-/

universe u

/-- A computation over a state `σ` that returns an `α` or stops with an `ε`. -/
abbrev Exec (ε σ α : Type) := ExceptT ε (StateM σ) α

namespace Exec

variable {ε σ τ α β : Type}

/-- One run from a state: the outcome, and the state in which it was reached. -/
def run (x : Exec ε σ α) (s : σ) : Except ε α × σ :=
  StateT.run (ExceptT.run x) s

/-- The computation of a function that gives an outcome and a new state. -/
def ofRun (f : σ → Except ε α × σ) : Exec ε σ α :=
  ExceptT.mk (fun s => f s)

/-- The state in which a run ends. -/
def after (x : Exec ε σ α) (s : σ) : σ :=
  (run x s).2

/-! ### What a run of each construct is -/

@[simp] theorem run_ofRun (f : σ → Except ε α × σ) (s : σ) : run (ofRun f) s = f s := rfl

@[simp] theorem run_pure (a : α) (s : σ) : run (pure a : Exec ε σ α) s = (.ok a, s) := rfl

@[simp] theorem run_throw (e : ε) (s : σ) :
    run (throw e : Exec ε σ α) s = (.error e, s) := rfl

@[simp] theorem run_get (s : σ) : run (get : Exec ε σ σ) s = (.ok s, s) := rfl

@[simp] theorem run_set (t s : σ) : run (set t : Exec ε σ Unit) s = (.ok (), t) := rfl

@[simp] theorem run_modify (f : σ → σ) (s : σ) :
    run (modify f : Exec ε σ Unit) s = (.ok (), f s) := rfl

@[simp] theorem run_modifyGet (f : σ → α × σ) (s : σ) :
    run (modifyGet f : Exec ε σ α) s = (.ok (f s).1, (f s).2) := rfl

/-- A sequence runs its second half only when the first half returned. -/
theorem run_bind (x : Exec ε σ α) (f : α → Exec ε σ β) (s : σ) :
    run (x >>= f) s =
      match run x s with
      | (.ok a, t) => run (f a) t
      | (.error e, t) => (.error e, t) := by
  show StateT.run (ExceptT.run (x >>= f)) s = _
  rw [ExceptT.run_bind, StateT.run_bind]
  rcases h : StateT.run (ExceptT.run x) s with ⟨r, t⟩
  cases r with
  | ok a => simp only [run, h]; rfl
  | error e => simp only [run, h]; rfl

theorem run_bind_ok {x : Exec ε σ α} {f : α → Exec ε σ β} {s t : σ} {a : α}
    (h : run x s = (.ok a, t)) : run (x >>= f) s = run (f a) t := by
  rw [run_bind, h]

theorem run_bind_error {x : Exec ε σ α} {f : α → Exec ε σ β} {s t : σ} {e : ε}
    (h : run x s = (.error e, t)) : run (x >>= f) s = (.error e, t) := by
  rw [run_bind, h]

/-- **Inversion of a sequence**: a sequence that returned a value did so through a
value of its first half. -/
theorem of_run_bind_ok {x : Exec ε σ α} {f : α → Exec ε σ β} {s t : σ} {b : β}
    (h : run (x >>= f) s = (.ok b, t)) :
    ∃ a u, run x s = (.ok a, u) ∧ run (f a) u = (.ok b, t) := by
  rw [run_bind] at h
  rcases hx : run x s with ⟨_ | a, u⟩
  · rw [hx] at h
    cases h
  · rw [hx] at h
    exact ⟨a, u, rfl, h⟩

/-- **Inversion of a sequence that stopped**: it did so in one of its halves. -/
theorem of_run_bind_error {x : Exec ε σ α} {f : α → Exec ε σ β} {s t : σ} {e : ε}
    (h : run (x >>= f) s = (.error e, t)) :
    run x s = (.error e, t) ∨ ∃ a u, run x s = (.ok a, u) ∧ run (f a) u = (.error e, t) := by
  rw [run_bind] at h
  rcases hx : run x s with ⟨e' | a, u⟩
  · rw [hx] at h
    cases h
    exact .inl rfl
  · rw [hx] at h
    exact .inr ⟨a, u, rfl, h⟩

/-- A loop runs its first pass, and then the rest. -/
theorem run_forM_cons (f : β → Exec ε σ Unit) (b : β) (l : List β) (s : σ) :
    run ((b :: l).forM f) s = run (f b >>= fun _ => l.forM f) s := rfl

/-- A result that is there was returned. -/
theorem exists_ok_of_isSome {x : Except ε α} (h : x.toOption.isSome = true) :
    ∃ a, x = .ok a := by
  cases x with
  | error e => cases h
  | ok a => exact ⟨a, rfl⟩

/-- A sequence without a state runs its second half on the value of its first. -/
theorem ok_bind (a : α) (f : α → Except ε β) : ((.ok a : Except ε α) >>= f) = f a := rfl

/-- Inversion of a sequence without a state. -/
theorem of_bind_eq_ok {x : Except ε α} {f : α → Except ε β} {b : β} (h : x >>= f = .ok b) :
    ∃ a, x = .ok a ∧ f a = .ok b := by
  cases x with
  | error e => cases h
  | ok a => exact ⟨a, rfl, h⟩

/-- A computation for each element of a list returns when it returns for each of them. -/
theorem mapM_eq_ok_iff {f : α → Except ε β} {as : List α} {bs : List β} :
    as.mapM f = .ok bs ↔ List.Forall₂ (fun a b => f a = .ok b) as bs := by
  induction as generalizing bs with
  | nil =>
    rw [List.mapM_nil, List.forall₂_nil_left_iff]
    exact ⟨fun h => (Except.ok.inj h).symm, fun h => congrArg _ h.symm⟩
  | cons a as ih =>
    rw [List.mapM_cons, List.forall₂_cons_left_iff]
    constructor
    · intro h
      obtain ⟨b, hb, h⟩ := of_bind_eq_ok h
      obtain ⟨rest, hrest, h⟩ := of_bind_eq_ok h
      exact ⟨b, rest, hb, ih.1 hrest, (Except.ok.inj h).symm⟩
    · rintro ⟨b, rest, hb, hrest, rfl⟩
      rw [hb, ih.2 hrest]
      rfl


/-- The pure outcome of a function on the current state, which stays as it is. -/
def ofExcept (x : Except ε α) : Exec ε σ α :=
  ofRun fun s => (x, s)

@[simp] theorem run_ofExcept (x : Except ε α) (s : σ) :
    run (ofExcept x : Exec ε σ α) s = (x, s) := rfl

/-- Replace the state by the value of a function that can fail; a failure leaves the
state as it was. -/
def update (f : σ → Except ε σ) : Exec ε σ Unit :=
  ofRun fun s =>
    match f s with
    | .ok t => (.ok (), t)
    | .error e => (.error e, s)

theorem run_update_ok {f : σ → Except ε σ} {s t : σ} (h : f s = .ok t) :
    run (update f) s = (.ok (), t) := by
  simp only [update, run_ofRun, h]

theorem run_update_error {f : σ → Except ε σ} {s : σ} {e : ε} (h : f s = .error e) :
    run (update f) s = (.error e, s) := by
  simp only [update, run_ofRun, h]

theorem of_run_update_ok {f : σ → Except ε σ} {s t : σ} {a : Unit}
    (h : run (update f) s = (.ok a, t)) : f s = .ok t := by
  simp only [update, run_ofRun] at h
  rcases hf : f s with e | u
  · rw [hf] at h
    cases h
  · rw [hf] at h
    cases h
    rfl

/-! ### Components of the state -/

/-- A component of a state: how to read it and how to replace it. -/
structure Part (σ τ : Type) where
  /-- The component of a state. -/
  get : σ → τ
  /-- The state with another component. -/
  set : τ → σ → σ
  /-- Reading back what was written. -/
  get_set : ∀ t s, get (set t s) = t
  /-- Writing back what was read. -/
  set_get : ∀ s, set (get s) s = s

/-- A computation on a component, seen on the whole state. -/
def zoom (p : Part σ τ) (x : Exec ε τ α) : Exec ε σ α :=
  ofRun fun s => ((run x (p.get s)).1, p.set (run x (p.get s)).2 s)

@[simp] theorem run_zoom (p : Part σ τ) (x : Exec ε τ α) (s : σ) :
    run (zoom p x) s = ((run x (p.get s)).1, p.set (run x (p.get s)).2 s) := rfl

/-! ### The frame rule

`Steps R x` says that every run of `x`, whatever its outcome, ends in a state that is
related by `R` to the one it started from. For a preorder `R` this is compositional. -/

/-- Every run, whatever its outcome, moves along `R`. -/
def Steps (R : σ → σ → Prop) (x : Exec ε σ α) : Prop :=
  ∀ s, R s (run x s).2

/-- Two states with the same part. -/
def Same (p : σ → τ) (s t : σ) : Prop :=
  p t = p s

instance (p : σ → τ) : Std.Refl (Same p) :=
  ⟨fun _ => rfl⟩

instance (p : σ → τ) : IsTrans σ (Same p) :=
  ⟨fun _ _ _ h h' => h'.trans h⟩

/-- What holds of the first state holds of the second. -/
def Keeps (P : σ → Prop) (s t : σ) : Prop :=
  P s → P t

instance (P : σ → Prop) : Std.Refl (Keeps P) :=
  ⟨fun _ h => h⟩

instance (P : σ → Prop) : IsTrans σ (Keeps P) :=
  ⟨fun _ _ _ h h' hs => h' (h hs)⟩

section Steps

variable {R : σ → σ → Prop}

theorem steps_pure [Std.Refl R] (a : α) : Steps R (pure a : Exec ε σ α) :=
  fun s => refl_of R s

theorem steps_throw [Std.Refl R] (e : ε) : Steps R (throw e : Exec ε σ α) :=
  fun s => refl_of R s

theorem steps_get [Std.Refl R] : Steps R (get : Exec ε σ σ) :=
  fun s => refl_of R s

theorem steps_ofExcept [Std.Refl R] (x : Except ε α) : Steps R (ofExcept x : Exec ε σ α) :=
  fun s => refl_of R s

theorem steps_modify {f : σ → σ} (h : ∀ s, R s (f s)) :
    Steps R (modify f : Exec ε σ Unit) :=
  fun s => h s

theorem steps_update [Std.Refl R] {f : σ → Except ε σ} (h : ∀ s t, f s = .ok t → R s t) :
    Steps R (update f) := by
  intro s
  rcases hf : f s with e | t
  · rw [run_update_error hf]
    exact refl_of R s
  · rw [run_update_ok hf]
    exact h s t hf

theorem steps_bind [IsTrans σ R] {x : Exec ε σ α} {f : α → Exec ε σ β}
    (hx : Steps R x) (hf : ∀ a, Steps R (f a)) : Steps R (x >>= f) := by
  intro s
  rw [run_bind]
  have h := hx s
  rcases hr : run x s with ⟨e | a, t⟩
  · rw [hr] at h
    exact h
  · rw [hr] at h
    exact trans_of R h (hf a t)

/-- What comes last in a sequence and leaves a part alone does not matter for it. -/
theorem same_run_bind {p : σ → τ} {x : Exec ε σ α} {f : α → Exec ε σ β}
    (hf : ∀ a, Steps (Same p) (f a)) (s : σ) : p (run (x >>= f) s).2 = p (run x s).2 := by
  rw [run_bind]
  rcases run x s with ⟨e | a, t⟩
  · rfl
  · exact hf a t

theorem steps_ite {c : Prop} [Decidable c] {x y : Exec ε σ α}
    (hx : c → Steps R x) (hy : ¬c → Steps R y) : Steps R (if c then x else y) := by
  by_cases h : c
  · rw [if_pos h]
    exact hx h
  · rw [if_neg h]
    exact hy h

theorem steps_forM [Std.Refl R] [IsTrans σ R] {f : β → Exec ε σ Unit} (l : List β)
    (h : ∀ b ∈ l, Steps R (f b)) : Steps R (l.forM f) := by
  induction l with
  | nil => exact steps_pure _
  | cons b l ih =>
    refine steps_bind (h b (List.mem_cons_self ..)) fun _ => ?_
    exact ih fun c hc => h c (List.mem_cons_of_mem b hc)

end Steps

/-! ### Failing

`Fails R x` only speaks of the runs that stop with an error. What comes last in a method
and cannot stop it (`NeverFails`) does not matter for it. -/

/-- Every run that stops with an error moves along `R`. -/
def Fails (R : σ → σ → Prop) (x : Exec ε σ α) : Prop :=
  ∀ s e t, run x s = (.error e, t) → R s t

/-- No run stops with an error. -/
def NeverFails (x : Exec ε σ α) : Prop :=
  ∀ s e t, run x s ≠ (.error e, t)

section Fails

variable {R : σ → σ → Prop}

theorem Steps.fails {x : Exec ε σ α} (h : Steps R x) : Fails R x := by
  intro s e t ht
  have hs := h s
  rwa [ht] at hs

theorem NeverFails.fails {x : Exec ε σ α} (h : NeverFails x) : Fails R x :=
  fun s e t ht => absurd ht (h s e t)

theorem neverFails_pure (a : α) : NeverFails (pure a : Exec ε σ α) := by
  intro s e t h
  cases h

theorem neverFails_modify (f : σ → σ) : NeverFails (modify f : Exec ε σ Unit) := by
  intro s e t h
  cases h

theorem neverFails_bind {x : Exec ε σ α} {f : α → Exec ε σ β} (hx : NeverFails x)
    (hf : ∀ a, NeverFails (f a)) : NeverFails (x >>= f) := by
  intro s e t h
  rw [run_bind] at h
  rcases hr : run x s with ⟨e' | a, u⟩
  · exact hx s e' u hr
  · rw [hr] at h
    exact hf a u e t h

theorem neverFails_forM {f : β → Exec ε σ Unit} (l : List β) (h : ∀ b ∈ l, NeverFails (f b)) :
    NeverFails (l.forM f) := by
  induction l with
  | nil => exact neverFails_pure _
  | cons b l ih =>
    refine neverFails_bind (h b (List.mem_cons_self ..)) fun _ => ?_
    exact ih fun c hc => h c (List.mem_cons_of_mem b hc)

theorem fails_bind [IsTrans σ R] {x : Exec ε σ α} {f : α → Exec ε σ β} (hx : Steps R x)
    (hf : ∀ a, Fails R (f a)) : Fails R (x >>= f) := by
  intro s e t h
  rw [run_bind] at h
  have hs := hx s
  rcases hr : run x s with ⟨e' | a, u⟩
  · rw [hr] at h hs
    cases h
    exact hs
  · rw [hr] at h hs
    exact trans_of R hs (hf a u e t h)

/-- A computation followed by one that cannot fail. -/
theorem fails_bind_of_neverFails {x : Exec ε σ α} {f : α → Exec ε σ β} (hx : Fails R x)
    (hf : ∀ a, NeverFails (f a)) : Fails R (x >>= f) := by
  intro s e t h
  rw [run_bind] at h
  rcases hr : run x s with ⟨e' | a, u⟩
  · rw [hr] at h
    cases h
    exact hx s _ _ hr
  · rw [hr] at h
    exact absurd h (hf a u e t)

theorem fails_ite {c : Prop} [Decidable c] {x y : Exec ε σ α} (hx : c → Fails R x)
    (hy : ¬c → Fails R y) : Fails R (if c then x else y) := by
  by_cases h : c
  · rw [if_pos h]
    exact hx h
  · rw [if_neg h]
    exact hy h

end Fails

/-! ### Postconditions -/

/-- The two-sided postcondition: `Q` for the values, `E` for the errors. -/
def Holds (x : Exec ε σ α) (s : σ) (Q : α → σ → Prop) (E : ε → σ → Prop) : Prop :=
  match run x s with
  | (.ok a, t) => Q a t
  | (.error e, t) => E e t

section Holds

variable {Q Q' : α → σ → Prop} {E E' : ε → σ → Prop}

theorem holds_iff {x : Exec ε σ α} {s : σ} :
    Holds x s Q E ↔
      (∀ a t, run x s = (.ok a, t) → Q a t) ∧ ∀ e t, run x s = (.error e, t) → E e t := by
  rw [Holds]
  rcases h : run x s with ⟨e | a, t⟩
  · simp
  · simp

theorem holds_mono {x : Exec ε σ α} {s : σ} (h : Holds x s Q E)
    (hQ : ∀ a t, Q a t → Q' a t) (hE : ∀ e t, E e t → E' e t) : Holds x s Q' E' := by
  rw [holds_iff] at h ⊢
  exact ⟨fun a t ht => hQ a t (h.1 a t ht), fun e t ht => hE e t (h.2 e t ht)⟩

theorem holds_bind {x : Exec ε σ β} {f : β → Exec ε σ α} {s : σ} :
    Holds (x >>= f) s Q E ↔ Holds x s (fun b t => Holds (f b) t Q E) E := by
  simp only [Holds, run_bind]
  rcases run x s with ⟨e | b, t⟩
  · rfl
  · rfl

/-- **The loop rule**: an invariant that every pass keeps holds after the last one. -/
theorem holds_forM {f : β → Exec ε σ Unit} {I : List β → σ → Prop} (l : List β) {s : σ}
    (h0 : I l s)
    (hstep : ∀ b l t, I (b :: l) t → Holds (f b) t (fun _ u => I l u) E) :
    Holds (l.forM f) s (fun _ t => I [] t) E := by
  induction l generalizing s with
  | nil => exact h0
  | cons b l ih =>
    have hb : Holds (f b >>= fun _ => l.forM f) s (fun _ t => I [] t) E := by
      rw [holds_bind]
      exact holds_mono (hstep b l s h0) (fun _ t ht => ih ht) fun _ _ he => he
    exact hb

end Holds

/-! ### Two runs

`Alike R x y s t` compares a run of `x` from `s` with a run of `y` from `t`: they have the same
outcome, and end in states that are related by `R`. It is compositional, and shows that a
computation does not depend on what `R` leaves open. -/

/-- Two runs have the same outcome and end in related states. -/
def Alike (R : σ → σ → Prop) (x y : Exec ε σ α) (s t : σ) : Prop :=
  (run x s).1 = (run y t).1 ∧ R (run x s).2 (run y t).2

section Alike

variable {R : σ → σ → Prop} {s t : σ}

theorem alike_pure (h : R s t) (a : α) : Alike R (pure a : Exec ε σ α) (pure a) s t :=
  ⟨rfl, h⟩

theorem alike_throw (h : R s t) (e : ε) : Alike R (throw e : Exec ε σ α) (throw e) s t :=
  ⟨rfl, h⟩

theorem alike_ofExcept (h : R s t) {x y : Except ε α} (hxy : x = y) :
    Alike R (ofExcept x : Exec ε σ α) (ofExcept y) s t :=
  ⟨hxy, h⟩

theorem alike_modify {f g : σ → σ} (h : R (f s) (g t)) :
    Alike R (modify f : Exec ε σ Unit) (modify g) s t :=
  ⟨rfl, h⟩

/-- Both changes fail in the same way, or they lead to related states. -/
theorem alike_update (h : R s t) {f g : σ → Except ε σ}
    (hfg : (∃ e, f s = .error e ∧ g t = .error e) ∨ ∃ u v, f s = .ok u ∧ g t = .ok v ∧ R u v) :
    Alike R (update f) (update g) s t := by
  rcases hfg with ⟨e, hf, hg⟩ | ⟨u, v, hf, hg, huv⟩
  · rw [Alike, run_update_error hf, run_update_error hg]
    exact ⟨rfl, h⟩
  · rw [Alike, run_update_ok hf, run_update_ok hg]
    exact ⟨rfl, huv⟩

/-- Reading the state. -/
theorem alike_get {f g : σ → Exec ε σ α} (h : Alike R (f s) (g t) s t) :
    Alike R (get >>= f) (get >>= g) s t := by
  rwa [Alike, run_bind_ok (run_get s), run_bind_ok (run_get t)]

theorem alike_bind {x y : Exec ε σ α} {f g : α → Exec ε σ β} (hxy : Alike R x y s t)
    (hfg : ∀ a u v, R u v → Alike R (f a) (g a) u v) :
    Alike R (x >>= f) (y >>= g) s t := by
  obtain ⟨hresult, hstate⟩ := hxy
  rw [Alike, run_bind, run_bind]
  rcases hx : run x s with ⟨r, u⟩
  rcases hy : run y t with ⟨r', v⟩
  rw [hx, hy] at hresult hstate
  dsimp only at hresult hstate
  subst hresult
  cases r with
  | error e => exact ⟨rfl, hstate⟩
  | ok a => exact hfg a u v hstate

theorem alike_ite {c : Prop} [Decidable c] {x x' y y' : Exec ε σ α}
    (hx : c → Alike R x x' s t) (hy : ¬c → Alike R y y' s t) :
    Alike R (if c then x else y) (if c then x' else y') s t := by
  split
  · next h => exact hx h
  · next h => exact hy h

theorem alike_forM {f : β → Exec ε σ Unit} (h : ∀ b s t, R s t → Alike R (f b) (f b) s t)
    (l : List β) (hst : R s t) : Alike R (l.forM f) (l.forM f) s t := by
  induction l generalizing s t with
  | nil => exact alike_pure hst ()
  | cons b l ih => exact alike_bind (h b s t hst) fun _ u v huv => ih huv

end Alike

end Exec
