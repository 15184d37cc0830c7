import PortableImage.Log

/-!
# Opening computations that may fail

A computation that succeeds has had every step of it succeed.  These lemmas take one step off a
successful computation, so that its parts can be named.

* `bind_eq_ok`, `Logged.bind_eq_ok` — a sequence that succeeds.
* `FailsWith` — what a computation that fails can fail with.
-/

set_option autoImplicit false

namespace PortableImage

variable {ε α β : Type}

/-- A sequence succeeds when its first step does, and then the rest. -/
theorem bind_eq_ok {x : Except ε α} {f : α → Except ε β} {b : β} :
    x >>= f = .ok b ↔ ∃ a, x = .ok a ∧ f a = .ok b := by
  cases x with
  | error e => simp [bind, Except.bind]
  | ok a => simp [bind, Except.bind]

/-- A sequence whose first step succeeds is the rest. -/
theorem bind_of_eq_ok {x : Except ε α} {a : α} (h : x = .ok a) (f : α → Except ε β) :
    x >>= f = f a := by
  rw [h]
  rfl

/-- A sequence fails when its first step does, or else the rest. -/
theorem bind_eq_error {x : Except ε α} {f : α → Except ε β} {e : ε} :
    x >>= f = .error e ↔ x = .error e ∨ ∃ a, x = .ok a ∧ f a = .error e := by
  cases x with
  | error e => simp [bind, Except.bind]
  | ok a => simp [bind, Except.bind]

theorem map_eq_ok {x : Except ε α} {f : α → β} {b : β} :
    f <$> x = .ok b ↔ ∃ a, x = .ok a ∧ f a = b := by
  cases x with
  | error e => simp [Functor.map, Except.map]
  | ok a => simp [Functor.map, Except.map]

theorem mapError_eq_ok {ε' : Type} {x : Except ε α} {f : ε → ε'} {a : α} :
    x.mapError f = .ok a ↔ x = .ok a := by
  cases x with
  | error e => exact ⟨nofun, nofun⟩
  | ok b => exact ⟨fun h => congrArg Except.ok (Except.ok.inj h),
      fun h => congrArg Except.ok (Except.ok.inj h)⟩

theorem pure_eq_ok {a b : α} : (pure a : Except ε α) = .ok b ↔ a = b := by
  simp [pure, Except.pure]

theorem toOption_eq_some {x : Except ε α} {a : α} : x.toOption = some a ↔ x = .ok a := by
  cases x <;> simp [Except.toOption]

theorem isSome_toOption {x : Except ε α} : x.toOption.isSome = true ↔ ∃ a, x = .ok a := by
  cases x <;> simp [Except.toOption]

/-- A success that can be evaluated, and what can be evaluated of its result. -/
theorem exists_eq_ok {x : Except ε α} {P : α → Prop} [DecidablePred P]
    (h : (x.toOption.any fun a => P a) = true) : ∃ a, x = .ok a ∧ P a := by
  obtain ⟨a, ha, hP⟩ := (Option.any_eq_true _ _).1 h
  exact ⟨a, toOption_eq_some.1 ha, of_decide_eq_true hP⟩

/-- What a computation fails with, if it fails. -/
def failure? : Except ε α → Option ε
  | .error e => some e
  | .ok _ => none

theorem failure?_eq_some {x : Except ε α} {e : ε} : failure? x = some e ↔ x = .error e := by
  cases x <;> simp [failure?]

@[simp]
theorem Logged.result_liftM (x : Except ε α) : (liftM x : Logged ε α).result = x := rfl

/-- A logged sequence succeeds when its first step does, and then the rest. -/
theorem Logged.bind_eq_ok {x : Logged ε α} {f : α → Logged ε β} {b : β} :
    (x >>= f).result = .ok b ↔ ∃ a, x.result = .ok a ∧ (f a).result = .ok b := by
  rw [result_bind, PortableImage.bind_eq_ok]

/-! ## What a computation fails with -/

/-- Whatever the computation fails with has the property. -/
def FailsWith (P : ε → Prop) (x : Except ε α) : Prop := ∀ e, x = .error e → P e

section FailsWith

variable {P Q : ε → Prop}

@[simp]
theorem failsWith_ok (a : α) : FailsWith P (.ok a) := fun _ h => nomatch h

@[simp]
theorem failsWith_pure (a : α) : FailsWith P (pure a : Except ε α) := fun _ h => nomatch h

@[simp]
theorem failsWith_error (e : ε) : FailsWith P (.error e : Except ε α) ↔ P e :=
  ⟨fun h => h e rfl, fun h _ he => by cases he; exact h⟩

/-- A sequence fails where its first step does, or else where the rest does. -/
@[simp]
theorem failsWith_bind (x : Except ε α) (f : α → Except ε β) :
    FailsWith P (x >>= f) ↔ FailsWith P x ∧ ∀ a, x = .ok a → FailsWith P (f a) := by
  cases x with
  | error e => simp [bind, Except.bind]
  | ok a => simp [bind, Except.bind]

@[simp]
theorem failsWith_map (f : α → β) (x : Except ε α) : FailsWith P (f <$> x) ↔ FailsWith P x := by
  cases x with
  | error e => exact ⟨fun h _ he => by cases he; exact h e rfl, fun h _ he => by cases he; exact h e rfl⟩
  | ok a => exact ⟨fun _ _ he => (nomatch he), fun _ _ he => nomatch he⟩

theorem FailsWith.mono {x : Except ε α} (h : FailsWith P x) (hPQ : ∀ e, P e → Q e) :
    FailsWith Q x :=
  fun e he => hPQ e (h e he)

end FailsWith

end PortableImage
