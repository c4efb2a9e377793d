/-!
# Routines that fail with their state

A routine runs from a state to a value or an error and leaves a state either way: what
it did before an error stays done. `Sat x s Q E` says of the run of `x` from `s` that a value and
the state with it satisfy `Q`, and that an error and the state it left satisfy `E`. It is computed
from the routine's text by one rule for each way of putting routines together.
-/

namespace V86

/-- Routines over the states `σ` that may fail with an error in `ε`. -/
abbrev Routine (ε σ : Type) := EStateM ε σ

namespace Routine

variable {ε σ α β : Type} {s s' : σ} {Q : α → σ → Prop} {E : ε → σ → Prop}

/-- Fail unless `ok` holds. -/
def require (ok : Bool) (e : ε) : Routine ε σ Unit := if ok then pure () else throw e

/-- Errors replaced. -/
def mapError (f : ε → ε) (x : Routine ε σ α) : Routine ε σ α := fun s =>
  match x s with
  | .ok a s' => .ok a s'
  | .error e s' => .error (f e) s'

/-- Whether a run ends in a value and a state with `p`. -/
def gives (x : Routine ε σ α) (s : σ) (p : α → σ → Bool) : Bool :=
  match x s with
  | .ok a s' => p a s'
  | .error .. => false

variable {x : Routine ε σ α} {ok : Bool} {e : ε} {f : α → Routine ε σ β} {a : α}

theorem gives_iff {p : α → σ → Bool} :
    gives x s p = true ↔ ∃ a s', x s = .ok a s' ∧ p a s' = true := by
  rw [gives]
  cases x s with
  | ok a s' => exact ⟨fun h => ⟨a, s', rfl, h⟩, fun ⟨_, _, heq, h⟩ => by cases heq; exact h⟩
  | error => simp

/-- What holds of the run of `x` from `s`. -/
def Sat (x : Routine ε σ α) (s : σ) (Q : α → σ → Prop) (E : ε → σ → Prop) : Prop :=
  match x s with
  | .ok a s' => Q a s'
  | .error e s' => E e s'

@[simp] theorem sat_pure (a : α) : Sat (pure a : Routine ε σ α) s Q E ↔ Q a s := .rfl

@[simp] theorem sat_throw (e : ε) : Sat (throw e : Routine ε σ α) s Q E ↔ E e s := .rfl

@[simp] theorem sat_get {Q : σ → σ → Prop} : Sat (get : Routine ε σ σ) s Q E ↔ Q s s := .rfl

@[simp] theorem sat_set {Q : PUnit → σ → Prop} : Sat (set s' : Routine ε σ PUnit) s Q E ↔ Q ⟨⟩ s' :=
  .rfl

@[simp] theorem sat_modify {Q : PUnit → σ → Prop} (f : σ → σ) :
    Sat (modify f : Routine ε σ PUnit) s Q E ↔ Q ⟨⟩ (f s) := .rfl

@[simp] theorem sat_bind (x : Routine ε σ α) (f : α → Routine ε σ β) {Q : β → σ → Prop} :
    Sat (x >>= f) s Q E ↔ Sat x s (fun a s' => Sat (f a) s' Q E) E := by
  rw [Sat, Sat, show (x >>= f) s = EStateM.bind x f s from rfl, EStateM.bind]
  cases x s <;> rfl

@[simp] theorem sat_require {Q : Unit → σ → Prop} :
    Sat (require ok e : Routine ε σ Unit) s Q E ↔ if ok then Q () s else E e s := by
  cases ok <;> rfl

@[simp] theorem sat_mapError {f : ε → ε} :
    Sat (mapError f x) s Q E ↔ Sat x s Q (fun e s' => E (f e) s') := by
  rw [Sat, Sat, mapError]
  cases x s <;> rfl

/-- A branch. -/
theorem sat_ite {c : Prop} [Decidable c] {y : Routine ε σ α} :
    Sat (if c then x else y) s Q E ↔ if c then Sat x s Q E else Sat y s Q E := by
  split <;> rfl

/-- What is known of a run may be weakened. -/
theorem Sat.mono {Q' : α → σ → Prop} {E' : ε → σ → Prop} (h : Sat x s Q E)
    (hQ : ∀ a s', Q a s' → Q' a s') (hE : ∀ e s', E e s' → E' e s') : Sat x s Q' E' := by
  rw [Sat] at h ⊢
  cases hx : x s with
  | ok a s' => rw [hx] at h; exact hQ a s' h
  | error e s' => rw [hx] at h; exact hE e s' h

/-- A run that ends in a value. -/
theorem Sat.of_ok (h : Sat x s Q E) (hx : x s = .ok a s') : Q a s' := by
  rw [Sat, hx] at h
  exact h

theorem sat_of_forall : Sat x s (fun _ _ => True) fun _ _ => True := by
  rw [Sat]
  cases x s <;> trivial

theorem sat_run : Sat x s (fun a s' => x s = .ok a s') fun e s' => x s = .error e s' := by
  rw [Sat]
  cases x s <;> rfl

-- from here on a run is followed by the rules alone
attribute [irreducible] Sat

/-- After a routine of which nothing is known. -/
theorem sat_bind_of_forall {Q : β → σ → Prop}
    (h : ∀ a s', Sat (f a) s' Q fun _ _ => True) : Sat (x >>= f) s Q fun _ _ => True := by
  rw [sat_bind]
  exact sat_of_forall.mono (fun a s' _ => h a s') fun _ _ h => h

/-- After a routine that has given a value. -/
theorem sat_bind_of_ok {Q : β → σ → Prop}
    (h : ∀ a s', x s = .ok a s' → Sat (f a) s' Q fun _ _ => True) :
    Sat (x >>= f) s Q fun _ _ => True := by
  rw [sat_bind]
  exact sat_run.mono h fun _ _ _ => trivial

/-- A run up to a value, and on from it. -/
theorem bind_ok (h : x s = .ok a s') : (x >>= f) s = f a s' := by
  rw [show (x >>= f) s = EStateM.bind x f s from rfl, EStateM.bind, h]

/-- After a requirement that holds. -/
theorem sat_bind_of_require {f : Unit → Routine ε σ β} {Q : β → σ → Prop}
    (h : ok = true → Sat (f ()) s Q fun _ _ => True) :
    Sat (require ok e >>= f) s Q fun _ _ => True := by
  rw [sat_bind, sat_require]
  split
  case isTrue hok => exact h hok
  case isFalse => trivial

/-! ## What a routine leaves as it is -/

/-- `x` leaves the part `f` of the state as it is, whether or not it fails. -/
structure Keeps {γ : Type} (f : σ → γ) (x : Routine ε σ α) : Prop where
  sat : ∀ s, Sat x s (fun _ s' => f s' = f s) (fun _ s' => f s' = f s)

namespace Keeps

variable {γ : Type} {f : σ → γ}

theorem pure (a : α) : Keeps f (Pure.pure a : Routine ε σ α) := ⟨fun _ => (sat_pure a).2 rfl⟩

theorem throw (e : ε) : Keeps f (MonadExcept.throw e : Routine ε σ α) :=
  ⟨fun _ => (sat_throw e).2 rfl⟩

theorem get : Keeps f (MonadState.get : Routine ε σ σ) := ⟨fun _ => sat_get.2 rfl⟩

theorem require (ok : Bool) (e : ε) : Keeps f (Routine.require ok e : Routine ε σ Unit) := by
  refine ⟨fun s => ?_⟩
  rw [sat_require]
  split <;> rfl

variable {x : Routine ε σ α} {g : α → Routine ε σ β}

theorem bind (hx : Keeps f x) (hg : ∀ a, Keeps f (g a)) : Keeps f (x >>= g) := by
  refine ⟨fun s => ?_⟩
  rw [sat_bind]
  refine (hx.sat s).mono (fun a s₁ h₁ => ?_) fun _ _ h => h
  exact ((hg a).sat s₁).mono (fun _ _ h => h.trans h₁) fun _ _ h => h.trans h₁

theorem mapError (g : ε → ε) (hx : Keeps f x) : Keeps f (Routine.mapError g x) := by
  refine ⟨fun s => ?_⟩
  rw [sat_mapError]
  exact hx.sat s

theorem ite {c : Prop} [Decidable c] {y : Routine ε σ α} (hx : Keeps f x) (hy : Keeps f y) :
    Keeps f (if c then x else y) := by
  split
  · exact hx
  · exact hy

theorem of_ok {a : α} (hx : Keeps f x) (h : x s = .ok a s') : f s' = f s :=
  (hx.sat s).of_ok h

/-- The run goes on with the same `f`. -/
theorem sat_bind {Q : β → σ → Prop} (hx : Keeps f x)
    (hg : ∀ a s', f s' = f s → Sat (g a) s' Q fun _ _ => True) :
    Sat (x >>= g) s Q fun _ _ => True := by
  rw [Routine.sat_bind]
  exact (hx.sat s).mono hg fun _ _ _ => trivial

end Keeps

end Routine

end V86
