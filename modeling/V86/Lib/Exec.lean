import Mathlib.Algebra.GroupWithZero.Nat
import Mathlib.Data.List.Basic

/-!
# Runs of imperative code with errors, panics and loops

The modelled programs return `Result`s, index vectors, unwrap options and loop. A run is an
`Exec`: a value, an error with its message, a panic, or a loop that did not end within the fuel
its model gives it. `Exec.Sat E x Q` is the judgement about all of it: the run `x` neither panics
nor runs out of fuel, the message of an error satisfies `E`, and a value satisfies `Q`. The rules
below push it, and `Exec.Gives` for runs that return, through the monad, `List.foldlM` and
`Exec.loop`.
-/

namespace V86

open List

/-- How a run can fail: an error value with its message, a panic (an index out of bounds, an
`unwrap` of nothing), or a loop that outlives the fuel of its model. -/
inductive Fault
  | error (msg : String)
  | panic
  | timeout
  deriving DecidableEq, Repr

/-- A run of fallible code. -/
abbrev Exec (α : Type) := Except Fault α

namespace Exec

variable {α β σ ρ : Type}

/-- Return an error with a message. -/
def fail (msg : String) : Exec α := .error (.error msg)

/-- Succeed exactly when `ok` holds. -/
def require (ok : Bool) (reason : String) : Exec Unit := if ok then .ok () else fail reason

/-- Run a check under a condition. -/
def onlyIf (c : Bool) (x : Exec Unit) : Exec Unit := if c then x else .ok ()

/-- Checked indexing: a panic outside the list. -/
def idx (l : List α) (i : Nat) : Exec α :=
  match l[i]? with
  | some a => .ok a
  | none => .error .panic

/-- Checked assignment to an element: a panic outside the list. -/
def setAt (l : List α) (i : Nat) (a : α) : Exec (List α) :=
  if i < l.length then .ok (l.set i a) else .error .panic

/-- `Option::ok_or`. -/
def okOr (o : Option α) (msg : String) : Exec α :=
  match o with
  | some a => .ok a
  | none => fail msg

/-- `Option::unwrap`. -/
def unwrap (o : Option α) : Exec α :=
  match o with
  | some a => .ok a
  | none => .error .panic

/-- Take `n` units of work from a budget. -/
def spend (msg : String) (work n : Nat) : Exec Nat := if n ≤ work then .ok (work - n) else fail msg

/-- A loop whose body either continues with a new state or breaks with a result. -/
def loop (body : σ → Exec (σ ⊕ ρ)) : Nat → σ → Exec ρ
  | 0, _ => .error .timeout
  | fuel + 1, s =>
    match body s with
    | .ok (.inl s') => loop body fuel s'
    | .ok (.inr r) => .ok r
    | .error e => .error e

/-- The run `x` neither panics nor runs out of fuel, the message of its error satisfies `E` and its
value satisfies `Q`. -/
def Sat (E : String → Prop) (x : Exec α) (Q : α → Prop) : Prop :=
  match x with
  | .ok a => Q a
  | .error (.error msg) => E msg
  | .error _ => False

/-! ## Inversion of successful runs -/

/-- A bind succeeds when both of its parts do. -/
theorem bind_eq_ok {x : Exec α} {f : α → Exec β} {b : β} :
    x >>= f = .ok b ↔ ∃ a, x = .ok a ∧ f a = .ok b := by
  cases x with
  | error e => simp [bind, Except.bind]
  | ok a => simp [bind, Except.bind]

@[simp] theorem ok_bind (a : α) (f : α → Exec β) : (Except.ok a : Exec α) >>= f = f a := rfl

@[simp] theorem pure_eq_ok (a : α) : (pure a : Exec α) = .ok a := rfl

@[simp] theorem error_bind (e : Fault) (f : α → Exec β) :
    (Except.error e : Exec α) >>= f = .error e := rfl

variable {f : σ → α → Exec σ} {msg : String} {u : Unit} {l : List α} {i : Nat} {a : α}
  {o : Option α} {s s' : σ} {pre post : List (α × Nat)} {p : α × Nat}

@[simp] theorem require_eq_ok {ok : Bool} : require ok msg = .ok u ↔ ok = true := by
  unfold require fail
  split <;> simp_all

@[simp] theorem onlyIf_eq_ok {c : Bool} {x : Exec Unit} :
    onlyIf c x = .ok u ↔ (c = true → x = .ok ()) := by
  cases c <;> simp [onlyIf]

@[simp] theorem idx_eq_ok : idx l i = .ok a ↔ l[i]? = some a := by
  unfold idx
  split <;> simp_all

@[simp] theorem idx_cons_zero (a : α) (l : List α) : idx (a :: l) 0 = .ok a := rfl

@[simp] theorem idx_cons_succ (a : α) (l : List α) (i : Nat) : idx (a :: l) (i + 1) = idx l i := by
  simp [idx]

@[simp] theorem setAt_eq_ok {l' : List α} :
    setAt l i a = .ok l' ↔ i < l.length ∧ l' = l.set i a := by
  unfold setAt
  split
  · simp_all [eq_comm]
  · next h => simp [h]

@[simp] theorem okOr_eq_ok : okOr o msg = .ok a ↔ o = some a := by
  cases o <;> simp [okOr, fail]

@[simp] theorem unwrap_eq_ok : unwrap o = .ok a ↔ o = some a := by
  cases o <;> simp [unwrap]

@[simp] theorem spend_eq_ok {work n w : Nat} :
    spend msg work n = .ok w ↔ n ≤ work ∧ w = work - n := by
  unfold spend fail
  split
  · simp_all [eq_comm]
  · next h => simp [h]

/-- An invariant that every successful step keeps holds at the end of a successful fold. The
invariant may speak of the elements already visited. -/
theorem foldlM_ok {I : List α → σ → Prop}
    (hstep : ∀ pre a post s s', l = pre ++ a :: post → I pre s → f s a = .ok s' → I (pre ++ [a]) s')
    (h0 : I [] s) (h : l.foldlM f s = .ok s') : I l s' := by
  suffices ∀ (rest pre : List α) (s : σ), l = pre ++ rest → I pre s →
      rest.foldlM f s = .ok s' → I l s' from this l [] s rfl h0 h
  intro rest
  induction rest with
  | nil =>
    intro pre s hl hI h
    rw [append_nil] at hl
    cases h
    exact hl ▸ hI
  | cons a rest ih =>
    intro pre s hl hI h
    rw [foldlM_cons] at h
    obtain ⟨s₁, h1, h2⟩ := bind_eq_ok.1 h
    exact ih (pre ++ [a]) s₁ (by simp [hl]) (hstep pre a rest s s₁ hl hI h1) h2

/-- When the steps of a successful fold follow a preorder, what a step makes true of its element and
the preorder keeps holds of every element at the end. -/
theorem foldlM_each {R : σ → σ → Prop} {Q : α → σ → Prop} (hrefl : ∀ s, R s s)
    (htrans : ∀ s s' s'', R s s' → R s' s'' → R s s'') (hmono : ∀ a s s', R s s' → Q a s → Q a s')
    (hstep : ∀ a s s', f s a = .ok s' → R s s' ∧ Q a s')
    (h : l.foldlM f s = .ok s') : R s s' ∧ ∀ a ∈ l, Q a s' := by
  refine foldlM_ok (I := fun pre t => R s t ∧ ∀ a ∈ pre, Q a t)
    (fun pre a post t t' _ ht hturn => ?_) ⟨hrefl s, nofun⟩ h
  obtain ⟨hR, hQ⟩ := hstep a t t' hturn
  refine ⟨htrans s t t' ht.1 hR, fun b hb => ?_⟩
  rcases List.mem_append.1 hb with hb | hb
  · exact hmono b t t' hR (ht.2 b hb)
  · exact List.mem_singleton.1 hb ▸ hQ

theorem exists_get (h : i < l.length) : ∃ a, l[i]? = some a :=
  ⟨_, List.getElem?_eq_getElem h⟩

/-- An element of an enumerated list stands at its index. -/
theorem zipIdx_split (h : l.zipIdx = pre ++ p :: post) : p.2 = pre.length ∧ l[p.2]? = some p.1 := by
  have hp : l.zipIdx[pre.length]? = some p := by rw [h]; simp
  rw [List.getElem?_zipIdx] at hp
  obtain ⟨a, ha, rfl⟩ := Option.map_eq_some_iff.1 hp
  simpa using ha

/-- The elements before and after an element of an enumerated list. -/
theorem eq_of_zipIdx_split
    (h : l.zipIdx = pre ++ p :: post) : l = pre.map (·.1) ++ p.1 :: post.map (·.1) := by
  have := congrArg (List.map (·.1)) h
  simpa using this

/-- A fold of checks succeeds exactly when each check does. -/
theorem foldlM_unit_eq_ok {f : α → Exec Unit} :
    ∀ {l : List α} {u : Unit}, l.foldlM (fun _ a => f a) () = .ok u ↔ ∀ a ∈ l, f a = .ok ()
  | [], _ => by simp
  | a :: l, u => by
    rw [foldlM_cons, bind_eq_ok]
    constructor
    · rintro ⟨_, h1, h2⟩ b hb
      rcases List.mem_cons.1 hb with rfl | hb
      · exact h1
      · exact foldlM_unit_eq_ok.1 h2 b hb
    · intro h
      exact ⟨(), h a (by simp), foldlM_unit_eq_ok.2 fun b hb => h b (by simp [hb])⟩

/-- A successful `mapM` is the pointwise map of any function that the runs agree with. -/
theorem mapM_ok {f : α → Exec β} {g : α → β} :
    ∀ {l : List α} {l' : List β}, (∀ a ∈ l, ∀ b, f a = .ok b → b = g a) → l.mapM f = .ok l' →
      l' = l.map g ∧ ∀ a ∈ l, f a = .ok (g a)
  | [], _, _, h => by
    rw [mapM_nil] at h
    cases h
    simp
  | a :: l, l', hg, h => by
    rw [mapM_cons] at h
    obtain ⟨b, h1, h2⟩ := bind_eq_ok.1 h
    obtain ⟨bs, h3, h4⟩ := bind_eq_ok.1 h2
    cases h4
    have hb := hg a (by simp) b h1
    obtain ⟨ih1, ih2⟩ := mapM_ok (fun c hc => hg c (by simp [hc])) h3
    refine ⟨by rw [hb, ih1]; rfl, fun c hc => ?_⟩
    rcases List.mem_cons.1 hc with rfl | hc
    · exact hb ▸ h1
    · exact ih2 c hc

/-- `mapM` of runs that all succeed. -/
theorem mapM_eq_ok {f : α → Exec β} {g : α → β} :
    ∀ {l : List α}, (∀ a ∈ l, f a = .ok (g a)) → l.mapM f = .ok (l.map g)
  | [], _ => rfl
  | a :: l, h => by
    rw [mapM_cons, h a (by simp), ok_bind, mapM_eq_ok fun c hc => h c (by simp [hc])]
    rfl

/-! ## The rules of `Sat` -/

section
variable {E : String → Prop}

variable {a : α} {Q P : α → Prop} {x : Exec α}

theorem Sat.ok (h : Q a) : Sat E (.ok a) Q := h

theorem Sat.fail {msg : String} (h : E msg) : Sat E (Exec.fail msg) Q := h

/-- The value of a run that satisfies `Q` is in `Q`. -/
theorem Sat.of_ok (h : Sat E x Q) (hx : x = .ok a) : Q a := by
  subst hx
  exact h

/-- Weakening of the postcondition; the value is also known to be the run's. -/
theorem Sat.mono (h : Sat E x P) (hPQ : ∀ a, x = .ok a → P a → Q a) : Sat E x Q := by
  match x, h with
  | .ok a, h => exact hPQ a rfl h
  | .error (.error _), h => exact h

/-- Sequencing. -/
theorem Sat.bind {f : α → Exec β} {Q : β → Prop} (h : Sat E x P)
    (hf : ∀ a, x = .ok a → P a → Sat E (f a) Q) : Sat E (x >>= f) Q := by
  match x, h with
  | .ok a, h => exact hf a rfl h
  | .error (.error _), h => exact h

theorem Sat.setAt {l : List α} {i : Nat} {a : α} (h : i < l.length) :
    Sat E (setAt l i a) fun l' => l' = l.set i a := by
  unfold Exec.setAt
  rw [if_pos h]
  rfl

theorem Sat.spend {msg : String} {work n : Nat} (h : E msg) :
    Sat E (spend msg work n) fun _ => True := by
  unfold Exec.spend
  split
  · trivial
  · exact h

/-- An invariant that every step keeps holds at the end of a fold, which does not panic. -/
theorem Sat.foldlM {f : σ → α → Exec σ} {l : List α} {I : List α → σ → Prop} {s : σ}
    (hstep : ∀ pre a post s, l = pre ++ a :: post → I pre s → Sat E (f s a) (I (pre ++ [a])))
    (h0 : I [] s) : Sat E (l.foldlM f s) (I l) := by
  suffices ∀ (rest pre : List α) (s : σ), l = pre ++ rest → I pre s →
      Sat E (rest.foldlM f s) (I l) from this l [] s rfl h0
  intro rest
  induction rest with
  | nil =>
    intro pre s hl hI
    rw [append_nil] at hl
    exact hl ▸ hI
  | cons a rest ih =>
    intro pre s hl hI
    rw [foldlM_cons]
    exact (hstep pre a rest s hl hI).bind fun s₁ _ h1 => ih (pre ++ [a]) s₁ (by simp [hl]) h1

/-- A loop that keeps an invariant and decreases a measure ends within its fuel. -/
theorem Sat.loop {body : σ → Exec (σ ⊕ ρ)} {I : σ → Prop} {Q : ρ → Prop} (m : σ → Nat)
    (hbody : ∀ s, I s → Sat E (body s) (Sum.elim (fun s' => I s' ∧ m s' < m s) Q)) :
    ∀ {fuel : Nat} {s : σ}, I s → m s < fuel → Sat E (loop body fuel s) Q
  | 0, _, _, h => absurd h (Nat.not_lt_zero _)
  | fuel + 1, s, hI, h => by
    have hb := hbody s hI
    unfold Exec.loop
    split
    · next s' hs =>
      rw [hs] at hb
      exact Sat.loop m hbody hb.1 (by have := hb.2; omega)
    · next r hs =>
      rw [hs] at hb
      exact hb
    · next e hs =>
      rw [hs] at hb
      match e, hb with
      | .error _, h => exact h

end

/-- An invariant of the successful turns of a loop holds where the loop breaks. -/
theorem loop_ok {body : σ → Exec (σ ⊕ ρ)} {I : σ → Prop}
    (hstep : ∀ s s', I s → body s = .ok (.inl s') → I s') :
    ∀ {fuel : Nat} {s : σ} {r : ρ}, I s → loop body fuel s = .ok r →
      ∃ s', I s' ∧ body s' = .ok (.inr r)
  | fuel + 1, s, r, hI, h => by
    unfold Exec.loop at h
    split at h
    · next s' hs => exact loop_ok hstep (hstep s s' hI hs) h
    · next r' hs =>
      cases h
      exact ⟨s, hI, hs⟩
    · cases h

/-! ## Runs that end -/

/-- The run `x` does not run out of fuel. -/
def Ends (x : Exec α) : Prop := x ≠ .error .timeout

theorem Ends.ok (a : α) : Ends (.ok a) := nofun

theorem Ends.fail (msg : String) : Ends (Exec.fail msg : Exec α) := nofun

variable {x : Exec α} {f : α → Exec β} {a : α} {Q P : α → Prop}

theorem Ends.bind (h : Ends x) (hf : ∀ a, Ends (f a)) : Ends (x >>= f) := by
  cases x with
  | error e => exact fun heq => h (congrArg Except.error (Except.error.inj heq))
  | ok a => exact hf a

theorem Ends.require (ok : Bool) (msg : String) : Ends (require ok msg) := by
  cases ok with
  | true => exact .ok ()
  | false => exact .fail msg

theorem Ends.idx (l : List α) (i : Nat) : Ends (idx l i) := by
  unfold Exec.idx
  cases l[i]? with
  | none => exact nofun
  | some a => exact .ok a

theorem Ends.setAt (l : List α) (i : Nat) (a : α) : Ends (setAt l i a) := by
  unfold Exec.setAt
  split
  · exact .ok _
  · exact nofun

theorem Ends.unwrap (o : Option α) : Ends (unwrap o) := by
  cases o with
  | none => exact nofun
  | some a => exact .ok a

theorem Ends.spend (msg : String) (work n : Nat) : Ends (spend msg work n) := by
  unfold Exec.spend
  split
  · exact .ok _
  · exact .fail msg

theorem Ends.mapM (h : ∀ a, Ends (f a)) (l : List α) : Ends (l.mapM f) := by
  induction l with
  | nil => exact .ok []
  | cons a l ih =>
    rw [mapM_cons]
    exact (h a).bind fun b => ih.bind fun bs => .ok (b :: bs)

theorem Ends.foldlM {f : σ → α → Exec σ} (h : ∀ s a, Ends (f s a)) (l : List α) (s : σ) :
    Ends (l.foldlM f s) := by
  induction l generalizing s with
  | nil => exact .ok s
  | cons a l ih =>
    rw [foldlM_cons]
    exact (h s a).bind ih

/-- A loop ends when a turn that does not break decreases a measure below its fuel. -/
theorem Ends.loop {body : σ → Exec (σ ⊕ ρ)} (m : σ → Nat) (h : ∀ s, Ends (body s))
    (hless : ∀ s s', body s = .ok (.inl s') → m s' < m s) :
    ∀ {fuel : Nat} {s : σ}, m s < fuel → Ends (loop body fuel s)
  | 0, _, hm => absurd hm (Nat.not_lt_zero _)
  | fuel + 1, s, hm => by
    unfold Exec.loop
    cases hbody : body s with
    | error e => exact fun heq => h s (hbody.trans (congrArg Except.error (Except.error.inj heq)))
    | ok next =>
      cases next with
      | inl s' =>
        have hs' := hless s s' hbody
        exact Ends.loop m h hless (by omega)
      | inr r => exact .ok r

/-! ## Runs that return -/

/-- The run `x` returns a value, and the value satisfies `Q`. -/
def Gives (x : Exec α) (Q : α → Prop) : Prop := ∃ a, x = .ok a ∧ Q a

theorem Gives.ok (h : Q a) : Gives (.ok a) Q := ⟨a, rfl, h⟩

theorem Gives.eq_ok (h : Gives x (· = a)) : x = .ok a := by
  obtain ⟨_, h1, rfl⟩ := h
  exact h1

theorem Gives.mono (h : Gives x P) (hPQ : ∀ a, P a → Q a) : Gives x Q :=
  have ⟨a, h1, h2⟩ := h
  ⟨a, h1, hPQ a h2⟩

theorem Gives.bind {Q : β → Prop} (h : Gives x P)
    (hf : ∀ a, P a → Gives (f a) Q) : Gives (x >>= f) Q := by
  obtain ⟨a, rfl, h2⟩ := h
  exact hf a h2

/-- An invariant that every step keeps holds at the end of a fold, which returns. -/
theorem Gives.foldlM {f : σ → α → Exec σ} {l : List α} {I : List α → σ → Prop} {s : σ}
    (hstep : ∀ pre a post s, l = pre ++ a :: post → I pre s → Gives (f s a) (I (pre ++ [a])))
    (h0 : I [] s) : Gives (l.foldlM f s) (I l) := by
  suffices ∀ (rest pre : List α) (s : σ), l = pre ++ rest → I pre s →
      Gives (rest.foldlM f s) (I l) from this l [] s rfl h0
  intro rest
  induction rest with
  | nil =>
    intro pre s hl hI
    rw [append_nil] at hl
    exact .ok (hl ▸ hI)
  | cons a rest ih =>
    intro pre s hl hI
    rw [foldlM_cons]
    exact (hstep pre a rest s hl hI).bind fun s₁ h1 => ih (pre ++ [a]) s₁ (by simp [hl]) h1

/-- A loop whose turns return, keep an invariant and decrease a measure returns. -/
theorem Gives.loop {body : σ → Exec (σ ⊕ ρ)} {I : σ → Prop} {Q : ρ → Prop} (m : σ → Nat)
    (hbody : ∀ s, I s → Gives (body s) (Sum.elim (fun s' => I s' ∧ m s' < m s) Q)) :
    ∀ {fuel : Nat} {s : σ}, I s → m s < fuel → Gives (loop body fuel s) Q
  | 0, _, _, h => absurd h (Nat.not_lt_zero _)
  | fuel + 1, s, hI, h => by
    obtain ⟨t, ht, hb⟩ := hbody s hI
    cases t with
    | inl s' =>
      rw [Exec.loop, ht]
      exact Gives.loop m hbody hb.1 (by have := hb.2; omega)
    | inr r =>
      rw [Exec.loop, ht]
      exact ⟨r, rfl, hb⟩

/-- A run that returns satisfies what its value satisfies. -/
theorem Gives.sat {E : String → Prop} (h : Gives x Q) : Sat E x Q := by
  obtain ⟨a, rfl, h2⟩ := h
  exact h2

end Exec

end V86
