import V86.Lib.Runs

/-!
# What still holds of a history

An event may establish facts and retract facts. `Since` says that a fact was established by some
event of a history and retracted by none after it. A cache of such facts is right when everything
it answers holds since: it is enough that a step keeps this (`covered_of_run`).
-/

namespace V86.History

open List

variable {ε α σ : Type} {adds kills : ε → α → Prop} {es : List ε} {e : ε} {a : α}

/-- Some event established `a`, and none after it retracted it. -/
def Since (adds kills : ε → α → Prop) (es : List ε) (a : α) : Prop :=
  ∃ before e after, es = before ++ e :: after ∧ adds e a ∧ ∀ k ∈ after, ¬kills k a

theorem Since.exists_adds (h : Since adds kills es a) : ∃ e ∈ es, adds e a := by
  obtain ⟨before, e, after, rfl, hadds, _⟩ := h
  exact ⟨e, by simp, hadds⟩

/-- After an event that does not establish a fact, the fact was not retracted by it. -/
theorem Since.not_kills (h : Since adds kills (es ++ [e]) a) (hadds : ¬adds e a) : ¬kills e a := by
  obtain ⟨before, f, after, heq, hf, hafter⟩ := h
  rcases eq_nil_or_concat after with rfl | ⟨init, last, rfl⟩
  · rw [← concat_eq_append, ← concat_eq_append] at heq
    exact absurd ((List.concat_inj.1 heq).2 ▸ hf) hadds
  · have hlast : e = last := by
      rw [concat_eq_append, ← cons_append, ← append_assoc, ← concat_eq_append,
        ← concat_eq_append] at heq
      exact (List.concat_inj.1 heq).2
    rw [hlast]
    exact hafter last (by simp)

/-- An event that establishes a fact. -/
theorem Since.of_adds (es : List ε) (h : adds e a) : Since adds kills (es ++ [e]) a :=
  ⟨es, e, [], rfl, h, nofun⟩

/-- An event that does not retract a fact. -/
theorem Since.of_not_kills (h : Since adds kills es a) (hk : ¬kills e a) :
    Since adds kills (es ++ [e]) a := by
  obtain ⟨before, f, after, rfl, hadds, hafter⟩ := h
  refine ⟨before, f, after ++ [e], by simp, hadds, fun k hmem => ?_⟩
  rcases List.mem_append.1 hmem with hmem | hmem
  · exact hafter k hmem
  · rw [List.mem_singleton.1 hmem]
    exact hk

variable {step : σ → ε → σ} {C : σ → ε → Prop} {I : σ → Prop} {covers : σ → α → Prop} {s : σ}

/-- The state after some events. -/
def after (step : σ → ε → σ) (s : σ) (es : List ε) : σ := es.foldl step s

theorem after_append (step : σ → ε → σ) (s : σ) (es es' : List ε) :
    after step s (es ++ es') = after step (after step s es) es' := foldl_append

/-- A cache that answers only what holds since some history: every step that satisfies `C` answers
what it established, or what was answered before and it does not retract. -/
theorem covered_of_run (h : ∀ s e, I s → C s e → I (step s e) ∧
      ∀ a, covers (step s e) a → adds e a ∨ covers s a ∧ ¬kills e a)
    (old : List ε) {es : List ε} (hI : I s) (hC : Runs.Each step C s es)
    (hold : ∀ a, covers s a → Since adds kills old a) :
    I (after step s es) ∧ ∀ a, covers (after step s es) a → Since adds kills (old ++ es) a := by
  induction es generalizing s old with
  | nil =>
    rw [append_nil]
    exact ⟨hI, hold⟩
  | cons e es ih =>
    obtain ⟨hI', hstep⟩ := h s e hI hC.1
    have hnext : ∀ a, covers (step s e) a → Since adds kills (old ++ [e]) a := by
      intro a ha
      rcases hstep a ha with hadds | ⟨hcov, hkills⟩
      · exact .of_adds old hadds
      · exact (hold a hcov).of_not_kills hkills
    have := ih (old ++ [e]) hI' hC.2 hnext
    rwa [append_assoc] at this

/-! ## Histories with states -/

/-- The events of a run, each with the state before it. -/
def trace (step : σ → ε → σ) : σ → List ε → List (σ × ε)
  | _, [] => []
  | s, e :: es => (s, e) :: trace step (step s e) es

theorem trace_append (es es' : List ε) (s : σ) :
    trace step s (es ++ es') = trace step s es ++ trace step (after step s es) es' := by
  induction es generalizing s with
  | nil => rfl
  | cons e es ih => exact congrArg (List.cons _) (ih _)

theorem after_trace (es : List ε) (s : σ) :
    after (fun s p => step s p.2) s (trace step s es) = after step s es := by
  induction es generalizing s with
  | nil => rfl
  | cons e es ih => exact ih (step s e)

theorem each_trace {es : List ε} (h : Runs.Each step C s es) :
    Runs.Each (fun s p => step s p.2) (fun s p => p.1 = s ∧ C s p.2) s (trace step s es) := by
  induction es generalizing s with
  | nil => trivial
  | cons e es ih => exact ⟨⟨rfl, h.1⟩, ih h.2⟩

/-- `covered_of_run`, for facts that an event establishes or retracts in the state before it. -/
theorem covered_of_trace {adds kills : σ × ε → α → Prop} (h : ∀ s e, I s → C s e → I (step s e) ∧
      ∀ a, covers (step s e) a → adds (s, e) a ∨ covers s a ∧ ¬kills (s, e) a)
    {es : List ε} (hI : I s) (hC : Runs.Each step C s es) (hs : ∀ a, ¬covers s a) :
    I (after step s es) ∧ ∀ a, covers (after step s es) a → Since adds kills (trace step s es) a := by
  rw [← after_trace]
  refine covered_of_run (fun s p hI hC => ?_) [] hI (each_trace hC) fun a ha => absurd ha (hs a)
  obtain ⟨s', e⟩ := p
  obtain ⟨rfl, hC⟩ := hC
  exact h _ e hI hC

end V86.History
