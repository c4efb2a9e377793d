import Mathlib.Logic.Function.Iterate
import Mathlib.Data.List.Basic

/-!
# Simulation of deterministic systems

A system steps from state to state and extends a list of observations as it goes. It performs a
list of events when some number of steps produces it, perhaps with more behind it. A system that
takes one step for each positive number of steps of another one, from related states with the same
observations to such states, performs the same events (`performs_iff`).
-/

namespace V86.Simulation

variable {σ τ ε : Type}

/-- Some number of steps from `s` produces the events `t`. -/
def Performs (step : σ → σ) (out : σ → List ε) (s : σ) (t : List ε) : Prop :=
  ∃ n, t <+: out (step^[n] s)

/-- Observations of a system that only extends them grow with the number of steps. -/
theorem out_mono {step : σ → σ} {out : σ → List ε} (hout : ∀ s, out s <+: out (step s)) {m n : Nat}
    (h : m ≤ n) (s : σ) : out (step^[m] s) <+: out (step^[n] s) := by
  induction h with
  | refl => exact List.prefix_rfl
  | step _ ih =>
    rw [Function.iterate_succ_apply']
    exact ih.trans (hout _)

section
variable {step : σ → σ} {step' : τ → τ} {out : σ → List ε} {out' : τ → List ε} {R : σ → τ → Prop}

/-- Every run of the second system is related to a run of the first one that is at least as
long. -/
theorem run_related (hstep : ∀ s s', R s s' → ∃ n, 0 < n ∧ R (step^[n] s) (step' s')) {s : σ} {s' : τ}
    (h : R s s') : ∀ n, ∃ k, n ≤ k ∧ R (step^[k] s) (step'^[n] s')
  | 0 => ⟨0, Nat.le_refl _, h⟩
  | n + 1 => by
    obtain ⟨k, hk, hR⟩ := run_related hstep h n
    obtain ⟨j, hj, hR'⟩ := hstep _ _ hR
    refine ⟨j + k, by omega, ?_⟩
    rw [Function.iterate_add_apply, Function.iterate_succ_apply']
    exact hR'

/-- Related states of a simulation perform the same events. -/
theorem performs_iff (hout : ∀ s, out s <+: out (step s)) (hR : ∀ s s', R s s' → out s = out' s')
    (hstep : ∀ s s', R s s' → ∃ n, 0 < n ∧ R (step^[n] s) (step' s')) {s : σ} {s' : τ}
    (h : R s s') (t : List ε) : Performs step out s t ↔ Performs step' out' s' t := by
  constructor
  · rintro ⟨n, hn⟩
    obtain ⟨k, hk, hrel⟩ := run_related hstep h n
    have hlong := hn.trans (out_mono hout hk s)
    exact ⟨n, by rwa [hR _ _ hrel] at hlong⟩
  · rintro ⟨n, hn⟩
    obtain ⟨k, _, hrel⟩ := run_related hstep h n
    exact ⟨k, by rwa [hR _ _ hrel]⟩

end

end V86.Simulation
