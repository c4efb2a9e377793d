/-!
# Runs of deterministic machines

A machine takes the actions of a list one after another; `A` says which actions there are. `Each` says something of every step of a
run, in terms of the action and of the state before it. A run keeps an invariant as long as its
steps meet the condition under which a step keeps it, and no longer (`each_iff`).
-/

namespace V86.Runs

variable {σ α : Type} {step : σ → α → σ} {A : α → Prop} {I : σ → Prop} {C G : σ → α → Prop}
  {s : σ}

/-- Every step of the run from `s` satisfies `G`. -/
def Each (step : σ → α → σ) (G : σ → α → Prop) : σ → List α → Prop
  | _, [] => True
  | s, a :: as => G s a ∧ Each step G (step s a) as

theorem Each.of_forall (h : ∀ s a, G s a) : ∀ {as : List α} {s : σ}, Each step G s as
  | [], _ => trivial
  | a :: _, s => ⟨h s a, Each.of_forall h⟩

theorem Each.and {D : σ → α → Prop} : ∀ {as : List α} {s : σ}, Each step C s as →
    Each step D s as → Each step (fun s a => C s a ∧ D s a) s as
  | [], _, _, _ => trivial
  | _ :: _, _, hC, hD => ⟨⟨hC.1, hD.1⟩, Each.and hC.2 hD.2⟩

theorem Each.last {as : List α} {a : α} (h : Each step G s (as ++ [a])) :
    G (as.foldl step s) a := by
  induction as generalizing s with
  | nil => exact h.1
  | cons b as ih => exact ih h.2

/-- Steps that satisfy `C` keep the invariant and satisfy `G`. -/
theorem each_of (h : ∀ s a, A a → I s → C s a → I (step s a) ∧ G s a) :
    ∀ {as : List α} {s : σ}, (∀ a ∈ as, A a) → I s → Each step C s as → Each step G s as
  | [], _, _, _, _ => trivial
  | a :: as, s, hA, hs, hC => by
    obtain ⟨hs', hG⟩ := h s a (hA a List.mem_cons_self) hs hC.1
    exact ⟨hG, each_of h (fun b hb => hA b (List.mem_cons_of_mem _ hb)) hs' hC.2⟩

/-- The state that such steps end in satisfies the invariant. -/
theorem inv_of (h : ∀ s a, A a → I s → C s a → I (step s a) ∧ G s a) {as : List α}
    (hA : ∀ a ∈ as, A a) (hs : I s) (hC : Each step C s as) : I (as.foldl step s) := by
  induction as generalizing s with
  | nil => exact hs
  | cons a as ih =>
    exact ih (fun b hb => hA b (List.mem_cons_of_mem _ hb))
      (h s a (hA a List.mem_cons_self) hs hC.1).1 hC.2

/-- Where a step satisfies `G` exactly under the condition `C`, so does a run. -/
theorem each_iff (h : ∀ s a, A a → I s → C s a → I (step s a) ∧ G s a)
    (h' : ∀ s a, A a → I s → G s a → C s a) {as : List α} (hA : ∀ a ∈ as, A a) (hs : I s) :
    Each step G s as ↔ Each step C s as := by
  refine ⟨fun hG => ?_, each_of h hA hs⟩
  induction as generalizing s with
  | nil => trivial
  | cons a as ih =>
    have ha := hA a List.mem_cons_self
    have hC := h' s a ha hs hG.1
    exact ⟨hC, ih (fun b hb => hA b (List.mem_cons_of_mem _ hb)) (h s a ha hs hC).1 hG.2⟩

/-! ## Answers -/

section
variable {τ β : Type} {ask : σ → α → σ × β} {ask' : τ → α → τ × β} {R : σ → τ → Prop} {t : τ}

/-- The answers of a machine that answers every action. -/
def answers (ask : σ → α → σ × β) : σ → List α → List β
  | _, [] => []
  | s, a :: as => (ask s a).2 :: answers ask (ask s a).1 as

/-- Machines that answer alike and stay related, as long as the first one meets a condition. -/
theorem answers_eq
    (h : ∀ s t a, R s t → C s a → R (ask s a).1 (ask' t a).1 ∧ (ask s a).2 = (ask' t a).2)
    {as : List α} (hR : R s t) (hC : Each (fun s a => (ask s a).1) C s as) :
    answers ask s as = answers ask' t as := by
  induction as generalizing s t with
  | nil => rfl
  | cons a as ih =>
    obtain ⟨hR', hanswer⟩ := h s t a hR hC.1
    rw [answers, answers, hanswer, ih hR' hC.2]

end

end V86.Runs
