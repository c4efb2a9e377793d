import Mathlib.Tactic.Common

/-!
# Values at the addresses of a list

`scatter f as bs` is a store `f` with the values of `bs` put at the addresses of `as`, in order; the
values at the addresses of a list are gathered by `as.map f`. What is scattered over distinct
addresses is gathered from them again, and gathering elsewhere does not see it.
-/

namespace V86.Gather

open List

variable {α β : Type*} [DecidableEq α]

def scatter (f : α → β) : List α → List β → α → β
  | a :: as, b :: bs => scatter (Function.update f a b) as bs
  | _, _ => f

variable {f : α → β} {as as' : List α} {bs bs' : List β} {x : α}

@[simp] theorem scatter_nil_left : scatter f [] bs = f := rfl

@[simp] theorem scatter_nil_right : scatter f as [] = f := by cases as <;> rfl

@[simp] theorem scatter_cons {a : α} {b : β} :
    scatter f (a :: as) (b :: bs) = scatter (Function.update f a b) as bs := rfl

theorem scatter_append (h : as.length = bs.length) :
    scatter f (as ++ as') (bs ++ bs') = scatter (scatter f as bs) as' bs' := by
  induction as generalizing f bs with
  | nil =>
    cases bs with
    | nil => rw [nil_append, nil_append, scatter_nil_left]
    | cons b bs => cases h
  | cons a as ih =>
    cases bs with
    | nil => cases h
    | cons b bs =>
      rw [cons_append, cons_append, scatter_cons, scatter_cons, ih (Nat.succ.inj h)]

/-- Nothing is changed at the other addresses. -/
theorem scatter_of_not_mem (h : x ∉ as) : scatter f as bs x = f x := by
  induction as generalizing f bs with
  | nil => rw [scatter_nil_left]
  | cons a as ih =>
    cases bs with
    | nil => rw [scatter_nil_right]
    | cons b bs =>
      rw [scatter_cons, ih fun hx => h (mem_cons_of_mem a hx),
        Function.update_of_ne (ne_of_not_mem_cons h)]

/-- What was scattered is gathered. -/
theorem map_scatter (hnodup : as.Nodup) (h : as.length = bs.length) :
    as.map (scatter f as bs) = bs := by
  induction as generalizing f bs with
  | nil =>
    cases bs with
    | nil => rfl
    | cons b bs => cases h
  | cons a as ih =>
    cases bs with
    | nil => cases h
    | cons b bs =>
      rw [nodup_cons] at hnodup
      rw [map_cons, scatter_cons, ih hnodup.2 (Nat.succ.inj h), scatter_of_not_mem hnodup.1,
        Function.update_self]

/-- From other addresses it is not. -/
theorem map_scatter_of_disjoint (h : ∀ x ∈ as', x ∉ as) : as'.map (scatter f as bs) = as'.map f :=
  map_congr_left fun x hx => scatter_of_not_mem (h x hx)

/-- A store that is another one but for a run of addresses is that one with a run of values. -/
theorem eq_scatter {g : α → β} (hnodup : as.Nodup) (h : as.length = bs.length)
    (hin : as.map g = bs) (hout : ∀ x, x ∉ as → g x = f x) : g = scatter f as bs := by
  funext x
  by_cases hx : x ∈ as
  · have hmap : as.map g = as.map (scatter f as bs) := by rw [hin, map_scatter hnodup h]
    exact List.map_inj_left.1 hmap x hx
  · rw [hout x hx, scatter_of_not_mem hx]

end V86.Gather
