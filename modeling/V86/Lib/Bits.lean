import Mathlib.Algebra.GroupWithZero.Nat
import Mathlib.Data.Nat.Bits

/-!
# Single bits of words

Registers of devices are read and changed one bit at a time, with masks `1 << i`. Each form has
one lemma in terms of `BitVec.getLsbD`.
-/

namespace V86.Bits

open BitVec hiding and_self

variable {w : Nat} {x : BitVec w} {i j : Nat}

/-- The mask of bit `i`. -/
def bit (w i : Nat) : BitVec w := 1#w <<< i

@[simp] theorem getLsbD_bit (w i j : Nat) : (bit w i).getLsbD j = decide (i = j ∧ j < w) := by
  rw [bit, ← twoPow_eq, getLsbD_twoPow]
  by_cases h : i = j
  · subst h
    simp
  · simp [h]

/-- Set a bit. -/
theorem getLsbD_set (hi : i < w) (j : Nat) :
    (x ||| bit w i).getLsbD j = (decide (i = j) || x.getLsbD j) := by
  rw [getLsbD_or, getLsbD_bit]
  by_cases h : i = j
  · subst h
    simp [hi]
  · simp [h]

/-- Clear a bit. -/
theorem getLsbD_clear (x : BitVec w) (i j : Nat) :
    (x &&& ~~~bit w i).getLsbD j = (!decide (i = j) && x.getLsbD j) := by
  rw [getLsbD_and, getLsbD_not, getLsbD_bit]
  by_cases hj : j < w
  · by_cases h : i = j <;> simp [h, hj, Bool.and_comm]
  · simp [getLsbD_of_ge x j (Nat.le_of_not_lt hj)]

theorem getLsbD_set_self (hi : i < w) : (x ||| bit w i).getLsbD i = true := by
  rw [getLsbD_set hi, decide_eq_true rfl, Bool.true_or]

theorem getLsbD_set_ne (h : i ≠ j) : (x ||| bit w i).getLsbD j = x.getLsbD j := by
  rw [getLsbD_or, getLsbD_bit, decide_eq_false fun hij => h hij.1, Bool.or_false]

theorem getLsbD_clear_self : (x &&& ~~~bit w i).getLsbD i = false := by
  rw [getLsbD_clear, decide_eq_true rfl, Bool.not_true, Bool.false_and]

theorem getLsbD_clear_ne (h : i ≠ j) : (x &&& ~~~bit w i).getLsbD j = x.getLsbD j := by
  rw [getLsbD_clear, decide_eq_false h, Bool.not_false, Bool.true_and]

/-- Test a bit. -/
theorem and_bit_eq_zero (hi : i < w) : x &&& bit w i = 0 ↔ x.getLsbD i = false := by
  constructor
  · intro h
    have hbit : (x &&& bit w i).getLsbD i = false := by rw [h]; exact getLsbD_zero
    simpa only [getLsbD_and, getLsbD_bit, hi, and_self, decide_true, Bool.and_true] using hbit
  · intro h
    apply eq_of_getLsbD_eq
    intro j hj
    rw [getLsbD_and, getLsbD_bit]
    by_cases hij : i = j
    · subst hij
      simp [h]
    · simp [hij]

theorem and_bit_eq_bit (hi : i < w) : x &&& bit w i = bit w i ↔ x.getLsbD i = true := by
  constructor
  · intro h
    have hbit : (x &&& bit w i).getLsbD i = true := by rw [h, getLsbD_bit, decide_eq_true ⟨rfl, hi⟩]
    rw [getLsbD_and, Bool.and_eq_true] at hbit
    exact hbit.1
  · intro h
    apply eq_of_getLsbD_eq
    intro j hj
    rw [getLsbD_and, getLsbD_bit]
    by_cases hij : i = j
    · subst hij
      simp [h, hi]
    · simp [hij]

/-- Test two bits at once. -/
theorem and_bits_eq_bit (hi : i < w) (hj : j < w) (hij : i ≠ j) :
    x &&& (bit w i ||| bit w j) = bit w j ↔ x.getLsbD i = false ∧ x.getLsbD j = true := by
  constructor
  · intro h
    have hget : ∀ k, (x.getLsbD k && ((bit w i).getLsbD k || (bit w j).getLsbD k)) =
        (bit w j).getLsbD k := by
      intro k
      rw [← getLsbD_or, ← getLsbD_and, h]
    have h1 := hget i
    have h2 := hget j
    rw [getLsbD_bit, getLsbD_bit, decide_eq_true ⟨rfl, hi⟩, decide_eq_false fun h => hij h.1.symm] at h1
    rw [getLsbD_bit, getLsbD_bit, decide_eq_true (p := j = j ∧ j < w) ⟨rfl, hj⟩] at h2
    simp only [Bool.true_or, Bool.or_true, Bool.and_true] at h1 h2
    exact ⟨h1, h2⟩
  · rintro ⟨h1, h2⟩
    apply eq_of_getLsbD_eq
    intro k hk
    rw [getLsbD_and, getLsbD_or, getLsbD_bit, getLsbD_bit]
    by_cases hki : i = k
    · subst hki
      simp [h1, Ne.symm hij]
    · by_cases hkj : j = k
      · subst hkj
        simp [h2, hk]
      · simp [hki, hkj]

/-- Test the bits of two masks. -/
theorem and_or_eq_or {a b : BitVec w} : x &&& (a ||| b) = a ||| b ↔ x &&& a = a ∧ x &&& b = b := by
  constructor
  · intro h
    have ha : (a ||| b) &&& a = a := by
      ext k hk
      simp only [getElem_and, getElem_or]
      cases a[k] <;> simp
    have hb : (a ||| b) &&& b = b := by
      ext k hk
      simp only [getElem_and, getElem_or]
      cases b[k] <;> simp
    refine ⟨?_, ?_⟩
    · rw [← ha, ← BitVec.and_assoc, h]
    · rw [← hb, ← BitVec.and_assoc, h]
  · rintro ⟨ha, hb⟩
    rw [and_or_distrib_left, ha, hb]

theorem bit_and (i : Nat) (x : BitVec w) : bit w i &&& x = if x.getLsbD i then bit w i else 0 := by
  apply eq_of_getLsbD_eq
  intro j hj
  rw [getLsbD_and, getLsbD_bit]
  by_cases h : i = j
  · subst h
    split
    · next hx => simp [hx]
    · next hx => simp [hx]
  · split <;> simp [h]

end V86.Bits
