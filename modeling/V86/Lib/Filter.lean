import V86.Lib.Bits

/-!
# Filters of bits

A set of small numbers as words of 64 bits. What was marked is in the filter until it is cleared.
-/

namespace V86

/-- Words of 64 bits. -/
abbrev Filter (n : Nat) := Fin n → BitVec 64

namespace Filter

open Bits

variable {n : Nat}

/-- Nothing is marked. -/
def empty : Filter n := fun _ => 0

/-- Everything is marked. -/
def full : Filter n := fun _ => BitVec.allOnes 64

/-- Mark a bit of a word. -/
def mark (f : Filter n) (p : Fin n × BitVec 64) : Filter n :=
  fun i => if i = p.1 then f i ||| p.2 else f i

/-- Is a bit marked? -/
def has (f : Filter n) (p : Fin n × BitVec 64) : Bool := f p.1 &&& p.2 != 0

variable {f : Filter n} {i : Fin n} {j : Nat}

theorem has_iff (hj : j < 64) : f.has (i, bit 64 j) = true ↔ (f i).getLsbD j = true := by
  unfold has
  rw [bne_iff_ne, Ne, and_bit_eq_zero hj, Bool.not_eq_false]

theorem has_mark_self (f : Filter n) (hj : j < 64) :
    (f.mark (i, bit 64 j)).has (i, bit 64 j) = true := by
  rw [has_iff hj, mark, if_pos rfl]
  exact getLsbD_set_self hj

theorem has_mark (hj : j < 64) (p : Fin n × BitVec 64)
    (h : f.has (i, bit 64 j) = true) : (f.mark p).has (i, bit 64 j) = true := by
  rw [has_iff hj] at h ⊢
  unfold mark
  split
  · rw [BitVec.getLsbD_or, h, Bool.true_or]
  · exact h

theorem has_full (hj : j < 64) : (full : Filter n).has (i, bit 64 j) = true := by
  rw [has_iff hj, full, BitVec.getLsbD_allOnes, decide_eq_true hj]

end Filter

end V86
