import Mathlib.Data.List.Basic

/-!
# Vectors of equal lanes in one bit vector

A bit vector of `n` bits seen as lanes of `w` bits, the first lane in the low bits. `lane` reads
a lane and `ofLanes` assembles a vector from its lanes; a vector is determined by its lanes
(`ofLanes_lane`, `lane_ofLanes`), so a lane-wise operation is understood lane by lane.
-/

namespace V86

variable {n w : Nat}

/-- The bit vector whose bit `i` is `f i`. -/
def ofBits : (n : Nat) → (Nat → Bool) → BitVec n
  | 0, _ => 0#0
  | n + 1, f => (ofBits n f).cons (f n)

theorem getLsbD_ofBits (f : Nat → Bool) (i : Nat) :
    (ofBits n f).getLsbD i = (decide (i < n) && f i) := by
  induction n with
  | zero => simp [ofBits]
  | succ n ih =>
    rw [ofBits, BitVec.getLsbD_cons]
    by_cases h : i = n
    · simp [h]
    · simp only [h, if_false, ih]
      congr 1
      exact decide_eq_decide.2 (by omega)

/-- Lane `i` of a vector of lanes of `w` bits. -/
def lane (w : Nat) (v : BitVec n) (i : Nat) : BitVec w := v.extractLsb' (i * w) w

/-- The vector with the given lanes of `w` bits. -/
def ofLanes (n w : Nat) (f : Nat → BitVec w) : BitVec n :=
  ofBits n fun j => (f (j / w)).getLsbD (j % w)

theorem getLsbD_lane (v : BitVec n) (i j : Nat) :
    (lane w v i).getLsbD j = (decide (j < w) && v.getLsbD (i * w + j)) := by
  simp [lane, BitVec.getLsbD_extractLsb']

theorem getLsbD_ofLanes (f : Nat → BitVec w) (j : Nat) :
    (ofLanes n w f).getLsbD j = (decide (j < n) && (f (j / w)).getLsbD (j % w)) := by
  rw [ofLanes, getLsbD_ofBits]

/-- Reassembling the lanes of a vector gives the vector. -/
theorem ofLanes_lane (hw : 0 < w) (v : BitVec n) : ofLanes n w (lane w v) = v := by
  apply BitVec.eq_of_getLsbD_eq
  intro j hj
  rw [getLsbD_ofLanes, getLsbD_lane, Nat.mul_comm, Nat.div_add_mod]
  simp [hj, Nat.mod_lt j hw]

variable {f : Nat → BitVec w}

/-- The lanes of an assembled vector. -/
theorem lane_ofLanes {i : Nat} (hi : (i + 1) * w ≤ n) : lane w (ofLanes n w f) i = f i := by
  apply BitVec.eq_of_getLsbD_eq
  intro j hj
  have hlt : i * w + j < n := by
    have : (i + 1) * w = i * w + w := Nat.succ_mul i w
    omega
  have hdiv : (i * w + j) / w = i := by
    rw [Nat.mul_comm, Nat.mul_add_div (by omega), Nat.div_eq_of_lt hj, Nat.add_zero]
  have hmod : (i * w + j) % w = j := by
    rw [Nat.mul_comm, Nat.mul_add_mod, Nat.mod_eq_of_lt hj]
  rw [getLsbD_lane, getLsbD_ofLanes, hdiv, hmod]
  simp [hj, hlt]

/-- Vectors assembled from the same lanes are equal. -/
theorem ofLanes_congr {g : Nat → BitVec w} (h : ∀ i, i * w < n → f i = g i) :
    ofLanes n w f = ofLanes n w g := by
  apply BitVec.eq_of_getLsbD_eq
  intro j hj
  rw [getLsbD_ofLanes, getLsbD_ofLanes, h (j / w)]
  exact Nat.lt_of_le_of_lt (Nat.div_mul_le_self j w) hj

/-- A lane-wise operation that returns its operand's lanes returns the operand. -/
theorem ofLanes_eq_self {v : BitVec n} (hw : 0 < w)
    (h : ∀ i, f i = lane w v i) : ofLanes n w f = v := by
  rw [ofLanes_congr fun i _ => h i, ofLanes_lane hw]

/-- A vector with zero lanes is zero. -/
theorem ofLanes_zero (h : ∀ i, f i = 0) : ofLanes n w f = 0 := by
  apply BitVec.eq_of_getLsbD_eq
  intro j _
  rw [getLsbD_ofLanes, h]
  simp

@[simp] theorem lane_zero (i : Nat) : lane w (0 : BitVec n) i = 0 := by
  simp [lane]

end V86
