import Mathlib.Algebra.GroupWithZero.Nat
import Mathlib.Data.List.GetD

/-!
# Sets of small numbers as 64-bit words

A set of numbers below `64 * words` as a list of 64-bit words, bit `i % 64` of word `i / 64`
telling whether `i` is a member. `contains` reads a member; each operation has one lemma that says
what it does to the members, and two sets of the same length with the same members are equal
(`ext`).
-/

namespace V86

open List BitVec

/-- A bit set, as its words. -/
abbrev Words := List (BitVec 64)

namespace Words

/-- The number of words of a set of numbers below `n` (`n.div_ceil(64)`). -/
def count (n : Nat) : Nat := (n + 63) / 64

def contains (ws : Words) (i : Nat) : Bool := (ws.getD (i / 64) 0).getLsbD (i % 64)

/-- Set one bit. -/
def insert (ws : Words) (i : Nat) : Words := ws.modify (i / 64) (· ||| 1#64 <<< (i % 64))

/-- Word-wise intersection. -/
def inter (ws vs : Words) : Words := List.zipWith (· &&& ·) ws vs

/-- Cut a set to the numbers below `n`: mask the last word. -/
def cut (n : Nat) (ws : Words) : Words :=
  if n % 64 = 0 then ws else ws.modify (ws.length - 1) (· &&& (1#64 <<< (n % 64) - 1#64))

@[simp] theorem length_insert (ws : Words) (i : Nat) : (ws.insert i).length = ws.length := by
  simp [insert]

@[simp] theorem length_cut (n : Nat) (ws : Words) : (cut n ws).length = ws.length := by
  unfold cut
  split <;> simp

variable {ws vs : Words} {i : Nat}

theorem length_inter (h : ws.length = vs.length) : (ws.inter vs).length = ws.length := by
  simp [inter, h]

theorem lt_of_contains (h : ws.contains i = true) : i < 64 * ws.length := by
  refine Nat.lt_of_not_le fun hi => ?_
  have : ws.length ≤ i / 64 := by omega
  rw [contains, getD_eq_default _ _ this] at h
  simp at h

/-- Sets of the same length with the same members are equal. -/
theorem ext (hlen : ws.length = vs.length)
    (h : ∀ i < 64 * ws.length, ws.contains i = vs.contains i) : ws = vs := by
  apply ext_getElem hlen
  intro k h1 h2
  apply eq_of_getLsbD_eq
  intro j hj
  have hk := h (64 * k + j) (by omega)
  have hdiv : (64 * k + j) / 64 = k := by omega
  have hmod : (64 * k + j) % 64 = j := by omega
  rw [contains, contains, hdiv, hmod, getD_eq_getElem _ _ h1, getD_eq_getElem _ _ h2]
    at hk
  exact hk

/-- Reading a set after an update of one word. -/
private theorem contains_modify (ws : Words) (k j : Nat) (f : BitVec 64 → BitVec 64)
    (hk : k < ws.length) : contains (ws.modify k f) j =
      if j / 64 = k then (f (ws.getD k 0)).getLsbD (j % 64) else ws.contains j := by
  have hget : (ws.modify k f).getD (j / 64) 0 =
      if j / 64 = k then f (ws.getD k 0) else ws.getD (j / 64) 0 := by
    simp only [getD_eq_getElem?_getD, List.getElem?_modify]
    by_cases h : k = j / 64
    · subst h
      simp [List.getElem?_eq_getElem hk]
    · have h' : ¬ j / 64 = k := fun he => h he.symm
      simp only [h, h', if_false]
      cases ws[j / 64]? <;> rfl
  rw [contains, hget]
  split <;> simp [contains]

theorem getLsbD_one_shiftLeft (k j : Nat) (hk : k < 64) :
    (1#64 <<< k).getLsbD j = decide (j = k) := by
  rw [getLsbD_shiftLeft, BitVec.getLsbD_one]
  by_cases h : j = k
  · subst h
    simp [hk]
  · have : ¬ (j < 64 ∧ ¬ j < k ∧ j - k = 0) := by omega
    simp only [h, decide_false, Bool.and_eq_false_iff]
    by_cases h1 : j < 64 <;> by_cases h2 : j < k <;> simp_all

theorem contains_insert (hi : i < 64 * ws.length) (j : Nat) :
    (ws.insert i).contains j = (ws.contains j || decide (j = i)) := by
  rw [insert, contains_modify _ _ _ _ (by omega)]
  split
  · next h =>
    rw [getLsbD_or, getLsbD_one_shiftLeft _ _ (by omega), contains, h]
    congr 1
    exact decide_eq_decide.2 (by omega)
  · next h =>
    have : j ≠ i := fun he => h (he ▸ rfl)
    simp [this]

theorem contains_inter (hlen : ws.length = vs.length) (j : Nat) :
    (ws.inter vs).contains j = (ws.contains j && vs.contains j) := by
  rcases Nat.lt_or_ge (j / 64) ws.length with h | h
  · rw [contains, inter, getD_eq_getElem _ _ (by simp; omega), getElem_zipWith,
      getLsbD_and, contains, contains, getD_eq_getElem _ _ h, getD_eq_getElem _ _ (by omega)]
  · rw [contains, getD_eq_default _ _ (by simp [inter]; omega), contains, getD_eq_default _ _ h]
    simp

theorem contains_cut {n : Nat} (hlen : ws.length = max (count n) 1) (j : Nat) :
    (cut n ws).contains j = (ws.contains j && (decide (j < n) || n % 64 == 0)) := by
  unfold cut
  split
  · next h => simp [h]
  · next h =>
    have hcount : count n = n / 64 + 1 := by unfold count; omega
    have hl : ws.length - 1 = n / 64 := by omega
    rw [contains_modify _ _ _ _ (by omega), hl]
    have hne : (n % 64 == 0) = false := by simpa using h
    simp only [hne, Bool.or_false]
    split
    · next hj =>
      have hmask : (1#64 <<< (n % 64) - 1#64).getLsbD (j % 64) = decide (j % 64 < n % 64) := by
        have hpos : 0 < 2 ^ (n % 64) := Nat.pow_pos (by omega)
        have hlt : 2 ^ (n % 64) < 2 ^ 64 := Nat.pow_lt_pow_right (by omega) (by omega)
        have : (1#64 <<< (n % 64) - 1#64).toNat = 2 ^ (n % 64) - 1 := by
          rw [toNat_sub, toNat_shiftLeft]
          simp only [toNat_ofNat, Nat.shiftLeft_eq, Nat.one_mod, Nat.one_mul]
          omega
        rw [BitVec.getLsbD, this, Nat.testBit_two_pow_sub_one]
      rw [getLsbD_and, hmask, contains, hj]
      congr 1
      exact decide_eq_decide.2 (by omega)
    · next hj =>
      by_cases hjn : j < n
      · simp [hjn]
      · have hout : ws.length ≤ j / 64 := by omega
        rw [contains, getD_eq_default _ _ hout]
        simp

theorem contains_replicate_allOnes (k j : Nat) :
    contains (List.replicate k (BitVec.allOnes 64)) j = decide (j < 64 * k) := by
  by_cases h : j / 64 < k
  · rw [contains, getD_eq_getElem _ _ (by simpa using h), List.getElem_replicate, getLsbD_allOnes]
    exact decide_eq_decide.2 (by omega)
  · rw [contains, getD_eq_default _ _ (by simpa using h)]
    symm
    simpa using by omega

theorem contains_replicate_zero (k j : Nat) : contains (List.replicate k 0#64) j = false := by
  by_cases h : j / 64 < k
  · rw [contains, getD_eq_getElem _ _ (by simpa using h), List.getElem_replicate]
    simp
  · rw [contains, getD_eq_default _ _ (by simpa using h)]
    simp

/-! ## The number of members -/

private theorem cpopNatRec_eq_countP (w : BitVec 64) (n : Nat) :
    w.cpopNatRec n 0 = (List.range n).countP w.getLsbD := by
  induction n with
  | zero => rfl
  | succ n ih =>
    rw [cpopNatRec_succ, cpopNatRec_eq, ih, range_succ, countP_append, countP_singleton]
    cases w.getLsbD n <;> rfl

/-- The ones in the words are the members. -/
theorem sum_cpop (ws : Words) :
    (ws.map fun w => w.cpop.toNat).sum = (List.range (64 * ws.length)).countP ws.contains := by
  induction ws with
  | nil => rfl
  | cons w ws ih =>
    have hhead : (List.range 64).countP (contains (w :: ws)) = (List.range 64).countP w.getLsbD := by
      refine countP_congr fun i hi => ?_
      rw [mem_range] at hi
      rw [contains, Nat.div_eq_of_lt hi, Nat.mod_eq_of_lt hi, getD_cons_zero]
    have htail : contains (w :: ws) ∘ (64 + ·) = contains ws := by
      funext i
      have hdiv : (64 + i) / 64 = i / 64 + 1 := by omega
      have hmod : (64 + i) % 64 = i % 64 := by omega
      rw [Function.comp_apply, contains, hdiv, hmod, getD_cons_succ, contains]
    rw [map_cons, sum_cons, ih, toNat_cpop, cpopNatRec_eq_countP,
      length_cons, Nat.mul_succ, Nat.add_comm (64 * ws.length), range_add,
      countP_append, hhead, countP_map, htail]

/-- A proper subset has fewer members. -/
theorem sum_cpop_lt {j : Nat} (hsub : ∀ i, ws.contains i = true → vs.contains i = true)
    (hlen : ws.length = vs.length) (hj : vs.contains j = true) (hnot : ¬ws.contains j = true) :
    (ws.map fun w => w.cpop.toNat).sum < (vs.map fun w => w.cpop.toNat).sum := by
  have hsplit := countP_eq_countP_filter_add (List.range (64 * vs.length)) vs.contains ws.contains
  have hsame : ((List.range (64 * vs.length)).filter ws.contains).countP vs.contains =
      (List.range (64 * vs.length)).countP ws.contains := by
    rw [countP_filter]
    refine countP_congr fun i _ => ?_
    rw [Bool.and_eq_true]
    exact and_iff_right_of_imp (hsub i)
  have hpos : 0 < ((List.range (64 * vs.length)).filter fun i => !ws.contains i).countP vs.contains :=
    List.countP_pos_iff.2 ⟨j, List.mem_filter.2 ⟨List.mem_range.2 (lt_of_contains hj), by simpa using hnot⟩, hj⟩
  rw [sum_cpop, sum_cpop, hlen, hsplit, hsame]
  omega

end Words

end V86
