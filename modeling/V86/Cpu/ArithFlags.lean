import V86.Cpu.Arith
import V86.Lib.Bits

/-!
# The flags that an operation leaves

The getters as single bits of the flags word and of what lazy flags are computed from, and from this
the six flags after each kind of operation.
-/

namespace V86.Arith

open BitVec

/-! ## Bits -/

variable {k w : Nat}

theorem ne_zero_eq_getLsbD (x : BitVec 32) (hk : k < 32) :
    decide (x &&& Bits.bit 32 k ≠ 0) = x.getLsbD k := by
  cases h : x.getLsbD k
  · exact decide_eq_false (not_not_intro ((Bits.and_bit_eq_zero hk).2 h))
  · refine decide_eq_true fun h0 => ?_
    rw [(Bits.and_bit_eq_zero hk).1 h0] at h
    cases h

theorem low_bit (x : BitVec 32) (hk : k < 32) :
    decide (x.sshiftRight k &&& 1 ≠ 0) = x.getLsbD k := by
  refine (ne_zero_eq_getLsbD (k := 0) _ (by decide)).trans ?_
  rw [getLsbD_sshiftRight]
  simp [hk]

/-- A flag that is computed if a bit says so, and is in the flags word if not. -/
theorem lazy_bit (hk : k < 32) (changed flags : BitVec 32) (b : Bool) :
    (if changed &&& Bits.bit 32 k ≠ 0 then b else decide (flags &&& Bits.bit 32 k ≠ 0)) =
      if changed.getLsbD k then b else flags.getLsbD k := by
  rw [ne_zero_eq_getLsbD flags hk, ← ne_zero_eq_getLsbD changed hk]
  simp only [decide_eq_true_eq]

/-- The mask that is all ones if the highest bit is set. -/
theorem sshiftRight_31 (x : BitVec 32) :
    x.sshiftRight 31 = if x.getLsbD 31 then BitVec.allOnes 32 else 0 := by
  apply eq_of_getLsbD_eq
  intro i hi
  rw [getLsbD_sshiftRight, msb_eq_getLsbD_last]
  have hbit : ∀ b : Bool, (if b then BitVec.allOnes 32 else 0).getLsbD i = b := by
    intro b
    cases b
    · exact getLsbD_zero
    · rw [if_pos rfl, getLsbD_allOnes, decide_eq_true hi]
  rw [hbit]
  split
  · obtain rfl : i = 0 := by omega
    simp
  · simp [hi]

/-- The half of a power of two. -/
theorem exists_half (hw : 0 < w) : ∃ n, 2 ^ w = 2 * n ∧ 2 ^ (w - 1) = n :=
  ⟨2 ^ (w - 1), by rw [← Nat.pow_succ', Nat.succ_eq_add_one, Nat.sub_add_cancel hw], rfl⟩

/-- The lowest bit that is set is below the highest one, unless there is none. -/
theorem zero_bit (hw : 0 < w) (x : BitVec w) : (~~~x &&& (x - 1)).getLsbD (w - 1) = (x == 0) := by
  obtain ⟨n, hn⟩ := exists_half hw
  have hx := x.isLt
  have h1 : (1 : BitVec w).toNat = 1 := by simp; omega
  have hsub : (x - 1).toNat = if x.toNat = 0 then 2 ^ w - 1 else x.toNat - 1 := by
    rw [toNat_sub, h1]
    split
    · next h => rw [h, Nat.add_zero, Nat.mod_eq_of_lt (by omega)]
    · rw [show 2 ^ w - 1 + x.toNat = (x.toNat - 1) + 2 ^ w by omega, Nat.add_mod_right,
        Nat.mod_eq_of_lt (by omega)]
  have h0 : (x == 0) = decide (x.toNat = 0) := by
    rw [Bool.eq_iff_iff, beq_iff_eq, decide_eq_true_iff, toNat_eq]
    simp
  rw [← msb_eq_getLsbD_last, msb_and, msb_not, msb_eq_decide,
    msb_eq_decide, hsub, hn.1, hn.2, h0, Bool.eq_iff_iff]
  simp only [Bool.and_eq_true, decide_eq_true_eq, Bool.not_eq_true', decide_eq_false_iff_not]
  split <;> omega

/-- The inverted parity of the low byte. -/
def parity {w : Nat} (x : BitVec w) : Bool :=
  [1, 2, 3, 4, 5, 6, 7].foldl (fun parity bit => parity ^^ x.getLsbD bit) (x.getLsbD 0) ^^ true

/-- The lookup table of the parity. -/
theorem parity_table (n : BitVec 4) : ((0x9669#32 <<< 2).sshiftRight n.toNat).getLsbD 2 =
      !(n.getLsbD 0 ^^ n.getLsbD 1 ^^ n.getLsbD 2 ^^ n.getLsbD 3) := by
  revert n
  decide

/-! ## Getters -/

namespace Backing

variable (s : Backing)

theorem getcf_eq : s.getcf = if s.flagsChanged.getLsbD 0 then
      if s.flagsChanged.getLsbD 31 then s.lastOp1.ult s.lastResult else s.lastResult.ult s.lastOp1
    else s.flags.getLsbD 0 := by
  have hult : ∀ x y : BitVec 32, (x ^^^ BitVec.allOnes 32).ult (y ^^^ BitVec.allOnes 32) = y.ult x := by
    intro x y
    have := x.isLt
    have := y.isLt
    simp only [xor_allOnes, BitVec.ult, toNat_not, decide_eq_decide]
    omega
  refine (lazy_bit (k := 0) (by decide) _ _ _).trans ?_
  congr 1
  rw [sshiftRight_31]
  split
  · exact hult _ _
  · simp only [ofNat_eq_ofNat, xor_zero]

theorem getpf_eq : s.getpf =
    if s.flagsChanged.getLsbD 2 then parity s.lastResult else s.flags.getLsbD 2 := by
  refine (lazy_bit (k := 2) (by decide) _ _ _).trans ?_
  congr 1
  refine (ne_zero_eq_getLsbD (k := 2) _ (by decide)).trans ?_
  -- the number of the table is four bits, each a sum of two
  have hn : ((s.lastResult ^^^ s.lastResult.sshiftRight 4) &&& 15).toNat =
      ((s.lastResult ^^^ s.lastResult.sshiftRight 4).setWidth 4).toNat := by
    rw [toNat_and, toNat_setWidth]
    exact Nat.and_two_pow_sub_one_eq_mod _ 4
  rw [hn, parity_table, parity]
  simp only [getLsbD_setWidth, getLsbD_xor, getLsbD_sshiftRight, List.foldl]
  simp only [Nat.reduceLT, Nat.reduceLeDiff, Nat.reduceAdd, decide_true, decide_false, Bool.not_false,
    Bool.true_and, ite_true]
  grind

theorem getaf_eq : s.getaf = if s.flagsChanged.getLsbD 4 then
      (s.lastOp1 ^^^ (if s.flagsChanged.getLsbD 31 then s.lastOp1 - s.lastResult
        else s.lastResult - s.lastOp1) ^^^ s.lastResult).getLsbD 4 else s.flags.getLsbD 4 := by
  refine (lazy_bit (k := 4) (by decide) _ _ _).trans ?_
  congr 1
  refine (ne_zero_eq_getLsbD (k := 4) _ (by decide)).trans ?_
  have hsub : (s.flagsChanged &&& FLAG_SUB ≠ 0) ↔ s.flagsChanged.getLsbD 31 = true := by
    rw [← ne_zero_eq_getLsbD _ (by decide), decide_eq_true_iff]
    rfl
  simp only [hsub]
  split
  · rw [BitVec.mul_neg, ofNat_eq_ofNat, BitVec.mul_one, BitVec.neg_sub,
      BitVec.add_comm, BitVec.sub_eq_add_neg]
  · rw [ofNat_eq_ofNat, BitVec.mul_one]

theorem opShift_lt : s.opShift < 32 := Nat.mod_lt _ (by decide)

theorem getzf_eq : s.getzf =
    if s.flagsChanged.getLsbD 6 then (~~~s.lastResult &&& (s.lastResult - 1)).getLsbD s.opShift
    else s.flags.getLsbD 6 := by
  refine (lazy_bit (k := 6) (by decide) _ _ _).trans ?_
  rw [low_bit _ s.opShift_lt]

theorem getsf_eq : s.getsf =
    if s.flagsChanged.getLsbD 7 then s.lastResult.getLsbD s.opShift else s.flags.getLsbD 7 := by
  refine (lazy_bit (k := 7) (by decide) _ _ _).trans ?_
  rw [low_bit _ s.opShift_lt]

theorem getof_eq : s.getof = if s.flagsChanged.getLsbD 11 then
      ((s.lastOp1 ^^^ s.lastResult) &&& ((s.lastResult - s.lastOp1 -
        if s.flagsChanged.getLsbD 31 then 1 else 0) ^^^ s.lastResult)).getLsbD s.opShift
    else s.flags.getLsbD 11 := by
  refine (lazy_bit (k := 11) (by decide) _ _ _).trans ?_
  have hsub : s.flagsChanged >>> 31 = if s.flagsChanged.getLsbD 31 then 1 else 0 := by
    apply eq_of_getLsbD_eq
    intro i hi
    rw [getLsbD_ushiftRight]
    cases i with
    | zero => split <;> simp_all
    | succ i =>
      rw [getLsbD_of_ge _ _ (by omega)]
      split <;> simp
  rw [← hsub, low_bit _ s.opShift_lt]

end Backing

/-! ## Operands of a width -/

/-- The widths of an operand. -/
def opWidths : List Nat := [8, 16, 32]

theorem mem_opWidths {w : Nat} : w ∈ opWidths ↔ w = 8 ∨ w = 16 ∨ w = 32 := by simp [opWidths]

theorem lt_eight {group : Nat} : group < 8 ↔ group = 0 ∨ group = 1 ∨ group = 2 ∨ group = 3 ∨
    group = 4 ∨ group = 5 ∨ group = 6 ∨ group = 7 := by omega

theorem lt_of_mem_opWidths {w : Nat} (h : w ∈ opWidths) : 8 ≤ w ∧ w ≤ 32 := by
  revert w
  decide

section
variable {w : Nat} (hw : w ∈ opWidths) (a b : BitVec w)
include hw

theorem and_opsizeToMask (x : BitVec 32) :
    x &&& opsizeToMask (w - 1) = (x.setWidth w).setWidth 32 := by
  have hle := lt_of_mem_opWidths hw
  have hmask : (opsizeToMask (w - 1)).toNat = 2 ^ w - 1 := by
    revert w
    decide
  apply eq_of_toNat_eq
  rw [toNat_and, hmask, Nat.and_two_pow_sub_one_eq_mod, toNat_setWidth, toNat_setWidth]
  exact (Nat.mod_eq_of_lt (Nat.lt_of_le_of_lt (Nat.mod_le ..) x.isLt)).symm

theorem setWidth_wide : (a.setWidth 32).setWidth w = a := by
  have hle := lt_of_mem_opWidths hw
  rw [setWidth_setWidth_of_le _ hle.2, setWidth_eq]

theorem ult_wide : (a.setWidth 32).ult (b.setWidth 32) = a.ult b := by
  have hle := Nat.pow_le_pow_right (n := 2) (by decide) (lt_of_mem_opWidths hw).2
  have := a.isLt
  have := b.isLt
  simp only [BitVec.ult, toNat_setWidth]
  rw [Nat.mod_eq_of_lt (by omega), Nat.mod_eq_of_lt (by omega)]

theorem setWidth_sub_wide (x y : BitVec 32) : (x - y).setWidth w = x.setWidth w - y.setWidth w := by
  have hle := lt_of_mem_opWidths hw
  rw [BitVec.sub_eq_add_neg, setWidth_add _ _ hle.2, setWidth_neg_of_le hle.2,
    BitVec.sub_eq_add_neg]

theorem opShift_width (s : Backing) (h : s.lastOpSize = .ofNat 32 (w - 1)) : s.opShift = w - 1 := by
  have hle := lt_of_mem_opWidths hw
  rw [Backing.opShift, h, toNat_ofNat, Nat.mod_eq_of_lt (by omega), Nat.mod_eq_of_lt (by omega)]

end

/-- A bit of an operand in 32 bits. -/
theorem bit_of_width {w i : Nat} {x : BitVec 32} {y : BitVec w} (h : x.setWidth w = y) (hi : i < w) :
    x.getLsbD i = y.getLsbD i := by
  rw [← h, getLsbD_setWidth, decide_eq_true hi, Bool.true_and]

theorem parity_of_width {w : Nat} (hw : w ∈ opWidths) {x : BitVec 32} {y : BitVec w}
    (h : x.setWidth w = y) : parity x = parity y := by
  have hle := lt_of_mem_opWidths hw
  have hbit : ∀ i < 8, x.getLsbD i = y.getLsbD i := fun i hi => bit_of_width h (by omega)
  simp only [parity, List.foldl]
  rw [hbit 0 (by decide), hbit 1 (by decide), hbit 2 (by decide), hbit 3 (by decide),
    hbit 4 (by decide), hbit 5 (by decide), hbit 6 (by decide), hbit 7 (by decide)]

/-! ## Carries -/

section
variable {w : Nat} (a b : BitVec w)

theorem toNat_add_or :
    (a + b).toNat = a.toNat + b.toNat ∨ (a + b).toNat + 2 ^ w = a.toNat + b.toNat := by
  have := a.isLt
  have := b.isLt
  rw [toNat_add]
  by_cases h : a.toNat + b.toNat < 2 ^ w
  · exact .inl (Nat.mod_eq_of_lt h)
  · right
    rw [Nat.mod_eq_sub_mod (by omega), Nat.mod_eq_of_lt (by omega)]
    omega

theorem toNat_sub_or :
    (a - b).toNat + b.toNat = a.toNat ∨ (a - b).toNat + b.toNat = a.toNat + 2 ^ w := by
  have h := toNat_add_or (a - b) b
  rw [BitVec.sub_add_cancel] at h
  omega

theorem ult_sub : a.ult (a - b) = a.ult b := by
  have := a.isLt
  have := b.isLt
  have := (a - b).isLt
  have := toNat_sub_or a b
  simp only [BitVec.ult, decide_eq_decide]
  omega

theorem toNat_carry (hw : 0 < w) (c : Bool) : ((BitVec.ofBool c).setWidth w).toNat = c.toNat := by
  have hlt : c.toNat < 2 ^ w := by
    have := Nat.pow_le_pow_right (n := 2) (by decide) hw
    have := c.toNat_lt
    omega
  rw [toNat_setWidth, toNat_ofBool, Nat.mod_eq_of_lt hlt]

/-- The carry out of a sum with a carry: one of its two additions wraps. -/
theorem add_carry (hw : 0 < w) (c : Bool) {r : BitVec w}
    (hr : r = a + b + (BitVec.ofBool c).setWidth w) :
    (a ^^^ ((a ^^^ b) &&& (b ^^^ r))).getLsbD (w - 1) = ((a + b).ult a || r.ult (a + b)) := by
  obtain ⟨n, hn, hn'⟩ := exists_half hw
  have ha := a.isLt
  have hb := b.isLt
  have hf := (a + b).isLt
  have hrlt := r.isLt
  have hc := c.toNat_lt
  have hab := toNat_add_or a b
  have habc := toNat_add_or (a + b) ((BitVec.ofBool c).setWidth w)
  rw [← hr, toNat_carry hw] at habc
  rw [hn] at ha hb hf hrlt hab habc
  rw [← msb_eq_getLsbD_last, msb_xor, msb_and, msb_xor, msb_xor]
  simp only [msb_eq_decide, BitVec.ult, hn']
  generalize (a + b).toNat = f at *
  rw [Bool.eq_iff_iff, Bool.or_eq_true, decide_eq_true_iff, decide_eq_true_iff]
  -- by the highest bits of the operands
  by_cases hx : n ≤ a.toNat <;> by_cases hy : n ≤ b.toNat <;> by_cases hz : n ≤ r.toNat
  all_goals
    simp only [hx, hy, hz]
    simp
    omega

/-- The borrow out of a difference with a borrow. -/
theorem sub_carry (hw : 0 < w) (c : Bool) {r : BitVec w}
    (hr : r = a - b - (BitVec.ofBool c).setWidth w) :
    (r ^^^ ((r ^^^ b) &&& (b ^^^ a))).getLsbD (w - 1) = (a.ult b || (a - b).ult r) := by
  obtain ⟨n, hn, hn'⟩ := exists_half hw
  have ha := a.isLt
  have hb := b.isLt
  have hf := (a - b).isLt
  have hrlt := r.isLt
  have hc := c.toNat_lt
  have hab := toNat_sub_or a b
  have habc := toNat_sub_or (a - b) ((BitVec.ofBool c).setWidth w)
  rw [← hr, toNat_carry hw] at habc
  rw [hn] at ha hb hf hrlt hab habc
  rw [← msb_eq_getLsbD_last, msb_xor, msb_and, msb_xor, msb_xor]
  simp only [msb_eq_decide, BitVec.ult, hn']
  generalize (a - b).toNat = f at *
  rw [Bool.eq_iff_iff, Bool.or_eq_true, decide_eq_true_iff, decide_eq_true_iff]
  by_cases hx : n ≤ a.toNat <;> by_cases hy : n ≤ b.toNat <;> by_cases hz : n ≤ r.toNat
  all_goals
    simp only [hx, hy, hz]
    simp
    omega

end

/-! ## Flags in the flags word -/

/-- Write one bit. -/
def writeBit (raw : BitVec 32) (b : Bool) (k : Nat) : BitVec 32 :=
  raw &&& ~~~(1#32 <<< k) ||| asI32 b <<< k

theorem getLsbD_asI32 (b : Bool) (i k : Nat) (hi : i < 32) :
    (asI32 b <<< k).getLsbD i = (decide (i = k) && b) := by
  rw [getLsbD_shiftLeft, asI32, getLsbD_setWidth, getLsbD_ofBool]
  by_cases h : i = k
  · subst h
    simp [hi]
  · by_cases hk : i < k
    · simp [h, hk]
    · simp [h, show i - k ≠ 0 by omega]

theorem getLsbD_writeBit (raw : BitVec 32) (b : Bool) {k i : Nat} (hi : i < 32) :
    (writeBit raw b k).getLsbD i = if i = k then b else raw.getLsbD i := by
  rw [writeBit, getLsbD_or, getLsbD_asI32 b i k hi]
  split
  · next h =>
    subst h
    rw [show raw &&& ~~~(1#32 <<< i) = raw &&& ~~~Bits.bit 32 i from rfl, Bits.getLsbD_clear_self]
    simp
  · next h =>
    rw [show raw &&& ~~~(1#32 <<< k) = raw &&& ~~~Bits.bit 32 k from rfl,
      Bits.getLsbD_clear_ne (Ne.symm h)]
    simp [h]

/-- A bit that is cut out. -/
theorem and_bit (x : BitVec 32) (k : Nat) : x &&& Bits.bit 32 k = asI32 (x.getLsbD k) <<< k := by
  apply eq_of_getLsbD_eq
  intro i hi
  rw [getLsbD_and, Bits.getLsbD_bit, getLsbD_asI32 _ _ _ hi]
  by_cases h : i = k
  · subst h
    simp [hi]
  · simp [h, Ne.symm h]

/-- Two bits written at once. -/
theorem writeBits (flags : BitVec 32) (c o : Bool) :
    flags &&& ~~~(1 : BitVec 32) &&& ~~~FLAG_OVERFLOW ||| asI32 c ||| asI32 o <<< 11 =
      writeBit (writeBit flags c 0) o 11 := by
  apply eq_of_getLsbD_eq
  intro i hi
  have hclear : (flags &&& ~~~(1 : BitVec 32) &&& ~~~FLAG_OVERFLOW).getLsbD i =
      (!decide (11 = i) && (!decide (0 = i) && flags.getLsbD i)) := by
    refine (Bits.getLsbD_clear _ 11 i).trans ?_
    congr 1
    exact Bits.getLsbD_clear flags 0 i
  rw [getLsbD_writeBit _ _ hi, getLsbD_writeBit _ _ hi, getLsbD_or, getLsbD_or, hclear,
    getLsbD_asI32 _ _ _ hi, show asI32 c = asI32 c <<< 0 by simp, getLsbD_asI32 _ _ _ hi]
  by_cases h0 : i = 0
  · subst h0
    simp
  · by_cases h11 : i = 11
    · subst h11
      simp
    · simp [h0, h11, Ne.symm h0, Ne.symm h11]

/-- Three bits written at once. -/
theorem writeBits₃ (flags : BitVec 32) (c a o : Bool) :
    flags &&& ~~~FLAG_CARRY &&& ~~~FLAG_ADJUST &&& ~~~FLAG_OVERFLOW ||| asI32 c ||| asI32 a <<< 4 |||
      asI32 o <<< 11 = writeBit (writeBit (writeBit flags c 0) a 4) o 11 := by
  apply eq_of_getLsbD_eq
  intro i hi
  have hclear : (flags &&& ~~~FLAG_CARRY &&& ~~~FLAG_ADJUST &&& ~~~FLAG_OVERFLOW).getLsbD i =
      (!decide (11 = i) && (!decide (4 = i) && (!decide (0 = i) && flags.getLsbD i))) := by
    refine (Bits.getLsbD_clear _ 11 i).trans ?_
    congr 1
    refine (Bits.getLsbD_clear _ 4 i).trans ?_
    congr 1
    exact Bits.getLsbD_clear flags 0 i
  rw [getLsbD_writeBit _ _ hi, getLsbD_writeBit _ _ hi, getLsbD_writeBit _ _ hi, getLsbD_or,
    getLsbD_or, getLsbD_or, hclear, getLsbD_asI32 _ _ _ hi, getLsbD_asI32 _ _ _ hi,
    show asI32 c = asI32 c <<< 0 by simp, getLsbD_asI32 _ _ _ hi]
  by_cases h0 : i = 0
  · subst h0
    simp
  · by_cases h4 : i = 4
    · subst h4
      simp
    · by_cases h11 : i = 11
      · subst h11
        simp
      · simp [h0, h4, h11, Ne.symm h0, Ne.symm h4, Ne.symm h11]

theorem bits_writeBits₃ (flags : BitVec 32) (c a o : Bool) :
    (writeBit (writeBit (writeBit flags c 0) a 4) o 11).getLsbD 0 = c ∧
    (writeBit (writeBit (writeBit flags c 0) a 4) o 11).getLsbD 4 = a ∧
    (writeBit (writeBit (writeBit flags c 0) a 4) o 11).getLsbD 11 = o := by
  have hbit : ∀ i < 32, (writeBit (writeBit (writeBit flags c 0) a 4) o 11).getLsbD i =
      if i = 11 then o else if i = 4 then a else if i = 0 then c else flags.getLsbD i := by
    intro i hi
    rw [getLsbD_writeBit _ _ hi, getLsbD_writeBit _ _ hi, getLsbD_writeBit _ _ hi]
  exact ⟨hbit 0 (by decide), hbit 4 (by decide), hbit 11 (by decide)⟩

theorem bits_cleared (flags : BitVec 32) :
    (flags &&& ~~~(FLAG_CARRY ||| FLAG_ADJUST ||| FLAG_OVERFLOW)).getLsbD 0 = false ∧
    (flags &&& ~~~(FLAG_CARRY ||| FLAG_ADJUST ||| FLAG_OVERFLOW)).getLsbD 4 = false ∧
    (flags &&& ~~~(FLAG_CARRY ||| FLAG_ADJUST ||| FLAG_OVERFLOW)).getLsbD 11 = false := by
  have hmask : ∀ k ∈ [0, 4, 11],
      (~~~(FLAG_CARRY ||| FLAG_ADJUST ||| FLAG_OVERFLOW)).getLsbD k = false := by decide
  simp only [getLsbD_and]
  rw [hmask 0 (by decide), hmask 4 (by decide), hmask 11 (by decide)]
  simp

theorem and_one_eq {x : BitVec 32} {b : Bool} (h : x.getLsbD 0 = b) : x &&& 1 = asI32 b := by
  rw [show (1 : BitVec 32) = Bits.bit 32 0 from rfl, and_bit, h, shiftLeft_zero]

theorem and_overflow_eq {x : BitVec 32} {b : Bool} (h : x.getLsbD 11 = b) :
    x &&& FLAG_OVERFLOW = asI32 b <<< 11 := by
  rw [show FLAG_OVERFLOW = Bits.bit 32 11 from rfl, and_bit, h]

theorem getLsbD_sshiftRight_of_lt (x : BitVec 32) (n i : Nat) (h : n + i < 32) :
    (x.sshiftRight n).getLsbD i = x.getLsbD (n + i) := by
  rw [getLsbD_sshiftRight]
  simp [h, Nat.not_le_of_lt (show i < 32 by omega)]

/-! ## The flags after an operation -/

section
variable {w : Nat} (hw : w ∈ opWidths)
include hw

variable {s : Backing} {r a b : BitVec w} {c o : Bool}

/-- The flags that are always computed from the result. -/
theorem getters_result
    (hchanged : s.flagsChanged.getLsbD 2 = true ∧ s.flagsChanged.getLsbD 6 = true ∧
      s.flagsChanged.getLsbD 7 = true) (hr : s.lastResult.setWidth w = r)
    (hsize : s.lastOpSize = .ofNat 32 (w - 1)) :
    s.getpf = parity r ∧ s.getzf = (r == 0) ∧ s.getsf = r.getLsbD (w - 1) := by
  have hle := lt_of_mem_opWidths hw
  rw [s.getpf_eq, s.getzf_eq, s.getsf_eq, hchanged.1, hchanged.2.1, hchanged.2.2,
    opShift_width hw s hsize]
  refine ⟨parity_of_width hw hr, ?_, bit_of_width hr (by omega)⟩
  rw [if_pos rfl, ← zero_bit (by omega)]
  refine bit_of_width ?_ (by omega)
  rw [setWidth_and, setWidth_not hle.2, setWidth_sub_wide hw, hr]
  congr 2
  exact setWidth_ofNat_of_le hle.2 1

/-- After a sum. -/
theorem getters_add (hchanged : s.flagsChanged = FLAGS_ALL) (hop : s.lastOp1 = a.setWidth 32)
    (hres : s.lastResult = r.setWidth 32) (hsize : s.lastOpSize = .ofNat 32 (w - 1))
    (hr : r = a + b) :
    s.getters = #v[r.ult a, parity r, (a ^^^ b ^^^ r).getLsbD 4, r == 0, r.getLsbD (w - 1),
      ((a ^^^ r) &&& (b ^^^ r)).getLsbD (w - 1)] := by
  have hle := lt_of_mem_opWidths hw
  have hb : (s.lastResult - s.lastOp1).setWidth w = b := by
    rw [setWidth_sub_wide hw, hres, hop, setWidth_wide hw, setWidth_wide hw, hr, BitVec.add_comm,
      BitVec.add_sub_cancel]
  obtain ⟨hpf, hzf, hsf⟩ := getters_result hw (s := s) (r := r) (by rw [hchanged]; decide)
    (by rw [hres, setWidth_wide hw]) hsize
  have hcf : s.getcf = r.ult a := by
    rw [s.getcf_eq, hchanged, if_pos (by decide), if_neg (by decide), hres, hop, ult_wide hw]
  have haf : s.getaf = (a ^^^ b ^^^ r).getLsbD 4 := by
    rw [s.getaf_eq, hchanged, if_pos (by decide), if_neg (by decide)]
    refine bit_of_width ?_ (by omega)
    rw [setWidth_xor, setWidth_xor, hb, hres, hop, setWidth_wide hw, setWidth_wide hw]
  have hof : s.getof = ((a ^^^ r) &&& (b ^^^ r)).getLsbD (w - 1) := by
    rw [s.getof_eq, hchanged, if_pos (by decide), if_neg (by decide), opShift_width hw s hsize]
    refine bit_of_width ?_ (by omega)
    rw [setWidth_and, setWidth_xor, setWidth_xor, ofNat_eq_ofNat,
      BitVec.sub_zero, hb, hres, hop, setWidth_wide hw, setWidth_wide hw]
  rw [Backing.getters, hcf, hpf, haf, hzf, hsf, hof]

/-- After a difference. -/
theorem getters_sub (hchanged : s.flagsChanged = FLAGS_ALL ||| FLAG_SUB)
    (hop : s.lastOp1 = a.setWidth 32) (hres : s.lastResult = r.setWidth 32)
    (hsize : s.lastOpSize = .ofNat 32 (w - 1)) (hr : r = a - b) :
    s.getters = #v[a.ult b, parity r, (a ^^^ b ^^^ r).getLsbD 4, r == 0, r.getLsbD (w - 1),
      ((a ^^^ r) &&& (a ^^^ b)).getLsbD (w - 1)] := by
  have hle := lt_of_mem_opWidths hw
  have hb : a - r = b := by
    rw [hr, BitVec.sub_eq_add_neg, BitVec.neg_sub, BitVec.add_comm, BitVec.add_assoc, BitVec.add_comm b,
      ← BitVec.add_assoc, add_left_neg, BitVec.zero_add]
  -- one less than the difference back is the complement of the operand
  have hnot : (s.lastResult - s.lastOp1 - 1).setWidth w = ~~~b := by
    rw [setWidth_sub_wide hw, setWidth_sub_wide hw, hres, hop, setWidth_wide hw, setWidth_wide hw,
      ofNat_eq_ofNat, setWidth_ofNat_of_le hle.2, not_eq_neg_add, ← hb,
      BitVec.neg_sub, BitVec.sub_eq_add_neg r, BitVec.add_comm r]
  obtain ⟨hpf, hzf, hsf⟩ := getters_result hw (s := s) (r := r) (by rw [hchanged]; decide)
    (by rw [hres, setWidth_wide hw]) hsize
  have hcf : s.getcf = a.ult b := by
    rw [s.getcf_eq, hchanged, if_pos (by decide), if_pos (by decide), hres, hop, ult_wide hw, hr,
      ult_sub]
  have haf : s.getaf = (a ^^^ b ^^^ r).getLsbD 4 := by
    rw [s.getaf_eq, hchanged, if_pos (by decide), if_pos (by decide)]
    refine bit_of_width ?_ (by omega)
    rw [setWidth_xor, setWidth_xor, setWidth_sub_wide hw, hres, hop, setWidth_wide hw,
      setWidth_wide hw, hb]
  have hof : s.getof = ((a ^^^ r) &&& (a ^^^ b)).getLsbD (w - 1) := by
    rw [s.getof_eq, hchanged, if_pos (by decide), if_pos (by decide), opShift_width hw s hsize]
    refine (bit_of_width (y := (a ^^^ r) &&& (~~~b ^^^ r)) ?_ (by omega)).trans ?_
    · rw [setWidth_and, setWidth_xor, setWidth_xor, hnot, hres, hop,
        setWidth_wide hw, setWidth_wide hw]
    · simp only [getLsbD_and, getLsbD_xor, getLsbD_not]
      rw [decide_eq_true (by omega)]
      cases a.getLsbD (w - 1) <;> cases b.getLsbD (w - 1) <;> cases r.getLsbD (w - 1) <;> rfl
  rw [Backing.getters, hcf, hpf, haf, hzf, hsf, hof]

/-- After an operation that has the carry, the adjust flag and the overflow in the flags word. -/
theorem getters_written {a : Bool} (hchanged : s.flagsChanged &&& ~~~FLAG_SUB =
      FLAGS_ALL &&& ~~~FLAG_CARRY &&& ~~~FLAG_ADJUST &&& ~~~FLAG_OVERFLOW)
    (hres : s.lastResult.setWidth w = r) (hsize : s.lastOpSize = .ofNat 32 (w - 1))
    (hc : s.flags.getLsbD 0 = c) (ha : s.flags.getLsbD 4 = a) (ho : s.flags.getLsbD 11 = o) :
    s.getters = #v[c, parity r, a, r == 0, r.getLsbD (w - 1), o] := by
  -- which bit of the mask is set
  have hbit : ∀ k < 31, s.flagsChanged.getLsbD k =
      (FLAGS_ALL &&& ~~~FLAG_CARRY &&& ~~~FLAG_ADJUST &&& ~~~FLAG_OVERFLOW).getLsbD k := by
    intro k hk
    rw [← hchanged]
    exact (Bits.getLsbD_clear_ne (i := 31) (by omega)).symm
  obtain ⟨hpf, hzf, hsf⟩ := getters_result hw (s := s) (r := r)
    (by rw [hbit _ (by decide), hbit _ (by decide), hbit _ (by decide)]; decide) hres hsize
  have hcf : s.getcf = c := by
    rw [s.getcf_eq, hbit _ (by decide), if_neg (by decide), hc]
  have haf : s.getaf = a := by
    rw [s.getaf_eq, hbit _ (by decide), if_neg (by decide), ha]
  have hof : s.getof = o := by
    rw [s.getof_eq, hbit _ (by decide), if_neg (by decide), ho]
  rw [Backing.getters, hcf, hpf, haf, hzf, hsf, hof]

/-- After a shift, which has the carry and the overflow in the flags word. -/
theorem getters_shifted
    (hchanged : s.flagsChanged = FLAGS_ALL &&& ~~~FLAG_CARRY &&& ~~~FLAG_OVERFLOW)
    (hres : s.lastResult.setWidth w = r) (hsize : s.lastOpSize = .ofNat 32 (w - 1))
    (hc : s.flags.getLsbD 0 = c) (ho : s.flags.getLsbD 11 = o) : s.getters = #v[c, parity r,
      (s.lastOp1 ^^^ (s.lastResult - s.lastOp1) ^^^ s.lastResult).getLsbD 4, r == 0,
      r.getLsbD (w - 1), o] := by
  obtain ⟨hpf, hzf, hsf⟩ := getters_result hw (s := s) (r := r) (by rw [hchanged]; decide) hres hsize
  have hcf : s.getcf = c := by
    rw [s.getcf_eq, hchanged, if_neg (by decide), hc]
  have haf : s.getaf =
      (s.lastOp1 ^^^ (s.lastResult - s.lastOp1) ^^^ s.lastResult).getLsbD 4 := by
    rw [s.getaf_eq, hchanged, if_pos (by decide), if_neg (by decide)]
  have hof : s.getof = o := by
    rw [s.getof_eq, hchanged, if_neg (by decide), ho]
  rw [Backing.getters, hcf, hpf, haf, hzf, hsf, hof]

end

/-- After a rotate, which leaves all but the carry and the overflow as they are. -/
theorem getters_rotated {s s' : Backing}
    (hchanged : s'.flagsChanged = s.flagsChanged &&& ~~~FLAG_CARRY &&& ~~~FLAG_OVERFLOW)
    (hop : s'.lastOp1 = s.lastOp1) (hres : s'.lastResult = s.lastResult)
    (hsize : s'.lastOpSize = s.lastOpSize)
    (hflags : ∀ k, k ≠ 0 → k ≠ 11 → s'.flags.getLsbD k = s.flags.getLsbD k) :
    s'.getters = #v[s'.flags.getLsbD 0, s.getpf, s.getaf, s.getzf, s.getsf, s'.flags.getLsbD 11] := by
  have hbit : ∀ k, k ≠ 0 → k ≠ 11 → s'.flagsChanged.getLsbD k = s.flagsChanged.getLsbD k := by
    intro k h0 h11
    rw [hchanged]
    exact (Bits.getLsbD_clear_ne (i := 11) (Ne.symm h11)).trans
      (Bits.getLsbD_clear_ne (i := 0) (Ne.symm h0))
  have hclear0 : s'.flagsChanged.getLsbD 0 = false := by
    rw [hchanged]
    exact (Bits.getLsbD_clear_ne (i := 11) (by decide)).trans (Bits.getLsbD_clear_self (i := 0))
  have hclear11 : s'.flagsChanged.getLsbD 11 = false := by
    rw [hchanged]
    exact Bits.getLsbD_clear_self (i := 11)
  have hshift : s'.opShift = s.opShift := by rw [Backing.opShift, hsize, Backing.opShift]
  have hcf : s'.getcf = s'.flags.getLsbD 0 := by
    rw [s'.getcf_eq, hclear0, if_neg (by decide)]
  have hpf : s'.getpf = s.getpf := by
    rw [s'.getpf_eq, s.getpf_eq, hbit _ (by decide) (by decide), hflags _ (by decide) (by decide), hres]
  have haf : s'.getaf = s.getaf := by
    rw [s'.getaf_eq, s.getaf_eq, hbit _ (by decide) (by decide), hbit _ (by decide) (by decide),
      hflags _ (by decide) (by decide), hres, hop]
  have hzf : s'.getzf = s.getzf := by
    rw [s'.getzf_eq, s.getzf_eq, hbit _ (by decide) (by decide), hflags _ (by decide) (by decide),
      hres, hshift]
  have hsf : s'.getsf = s.getsf := by
    rw [s'.getsf_eq, s.getsf_eq, hbit _ (by decide) (by decide), hflags _ (by decide) (by decide),
      hres, hshift]
  have hof : s'.getof = s'.flags.getLsbD 11 := by
    rw [s'.getof_eq, hclear11, if_neg (by decide)]
  rw [Backing.getters, hcf, hpf, haf, hzf, hsf, hof]

/-! ## Sums, differences and logic of a width -/

section
variable {w : Nat} (hw : w ∈ opWidths) (a b : BitVec w) (s : Backing)
include hw

theorem add_eq : add (a.setWidth 32) (b.setWidth 32) (w - 1) s = ((a + b).setWidth 32, { s with
    lastOp1 := a.setWidth 32, lastResult := (a + b).setWidth 32, lastOpSize := .ofNat 32 (w - 1)
    flagsChanged := FLAGS_ALL }) := by
  have hle := lt_of_mem_opWidths hw
  rw [add, and_opsizeToMask hw, setWidth_add _ _ hle.2, setWidth_wide hw, setWidth_wide hw]

theorem sub_eq : sub (a.setWidth 32) (b.setWidth 32) (w - 1) s = ((a - b).setWidth 32, { s with
    lastOp1 := a.setWidth 32, lastResult := (a - b).setWidth 32, lastOpSize := .ofNat 32 (w - 1)
    flagsChanged := FLAGS_ALL ||| FLAG_SUB }) := by
  rw [sub, and_opsizeToMask hw, setWidth_sub_wide hw, setWidth_wide hw, setWidth_wide hw]

theorem asI32_width (c : Bool) : (asI32 c).setWidth w = (BitVec.ofBool c).setWidth w := by
  have hle := lt_of_mem_opWidths hw
  rw [asI32, setWidth_setWidth_of_le _ hle.2]

/-- The adjust flag and the overflow as they are written, from bits of the width. -/
theorem written_bits (x : BitVec 32) {y : BitVec w} (h : x.setWidth w = y) :
    x.sshiftRight (w - 1) &&& FLAG_CARRY = asI32 (y.getLsbD (w - 1)) ∧
    x &&& FLAG_ADJUST = asI32 (y.getLsbD 4) <<< 4 ∧
    x.sshiftRight (w - 1) <<< 11 &&& FLAG_OVERFLOW = asI32 (y.getLsbD (w - 1)) <<< 11 := by
  have hle := lt_of_mem_opWidths hw
  have htop : (x.sshiftRight (w - 1)).getLsbD 0 = y.getLsbD (w - 1) :=
    (getLsbD_sshiftRight_of_lt x _ _ (by omega)).trans (bit_of_width h (by omega))
  refine ⟨and_one_eq htop, ?_, and_overflow_eq ?_⟩
  · rw [show FLAG_ADJUST = Bits.bit 32 4 from rfl, and_bit, bit_of_width h (by omega)]
  · rw [getLsbD_shiftLeft]
    simpa using htop

theorem adc_eq {r : BitVec w} (hr : r = a + b + (BitVec.ofBool s.getcf).setWidth w) :
    adc (a.setWidth 32) (b.setWidth 32) (w - 1) s = (r.setWidth 32, {
      flags := writeBit (writeBit (writeBit s.flags ((a + b).ult a || r.ult (a + b)) 0)
        ((a ^^^ b ^^^ r).getLsbD 4) 4) (((a ^^^ r) &&& (b ^^^ r)).getLsbD (w - 1)) 11
      flagsChanged := FLAGS_ALL &&& ~~~FLAG_CARRY &&& ~~~FLAG_ADJUST &&& ~~~FLAG_OVERFLOW
      lastOp1 := a.setWidth 32, lastResult := r.setWidth 32, lastOpSize := .ofNat 32 (w - 1) }) := by
  have hle := lt_of_mem_opWidths hw
  have hres : (a.setWidth 32 + b.setWidth 32 + asI32 s.getcf) &&& opsizeToMask (w - 1) =
      r.setWidth 32 := by
    rw [and_opsizeToMask hw, setWidth_add _ _ hle.2, setWidth_add _ _ hle.2,
      setWidth_wide hw, setWidth_wide hw, asI32_width hw, hr]
  have hcf := (written_bits hw (a.setWidth 32 ^^^ ((a.setWidth 32 ^^^ b.setWidth 32) &&&
    (b.setWidth 32 ^^^ r.setWidth 32))) (y := a ^^^ ((a ^^^ b) &&& (b ^^^ r)))
    (by simp [setWidth_wide hw])).1
  have haf := (written_bits hw (a.setWidth 32 ^^^ b.setWidth 32 ^^^ r.setWidth 32)
    (y := a ^^^ b ^^^ r) (by simp [setWidth_wide hw])).2.1
  have hof := (written_bits hw ((b.setWidth 32 ^^^ r.setWidth 32) &&& (a.setWidth 32 ^^^ r.setWidth 32))
    (y := (b ^^^ r) &&& (a ^^^ r)) (by simp [setWidth_wide hw])).2.2
  rw [adc, hres, hcf, haf, hof, add_carry a b (by omega) s.getcf hr, writeBits₃, BitVec.and_comm (b ^^^ r)]

theorem sbb_eq {r : BitVec w} (hr : r = a - b - (BitVec.ofBool s.getcf).setWidth w) :
    sbb (a.setWidth 32) (b.setWidth 32) (w - 1) s = (r.setWidth 32, {
      flags := writeBit (writeBit (writeBit s.flags (a.ult b || (a - b).ult r) 0)
        ((a ^^^ b ^^^ r).getLsbD 4) 4) (((a ^^^ r) &&& (a ^^^ b)).getLsbD (w - 1)) 11
      flagsChanged :=
        FLAGS_ALL &&& ~~~FLAG_CARRY &&& ~~~FLAG_ADJUST &&& ~~~FLAG_OVERFLOW ||| FLAG_SUB
      lastOp1 := a.setWidth 32, lastResult := r.setWidth 32, lastOpSize := .ofNat 32 (w - 1) }) := by
  have hle := lt_of_mem_opWidths hw
  have hres : (a.setWidth 32 - b.setWidth 32 - asI32 s.getcf) &&& opsizeToMask (w - 1) =
      r.setWidth 32 := by
    rw [and_opsizeToMask hw, setWidth_sub_wide hw, setWidth_sub_wide hw, setWidth_wide hw,
      setWidth_wide hw, asI32_width hw, hr]
  have hcf := (written_bits hw (r.setWidth 32 ^^^ ((r.setWidth 32 ^^^ b.setWidth 32) &&&
    (b.setWidth 32 ^^^ a.setWidth 32))) (y := r ^^^ ((r ^^^ b) &&& (b ^^^ a)))
    (by simp [setWidth_wide hw])).1
  have haf := (written_bits hw (a.setWidth 32 ^^^ b.setWidth 32 ^^^ r.setWidth 32)
    (y := a ^^^ b ^^^ r) (by simp [setWidth_wide hw])).2.1
  have hof := (written_bits hw ((b.setWidth 32 ^^^ a.setWidth 32) &&& (r.setWidth 32 ^^^ a.setWidth 32))
    (y := (b ^^^ a) &&& (r ^^^ a)) (by simp [setWidth_wide hw])).2.2
  rw [sbb, hres, hcf, haf, hof, sub_carry a b (by omega) s.getcf hr, writeBits₃,
    BitVec.and_comm (b ^^^ a), BitVec.xor_comm r a, BitVec.xor_comm b a]

omit hw in
theorem logic_eq (r : BitVec 32) (opSize : Nat) : logic r opSize s = (r, { s with
    lastResult := r, lastOpSize := .ofNat 32 opSize
    flags := s.flags &&& ~~~(FLAG_CARRY ||| FLAG_ADJUST ||| FLAG_OVERFLOW)
    flagsChanged := FLAGS_ALL &&& ~~~FLAG_CARRY &&& ~~~FLAG_ADJUST &&& ~~~FLAG_OVERFLOW }) := by
  rfl

end

end V86.Arith
