import V86.Cpu.ArithFlags

/-!
# What shifts and rotates compute

The shifts and rotates of the interpreter, each as one result before it is cut to the width, a carry
and an overflow (`Outcome`), with the width as a parameter and a count that is not zero.
-/

namespace V86.Arith

open List BitVec

/-! ## Outcomes -/

/-- What a shift computes: the result before it is cut to the width, the carry and the overflow. -/
structure Outcome where
  raw : BitVec 32
  cf : Bool
  of : Bool

/-- What a rotate leaves. -/
def Backing.afterRotate (s : Backing) (o : Outcome) : Backing :=
  { s with
    flags := writeBit (writeBit s.flags o.cf 0) o.of 11
    flagsChanged := s.flagsChanged &&& ~~~(FLAG_CARRY ||| FLAG_OVERFLOW) }

/-- What a shift leaves. -/
def Backing.afterShift (s : Backing) (width : Nat) (o : Outcome) : Backing :=
  { s with
    flags := writeBit (writeBit s.flags o.cf 0) o.of 11
    flagsChanged := FLAGS_ALL &&& ~~~FLAG_CARRY &&& ~~~FLAG_OVERFLOW
    lastResult := o.raw
    lastOpSize := .ofNat 32 (width - 1) }

theorem and_mask_congr {w : Nat} (hw : w ∈ opWidths) {x y : BitVec 32}
    (h : ∀ i < w, x.getLsbD i = y.getLsbD i) :
    x &&& opsizeToMask (w - 1) = y &&& opsizeToMask (w - 1) := by
  rw [and_opsizeToMask hw, and_opsizeToMask hw]
  congr 1
  apply eq_of_getLsbD_eq
  intro i hi
  rw [getLsbD_setWidth, getLsbD_setWidth, h i hi]

theorem and_opsizeToMask_32 (x : BitVec 32) : x &&& opsizeToMask (32 - 1) = x := by
  rw [and_opsizeToMask (by decide), setWidth_eq, setWidth_eq]

section
variable {w : Nat} (hw : w ∈ opWidths) (s : Backing) {x c o : BitVec 32} {out : Outcome}
include hw

/-- A rotate by its result, its carry and its overflow. -/
theorem rotated_eq (hx : x = out.raw &&& opsizeToMask (w - 1)) (hc : c = asI32 out.cf)
    (ho : o = asI32 out.of <<< 11) :
    (x, s.rotated c o) = ((out.raw.setWidth w).setWidth 32, s.afterRotate out) := by
  rw [hx, and_opsizeToMask hw, Backing.rotated, hc, ho, writeBits, Backing.afterRotate]
  congr 2

/-- A shift by its result, its carry and its overflow. -/
theorem shifted_eq {r : BitVec 32} {size : Nat} (hsize : size = w - 1) (hr : r = out.raw)
    (hx : x = out.raw &&& opsizeToMask (w - 1)) (hc : c = asI32 out.cf)
    (ho : o = asI32 out.of <<< 11) :
    (x, s.shifted size r c o) = ((out.raw.setWidth w).setWidth 32, s.afterShift w out) := by
  rw [hx, hr, hsize, and_opsizeToMask hw, Backing.shifted, hc, ho, writeBits, Backing.afterShift]
  rfl

end

/-! ## Rotates -/

/-- An operand is not negative in more bits, unless it has them all. -/
theorem sshiftRight_wide {w : Nat} (hw : w < 32) (a : BitVec w) (n : Nat) :
    (a.setWidth 32).sshiftRight n = a.setWidth 32 >>> n := by
  refine sshiftRight_eq_of_msb_false ?_
  rw [msb_eq_getLsbD_last, getLsbD_setWidth, getLsbD_of_ge _ _ (by omega), Bool.and_false]

/-- `ROL` and `ROR`. -/
def Outcome.roll (group w : Nat) (x : BitVec 32) (n : Nat) : Outcome :=
  let c := n % w
  let raw := if group = 0 then x <<< c ||| x >>> (w - c) else x <<< (w - c) ||| x >>> c
  let cf := raw.getLsbD (if group = 0 then 0 else w - 1)
  ⟨raw, cf, raw.getLsbD (w - 1) ^^ if group % 2 = 0 then cf else raw.getLsbD (w - 2)⟩

section
variable {w n : Nat} (hw : w ∈ opWidths) (a : BitVec w) (s : Backing) (hn : n ≠ 0) (hlt : n < 32)
include hw hn hlt

theorem rol_eq : shift 0 w (a.setWidth 32) n s =
    (((Outcome.roll 0 w (a.setWidth 32) n).raw.setWidth w).setWidth 32,
      s.afterRotate (.roll 0 w (a.setWidth 32) n)) := by
  obtain rfl | rfl | rfl := mem_opWidths.1 hw
  · simp only [shift, rol8, if_neg hn, sshiftRight_wide (w := 8) (by decide)]
    refine rotated_eq hw s rfl (and_one_eq rfl) (and_overflow_eq ?_)
    simp [Outcome.roll, Bool.xor_comm]
  · simp only [shift, rol16, if_neg hn, sshiftRight_wide (w := 16) (by decide)]
    refine rotated_eq hw s rfl (and_one_eq rfl) (and_overflow_eq ?_)
    simp [Outcome.roll, Bool.xor_comm, getElem_sshiftRight]
  · have hmod : n % 32 = n := Nat.mod_eq_of_lt hlt
    simp only [shift, rol32, if_neg hn]
    rw [setWidth_eq a]
    refine rotated_eq hw s ?_ (and_one_eq ?_) (and_overflow_eq ?_)
    · rw [and_opsizeToMask_32, Outcome.roll, hmod]
      rfl
    · simp [Outcome.roll, hmod]
    · simp [Outcome.roll, hmod, Bool.xor_comm, getElem_sshiftRight]

theorem ror_eq : shift 1 w (a.setWidth 32) n s =
    (((Outcome.roll 1 w (a.setWidth 32) n).raw.setWidth w).setWidth 32,
      s.afterRotate (.roll 1 w (a.setWidth 32) n)) := by
  obtain rfl | rfl | rfl := mem_opWidths.1 hw
  · simp only [shift, ror8, if_neg hn, sshiftRight_wide (w := 8) (by decide)]
    rw [BitVec.or_comm]
    refine rotated_eq hw s rfl (and_one_eq ?_) (and_overflow_eq ?_)
    · simp [Outcome.roll, getElem_sshiftRight]
    · simp [Outcome.roll]
  · simp only [shift, ror16, if_neg hn, sshiftRight_wide (w := 16) (by decide)]
    rw [BitVec.or_comm]
    refine rotated_eq hw s rfl (and_one_eq ?_) (and_overflow_eq ?_)
    · simp [Outcome.roll, getElem_sshiftRight]
    · simp [Outcome.roll, getElem_sshiftRight]
  · have hmod : n % 32 = n := Nat.mod_eq_of_lt hlt
    simp only [shift, ror32, if_neg hn]
    rw [setWidth_eq a, BitVec.or_comm]
    refine rotated_eq hw s ?_ (and_one_eq ?_) (and_overflow_eq ?_)
    · rw [and_opsizeToMask_32, Outcome.roll, hmod]
      rfl
    · simp [Outcome.roll, hmod, getElem_sshiftRight]
    · simp [Outcome.roll, hmod, getElem_sshiftRight]

end

/-! ## Rotates through the carry -/

/-- `RCL` and `RCR` of less than 32 bits: a rotate of the operand and the carry. -/
def Outcome.through (group w : Nat) (x : BitVec 32) (n : Nat) (carry : Bool) : Outcome :=
  let packed := x ||| asI32 carry <<< w
  let raw := if group = 2 then packed <<< n ||| packed >>> (w + 1 - n)
    else packed <<< (w + 1 - n) ||| packed >>> n
  let cf := raw.getLsbD w
  ⟨raw, cf, raw.getLsbD (w - 1) ^^ if group % 2 = 0 then cf else raw.getLsbD (w - 2)⟩

/-- `RCL` and `RCR` of 32 bits. -/
def Outcome.through32 (group : Nat) (x : BitVec 32) (n : Nat) (carry : Bool) : Outcome :=
  let first := if group = 2 then x <<< n ||| asI32 carry <<< (n - 1)
    else x >>> n ||| asI32 carry <<< (32 - n)
  let extra := if 1 < n then if group = 2 then x >>> (33 - n) else x <<< (33 - n) else 0
  let raw := first ||| extra
  let cf := (x >>> (if group = 2 then 32 - n else n - 1)).getLsbD 0
  ⟨raw, cf, raw.getLsbD 31 ^^ if group % 2 = 0 then cf else raw.getLsbD 30⟩

theorem getLsbD_asI32_self (b : Bool) (i : Nat) : (asI32 b).getLsbD i = (decide (i = 0) && b) := by
  rw [asI32, getLsbD_setWidth, getLsbD_ofBool]
  by_cases h : i = 0
  · simp [h]
  · simp [h]

theorem asI32_xor (b c : Bool) : asI32 b ^^^ asI32 c = asI32 (b ^^ c) := by
  cases b <;> cases c <;> rfl

section
variable {w n : Nat} (a : BitVec w) (c : Bool) (hw : w < 32) (hn : n ≠ 0) (hle : n ≤ w)
include hw hn hle

/-- The carry is rotated as the bit above the operand. -/
theorem rcl_bits {i : Nat} (hi : i ≤ w) :
    (a.setWidth 32 <<< n ||| asI32 c <<< (n - 1) ||| a.setWidth 32 >>> (w + 1 - n)).getLsbD i =
      (Outcome.through 2 w (a.setWidth 32) n c).raw.getLsbD i := by
  simp only [Outcome.through, if_true, getLsbD_or, getLsbD_shiftLeft,
    getLsbD_ushiftRight, getLsbD_asI32_self]
  grind

theorem rcr_bits {i : Nat} (hi : i ≤ w) :
    (a.setWidth 32 >>> n ||| asI32 c <<< (w - n) ||| a.setWidth 32 <<< (w + 1 - n)).getLsbD i =
      (Outcome.through 3 w (a.setWidth 32) n c).raw.getLsbD i := by
  simp only [Outcome.through, Nat.reduceEqDiff, if_false, getLsbD_or,
    getLsbD_shiftLeft, getLsbD_ushiftRight, getLsbD_asI32_self]
  grind

end

section
variable {w n : Nat} (hw : w ∈ opWidths) (a : BitVec w) (s : Backing)
include hw

theorem rcl_eq (hlt : w < 32) (hn : n % (w + 1) ≠ 0) : shift 2 w (a.setWidth 32) n s =
    (((Outcome.through 2 w (a.setWidth 32) (n % (w + 1)) s.getcf).raw.setWidth w).setWidth 32,
      s.afterRotate (.through 2 w (a.setWidth 32) (n % (w + 1)) s.getcf)) := by
  have hbits : ∀ i, i ≤ w → _ := fun i hi =>
    rcl_bits a s.getcf hlt hn (Nat.le_of_lt_succ (Nat.mod_lt n (Nat.succ_pos w))) hi
  obtain rfl | rfl | rfl := mem_opWidths.1 hw
  · simp only [shift, rcl8, if_neg hn, sshiftRight_wide (w := 8) (by decide)]
    refine rotated_eq hw s (and_mask_congr hw fun i hi => hbits i (by omega))
      (and_one_eq ?_) (and_overflow_eq ?_)
    · exact (getLsbD_sshiftRight_of_lt _ 8 0 (by decide)).trans (hbits 8 (by decide))
    · rw [getLsbD_xor, Bool.xor_comm, getLsbD_shiftLeft, getLsbD_shiftLeft]
      refine .trans ?_ (congrArg₂ (· ^^ ·) (hbits 7 (by decide)) (hbits 8 (by decide)))
      rfl
  · simp only [shift, rcl16, if_neg hn, sshiftRight_wide (w := 16) (by decide)]
    refine rotated_eq hw s (and_mask_congr hw fun i hi => hbits i (by omega))
      (and_one_eq ?_) (and_overflow_eq ?_)
    · exact (getLsbD_sshiftRight_of_lt _ 16 0 (by decide)).trans (hbits 16 (by decide))
    · rw [getLsbD_xor, Bool.xor_comm, getLsbD_sshiftRight_of_lt _ _ _ (by decide),
        getLsbD_sshiftRight_of_lt _ _ _ (by decide)]
      exact congrArg₂ (· ^^ ·) (hbits 15 (by decide)) (hbits 16 (by decide))
  · cases Nat.lt_irrefl _ hlt

theorem rcr_eq (hlt : w < 32) (hn : n % (w + 1) ≠ 0) : shift 3 w (a.setWidth 32) n s =
    (((Outcome.through 3 w (a.setWidth 32) (n % (w + 1)) s.getcf).raw.setWidth w).setWidth 32,
      s.afterRotate (.through 3 w (a.setWidth 32) (n % (w + 1)) s.getcf)) := by
  have hbits : ∀ i, i ≤ w → _ := fun i hi =>
    rcr_bits a s.getcf hlt hn (Nat.le_of_lt_succ (Nat.mod_lt n (Nat.succ_pos w))) hi
  obtain rfl | rfl | rfl := mem_opWidths.1 hw
  · simp only [shift, rcr8, if_neg hn, sshiftRight_wide (w := 8) (by decide)]
    refine rotated_eq hw s (and_mask_congr hw fun i hi => hbits i (by omega))
      (and_one_eq ?_) (and_overflow_eq ?_)
    · exact (getLsbD_sshiftRight_of_lt _ 8 0 (by decide)).trans (hbits 8 (by decide))
    · rw [getLsbD_xor, getLsbD_shiftLeft, getLsbD_shiftLeft]
      exact congrArg₂ (· ^^ ·) (hbits 7 (by decide)) (hbits 6 (by decide))
  · simp only [shift, rcr16, if_neg hn, sshiftRight_wide (w := 16) (by decide)]
    refine rotated_eq hw s (and_mask_congr hw fun i hi => hbits i (by omega))
      (and_one_eq ?_) (and_overflow_eq ?_)
    · exact (getLsbD_sshiftRight_of_lt _ 16 0 (by decide)).trans (hbits 16 (by decide))
    · rw [getLsbD_xor, getLsbD_sshiftRight_of_lt _ _ _ (by decide),
        getLsbD_sshiftRight_of_lt _ _ _ (by decide)]
      exact congrArg₂ (· ^^ ·) (hbits 15 (by decide)) (hbits 14 (by decide))
  · cases Nat.lt_irrefl _ hlt

end

theorem rcl32_eq (x : BitVec 32) {n : Nat} (hn : n ≠ 0) (s : Backing) :
    shift 2 32 x n s = (((Outcome.through32 2 x n s.getcf).raw.setWidth 32).setWidth 32,
      s.afterRotate (.through32 2 x n s.getcf)) := by
  have hraw : (if n > 1 then x <<< n ||| asI32 s.getcf <<< (n - 1) ||| x >>> (33 - n)
      else x <<< n ||| asI32 s.getcf <<< (n - 1)) = (Outcome.through32 2 x n s.getcf).raw := by
    simp only [Outcome.through32, if_true]
    split <;> simp
  simp only [shift, rcl32, if_neg hn, hraw]
  refine rotated_eq (by decide) s (and_opsizeToMask_32 _).symm (and_one_eq rfl) (and_overflow_eq ?_)
  rw [getLsbD_xor, getLsbD_sshiftRight_of_lt _ _ _ (by decide), Bool.xor_comm,
    and_one_eq rfl, getLsbD_asI32 _ _ _ (by decide)]
  simp [Outcome.through32]

theorem rcr32_eq (x : BitVec 32) {n : Nat} (hn : n ≠ 0) (hlt : n < 32) (s : Backing) :
    shift 3 32 x n s = (((Outcome.through32 3 x n s.getcf).raw.setWidth 32).setWidth 32,
      s.afterRotate (.through32 3 x n s.getcf)) := by
  have hraw : (if n > 1 then x >>> n ||| asI32 s.getcf <<< (32 - n) ||| x <<< (33 - n)
      else x >>> n ||| asI32 s.getcf <<< (32 - n)) = (Outcome.through32 3 x n s.getcf).raw := by
    simp only [Outcome.through32, Nat.reduceEqDiff, if_false]
    split <;> simp
  simp only [shift, rcr32, if_neg hn, hraw]
  refine rotated_eq (by decide) s (and_opsizeToMask_32 _).symm (and_one_eq ?_) (and_overflow_eq ?_)
  · rw [getLsbD_sshiftRight_of_lt _ _ _ (by omega)]
    exact (getLsbD_ushiftRight _ _ _).symm
  · rw [getLsbD_xor, getLsbD_sshiftRight_of_lt _ _ _ (by decide),
      getLsbD_sshiftRight_of_lt _ _ _ (by decide)]
    rfl

/-! ## Shifts -/

/-- `SHL` of an operand in 32 bits. -/
def Outcome.shl (w : Nat) (x : BitVec 32) (n : Nat) : Outcome :=
  let raw := x <<< n
  let cf := if w = 32 then (x >>> (32 - n)).getLsbD 0 else raw.getLsbD w
  ⟨raw, cf, cf ^^ raw.getLsbD (w - 1)⟩

/-- `SHR`. -/
def Outcome.shr (w : Nat) (x : BitVec 32) (n : Nat) : Outcome :=
  ⟨x >>> n, (x >>> (n - 1)).getLsbD 0, x.getLsbD (w - 1)⟩

/-- `SAR` of an operand extended by its sign. -/
def Outcome.sar (x : BitVec 32) (n : Nat) : Outcome :=
  ⟨x.sshiftRight n, (x.sshiftRight (n - 1)).getLsbD 0, false⟩

section
variable {w n : Nat} (hw : w ∈ opWidths) (a : BitVec w) (s : Backing) (hn : n ≠ 0) (hlt : n < 32)
include hw hn hlt

theorem shl_eq : shift 4 w (a.setWidth 32) n s =
    (((Outcome.shl w (a.setWidth 32) n).raw.setWidth w).setWidth 32,
      s.afterShift w (.shl w (a.setWidth 32) n)) := by
  obtain rfl | rfl | rfl := mem_opWidths.1 hw
  · simp only [shift, shl8, if_neg hn]
    refine shifted_eq hw s rfl rfl rfl (and_one_eq ?_) (and_overflow_eq ?_)
    · exact getLsbD_sshiftRight_of_lt _ 8 0 (by decide)
    · simp [Outcome.shl]
  · simp only [shift, shl16, if_neg hn]
    refine shifted_eq hw s rfl rfl rfl (and_one_eq ?_) (and_overflow_eq ?_)
    · exact getLsbD_sshiftRight_of_lt _ 16 0 (by decide)
    · rw [getLsbD_xor, getLsbD_sshiftRight_of_lt _ _ _ (by decide),
        getLsbD_sshiftRight_of_lt _ _ _ (by decide)]
      rfl
  · have hcf : ((a.setWidth 32).sshiftRight (32 - n)).getLsbD 0 =
        (Outcome.shl 32 (a.setWidth 32) n).cf := by
      rw [getLsbD_sshiftRight_of_lt _ _ _ (by omega)]
      exact (getLsbD_ushiftRight _ _ _).symm
    simp only [shift, shl32, if_neg hn]
    refine shifted_eq hw s rfl rfl (and_opsizeToMask_32 _).symm (and_one_eq hcf)
      (and_overflow_eq ?_)
    rw [and_one_eq hcf, getLsbD_shiftLeft, getLsbD_xor, getLsbD_asI32_self,
      getLsbD_sshiftRight_of_lt _ _ _ (by decide)]
    simp [Outcome.shl]

theorem shr_eq : shift 5 w (a.setWidth 32) n s =
    (((Outcome.shr w (a.setWidth 32) n).raw.setWidth w).setWidth 32,
      s.afterShift w (.shr w (a.setWidth 32) n)) := by
  -- what is shifted right fits
  have hfits : (Outcome.shr w (a.setWidth 32) n).raw =
      (Outcome.shr w (a.setWidth 32) n).raw &&& opsizeToMask (w - 1) := by
    have hle := lt_of_mem_opWidths hw
    rw [and_opsizeToMask hw, Outcome.shr]
    apply eq_of_getLsbD_eq
    intro i hi
    simp only [getLsbD_ushiftRight, getLsbD_setWidth, hi, decide_true, Bool.true_and]
    by_cases h : i < w
    · simp [h]
    · rw [getLsbD_of_ge a _ (by omega)]
      simp
  obtain rfl | rfl | rfl := mem_opWidths.1 hw
  · simp only [shift, shr8, if_neg hn, sshiftRight_wide (w := 8) (by decide)]
    refine shifted_eq hw s rfl rfl hfits (and_one_eq rfl) (and_overflow_eq ?_)
    rw [getLsbD_shiftLeft, getLsbD_and, getLsbD_ushiftRight]
    simp [Outcome.shr]
  · simp only [shift, shr16, if_neg hn, sshiftRight_wide (w := 16) (by decide)]
    refine shifted_eq hw s rfl rfl hfits (and_one_eq rfl) (and_overflow_eq ?_)
    exact getLsbD_ushiftRight _ _ _
  · simp only [shift, shr32, if_neg hn]
    refine shifted_eq hw s rfl rfl hfits (and_one_eq rfl) (and_overflow_eq ?_)
    exact getLsbD_sshiftRight_of_lt _ _ _ (by decide)

end

section
variable {w : Nat} (hw : w ∈ opWidths) (a : BitVec w)
include hw

variable {i n : Nat}

theorem getLsbD_signExtend (hi : i < 32) :
    (a.signExtend 32).getLsbD i = a.getLsbD (min i (w - 1)) := by
  have hle := lt_of_mem_opWidths hw
  rw [BitVec.getLsbD_signExtend, decide_eq_true hi, Bool.true_and]
  split
  · next h => rw [Nat.min_eq_left (by omega)]
  · next h => rw [Nat.min_eq_right (by omega), msb_eq_getLsbD_last]

theorem getLsbD_sar (n : Nat) (hi : i < 32) :
    ((a.signExtend 32).sshiftRight n).getLsbD i = a.getLsbD (min (n + i) (w - 1)) := by
  have hle := lt_of_mem_opWidths hw
  rw [getLsbD_sshiftRight, decide_eq_false (Nat.not_le_of_lt hi), Bool.not_false, Bool.true_and]
  split
  · next h => exact getLsbD_signExtend hw a h
  · next h =>
    rw [msb_eq_getLsbD_last, getLsbD_signExtend hw a (by decide), Nat.min_eq_right (by omega),
      Nat.min_eq_right (by omega)]

/-- An operand moved to the top and back is extended by its sign. -/
theorem sshiftRight_top (n m : Nat) (hm : w + m = 32) :
    (a.setWidth 32 <<< m).sshiftRight (n + m) = (a.signExtend 32).sshiftRight n := by
  have hle := lt_of_mem_opWidths hw
  apply eq_of_getLsbD_eq
  intro i hi
  have htop : ∀ k, m ≤ k → k < 32 → (a.setWidth 32 <<< m).getLsbD k = a.getLsbD (k - m) := by
    intro k hmk hk
    rw [getLsbD_shiftLeft, getLsbD_setWidth]
    simp [hk, show ¬ k < m by omega, show k - m < 32 by omega]
  rw [getLsbD_sar hw a n hi, getLsbD_sshiftRight, decide_eq_false (Nat.not_le_of_lt hi),
    Bool.not_false, Bool.true_and, msb_eq_getLsbD_last, htop (32 - 1) (by omega) (by decide)]
  split
  · next h => rw [htop _ (by omega) h, Nat.min_eq_left (by omega), show n + m + i - m = n + i by omega]
  · next h => rw [Nat.min_eq_right (by omega), show 32 - 1 - m = w - 1 by omega]

/-- Only the sign is left. -/
theorem sar_of_ge (hn : w - 1 ≤ n) :
    (a.signExtend 32).sshiftRight n = (a.signExtend 32).sshiftRight (w - 1) := by
  apply eq_of_getLsbD_eq
  intro i hi
  rw [getLsbD_sar hw a n hi, getLsbD_sar hw a (w - 1) hi, Nat.min_eq_right (by omega),
    Nat.min_eq_right (by omega)]

/-- The result and the carry of `sar8` and `sar16`. -/
theorem sar_narrow (m : Nat) (hm : w + m = 32) :
    (if n < w then
      ((a.setWidth 32 <<< m).sshiftRight (n + m), (a.setWidth 32).sshiftRight (n - 1) &&& 1)
    else
      let result := (a.setWidth 32 <<< m).sshiftRight 31
      (result, result &&& 1)) =
    ((Outcome.sar (a.signExtend 32) n).raw, asI32 (Outcome.sar (a.signExtend 32) n).cf) := by
  have hle := lt_of_mem_opWidths hw
  have hcf : (Outcome.sar (a.signExtend 32) n).cf = a.getLsbD (min (n - 1) (w - 1)) :=
    getLsbD_sar hw a (n - 1) (by decide)
  split
  · next h =>
    refine Prod.ext (sshiftRight_top hw a n m hm) (and_one_eq ?_)
    rw [hcf, getLsbD_sshiftRight_of_lt _ _ _ (by omega), getLsbD_setWidth,
      decide_eq_true (by omega), Nat.min_eq_left (by omega)]
    rfl
  · next h =>
    have hraw : (a.setWidth 32 <<< m).sshiftRight 31 = (Outcome.sar (a.signExtend 32) n).raw := by
      rw [show 31 = w - 1 + m by omega, sshiftRight_top hw a (w - 1) m hm]
      exact (sar_of_ge hw a (by omega)).symm
    refine Prod.ext hraw (and_one_eq ?_)
    rw [hraw, hcf, Nat.min_eq_right (by omega)]
    refine (getLsbD_sar hw a n (by decide)).trans ?_
    rw [Nat.min_eq_right (by omega)]

theorem sar_eq (hn : n ≠ 0) (hlt : n < 32) (s : Backing) : shift 7 w (a.setWidth 32) n s =
    (((Outcome.sar (a.signExtend 32) n).raw.setWidth w).setWidth 32,
      s.afterShift w (.sar (a.signExtend 32) n)) := by
  have hover : (0 : BitVec 32) = asI32 (Outcome.sar (a.signExtend 32) n).of <<< 11 := by
    simp [Outcome.sar, asI32]
  obtain rfl | rfl | rfl := mem_opWidths.1 hw
  · simp only [shift, sar8, if_neg hn, sar_narrow hw a 24 rfl]
    exact shifted_eq hw s rfl rfl rfl rfl hover
  · simp only [shift, sar16, if_neg hn, sar_narrow hw a 16 rfl]
    exact shifted_eq hw s rfl rfl rfl rfl hover
  · simp only [shift, sar32, if_neg hn]
    rw [setWidth_eq, signExtend_eq] at *
    refine shifted_eq hw s rfl rfl (and_opsizeToMask_32 _).symm (and_one_eq ?_) hover
    exact (getLsbD_ushiftRight _ _ _).trans (getLsbD_sshiftRight_of_lt _ _ _ (by omega)).symm

end

/-! ## Double shifts -/

/-- What a double shift leaves that writes the carry first. -/
theorem doubleShifted_eq {w : Nat} (hw : w ∈ opWidths) (s : Backing) {r x c : BitVec 32} {size : Nat}
    {f : BitVec 32 → BitVec 32} {out : Outcome} (hsize : size = w - 1) (hr : r = out.raw)
    (hx : x = out.raw &&& opsizeToMask (w - 1)) (hc : c = asI32 out.cf)
    (hf : ∀ flags : BitVec 32, flags.getLsbD 0 = out.cf → f flags = asI32 out.of <<< 11) :
    (x, s.doubleShifted size r c f) = ((out.raw.setWidth w).setWidth 32, s.afterShift w out) := by
  have hflags : s.flags &&& ~~~(1 : BitVec 32) ||| asI32 out.cf = writeBit s.flags out.cf 0 := by
    rw [writeBit, shiftLeft_zero (asI32 out.cf), shiftLeft_zero]
    rfl
  have hover : f (writeBit s.flags out.cf 0) = asI32 out.of <<< 11 :=
    hf _ (by rw [getLsbD_writeBit _ _ (by decide), if_pos rfl])
  rw [hx, hr, hsize, hc, and_opsizeToMask hw, Backing.doubleShifted, Backing.afterShift]
  simp only [hflags, hover]
  rfl

/-- `SHLD` and `SHRD`, of operands in 32 bits. -/
def Outcome.double (left : Bool) (w : Nat) (x source : BitVec 32) (n : Nat) : Outcome :=
  let first := if left then x <<< n ||| source >>> (w - n) else source <<< (w - n) ||| x >>> n
  let firstCf := (x >>> (if left then w - n else n - 1)).getLsbD 0
  -- a count above the width takes the operands the other way round
  let second := if left then source <<< (n - 16) ||| x >>> (32 - n)
    else x <<< (32 - n) ||| source >>> (n - 16)
  let secondCf := (source >>> (if left then 32 - n else n - 17)).getLsbD 0
  let large : Bool := w = 16 && 16 < n
  let raw := if large then second else first
  let cf := if large then secondCf else firstCf
  let high := raw.getLsbD (w - 1)
  ⟨raw, cf, if left then (cf ^^ high) && (w ≠ 32 || n = 1) else x.getLsbD (w - 1) ^^ high⟩

section
variable (left : Bool) {w : Nat} (x source : BitVec 32) {n : Nat}

theorem double_small (h : ¬ (w = 16 ∧ 16 < n)) : (Outcome.double left w x source n).raw =
      (if left then x <<< n ||| source >>> (w - n) else source <<< (w - n) ||| x >>> n) ∧
    (Outcome.double left w x source n).cf = (x >>> (if left then w - n else n - 1)).getLsbD 0 := by
  have hlarge : (decide (w = 16) && decide (16 < n)) = false := by
    rw [← Bool.decide_and]
    exact decide_eq_false h
  simp only [Outcome.double, hlarge]
  exact ⟨rfl, rfl⟩

theorem double_large (h : 16 < n) : (Outcome.double left 16 x source n).raw =
      (if left then source <<< (n - 16) ||| x >>> (32 - n)
        else x <<< (32 - n) ||| source >>> (n - 16)) ∧ (Outcome.double left 16 x source n).cf =
      (source >>> (if left then 32 - n else n - 17)).getLsbD 0 := by
  simp [Outcome.double, h]

end

variable {n w group : Nat}

theorem double16_eq (left : Bool) (a b : BitVec 16) (hn : n ≠ 0) (s : Backing) :
    doubleShift left 16 (a.setWidth 32) (b.setWidth 32) n s =
      (((Outcome.double left 16 (a.setWidth 32) (b.setWidth 32) n).raw.setWidth 16).setWidth 32,
        s.afterShift 16 (.double left 16 (a.setWidth 32) (b.setWidth 32) n)) := by
  cases left
  · have hpair : (if n ≤ 16 then (a.setWidth 32 >>> n ||| b.setWidth 32 <<< (16 - n),
        a.setWidth 32 >>> (n - 1) &&& 1)
      else (a.setWidth 32 <<< (32 - n) ||| b.setWidth 32 >>> (n - 16),
        b.setWidth 32 >>> (n - 17) &&& 1)) =
        ((Outcome.double false 16 (a.setWidth 32) (b.setWidth 32) n).raw,
          asI32 (Outcome.double false 16 (a.setWidth 32) (b.setWidth 32) n).cf) := by
      by_cases h : n ≤ 16
      · obtain ⟨hraw, hcf⟩ := double_small false (w := 16) (a.setWidth 32) (b.setWidth 32)
          (n := n) (by omega)
        rw [if_pos h, hraw, hcf, and_one_eq rfl, BitVec.or_comm]
        rfl
      · obtain ⟨hraw, hcf⟩ := double_large false (a.setWidth 32) (b.setWidth 32) (n := n) (by omega)
        rw [if_neg h, hraw, hcf, and_one_eq rfl]
        rfl
    simp only [doubleShift, shrd16, if_neg hn, sshiftRight_wide (w := 16) (by decide), hpair]
    refine doubleShifted_eq (by decide) s rfl rfl rfl rfl fun flags _ => and_overflow_eq ?_
    rw [getLsbD_sshiftRight_of_lt _ _ _ (by decide), getLsbD_xor, Bool.xor_comm]
    rfl
  · have hpair : (if n ≤ 16 then (a.setWidth 32 <<< n ||| b.setWidth 32 >>> (16 - n),
        a.setWidth 32 >>> (16 - n) &&& 1)
      else (a.setWidth 32 >>> (32 - n) ||| b.setWidth 32 <<< (n - 16),
        b.setWidth 32 >>> (32 - n) &&& 1)) =
        ((Outcome.double true 16 (a.setWidth 32) (b.setWidth 32) n).raw,
          asI32 (Outcome.double true 16 (a.setWidth 32) (b.setWidth 32) n).cf) := by
      by_cases h : n ≤ 16
      · obtain ⟨hraw, hcf⟩ := double_small true (w := 16) (a.setWidth 32) (b.setWidth 32)
          (n := n) (by omega)
        rw [if_pos h, hraw, hcf, and_one_eq rfl]
        rfl
      · obtain ⟨hraw, hcf⟩ := double_large true (a.setWidth 32) (b.setWidth 32) (n := n) (by omega)
        rw [if_neg h, hraw, hcf, and_one_eq rfl, BitVec.or_comm]
        rfl
    simp only [doubleShift, shld16, if_neg hn, sshiftRight_wide (w := 16) (by decide), hpair]
    refine doubleShifted_eq (by decide) s rfl rfl rfl rfl fun flags hflags => ?_
    rw [and_one_eq hflags, and_one_eq (getLsbD_sshiftRight_of_lt _ 15 0 (by decide)), asI32_xor]
    simp [Outcome.double]

theorem double32_eq (left : Bool) (x source : BitVec 32) (hn : n ≠ 0)
    (s : Backing) : doubleShift left 32 x source n s =
      (((Outcome.double left 32 x source n).raw.setWidth 32).setWidth 32,
        s.afterShift 32 (.double left 32 x source n)) := by
  obtain ⟨hraw, hcf⟩ := double_small left (w := 32) x source (n := n) (by omega)
  cases left
  · simp only [doubleShift, shrd32, if_neg hn]
    refine shifted_eq (by decide) s rfl (by rw [hraw, BitVec.or_comm]; rfl) ?_ ?_ (and_overflow_eq ?_)
    · rw [and_opsizeToMask_32, hraw, BitVec.or_comm]
      rfl
    · exact and_one_eq hcf.symm
    · rw [getLsbD_sshiftRight_of_lt _ _ _ (by decide), getLsbD_xor, Bool.xor_comm, BitVec.or_comm]
      rfl
  · simp only [doubleShift, shld32, if_neg hn]
    refine doubleShifted_eq (by decide) s rfl (by rw [hraw]; rfl) ?_ (and_one_eq hcf.symm)
      fun flags hflags => ?_
    · rw [and_opsizeToMask_32, hraw]
      rfl
    · rw [and_one_eq hflags, and_one_eq (getLsbD_sshiftRight_of_lt _ 31 0 (by decide)), asI32_xor]
      split
      · next h => simp [Outcome.double, h]
      · next h => simp [Outcome.double, h, asI32]

/-! ## Groups -/

/-- The count of a group that is not zero if the operation does anything. -/
def effective (group w n : Nat) : Nat :=
  if (group = 2 ∨ group = 3) ∧ w < 32 then n % (w + 1) else n

/-- The outcome of a rotate. -/
def rotateOutcome (group w : Nat) (x : BitVec 32) (n : Nat) (carry : Bool) : Outcome :=
  if group < 2 then .roll group w x n
  else if w < 32 then .through group w x n carry
  else .through32 group x n carry

/-- The outcome of a group. -/
def shiftOutcome (group w : Nat) (a : BitVec w) (n : Nat) (carry : Bool) : Outcome :=
  if group < 4 then rotateOutcome group w (a.setWidth 32) n carry
  else if group = 4 ∨ group = 6 then .shl w (a.setWidth 32) n
  else if group = 7 then .sar (a.signExtend 32) n
  else .shr w (a.setWidth 32) n

/-- What a group leaves. -/
def Backing.afterGroup (s : Backing) (group w : Nat) (o : Outcome) : Backing :=
  if group < 4 then s.afterRotate o else s.afterShift w o

/-- A count of zero does nothing. -/
theorem shift_zero (hw : w ∈ opWidths) (hgroup : group < 8) (x : BitVec 32) (s : Backing)
    (h : effective group w n = 0) : shift group w x n s = (x, s) := by
  have hcases := lt_eight.1 hgroup
  rcases hcases with rfl | rfl | rfl | rfl | rfl | rfl | rfl | rfl <;>
    obtain rfl | rfl | rfl := mem_opWidths.1 hw
  all_goals exact if_pos h

theorem shift_eq (hw : w ∈ opWidths) (hgroup : group < 8) (a : BitVec w) (hn : n < 32) (s : Backing)
    (h : effective group w n ≠ 0) : shift group w (a.setWidth 32) n s =
      (((shiftOutcome group w a (effective group w n) s.getcf).raw.setWidth w).setWidth 32,
        s.afterGroup group w (shiftOutcome group w a (effective group w n) s.getcf)) := by
  have hcases := lt_eight.1 hgroup
  have hle := lt_of_mem_opWidths hw
  rcases hcases with rfl | rfl | rfl | rfl | rfl | rfl | rfl | rfl
  · exact rol_eq hw a s h hn
  · exact ror_eq hw a s h hn
  · by_cases h32 : w < 32
    · have heff : effective 2 w n = n % (w + 1) := if_pos ⟨.inl rfl, h32⟩
      rw [heff] at h ⊢
      rw [rcl_eq hw a s h32 h, show shiftOutcome 2 w a (n % (w + 1)) s.getcf =
        .through 2 w (a.setWidth 32) (n % (w + 1)) s.getcf from if_pos h32]
      rfl
    · obtain rfl : w = 32 := by omega
      exact rcl32_eq _ h s
  · by_cases h32 : w < 32
    · have heff : effective 3 w n = n % (w + 1) := if_pos ⟨.inr rfl, h32⟩
      rw [heff] at h ⊢
      rw [rcr_eq hw a s h32 h, show shiftOutcome 3 w a (n % (w + 1)) s.getcf =
        .through 3 w (a.setWidth 32) (n % (w + 1)) s.getcf from if_pos h32]
      rfl
    · obtain rfl : w = 32 := by omega
      exact rcr32_eq _ h hn s
  · exact shl_eq hw a s h hn
  · exact shr_eq hw a s h hn
  · have hsame : shift 6 w (a.setWidth 32) n s = shift 4 w (a.setWidth 32) n s := by
      simp only [opWidths, mem_cons, not_mem_nil, or_false] at hw
      rcases hw with rfl | rfl | rfl <;> rfl
    exact hsame.trans (shl_eq hw a s h hn)
  · exact sar_eq hw a h hn s

/-- A double shift, of a count that is zero and of one that is not. -/
theorem double_eq (left : Bool) (hw : w = 16 ∨ w = 32) (a b : BitVec w) (n : Nat)
    (s : Backing) : doubleShift left w (a.setWidth 32) (b.setWidth 32) n s =
      if n = 0 then (a.setWidth 32, s)
      else (((Outcome.double left w (a.setWidth 32) (b.setWidth 32) n).raw.setWidth w).setWidth 32,
        s.afterShift w (.double left w (a.setWidth 32) (b.setWidth 32) n)) := by
  split
  · next h =>
    rcases hw with rfl | rfl <;> cases left
    all_goals exact if_pos h
  · next h =>
    rcases hw with rfl | rfl
    · exact double16_eq left a b h s
    · exact double32_eq left _ _ h s

/-! ## The flags after a shift or a rotate -/

theorem bits_writeBits (flags : BitVec 32) (c o : Bool) {i : Nat} (hi : i < 32) :
    (writeBit (writeBit flags c 0) o 11).getLsbD i =
      if i = 11 then o else if i = 0 then c else flags.getLsbD i := by
  rw [getLsbD_writeBit _ _ hi, getLsbD_writeBit _ _ hi]

theorem getters_afterRotate (s : Backing) (o : Outcome) : (s.afterRotate o).getters =
    #v[o.cf, s.getpf, s.getaf, s.getzf, s.getsf, o.of] := by
  have hchanged : (s.afterRotate o).flagsChanged =
      s.flagsChanged &&& ~~~FLAG_CARRY &&& ~~~FLAG_OVERFLOW := by
    rw [BitVec.and_assoc]
    rfl
  rw [getters_rotated (s := s) hchanged rfl rfl rfl]
  · have h0 : (s.afterRotate o).flags.getLsbD 0 = o.cf := bits_writeBits _ _ _ (by decide)
    have h11 : (s.afterRotate o).flags.getLsbD 11 = o.of := bits_writeBits _ _ _ (by decide)
    rw [h0, h11]
  · intro k h0 h11
    by_cases hk : k < 32
    · rw [Backing.afterRotate, bits_writeBits _ _ _ hk, if_neg h11, if_neg h0]
    · rw [getLsbD_of_ge _ _ (by omega), getLsbD_of_ge _ _ (by omega)]

theorem getters_afterShift (hw : w ∈ opWidths) (s : Backing) (o : Outcome) {r : BitVec 32}
    (hr : r = (o.raw.setWidth w).setWidth 32) : (s.afterShift w o).getters =
      #v[o.cf, parity r, (s.lastOp1 ^^^ (r - s.lastOp1) ^^^ r).getLsbD 4, r == 0, r.getLsbD (w - 1),
        o.of] := by
  have hle := lt_of_mem_opWidths hw
  have hwidth : r.setWidth w = o.raw.setWidth w := by rw [hr, setWidth_wide hw]
  rw [getters_shifted hw (s := s.afterShift w o) rfl rfl rfl
    (bits_writeBits s.flags o.cf o.of (i := 0) (by decide))
    (bits_writeBits s.flags o.cf o.of (i := 11) (by decide))]
  have haf : (s.lastOp1 ^^^ (o.raw - s.lastOp1) ^^^ o.raw).getLsbD 4 =
      (s.lastOp1 ^^^ (r - s.lastOp1) ^^^ r).getLsbD 4 := by
    refine (bit_of_width ?_ (by omega)).trans
      (bit_of_width (y := s.lastOp1.setWidth w ^^^ (r.setWidth w - s.lastOp1.setWidth w) ^^^
        r.setWidth w) ?_ (by omega)).symm
    · rw [setWidth_xor, setWidth_xor, setWidth_sub_wide hw, hwidth]
    · rw [setWidth_xor, setWidth_xor, setWidth_sub_wide hw]
  have hzf : (o.raw.setWidth w == 0) = (r == 0) := by
    rw [Bool.eq_iff_iff, beq_iff_eq, beq_iff_eq, hr]
    constructor
    · intro h
      rw [h]
      simp
    · intro h
      rw [← setWidth_wide hw (o.raw.setWidth w), h]
      simp
  have hpf : parity (o.raw.setWidth w) = parity r := (parity_of_width hw hwidth).symm
  have hsf : (o.raw.setWidth w).getLsbD (w - 1) = r.getLsbD (w - 1) :=
    (bit_of_width hwidth (by omega)).symm
  rw [← haf, ← hzf, ← hpf, ← hsf]
  rfl

attribute [local simp] Outcome.through32

end V86.Arith
