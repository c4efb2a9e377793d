import V86.Cpu.Bmi

/-!
# Bit manipulation, bit by bit

Each operation of `cpu/bmi.rs` is given bit by bit on the low bits of its operands: which bit of the
operand a bit of the result is (`Gives`), with the flags of the result (`Computes`), or a count
(`Counts`). The loops of deposit and extract are read through the rank of a selector bit, the number
of set bits below it, which is why they are inverse up to the selector's population (`pext_pdep`,
`pdep_pext`). Nothing overflows at any size or control value (`bmi_correct`).
-/

namespace V86.Bmi

open BitVec

variable {w : Nat} {r : BitVec 64} {p : Nat → Bool}

/-! ## Definitions bit by bit -/

/-- The operand sizes of the instructions. -/
inductive OperandSize
  | word | dword | qword
  deriving DecidableEq, Repr

def OperandSize.bits : OperandSize → Nat
  | .word => 16
  | .dword => 32
  | .qword => 64

/-- The low `w` bits of a result are the given ones, the others are clear. -/
def HasBits (r : BitVec 64) (w : Nat) (p : Nat → Bool) : Prop :=
  ∀ i, r.getLsbD i = (decide (i < w) && p i)

/-- The flags of a logical result: ZF, SF and PF are those of the result, CF is given, and AF, OF
and all others are clear. -/
def FlagsOf (f : BitVec 32) (r : BitVec 64) (w : Nat) (cf : Bool) : Prop :=
  ∀ n, f.getLsbD n = (decide (n = 6) && decide (r = 0) || decide (n = 7) && r.getLsbD (w - 1) ||
    decide (n = 2) && decide (countOnes r % 2 = 0) || decide (n = 0) && cf)

/-- The instruction overflows nowhere, and gives these bits with their flags. -/
def Computes (o : Option (BitVec 64 × BitVec 32)) (w : Nat) (p : Nat → Bool) (cf : Bool) :
    Prop := ∃ r f, o = some (r, f) ∧ HasBits r w p ∧ FlagsOf f r w cf

/-- The instruction overflows nowhere, and gives these bits. -/
def Gives (o : Option (BitVec 64)) (w : Nat) (p : Nat → Bool) : Prop :=
  ∃ r, o = some r ∧ HasBits r w p

/-- How many bits of the selector are set below bit `i`. -/
def rank (selector : BitVec 64) (i : Nat) : Nat := Nat.count (fun j => selector.getLsbD j = true) i

/-! ## Masks and flags -/

/-- The sizes the instructions allow are powers of two up to 64. -/
structure Sized (w : Nat) : Prop where
  pos : 0 < w
  le : w ≤ 64
  bytes : w % 8 = 0
  dvd : w ∣ 256
  and_pred : ∀ n : Nat, n &&& (w - 1) = n % w

theorem OperandSize.sized (size : OperandSize) : Sized size.bits := by
  cases size with
  | word =>
    exact ⟨by decide, by decide, rfl, by decide, fun n => Nat.and_two_pow_sub_one_eq_mod n 4⟩
  | dword =>
    exact ⟨by decide, by decide, rfl, by decide, fun n => Nat.and_two_pow_sub_one_eq_mod n 5⟩
  | qword =>
    exact ⟨by decide, by decide, rfl, by decide, fun n => Nat.and_two_pow_sub_one_eq_mod n 6⟩

/-- The value of `mask`. -/
def lowMask (w : Nat) : BitVec 64 := BitVec.allOnes 64 >>> (64 - w)

theorem getLsbD_lowMask (h : w ≤ 64) (i : Nat) : (lowMask w).getLsbD i = decide (i < w) := by
  rw [lowMask, getLsbD_ushiftRight, getLsbD_allOnes]
  exact decide_eq_decide.2 (by omega)

theorem Sized.sub (h : Sized w) : sub 64 w = some (64 - w) := if_pos h.le

theorem Sized.mask (h : Sized w) : mask w = some (lowMask w) := by
  have hlt : 64 - w < 64 := Nat.sub_lt (by decide) h.pos
  rw [Bmi.mask, h.sub]
  exact if_pos hlt

theorem Sized.and_lowMask (h : Sized w) (x : BitVec 64) :
    HasBits (x &&& lowMask w) w x.getLsbD := by
  intro i
  rw [getLsbD_and, getLsbD_lowMask h.le, Bool.and_comm]

/-- A result with its bits below `w` is its own low bits. -/
theorem HasBits.masked (hw : Sized w) (h : HasBits r w p) : r &&& lowMask w = r := by
  refine eq_of_getLsbD_eq fun i _ => ?_
  rw [hw.and_lowMask r i, h i]
  exact Bool.and_self_left _ _

variable {k n i j : Nat} {selector : BitVec 64}

theorem getLsbD_flagIf (c : Bool) (hk : k < 32) (n : Nat) :
    (flagIf c (1#32 <<< k)).getLsbD n = (decide (n = k) && c) := by
  cases c with
  | false => rw [flagIf, Bool.and_false]; exact getLsbD_zero
  | true =>
    rw [flagIf, if_pos rfl, getLsbD_shiftLeft, BitVec.getLsbD_one, Bool.and_true]
    rw [Bool.eq_iff_iff]
    simp
    omega

theorem getLsbD_one (i : Nat) : (1 : BitVec 64).getLsbD i = decide (i = 0) := by
  have hone : (1 : BitVec 64) = 1#64 := rfl
  rw [hone, BitVec.getLsbD_one]
  simp

theorem getLsbD_and_one (x : BitVec 64) (i : Nat) :
    (x &&& 1).getLsbD i = (decide (i = 0) && x.getLsbD 0) := by
  rw [getLsbD_and, getLsbD_one, Bool.and_comm]
  by_cases hi : i = 0
  · rw [hi]
  · rw [decide_eq_false hi, Bool.false_and, Bool.false_and]

/-- The lowest bit of a value. -/
theorem and_one_ne_zero (x : BitVec 64) : decide (x &&& 1 ≠ 0) = x.getLsbD 0 := by
  have hbit := getLsbD_and_one x
  rw [Bool.eq_iff_iff, decide_eq_true_iff]
  constructor
  · intro hne
    apply Bool.not_eq_false _ |>.mp
    intro h0
    refine hne (eq_of_getLsbD_eq fun i _ => ?_)
    rw [hbit, h0, Bool.and_false]
    exact BitVec.getLsbD_zero.symm
  · intro h0 hz
    have := hbit 0
    rw [hz, h0] at this
    cases this

theorem logicFlags_eq (hw : Sized w) (h : HasBits r w p) (cf : Bool) :
    ∃ f, logicFlags r w cf = some f ∧ FlagsOf f r w cf := by
  have hsub : sub w 1 = some (w - 1) := if_pos hw.pos
  have hle := hw.le
  have hpos := hw.pos
  have hshr : shr r (w - 1) = some (r >>> (w - 1)) := if_pos (by omega)
  have hsign : decide (r >>> (w - 1) &&& 1 ≠ 0) = r.getLsbD (w - 1) := by
    rw [and_one_ne_zero, getLsbD_ushiftRight, Nat.add_zero]
  refine ⟨flagIf (r = 0) ZF ||| flagIf (r >>> (w - 1) &&& 1 ≠ 0) SF |||
    flagIf (countOnes r % 2 = 0) PF ||| flagIf cf CF, ?_, fun n => ?_⟩
  · rw [logicFlags, hw.mask]
    dsimp only [Option.bind_eq_bind, Option.bind_some]
    rw [h.masked hw, hsub, Option.bind_some, hshr]
    rfl
  · have hzf : ZF = 1#32 <<< 6 := rfl
    have hsf : SF = 1#32 <<< 7 := rfl
    have hpf : PF = 1#32 <<< 2 := rfl
    have hcf : CF = 1#32 <<< 0 := rfl
    rw [getLsbD_or, getLsbD_or, getLsbD_or, hzf, hsf, hpf, hcf,
      getLsbD_flagIf _ (by decide), getLsbD_flagIf _ (by decide), getLsbD_flagIf _ (by decide),
      getLsbD_flagIf _ (by decide), hsign]

/-- An instruction that sets the flags of its result. -/
theorem HasBits.computes (h : HasBits r w p) (hw : Sized w) (cf : Bool) :
    Computes (do return (r, ← logicFlags r w cf)) w p cf := by
  obtain ⟨f, hf, hflags⟩ := logicFlags_eq hw h cf
  refine ⟨r, f, ?_, h, hflags⟩
  rw [hf]
  rfl

/-! ## Fields and lowest bits -/

theorem andn_computes (hw : Sized w) (a b : BitVec 64) :
    Computes (andn a b w) w (fun i => !a.getLsbD i && b.getLsbD i) false := by
  have hbits : HasBits (~~~a &&& b &&& lowMask w) w fun i => !a.getLsbD i && b.getLsbD i := by
    intro i
    rw [hw.and_lowMask, getLsbD_and, getLsbD_not]
    have := hw.le
    by_cases hi : i < w
    · have hi' : i < 64 := by omega
      simp only [hi, hi', decide_true, Bool.true_and]
    · simp only [hi, decide_false, Bool.false_and]
  have hrun := hbits.computes hw false
  unfold andn
  rw [hw.mask]
  exact hrun

/-- The lowest `n` bits set. -/
theorem shl_one_sub_one (hn : n < 64) : ∃ top m : BitVec 64,
    shl 1 n = some top ∧ sub64 top 1 = some m ∧ ∀ i, m.getLsbD i = decide (i < n) := by
  have hshl : shl (1 : BitVec 64) n = some (1#64 <<< n) := if_pos hn
  have hpow : (1#64 <<< n).toNat = 2 ^ n := by
    rw [toNat_shiftLeft, Nat.shiftLeft_eq, toNat_ofNat, Nat.one_mod, Nat.one_mul]
    exact Nat.mod_eq_of_lt (Nat.pow_lt_pow_right (by decide) hn)
  have hle : (1 : BitVec 64) ≤ 1#64 <<< n := by
    rw [le_def, hpow]
    exact Nat.one_le_two_pow
  refine ⟨1#64 <<< n, 1#64 <<< n - 1, hshl, if_pos hle, fun i => ?_⟩
  · have hsub : (1#64 <<< n - 1).toNat = 2 ^ n - 1 := by
      rw [toNat_sub_of_le hle, hpow]
      rfl
    rw [← testBit_toNat, hsub, Nat.testBit_two_pow_sub_one]

theorem toNat_and_ff (x : BitVec 64) : (x &&& 0xFF).toNat = x.toNat % 256 := by
  rw [toNat_and]
  exact Nat.and_two_pow_sub_one_eq_mod _ 8

/-- The field is cut at the width, wherever it starts. -/
theorem bextr_computes (hw : Sized w) (src control : BitVec 64) :
    Computes (bextr src control w) w (fun i => decide (i < control.toNat / 256 % 256) &&
      (decide (control.toNat % 256 + i < w) && src.getLsbD (control.toNat % 256 + i))) false := by
  have hstart := toNat_and_ff control
  have hlength := toNat_and_ff (control >>> 8)
  rw [toNat_ushiftRight, Nat.shiftRight_eq_div_pow] at hlength
  unfold bextr
  rw [hstart, hlength]
  generalize control.toNat % 256 = start
  have hpow : (2 : Nat) ^ 8 = 256 := rfl
  rw [hpow]
  generalize control.toNat / 256 % 256 = length
  have hle := hw.le
  rw [hw.mask]
  by_cases hstart : start ≥ w
  · rw [if_pos hstart]
    have hbits : HasBits 0 w fun i => decide (i < length) &&
        (decide (start + i < w) && src.getLsbD (start + i)) := by
      intro i
      have : ¬start + i < w := by omega
      simp [this]
    exact hbits.computes hw false
  · rw [if_neg hstart]
    have hshr : shr (src &&& lowMask w) start = some ((src &&& lowMask w) >>> start) :=
      if_pos (by omega)
    have hv (i : Nat) : ((src &&& lowMask w) >>> start).getLsbD i =
        (decide (start + i < w) && src.getLsbD (start + i)) := by
      rw [getLsbD_ushiftRight]
      exact hw.and_lowMask src (start + i)
    by_cases hlen : length ≥ 64
    · have hbits : HasBits ((src &&& lowMask w) >>> start) w fun i => decide (i < length) &&
          (decide (start + i < w) && src.getLsbD (start + i)) := by
        intro i
        rw [hv]
        by_cases hi : start + i < w
        · have hiw : i < w := by omega
          have hil : i < length := by omega
          simp [hi, hiw, hil]
        · simp [hi]
      have hrun := hbits.computes hw false
      simp only [Option.bind_eq_bind, Option.bind_some, hshr, if_pos hlen]
      exact hrun
    · obtain ⟨top, m, htop, hm, hmbits⟩ := shl_one_sub_one (Nat.lt_of_not_le hlen)
      have hbits : HasBits (((src &&& lowMask w) >>> start) &&& m) w fun i =>
          decide (i < length) && (decide (start + i < w) && src.getLsbD (start + i)) := by
        intro i
        rw [getLsbD_and, hv, hmbits]
        by_cases hi : start + i < w
        · have hiw : i < w := by omega
          simp [hi, hiw, Bool.and_comm]
        · simp [hi]
      have hrun := hbits.computes hw false
      simp only [Option.bind_eq_bind] at hrun ⊢
      simp only [Option.bind_some, hshr, if_neg hlen, htop, hm]
      exact hrun

/-- The bits of a number less one: those up to the lowest set bit are flipped. -/
theorem getLsbD_sub_one (s : BitVec 64) (hi : i < 64) :
    (s - 1).getLsbD i = !(s.getLsbD i ^^ decide (∃ j < i, s.getLsbD j = true)) := by
  have hnot : s - 1 = ~~~(-s) := by
    rw [not_neg]
    rfl
  rw [hnot, getLsbD_not, getLsbD_neg]
  simp [hi]

/-- The low bits of an operand. -/
theorem Sized.low_eq_zero (hw : Sized w) (src : BitVec 64) :
    src &&& lowMask w = 0 ↔ ∀ i < w, src.getLsbD i = false := by
  constructor
  · intro h i hi
    have := hw.and_lowMask src i
    rw [h, decide_eq_true hi, Bool.true_and] at this
    exact this.symm.trans getLsbD_zero
  · intro h
    refine eq_of_getLsbD_eq fun i _ => ?_
    rw [hw.and_lowMask src i]
    by_cases hi : i < w
    · rw [h i hi, Bool.and_false]
      exact BitVec.getLsbD_zero.symm
    · rw [decide_eq_false hi, Bool.false_and]
      exact BitVec.getLsbD_zero.symm

/-- Below the operand size, a lower bit of the operand is one of its low bits. -/
theorem Sized.exists_lower (hw : Sized w) (src : BitVec 64) (hi : i < w) :
    (∃ j < i, (src &&& lowMask w).getLsbD j = true) ↔ ∃ j < i, src.getLsbD j = true := by
  refine exists_congr fun j => and_congr_right fun hj => ?_
  rw [hw.and_lowMask src j, decide_eq_true (Nat.lt_trans hj hi), Bool.true_and]

/-- The source has no bit set below `i`. -/
abbrev NoneBelow (src : BitVec 64) (i : Nat) : Prop := ∀ j < i, src.getLsbD j = false

theorem Sized.decide_low (hw : Sized w) (src : BitVec 64) :
    decide (src &&& lowMask w = 0) = decide (NoneBelow src w) :=
  decide_eq_decide.2 (hw.low_eq_zero src)

theorem not_exists_lower (src : BitVec 64) (i : Nat) :
    (!decide (∃ j < i, src.getLsbD j = true)) = decide (NoneBelow src i) := by
  rw [← decide_not]
  refine decide_eq_decide.2 ⟨fun h j hj => ?_, fun h hex => ?_⟩
  · exact Bool.eq_false_iff.2 fun hset => h ⟨j, hj, hset⟩
  · obtain ⟨j, hj, hset⟩ := hex
    rw [h j hj] at hset
    cases hset

theorem blsi_computes (hw : Sized w) (src : BitVec 64) :
    Computes (blsi src w) w (fun i => src.getLsbD i && decide (NoneBelow src i))
      (!decide (NoneBelow src w)) := by
  have hbits : HasBits (-(src &&& lowMask w) &&& (src &&& lowMask w)) w
      fun i => src.getLsbD i && decide (NoneBelow src i) := by
    intro i
    beta_reduce
    have hle := hw.le
    rw [getLsbD_and, getLsbD_neg, hw.and_lowMask src i]
    by_cases hi : i < w
    · have hi' : i < 64 := by omega
      rw [decide_eq_decide.2 (hw.exists_lower src hi), ← not_exists_lower, decide_eq_true hi,
        decide_eq_true hi', Bool.true_and, Bool.true_and, Bool.true_and]
      cases src.getLsbD i <;> cases decide (∃ j < i, src.getLsbD j = true) <;> rfl
    · rw [decide_eq_false hi, Bool.false_and, Bool.false_and, Bool.and_false]
  have hcf : decide (src &&& lowMask w ≠ 0) = !decide (NoneBelow src w) := by
    rw [← decide_not]
    exact decide_eq_decide.2 (not_congr (hw.low_eq_zero src))
  have hrun := hbits.computes hw (!decide (NoneBelow src w))
  unfold blsi
  rw [hw.mask]
  simp only [Option.bind_eq_bind, Option.bind_some, hcf] at hrun ⊢
  exact hrun

theorem blsr_computes (hw : Sized w) (src : BitVec 64) :
    Computes (blsr src w) w (fun i => src.getLsbD i && !decide (NoneBelow src i))
      (decide (NoneBelow src w)) := by
  have hbits : HasBits (((src &&& lowMask w) - 1) &&& (src &&& lowMask w)) w
      fun i => src.getLsbD i && !decide (NoneBelow src i) := by
    intro i
    beta_reduce
    have hle := hw.le
    by_cases hi : i < w
    · have hi' : i < 64 := by omega
      rw [getLsbD_and, getLsbD_sub_one _ hi', hw.and_lowMask src i,
        decide_eq_decide.2 (hw.exists_lower src hi), ← not_exists_lower, decide_eq_true hi,
        Bool.true_and, Bool.true_and]
      cases src.getLsbD i <;> cases decide (∃ j < i, src.getLsbD j = true) <;> rfl
    · rw [getLsbD_and, hw.and_lowMask src i, decide_eq_false hi, Bool.false_and,
        Bool.false_and, Bool.and_false]
  have hcf := hw.decide_low src
  have hrun := hbits.computes hw (decide (NoneBelow src w))
  unfold blsr
  rw [hw.mask]
  simp only [Option.bind_eq_bind, Option.bind_some, hcf] at hrun ⊢
  exact hrun

theorem blsmsk_computes (hw : Sized w) (src : BitVec 64) :
    Computes (blsmsk src w) w (fun i => decide (NoneBelow src i)) (decide (NoneBelow src w)) := by
  have hbits : HasBits ((((src &&& lowMask w) - 1) ^^^ (src &&& lowMask w)) &&& lowMask w) w
      fun i => decide (NoneBelow src i) := by
    intro i
    beta_reduce
    have hle := hw.le
    rw [hw.and_lowMask]
    by_cases hi : i < w
    · have hi' : i < 64 := by omega
      rw [getLsbD_xor, getLsbD_sub_one _ hi', hw.and_lowMask src i,
        decide_eq_decide.2 (hw.exists_lower src hi), ← not_exists_lower, decide_eq_true hi,
        Bool.true_and, Bool.true_and, Bool.true_and]
      cases src.getLsbD i <;> cases decide (∃ j < i, src.getLsbD j = true) <;> rfl
    · rw [decide_eq_false hi, Bool.false_and, Bool.false_and]
  have hcf := hw.decide_low src
  have hrun := hbits.computes hw (decide (NoneBelow src w))
  unfold blsmsk
  rw [hw.mask]
  simp only [Option.bind_eq_bind, Option.bind_some, hcf] at hrun ⊢
  exact hrun

theorem bzhi_computes (hw : Sized w) (src index : BitVec 64) : Computes (bzhi src index w) w
      (fun i => decide (i < index.toNat % 256) && src.getLsbD i)
      (decide (w ≤ index.toNat % 256)) := by
  have hn := toNat_and_ff index
  have hsub : sub w 1 = some (w - 1) := if_pos hw.pos
  unfold bzhi
  rw [hn, hw.mask]
  generalize index.toNat % 256 = n
  have hcf : decide (n > w - 1) = decide (w ≤ n) :=
    decide_eq_decide.2 (by have := hw.pos; omega)
  by_cases hlt : n < w
  · obtain ⟨top, m, htop, hm, hmbits⟩ := shl_one_sub_one (Nat.lt_of_lt_of_le hlt hw.le)
    have hbits : HasBits ((src &&& lowMask w) &&& m) w
        fun i => decide (i < n) && src.getLsbD i := by
      intro i
      rw [getLsbD_and, hw.and_lowMask src i, hmbits, Bool.and_assoc, Bool.and_comm (src.getLsbD i)]
    have hrun := hbits.computes hw (decide (w ≤ n))
    simp only [Option.bind_eq_bind] at hrun ⊢
    simp only [Option.bind_some, if_pos hlt, htop, hm, hsub, hcf]
    exact hrun
  · have hbits : HasBits (src &&& lowMask w) w fun i => decide (i < n) && src.getLsbD i := by
      intro i
      beta_reduce
      rw [hw.and_lowMask src i]
      by_cases hi : i < w
      · have hin : i < n := by omega
        rw [decide_eq_true hi, decide_eq_true hin, Bool.true_and, Bool.true_and]
      · rw [decide_eq_false hi, Bool.false_and, Bool.false_and]
    have hrun := hbits.computes hw (decide (w ≤ n))
    simp only [Option.bind_eq_bind] at hrun ⊢
    simp only [Option.bind_some, if_neg hlt, hsub, hcf]
    exact hrun

/-! ## Products -/

theorem Sized.toNat_low (hw : Sized w) (x : BitVec 64) :
    (x &&& lowMask w).toNat = x.toNat % 2 ^ w := by
  refine Nat.eq_of_testBit_eq fun i => ?_
  rw [Nat.testBit_mod_two_pow, testBit_toNat, testBit_toNat]
  exact hw.and_lowMask x i

/-- The halves of a product of `w`-bit numbers. -/
def Halves (x y w : Nat) (high low : BitVec 64) : Prop :=
  high.toNat < 2 ^ w ∧ low.toNat < 2 ^ w ∧ high.toNat * 2 ^ w + low.toNat = x * y

/-- The two halves are those of the whole product. -/
theorem mulx_halves (hw : Sized w) (a b : BitVec 64) : ∃ high low, mulx a b w = some (high, low) ∧
    Halves (a.toNat % 2 ^ w) (b.toNat % 2 ^ w) w high low := by
  have hx : ((a &&& lowMask w).setWidth 128).toNat = a.toNat % 2 ^ w := by
    rw [toNat_setWidth_of_le (by decide), hw.toNat_low]
  have hy : ((b &&& lowMask w).setWidth 128).toNat = b.toNat % 2 ^ w := by
    rw [toNat_setWidth_of_le (by decide), hw.toNat_low]
  have hxlt : a.toNat % 2 ^ w < 2 ^ w := Nat.mod_lt _ (Nat.two_pow_pos w)
  have hylt : b.toNat % 2 ^ w < 2 ^ w := Nat.mod_lt _ (Nat.two_pow_pos w)
  unfold mulx
  rw [hw.mask]
  simp only [Option.bind_eq_bind, Option.bind_some, hx, hy]
  generalize a.toNat % 2 ^ w = x at *
  generalize b.toNat % 2 ^ w = y at *
  have hpow : (2 : Nat) ^ w ≤ 2 ^ 64 := Nat.pow_le_pow_right (by decide) hw.le
  have hsquare : x * y < 2 ^ w * 2 ^ w := Nat.mul_lt_mul'' hxlt hylt
  have hlt : x * y < 2 ^ 128 := Nat.lt_of_lt_of_le hsquare
    ((Nat.mul_le_mul hpow hpow).trans_eq (by decide))
  have hp : ((a &&& lowMask w).setWidth 128 * (b &&& lowMask w).setWidth 128).toNat = x * y := by
    rw [toNat_mul, hx, hy, Nat.mod_eq_of_lt hlt]
  generalize (a &&& lowMask w).setWidth 128 * (b &&& lowMask w).setWidth 128 = p at hp
  have hshr : shr p w = some (p >>> w) := if_pos (Nat.lt_of_le_of_lt hw.le (by decide))
  rw [if_pos hlt, hshr]
  refine ⟨(p >>> w).setWidth 64 &&& lowMask w, p.setWidth 64 &&& lowMask w, rfl, ?_, ?_, ?_⟩
  · rw [hw.toNat_low]
    exact Nat.mod_lt _ (Nat.two_pow_pos w)
  · rw [hw.toNat_low]
    exact Nat.mod_lt _ (Nat.two_pow_pos w)
  · have hhigh : x * y / 2 ^ w < 2 ^ w := Nat.div_lt_of_lt_mul hsquare
    have hdvd : 2 ^ w ∣ 2 ^ 64 := Nat.pow_dvd_pow 2 hw.le
    rw [hw.toNat_low, hw.toNat_low, toNat_setWidth, toNat_setWidth,
      toNat_ushiftRight, hp, Nat.shiftRight_eq_div_pow,
      Nat.mod_eq_of_lt (Nat.lt_of_lt_of_le hhigh hpow), Nat.mod_eq_of_lt hhigh,
      Nat.mod_mod_of_dvd _ hdvd]
    exact Nat.div_add_mod' _ _

/-! ## Deposit and extract -/

theorem rank_succ (selector : BitVec 64) (i : Nat) :
    rank selector (i + 1) = rank selector i + if selector.getLsbD i = true then 1 else 0 :=
  Nat.count_succ _ _

theorem rank_le (selector : BitVec 64) (i : Nat) : rank selector i ≤ i :=
  Nat.count_le _

/-- A set bit has a rank of its own. -/
theorem rank_lt (hi : selector.getLsbD i = true) (hij : i < j) :
    rank selector i < rank selector j :=
  Nat.count_strict_mono hi hij

theorem rank_inj (hi : selector.getLsbD i = true) (hj : selector.getLsbD j = true)
    (h : rank selector i = rank selector j) : i = j :=
  Nat.count_injective hi hj h

/-- The ranks of the set bits below `n` are the numbers below that of `n`. -/
theorem exists_rank_eq (selector : BitVec 64) :
    (∃ i < n, selector.getLsbD i = true ∧ rank selector i = k) ↔ k < rank selector n := by
  constructor
  · rintro ⟨i, hi, hset, rfl⟩
    exact rank_lt hset hi
  · intro hk
    induction n with
    | zero => exact absurd hk (Nat.not_lt_zero k)
    | succ n ih =>
      rw [rank_succ] at hk
      by_cases hlt : k < rank selector n
      · obtain ⟨i, hi, h⟩ := ih hlt
        exact ⟨i, Nat.lt_succ_of_lt hi, h⟩
      · split at hk
        · rename_i hset
          exact ⟨n, Nat.lt_succ_self n, hset, by omega⟩
        · omega

/-- The result of a round that moves a bit. -/
def moved (src r : BitVec 64) (s t : Nat) : BitVec 64 := r ||| (src >>> s &&& 1) <<< t

theorem getLsbD_moved (src r : BitVec 64) (s : Nat) {t : Nat} (ht : t < 64) (j : Nat) :
    (moved src r s t).getLsbD j = (r.getLsbD j || decide (j = t) && src.getLsbD s) := by
  rw [moved, getLsbD_or, getLsbD_shiftLeft, getLsbD_and_one, getLsbD_ushiftRight, Nat.add_zero]
  by_cases hj : j = t
  · simp [hj, ht]
  · by_cases hlt : j < t
    · simp [hj, hlt]
    · have hne : ¬j - t = 0 := by omega
      simp [hj, hne]

theorem moveBit_eq (src selector : BitVec 64) (source target : Nat → Nat → Nat) (hi : i < 64)
    (hs : source i k < 64) (ht : target i k < 64) (r : BitVec 64) :
    moveBit src selector source target i (r, k) = some (if selector.getLsbD i = true then
      (moved src r (source i k) (target i k), k + 1) else (r, k)) := by
  have hcond : (selector >>> i &&& 1 ≠ 0) ↔ selector.getLsbD i = true := by
    have := and_one_ne_zero (selector >>> i)
    rw [getLsbD_ushiftRight, Nat.add_zero] at this
    rw [← this, decide_eq_true_iff]
  have hshr : shr selector i = some (selector >>> i) := if_pos hi
  have hsrc : shr src (source i k) = some (src >>> source i k) := if_pos hs
  have hshl (v : BitVec 64) : shl v (target i k) = some (v <<< target i k) := if_pos ht
  unfold moveBit
  simp only [Option.bind_eq_bind, Option.bind_some, hshr, hsrc, hshl]
  by_cases hset : selector.getLsbD i = true
  · rw [if_pos (hcond.2 hset), if_pos hset]
    rfl
  · rw [if_neg (fun h => hset (hcond.1 h)), if_neg hset]
    rfl

/-- After `n` rounds: the set bits of the selector below `n` have theirs. -/
theorem pdep_loop (src selector : BitVec 64) (hn : n ≤ 64) : ∃ r, (List.range n).foldlM
        (fun acc i => moveBit src selector (fun _ k => k) (fun i _ => i) i acc) (0, 0) =
          some (r, rank selector n) ∧ ∀ j, r.getLsbD j =
        (decide (j < n) && (selector.getLsbD j && src.getLsbD (rank selector j))) := by
  induction n with
  | zero => exact ⟨0, rfl, fun j => BitVec.getLsbD_zero.trans (by simp)⟩
  | succ n ih =>
    obtain ⟨r, hrun, hbits⟩ := ih (Nat.le_of_succ_le hn)
    have hrank : rank selector n < 64 := Nat.lt_of_le_of_lt (rank_le _ _) hn
    have hstep := moveBit_eq src selector (fun _ k => k) (fun i _ => i)
      (k := rank selector n) hn hrank hn r
    rw [List.range_succ, List.foldlM_append, hrun, Option.bind_eq_bind, Option.bind_some,
      List.foldlM_cons, hstep, rank_succ]
    by_cases hset : selector.getLsbD n = true
    · rw [if_pos hset, if_pos hset]
      refine ⟨_, rfl, fun j => ?_⟩
      rw [getLsbD_moved _ _ _ hn, hbits]
      by_cases hj : j = n
      · subst hj
        simp [hset]
      · have hiff : j < n + 1 ↔ j < n := by omega
        simp [hj, hiff]
    · rw [if_neg hset, if_neg hset]
      refine ⟨r, rfl, fun j => ?_⟩
      rw [hbits]
      by_cases hj : j = n
      · subst hj
        simp [hset]
      · have hiff : j < n + 1 ↔ j < n := by omega
        simp [hiff]

/-- After `n` rounds: what the set bits of the selector below `n` select is packed. -/
theorem pext_loop (src selector : BitVec 64) (hn : n ≤ 64) : ∃ r, (List.range n).foldlM
        (fun acc i => moveBit src selector (fun i _ => i) (fun _ k => k) i acc) (0, 0) =
          some (r, rank selector n) ∧
      ∀ j, r.getLsbD j = decide (∃ i < n, selector.getLsbD i = true ∧ rank selector i = j ∧
        src.getLsbD i = true) := by
  induction n with
  | zero => exact ⟨0, rfl, fun j => BitVec.getLsbD_zero.trans (by simp)⟩
  | succ n ih =>
    obtain ⟨r, hrun, hbits⟩ := ih (Nat.le_of_succ_le hn)
    have hrank : rank selector n < 64 := Nat.lt_of_le_of_lt (rank_le _ _) hn
    have hstep := moveBit_eq src selector (fun i _ => i) (fun _ k => k)
      (k := rank selector n) hn hn hrank r
    rw [List.range_succ, List.foldlM_append, hrun, Option.bind_eq_bind, Option.bind_some,
      List.foldlM_cons, hstep, rank_succ]
    by_cases hset : selector.getLsbD n = true
    · rw [if_pos hset, if_pos hset]
      refine ⟨_, rfl, fun j => ?_⟩
      rw [getLsbD_moved _ _ _ hrank, hbits, Bool.eq_iff_iff]
      simp only [Bool.or_eq_true, Bool.and_eq_true, decide_eq_true_iff]
      constructor
      · rintro (⟨i, hi, h⟩ | ⟨rfl, hsrc⟩)
        · exact ⟨i, Nat.lt_succ_of_lt hi, h⟩
        · exact ⟨n, Nat.lt_succ_self n, hset, rfl, hsrc⟩
      · rintro ⟨i, hi, hsel, rfl, hsrc⟩
        obtain hi | rfl := Nat.lt_succ_iff_lt_or_eq.1 hi
        · exact .inl ⟨i, hi, hsel, rfl, hsrc⟩
        · exact .inr ⟨rfl, hsrc⟩
    · rw [if_neg hset, if_neg hset]
      refine ⟨r, rfl, fun j => ?_⟩
      rw [hbits]
      refine decide_eq_decide.2 ⟨fun ⟨i, hi, h⟩ => ⟨i, Nat.lt_succ_of_lt hi, h⟩, ?_⟩
      rintro ⟨i, hi, hsel, h⟩
      obtain hi | rfl := Nat.lt_succ_iff_lt_or_eq.1 hi
      · exact ⟨i, hi, hsel, h⟩
      · exact absurd hsel hset

theorem pdep_gives (hw : Sized w) (src selector : BitVec 64) : Gives (pdep src selector w) w
    fun i => selector.getLsbD i && src.getLsbD (rank selector i) := by
  obtain ⟨r, hrun, hbits⟩ := pdep_loop src selector hw.le
  refine ⟨r, ?_, hbits⟩
  rw [pdep, hrun]
  rfl

theorem pext_gives (hw : Sized w) (src selector : BitVec 64) : Gives (pext src selector w) w
    fun k => decide (∃ i < w, selector.getLsbD i = true ∧ rank selector i = k ∧
      src.getLsbD i = true) := by
  obtain ⟨r, hrun, hbits⟩ := pext_loop src selector hw.le
  refine ⟨r, ?_, fun k => ?_⟩
  · rw [pext, hrun]
    rfl
  · rw [hbits]
    by_cases hk : k < w
    · rw [decide_eq_true hk, Bool.true_and]
    · rw [decide_eq_false hk, Bool.false_and]
      refine decide_eq_false ?_
      rintro ⟨i, hi, -, rfl, -⟩
      exact hk (Nat.lt_of_le_of_lt (rank_le selector i) hi)

/-- Extracting what was deposited gives as many low bits as the selector has. -/
theorem pext_pdep (hw : Sized w) (x m : BitVec 64) : ∃ d e, pdep x m w = some d ∧
    pext d m w = some e ∧ ∀ k, e.getLsbD k = (decide (k < rank m w) && x.getLsbD k) := by
  obtain ⟨d, hd, hdbits⟩ := pdep_gives hw x m
  obtain ⟨e, he, hebits⟩ := pext_gives hw d m
  refine ⟨d, e, hd, he, fun k => ?_⟩
  rw [hebits, Bool.eq_iff_iff]
  simp only [Bool.and_eq_true, decide_eq_true_iff]
  constructor
  · rintro ⟨-, i, hi, hset, rfl, hbit⟩
    rw [hdbits] at hbit
    simp only [Bool.and_eq_true] at hbit
    exact ⟨rank_lt hset hi, hbit.2.2⟩
  · rintro ⟨hk, hbit⟩
    obtain ⟨i, hi, hset, rfl⟩ := (exists_rank_eq m).2 hk
    refine ⟨Nat.lt_of_lt_of_le hk (rank_le m w), i, hi, hset, rfl, ?_⟩
    rw [hdbits]
    beta_reduce
    rw [hset, hbit, decide_eq_true hi]
    rfl

/-- Depositing what was extracted gives the selected bits. -/
theorem pdep_pext (hw : Sized w) (x m : BitVec 64) : ∃ e d, pext x m w = some e ∧
    pdep e m w = some d ∧ HasBits d w fun i => x.getLsbD i && m.getLsbD i := by
  obtain ⟨e, he, hebits⟩ := pext_gives hw x m
  obtain ⟨d, hd, hdbits⟩ := pdep_gives hw e m
  refine ⟨e, d, he, hd, fun i => ?_⟩
  rw [hdbits]
  beta_reduce
  rw [hebits, Bool.eq_iff_iff]
  simp only [Bool.and_eq_true, decide_eq_true_iff]
  constructor
  · rintro ⟨hi, hset, -, j, -, hjset, hj, hbit⟩
    obtain rfl := rank_inj hjset hset hj
    exact ⟨hi, hbit, hset⟩
  · rintro ⟨hi, hbit, hset⟩
    exact ⟨hi, hset, Nat.lt_of_le_of_lt (rank_le m i) hi, i, hi, hset, rfl, hbit⟩

/-! ## Rotates and shifts -/

theorem Sized.sub_one (hw : Sized w) : Bmi.sub w 1 = some (w - 1) := if_pos hw.pos

theorem Sized.countMasked (hw : Sized w) {v : Nat} (count : BitVec v) :
    Bmi.countMasked count w = some (count.toNat % w) := by
  have hle := hw.le
  have hpos := hw.pos
  have hdvd : w ∣ 2 ^ 32 := Nat.dvd_trans hw.dvd (by decide)
  unfold Bmi.countMasked
  rw [hw.sub_one]
  simp only [Option.bind_eq_bind, Option.bind_some, toNat_and, toNat_setWidth, toNat_ofNat]
  rw [Nat.mod_eq_of_lt (by omega : w - 1 < 2 ^ 32), hw.and_pred, Nat.mod_mod_of_dvd _ hdvd]
  rfl

/-- A rotation takes each bit from `count` further on. -/
theorem rorx_gives (hw : Sized w) (src : BitVec 64) (count : BitVec 8) :
    Gives (rorx src count w) w fun i => src.getLsbD ((i + count.toNat) % w) := by
  have hle := hw.le
  have hpos := hw.pos
  have hmod (i : Nat) : (i + count.toNat) % w = (i + count.toNat % w) % w := by
    rw [Nat.add_mod, Nat.add_mod i (count.toNat % w), Nat.mod_mod]
  have hlow (i : Nat) : (src &&& lowMask w).getLsbD i = (decide (i < w) && src.getLsbD i) :=
    hw.and_lowMask src i
  unfold rorx
  rw [hw.countMasked count, hw.mask]
  simp only [Option.bind_eq_bind, Option.bind_some, hmod]
  have hn : count.toNat % w < w := Nat.mod_lt _ hpos
  generalize count.toNat % w = n at hn
  by_cases hzero : n = 0
  · rw [if_pos hzero]
    refine ⟨_, rfl, fun i => ?_⟩
    beta_reduce
    rw [hlow]
    by_cases hi : i < w
    · rw [hzero, Nat.add_zero, Nat.mod_eq_of_lt hi]
    · rw [decide_eq_false hi, Bool.false_and, Bool.false_and]
  · have hshr : shr (src &&& lowMask w) n = some ((src &&& lowMask w) >>> n) := if_pos (by omega)
    have hsub : sub w n = some (w - n) := if_pos (by omega)
    have hshl : shl (src &&& lowMask w) (w - n) = some ((src &&& lowMask w) <<< (w - n)) :=
      if_pos (by omega)
    rw [if_neg hzero, hshr, hsub, Option.bind_some, Option.bind_some, hshl]
    refine ⟨_, rfl, fun i => ?_⟩
    rw [hw.and_lowMask, getLsbD_or, getLsbD_ushiftRight, getLsbD_shiftLeft, hlow, hlow]
    by_cases hi : i < w
    · have hi64 : i < 64 := by omega
      by_cases hwrap : n + i < w
      · have hmodi : (i + n) % w = n + i := by
          rw [Nat.add_comm]
          exact Nat.mod_eq_of_lt hwrap
        have hlt : i < w - n := by omega
        simp [hi, hwrap, hmodi, hlt]
      · have hmodi : (i + n) % w = i - (w - n) := by
          rw [Nat.mod_eq_sub_mod (by omega), Nat.mod_eq_of_lt (by omega)]
          omega
        have hlt : ¬i < w - n := by omega
        have hltw : i - (w - n) < w := by omega
        simp [hi, hi64, hwrap, hmodi, hlt, hltw]
    · rw [decide_eq_false hi, Bool.false_and, Bool.false_and]

theorem shlx_gives (hw : Sized w) (src count : BitVec 64) : Gives (shlx src count w) w
    fun i => decide (count.toNat % w ≤ i) && src.getLsbD (i - count.toNat % w) := by
  have hle := hw.le
  have hn : count.toNat % w < w := Nat.mod_lt _ hw.pos
  unfold shlx
  rw [hw.countMasked count, hw.mask]
  generalize count.toNat % w = n at hn
  have hshl : shl src n = some (src <<< n) := if_pos (by omega)
  simp only [Option.bind_eq_bind, Option.bind_some, hshl]
  refine ⟨_, rfl, fun i => ?_⟩
  rw [hw.and_lowMask, getLsbD_shiftLeft]
  by_cases hi : i < w
  · have hi64 : i < 64 := by omega
    by_cases hni : n ≤ i
    · simp [hi64, hni, Nat.not_lt.2 hni]
    · simp [hni, Nat.lt_of_not_le hni]
  · rw [decide_eq_false hi, Bool.false_and, Bool.false_and]

theorem shrx_gives (hw : Sized w) (src count : BitVec 64) : Gives (shrx src count w) w
    fun i => decide (i + count.toNat % w < w) && src.getLsbD (i + count.toNat % w) := by
  have hle := hw.le
  have hn : count.toNat % w < w := Nat.mod_lt _ hw.pos
  unfold shrx
  rw [hw.countMasked count, hw.mask]
  generalize count.toNat % w = n at hn
  have hshr : shr (src &&& lowMask w) n = some ((src &&& lowMask w) >>> n) := if_pos (by omega)
  simp only [Option.bind_eq_bind, Option.bind_some, hshr]
  refine ⟨_, rfl, fun i => ?_⟩
  rw [getLsbD_ushiftRight, hw.and_lowMask, Nat.add_comm n i]
  by_cases hni : i + n < w
  · have hi : i < w := by omega
    simp [hni, hi]
  · simp [hni]

/-- Bits from behind the operand are its sign. -/
theorem sarx_gives (hw : Sized w) (src count : BitVec 64) : Gives (sarx src count w) w
    fun i => src.getLsbD (min (i + count.toNat % w) (w - 1)) := by
  have hle := hw.le
  have hpos := hw.pos
  have hn : count.toNat % w < w := Nat.mod_lt _ hpos
  unfold sarx
  rw [hw.countMasked count, hw.mask]
  generalize count.toNat % w = n at hn
  have hshl : shl src (64 - w) = some (src <<< (64 - w)) := if_pos (by omega)
  have hsar (v : BitVec 64) : sar v n = some (v.sshiftRight n) := if_pos (by omega)
  have hsar' (v : BitVec 64) : sar v (64 - w) = some (v.sshiftRight (64 - w)) := if_pos (by omega)
  simp only [Option.bind_eq_bind, Option.bind_some, hw.sub, hshl, hsar, hsar']
  refine ⟨_, rfl, fun i => ?_⟩
  have hmsb : (src <<< (64 - w)).msb = src.getLsbD (w - 1) := by
    rw [msb_eq_getLsbD_last, getLsbD_shiftLeft]
    have hidx : 64 - 1 - (64 - w) = w - 1 := by omega
    rw [hidx]
    have : ¬64 - 1 < 64 - w := by omega
    simp [this]
  rw [hw.and_lowMask, getLsbD_sshiftRight]
  by_cases hi : i < w
  · have hi64 : ¬64 ≤ i := by omega
    have hin : 64 - w + i < 64 := by omega
    rw [if_pos hin, decide_eq_false hi64, Bool.not_false, Bool.true_and,
      getLsbD_sshiftRight, decide_eq_false (Nat.not_le.2 hin), Bool.not_false, Bool.true_and, hmsb]
    congr 1
    by_cases hni : i + n < w
    · have hlt : n + (64 - w + i) < 64 := by omega
      have hge : ¬n + (64 - w + i) < 64 - w := by omega
      have hidx : n + (64 - w + i) - (64 - w) = min (i + n) (w - 1) := by omega
      rw [if_pos hlt, getLsbD_shiftLeft, decide_eq_true hlt, decide_eq_false hge, hidx]
      rfl
    · have hge : ¬n + (64 - w + i) < 64 := by omega
      have hidx : min (i + n) (w - 1) = w - 1 := by omega
      rw [if_neg hge]
      exact congrArg src.getLsbD hidx.symm
  · rw [decide_eq_false hi, Bool.false_and, Bool.false_and]

/-! ## Counts of zeros -/

/-- How far the elements of a range satisfy a condition. -/
theorem takeWhile_range' (q : Nat → Bool) (s m : Nat) :
    ∃ n ≤ m, ((List.range' s m).takeWhile q).length = n ∧ (∀ j < n, q (s + j) = true) ∧
      (n < m → q (s + n) = false) := by
  induction m generalizing s with
  | zero => exact ⟨0, Nat.le_refl 0, rfl, nofun, nofun⟩
  | succ m ih =>
    rw [List.range'_succ, List.takeWhile_cons]
    cases hq : q s with
    | false => exact ⟨0, Nat.zero_le _, rfl, nofun, fun _ => hq⟩
    | true =>
      obtain ⟨n, hn, hlen, hall, hend⟩ := ih (s + 1)
      refine ⟨n + 1, Nat.succ_le_succ hn, congrArg (· + 1) hlen, fun j hj => ?_, fun hlt => ?_⟩
      · cases j with
        | zero => exact hq
        | succ j =>
          have := hall j (Nat.lt_of_succ_lt_succ hj)
          rwa [Nat.add_assoc, Nat.add_comm 1 j] at this
      · have := hend (Nat.lt_of_succ_lt_succ hlt)
        rwa [Nat.add_assoc, Nat.add_comm 1 n] at this

theorem takeWhile_range (q : Nat → Bool) (m : Nat) :
    ∃ n ≤ m, ((List.range m).takeWhile q).length = n ∧ (∀ j < n, q j = true) ∧
      (n < m → q n = false) := by
  obtain ⟨n, hn, hlen, hall, hend⟩ := takeWhile_range' q 0 m
  rw [List.range_eq_range']
  simp only [Nat.zero_add] at hall hend
  exact ⟨n, hn, hlen, hall, hend⟩

/-- A count up to the operand size is a result of that size. -/
theorem hasBits_ofNat (hw : Sized w) (hn : n ≤ w) :
    HasBits (BitVec.ofNat 64 n) w (BitVec.ofNat 64 n).getLsbD := by
  intro i
  by_cases hi : i < w
  · rw [decide_eq_true hi, Bool.true_and]
  · have hle := hw.le
    have hlt : n < 2 ^ i :=
      Nat.lt_of_le_of_lt (Nat.le_trans hn (Nat.le_of_not_lt hi)) Nat.lt_two_pow_self
    rw [decide_eq_false hi, Bool.false_and, getLsbD_ofNat,
      Nat.testBit_lt_two_pow hlt, Bool.and_false]

/-- The instruction overflows nowhere and gives a count with its flags. -/
def Counts (o : Option (BitVec 64 × BitVec 32)) (w n : Nat) (cf : Bool) : Prop :=
  n ≤ w ∧ ∃ f, o = some (BitVec.ofNat 64 n, f) ∧ FlagsOf f (BitVec.ofNat 64 n) w cf

theorem counts_of (hw : Sized w) (hn : n ≤ w) (cf : Bool) :
    Counts (do return (BitVec.ofNat 64 n, ← logicFlags (BitVec.ofNat 64 n) w cf)) w n cf := by
  obtain ⟨f, hf, hflags⟩ := logicFlags_eq hw (hasBits_ofNat hw hn) cf
  refine ⟨hn, f, ?_, hflags⟩
  rw [hf]
  rfl

/-- The source has no bit set among the `n` highest of the operand. -/
abbrev NoneAbove (src : BitVec 64) (w n : Nat) : Prop := ∀ j < n, src.getLsbD (w - 1 - j) = false

/-- The zeros below the lowest set bit. -/
theorem tzcnt_counts (hw : Sized w) (src : BitVec 64) : ∃ n,
    Counts (tzcnt src w) w n (decide (NoneBelow src w)) ∧ NoneBelow src n ∧
      (n < w → src.getLsbD n = true) := by
  have hcf := hw.decide_low src
  unfold tzcnt
  rw [hw.mask]
  simp only [Option.bind_eq_bind, Option.bind_some, hcf]
  by_cases hzero : src &&& lowMask w = 0
  · rw [if_pos hzero]
    exact ⟨w, counts_of hw (Nat.le_refl w) _, (hw.low_eq_zero src).1 hzero,
      fun h => absurd h (Nat.lt_irrefl w)⟩
  · rw [if_neg hzero]
    obtain ⟨n, hn, hlen, hall, hend⟩ :=
      takeWhile_range (fun i => !(src &&& lowMask w).getLsbD i) 64
    have hclear (j : Nat) (hj : j < n) : (src &&& lowMask w).getLsbD j = false := by
      exact Bool.not_eq_true' _ |>.mp (hall j hj)
    have hnw : n < w := by
      apply Nat.lt_of_not_le
      intro hle
      refine hzero ((hw.low_eq_zero src).2 fun i hi => ?_)
      have := hclear i (Nat.lt_of_lt_of_le hi hle)
      rwa [hw.and_lowMask src i, decide_eq_true hi, Bool.true_and] at this
    rw [trailingZeros, hlen]
    refine ⟨n, counts_of hw (Nat.le_of_lt hnw) _, fun j hj => ?_, fun _ => ?_⟩
    · have := hclear j hj
      rwa [hw.and_lowMask src j, decide_eq_true (Nat.lt_trans hj hnw), Bool.true_and] at this
    · have := Bool.not_eq_false' _ |>.mp (hend (Nat.lt_of_lt_of_le hnw hw.le))
      rwa [hw.and_lowMask src n, decide_eq_true hnw, Bool.true_and] at this

/-- The zeros above the highest set bit. -/
theorem lzcnt_counts (hw : Sized w) (src : BitVec 64) : ∃ n,
    Counts (lzcnt src w) w n (decide (NoneBelow src w)) ∧ NoneAbove src w n ∧
      (n < w → src.getLsbD (w - 1 - n) = true) := by
  have hcf := hw.decide_low src
  have hle := hw.le
  unfold lzcnt
  rw [hw.mask]
  simp only [Option.bind_eq_bind, Option.bind_some, hcf, hw.sub]
  by_cases hzero : src &&& lowMask w = 0
  · rw [if_pos hzero]
    refine ⟨w, counts_of hw (Nat.le_refl w) _, fun j hj => ?_, fun h => absurd h (Nat.lt_irrefl w)⟩
    exact (hw.low_eq_zero src).1 hzero (w - 1 - j) (by omega)
  · rw [if_neg hzero]
    obtain ⟨n, hn, hlen, hall, hend⟩ :=
      takeWhile_range (fun i => !(src &&& lowMask w).getMsbD i) 64
    have hmsb (j : Nat) (hj : j < 64) : (src &&& lowMask w).getMsbD j =
        (decide (63 - j < w) && src.getLsbD (63 - j)) := by
      rw [BitVec.getMsbD, decide_eq_true hj, Bool.true_and]
      exact hw.and_lowMask src (63 - j)
    have hclear (j : Nat) (hj : j < n) : (src &&& lowMask w).getMsbD j = false := by
      exact Bool.not_eq_true' _ |>.mp (hall j hj)
    have hnw : n < 64 := by
      apply Nat.lt_of_not_le
      intro hge
      refine hzero ((hw.low_eq_zero src).2 fun i hi => ?_)
      have hidx : 63 - (63 - i) = i := by omega
      have := hclear (63 - i) (by omega)
      rwa [hmsb _ (by omega), hidx, decide_eq_true hi, Bool.true_and] at this
    have hset : (decide (63 - n < w) && src.getLsbD (63 - n)) = true := by
      rw [← hmsb n hnw]
      exact Bool.not_eq_false' _ |>.mp (hend hnw)
    rw [Bool.and_eq_true, decide_eq_true_iff] at hset
    have hsub : sub n (64 - w) = some (n - (64 - w)) := if_pos (by omega)
    rw [leadingZeros, hlen, hsub]
    refine ⟨n - (64 - w), counts_of hw (by omega) _, fun j hj => ?_, fun _ => ?_⟩
    · have hidx : 63 - (64 - w + j) = w - 1 - j := by omega
      have := hclear (64 - w + j) (by omega)
      rwa [hmsb _ (by omega), hidx, decide_eq_true (by omega), Bool.true_and] at this
    · have hidx : 63 - n = w - 1 - (n - (64 - w)) := by omega
      rw [← hidx]
      exact hset.2

/-! ## Swapped bytes -/

theorem getLsbD_append_byte (x : BitVec n) (v : BitVec 64) (s i : Nat) :
    (x ++ v.extractLsb' s 8).getLsbD i =
      if i < 8 then v.getLsbD (s + i) else x.getLsbD (i - 8) := by
  rw [getLsbD_append, getLsbD_extractLsb']
  split
  · rename_i hi
    rw [decide_eq_true hi, Bool.true_and]
  · rfl

theorem getLsbD_swapBytes (v : BitVec 64) (hi : i < 64) :
    (swapBytes v).getLsbD i = v.getLsbD (8 * (7 - i / 8) + i % 8) := by
  have hlast : i - 8 - 8 - 8 - 8 - 8 - 8 - 8 < 8 := by omega
  rw [swapBytes]
  simp only [getLsbD_append_byte, getLsbD_extractLsb', decide_eq_true hlast, Bool.true_and]
  split_ifs <;> congr 1 <;> omega

theorem byteSwap_gives (hw : Sized w) (value : BitVec 64) : Gives (byteSwap value w) w
    fun i => value.getLsbD (8 * (w / 8 - 1 - i / 8) + i % 8) := by
  have hle := hw.le
  have hpos := hw.pos
  have hbytes := hw.bytes
  unfold byteSwap
  rw [hw.mask]
  have hshr (v : BitVec 64) : shr v (64 - w) = some (v >>> (64 - w)) := if_pos (by omega)
  simp only [Option.bind_eq_bind, Option.bind_some, hw.sub, hshr]
  refine ⟨_, rfl, fun i => ?_⟩
  rw [getLsbD_ushiftRight]
  by_cases hi : i < w
  · have hlow : 8 * (w / 8 - 1 - i / 8) + i % 8 < w := by omega
    have hidx : 8 * (7 - (64 - w + i) / 8) + (64 - w + i) % 8 =
        8 * (w / 8 - 1 - i / 8) + i % 8 := by omega
    rw [getLsbD_swapBytes _ (by omega), hidx, hw.and_lowMask, decide_eq_true hlow,
      decide_eq_true hi]
  · rw [decide_eq_false hi, Bool.false_and]
    exact getLsbD_of_ge _ _ (by omega)

/-! ## Execution -/

section
variable {σ ε : Type} {m : Machine σ ε} {i : Instruction} {s s' : σ} {source : BitVec 64}

/-- No operation overflows at a size the instructions allow. -/
theorem compute_isSome (hw : Sized i.bits) (m : Machine σ ε) (source : BitVec 64) (s : σ) :
    (compute m i source s).isSome := by
  have flagged {o : Option (BitVec 64 × BitVec 32)} {p : Nat → Bool} {cf : Bool}
      (h : Computes o i.bits p cf) : o.isSome := by
    obtain ⟨r, f, rfl, -⟩ := h
    rfl
  have plain {o : Option (BitVec 64)} {p : Nat → Bool} (h : Gives o i.bits p) : o.isSome := by
    obtain ⟨r, rfl, -⟩ := h
    rfl
  have hmulx : (mulx (m.gpr 2 s) source i.bits).isSome := by
    obtain ⟨high, low, h, -⟩ := mulx_halves hw (m.gpr 2 s) source
    rw [h]
    rfl
  unfold compute
  cases i.op <;> simp only [Option.isSome_map]
  case andn => exact flagged (andn_computes hw _ _)
  case bextr => exact flagged (bextr_computes hw _ _)
  case blsi => exact flagged (blsi_computes hw _)
  case blsmsk => exact flagged (blsmsk_computes hw _)
  case blsr => exact flagged (blsr_computes hw _)
  case bzhi => exact flagged (bzhi_computes hw _ _)
  case mulx => exact hmulx
  case pdep => exact plain (pdep_gives hw _ _)
  case pext => exact plain (pext_gives hw _ _)
  case rorx => exact plain (rorx_gives hw _ _)
  case sarx => exact plain (sarx_gives hw _ _)
  case shlx => exact plain (shlx_gives hw _ _)
  case shrx => exact plain (shrx_gives hw _ _)

/-- The operand is read first, and nothing overflows. -/
theorem execute_isSome (hw : Sized i.bits) (m : Machine σ ε) (s : σ) : (execute m i s).isSome := by
  unfold execute
  cases m.source i.bits s with
  | mk read s' =>
    cases read with
    | error e => rfl
    | ok source =>
      dsimp only
      rw [Option.isSome_map]
      exact compute_isSome hw m source s'

/-- A fault of the operand read leaves the state that the read left. -/
theorem execute_fault {e : ε} (h : m.source i.bits s = (.error e, s')) :
    execute m i s = some (.error e, s') := by
  unfold execute
  rw [h]

/-- MULX sets the low half first, so the high half is what a common destination holds. -/
theorem execute_mulx (hw : Sized i.bits) (hop : i.op = .mulx)
    (h : m.source i.bits s = (.ok source, s')) : ∃ high low,
      Halves ((m.gpr 2 s').toNat % 2 ^ i.bits) (source.toNat % 2 ^ i.bits) i.bits high low ∧
      execute m i s = some (.ok (),
        m.setGpr i.reg high i.bits (m.setGpr i.vvvv low i.bits s')) := by
  obtain ⟨high, low, hmulx, hhalves⟩ := mulx_halves hw (m.gpr 2 s') source
  refine ⟨high, low, hhalves, ?_⟩
  unfold execute compute
  rw [h, hop]
  dsimp only
  rw [hmulx]
  rfl

end

/-- Every operation meets its definition on the low `w` bits of its operands. -/
structure MeetsDefinitions (w : Nat) : Prop where
  andn : ∀ a b, Computes (andn a b w) w (fun i => !a.getLsbD i && b.getLsbD i) false
  bextr : ∀ src control, Computes (bextr src control w) w
    (fun i => decide (i < control.toNat / 256 % 256) &&
      (decide (control.toNat % 256 + i < w) && src.getLsbD (control.toNat % 256 + i))) false
  blsi : ∀ src, Computes (blsi src w) w (fun i => src.getLsbD i && decide (NoneBelow src i))
    (!decide (NoneBelow src w))
  blsmsk : ∀ src, Computes (blsmsk src w) w (fun i => decide (NoneBelow src i))
    (decide (NoneBelow src w))
  blsr : ∀ src, Computes (blsr src w) w (fun i => src.getLsbD i && !decide (NoneBelow src i))
    (decide (NoneBelow src w))
  bzhi : ∀ src index, Computes (bzhi src index w) w
    (fun i => decide (i < index.toNat % 256) && src.getLsbD i) (decide (w ≤ index.toNat % 256))
  mulx : ∀ a b, ∃ high low, mulx a b w = some (high, low) ∧
    Halves (a.toNat % 2 ^ w) (b.toNat % 2 ^ w) w high low
  pdep : ∀ src selector, Gives (pdep src selector w) w
    fun i => selector.getLsbD i && src.getLsbD (rank selector i)
  pext : ∀ src selector, Gives (pext src selector w) w
    fun k => decide (∃ i < w, selector.getLsbD i = true ∧ rank selector i = k ∧
      src.getLsbD i = true)
  rorx : ∀ src count, Gives (rorx src count w) w fun i => src.getLsbD ((i + count.toNat) % w)
  sarx : ∀ src count, Gives (sarx src count w) w
    fun i => src.getLsbD (min (i + count.toNat % w) (w - 1))
  shlx : ∀ src count, Gives (shlx src count w) w
    fun i => decide (count.toNat % w ≤ i) && src.getLsbD (i - count.toNat % w)
  shrx : ∀ src count, Gives (shrx src count w) w
    fun i => decide (i + count.toNat % w < w) && src.getLsbD (i + count.toNat % w)
  tzcnt : ∀ src, ∃ n, Counts (tzcnt src w) w n (decide (NoneBelow src w)) ∧ NoneBelow src n ∧
    (n < w → src.getLsbD n = true)
  lzcnt : ∀ src, ∃ n, Counts (lzcnt src w) w n (decide (NoneBelow src w)) ∧ NoneAbove src w n ∧
    (n < w → src.getLsbD (w - 1 - n) = true)
  byteSwap : ∀ value, Gives (byteSwap value w) w
    fun i => value.getLsbD (8 * (w / 8 - 1 - i / 8) + i % 8)

/-- Deposit and extract are inverse up to the bits the selector has. -/
structure Inverse (w : Nat) : Prop where
  extract_deposit : ∀ x selector, ∃ d e, pdep x selector w = some d ∧ pext d selector w = some e ∧
    ∀ k, e.getLsbD k = (decide (k < rank selector w) && x.getLsbD k)
  deposit_extract : ∀ x selector, ∃ e d, pext x selector w = some e ∧ pdep e selector w = some d ∧
    HasBits d w fun i => x.getLsbD i && selector.getLsbD i

/-- How an instruction executes: it overflows nowhere, a fault of its operand read changes nothing
more, and MULX sets its high half last. -/
structure Executes {σ ε : Type} (m : Machine σ ε) (i : Instruction) (s : σ) : Prop where
  total : (execute m i s).isSome
  fault : ∀ e s', m.source i.bits s = (.error e, s') → execute m i s = some (.error e, s')
  mulx : i.op = .mulx → ∀ source s', m.source i.bits s = (.ok source, s') → ∃ high low,
    Halves ((m.gpr 2 s').toNat % 2 ^ i.bits) (source.toNat % 2 ^ i.bits) i.bits high low ∧
    execute m i s = some (.ok (), m.setGpr i.reg high i.bits (m.setGpr i.vvvv low i.bits s'))

/-- Every helper meets its definition, `pdep` and `pext` are inverses, and nothing overflows. -/
theorem bmi_correct (size : OperandSize) : MeetsDefinitions size.bits ∧ Inverse size.bits ∧
    ∀ {σ ε : Type} (m : Machine σ ε) (i : Instruction) (s : σ), i.bits = size.bits →
      Executes m i s := by
  have hw := size.sized
  refine ⟨⟨andn_computes hw, bextr_computes hw, blsi_computes hw, blsmsk_computes hw,
    blsr_computes hw, bzhi_computes hw, mulx_halves hw, pdep_gives hw, pext_gives hw,
    rorx_gives hw, sarx_gives hw, shlx_gives hw, shrx_gives hw, tzcnt_counts hw, lzcnt_counts hw,
    byteSwap_gives hw⟩, ⟨pext_pdep hw, pdep_pext hw⟩, ?_⟩
  intro σ ε m i s hbits
  have hi : Sized i.bits := hbits ▸ hw
  exact ⟨execute_isSome hi m s, fun _ _ => execute_fault, fun hop _ _ => execute_mulx hi hop⟩

/-- MULX of an absent operand faults in the interpreter and leaves its registers. -/
theorem bmi_correct_fault (s : Interpreter) :
    execute (Interpreter.machine (fun _ => .error ()) none 0) ⟨.mulx, 0, 0, 32, 0⟩ s =
      some (.error (), s) :=
  ((bmi_correct .dword).2.2 (Interpreter.machine (fun _ => .error ()) none 0)
    ⟨.mulx, 0, 0, 32, 0⟩ s rfl).fault () s rfl

end V86.Bmi
