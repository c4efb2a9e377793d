import V86.Ir.Hir
import V86.Lib.Lanes
import Mathlib.Algebra.Group.Int.Defs

/-!
# Values and pure operations

What a pure HIR operation computes. A run-time value of any type is held in 128 bits; an integer
of `w` bits, an address or a floating-point image is held zero-extended, an effect token is zero
(`Ty.Fits`). Integer operations act on bit vectors of the operand's width; shift counts are taken
modulo 32, or modulo 64 for 64-bit operands. Packed operations follow `simd::PackedOp::apply` and
`cpu::simd_int`, on vectors of lanes.
-/

namespace V86.Ir

/-- A run-time value, zero-extended. -/
abbrev Val := BitVec 128

/-- The number of bits a run-time value of a type has. -/
def Ty.width : Ty → Nat
  | .i1 => 1
  | .i8 => 8
  | .i16 => 16
  | .i32 | .f32 | .effectiveAddress | .linearAddress | .ramAddress => 32
  | .i64 | .f64 | .rmwTicket => 64
  | .f80 => 80
  | .v128 => 128
  | .effect | .guardProof => 0

/-- The value is one of the type's. -/
def Ty.Fits (ty : Ty) (v : Val) : Prop := (v.setWidth ty.width).setWidth 128 = v

/-- The value of a type that has the low bits of `v`. -/
def Ty.clamp (ty : Ty) (v : Val) : Val := (v.setWidth ty.width).setWidth 128

theorem Ty.width_le (ty : Ty) : ty.width ≤ 128 := by
  cases ty <;> decide

theorem Ty.width_of_bits {ty : Ty} {n : Nat} (h : ty.bits = some n) :
    ty.width = n ∧ 0 < n ∧ n ≤ 64 := by
  cases ty <;> simp_all [Ty.bits, Ty.width] <;> omega

/-- A value that is the extension of one of the type's width is of the type. -/
theorem Ty.fits_setWidth (ty : Ty) (v : BitVec ty.width) : ty.Fits (v.setWidth 128) := by
  unfold Ty.Fits
  rw [BitVec.setWidth_setWidth_of_le _ ty.width_le, BitVec.setWidth_eq]

@[simp] theorem Ty.fits_clamp (ty : Ty) (v : Val) : ty.Fits (ty.clamp v) := ty.fits_setWidth _

/-! ## Integer operations -/

/-- The count of a shift of a `w`-bit operand. -/
def shiftCount (w : Nat) (count : BitVec w) : Nat := count.toNat % (if w = 64 then 64 else 32)

/-- The comparisons, which give one bit. -/
def Binary.comparison : Binary → Bool
  | .eq | .ult | .slt => true
  | _ => false

/-- An integer operation on operands of `w` bits; a comparison gives one bit. -/
def Binary.eval (op : Binary) (w : Nat) (x y : Val) : Val :=
  let a := x.setWidth w
  let b := y.setWidth w
  match op with
  | .add => (a + b).setWidth 128
  | .sub => (a - b).setWidth 128
  | .mul => (a * b).setWidth 128
  | .and => (a &&& b).setWidth 128
  | .or => (a ||| b).setWidth 128
  | .xor => (a ^^^ b).setWidth 128
  | .shl => (a <<< shiftCount w b).setWidth 128
  | .shr => (a >>> shiftCount w b).setWidth 128
  | .sar => (a.sshiftRight (shiftCount w b)).setWidth 128
  | .eq => (BitVec.ofBool (a == b)).setWidth 128
  | .ult => (BitVec.ofBool (a.ult b)).setWidth 128
  | .slt => (BitVec.ofBool (a.slt b)).setWidth 128

/-- The `w`-bit base with the `p` bits from `lsb` on replaced by the part. -/
def insertBits (w p lsb : Nat) (base part : Val) : Val :=
  let hole : BitVec w := (BitVec.allOnes p).setWidth w <<< lsb
  ((base.setWidth w &&& ~~~hole) ||| (part.setWidth p).setWidth w <<< lsb).setWidth 128

/-! ## Packed operations -/

/-- A lane-wise operation on two vectors. -/
def lanewise (w : Nat) (f : BitVec w → BitVec w → BitVec w) (a b : Val) : Val :=
  ofLanes 128 w fun i => f (lane w a i) (lane w b i)

/-- All ones where the condition holds. -/
def laneMask (w : Nat) (c : Bool) : BitVec w := if c then BitVec.allOnes w else 0

/-- Clamp a signed number into a lane. -/
def clampLane (w : Nat) (lo hi v : Int) : BitVec w := BitVec.ofInt w (max lo (min hi v))

/-- Interleave the lanes of the low or the high halves. -/
def unpack (w : Nat) (high : Bool) (a b : Val) : Val :=
  ofLanes 128 w fun i =>
    lane w (if i % 2 = 0 then a else b) (i / 2 + if high then 64 / w else 0)

/-- Narrow the signed lanes of both vectors with saturation to `[lo, hi]`. -/
def packLanes (w : Nat) (lo hi : Int) (a b : Val) : Val :=
  ofLanes 128 w fun i =>
    let half := 64 / w
    clampLane w lo hi (lane (2 * w) (if i < half then a else b) (i % half)).toInt

/-- `simd::PackedOp::apply`, with the SSSE3 and SSE4 forms of `cpu::simd_int`. -/
def PackedOp.apply (op : PackedOp) (a b : Val) : Val :=
  let count := (lane 64 b 0).toNat
  let addS (w : Nat) := lanewise w fun x y =>
    clampLane w (-(2 ^ (w - 1))) (2 ^ (w - 1) - 1) (x.toInt + y.toInt)
  let subS (w : Nat) := lanewise w fun x y =>
    clampLane w (-(2 ^ (w - 1))) (2 ^ (w - 1) - 1) (x.toInt - y.toInt)
  let addU (w : Nat) := lanewise w fun x y => BitVec.ofNat w (min (x.toNat + y.toNat) (2 ^ w - 1))
  let subU (w : Nat) := lanewise w fun x y => BitVec.ofNat w (x.toNat - y.toNat)
  let minU (w : Nat) := lanewise w fun x y => if x.ult y then x else y
  let maxU (w : Nat) := lanewise w fun x y => if x.ult y then y else x
  let minS (w : Nat) := lanewise w fun x y => if x.slt y then x else y
  let maxS (w : Nat) := lanewise w fun x y => if x.slt y then y else x
  let avg (w : Nat) := lanewise w fun x y => BitVec.ofNat w ((x.toNat + y.toNat + 1) / 2)
  let eq (w : Nat) := lanewise w fun x y => laneMask w (x == y)
  let gt (w : Nat) := lanewise w fun x y => laneMask w (y.slt x)
  let shl (w : Nat) := ofLanes 128 w fun i => lane w a i <<< count
  let shr (w : Nat) := ofLanes 128 w fun i => lane w a i >>> count
  let sar (w : Nat) := ofLanes 128 w fun i => (lane w a i).sshiftRight (min count (w - 1))
  match op with
  | .unpackLow8 => unpack 8 false a b
  | .unpackLow16 => unpack 16 false a b
  | .unpackLow32 => unpack 32 false a b
  | .unpackLow64 => unpack 64 false a b
  | .unpackHigh8 => unpack 8 true a b
  | .unpackHigh16 => unpack 16 true a b
  | .unpackHigh32 => unpack 32 true a b
  | .unpackHigh64 => unpack 64 true a b
  | .packS16S8 => packLanes 8 (-128) 127 a b
  | .packS16U8 => packLanes 8 0 255 a b
  | .packS32S16 => packLanes 16 (-32768) 32767 a b
  | .packS32U16 => packLanes 16 0 65535 a b
  | .shr16 => shr 16
  | .shr32 => shr 32
  | .shr64 => shr 64
  | .sar16 => sar 16
  | .sar32 => sar 32
  | .shl16 => shl 16
  | .shl32 => shl 32
  | .shl64 => shl 64
  | .add8 => lanewise 8 (· + ·) a b
  | .add16 => lanewise 16 (· + ·) a b
  | .add32 => lanewise 32 (· + ·) a b
  | .add64 => lanewise 64 (· + ·) a b
  | .sub8 => lanewise 8 (· - ·) a b
  | .sub16 => lanewise 16 (· - ·) a b
  | .sub32 => lanewise 32 (· - ·) a b
  | .sub64 => lanewise 64 (· - ·) a b
  | .addSatS8 => addS 8 a b
  | .addSatS16 => addS 16 a b
  | .addSatU8 => addU 8 a b
  | .addSatU16 => addU 16 a b
  | .subSatS8 => subS 8 a b
  | .subSatS16 => subS 16 a b
  | .subSatU8 => subU 8 a b
  | .subSatU16 => subU 16 a b
  | .gtS8 => gt 8 a b
  | .gtS16 => gt 16 a b
  | .gtS32 => gt 32 a b
  | .gtS64 => gt 64 a b
  | .eq8 => eq 8 a b
  | .eq16 => eq 16 a b
  | .eq32 => eq 32 a b
  | .eq64 => eq 64 a b
  | .minU8 => minU 8 a b
  | .minU16 => minU 16 a b
  | .minU32 => minU 32 a b
  | .minS8 => minS 8 a b
  | .minS16 => minS 16 a b
  | .minS32 => minS 32 a b
  | .maxU8 => maxU 8 a b
  | .maxU16 => maxU 16 a b
  | .maxU32 => maxU 32 a b
  | .maxS8 => maxS 8 a b
  | .maxS16 => maxS 16 a b
  | .maxS32 => maxS 32 a b
  | .avgU8 => avg 8 a b
  | .avgU16 => avg 16 a b
  | .mulHighU16 => lanewise 16 (fun x y => BitVec.ofNat 16 (x.toNat * y.toNat / 2 ^ 16)) a b
  | .mulHighS16 => lanewise 16 (fun x y => BitVec.ofInt 16 (x.toInt * y.toInt / 2 ^ 16)) a b
  | .mulLow16 => lanewise 16 (· * ·) a b
  | .mulLow32 => lanewise 32 (· * ·) a b
  | .mulU32 => ofLanes 128 64 fun i =>
      (lane 32 a (2 * i)).setWidth 64 * (lane 32 b (2 * i)).setWidth 64
  | .maddS16 => ofLanes 128 32 fun i =>
      (lane 16 a (2 * i)).signExtend 32 * (lane 16 b (2 * i)).signExtend 32 +
        (lane 16 a (2 * i + 1)).signExtend 32 * (lane 16 b (2 * i + 1)).signExtend 32
  | .sadU8 => ofLanes 128 64 fun i => BitVec.ofNat 64
      ((List.range 8).map fun j =>
        ((lane 8 a (8 * i + j)).toNat - (lane 8 b (8 * i + j)).toNat : Int).natAbs).sum
  | .and => a &&& b
  | .andNot => ~~~a &&& b
  | .or => a ||| b
  | .xor => a ^^^ b
  | .shuffleBytes => ofLanes 128 8 fun i =>
      if (lane 8 b i).msb then 0 else lane 8 a ((lane 8 b i).toNat % 16)

/-- The bytes of two vectors that a Wasm `i8x16.shuffle` selects. -/
def shuffleBytes (lanes : Vector Nat 16) (a b : Val) : Val :=
  ofLanes 128 8 fun i =>
    let s := lanes.toList.getD i 0
    lane 8 (if s / 16 = 0 then a else b) (s % 16)

/-- One lane of a vector, zero-extended. -/
def extractLane (bits i : Nat) (a : Val) : Val := (lane bits a i).setWidth 128

/-- The vector with one lane replaced by the low bits of a scalar. -/
def replaceLane (bits i : Nat) (a s : Val) : Val :=
  ofLanes 128 bits fun j => if j = i then s.setWidth bits else lane bits a j

/-- The top bits of the lanes, collected from bit 0 on. -/
def bitmask (bits : Nat) (a : Val) : Val :=
  (ofBits 32 fun i => decide ((i + 1) * bits ≤ 128) && (lane bits a i).msb).setWidth 128

/-! ## Operations -/

/-- The operations with a result that is a function of their operands. All others read the CPU or
guest memory, call a helper or check. -/
def Op.pure : Op → Bool
  | .const _ | .binary _ | .select | .extend _ | .truncate | .extract _ | .insert _
  | .countLeadingZeros | .countTrailingZeros | .populationCount | .linearOffset
  | .vectorBitmask _ | .vectorBinary _ | .vectorShuffle _ | .vectorExtract .. | .vectorReplace .. =>
    true
  | _ => false

/-- The result of a pure operation, given the types of its operands and of its result. -/
def Op.eval (op : Op) (tys : List Ty) (ty : Ty) (args : List Val) : Val :=
  let w := (tys.headD .i1).width
  let p := (tys.tail.headD .i1).width
  match op, args with
  | .const n, [] => n.setWidth 128
  | .binary op, [x, y] => op.eval w x y
  | .select, [c, x, y] => if c = 0 then y else x
  | .extend true, [x] => ((x.setWidth w).signExtend ty.width).setWidth 128
  | .extend false, [x] => ((x.setWidth w).setWidth ty.width).setWidth 128
  | .truncate, [x] => ((x.setWidth w).setWidth ty.width).setWidth 128
  | .extract lsb, [x] => ((x.setWidth w).extractLsb' lsb ty.width).setWidth 128
  | .insert lsb, [x, y] => insertBits w p lsb x y
  | .countLeadingZeros, [x] => (x.setWidth w).clz.setWidth 128
  | .countTrailingZeros, [x] => (x.setWidth w).ctz.setWidth 128
  | .populationCount, [x] => (x.setWidth w).cpop.setWidth 128
  | .linearOffset, [x, y] => (x.setWidth 32 + y.setWidth 32).setWidth 128
  | .vectorBitmask bits, [x] => bitmask bits x
  | .vectorBinary op, [x, y] => op.apply x y
  | .vectorShuffle lanes, [x, y] => shuffleBytes lanes x y
  | .vectorExtract bits i, [x] => extractLane bits i x
  | .vectorReplace bits i, [x, y] => replaceLane bits i x y
  | _, _ => 0

end V86.Ir
