import V86.Cpu.ArithShifts
import V86.Ir.Frontend.Build

/-!
# Integer instructions

The arithmetic of `frontend/integer.rs`: the six arithmetic flags are SSA values of their own, and
the flag backing that the interpreter would leave (`raw_flags`, `lazy_mask`, `last_op1`,
`last_result`, `last_op_size`) is kept beside them. A builder's flags are passed and returned here.
`frontend/shift.rs`: rotates, rotates through carry, shifts and double shifts of 8, 16 and 32 bits,
without branches. A count of zero is a choice at the end, and what an operation leaves undefined is as
the interpreter has it. The last section says what a step is to compute.
-/

namespace V86.Ir

namespace Build

/-- `IntegerBuilder::constant`, of an integer type. -/
def constant (n : BitVec 32) (ty : Ty) : Build ValueId :=
  let bits := ty.bits.getD 0
  let mask : BitVec 32 := if bits ≥ 32 then BitVec.allOnes 32 else (1 <<< bits) - 1
  node (.const ((n &&& mask).setWidth 64)) [] ty

/-- `IntegerBuilder::binary`. -/
def binary (op : Binary) (a b : ValueId) : Build ValueId := do
  let ty ← if op.comparison then pure .i1 else ty a
  node (.binary op) [a, b] ty

/-- `IntegerBuilder::extract`. -/
def extract (value : ValueId) (lsb : Nat) (ty : Ty) : Build ValueId :=
  node (.extract lsb) [value] ty

/-- `IntegerBuilder::as_i32`. -/
def asI32 (value : ValueId) : Build ValueId := do
  if (← ty value) = .i32 then return value
  else node (.extend false) [value] .i32

/-- `IntegerBuilder::select_backing`. -/
def select (condition yes no : ValueId) : Build ValueId := do
  node .select [condition, yes, no] (← ty yes)

end Build

/-! ## The flag backing -/

/-- The flags of a builder. -/
abbrev Flags := FlagState ValueId

namespace Build

def invalidateFlagBacking (flags : Flags) : Build Flags := do
  let invalid ← constant 0 .i1
  return { flags with backingValid := some invalid }

def writeRawFlagBit (raw value : ValueId) (bit : Nat) : Build ValueId := do
  let mask ← constant (~~~((1 : BitVec 32) <<< bit)) .i32
  let cleared ← binary .and raw mask
  let value ← node (.extend false) [value] .i32
  let value ←
    if bit = 0 then pure value
    else do
      let shift ← constant (BitVec.ofNat 32 bit) .i32
      binary .shl value shift
  binary .or cleared value

def preserveShiftBacking (flags : Flags) (unchanged rawResult carry overflow : ValueId)
    (width : Nat) : Build Flags :=
  match flags.rawFlags, flags.lazyMask, flags.lastResult, flags.lastOpSize with
  | some oldRaw, some oldMask, some oldResult, some oldSize => do
    let raw ← writeRawFlagBit oldRaw carry 0
    let raw ← writeRawFlagBit raw overflow 11
    let mask ← constant (FLAGS_ALL &&& ~~~FLAG_CARRY &&& ~~~FLAG_OVERFLOW) .i32
    let result ← asI32 rawResult
    let size ← constant (BitVec.ofNat 32 (width - 1)) .i32
    let raw ← select unchanged oldRaw raw
    let mask ← select unchanged oldMask mask
    let result ← select unchanged oldResult result
    let size ← select unchanged oldSize size
    return { flags with
      rawFlags := some raw, lazyMask := some mask, lastResult := some result, lastOpSize := some size }
  | _, _, _, _ => invalidateFlagBacking flags

def preserveRotateBacking (flags : Flags) (unchanged carry overflow : ValueId) : Build Flags :=
  match flags.rawFlags, flags.lazyMask with
  | some oldRaw, some oldMask => do
    let raw ← writeRawFlagBit oldRaw carry 0
    let raw ← writeRawFlagBit raw overflow 11
    let clear ← constant (~~~(FLAG_CARRY ||| FLAG_OVERFLOW)) .i32
    let mask ← binary .and oldMask clear
    let raw ← select unchanged oldRaw raw
    let mask ← select unchanged oldMask mask
    return { flags with rawFlags := some raw, lazyMask := some mask }
  | _, _ => invalidateFlagBacking flags

/-- `OR`, `AND`, `XOR`. -/
def logical (group : Nat) : Bool := group = 1 || group = 4 || group = 6

/-- `SBB`, `SUB`, `CMP`. -/
def subtracts (group : Nat) : Bool := group = 3 || group = 5 || group = 7

/-- `ADC`, `SBB`. -/
def takesCarry (group : Nat) : Bool := group = 2 || group = 3

/-- `update_lazy_backing`. A logical operation needs the raw flags there. -/
def updateLazyBacking (flags : Flags) (group : Nat) (result : ValueId) (width : Nat) :
    Build Flags := do
  let result ← asI32 result
  let size ← constant (BitVec.ofNat 32 (width - 1)) .i32
  let flags := { flags with lastResult := some result, lastOpSize := some size }
  if logical group then
    let clear ← constant (~~~(FLAG_CARRY ||| FLAG_ADJUST ||| FLAG_OVERFLOW)) .i32
    let raw ← binary .and (flags.rawFlags.getD 0) clear
    let mask ← constant
      (FLAGS_ALL &&& ~~~FLAG_CARRY &&& ~~~FLAG_ADJUST &&& ~~~FLAG_OVERFLOW) .i32
    return { flags with rawFlags := some raw, lazyMask := some mask }
  else if group = 0 ∨ group = 5 ∨ group = 7 then
    let mask ← constant (if group = 5 ∨ group = 7 then FLAGS_ALL ||| FLAG_SUB else FLAGS_ALL) .i32
    return { flags with lazyMask := some mask }
  else if takesCarry group then
    match flags.rawFlags with
    | none => invalidateFlagBacking flags
    | some raw =>
      let raw ← writeRawFlagBit raw flags.arithmetic[0] 0
      let raw ← writeRawFlagBit raw flags.arithmetic[2] 4
      let raw ← writeRawFlagBit raw flags.arithmetic[5] 11
      let mask := FLAGS_ALL &&& ~~~FLAG_CARRY &&& ~~~FLAG_ADJUST &&& ~~~FLAG_OVERFLOW
      let mask ← constant (if group = 3 then mask ||| FLAG_SUB else mask) .i32
      return { flags with rawFlags := some raw, lazyMask := some mask }
  else invalidateFlagBacking flags

/-! ## Arithmetic -/

/-- The operation of a group, without its carry. -/
def arithmeticOp : Nat → Binary
  | 0 | 2 => .add
  | 1 => .or
  | 3 | 5 | 7 => .sub
  | 4 => .and
  | _ => .xor

/-- `last_op1`: the first operand, unless the operation is logical. -/
def lastOperand (flags : Flags) (group : Nat) (a : ValueId) : Build (Option ValueId) :=
  if logical group then return flags.lastOp1
  else do
    let wide ← asI32 a
    return some wide

/-- The result, from the one without the carry. -/
def withCarry (flags : Flags) (group : Nat) (first : ValueId) (ty : Ty) : Build ValueId :=
  if takesCarry group then do
    let carry ← node (.extend false) [flags.arithmetic[0]] ty
    binary (arithmeticOp group) first carry
  else pure first

/-- The carry of a sum or a difference: where it wraps. -/
def carryFlag (group : Nat) (a b first result : ValueId) : Build ValueId := do
  let c1 ← if subtracts group then binary .ult a b else binary .ult first a
  if takesCarry group then
    let c2 ← if subtracts group then binary .ult first result else binary .ult result first
    binary .or c1 c2
  else return c1

/-- The carry, adjust and overflow flags. -/
def arithmeticFlags (group : Nat) (a b first result : ValueId) (width : Nat) :
    Build (ValueId × ValueId × ValueId) :=
  if logical group then do
    let cf ← constant 0 .i1
    return (cf, cf, cf)
  else do
    let cf ← carryFlag group a b first result
    let ab ← binary .xor a b
    let ar ← binary .xor a result
    let afBits ← binary .xor ab result
    let af ← extract afBits 4 .i1
    let overflow ← if subtracts group then binary .and ar ab else do
      let rhs ← binary .xor b result
      binary .and ar rhs
    let of ← extract overflow (width - 1) .i1
    return (cf, af, of)

/-- The parity of the low byte: the loop over its bits, and the inversion by `one`. -/
def parityFlag (result : ValueId) : Build (ValueId × ValueId) := do
  let parity ← extract result 0 .i1
  let parity ← [1, 2, 3, 4, 5, 6, 7].foldlM (fun parity bit => do
    let v ← extract result bit .i1
    binary .xor parity v) parity
  let one ← constant 1 .i1
  let pf ← binary .xor parity one
  return (pf, one)

/-- `IntegerBuilder::arithmetic`, for groups 0 to 7. -/
def arithmetic (flags : Flags) (group : Nat) (a b : ValueId) : Build (ValueId × Flags) := do
  let ty ← ty a
  let width := ty.bits.getD 0
  let lastOp1 ← lastOperand flags group a
  let first ← binary (arithmeticOp group) a b
  let result ← withCarry flags group first ty
  let zeroValue ← constant 0 ty
  let (cf, af, of) ← arithmeticFlags group a b first result width
  let zf ← binary .eq result zeroValue
  let sf ← extract result (width - 1) .i1
  let (pf, one) ← parityFlag result
  let flags := { flags with arithmetic := #v[cf, pf, af, zf, sf, of], zeroIsLazy := some one, lastOp1 }
  let flags ← updateLazyBacking flags group result width
  return (result, flags)

end Build

/-! ## Shifts and rotates -/

/-- `integer::width_type`. -/
def widthType : Nat → Ty
  | 8 => .i8
  | 16 => .i16
  | _ => .i32

namespace Build

/-- `IntegerBuilder::read`: a register, or the part of one that an operand is. -/
def read (gpr : Vector ValueId 8) (register : Fin 8) (width : Nat) : Build ValueId :=
  if width = 32 then pure gpr[register]
  else if width = 8 then
    extract gpr[register.val % 4] (if register ≥ 4 then 8 else 0) .i8
  else extract gpr[register] 0 (widthType width)

def wide (value : ValueId) (signed : Bool) : Build ValueId := do
  if (← ty value) = .i32 then return value
  else node (.extend signed) [value] .i32

def number (value : BitVec 32) : Build ValueId := constant value .i32

def withConstant (op : Binary) (a : ValueId) (c : BitVec 32) : Build ValueId := do
  let c ← number c
  binary op a c

def fromConstant (c : BitVec 32) (op : Binary) (a : ValueId) : Build ValueId := do
  let c ← number c
  binary op c a

def combine (a left c right : ValueId) : Build ValueId := do
  let a ← binary .shl a left
  let c ← binary .shr c right
  binary .or a c

/-- `modulo`: the remainder of a number up to 31, by as many subtractions as that takes. -/
def modulo (n : ValueId) (modulus : Nat) : Build ValueId :=
  (List.range (31 / modulus)).foldlM (fun n _ => do
    let m ← number (BitVec.ofNat 32 modulus)
    let less ← binary .ult n m
    let sub ← binary .sub n m
    select less n sub) n

/-- `shift_flags`, with `last_op1` known. -/
def shiftFlags (flags : Flags) (result cf of : ValueId) (width : Nat) : Build Flags := do
  let last := flags.lastOp1.getD 0
  let other ← binary .sub result last
  let xor ← binary .xor last other
  let xor ← binary .xor xor result
  let af ← extract xor 4 .i1
  let zeroValue ← number 0
  let zf ← binary .eq result zeroValue
  let sf ← extract result (width - 1) .i1
  let (pf, one) ← parityFlag result
  return { flags with arithmetic := #v[cf, pf, af, zf, sf, of], zeroIsLazy := some one }

/-- What a shift computes: the result before it is cut to the width, the carry and the overflow. -/
structure Shifted where
  raw : ValueId
  cf : ValueId
  of : ValueId

/-- The result and the carry of `ROL` and `ROR`. -/
def roll (group width : Nat) (a n : ValueId) : Build (ValueId × ValueId) := do
  let rotate ← withConstant .and n (BitVec.ofNat 32 width - 1)
  let inverse ← fromConstant (BitVec.ofNat 32 width) .sub rotate
  let raw ← if group = 0 then combine a rotate a inverse else combine a inverse a rotate
  let cf ← extract raw (if group = 0 then 0 else width - 1) .i1
  return (raw, cf)

/-- The result and the carry of `RCL` and `RCR` of less than 32 bits: the carry is packed above the
operand. -/
def through (carry : ValueId) (group width : Nat) (a n : ValueId) : Build (ValueId × ValueId) := do
  let carry ← wide carry false
  let carry ← withConstant .shl carry (BitVec.ofNat 32 width)
  let packed ← binary .or a carry
  let inverse ← fromConstant (BitVec.ofNat 32 width + 1) .sub n
  let raw ←
    if group = 2 then combine packed n packed inverse else combine packed inverse packed n
  let cf ← extract raw width .i1
  return (raw, cf)

/-- The result and the carry of `RCL` and `RCR` of 32 bits. -/
def through32 (carry : ValueId) (group : Nat) (a n previous zeroValue : ValueId) :
    Build (ValueId × ValueId) := do
  let carry ← wide carry false
  let inverse ← fromConstant 32 .sub n
  let through ← fromConstant 33 .sub n
  let moreThanOne ← fromConstant 1 .ult n
  let extra ← binary (if group = 2 then .shr else .shl) a through
  let extra ← select moreThanOne extra zeroValue
  let first ← binary (if group = 2 then .shl else .shr) a n
  let carry ← binary .shl carry (if group = 2 then previous else inverse)
  let first ← binary .or first carry
  let raw ← binary .or first extra
  let carry ← binary .shr a (if group = 2 then inverse else previous)
  let cf ← extract carry 0 .i1
  return (raw, cf)

/-- The overflow of a rotate. -/
def rotateOverflow (group width : Nat) (raw cf : ValueId) : Build ValueId := do
  let high ← extract raw (width - 1) .i1
  if group % 2 = 0 then binary .xor high cf
  else
    let other ← extract raw (width - 2) .i1
    binary .xor high other

/-- `ROL`, `ROR`, `RCL` and `RCR`, groups 0 to 3, of `a` by `n`. -/
def rotate (carry : ValueId) (group width : Nat) (a n previous zeroValue : ValueId) :
    Build Shifted := do
  let results : Build (ValueId × ValueId) :=
    if group < 2 then roll group width a n
    else if width < 32 then through carry group width a n
    else through32 carry group a n previous zeroValue
  let (raw, cf) ← results
  let of ← rotateOverflow group width raw cf
  return ⟨raw, cf, of⟩

/-- The result and the carry of a double shift by no more than the width. -/
def doubleFirst (left : Bool) (width : Nat) (a source n previous : ValueId) :
    Build (ValueId × ValueId) := do
  let inverse ← fromConstant (BitVec.ofNat 32 width) .sub n
  let first ← if left then combine a n source inverse else combine source inverse a n
  let carry ← binary .shr a (if left then inverse else previous)
  let cf ← extract carry 0 .i1
  return (first, cf)

/-- The result and the carry of a double shift of 16 bits by more than that. -/
def doubleSecond (left : Bool) (a source n : ValueId) : Build (ValueId × ValueId) := do
  let excess ← withConstant .sub n 16
  let inverse ← fromConstant 32 .sub n
  let second ← if left then combine source excess a inverse else combine a inverse source excess
  let carryCount ← if left then pure inverse else withConstant .sub n 17
  let carry ← binary .shr source carryCount
  let cf ← extract carry 0 .i1
  return (second, cf)

/-- The result and the carry of a double shift. -/
def doubleResult (left : Bool) (width : Nat) (a source n previous : ValueId) :
    Build (ValueId × ValueId) := do
  let (first, firstCf) ← doubleFirst left width a source n previous
  if width = 16 then
    let (second, secondCf) ← doubleSecond left a source n
    let large ← fromConstant 16 .ult n
    let raw ← select large second first
    let cf ← select large secondCf firstCf
    return (raw, cf)
  else return (first, firstCf)

/-- The overflow of a double shift. -/
def doubleOverflow (left : Bool) (width : Nat) (a n raw cf : ValueId) : Build ValueId := do
  let high ← extract raw (width - 1) .i1
  if left then
    let overflow ← binary .xor cf high
    if width = 32 then
      let one ← number 1
      let one ← binary .eq n one
      binary .and one overflow
    else return overflow
  else
    let oldHigh ← extract a (width - 1) .i1
    binary .xor oldHigh high

/-- `SHLD` and `SHRD` of `a` by `n`, from the register operand `source`. -/
def doubleShift (left : Bool) (width : Nat) (a source n previous : ValueId) : Build Shifted := do
  let source ← wide source false
  let (raw, cf) ← doubleResult left width a source n previous
  let of ← doubleOverflow left width a n raw cf
  return ⟨raw, cf, of⟩

/-- `SHL`. -/
def shiftLeft (width : Nat) (a n : ValueId) : Build Shifted := do
  let raw ← binary .shl a n
  let carry : Build ValueId :=
    if width = 32 then do
      let inverse ← fromConstant 32 .sub n
      let carry ← binary .shr a inverse
      extract carry 0 .i1
    else extract raw width .i1
  let cf ← carry
  let high ← extract raw (width - 1) .i1
  let of ← binary .xor cf high
  return ⟨raw, cf, of⟩

/-- `SHR`, and `SAR` in group 7, of `a`, which `value` is in full. -/
def shiftRight (group width : Nat) (value a n previous : ValueId) : Build Shifted := do
  if group = 7 then
    let signed ← wide value true
    let raw ← binary .sar signed n
    let carry ← binary .sar signed previous
    let cf ← extract carry 0 .i1
    let of ← constant 0 .i1
    return ⟨raw, cf, of⟩
  else
    let raw ← binary .shr a n
    let carry ← binary .shr a previous
    let cf ← extract carry 0 .i1
    let of ← extract a (width - 1) .i1
    return ⟨raw, cf, of⟩

/-- The six flags after an operation that may leave them unchanged. -/
def selectAll (unchanged : ValueId) (old new : Vector ValueId 6) : Build (Vector ValueId 6) := do
  let cf ← select unchanged old[0] new[0]
  let pf ← select unchanged old[1] new[1]
  let af ← select unchanged old[2] new[2]
  let zf ← select unchanged old[3] new[3]
  let sf ← select unchanged old[4] new[4]
  let of ← select unchanged old[5] new[5]
  return #v[cf, pf, af, zf, sf, of]

/-- The count of a shift. -/
def effectiveCount (double : Bool) (group width : Nat) (count : ValueId) : Build ValueId := do
  let n ← withConstant .and count 31
  if !double ∧ (group = 2 ∨ group = 3) ∧ width < 32 then modulo n (width + 1) else return n

/-- What the instruction computes, by its kind. -/
def shifted (flags : Flags) (gpr : Vector ValueId 8) (double left : Bool) (group : Nat)
    (value a n previous zeroValue : ValueId) (width : Nat) : Build Shifted :=
  if double then do
    let source ← read gpr (Fin.ofNat 8 group) width
    doubleShift left width a source n previous
  else if group < 4 then rotate flags.arithmetic[0] group width a n previous zeroValue
  else if group = 4 ∨ group = 6 then shiftLeft width a n
  else shiftRight group width value a n previous

/-- The flags of a rotate keep all but the carry and the overflow. -/
def newFlags (flags : Flags) (rotates : Bool) (result : ValueId) (sh : Shifted) (width : Nat) :
    Build Flags :=
  if rotates then
    pure { flags with arithmetic := (flags.arithmetic.set 0 sh.cf).set 5 sh.of }
  else shiftFlags flags result sh.cf sh.of width

def preserveBacking (flags : Flags) (rotates : Bool) (unchanged : ValueId) (sh : Shifted)
    (width : Nat) : Build Flags :=
  if rotates then preserveRotateBacking flags unchanged sh.cf sh.of
  else preserveShiftBacking flags unchanged sh.raw sh.cf sh.of width

/-- `calculate`, of a decoded instruction with this opcode and ModR/M byte. -/
def calculate (flags : Flags) (gpr : Vector ValueId 8) (opcode : Nat) (modrm : BitVec 8)
    (value count : ValueId) (width : Nat) : Build (ValueId × Flags) := do
  let a ← wide value false
  let old := flags.arithmetic
  let oldZeroLazy := flags.zeroIsLazy.getD 0
  let group := (modrm >>> 3 &&& 7).toNat
  let double : Bool := opcode > 255
  let rotates : Bool := !double && group < 4
  let n ← effectiveCount double group width count
  let zeroValue ← number 0
  let unchanged ← binary .eq n zeroValue
  let previous ← withConstant .sub n 1
  let sh ← shifted flags gpr double (opcode &&& 8 = 0) group value a n previous zeroValue width
  let cut : Build ValueId :=
    if width < 32 then withConstant .and sh.raw ((1 : BitVec 32) <<< width - 1) else pure sh.raw
  let result ← cut
  let flags ← newFlags flags rotates result sh width
  let arithmetic ← selectAll unchanged old flags.arithmetic
  let zeroIsLazy ← select unchanged oldZeroLazy (flags.zeroIsLazy.getD 0)
  let flags := { flags with arithmetic, zeroIsLazy := some zeroIsLazy }
  let flags ← preserveBacking flags rotates unchanged sh width
  let result ← select unchanged a result
  if width = 32 then return (result, flags)
  else
    let result ← node .truncate [result] (widthType width)
    return (result, flags)

end Build

/-! ## Steps -/

open Arith (Backing Outcome parity)

/-- The widths of the integers that are built with. -/
def intWidths : List Nat := [1, 8, 16, 32]

/-- The integer type of a width. -/
def Ty.int : Nat → Ty
  | 1 => .i1
  | 8 => .i8
  | 16 => .i16
  | _ => .i32

/-- The id has the integer type of the width of `x` and holds `x`. -/
structure Executed.Is (E : Executed) (v : ValueId) {w : Nat} (x : BitVec w) : Prop where
  ty : E.region.ty v = .int w
  val : E.env v = x.setWidth 128
  width : w ∈ intWidths

/-- An id there is, of the value `x`. -/
structure Executed.Has (E : Executed) (size : Nat) (v : Option ValueId) {w : Nat} (x : BitVec w) :
    Prop where
  exists_is : ∃ i : Nat, v = some i ∧ E.Is i x ∧ i < size

/-- The backing of a builder's flags is `s`. -/
structure Flags.Backs (E : Executed) (size : Nat) (flags : Flags) (s : Backing) : Prop where
  rawFlags : E.Has size flags.rawFlags s.flags
  lazyMask : E.Has size flags.lazyMask s.flagsChanged
  lastOp1 : E.Has size flags.lastOp1 s.lastOp1
  lastResult : E.Has size flags.lastResult s.lastResult
  lastOpSize : E.Has size flags.lastOpSize s.lastOpSize

/-- A builder's flags are those of `s`: the backing, the six flags, and whether zero is lazy. -/
structure Flags.Holds (E : Executed) (size : Nat) (flags : Flags) (s : Backing) : Prop
    extends Flags.Backs E size flags s where
  arithmetic : ∀ i : Fin 6, E.Has size (some flags.arithmetic[i]) (BitVec.ofBool s.getters[i])
  zeroIsLazy : E.Has size flags.zeroIsLazy (BitVec.ofBool (s.flagsChanged.getLsbD 6))

theorem Flags.Holds.carry {E : Executed} {size : Nat} {flags : Flags} {s : Backing}
    (h : flags.Holds E size s) : E.Has size (some flags.arithmetic[0]) (BitVec.ofBool s.getcf) :=
  h.arithmetic 0

/-- The registers hold `g`. -/
def Executed.Registers (E : Executed) (size : Nat) (gpr : Vector ValueId 8) (g : Fin 8 → BitVec 32) :
    Prop := ∀ i : Fin 8, E.Has size (some gpr[i]) (g i)

namespace Build

/-- New flags: their values, and a backing that is still the old one. -/
structure Becomes (E : Executed) (size : Nat) (flags : Flags) (old : Backing) (xs : Vector Bool 6)
    (zeroLazy : Bool) : Prop where
  backs : flags.Backs E size old
  arithmetic : ∀ i : Fin 6, E.Has size (some flags.arithmetic[i]) (BitVec.ofBool xs[i])
  zeroIsLazy : E.Has size flags.zeroIsLazy (BitVec.ofBool zeroLazy)

/-- The flags that an operation gives, from its outcome and its result. -/
def outcomeFlags (rotates : Bool) (w : Nat) (old : Backing) (o : Outcome) (res : BitVec 32) :
    Vector Bool 6 :=
  if rotates then (old.getters.set 0 o.cf).set 5 o.of
  else #v[o.cf, parity res, (old.lastOp1 ^^^ (res - old.lastOp1) ^^^ res).getLsbD 4, res == 0,
    res.getLsbD (w - 1), o.of]

/-- The operation of a shift instruction. -/
def shiftOperation (double left : Bool) (group w : Nat) (dest source : BitVec 32) (count : Nat) :
    Arith.Operation :=
  if double then Arith.doubleShift left w dest source count else Arith.shift group w dest count

end Build

/-- A step of building. -/
inductive Step where
  /-- A node that is no instruction: an operand, an address. -/
  | node (op : Op) (args : List ValueId) (ty : Ty)
  | arithmetic (group : Nat) (a b : ValueId)
  | shift (opcode : Nat) (modrm : BitVec 8) (gpr : Vector ValueId 8) (value count : ValueId)
    (width : Nat)

namespace Step

/-- Build a step: the id it gives, and the flags after it. -/
def build (flags : Flags) : Step → Build (ValueId × Flags)
  | node op args ty => do
    let v ← Build.node op args ty
    return (v, flags)
  | arithmetic group a b => Build.arithmetic flags group a b
  | shift opcode modrm gpr value count width =>
    Build.calculate flags gpr opcode modrm value count width

/-- What the interpreter computes in a step, from the operands as they are executed: a result and its
width, if the step is an instruction, and the flags. -/
def interpret (E : Executed) (old : Backing) : Step → Option (Nat × BitVec 32) × Backing
  | node .. => (none, old)
  | arithmetic group a b =>
    let w := (E.region.ty a).width
    let (result, new) := Arith.alu group ((E.env a).setWidth 32) ((E.env b).setWidth 32) (w - 1) old
    (some (w, result), new)
  | shift opcode modrm gpr value count w =>
    let group := (modrm >>> 3 &&& 7).toNat
    let source := (((E.env gpr[Fin.ofNat 8 group]).setWidth 32).setWidth w).setWidth 32
    let (result, new) := Build.shiftOperation (opcode > 255) (opcode &&& 8 = 0) group w
      ((E.env value).setWidth 32) source (((E.env count).setWidth 32).toNat % 32) old
    (some (w, result), new)

/-- An id there is, of an integer of `w` bits. -/
def Operand (E : Executed) (size w : Nat) (v : ValueId) : Prop :=
  ∃ x : BitVec w, E.Has size (some v) x

/-- The operands of a step are there and have the types that the frontend gives them. -/
def Fits (E : Executed) (size : Nat) : Step → Prop
  | node op args _ => op.pure = true ∧ ∀ a ∈ args, a < size
  | arithmetic group a b =>
    group < 8 ∧ ∃ w ∈ Arith.opWidths, Operand E size w a ∧ Operand E size w b
  | shift opcode _ gpr value count w =>
    w ∈ Arith.opWidths ∧ (255 < opcode → w = 16 ∨ w = 32) ∧ (∀ i : Fin 8, Operand E size 32 gpr[i]) ∧
      Operand E size w value ∧ Operand E size 32 count

end Step

end V86.Ir
