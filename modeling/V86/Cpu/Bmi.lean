import Mathlib.Data.Nat.Count
import V86.Cpu.Arith

/-!
# Bit manipulation instructions

`cpu/bmi.rs`: the results and flags of BMI1, BMI2, TZCNT, LZCNT and MOVBE, on operands in the low
bits of 64-bit values, and the execution of the VEX-encoded ones on the operands of an engine
(`Machine`). A shift by the width of its value or by more, and a subtraction below zero, are an
error of the program: the definitions are `none` there.
-/

namespace V86.Bmi

/-- `value << count`. -/
def shl {w : Nat} (value : BitVec w) (count : Nat) : Option (BitVec w) :=
  if count < w then some (value <<< count) else none

/-- `value >> count`. -/
def shr {w : Nat} (value : BitVec w) (count : Nat) : Option (BitVec w) :=
  if count < w then some (value >>> count) else none

/-- `value >> count` of a signed value. -/
def sar {w : Nat} (value : BitVec w) (count : Nat) : Option (BitVec w) :=
  if count < w then some (value.sshiftRight count) else none

/-- `a - b` of sizes and counts. -/
def sub (a b : Nat) : Option Nat := if b ≤ a then some (a - b) else none

/-- `a - b` of 64-bit values. -/
def sub64 (a b : BitVec 64) : Option (BitVec 64) := if b ≤ a then some (a - b) else none

def CF : BitVec 32 := 1
def PF : BitVec 32 := 1 <<< 2
def AF : BitVec 32 := 1 <<< 4
def ZF : BitVec 32 := 1 <<< 6
def SF : BitVec 32 := 1 <<< 7
def OF : BitVec 32 := 1 <<< 11

def mask (bits : Nat) : Option (BitVec 64) := do shr (BitVec.allOnes 64) (← sub 64 bits)

/-- `count_ones` of a byte. -/
def countOnes (value : BitVec 64) : Nat := (List.range 8).countP fun i => value.getLsbD i

/-- A flag where a condition holds. -/
def flagIf (c : Bool) (flag : BitVec 32) : BitVec 32 := if c then flag else 0

def logicFlags (result : BitVec 64) (bits : Nat) (cf : Bool) : Option (BitVec 32) := do
  let result := result &&& (← mask bits)
  let sign ← shr result (← sub bits 1)
  return flagIf (result = 0) ZF ||| flagIf (sign &&& 1 ≠ 0) SF |||
    flagIf (countOnes result % 2 = 0) PF ||| flagIf cf CF

def andn (a b : BitVec 64) (bits : Nat) : Option (BitVec 64 × BitVec 32) := do
  let r := ~~~a &&& b &&& (← mask bits)
  return (r, ← logicFlags r bits false)

def bextr (src control : BitVec 64) (bits : Nat) : Option (BitVec 64 × BitVec 32) := do
  let start := (control &&& 0xFF).toNat
  let length := ((control >>> 8) &&& 0xFF).toNat
  let r ← if start ≥ bits then pure 0 else do
    let v ← shr (src &&& (← mask bits)) start
    if length ≥ 64 then pure v else pure (v &&& (← sub64 (← shl 1 length) 1))
  return (r, ← logicFlags r bits false)

def blsi (src : BitVec 64) (bits : Nat) : Option (BitVec 64 × BitVec 32) := do
  let s := src &&& (← mask bits)
  let r := -s &&& s
  return (r, ← logicFlags r bits (s ≠ 0))

def blsmsk (src : BitVec 64) (bits : Nat) : Option (BitVec 64 × BitVec 32) := do
  let s := src &&& (← mask bits)
  let r := ((s - 1) ^^^ s) &&& (← mask bits)
  return (r, ← logicFlags r bits (s = 0))

def blsr (src : BitVec 64) (bits : Nat) : Option (BitVec 64 × BitVec 32) := do
  let s := src &&& (← mask bits)
  let r := (s - 1) &&& s
  return (r, ← logicFlags r bits (s = 0))

def bzhi (src index : BitVec 64) (bits : Nat) : Option (BitVec 64 × BitVec 32) := do
  let n := (index &&& 0xFF).toNat
  let s := src &&& (← mask bits)
  let r ← if n < bits then do pure (s &&& (← sub64 (← shl 1 n) 1)) else pure s
  return (r, ← logicFlags r bits (n > (← sub bits 1)))

/-- The high and the low half of the product. -/
def mulx (a b : BitVec 64) (bits : Nat) : Option (BitVec 64 × BitVec 64) := do
  let x := (a &&& (← mask bits)).setWidth 128
  let y := (b &&& (← mask bits)).setWidth 128
  if x.toNat * y.toNat < 2 ^ 128 then
    let p := x * y
    return ((← shr p bits).setWidth 64 &&& (← mask bits), p.setWidth 64 &&& (← mask bits))
  else none

/-- One round of the loops of `pdep` and `pext`, which move a bit of `src` for each set bit of the
selector: `source` and `target` give its old and new position from the loop's index and the number
of bits moved before. -/
def moveBit (src selector : BitVec 64) (source target : Nat → Nat → Nat) (i : Nat) :
    BitVec 64 × Nat → Option (BitVec 64 × Nat)
  | (r, k) => do
    if (← shr selector i) &&& 1 ≠ 0 then
      return (r ||| (← shl ((← shr src (source i k)) &&& 1) (target i k)), k + 1)
    else return (r, k)

def pdep (src selector : BitVec 64) (bits : Nat) : Option (BitVec 64) := do
  let (r, _) ← (List.range bits).foldlM
    (fun acc i => moveBit src selector (fun _ k => k) (fun i _ => i) i acc) (0, 0)
  return r

def pext (src selector : BitVec 64) (bits : Nat) : Option (BitVec 64) := do
  let (r, _) ← (List.range bits).foldlM
    (fun acc i => moveBit src selector (fun i _ => i) (fun _ k => k) i acc) (0, 0)
  return r

/-- `count as u32 & (bits - 1)`. -/
def countMasked {w : Nat} (count : BitVec w) (bits : Nat) : Option Nat := do
  return (count.setWidth 32 &&& BitVec.ofNat 32 (← sub bits 1)).toNat

def rorx (src : BitVec 64) (count : BitVec 8) (bits : Nat) : Option (BitVec 64) := do
  let s := src &&& (← mask bits)
  let n ← countMasked count bits
  if n = 0 then return s
  else return ((← shr s n) ||| (← shl s (← sub bits n))) &&& (← mask bits)

def sarx (src count : BitVec 64) (bits : Nat) : Option (BitVec 64) := do
  let n ← countMasked count bits
  let high ← shl src (← sub 64 bits)
  return (← sar (← sar high n) (← sub 64 bits)) &&& (← mask bits)

def shlx (src count : BitVec 64) (bits : Nat) : Option (BitVec 64) := do
  return (← shl src (← countMasked count bits)) &&& (← mask bits)

def shrx (src count : BitVec 64) (bits : Nat) : Option (BitVec 64) := do
  shr (src &&& (← mask bits)) (← countMasked count bits)

/-- `trailing_zeros`. -/
def trailingZeros (value : BitVec 64) : Nat :=
  ((List.range 64).takeWhile fun i => !value.getLsbD i).length

/-- `leading_zeros`. -/
def leadingZeros (value : BitVec 64) : Nat :=
  ((List.range 64).takeWhile fun i => !value.getMsbD i).length

def tzcnt (src : BitVec 64) (bits : Nat) : Option (BitVec 64 × BitVec 32) := do
  let s := src &&& (← mask bits)
  let r := BitVec.ofNat 64 (if s = 0 then bits else trailingZeros s)
  return (r, ← logicFlags r bits (s = 0))

def lzcnt (src : BitVec 64) (bits : Nat) : Option (BitVec 64 × BitVec 32) := do
  let s := src &&& (← mask bits)
  let n ← if s = 0 then pure bits else do sub (leadingZeros s) (← sub 64 bits)
  let r := BitVec.ofNat 64 n
  return (r, ← logicFlags r bits (s = 0))

/-- `swap_bytes`. -/
def swapBytes (v : BitVec 64) : BitVec 64 :=
  v.extractLsb' 0 8 ++ v.extractLsb' 8 8 ++ v.extractLsb' 16 8 ++ v.extractLsb' 24 8 ++
    v.extractLsb' 32 8 ++ v.extractLsb' 40 8 ++ v.extractLsb' 48 8 ++ v.extractLsb' 56 8

def byteSwap (value : BitVec 64) (bits : Nat) : Option (BitVec 64) := do
  shr (swapBytes (value &&& (← mask bits))) (← sub 64 bits)

/-! ## Execution -/

/-- `Vex`: the VEX-encoded instructions. -/
inductive Vex
  | andn | bextr | blsi | blsmsk | blsr | bzhi | mulx | pdep | pext | rorx | sarx | shlx | shrx
  deriving DecidableEq, Repr

/-- `Machine`: an engine's operands, on its own state `σ`. Reading the operand can fault, and leaves
the state it leaves. -/
structure Machine (σ ε : Type) where
  source : Nat → σ → Except ε (BitVec 64) × σ
  gpr : BitVec 8 → σ → BitVec 64
  setGpr : BitVec 8 → BitVec 64 → Nat → σ → σ
  setFlags : BitVec 32 → σ → σ

/-- The registers of the 32-bit engines. -/
structure Interpreter where
  reg32 : BitVec 8 → BitVec 32
  flags : BitVec 32
  flagsChanged : BitVec 32

/-- `Interpreter`: the operand is a register, or the dword at a linear address, which `safeRead32s`
reads. -/
def Interpreter.machine {ε : Type} (safeRead32s : BitVec 32 → Except ε (BitVec 32))
    (rm : Option (BitVec 8)) (address : BitVec 32) : Machine Interpreter ε where
  source _ s := match rm with
    | some r => (.ok ((s.reg32 r).setWidth 64), s)
    | none => ((safeRead32s address).map fun v => v.setWidth 64, s)
  gpr r s := (s.reg32 r).setWidth 64
  setGpr r value _ s :=
    { s with reg32 := fun r' => if r' = r then value.setWidth 32 else s.reg32 r' }
  setFlags flags s :=
    { s with flags := s.flags &&& ~~~FLAGS_ALL ||| flags, flagsChanged := 0 }

/-- `Instruction`. -/
structure Instruction where
  op : Vex
  reg : BitVec 8
  vvvv : BitVec 8
  bits : Nat
  imm8 : BitVec 8

variable {σ ε : Type}

/-- The destination, its value and the flags to be set, and the state: MULX sets its low half
first. -/
def compute (m : Machine σ ε) (i : Instruction) (source : BitVec 64) (s : σ) :
    Option ((BitVec 8 × BitVec 64 × Option (BitVec 32)) × σ) :=
  let flagged (d : BitVec 8) (r : Option (BitVec 64 × BitVec 32)) :=
    r.map fun (r, f) => ((d, r, some f), s)
  let plain (r : Option (BitVec 64)) := r.map fun r => ((i.reg, r, none), s)
  match i.op with
  | .andn => flagged i.reg (andn (m.gpr i.vvvv s) source i.bits)
  | .bextr => flagged i.reg (bextr source (m.gpr i.vvvv s) i.bits)
  | .blsi => flagged i.vvvv (blsi source i.bits)
  | .blsmsk => flagged i.vvvv (blsmsk source i.bits)
  | .blsr => flagged i.vvvv (blsr source i.bits)
  | .bzhi => flagged i.reg (bzhi source (m.gpr i.vvvv s) i.bits)
  | .mulx => (mulx (m.gpr 2 s) source i.bits).map fun (high, low) =>
    ((i.reg, high, none), m.setGpr i.vvvv low i.bits s)
  | .pdep => plain (pdep (m.gpr i.vvvv s) source i.bits)
  | .pext => plain (pext (m.gpr i.vvvv s) source i.bits)
  | .rorx => plain (rorx source i.imm8 i.bits)
  | .sarx => plain (sarx source (m.gpr i.vvvv s) i.bits)
  | .shlx => plain (shlx source (m.gpr i.vvvv s) i.bits)
  | .shrx => plain (shrx source (m.gpr i.vvvv s) i.bits)

/-- `execute`: `none` is an overflow. -/
def execute (m : Machine σ ε) (i : Instruction) (s : σ) : Option (Except ε Unit × σ) :=
  match m.source i.bits s with
  | (.error e, s) => some (.error e, s)
  | (.ok source, s) => (compute m i source s).map fun ((destination, value, flags), s) =>
    let s := m.setGpr destination value i.bits s
    (.ok (), match flags with
      | some f => m.setFlags f s
      | none => s)

end V86.Bmi
