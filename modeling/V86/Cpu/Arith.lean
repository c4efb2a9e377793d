import Mathlib.Tactic.Common

/-!
# Arithmetic of the interpreter

`cpu/arith.rs` and the getters of `cpu/misc_instr.rs`. An operation leaves the arithmetic flags in the
flags word or, for those that `flags_changed` names, in what they are computed from: the first operand,
the result and the size of the last operation. Integers of 8, 16 and 32 bits are all held in 32 bits.
-/

namespace V86

def FLAG_CARRY : BitVec 32 := 1
def FLAG_PARITY : BitVec 32 := 4
def FLAG_ADJUST : BitVec 32 := 16
def FLAG_ZERO : BitVec 32 := 64
def FLAG_SIGN : BitVec 32 := 128
def FLAG_OVERFLOW : BitVec 32 := 2048
def FLAG_SUB : BitVec 32 := 0x80000000
def FLAGS_ALL : BitVec 32 :=
  FLAG_CARRY ||| FLAG_PARITY ||| FLAG_ADJUST ||| FLAG_ZERO ||| FLAG_SIGN ||| FLAG_OVERFLOW

namespace Arith

def OPSIZE_8 : Nat := 7
def OPSIZE_16 : Nat := 15
def OPSIZE_32 : Nat := 31

/-- The flags word, and what lazy flags are computed from. -/
structure Backing where
  flags : BitVec 32
  flagsChanged : BitVec 32
  lastOp1 : BitVec 32
  lastResult : BitVec 32
  lastOpSize : BitVec 32
  deriving DecidableEq

/-! ## Getters -/

namespace Backing

variable (s : Backing)

/-- The count of a shift by `last_op_size`. -/
def opShift : Nat := s.lastOpSize.toNat % 32

def getcf : Bool :=
  if s.flagsChanged &&& 1 ≠ 0 then
    let subMask := s.flagsChanged.sshiftRight 31
    (s.lastResult ^^^ subMask).ult (s.lastOp1 ^^^ subMask)
  else s.flags &&& 1 ≠ 0

def getpf : Bool :=
  if s.flagsChanged &&& FLAG_PARITY ≠ 0 then
    let nibble := (s.lastResult ^^^ s.lastResult.sshiftRight 4) &&& 15
    -- inverted lookup table
    (0x9669#32 <<< 2).sshiftRight nibble.toNat &&& FLAG_PARITY ≠ 0
  else s.flags &&& FLAG_PARITY ≠ 0

def getaf : Bool :=
  if s.flagsChanged &&& FLAG_ADJUST ≠ 0 then
    let isSub := s.flagsChanged &&& FLAG_SUB ≠ 0
    let lastOp2 := (s.lastResult - s.lastOp1) * if isSub then -1 else 1
    (s.lastOp1 ^^^ lastOp2 ^^^ s.lastResult) &&& FLAG_ADJUST ≠ 0
  else s.flags &&& FLAG_ADJUST ≠ 0

def getzf : Bool :=
  if s.flagsChanged &&& FLAG_ZERO ≠ 0 then
    (~~~s.lastResult &&& (s.lastResult - 1)).sshiftRight s.opShift &&& 1 ≠ 0
  else s.flags &&& FLAG_ZERO ≠ 0

def getsf : Bool :=
  if s.flagsChanged &&& FLAG_SIGN ≠ 0 then s.lastResult.sshiftRight s.opShift &&& 1 ≠ 0
  else s.flags &&& FLAG_SIGN ≠ 0

def getof : Bool :=
  if s.flagsChanged &&& FLAG_OVERFLOW ≠ 0 then
    let isSub := s.flagsChanged >>> 31
    let bXor1IfSub := s.lastResult - s.lastOp1 - isSub
    ((s.lastOp1 ^^^ s.lastResult) &&& (bXor1IfSub ^^^ s.lastResult)).sshiftRight s.opShift &&& 1 ≠ 0
  else s.flags &&& FLAG_OVERFLOW ≠ 0

/-- The six getters, in the order of the SSA flags. -/
def getters : Vector Bool 6 := #v[s.getcf, s.getpf, s.getaf, s.getzf, s.getsf, s.getof]

end Backing

/-- A Boolean as an integer. -/
def asI32 (c : Bool) : BitVec 32 := (BitVec.ofBool c).setWidth 32

/-- An operation on the flags that gives a result. -/
abbrev Operation := Backing → BitVec 32 × Backing

/-! ## Sums, differences and logic -/

def opsizeToMask (opSize : Nat) : BitVec 32 := 2 <<< opSize - 1

def add (dest source : BitVec 32) (opSize : Nat) : Operation := fun s =>
  let res := (dest + source) &&& opsizeToMask opSize
  (res, { s with
    lastOp1 := dest, lastResult := res, lastOpSize := .ofNat 32 opSize, flagsChanged := FLAGS_ALL })

def adc (dest source : BitVec 32) (opSize : Nat) : Operation := fun s =>
  let cf := asI32 s.getcf
  let res := (dest + source + cf) &&& opsizeToMask opSize
  (res, {
    lastOp1 := dest, lastResult := res, lastOpSize := .ofNat 32 opSize
    flagsChanged := FLAGS_ALL &&& ~~~FLAG_CARRY &&& ~~~FLAG_ADJUST &&& ~~~FLAG_OVERFLOW
    flags := s.flags &&& ~~~FLAG_CARRY &&& ~~~FLAG_ADJUST &&& ~~~FLAG_OVERFLOW |||
      (dest ^^^ ((dest ^^^ source) &&& (source ^^^ res))).sshiftRight opSize &&& FLAG_CARRY |||
      (dest ^^^ source ^^^ res) &&& FLAG_ADJUST |||
      ((source ^^^ res) &&& (dest ^^^ res)).sshiftRight opSize <<< 11 &&& FLAG_OVERFLOW })

def sub (dest source : BitVec 32) (opSize : Nat) : Operation := fun s =>
  let res := (dest - source) &&& opsizeToMask opSize
  (res, { s with
    lastOp1 := dest, lastResult := res, lastOpSize := .ofNat 32 opSize
    flagsChanged := FLAGS_ALL ||| FLAG_SUB })

def sbb (dest source : BitVec 32) (opSize : Nat) : Operation := fun s =>
  let cf := asI32 s.getcf
  let res := (dest - source - cf) &&& opsizeToMask opSize
  (res, {
    lastOp1 := dest, lastResult := res, lastOpSize := .ofNat 32 opSize
    flagsChanged :=
      FLAGS_ALL &&& ~~~FLAG_CARRY &&& ~~~FLAG_ADJUST &&& ~~~FLAG_OVERFLOW ||| FLAG_SUB
    flags := s.flags &&& ~~~FLAG_CARRY &&& ~~~FLAG_ADJUST &&& ~~~FLAG_OVERFLOW |||
      (res ^^^ ((res ^^^ source) &&& (source ^^^ dest))).sshiftRight opSize &&& FLAG_CARRY |||
      (dest ^^^ source ^^^ res) &&& FLAG_ADJUST |||
      ((source ^^^ dest) &&& (res ^^^ dest)).sshiftRight opSize <<< 11 &&& FLAG_OVERFLOW })

/-- What `and`, `or` and `xor` leave. -/
def logic (result : BitVec 32) (opSize : Nat) : Operation := fun s =>
  (result, { s with
    lastResult := result, lastOpSize := .ofNat 32 opSize
    flags := s.flags &&& (~~~1 &&& ~~~FLAG_OVERFLOW &&& ~~~FLAG_ADJUST)
    flagsChanged := FLAGS_ALL &&& ~~~1 &&& ~~~FLAG_OVERFLOW &&& ~~~FLAG_ADJUST })

def and (dest source : BitVec 32) (opSize : Nat) : Operation := logic (dest &&& source) opSize

def or (dest source : BitVec 32) (opSize : Nat) : Operation := logic (dest ||| source) opSize

def xor (dest source : BitVec 32) (opSize : Nat) : Operation := logic (dest ^^^ source) opSize

/-- The operation of an ALU group: `ADD`, `OR`, `ADC`, `SBB`, `AND`, `SUB`, `XOR`, `CMP`, whose
result is dropped. -/
def alu (group : Nat) (dest source : BitVec 32) (opSize : Nat) : Operation :=
  match group with
  | 0 => add dest source opSize
  | 1 => or dest source opSize
  | 2 => adc dest source opSize
  | 3 => sbb dest source opSize
  | 4 => and dest source opSize
  | 5 => sub dest source opSize
  | 6 => xor dest source opSize
  | _ => sub dest source opSize

/-! ## Rotates -/

/-- What a rotate leaves, by its carry and overflow in their places. -/
def Backing.rotated (s : Backing) (carry overflow : BitVec 32) : Backing :=
  { s with
    flagsChanged := s.flagsChanged &&& (~~~1 &&& ~~~FLAG_OVERFLOW)
    flags := s.flags &&& ~~~1 &&& ~~~FLAG_OVERFLOW ||| carry ||| overflow }

def rol8 (dest : BitVec 32) (count : Nat) : Operation := fun s =>
  if count = 0 then (dest, s)
  else
    let count := count % 8
    let result := dest <<< count ||| dest.sshiftRight (8 - count)
    (result &&& 0xFF, s.rotated (result &&& 1) ((result <<< 11 ^^^ result <<< 4) &&& FLAG_OVERFLOW))

def rol16 (dest : BitVec 32) (count : Nat) : Operation := fun s =>
  if count = 0 then (dest, s)
  else
    let count := count % 16
    let result := dest <<< count ||| dest.sshiftRight (16 - count)
    (result &&& 0xFFFF,
      s.rotated (result &&& 1) ((result <<< 11 ^^^ result.sshiftRight 4) &&& FLAG_OVERFLOW))

def rol32 (dest : BitVec 32) (count : Nat) : Operation := fun s =>
  if count = 0 then (dest, s)
  else
    let result := dest <<< count ||| dest >>> (32 - count)
    (result, s.rotated (result &&& 1) ((result <<< 11 ^^^ result.sshiftRight 20) &&& FLAG_OVERFLOW))

def rcl8 (dest : BitVec 32) (count : Nat) : Operation := fun s =>
  let count := count % 9
  if count = 0 then (dest, s)
  else
    let result := dest <<< count ||| asI32 s.getcf <<< (count - 1) ||| dest.sshiftRight (9 - count)
    (result &&& 0xFF, s.rotated (result.sshiftRight 8 &&& 1)
      ((result <<< 3 ^^^ result <<< 4) &&& FLAG_OVERFLOW))

def rcl16 (dest : BitVec 32) (count : Nat) : Operation := fun s =>
  let count := count % 17
  if count = 0 then (dest, s)
  else
    let result := dest <<< count ||| asI32 s.getcf <<< (count - 1) ||| dest.sshiftRight (17 - count)
    (result &&& 0xFFFF, s.rotated (result.sshiftRight 16 &&& 1)
      ((result.sshiftRight 5 ^^^ result.sshiftRight 4) &&& FLAG_OVERFLOW))

def rcl32 (dest : BitVec 32) (count : Nat) : Operation := fun s =>
  if count = 0 then (dest, s)
  else
    let result := dest <<< count ||| asI32 s.getcf <<< (count - 1)
    let result := if count > 1 then result ||| dest >>> (33 - count) else result
    let b := dest >>> (32 - count) &&& 1
    (result, s.rotated b ((b <<< 11 ^^^ result.sshiftRight 20) &&& FLAG_OVERFLOW))

def ror8 (dest : BitVec 32) (count : Nat) : Operation := fun s =>
  if count = 0 then (dest, s)
  else
    let count := count % 8
    let result := dest.sshiftRight count ||| dest <<< (8 - count)
    (result &&& 0xFF, s.rotated (result.sshiftRight 7 &&& 1)
      ((result <<< 4 ^^^ result <<< 5) &&& FLAG_OVERFLOW))

def ror16 (dest : BitVec 32) (count : Nat) : Operation := fun s =>
  if count = 0 then (dest, s)
  else
    let count := count % 16
    let result := dest.sshiftRight count ||| dest <<< (16 - count)
    (result &&& 0xFFFF, s.rotated (result.sshiftRight 15 &&& 1)
      ((result.sshiftRight 4 ^^^ result.sshiftRight 3) &&& FLAG_OVERFLOW))

def ror32 (dest : BitVec 32) (count : Nat) : Operation := fun s =>
  if count = 0 then (dest, s)
  else
    let result := dest >>> count ||| dest <<< (32 - count)
    (result, s.rotated (result.sshiftRight 31 &&& 1)
      ((result.sshiftRight 20 ^^^ result.sshiftRight 19) &&& FLAG_OVERFLOW))

def rcr8 (dest : BitVec 32) (count : Nat) : Operation := fun s =>
  let count := count % 9
  if count = 0 then (dest, s)
  else
    let result :=
      dest.sshiftRight count ||| asI32 s.getcf <<< (8 - count) ||| dest <<< (9 - count)
    (result &&& 0xFF, s.rotated (result.sshiftRight 8 &&& 1)
      ((result <<< 4 ^^^ result <<< 5) &&& FLAG_OVERFLOW))

def rcr16 (dest : BitVec 32) (count : Nat) : Operation := fun s =>
  let count := count % 17
  if count = 0 then (dest, s)
  else
    let result :=
      dest.sshiftRight count ||| asI32 s.getcf <<< (16 - count) ||| dest <<< (17 - count)
    (result &&& 0xFFFF, s.rotated (result.sshiftRight 16 &&& 1)
      ((result.sshiftRight 4 ^^^ result.sshiftRight 3) &&& FLAG_OVERFLOW))

def rcr32 (dest : BitVec 32) (count : Nat) : Operation := fun s =>
  if count = 0 then (dest, s)
  else
    let result := dest >>> count ||| asI32 s.getcf <<< (32 - count)
    let result := if count > 1 then result ||| dest <<< (33 - count) else result
    (result, s.rotated (dest.sshiftRight (count - 1) &&& 1)
      ((result.sshiftRight 20 ^^^ result.sshiftRight 19) &&& FLAG_OVERFLOW))

/-! ## Shifts -/

/-- What a shift leaves, by its carry and overflow in their places. -/
def Backing.shifted (s : Backing) (opSize : Nat) (result carry overflow : BitVec 32) : Backing :=
  { s with
    lastResult := result, lastOpSize := .ofNat 32 opSize
    flagsChanged := FLAGS_ALL &&& ~~~1 &&& ~~~FLAG_OVERFLOW
    flags := s.flags &&& ~~~1 &&& ~~~FLAG_OVERFLOW ||| carry ||| overflow }

def shl8 (dest : BitVec 32) (count : Nat) : Operation := fun s =>
  if count = 0 then (dest, s)
  else
    let result := dest <<< count
    (result &&& 0xFF, s.shifted OPSIZE_8 result (result.sshiftRight 8 &&& 1)
      ((result <<< 3 ^^^ result <<< 4) &&& FLAG_OVERFLOW))

def shl16 (dest : BitVec 32) (count : Nat) : Operation := fun s =>
  if count = 0 then (dest, s)
  else
    let result := dest <<< count
    (result &&& 0xFFFF, s.shifted OPSIZE_16 result (result.sshiftRight 16 &&& 1)
      ((result.sshiftRight 5 ^^^ result.sshiftRight 4) &&& FLAG_OVERFLOW))

def shl32 (dest : BitVec 32) (count : Nat) : Operation := fun s =>
  if count = 0 then (dest, s)
  else
    let result := dest <<< count
    let b := dest.sshiftRight (32 - count) &&& 1
    (result, s.shifted OPSIZE_32 result b ((b ^^^ result.sshiftRight 31) <<< 11 &&& FLAG_OVERFLOW))

def shr8 (dest : BitVec 32) (count : Nat) : Operation := fun s =>
  if count = 0 then (dest, s)
  else
    let result := dest.sshiftRight count
    (result, s.shifted OPSIZE_8 result (dest.sshiftRight (count - 1) &&& 1)
      ((dest.sshiftRight 7 &&& 1) <<< 11 &&& FLAG_OVERFLOW))

def shr16 (dest : BitVec 32) (count : Nat) : Operation := fun s =>
  if count = 0 then (dest, s)
  else
    let result := dest.sshiftRight count
    (result, s.shifted OPSIZE_16 result (dest.sshiftRight (count - 1) &&& 1)
      (dest.sshiftRight 4 &&& FLAG_OVERFLOW))

def shr32 (dest : BitVec 32) (count : Nat) : Operation := fun s =>
  if count = 0 then (dest, s)
  else
    let result := dest >>> count
    (result, s.shifted OPSIZE_32 result (dest >>> (count - 1) &&& 1)
      (dest.sshiftRight 20 &&& FLAG_OVERFLOW))

def sar8 (dest : BitVec 32) (count : Nat) : Operation := fun s =>
  if count = 0 then (dest, s)
  else
    let (result, carry) :=
      if count < 8 then
        ((dest <<< 24).sshiftRight (count + 24), dest.sshiftRight (count - 1) &&& 1)
      else
        let result := (dest <<< 24).sshiftRight 31
        (result, result &&& 1)
    -- of is zero
    (result &&& 0xFF, s.shifted OPSIZE_8 result carry 0)

def sar16 (dest : BitVec 32) (count : Nat) : Operation := fun s =>
  if count = 0 then (dest, s)
  else
    let (result, carry) :=
      if count < 16 then
        ((dest <<< 16).sshiftRight (count + 16), dest.sshiftRight (count - 1) &&& 1)
      else
        let result := (dest <<< 16).sshiftRight 31
        (result, result &&& 1)
    (result &&& 0xFFFF, s.shifted OPSIZE_16 result carry 0)

def sar32 (dest : BitVec 32) (count : Nat) : Operation := fun s =>
  if count = 0 then (dest, s)
  else
    let result := dest.sshiftRight count
    (result, s.shifted OPSIZE_32 result (dest >>> (count - 1) &&& 1) 0)

/-! ## Double shifts -/

/-- What a double shift leaves that writes the carry first: the overflow is computed from the flags
that have it. -/
def Backing.doubleShifted (s : Backing) (opSize : Nat) (result carry : BitVec 32)
    (overflow : BitVec 32 → BitVec 32) : Backing :=
  let flags := s.flags &&& ~~~1 ||| carry
  { s with
    lastResult := result, lastOpSize := .ofNat 32 opSize
    flagsChanged := FLAGS_ALL &&& ~~~1 &&& ~~~FLAG_OVERFLOW
    flags := flags &&& ~~~FLAG_OVERFLOW ||| overflow flags }

def shrd16 (dest source : BitVec 32) (count : Nat) : Operation := fun s =>
  if count = 0 then (dest, s)
  else
    let (result, carry) :=
      if count ≤ 16 then
        (dest.sshiftRight count ||| source <<< (16 - count), dest.sshiftRight (count - 1) &&& 1)
      else
        (dest <<< (32 - count) ||| source.sshiftRight (count - 16),
          source.sshiftRight (count - 17) &&& 1)
    (result &&& 0xFFFF, s.doubleShifted OPSIZE_16 result carry
      fun _ => (result ^^^ dest).sshiftRight 4 &&& FLAG_OVERFLOW)

def shrd32 (dest source : BitVec 32) (count : Nat) : Operation := fun s =>
  if count = 0 then (dest, s)
  else
    let result := dest >>> count ||| source <<< (32 - count)
    (result, s.shifted OPSIZE_32 result (dest >>> (count - 1) &&& 1)
      ((result ^^^ dest).sshiftRight 20 &&& FLAG_OVERFLOW))

def shld16 (dest source : BitVec 32) (count : Nat) : Operation := fun s =>
  if count = 0 then (dest, s)
  else
    let (result, carry) :=
      if count ≤ 16 then
        (dest <<< count ||| source >>> (16 - count), dest >>> (16 - count) &&& 1)
      else
        (dest.sshiftRight (32 - count) ||| source <<< (count - 16), source >>> (32 - count) &&& 1)
    (result &&& 0xFFFF, s.doubleShifted OPSIZE_16 result carry
      fun flags => (flags &&& 1 ^^^ result.sshiftRight 15 &&& 1) <<< 11)

def shld32 (dest source : BitVec 32) (count : Nat) : Operation := fun s =>
  if count = 0 then (dest, s)
  else
    let result := dest <<< count ||| source >>> (32 - count)
    (result, s.doubleShifted OPSIZE_32 result (dest >>> (32 - count) &&& 1)
      fun flags => if count = 1 then (flags &&& 1 ^^^ result.sshiftRight 31 &&& 1) <<< 11 else 0)

/-! ## Groups -/

/-- The operation of a shift group: `ROL`, `ROR`, `RCL`, `RCR`, `SHL`, `SHR`, `SHL` again, `SAR`. -/
def shift (group width : Nat) (dest : BitVec 32) (count : Nat) : Operation :=
  match group, width with
  | 0, 8 => rol8 dest count
  | 0, 16 => rol16 dest count
  | 0, _ => rol32 dest count
  | 1, 8 => ror8 dest count
  | 1, 16 => ror16 dest count
  | 1, _ => ror32 dest count
  | 2, 8 => rcl8 dest count
  | 2, 16 => rcl16 dest count
  | 2, _ => rcl32 dest count
  | 3, 8 => rcr8 dest count
  | 3, 16 => rcr16 dest count
  | 3, _ => rcr32 dest count
  | 5, 8 => shr8 dest count
  | 5, 16 => shr16 dest count
  | 5, _ => shr32 dest count
  | 7, 8 => sar8 dest count
  | 7, 16 => sar16 dest count
  | 7, _ => sar32 dest count
  | _, 8 => shl8 dest count
  | _, 16 => shl16 dest count
  | _, _ => shl32 dest count

/-- `SHLD`, or `SHRD`, of 16 or 32 bits. -/
def doubleShift (left : Bool) (width : Nat) (dest source : BitVec 32) (count : Nat) : Operation :=
  match left, width with
  | true, 16 => shld16 dest source count
  | true, _ => shld32 dest source count
  | false, 16 => shrd16 dest source count
  | false, _ => shrd32 dest source count

end Arith

end V86
