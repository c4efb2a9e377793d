import Mathlib.Data.Rat.Floor

/-!
# The programmable interval timer

`src/pit.js`: three counters behind the ports 0x40 to 0x42, and their control words at port 0x43.
Times are milliseconds of the machine's clock, as exact rationals.
-/

namespace V86.Pit

abbrev Byte := BitVec 8

scoped instance neZeroCounters : NeZero 3 := ⟨by decide⟩

/-- In kHz. -/
def oscillatorFreq : ℚ := 11931816666 / 10000000

def lowByte (r : BitVec 16) : Byte := r.setWidth 8
def highByte (r : BitVec 16) : Byte := (r >>> 8).setWidth 8

/-! ## One counter -/

/-- The cells of one counter in the arrays of `PIT`. A time is `none` where it is `NaN`. -/
structure Counter where
  startTime : Option ℚ
  startValue : BitVec 16
  nextLow : Bool
  enabled : Bool
  mode : BitVec 3
  readMode : BitVec 2
  /-- 2 = latch low, 1 = latch high, 0 = no latch -/
  latch : Nat
  latchValue : BitVec 16
  reload : BitVec 16
  deriving DecidableEq

namespace Counter

/-- A cell of the new arrays. -/
def init : Counter where
  startTime := some 0
  startValue := 0
  nextLow := false
  enabled := false
  mode := 0
  readMode := 0
  latch := 0
  latchValue := 0
  reload := 0

/-- The time at which a counter that was started at `startTime` has reached its end. -/
def deadline (c : Counter) (startTime : ℚ) : ℚ := startTime + c.startValue.toNat / oscillatorFreq

/-- The ticks since the start. -/
def elapsed (startTime now : ℚ) : Int := ⌊(now - startTime) * oscillatorFreq⌋

/-- `get_counter_value`. The value is `none` where it is `NaN`: the counter has no start time, or
its reload value divides by zero. -/
def getCounterValue (c : Counter) (now : ℚ) : Option Int :=
  if !c.enabled then some 0
  else c.startTime.bind fun startTime =>
    if c.deadline startTime ≤ now then
      if c.mode = 0 then some 0
      else if c.reload = 0 then none
      else some (c.reload.toNat - elapsed (c.deadline startTime) now % c.reload.toNat)
    else some (max 1 (c.startValue.toNat - elapsed startTime now))

/-- `did_rollover`. -/
def didRollover (c : Counter) (now : ℚ) : Bool :=
  c.startTime.any fun startTime => now - startTime < 0 || c.deadline startTime ≤ now

/-- The number that the bitwise operators see in a value: `NaN` is 0. -/
def bits (value : Option Int) : BitVec 16 := BitVec.ofInt 16 (value.getD 0)

/-- A read while a value is latched, in `counter_read`. -/
def readLatched (c : Counter) : Byte × Counter :=
  (if c.latch = 2 then lowByte c.latchValue else highByte c.latchValue,
    { c with latch := c.latch - 1 })

/-- A read of the counter itself, in `counter_read`. -/
def readValue (c : Counter) (now : ℚ) : Byte × Counter :=
  let value := bits (c.getCounterValue now)
  (if c.nextLow then lowByte value else highByte value,
    if c.mode = 3 then { c with nextLow := !c.nextLow } else c)

/-- `counter_read`. -/
def counterRead (c : Counter) (now : ℚ) : Byte × Counter :=
  if c.latch ≠ 0 then c.readLatched else c.readValue now

/-- The byte goes to the half of the reload value whose turn it is, in `counter_write`. -/
def putByte (c : Counter) (value : Byte) : Counter :=
  { c with
    reload :=
      if c.nextLow then c.reload &&& ~~~0xFF ||| value.setWidth 16
      else c.reload &&& 0xFF ||| value.setWidth 16 <<< 8 }

/-- The counter starts at its reload value, in `counter_write`. -/
def start (c : Counter) (now : ℚ) : Counter :=
  let reload := if c.reload = 0 then 0xFFFF else c.reload
  { c with reload := reload, startValue := reload, enabled := true, startTime := some now }

/-- `counter_write`. -/
def counterWrite (c : Counter) (now : ℚ) (value : Byte) : Counter :=
  let nextLow := c.nextLow
  let c := c.putByte value
  let c := if c.readMode ≠ 3 ∨ nextLow = false then c.start now else c
  if c.readMode = 3 then { c with nextLow := !nextLow } else c

/-- A latch command, in `port43_write`. -/
def latchCommand (c : Counter) (now : ℚ) : Counter :=
  let value := c.getCounterValue now
  { c with
    latch := 2
    latchValue := if value.getD 0 = 0 then 0 else BitVec.ofInt 16 (value.getD 0 - 1) }

/-- A control word, in `port43_write`: 6 and 7 are aliased to 2 and 3. -/
def program (c : Counter) (readMode : BitVec 2) (mode : BitVec 3) : Counter :=
  { c with
    nextLow := readMode ≠ 2
    mode := if 6 ≤ mode.toNat then mode &&& ~~~4 else mode
    readMode := readMode }

/-- The part of `timer` that is about counter 0: the missed periods are skipped and its phase is
kept. A period of no length leaves it without a time. -/
def timer (c : Counter) (now : ℚ) : Counter :=
  if c.enabled && c.didRollover now then
    { c with
      startTime := c.startTime.bind fun startTime =>
        if c.reload = 0 then none
        else
          let period := c.reload.toNat / oscillatorFreq
          some (c.deadline startTime + ⌊(now - c.deadline startTime) / period⌋ * period)
      startValue := c.reload
      enabled := c.mode ≠ 0 }
  else c

end Counter

/-! ## The ports -/

/-- `PIT`: the counters 0 to 2. -/
abbrev PIT := Fin 3 → Counter

/-- The fields of a control word. -/
def controlMode (regByte : Byte) : BitVec 3 := (regByte >>> 1).setWidth 3
def controlAccess (regByte : Byte) : BitVec 2 := (regByte >>> 4).setWidth 2
def controlCounter (regByte : Byte) : Nat := (regByte >>> 6).toNat

namespace PIT

def init : PIT := fun _ => .init

/-- `port43_write`. A read-back command is not implemented. -/
def port43Write (s : PIT) (now : ℚ) (regByte : Byte) : PIT :=
  if h : controlCounter regByte < 3 then
    let i : Fin 3 := ⟨controlCounter regByte, h⟩
    Function.update s i <|
      if controlAccess regByte = 0 then (s i).latchCommand now
      else (s i).program (controlAccess regByte) (controlMode regByte)
  else s

end PIT

/-- What reaches the timer. -/
inductive Command where
  /-- a write of port 0x43 -/
  | control (regByte : Byte)
  | write (i : Fin 3) (value : Byte)
  | read (i : Fin 3)
  /-- a call of `timer` -/
  | poll
  deriving DecidableEq

namespace PIT

/-- The timer after a command. -/
def run (s : PIT) (now : ℚ) : Command → PIT
  | .control regByte => s.port43Write now regByte
  | .write i value => Function.update s i ((s i).counterWrite now value)
  | .read i => Function.update s i ((s i).counterRead now).2
  | .poll => Function.update s 0 ((s 0).timer now)

end PIT

end V86.Pit
