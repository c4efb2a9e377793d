import Mathlib.Data.Rat.Floor

/-!
# The real time clock

`src/rtc.js`: the registers behind the ports 0x70 and 0x71, and the three interrupts of the clock.
Times are milliseconds, as exact rationals: those of the machine's clock, and those of the calendar,
which are counted from 1970.
-/

namespace V86.Rtc

abbrev Byte := BitVec 8

/-! ## The calendar -/

/-- `new Date(x)`: a `Date` is a whole number of milliseconds. -/
def date (x : ℚ) : Int := x.num.tdiv x.den

def msPerDay : Int := 86400000

def getUTCSeconds (d : Int) : Int := d.fdiv 1000 % 60
def getUTCMinutes (d : Int) : Int := d.fdiv 60000 % 60
def getUTCHours (d : Int) : Int := d.fdiv 3600000 % 24
def getUTCDay (d : Int) : Int := (d.fdiv msPerDay + 4) % 7

/-- The year, the month from 1 on and the day of the month of a day that is counted from 1970. The
years of the computation begin in March, and its eras have 400 of them. -/
def civil (days : Int) : Int × Int × Int :=
  let z := days + 719468
  let era := z.fdiv 146097
  let dayOfEra := z - era * 146097
  let yearOfEra :=
    (dayOfEra - dayOfEra / 1460 + dayOfEra / 36524 - dayOfEra / 146096) / 365
  let dayOfYear := dayOfEra - (365 * yearOfEra + yearOfEra / 4 - yearOfEra / 100)
  let month := (5 * dayOfYear + 2) / 153
  let day := dayOfYear - (153 * month + 2) / 5 + 1
  let month := if month < 10 then month + 3 else month - 9
  (yearOfEra + era * 400 + if month ≤ 2 then 1 else 0, month, day)

example : civil 0 = (1970, 1, 1) := by decide
example : civil 11016 = (2000, 2, 29) := by decide

def getUTCFullYear (d : Int) : Int := (civil (d.fdiv msPerDay)).1
/-- `getUTCMonth() + 1`. -/
def getUTCMonth (d : Int) : Int := (civil (d.fdiv msPerDay)).2.1
def getUTCDate (d : Int) : Int := (civil (d.fdiv msPerDay)).2.2

/-! ## Encodings -/

/-- `bcd_pack`. -/
def bcdPack (n : Nat) : Nat :=
  if n = 0 then 0 else n % 10 ||| bcdPack (n / 10) <<< 4
termination_by n

/-- `bcd_unpack`. -/
def bcdUnpack (n : Byte) : Nat := (n &&& 0xF).toNat + 10 * (n >>> 4 &&& 0xF).toNat

/-- `encode_time` under register B. -/
def encodeTime (cmosB : Byte) (t : Int) : Byte :=
  BitVec.ofNat 8 (if cmosB &&& 4 ≠ 0 then t.toNat else bcdPack t.toNat)

/-- `decode_time` under register B. -/
def decodeTime (cmosB : Byte) (t : Byte) : Nat :=
  if cmosB &&& 4 ≠ 0 then t.toNat else bcdUnpack t

/-! ## The clock -/

/-- `RTC`. In `nextInterrupt` and `periodicInterruptTime`, `Infinity` is `none`. -/
structure RTC where
  cmosIndex : BitVec 7
  cmosData : BitVec 7 → Byte
  rtcTime : ℚ
  lastUpdate : ℚ
  nextInterrupt : Option ℚ
  nextInterruptAlarm : ℚ
  periodicInterrupt : Bool
  periodicInterruptTime : Option ℚ
  cmosA : Byte
  cmosB : Byte
  cmosC : Byte
  cmosDiagStatus : Byte
  nmiDisabled : Bool
  updateInterrupt : Bool
  updateInterruptTime : ℚ

namespace RTC

/-- `new RTC`, at a time of the calendar and of the machine's clock. -/
def init (wallTime now : ℚ) : RTC where
  cmosIndex := 0
  cmosData _ := 0
  rtcTime := wallTime
  lastUpdate := now
  nextInterrupt := some 0
  nextInterruptAlarm := 0
  periodicInterrupt := false
  periodicInterruptTime := some (1000 / 1024)
  cmosA := 0x26
  cmosB := 2
  cmosC := 0
  cmosDiagStatus := 0
  nmiDisabled := false
  updateInterrupt := false
  updateInterruptTime := 0

/-- `update_time`. -/
def updateTime (s : RTC) (time : ℚ) : RTC :=
  { s with rtcTime := s.rtcTime + (time - s.lastUpdate), lastUpdate := time }

end RTC

/-! ## Polls -/

/-- What an interrupt was signalled for. -/
inductive Cause where
  | periodic
  | alarm
  | update
  deriving DecidableEq

/-- The bits of register C that a cause sets. -/
def Cause.flags : Cause → Byte
  | .periodic => 1 <<< 6 ||| 1 <<< 7
  | .alarm => 1 <<< 5 ||| 1 <<< 7
  | .update => 1 <<< 4 ||| 1 <<< 7

namespace RTC

/-- The deadline, a multiple of the period later, that is the first after a time. Times that are not
reached are `none`. -/
def nextAfter (deadline : ℚ) (period : Option ℚ) (time : ℚ) : Option ℚ :=
  period.map fun period => deadline + period * (⌊(time - deadline) / period⌋ + 1)

/-- Whether the periodic interrupt is due. -/
def periodicDue (s : RTC) (time : ℚ) : Bool :=
  s.periodicInterrupt && s.nextInterrupt.any (· ≤ time)

def alarmDue (s : RTC) (time : ℚ) : Bool :=
  s.nextInterruptAlarm ≠ 0 && s.nextInterruptAlarm ≤ time

def updateDue (s : RTC) (time : ℚ) : Bool :=
  s.updateInterrupt && s.updateInterruptTime ≤ time

def servePeriodic (s : RTC) (time : ℚ) : RTC :=
  if s.periodicDue time then
    { s with
      cmosC := s.cmosC ||| Cause.periodic.flags
      nextInterrupt := s.nextInterrupt.bind (nextAfter · s.periodicInterruptTime time) }
  else s

def serveAlarm (s : RTC) (time : ℚ) : RTC :=
  if s.alarmDue time then
    { s with cmosC := s.cmosC ||| Cause.alarm.flags, nextInterruptAlarm := 0 }
  else s

def serveUpdate (s : RTC) (time : ℚ) : RTC :=
  if s.updateDue time then
    { s with cmosC := s.cmosC ||| Cause.update.flags, updateInterruptTime := time + 1000 }
  else s

/-- The time until the next poll, at the end of `timer`. -/
def delay (s : RTC) (time : ℚ) : ℚ :=
  let t : ℚ := 100
  let t :=
    if s.periodicInterrupt && s.nextInterrupt ≠ some 0 then
      s.nextInterrupt.elim t fun deadline => min t (max 0 (deadline - time))
    else t
  let t := if s.nextInterruptAlarm ≠ 0 then min t (max 0 (s.nextInterruptAlarm - time)) else t
  if s.updateInterrupt then min t (max 0 (s.updateInterruptTime - time)) else t

/-- `timer`: the interrupts that it signals, the time that it returns and the clock after it. The
interrupts reach the line 8 unless the HPET has taken it. -/
def timer (s : RTC) (time : ℚ) : List Cause × ℚ × RTC :=
  let s := s.updateTime time
  let periodic := if s.periodicDue time then [Cause.periodic] else []
  let s := s.servePeriodic time
  let alarm := if s.alarmDue time then [Cause.alarm] else []
  let s := s.serveAlarm time
  let update := if s.updateDue time then [Cause.update] else []
  let s := s.serveUpdate time
  (periodic ++ alarm ++ update, s.delay time, s)

/-! ## Ports -/

/-- The write of port 0x70. -/
def indexWrite (s : RTC) (outByte : Byte) : RTC :=
  { s with cmosIndex := outByte.setWidth 7, nmiDisabled := outByte.getLsbD 7 }

/-- `cmos_port_read`. -/
def cmosPortRead (s : RTC) (now : ℚ) : Byte × RTC :=
  let s := s.updateTime now
  let d := date s.rtcTime
  let encode := encodeTime s.cmosB
  if s.cmosIndex = 0x00 then (encode (getUTCSeconds d), s)
  else if s.cmosIndex = 0x02 then (encode (getUTCMinutes d), s)
  else if s.cmosIndex = 0x04 then (encode (getUTCHours d), s)
  else if s.cmosIndex = 0x06 then (encode (getUTCDay d + 1), s)
  else if s.cmosIndex = 0x07 then (encode (getUTCDate d), s)
  else if s.cmosIndex = 0x08 then (encode (getUTCMonth d), s)
  else if s.cmosIndex = 0x09 then (encode (getUTCFullYear d % 100), s)
  else if s.cmosIndex = 0x0A then
    -- the update is in progress in the last millisecond of every second
    (if 999 ≤ s.rtcTime - 1000 * ⌊s.rtcTime / 1000⌋ then s.cmosA ||| 0x80 else s.cmosA, s)
  else if s.cmosIndex = 0x0B then (s.cmosB, s)
  else if s.cmosIndex = 0x0C then (s.cmosC, { s with cmosC := s.cmosC &&& ~~~0xF0 })
  else if s.cmosIndex = 0x0D then (1 <<< 7, s)
  else if s.cmosIndex = 0x0E then (s.cmosDiagStatus, s)
  else if s.cmosIndex = 0x32 ∨ s.cmosIndex = 0x37 then (encode (getUTCFullYear d / 100), s)
  else (s.cmosData s.cmosIndex, s)

/-- The rate of the periodic interrupt, in register A. -/
def rate (cmosA : Byte) : Nat := (cmosA &&& 0xF).toNat

/-- The period at a rate, `1000 / (32768 >> rate - 1)`: without a rate the shift is by 31. -/
def periodOf (rate : Nat) : Option ℚ :=
  if rate = 0 then none else some (1000 / (32768 >>> (rate - 1) : Nat))

/-- The time of day of the alarm, in seconds. -/
def alarmSeconds (s : RTC) : Int :=
  decodeTime s.cmosB (s.cmosData 0x05) * 3600 + decodeTime s.cmosB (s.cmosData 0x03) * 60 +
    decodeTime s.cmosB (s.cmosData 0x01)

/-- The time of the alarm on the day of a date. -/
def alarmDate (s : RTC) (now : Int) : Int := now.fdiv msPerDay * msPerDay + s.alarmSeconds * 1000

/-- A write of register A. -/
def writeA (s : RTC) (dataByte : Byte) : RTC :=
  let s := { s with cmosA := dataByte &&& 0x7F }
  { s with periodicInterruptTime := periodOf (rate s.cmosA) }

/-- What register B gets: while the clock is set, it has no interrupts for updates. -/
def registerB (dataByte : Byte) : Byte :=
  if dataByte &&& 0x80 ≠ 0 then dataByte &&& 0xEF else dataByte

/-- A write of register B. -/
def writeB (s : RTC) (time : ℚ) (dataByte : Byte) : RTC :=
  let s : RTC := { s with cmosB := registerB dataByte }
  { s with
    nextInterrupt :=
      if s.cmosB &&& 0x40 ≠ 0 then s.periodicInterruptTime.map (time + ·) else s.nextInterrupt
    nextInterruptAlarm :=
      if s.cmosB &&& 0x20 ≠ 0 then
        time + ((s.alarmDate (date s.rtcTime) - date s.rtcTime : Int) : ℚ)
      else s.nextInterruptAlarm
    updateInterruptTime := if s.cmosB &&& 0x10 ≠ 0 then time + 1000 else s.updateInterruptTime }

/-- A write of the register that is selected, in `cmos_port_write`. -/
def writeSelected (s : RTC) (time : ℚ) (dataByte : Byte) : RTC :=
  if s.cmosIndex = 0x0A then s.writeA dataByte
  else if s.cmosIndex = 0x0B then s.writeB time dataByte
  else if s.cmosIndex = 0x0E then { s with cmosDiagStatus := dataByte }
  else if s.cmosIndex = 0x01 ∨ s.cmosIndex = 0x03 ∨ s.cmosIndex = 0x05 then
    { s with cmosData := Function.update s.cmosData s.cmosIndex dataByte }
  else if 0x0F ≤ s.cmosIndex.toNat then
    { s with cmosData := Function.update s.cmosData s.cmosIndex dataByte }
  else s

/-- `cmos_port_write`. -/
def cmosPortWrite (s : RTC) (time : ℚ) (dataByte : Byte) : RTC :=
  let s := (s.updateTime time).writeSelected time dataByte
  { s with
    updateInterrupt := s.cmosB &&& 0x10 = 0x10 && 0 < rate s.cmosA
    periodicInterrupt := s.cmosB &&& 0x40 = 0x40 && 0 < rate s.cmosA }

end RTC

end V86.Rtc
