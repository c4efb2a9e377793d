import V86.Lib.Bits
import Mathlib.Data.Rat.Floor

/-!
# The high precision event timer

`src/hpet.js`: a main counter and three timers that compare it with their comparators, one-shot or
periodic, in 64 or 32 bits, and interrupt edge or level triggered over the legacy replacement route,
an input of the I/O APIC or by FSB messages. Counter values are exact integers and the machine clock
is a rational number of milliseconds.
-/

namespace V86.Hpet

/-- `TIMER_COUNT`. -/
abbrev timerCount : Nat := 3

/-- `TICKS_PER_MS`, from `PERIOD_FS`. -/
def ticksPerMs : Rat := 1000000000000 / 69841279

/-! ## Registers -/

def enableCnf : BitVec 32 := 1 <<< 0
def legRtCnf : BitVec 32 := 1 <<< 1

def tnIntTypeLevel : BitVec 32 := 1 <<< 1
def tnIntEnb : BitVec 32 := 1 <<< 2
def tnTypePeriodic : BitVec 32 := 1 <<< 3
def tnPerIntCap : BitVec 32 := 1 <<< 4
def tnSizeCap : BitVec 32 := 1 <<< 5
def tnValSet : BitVec 32 := 1 <<< 6
def tn32mode : BitVec 32 := 1 <<< 8
def tnIntRouteShift : Nat := 9
def tnFsbEn : BitVec 32 := 1 <<< 14
def tnFsbIntDelCap : BitVec 32 := 1 <<< 15

/-- `TN_CONF_WRITABLE`. -/
def tnConfWritable : BitVec 32 :=
  tnIntTypeLevel ||| tnIntEnb ||| tnTypePeriodic ||| tnValSet ||| tn32mode |||
    0x1F <<< tnIntRouteShift ||| tnFsbEn

/-- `TN_INT_ROUTE_CAP`. -/
def tnIntRouteCap : BitVec 32 := 0x00F00000

/-- `PERIOD_FS`, what the upper half of the capabilities reads. -/
def periodFs : BitVec 32 := 69841279

/-- `HPET_BLOCK_ID`. -/
def hpetBlockId : BitVec 32 := 0x8086A201

/-- A 64-bit register, as its halves. -/
structure Halves where
  low : BitVec 32
  high : BitVec 32
  deriving DecidableEq

/-- `value64`. -/
def value64 (halves : Halves) : Nat := halves.high.toNat * 0x100000000 + halves.low.toNat

/-- `set64`. -/
def set64 (value : Nat) : Halves :=
  ⟨BitVec.ofNat 32 (value % 0x100000000), BitVec.ofNat 32 (value / 0x100000000 % 0x100000000)⟩

/-- `halves[high ? 1 : 0] = value`. -/
def Halves.write (halves : Halves) (high : Bool) (value : BitVec 32) : Halves :=
  if high then { halves with high := value } else { halves with low := value }

/-- `{ irq, gsi }`: the one that is not -1. -/
inductive Line where
  | irq (n : Nat)
  | gsi (n : Nat)
  deriving DecidableEq

/-- One of `timers`; a deadline of `Infinity` is `none`. -/
structure Timer where
  config : BitVec 32
  comparator : Halves
  period : Halves
  fsbValue : BitVec 32
  fsbAddress : BitVec 32
  deadline : Option Nat
  line : Option Line
  deriving DecidableEq

/-- `HPET`. -/
structure HPET where
  config : BitVec 32
  isr : BitVec 32
  counterBase : Nat
  baseTime : Rat
  timers : Fin timerCount → Timer

/-! ## The rest of the machine -/

/-- `HPET_SOURCE`. -/
def hpetSource : Nat := 0x10000

/-- The interrupt controllers as the timers drive them: the inputs raised by
`device_raise_irq`, the sources of the shared inputs of the I/O APIC, and the messages sent. -/
structure Lines where
  raised : Nat → Bool
  sources : Nat → Nat → Bool
  messages : List (BitVec 32 × BitVec 32)

namespace Lines

/-- `device_raise_irq` and `device_lower_irq`. -/
def setIrq (l : Lines) (irq : Nat) (level : Bool) : Lines :=
  { l with raised := Function.update l.raised irq level }

/-- `set_shared_gsi_level`. -/
def setSharedGsiLevel (l : Lines) (gsi source : Nat) (level : Bool) : Lines :=
  { l with sources := Function.update l.sources gsi (Function.update (l.sources gsi) source level) }

/-- The input of a line set for timer `i`. -/
def drive (l : Lines) (i : Fin timerCount) (line : Line) (level : Bool) : Lines :=
  match line with
  | .irq n => l.setIrq n level
  | .gsi n => l.setSharedGsiLevel n (hpetSource + i) level

end Lines

/-- The timers with the interrupt controllers, and the calls of `fire` so far. -/
structure Machine where
  hpet : HPET
  lines : Lines
  fires : List (Fin timerCount)

namespace Machine

/-- The machine with a timer changed. -/
def modify (m : Machine) (i : Fin timerCount) (f : Timer → Timer) : Machine :=
  { m with hpet.timers := Function.update m.hpet.timers i (f (m.hpet.timers i)) }

end Machine

/-! ## Counting -/

/-- A bit of a register. -/
def has (config bit : BitVec 32) : Bool := config &&& bit ≠ 0

theorem has_iff_and_eq {config : BitVec 32} {k : Nat} (hk : k < 32) :
    has config (Bits.bit 32 k) = true ↔ config &&& Bits.bit 32 k = Bits.bit 32 k := by
  rw [has, decide_eq_true_eq, Ne, Bits.and_bit_eq_zero hk, Bits.and_bit_eq_bit hk,
    Bool.not_eq_false]

theorem has_bit (config : BitVec 32) {k : Nat} (hk : k < 32) :
    has config (Bits.bit 32 k) = config.getLsbD k := by
  rw [Bool.eq_iff_iff, has_iff_and_eq hk, Bits.and_bit_eq_bit hk]

namespace HPET

/-- `legacy_replacement`. -/
def legacyReplacement (h : HPET) : Bool := has h.config legRtCnf

/-- `counter`. -/
def counter (h : HPET) (now : Rat) : Nat :=
  if has h.config enableCnf then h.counterBase + ((now - h.baseTime) * ticksPerMs).floor.toNat
  else h.counterBase

end HPET

/-- `width`. -/
def Timer.width (t : Timer) : Nat :=
  if has t.config tn32mode then 0x100000000 else 0x10000000000000000

/-- The deadline that `arm` computes. -/
def Timer.nextMatch (t : Timer) (counter : Nat) : Nat :=
  -- the distance to the comparator, once around if the counter is past it
  let at_ := counter % t.width
  if value64 t.comparator < at_ then counter + (value64 t.comparator + t.width - at_)
  else counter + (value64 t.comparator - at_)

/-- `arm`. -/
def Machine.arm (m : Machine) (i : Fin timerCount) (counter : Nat) : Machine :=
  m.modify i fun t =>
    { t with deadline := if has m.hpet.config enableCnf then some (t.nextMatch counter) else none }

/-! ## Interrupts -/

/-- `fsb`. -/
def Timer.fsb (t : Timer) : Bool := has t.config tnFsbEn

/-- `route`. -/
def HPET.route (h : HPET) (i : Fin timerCount) : Option Line :=
  if (h.timers i).fsb then none
  else if has h.config legRtCnf && i.val < 2 then some (.irq (if i.val = 0 then 0 else 8))
  else
    let gsi := ((h.timers i).config >>> tnIntRouteShift &&& 0x1F).toNat
    if has tnIntRouteCap (1 <<< gsi) then some (.gsi gsi) else none

/-- `active` of `update_level`. -/
def HPET.active (h : HPET) (i : Fin timerCount) : Bool :=
  h.isr.getLsbD i &&
    (h.timers i).config &&& (tnIntEnb ||| tnIntTypeLevel) = tnIntEnb ||| tnIntTypeLevel &&
      !(h.timers i).fsb

namespace Machine

/-- `set_line` of a level that is low. -/
def release (m : Machine) (i : Fin timerCount) : Machine :=
  match (m.hpet.timers i).line with
  | none => m
  | some line =>
    { m.modify i fun t => { t with line := none } with lines := m.lines.drive i line false }

/-- `set_line`. -/
def setLine (m : Machine) (i : Fin timerCount) (level : Bool) : Machine :=
  let timer := m.hpet.timers i
  if level then
    if timer.fsb then
      { m with lines.messages := m.lines.messages ++ [(timer.fsbAddress, timer.fsbValue)] }
    else
      match m.hpet.route i with
      | none => m
      | some line =>
        -- already asserted there
        if timer.line = some line then m
        else
          let m := m.release i
          { m.modify i fun t => { t with line := some line } with
            lines := m.lines.drive i line true }
  else m.release i

/-- `update_level`. -/
def updateLevel (m : Machine) (i : Fin timerCount) : Machine := m.setLine i (m.hpet.active i)

/-- `fire`. -/
def fire (m : Machine) (i : Fin timerCount) : Machine :=
  let timer := m.hpet.timers i
  let m := { m with fires := m.fires ++ [i] }
  if !has timer.config tnIntEnb then m
  else if has timer.config tnIntTypeLevel && !timer.fsb then
    { m with hpet.isr := m.hpet.isr ||| 1 <<< i.val }.setLine i true
  else
    -- an edge
    (m.setLine i true).setLine i false

end Machine

/-! ## The poll -/

/-- The deadline and the comparator of a timer that has fired. -/
def Timer.advance (t : Timer) (counter deadline : Nat) : Timer :=
  let period := value64 t.period
  if has t.config tnTypePeriodic && period ≠ 0 then
    let periods := (counter - deadline) / period + 1
    { t with
      deadline := some (deadline + periods * period)
      comparator := set64 ((value64 t.comparator + periods * period) % t.width) }
  else
    -- one-shot: again when the counter comes round
    { t with deadline := some (deadline + t.width) }

theorem Timer.config_advance (t : Timer) (counter deadline : Nat) :
    (t.advance counter deadline).config = t.config := by
  unfold advance
  dsimp only
  split <;> rfl

theorem Timer.line_advance (t : Timer) (counter deadline : Nat) :
    (t.advance counter deadline).line = t.line := by
  unfold advance
  dsimp only
  split <;> rfl

namespace Machine

/-- A round of the loop of `timer`. -/
def poll1 (counter : Nat) (m : Machine) (i : Fin timerCount) : Machine :=
  match (m.hpet.timers i).deadline with
  | none => m
  | some deadline =>
    if deadline ≤ counter then (m.fire i).modify i (·.advance counter deadline) else m

/-- `timer`, without the time that it returns. -/
def timer (m : Machine) (now : Rat) : Machine :=
  if has m.hpet.config enableCnf then
    (List.finRange timerCount).foldl (poll1 (m.hpet.counter now)) m
  else m

end Machine

/-! ## Register accesses -/

/-- What an offset names: a register of a timer, one of the other registers, or nothing. -/
inductive Register where
  | conf (i : Fin timerCount)
  | comparator (i : Fin timerCount)
  | fsbRoute (i : Fin timerCount)
  | gcapId
  | genConf
  | gintrSta
  | mainCnt
  | none
  deriving DecidableEq

/-- The register at an offset, bit 2 of which selects its half. -/
def Register.at (offset : Nat) : Register :=
  let at_ := offset - offset % 8 + offset % 4
  if h : 0x100 ≤ offset ∧ offset < 0x160 then
    let i : Fin timerCount := ⟨(offset - 0x100) / 32, by
      simp only [timerCount]
      omega⟩
    match at_ % 32 with
    | 0x00 => .conf i
    | 0x08 => .comparator i
    | 0x10 => .fsbRoute i
    | _ => .none
  else
    match at_ with
    | 0x000 => .gcapId
    | 0x010 => .genConf
    | 0x020 => .gintrSta
    | 0x0F0 => .mainCnt
    | _ => .none

/-- `offset & 4`. -/
def isHigh (offset : Nat) : Bool := offset / 4 % 2 = 1

/-- `read32`. -/
def HPET.read32 (h : HPET) (now : Rat) (offset : Nat) : BitVec 32 :=
  let high := isHigh offset
  match Register.at offset with
  | .conf i =>
    if high then tnIntRouteCap
    else (h.timers i).config ||| tnPerIntCap ||| tnSizeCap ||| tnFsbIntDelCap
  | .comparator i => if high then (h.timers i).comparator.high else (h.timers i).comparator.low
  | .fsbRoute i => if high then (h.timers i).fsbAddress else (h.timers i).fsbValue
  | .gcapId => if high then periodFs else hpetBlockId
  | .genConf => if high then 0 else h.config
  | .gintrSta => if high then 0 else h.isr
  | .mainCnt =>
    let counter := h.counter now
    if high then BitVec.ofNat 32 (counter / 0x100000000)
    else BitVec.ofNat 32 (counter % 0x100000000)
  | .none => 0

/-- The timer after a write to its configuration. -/
def Timer.writeConf (t : Timer) (value : BitVec 32) : Timer :=
  let t := { t with config := value &&& tnConfWritable }
  if has t.config tn32mode then
    { t with comparator := t.comparator.write true 0, period := t.period.write true 0 }
  else t

/-- The timer after a write to its comparator. -/
def Timer.writeComparator (t : Timer) (high : Bool) (value : BitVec 32) : Timer :=
  let comparator :=
    if !has t.config tnTypePeriodic || has t.config tnValSet then t.comparator.write high value
    else t.comparator
  let period := if has t.config tnTypePeriodic then t.period.write high value else t.period
  -- cleared by the write of the last half: the upper one in 64-bit mode
  let config := if high || has t.config tn32mode then t.config &&& ~~~tnValSet else t.config
  { t with config := config, comparator := comparator, period := period }

namespace Machine

/-- The counter stops where it is, or goes on from there, if `ENABLE_CNF` is no longer `old`'s. -/
def startStop (m : Machine) (old : BitVec 32) (now : Rat) (counter : Nat) : Machine :=
  if has (old ^^^ m.hpet.config) enableCnf then
    (List.finRange timerCount).foldl (fun m i => m.arm i counter)
      { m with hpet.counterBase := counter, hpet.baseTime := now }
  else m

/-- Timers 0 and 1 change lines if `LEG_RT_CNF` is no longer `old`'s. -/
def reroute (m : Machine) (old : BitVec 32) : Machine :=
  if has (old ^^^ m.hpet.config) legRtCnf then
    let m := (m.setLine 0 false).setLine 1 false
    let m := { m with lines := (m.lines.setIrq 0 false).setIrq 8 false }
    (m.updateLevel 0).updateLevel 1
  else m

/-- The write of `value` to the general configuration. -/
def writeGenConf (m : Machine) (now : Rat) (value : BitVec 32) : Machine :=
  let old := m.hpet.config
  let m' := { m with hpet.config := value &&& (enableCnf ||| legRtCnf) }
  (m'.startStop old now (m.hpet.counter now)).reroute old

/-- `write32`. -/
def write32 (m : Machine) (now : Rat) (offset : Nat) (value : BitVec 32) : Machine :=
  let high := isHigh offset
  let counter := m.hpet.counter now
  match Register.at offset with
  | .conf i =>
    if high then m else ((m.modify i (·.writeConf value)).updateLevel i).arm i counter
  | .comparator i =>
    if high && has (m.hpet.timers i).config tn32mode then m
    else (m.modify i (·.writeComparator high value)).arm i counter
  | .fsbRoute i =>
    m.modify i fun t => if high then { t with fsbAddress := value } else { t with fsbValue := value }
  | .genConf => if high then m else m.writeGenConf now value
  | .gintrSta =>
    if high then m
    else
      -- write one to clear
      (List.finRange timerCount).foldl updateLevel
        { m with hpet.isr := m.hpet.isr &&& ~~~value }
  | .mainCnt =>
    if has m.hpet.config enableCnf then m
    else
      let base := m.hpet.counterBase
      { m with
        hpet.counterBase :=
          if high then base % 0x100000000 + value.toNat * 0x100000000
          else base / 0x100000000 * 0x100000000 + value.toNat }
  | .gcapId => m
  | .none => m

end Machine

/-- The dword that a byte is written with: the other bytes as they read; of the write-one-to-clear
status, none. -/
def HPET.merge8 (h : HPET) (now : Rat) (addr : Nat) (value : BitVec 8) : BitVec 32 :=
  let shift := addr % 4 * 8
  let offset := addr - addr % 4
  let others :=
    if offset - offset % 8 = 0x020 then 0 else h.read32 now offset &&& ~~~(0xFF#32 <<< shift)
  others ||| value.setWidth 32 <<< shift

namespace Machine

/-- The write of a byte. -/
def write8 (m : Machine) (now : Rat) (addr : Nat) (value : BitVec 8) : Machine :=
  m.write32 now (addr - addr % 4) (m.hpet.merge8 now addr value)

/-- `reset`. -/
def reset (m : Machine) : Machine :=
  let m := (List.finRange timerCount).foldl (fun m i => m.setLine i false) m
  { m with
    hpet :=
      { config := 0
        isr := 0
        counterBase := 0
        baseTime := 0
        timers := fun i =>
          { m.hpet.timers i with
            config := 0
            comparator := ⟨0xFFFFFFFF, 0xFFFFFFFF⟩
            period := ⟨0, 0⟩
            fsbValue := 0
            fsbAddress := 0
            deadline := none } } }

end Machine

/-! ## Snapshots -/

/-- An element of `state[5]`. -/
structure TimerState where
  config : BitVec 32
  comparator : Halves
  period : Halves
  fsbValue : BitVec 32
  fsbAddress : BitVec 32
  deadline : Int
  irq : Int
  gsi : Int

/-- The array of `get_state`, after the format. -/
structure SavedState where
  config : BitVec 32
  isr : BitVec 32
  counterBase : Nat
  baseTime : Rat
  timers : Fin timerCount → TimerState

/-- `t.line ? t.line.irq : -2`. -/
def Line.irqNumber : Option Line → Int
  | none => -2
  | some (.irq n) => n
  | some (.gsi _) => -1

/-- `t.line ? t.line.gsi : -2`. -/
def Line.gsiNumber : Option Line → Int
  | none => -2
  | some (.irq _) => -1
  | some (.gsi n) => n

/-- The line that is restored from its numbers. -/
def Line.ofNumbers (irq gsi : Int) : Option Line :=
  if irq = -2 then none else if 0 ≤ irq then some (.irq irq.toNat) else some (.gsi gsi.toNat)

def Timer.getState (t : Timer) : TimerState :=
  { config := t.config
    comparator := t.comparator
    period := t.period
    fsbValue := t.fsbValue
    fsbAddress := t.fsbAddress
    deadline := match t.deadline with
      | none => -1
      | some deadline => deadline
    irq := Line.irqNumber t.line
    gsi := Line.gsiNumber t.line }

def TimerState.setState (s : TimerState) : Timer :=
  { config := s.config
    comparator := s.comparator
    period := s.period
    fsbValue := s.fsbValue
    fsbAddress := s.fsbAddress
    deadline := if s.deadline = -1 then none else some s.deadline.toNat
    line := Line.ofNumbers s.irq s.gsi }

/-- `get_state`. -/
def HPET.getState (h : HPET) : SavedState :=
  ⟨h.config, h.isr, h.counterBase, h.baseTime, fun i => (h.timers i).getState⟩

/-- `set_state`. -/
def SavedState.setState (s : SavedState) : HPET :=
  ⟨s.config, s.isr, s.counterBase, s.baseTime, fun i => (s.timers i).setState⟩

theorem Line.ofNumbers_numbers (l : Option Line) :
    Line.ofNumbers (Line.irqNumber l) (Line.gsiNumber l) = l := by
  rcases l with - | n | n <;> simp [Line.ofNumbers, Line.irqNumber, Line.gsiNumber]

theorem Timer.setState_getState (t : Timer) : t.getState.setState = t := by
  have hdeadline : (if t.getState.deadline = -1 then none
      else some t.getState.deadline.toNat) = t.deadline := by
    unfold getState
    cases t.deadline with
    | none => rfl
    | some deadline => simp
  rw [TimerState.setState, hdeadline, getState, Line.ofNumbers_numbers]

/-- A snapshot restores the timers. -/
theorem HPET.setState_getState (h : HPET) : h.getState.setState = h := by
  simp [getState, SavedState.setState, Timer.setState_getState]

end V86.Hpet
