import V86.Lib.Runs
import V86.Rtc.Cmos
import V86.Lib.Bits

/-!
# The interrupts of the real time clock

What the three interrupts are to be is stated in terms of the registers and of the past (`Correct`):
the alarm when the calendar has passed its time of day since it was enabled or signalled, a periodic
interrupt when a period has elapsed since it was enabled or since the last tick. The clock caches
one deadline for each, and computes it anew at some of the writes that it depends on; the deadlines
are right as long as the guest's writes are `Fair`.
-/

namespace V86.Rtc

/-! ## The machine -/

/-- The clock with what its interrupts are measured against. -/
structure Machine where
  rtc : RTC
  /-- The machine's clock. -/
  clock : ℚ
  /-- When the alarm was last enabled or signalled. -/
  alarmSince : ℚ
  /-- When the periodic interrupt was enabled, or the last of its ticks that is over. -/
  tick : ℚ
  /-- What was signalled since register C was read. -/
  causes : List Cause

inductive Action where
  | poll
  | write70 (outByte : Byte)
  | read71
  | write71 (dataByte : Byte)

/-- An access or a poll, and the time that passes before it. -/
structure Event where
  wait : ℚ≥0
  action : Action

namespace Machine

def start (wallTime now : ℚ≥0) : Machine := ⟨.init wallTime now, now, now, now, []⟩

/-- The time of the calendar at a time of the machine's clock. -/
def calendar (m : Machine) (time : ℚ) : ℚ := m.rtc.rtcTime + (time - m.rtc.lastUpdate)

def alarmEnabled (m : Machine) : Bool := m.rtc.cmosB.getLsbD 5
def periodicEnabled (m : Machine) : Bool := m.rtc.cmosB.getLsbD 6

/-- The period of the rate in register A. -/
def period (m : Machine) : ℚ := (RTC.periodOf (RTC.rate m.rtc.cmosA)).getD 0

/-- The machine after a poll. -/
def polled (m : Machine) (now : ℚ) : Machine :=
  let (causes, _, rtc) := m.rtc.timer now
  { rtc := rtc
    clock := now
    alarmSince := if .alarm ∈ causes then now else m.alarmSince
    tick :=
      if .periodic ∈ causes then m.tick + m.period * ⌊(now - m.tick) / m.period⌋ else m.tick
    causes := m.causes ++ causes }

/-- The machine after a write of port 0x71. -/
def written (m : Machine) (now : ℚ) (dataByte : Byte) : Machine :=
  let m' := { m with rtc := m.rtc.cmosPortWrite now dataByte, clock := now }
  { m' with
    alarmSince := if m'.alarmEnabled && !m.alarmEnabled then now else m.alarmSince
    tick := if m'.periodicEnabled && !m.periodicEnabled then now else m.tick }

/-- The time of an event. -/
def time (m : Machine) (e : Event) : ℚ := m.clock + e.wait

end Machine

/-- The machine after an event. -/
def step (m : Machine) (e : Event) : Machine :=
  match e.action with
  | .poll => m.polled (m.time e)
  | .write70 outByte => { m with rtc := m.rtc.indexWrite outByte, clock := m.time e }
  | .read71 =>
    { m with
      rtc := (m.rtc.cmosPortRead (m.time e)).2
      clock := m.time e
      causes := if m.rtc.cmosIndex = 0x0C then [] else m.causes }
  | .write71 dataByte => m.written (m.time e) dataByte

/-! ## What the interrupts are to be -/

/-- The calendar passes a time of day between two of its times. -/
def Passed (seconds : Int) (since now : ℚ) : Prop :=
  ∃ day : Int, since < ((day * msPerDay + seconds * 1000 : Int) : ℚ) ∧
    ((day * msPerDay + seconds * 1000 : Int) : ℚ) ≤ now

/-- A poll signals what it is to, and nothing is due before the time it returns has passed. -/
structure PollCorrect (m : Machine) (now : ℚ) : Prop where
  alarm : .alarm ∈ (m.rtc.timer now).1 → m.alarmEnabled = true ∧
    Passed m.rtc.alarmSeconds (m.calendar m.alarmSince) (m.calendar now)
  periodic : .periodic ∈ (m.rtc.timer now).1 ↔
    m.periodicEnabled = true ∧ RTC.rate m.rtc.cmosA ≠ 0 ∧ m.tick + m.period ≤ now
  idle : ∀ time, now ≤ time → time < now + (m.rtc.timer now).2.1 →
    ((m.rtc.timer now).2.2.timer time).1 = []
  positive : 0 < (m.rtc.timer now).2.1

/-- The flags of register C. -/
def flags (causes : List Cause) : Byte := causes.foldl (fun c cause => c ||| cause.flags) 0

/-- A poll signals what it is to, and register C reads as what was signalled since it was read. -/
def Correct (m : Machine) (e : Event) : Prop :=
  match e.action with
  | .poll => PollCorrect m (m.time e)
  | .read71 => m.rtc.cmosIndex = 0x0C → (m.rtc.cmosPortRead (m.time e)).1 = flags m.causes
  | _ => True

/-! ## The condition -/

/-- A deadline of the periodic interrupt that is the next tick's, or one of a tick that is overdue
as the next one is, with which the later ones are the same. -/
def Aligned (deadline tick period now : ℚ) : Prop :=
  deadline = tick + period ∨
    deadline ≤ now ∧ tick + period ≤ now ∧ ∃ k : Int, deadline = tick + k * period

/-- The time of today's alarm, where register B is to have a value. -/
def Machine.todaysAlarm (m : Machine) (now : ℚ) (cmosB : Byte) : Int :=
  { m.rtc with cmosB := cmosB }.alarmDate (date (m.calendar now))

/-- A write of register A leaves the deadline that is cached that of the new rate. -/
def FairA (m : Machine) (now : ℚ) (cmosA : Byte) : Prop :=
  m.periodicEnabled = true → ∀ period, RTC.periodOf (RTC.rate cmosA) = some period →
    ∃ deadline, m.rtc.nextInterrupt = some deadline ∧ Aligned deadline m.tick period now

/-- A write of register B enables the alarm before its time of today, and disables it only when none
is pending; and it does not enable the periodic interrupt again, unless it has just been enabled or
has just ticked. Without a rate, there are no ticks, and a deadline at the time 0 is none. -/
structure FairB (m : Machine) (now : ℚ) (cmosB : Byte) : Prop where
  enables : cmosB.getLsbD 5 = true →
    m.calendar (if m.alarmEnabled then m.alarmSince else now) < m.todaysAlarm now cmosB ∨
      now + ((m.todaysAlarm now cmosB - date (m.calendar now) : Int) : ℚ) = 0
  disables : cmosB.getLsbD 5 = false → m.rtc.nextInterruptAlarm = 0
  restarts : cmosB.getLsbD 6 = true → m.periodicEnabled = true → RTC.rate m.rtc.cmosA ≠ 0 →
    m.tick = now

/-- A write of one of the alarm's registers leaves an alarm that is pending one that is signalled
after its time of day has passed. -/
def FairAlarm (m : Machine) (now : ℚ) (dataByte : Byte) : Prop :=
  m.rtc.nextInterruptAlarm = 0 ∨
    Passed { m.rtc with
        cmosData := Function.update m.rtc.cmosData m.rtc.cmosIndex dataByte }.alarmSeconds
      (m.calendar m.alarmSince) (m.calendar (max now m.rtc.nextInterruptAlarm))

/-- The writes after which the deadlines are those of the registers. -/
def Fair (m : Machine) (e : Event) : Prop :=
  match e.action with
  | .write71 dataByte =>
    (m.rtc.cmosIndex = 0x0A → FairA m (m.time e) dataByte) ∧
      (m.rtc.cmosIndex = 0x0B → FairB m (m.time e) dataByte) ∧
        (m.rtc.cmosIndex ∈ ([0x01, 0x03, 0x05] : List (BitVec 7)) → FairAlarm m (m.time e) dataByte)
  | _ => True

/-! ## Times -/

theorem Passed.mono {seconds : Int} {since now now' : ℚ} (h : Passed seconds since now)
    (hle : now ≤ now') : Passed seconds since now' := by
  obtain ⟨day, hsince, hnow⟩ := h
  exact ⟨day, hsince, hnow.trans hle⟩

section
variable {deadline tick period now : ℚ}

theorem Aligned.mono {now' : ℚ} (h : Aligned deadline tick period now) (hle : now ≤ now') :
    Aligned deadline tick period now' := by
  rcases h with h | ⟨hdeadline, htick, hk⟩
  · exact .inl h
  · exact .inr ⟨hdeadline.trans hle, htick.trans hle, hk⟩

theorem Aligned.le_iff (h : Aligned deadline tick period now) :
    deadline ≤ now ↔ tick + period ≤ now := by
  rcases h with h | ⟨hdeadline, htick, -⟩
  · rw [h]
  · exact ⟨fun _ => htick, fun _ => hdeadline⟩

theorem Aligned.exists_eq (h : Aligned deadline tick period now) :
    ∃ k : Int, deadline = tick + k * period := by
  rcases h with h | ⟨-, -, hk⟩
  · refine ⟨1, ?_⟩
    rw [h, Int.cast_one, one_mul]
  · exact hk

/-- The deadline after a tick is a period after the last tick that is over. -/
theorem Aligned.next (h : Aligned deadline tick period now) (hperiod : 0 < period) :
    deadline + period * (⌊(now - deadline) / period⌋ + 1) =
      tick + period * ⌊(now - tick) / period⌋ + period := by
  obtain ⟨k, rfl⟩ := h.exists_eq
  have hsub : (now - (tick + k * period)) / period = (now - tick) / period - k := by
    rw [← sub_sub, sub_div, mul_div_assoc, div_self hperiod.ne', mul_one]
  rw [hsub, Int.floor_sub_intCast, Int.cast_sub]
  ring

/-- The deadline after a tick is in the future. -/
theorem lt_next (hperiod : 0 < period) :
    now < deadline + period * (⌊(now - deadline) / period⌋ + 1) := by
  have hfloor := Int.lt_floor_add_one ((now - deadline) / period)
  rw [div_lt_iff₀ hperiod] at hfloor
  linarith

end

/-! ## Polls -/

section
variable {s : RTC} {now time : ℚ}

/-- What is served before does not make the others due or not. -/
theorem due_served (s : RTC) (now : ℚ) :
    ((s.updateTime now).servePeriodic now).alarmDue now = s.alarmDue now ∧
      (((s.updateTime now).servePeriodic now).serveAlarm now).updateDue now = s.updateDue now := by
  constructor
  · rw [RTC.servePeriodic]
    split <;> rfl
  · rw [RTC.serveAlarm, RTC.servePeriodic]
    split <;> split <;> rfl

theorem timer_causes (s : RTC) (now : ℚ) : (s.timer now).1 =
    ((if s.periodicDue now then [Cause.periodic] else []) ++
      (if s.alarmDue now then [Cause.alarm] else [])) ++
        if s.updateDue now then [Cause.update] else [] := by
  obtain ⟨halarm, hupdate⟩ := due_served s now
  rw [RTC.timer]
  dsimp only
  rw [halarm, hupdate]
  rfl

theorem periodic_mem : .periodic ∈ (s.timer now).1 ↔ s.periodicDue now = true := by
  rw [timer_causes]
  cases s.periodicDue now <;> cases s.alarmDue now <;> cases s.updateDue now <;> decide

theorem alarm_mem : .alarm ∈ (s.timer now).1 ↔ s.alarmDue now = true := by
  rw [timer_causes]
  cases s.periodicDue now <;> cases s.alarmDue now <;> cases s.updateDue now <;> decide

theorem timer_causes_eq_nil (hperiodic : s.periodicDue now = false) (halarm : s.alarmDue now = false)
    (hupdate : s.updateDue now = false) : (s.timer now).1 = [] := by
  rw [timer_causes, hperiodic, halarm, hupdate]
  rfl

/-- What a poll does to the clock: each deadline that is reached is moved, and its flags are set. -/
theorem timer_clock (s : RTC) (now : ℚ) : (s.timer now).2.2 = { s.updateTime now with
    cmosC := (s.timer now).1.foldl (fun c cause => c ||| cause.flags) s.cmosC
    nextInterrupt :=
      if s.periodicDue now then s.nextInterrupt.bind (RTC.nextAfter · s.periodicInterruptTime now)
      else s.nextInterrupt
    nextInterruptAlarm := if s.alarmDue now then 0 else s.nextInterruptAlarm
    updateInterruptTime := if s.updateDue now then now + 1000 else s.updateInterruptTime } := by
  rw [timer_causes]
  have hperiodic : (s.updateTime now).periodicDue now = s.periodicDue now := rfl
  obtain ⟨halarm, hupdate⟩ := due_served s now
  change RTC.serveUpdate (RTC.serveAlarm (RTC.servePeriodic _ now) now) now = _
  rw [RTC.serveUpdate, hupdate, RTC.serveAlarm, halarm, RTC.servePeriodic, hperiodic]
  cases s.periodicDue now <;> cases s.alarmDue now <;> cases s.updateDue now <;> rfl

/-- No deadline is reached. -/
structure Ahead (s : RTC) (now : ℚ) : Prop where
  periodic : s.periodicInterrupt = true → ∀ deadline, s.nextInterrupt = some deadline →
    now < deadline
  alarm : s.nextInterruptAlarm ≠ 0 → now < s.nextInterruptAlarm
  update : s.updateInterrupt = true → now < s.updateInterruptTime

theorem min_deadline {t deadline : ℚ} (ht : 0 < t) (hdeadline : now < deadline) :
    0 < min t (max 0 (deadline - now)) ∧ min t (max 0 (deadline - now)) ≤ deadline - now := by
  have hpos : 0 < deadline - now := sub_pos.2 hdeadline
  rw [max_eq_right hpos.le]
  exact ⟨lt_min ht hpos, min_le_right _ _⟩

/-- The time that a poll returns ends before the first deadline. -/
theorem Ahead.delay (h : Ahead s now) (hnow : 0 ≤ now) : 0 < s.delay now ∧
    (s.periodicInterrupt = true → ∀ deadline, s.nextInterrupt = some deadline →
      s.delay now ≤ deadline - now) ∧
    (s.nextInterruptAlarm ≠ 0 → s.delay now ≤ s.nextInterruptAlarm - now) ∧
    (s.updateInterrupt = true → s.delay now ≤ s.updateInterruptTime - now) := by
  obtain ⟨t₁, ht₁⟩ : ∃ t : ℚ, t = if s.periodicInterrupt && s.nextInterrupt ≠ some 0 then
    s.nextInterrupt.elim 100 fun deadline => min 100 (max 0 (deadline - now)) else 100 := ⟨_, rfl⟩
  obtain ⟨t₂, ht₂⟩ : ∃ t : ℚ, t = if s.nextInterruptAlarm ≠ 0 then
    min t₁ (max 0 (s.nextInterruptAlarm - now)) else t₁ := ⟨_, rfl⟩
  have hdelay : s.delay now = if s.updateInterrupt then
      min t₂ (max 0 (s.updateInterruptTime - now)) else t₂ := by
    rw [ht₂, ht₁]
    rfl
  have hperiodic : 0 < t₁ ∧ (s.periodicInterrupt = true → ∀ deadline,
      s.nextInterrupt = some deadline → t₁ ≤ deadline - now) := by
    rw [ht₁]
    cases hnext : s.nextInterrupt with
    | none =>
      refine ⟨?_, fun _ deadline hsome => nomatch hsome⟩
      split <;> norm_num
    | some deadline =>
      split
      · next henabled =>
        rw [Bool.and_eq_true] at henabled
        obtain ⟨hpos, hle⟩ := min_deadline (t := 100) (by norm_num)
          (h.periodic henabled.1 deadline hnext)
        refine ⟨hpos, fun _ deadline' hsome => ?_⟩
        rw [← Option.some.inj hsome]
        exact hle
      · next henabled =>
        refine ⟨by norm_num, fun hinterrupt deadline' hsome => absurd ?_ henabled⟩
        have hlt := h.periodic hinterrupt deadline hnext
        rw [hinterrupt, Bool.true_and, decide_eq_true_eq]
        exact fun hzero => (hnow.trans_lt hlt).ne' (Option.some.inj hzero)
  have halarm : 0 < t₂ ∧ t₂ ≤ t₁ ∧ (s.nextInterruptAlarm ≠ 0 → t₂ ≤ s.nextInterruptAlarm - now) := by
    rw [ht₂]
    split
    · next hne =>
      obtain ⟨hpos, hle⟩ := min_deadline hperiodic.1 (h.alarm hne)
      exact ⟨hpos, min_le_left _ _, fun _ => hle⟩
    · next hzero => exact ⟨hperiodic.1, le_rfl, fun hne => absurd hne hzero⟩
  have hupdate : 0 < s.delay now ∧ s.delay now ≤ t₂ ∧
      (s.updateInterrupt = true → s.delay now ≤ s.updateInterruptTime - now) := by
    rw [hdelay]
    split
    · next henabled =>
      obtain ⟨hpos, hle⟩ := min_deadline halarm.1 (h.update henabled)
      exact ⟨hpos, min_le_left _ _, fun _ => hle⟩
    · next henabled => exact ⟨halarm.1, le_rfl, fun h => absurd h henabled⟩
  refine ⟨hupdate.1, fun hinterrupt deadline hsome => ?_, fun hne => ?_, hupdate.2.2⟩
  · exact (hupdate.2.1.trans halarm.2.1).trans (hperiodic.2 hinterrupt deadline hsome)
  · exact hupdate.2.1.trans (halarm.2.2 hne)

/-- Nothing is signalled before that. -/
theorem Ahead.idle (h : Ahead s now) (hnow : 0 ≤ now) (htime : time < now + s.delay now) :
    (s.timer time).1 = [] := by
  obtain ⟨-, hperiodic, halarm, hupdate⟩ := h.delay hnow
  refine timer_causes_eq_nil ?_ ?_ ?_
  · rw [RTC.periodicDue, Bool.and_eq_false_imp]
    intro hinterrupt
    cases hnext : s.nextInterrupt with
    | none => rfl
    | some deadline =>
      have hle := hperiodic hinterrupt deadline hnext
      exact decide_eq_false (by linarith)
  · rw [RTC.alarmDue, Bool.and_eq_false_imp]
    intro hne
    have hle := halarm (of_decide_eq_true hne)
    exact decide_eq_false (by linarith)
  · rw [RTC.updateDue, Bool.and_eq_false_imp]
    intro hinterrupt
    have hle := hupdate hinterrupt
    exact decide_eq_false (by linarith)

end

end V86.Rtc
