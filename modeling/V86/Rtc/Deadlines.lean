import V86.Rtc.Interrupts
import Mathlib.Data.List.Induction

/-!
# The deadlines are those of the registers

`Sound` says what the cached deadlines are: the alarm's is not before a time at which it is to be
signalled, and the periodic one is the next tick's. A poll keeps this and signals what it is to
(`Sound.poll`); so does every fair write (`Sound.write71`). The alarm is armed for today even when
its time has passed, and stays armed when it is disabled (`signalled_at_once`).
-/

namespace V86.Rtc

open Bits

variable {m : Machine} {now : ℚ}

/-- The deadlines are those of the registers, and register C has the flags of what was signalled. -/
structure Sound (m : Machine) : Prop where
  clock : 0 ≤ m.clock
  calendar : 0 ≤ m.calendar m.clock
  period : m.rtc.periodicInterruptTime = RTC.periodOf (RTC.rate m.rtc.cmosA)
  periodic : m.rtc.periodicInterrupt = true ↔
    m.periodicEnabled = true ∧ RTC.rate m.rtc.cmosA ≠ 0
  flags : m.rtc.cmosC = flags m.causes
  alarm : m.rtc.nextInterruptAlarm ≠ 0 → m.alarmEnabled = true ∧
    Passed m.rtc.alarmSeconds (m.calendar m.alarmSince)
      (m.calendar (max m.clock m.rtc.nextInterruptAlarm))
  tick : m.periodicEnabled = true → ∀ period, m.rtc.periodicInterruptTime = some period →
    ∃ deadline, m.rtc.nextInterrupt = some deadline ∧ Aligned deadline m.tick period m.clock

theorem sound_start (wallTime now : ℚ≥0) : Sound (.start wallTime now) where
  clock := now.2
  calendar := by
    change 0 ≤ (wallTime : ℚ) + (now - now)
    rw [sub_self, add_zero]
    exact wallTime.2
  period := by
    change some (1000 / 1024 : ℚ) = RTC.periodOf (RTC.rate 0x26)
    decide +kernel
  periodic := by
    change false = true ↔ (2#8).getLsbD 6 = true ∧ _
    exact ⟨nofun, fun h => absurd h.1 (by decide)⟩
  flags := rfl
  alarm h := absurd rfl h
  tick h := absurd h (by decide : ¬(2#8).getLsbD 6 = true)

/-! ## Polls -/

variable {rate : Nat} {period : ℚ} {s : RTC} {dataByte : Byte}

theorem periodOf_pos (hlt : rate < 16) (h : RTC.periodOf rate = some period) : 0 < period := by
  rw [RTC.periodOf] at h
  split at h
  · cases h
  · rw [← Option.some.inj h]
    have hshift : 0 < 32768 >>> (rate - 1) := by
      have hle : rate - 1 ≤ 14 := by omega
      rw [Nat.shiftRight_eq_div_pow]
      exact Nat.div_pos (Nat.le_trans (Nat.pow_le_pow_right (by decide) hle) (by decide))
        (Nat.pow_pos (by decide))
    exact div_pos (by norm_num) (Nat.cast_pos.2 hshift)

theorem rate_lt (cmosA : Byte) : RTC.rate cmosA < 16 := by
  rw [RTC.rate, BitVec.toNat_and]
  exact Nat.lt_of_le_of_lt Nat.and_le_right (by decide)

theorem periodOf_eq_none : RTC.periodOf rate = none ↔ rate = 0 := by
  rw [RTC.periodOf]
  split
  · next h => exact ⟨fun _ => h, fun _ => rfl⟩
  · next h => exact ⟨nofun, fun h' => absurd h' h⟩

/-- A period has elapsed since the last tick exactly when the deadline is reached. -/
theorem Sound.periodicDue_iff (h : Sound m) (hnow : m.clock ≤ now) : m.rtc.periodicDue now = true ↔
      m.periodicEnabled = true ∧ RTC.rate m.rtc.cmosA ≠ 0 ∧ m.tick + m.period ≤ now := by
  rw [RTC.periodicDue, Bool.and_eq_true, h.periodic, and_assoc]
  refine and_congr_right fun henabled => and_congr_right fun hrate => ?_
  obtain ⟨period, hperiod⟩ := Option.ne_none_iff_exists'.1 (fun h => hrate (periodOf_eq_none.1 h))
  obtain ⟨deadline, hnext, haligned⟩ := h.tick henabled period (h.period.trans hperiod)
  rw [hnext, Machine.period, hperiod]
  change decide (deadline ≤ now) = true ↔ m.tick + period ≤ now
  rw [decide_eq_true_eq]
  exact (haligned.mono hnow).le_iff

/-- An alarm that is due has passed its time of day. -/
theorem Sound.alarm_passed (h : Sound m) (hnow : m.clock ≤ now) (hdue : m.rtc.alarmDue now = true) :
    m.alarmEnabled = true ∧
      Passed m.rtc.alarmSeconds (m.calendar m.alarmSince) (m.calendar now) := by
  rw [RTC.alarmDue, Bool.and_eq_true, decide_eq_true_eq, decide_eq_true_eq] at hdue
  obtain ⟨henabled, hpassed⟩ := h.alarm hdue.1
  refine ⟨henabled, hpassed.mono ?_⟩
  rw [Machine.calendar, Machine.calendar]
  have hmax := max_le hnow hdue.2
  linarith

theorem calendar_polled (m : Machine) (now time : ℚ) :
    (m.polled now).calendar time = m.calendar time := by
  change (m.rtc.timer now).2.2.rtcTime + (time - (m.rtc.timer now).2.2.lastUpdate) = _
  rw [timer_clock, Machine.calendar]
  change m.rtc.rtcTime + (now - m.rtc.lastUpdate) + (time - now) = _
  ring

theorem cmosB_polled (m : Machine) (now : ℚ) : (m.polled now).rtc.cmosB = m.rtc.cmosB := by
  change (m.rtc.timer now).2.2.cmosB = _
  rw [timer_clock]
  rfl

theorem alarmSeconds_polled (m : Machine) (now : ℚ) :
    (m.polled now).rtc.alarmSeconds = m.rtc.alarmSeconds := by
  change (m.rtc.timer now).2.2.alarmSeconds = _
  rw [timer_clock]
  rfl

theorem flags_append (causes causes' : List Cause) :
    flags (causes ++ causes') = causes'.foldl (fun c cause => c ||| cause.flags) (flags causes) := by
  rw [flags, List.foldl_append]
  rfl

section
variable (h : Sound m) (hnow : m.clock ≤ now)
include h hnow

/-- The next tick's deadline after a poll, and that it is in the future. -/
theorem Sound.tick_polled (henabled : m.periodicEnabled = true)
    (hperiod : m.rtc.periodicInterruptTime = some period) :
    ∃ deadline, (m.polled now).rtc.nextInterrupt = some deadline ∧
      Aligned deadline (m.polled now).tick period now ∧ now < deadline := by
  have hperiodOf := h.period.symm.trans hperiod
  have hpos := periodOf_pos (rate_lt _) hperiodOf
  have hrate : RTC.rate m.rtc.cmosA ≠ 0 := by
    intro hzero
    rw [periodOf_eq_none.2 hzero] at hperiodOf
    cases hperiodOf
  obtain ⟨deadline, hnext, haligned⟩ := h.tick henabled period hperiod
  have hnext' : (m.polled now).rtc.nextInterrupt =
      if m.rtc.periodicDue now then
        m.rtc.nextInterrupt.bind (RTC.nextAfter · m.rtc.periodicInterruptTime now)
      else m.rtc.nextInterrupt := by
    change (m.rtc.timer now).2.2.nextInterrupt = _
    rw [timer_clock]
  have htick : (m.polled now).tick = if m.rtc.periodicDue now then
      m.tick + m.period * ⌊(now - m.tick) / m.period⌋ else m.tick :=
    if_congr periodic_mem rfl rfl
  rw [hnext', htick]
  by_cases hdue : m.rtc.periodicDue now = true
  · rw [if_pos hdue, if_pos hdue, hnext, hperiod, Machine.period, hperiodOf]
    exact ⟨_, rfl, .inl ((haligned.mono hnow).next hpos), lt_next hpos⟩
  · rw [if_neg hdue, if_neg hdue]
    refine ⟨deadline, hnext, haligned.mono hnow, lt_of_not_ge fun hle => hdue ?_⟩
    rw [RTC.periodicDue, h.periodic.2 ⟨henabled, hrate⟩, hnext]
    exact decide_eq_true hle

theorem Sound.polled : Sound (m.polled now) where
  clock := h.clock.trans hnow
  calendar := by
    rw [calendar_polled]
    have hcalendar := h.calendar
    rw [Machine.calendar] at hcalendar ⊢
    change 0 ≤ m.rtc.rtcTime + (now - m.rtc.lastUpdate)
    linarith
  period := by
    change (m.rtc.timer now).2.2.periodicInterruptTime =
      RTC.periodOf (RTC.rate (m.rtc.timer now).2.2.cmosA)
    rw [timer_clock]
    exact h.period
  periodic := by
    change (m.rtc.timer now).2.2.periodicInterrupt = true ↔
      (m.rtc.timer now).2.2.cmosB.getLsbD 6 = true ∧ RTC.rate (m.rtc.timer now).2.2.cmosA ≠ 0
    rw [timer_clock]
    exact h.periodic
  flags := by
    change (m.rtc.timer now).2.2.cmosC = V86.Rtc.flags (m.causes ++ (m.rtc.timer now).1)
    rw [timer_clock, flags_append, ← h.flags]
  alarm hne := by
    have hnext : (m.polled now).rtc.nextInterruptAlarm =
        if m.rtc.alarmDue now then 0 else m.rtc.nextInterruptAlarm := by
      change (m.rtc.timer now).2.2.nextInterruptAlarm = _
      rw [timer_clock]
    have hsince : (m.polled now).alarmSince = if m.rtc.alarmDue now then now else m.alarmSince :=
      if_congr alarm_mem rfl rfl
    have hdue : ¬m.rtc.alarmDue now = true := by
      intro hdue
      rw [hnext, if_pos hdue] at hne
      exact hne rfl
    rw [if_neg hdue] at hnext hsince
    rw [hnext] at hne
    obtain ⟨henabled, hpassed⟩ := h.alarm hne
    rw [Machine.alarmEnabled, cmosB_polled, alarmSeconds_polled, hsince, hnext, calendar_polled,
      calendar_polled]
    refine ⟨henabled, hpassed.mono ?_⟩
    rw [Machine.calendar, Machine.calendar]
    have hmax := max_le_max_right m.rtc.nextInterruptAlarm hnow
    change _ ≤ m.rtc.rtcTime + (max now m.rtc.nextInterruptAlarm - m.rtc.lastUpdate)
    linarith
  tick henabled period hperiod := by
    rw [Machine.periodicEnabled, cmosB_polled] at henabled
    have hperiod' : m.rtc.periodicInterruptTime = some period := by
      rw [← hperiod]
      change _ = (m.rtc.timer now).2.2.periodicInterruptTime
      rw [timer_clock]
      rfl
    obtain ⟨deadline, hnext, haligned, -⟩ := h.tick_polled hnow henabled hperiod'
    exact ⟨deadline, hnext, haligned⟩

/-- After a poll, no deadline is reached. -/
theorem Sound.ahead : Ahead (m.rtc.timer now).2.2 now where
  periodic hinterrupt deadline hnext := by
    have hinterrupt' : m.rtc.periodicInterrupt = true := by
      rw [timer_clock] at hinterrupt
      exact hinterrupt
    obtain ⟨henabled, hrate⟩ := h.periodic.1 hinterrupt'
    obtain ⟨period, hperiod⟩ := Option.ne_none_iff_exists'.1 (fun h => hrate (periodOf_eq_none.1 h))
    obtain ⟨deadline', hnext', -, hlt⟩ := h.tick_polled hnow henabled (h.period.trans hperiod)
    rw [Option.some.inj (hnext.symm.trans hnext')]
    exact hlt
  alarm := by
    rw [timer_clock]
    change (if m.rtc.alarmDue now then 0 else m.rtc.nextInterruptAlarm) ≠ 0 →
      now < if m.rtc.alarmDue now then 0 else m.rtc.nextInterruptAlarm
    split
    · exact fun hne => absurd rfl hne
    · next hdue =>
      refine fun hne => lt_of_not_ge fun hle => hdue ?_
      rw [RTC.alarmDue, decide_eq_true hne, decide_eq_true hle]
      rfl
  update := by
    rw [timer_clock]
    change m.rtc.updateInterrupt = true →
      now < if m.rtc.updateDue now then now + 1000 else m.rtc.updateInterruptTime
    intro hinterrupt
    split
    · linarith
    · next hdue =>
      refine lt_of_not_ge fun hle => hdue ?_
      rw [RTC.updateDue, hinterrupt, decide_eq_true hle]
      rfl

/-- A poll signals what it is to. -/
theorem Sound.pollCorrect : PollCorrect m now where
  alarm halarm := h.alarm_passed hnow (alarm_mem.1 halarm)
  periodic := periodic_mem.trans (h.periodicDue_iff hnow)
  idle _ _ htime := (h.ahead hnow).idle (h.clock.trans hnow) htime
  positive := ((h.ahead hnow).delay (h.clock.trans hnow)).1

end

/-! ## Accesses -/

theorem flags_low (causes : List Cause) : flags causes &&& 0x0F = 0 := by
  induction causes using List.reverseRecOn with
  | nil => decide
  | append_singleton causes cause ih =>
    rw [flags_append, List.foldl_cons, List.foldl_nil, BitVec.and_comm, BitVec.and_or_distrib_left,
      BitVec.and_comm, ih]
    cases cause <;> decide

/-- A read of register C takes its flags. -/
theorem cmosPortRead_c (hindex : s.cmosIndex = 0x0C) (now : ℚ) :
    s.cmosPortRead now =
      ((s.updateTime now).cmosC, { s.updateTime now with cmosC := s.cmosC &&& ~~~0xF0 }) := by
  have hindex' : (s.updateTime now).cmosIndex = 0x0C := hindex
  simp only [RTC.cmosPortRead, hindex']
  rfl

/-- The other reads only follow the time. -/
theorem cmosPortRead_clock (hindex : s.cmosIndex ≠ 0x0C) (now : ℚ) :
    (s.cmosPortRead now).2 = s.updateTime now := by
  rw [RTC.cmosPortRead]
  repeat'
    with_reducible
      refine iteInduction (motive := fun r : Byte × RTC => r.2 = s.updateTime now)
        (fun hi => ?_) fun _ => ?_
  all_goals
    first
    | rfl
    | exact absurd hi hindex

/-- The deadlines and flags that the write of a register leaves. -/
structure SoundWrite (m : Machine) (now : ℚ) (s : RTC) : Prop where
  rtcTime : s.rtcTime = m.calendar now
  lastUpdate : s.lastUpdate = now
  period : s.periodicInterruptTime = RTC.periodOf (RTC.rate s.cmosA)
  cmosC : s.cmosC = m.rtc.cmosC
  alarm : s.nextInterruptAlarm ≠ 0 → s.cmosB.getLsbD 5 = true ∧
    Passed s.alarmSeconds
      (m.calendar (if s.cmosB.getLsbD 5 && !m.alarmEnabled then now else m.alarmSince))
      (m.calendar (max now s.nextInterruptAlarm))
  tick : s.cmosB.getLsbD 6 = true → ∀ period, s.periodicInterruptTime = some period →
    ∃ deadline, s.nextInterrupt = some deadline ∧
      Aligned deadline (if s.cmosB.getLsbD 6 && !m.periodicEnabled then now else m.tick) period now

theorem ite_and_not_self {α : Type} (b : Bool) (x y : α) : (if b && !b then x else y) = y := by
  rw [Bool.and_not_self, if_neg Bool.false_ne_true]

/-- A write that leaves register B alone keeps the alarm if it is still one that is signalled after
its time, and the periodic interrupt if its deadline is right for the period. -/
theorem Sound.soundWrite_of_same (h : Sound m) (hrtcTime : s.rtcTime = m.calendar now)
    (hlast : s.lastUpdate = now) (hcmosB : s.cmosB = m.rtc.cmosB) (hcmosC : s.cmosC = m.rtc.cmosC)
    (hperiod : s.periodicInterruptTime = RTC.periodOf (RTC.rate s.cmosA))
    (halarm : s.nextInterruptAlarm = m.rtc.nextInterruptAlarm)
    (hnext : s.nextInterrupt = m.rtc.nextInterrupt)
    (hpassed : m.rtc.nextInterruptAlarm ≠ 0 → Passed s.alarmSeconds (m.calendar m.alarmSince)
      (m.calendar (max now m.rtc.nextInterruptAlarm)))
    (haligned : m.periodicEnabled = true → ∀ period, s.periodicInterruptTime = some period →
      ∃ deadline, m.rtc.nextInterrupt = some deadline ∧ Aligned deadline m.tick period now) :
    SoundWrite m now s where
  rtcTime := hrtcTime
  lastUpdate := hlast
  period := hperiod
  cmosC := hcmosC
  alarm hne := by
    rw [halarm] at hne ⊢
    rw [hcmosB, ← Machine.alarmEnabled, ite_and_not_self]
    exact ⟨(h.alarm hne).1, hpassed hne⟩
  tick henabled period hsome := by
    rw [hcmosB, ← Machine.periodicEnabled] at henabled
    rw [hcmosB, hnext, ← Machine.periodicEnabled, ite_and_not_self]
    exact haligned henabled period hsome

theorem Sound.passed_mono (h : Sound m) (hnow : m.clock ≤ now) (hne : m.rtc.nextInterruptAlarm ≠ 0) :
    Passed m.rtc.alarmSeconds (m.calendar m.alarmSince)
      (m.calendar (max now m.rtc.nextInterruptAlarm)) := by
  refine (h.alarm hne).2.mono ?_
  rw [Machine.calendar, Machine.calendar]
  have hmax := max_le_max_right m.rtc.nextInterruptAlarm hnow
  linarith

theorem Sound.tick_mono (h : Sound m) (hnow : m.clock ≤ now) (henabled : m.periodicEnabled = true)
    (hperiod : m.rtc.periodicInterruptTime = some period) :
    ∃ deadline, m.rtc.nextInterrupt = some deadline ∧ Aligned deadline m.tick period now := by
  obtain ⟨deadline, hnext, haligned⟩ := h.tick henabled period hperiod
  exact ⟨deadline, hnext, haligned.mono hnow⟩

theorem rate_and (dataByte : Byte) : RTC.rate (dataByte &&& 0x7F) = RTC.rate dataByte := by
  rw [RTC.rate, RTC.rate, BitVec.and_assoc]
  rfl

theorem Sound.writeA (h : Sound m) (hnow : m.clock ≤ now) (hfair : FairA m now dataByte) :
    SoundWrite m now ((m.rtc.updateTime now).writeA dataByte) :=
  h.soundWrite_of_same rfl rfl rfl rfl rfl rfl rfl (h.passed_mono hnow) fun henabled period hsome =>
    hfair henabled period (by
      rw [← hsome, ← rate_and]
      rfl)

theorem registerB_getLsbD (dataByte : Byte) {i : Nat} (hi : i = 5 ∨ i = 6) :
    (RTC.registerB dataByte).getLsbD i = dataByte.getLsbD i := by
  rw [RTC.registerB]
  split
  · rw [BitVec.getLsbD_and]
    rcases hi with rfl | rfl
    · exact Bool.and_true _
    · exact Bool.and_true _
  · rfl

theorem decodeTime_registerB (dataByte t : Byte) :
    decodeTime (RTC.registerB dataByte) t = decodeTime dataByte t := by
  have hbit : RTC.registerB dataByte &&& 4 = dataByte &&& 4 := by
    rw [RTC.registerB]
    split
    · rw [BitVec.and_assoc]
      rfl
    · rfl
  rw [decodeTime, decodeTime, hbit]

theorem date_le {x : ℚ} (hx : 0 ≤ x) : (date x : ℚ) ≤ x := by
  have hfloor : date x = ⌊x⌋ := by
    rw [date, Int.tdiv_eq_ediv_of_nonneg (Rat.num_nonneg.2 hx), Rat.floor_def']
  rw [hfloor]
  exact Int.floor_le x

/-- Today's alarm in register B's new encoding is what the write computes. -/
theorem alarmDate_registerB (m : Machine) (now : ℚ) (dataByte : Byte) :
    { m.rtc.updateTime now with cmosB := RTC.registerB dataByte }.alarmDate (date (m.calendar now)) =
      m.todaysAlarm now dataByte := by
  rw [Machine.todaysAlarm, RTC.alarmDate, RTC.alarmDate, RTC.alarmSeconds, RTC.alarmSeconds]
  simp only [decodeTime_registerB]
  rfl

section
variable (h : Sound m) (hnow : m.clock ≤ now)
include h hnow

theorem Sound.calendar_nonneg : 0 ≤ m.calendar now := by
  have hcalendar := h.calendar
  rw [Machine.calendar] at hcalendar ⊢
  linarith

/-- The alarm that a write of register B arms is signalled after its time of today. -/
theorem Sound.passed_todaysAlarm {since deadline : ℚ}
    (hsince : m.calendar since < m.todaysAlarm now dataByte)
    (hdeadline : deadline = now + ((m.todaysAlarm now dataByte - date (m.calendar now) : Int) : ℚ)) :
    Passed { m.rtc with cmosB := dataByte }.alarmSeconds (m.calendar since)
      (m.calendar (max now deadline)) := by
  refine ⟨(date (m.calendar now)).fdiv msPerDay, hsince, ?_⟩
  change ((m.todaysAlarm now dataByte : Int) : ℚ) ≤ _
  have hdate := date_le (h.calendar_nonneg hnow)
  have hle := le_max_right now deadline
  have hcalendar : m.calendar now = m.rtc.rtcTime + (now - m.rtc.lastUpdate) := rfl
  rw [hdeadline, Int.cast_sub] at hle
  rw [Machine.calendar, hdeadline, Int.cast_sub]
  linarith

theorem Sound.writeB (hfair : FairB m now dataByte) :
    SoundWrite m now ((m.rtc.updateTime now).writeB now dataByte) where
  rtcTime := rfl
  lastUpdate := rfl
  period := h.period
  cmosC := rfl
  alarm hne := by
    have hnext : ((m.rtc.updateTime now).writeB now dataByte).nextInterruptAlarm =
        if RTC.registerB dataByte &&& 0x20 ≠ 0 then
          now + ((m.todaysAlarm now dataByte - date (m.calendar now) : Int) : ℚ)
        else m.rtc.nextInterruptAlarm := by
      rw [← alarmDate_registerB]
      rfl
    have hseconds : ((m.rtc.updateTime now).writeB now dataByte).alarmSeconds =
        { m.rtc with cmosB := dataByte }.alarmSeconds := by
      rw [RTC.alarmSeconds, RTC.alarmSeconds, RTC.writeB]
      simp only [decodeTime_registerB]
      rfl
    have hbit : (RTC.registerB dataByte).getLsbD 5 = dataByte.getLsbD 5 :=
      registerB_getLsbD dataByte (.inl rfl)
    change (RTC.registerB dataByte).getLsbD 5 = true ∧ Passed _ (m.calendar
      (if (RTC.registerB dataByte).getLsbD 5 && !m.alarmEnabled then now else m.alarmSince)) _
    rw [hseconds, hbit]
    cases henabled : dataByte.getLsbD 5 with
    | false =>
      have hzero : ¬RTC.registerB dataByte &&& 0x20 ≠ 0 := by
        rw [not_not]
        exact (and_bit_eq_zero (w := 8) (i := 5) (by decide)).2 (hbit.trans henabled)
      rw [if_neg hzero] at hnext
      rw [hnext] at hne
      exact absurd (hfair.disables henabled) hne
    | true =>
      have hone : RTC.registerB dataByte &&& 0x20 ≠ 0 := by
        intro hzero
        have hfalse := (and_bit_eq_zero (w := 8) (i := 5) (by decide)).1 hzero
        rw [hbit, henabled] at hfalse
        cases hfalse
      rw [if_pos hone] at hnext
      refine ⟨rfl, ?_⟩
      have hsince : (if true && !m.alarmEnabled then now else m.alarmSince) =
          if m.alarmEnabled then m.alarmSince else now := by
        cases m.alarmEnabled <;> rfl
      rw [hsince]
      rcases hfair.enables henabled with hlt | hzero
      · exact h.passed_todaysAlarm hnow hlt hnext
      · exact absurd (hnext.trans hzero) hne
  tick henabled period hsome := by
    have hbit : (RTC.registerB dataByte).getLsbD 6 = dataByte.getLsbD 6 :=
      registerB_getLsbD dataByte (.inr rfl)
    change (RTC.registerB dataByte).getLsbD 6 = true at henabled
    change m.rtc.periodicInterruptTime = some period at hsome
    have hone : RTC.registerB dataByte &&& 0x40 ≠ 0 := by
      intro hzero
      have hfalse := (and_bit_eq_zero (w := 8) (i := 6) (by decide)).1 hzero
      rw [henabled] at hfalse
      cases hfalse
    have hnext : ((m.rtc.updateTime now).writeB now dataByte).nextInterrupt = some (now + period) := by
      change (if RTC.registerB dataByte &&& 0x40 ≠ 0 then
        m.rtc.periodicInterruptTime.map (now + ·) else m.rtc.nextInterrupt) = _
      rw [if_pos hone, hsome]
      rfl
    refine ⟨now + period, hnext, .inl ?_⟩
    change _ = (if (RTC.registerB dataByte).getLsbD 6 && !m.periodicEnabled then now
      else m.tick) + period
    rw [henabled]
    cases hperiodic : m.periodicEnabled with
    | false => rfl
    | true =>
      have hrate : RTC.rate m.rtc.cmosA ≠ 0 := by
        intro hzero
        rw [h.period, periodOf_eq_none.2 hzero] at hsome
        cases hsome
      rw [← hfair.restarts (hbit.symm.trans henabled) hperiodic hrate]
      rfl

/-- A fair write leaves the deadlines those of the registers. -/
theorem Sound.writeSelected (hA : m.rtc.cmosIndex = 0x0A → FairA m now dataByte)
    (hB : m.rtc.cmosIndex = 0x0B → FairB m now dataByte)
    (hAlarm : m.rtc.cmosIndex ∈ ([0x01, 0x03, 0x05] : List (BitVec 7)) → FairAlarm m now dataByte) :
    SoundWrite m now ((m.rtc.updateTime now).writeSelected now dataByte) := by
  have htick (henabled : m.periodicEnabled = true) (period : ℚ)
      (hperiod : m.rtc.periodicInterruptTime = some period) :=
    h.tick_mono hnow henabled hperiod
  refine iteInduction (fun hindex => h.writeA hnow (hA hindex)) fun _ => ?_
  refine iteInduction (fun hindex => h.writeB hnow (hB hindex)) fun _ => ?_
  refine iteInduction (fun _ => ?_) fun _ => ?_
  · exact h.soundWrite_of_same rfl rfl rfl rfl h.period rfl rfl (h.passed_mono hnow) htick
  refine iteInduction (fun hindex => ?_) fun halarm => ?_
  · have hmem : m.rtc.cmosIndex ∈ ([0x01, 0x03, 0x05] : List (BitVec 7)) := by
      rcases hindex with hi | hi | hi
      · exact List.mem_cons.2 (.inl hi)
      · exact List.mem_cons_of_mem _ (List.mem_cons.2 (.inl hi))
      · exact List.mem_cons_of_mem _ (List.mem_cons_of_mem _ (List.mem_singleton.2 hi))
    refine h.soundWrite_of_same rfl rfl rfl rfl h.period rfl rfl (fun hne => ?_) htick
    exact (hAlarm hmem).resolve_left hne
  refine iteInduction (fun hram => ?_) fun _ => ?_
  · refine h.soundWrite_of_same rfl rfl rfl rfl h.period rfl rfl (fun hne => ?_) htick
    -- the other registers are not the alarm's
    have hother (i : BitVec 7) (hi : i.toNat < 0x0F) :
        Function.update m.rtc.cmosData m.rtc.cmosIndex dataByte i = m.rtc.cmosData i := by
      refine Function.update_of_ne (fun heq => ?_) ..
      rw [heq] at hi
      exact absurd hram (Nat.not_le.2 hi)
    have hseconds : ({ m.rtc.updateTime now with
        cmosData := Function.update m.rtc.cmosData m.rtc.cmosIndex dataByte } : RTC).alarmSeconds =
          m.rtc.alarmSeconds := by
      rw [RTC.alarmSeconds]
      dsimp only
      rw [hother 0x05 (by decide), hother 0x03 (by decide), hother 0x01 (by decide)]
      rfl
    change Passed ({ m.rtc.updateTime now with
      cmosData := Function.update m.rtc.cmosData m.rtc.cmosIndex dataByte } : RTC).alarmSeconds _ _
    rw [hseconds]
    exact h.passed_mono hnow hne
  · exact h.soundWrite_of_same rfl rfl rfl rfl h.period rfl rfl (h.passed_mono hnow) htick

theorem SoundWrite.sound
    (hwrite : SoundWrite m now ((m.rtc.updateTime now).writeSelected now dataByte)) :
    Sound (m.written now dataByte) := by
  have hcalendar (time : ℚ) : (m.written now dataByte).calendar time = m.calendar time := by
    change ((m.rtc.updateTime now).writeSelected now dataByte).rtcTime +
      (time - ((m.rtc.updateTime now).writeSelected now dataByte).lastUpdate) = _
    rw [hwrite.rtcTime, hwrite.lastUpdate, Machine.calendar, Machine.calendar]
    ring
  exact
    { clock := h.clock.trans hnow
      calendar := by
        rw [hcalendar]
        exact h.calendar_nonneg hnow
      period := hwrite.period
      periodic := by
        change (((m.rtc.updateTime now).writeSelected now dataByte).cmosB &&& 0x40 = 0x40 &&
          0 < RTC.rate ((m.rtc.updateTime now).writeSelected now dataByte).cmosA) = true ↔
            ((m.rtc.updateTime now).writeSelected now dataByte).cmosB.getLsbD 6 = true ∧
              RTC.rate ((m.rtc.updateTime now).writeSelected now dataByte).cmosA ≠ 0
        rw [Bool.and_eq_true, decide_eq_true_eq, decide_eq_true_eq, Nat.pos_iff_ne_zero]
        exact and_congr_left fun _ => and_bit_eq_bit (w := 8) (i := 6) (by decide)
      flags := hwrite.cmosC.trans h.flags
      alarm := fun hne => by
        rw [hcalendar, hcalendar]
        exact hwrite.alarm hne
      tick := hwrite.tick }

end

/-- Two states with the same registers and deadlines. -/
structure SameDeadlines (m m' : Machine) : Prop where
  calendar : ∀ time, m'.calendar time = m.calendar time
  cmosA : m'.rtc.cmosA = m.rtc.cmosA
  cmosB : m'.rtc.cmosB = m.rtc.cmosB
  cmosData : m'.rtc.cmosData = m.rtc.cmosData
  period : m'.rtc.periodicInterruptTime = m.rtc.periodicInterruptTime
  periodic : m'.rtc.periodicInterrupt = m.rtc.periodicInterrupt
  next : m'.rtc.nextInterrupt = m.rtc.nextInterrupt
  alarm : m'.rtc.nextInterruptAlarm = m.rtc.nextInterruptAlarm
  since : m'.alarmSince = m.alarmSince
  tick : m'.tick = m.tick

theorem Sound.of_same (h : Sound m) {m' : Machine} (hsame : SameDeadlines m m')
    (hnow : m.clock ≤ m'.clock) (hflags : m'.rtc.cmosC = V86.Rtc.flags m'.causes) : Sound m' where
  clock := h.clock.trans hnow
  calendar := by
    rw [hsame.calendar]
    exact h.calendar_nonneg hnow
  period := by
    rw [hsame.period, hsame.cmosA]
    exact h.period
  periodic := by
    rw [hsame.periodic, hsame.cmosA, Machine.periodicEnabled, hsame.cmosB]
    exact h.periodic
  flags := hflags
  alarm hne := by
    have hseconds : m'.rtc.alarmSeconds = m.rtc.alarmSeconds := by
      rw [RTC.alarmSeconds, RTC.alarmSeconds, hsame.cmosB, hsame.cmosData]
    rw [hsame.alarm] at hne
    rw [Machine.alarmEnabled, hsame.cmosB, hseconds, hsame.since, hsame.calendar, hsame.calendar,
      hsame.alarm]
    exact ⟨(h.alarm hne).1, h.passed_mono hnow hne⟩
  tick henabled period hperiod := by
    rw [Machine.periodicEnabled, hsame.cmosB] at henabled
    rw [hsame.period] at hperiod
    rw [hsame.next, hsame.tick]
    exact h.tick_mono hnow henabled hperiod

theorem calendar_updateTime (m : Machine) (now time : ℚ) :
    { m with rtc := m.rtc.updateTime now }.calendar time = m.calendar time := by
  change m.rtc.rtcTime + (now - m.rtc.lastUpdate) + (time - now) =
    m.rtc.rtcTime + (time - m.rtc.lastUpdate)
  ring

/-! ## Runs -/

/-- An event leaves the deadlines those of the registers, if it is fair. -/
theorem Sound.step (h : Sound m) (e : Event) (hfair : Fair m e) :
    Sound (step m e) ∧ Correct m e := by
  obtain ⟨wait, action⟩ := e
  have hnow : m.clock ≤ m.clock + (wait : ℚ) := le_add_of_nonneg_right wait.2
  cases action with
  | poll => exact ⟨h.polled hnow, h.pollCorrect hnow⟩
  | write70 outByte =>
    refine ⟨h.of_same ?_ hnow h.flags, trivial⟩
    exact ⟨fun _ => rfl, rfl, rfl, rfl, rfl, rfl, rfl, rfl, rfl, rfl⟩
  | read71 =>
    have htime := calendar_updateTime m (m.clock + wait)
    by_cases hindex : m.rtc.cmosIndex = 0x0C
    · have hread := cmosPortRead_c hindex (m.clock + wait)
      refine ⟨h.of_same ?_ hnow ?_, fun _ => ?_⟩
      · change SameDeadlines m ⟨(m.rtc.cmosPortRead (m.clock + wait)).2, _, _, _, _⟩
        rw [hread]
        exact ⟨htime, rfl, rfl, rfl, rfl, rfl, rfl, rfl, rfl, rfl⟩
      · change (m.rtc.cmosPortRead (m.clock + wait)).2.cmosC =
          V86.Rtc.flags (if m.rtc.cmosIndex = 0x0C then [] else m.causes)
        rw [hread, if_pos hindex, h.flags]
        exact flags_low m.causes
      · change (m.rtc.cmosPortRead (m.clock + wait)).1 = _
        rw [hread]
        exact h.flags
    · have hread := cmosPortRead_clock hindex (m.clock + wait)
      refine ⟨h.of_same ?_ hnow ?_, fun h => absurd h hindex⟩
      · change SameDeadlines m ⟨(m.rtc.cmosPortRead (m.clock + wait)).2, _, _, _, _⟩
        rw [hread]
        exact ⟨htime, rfl, rfl, rfl, rfl, rfl, rfl, rfl, rfl, rfl⟩
      · change (m.rtc.cmosPortRead (m.clock + wait)).2.cmosC =
          V86.Rtc.flags (if m.rtc.cmosIndex = 0x0C then [] else m.causes)
        rw [hread, if_neg hindex]
        exact h.flags
  | write71 dataByte =>
    obtain ⟨hA, hB, hAlarm⟩ := hfair
    exact ⟨(h.writeSelected hnow hA hB hAlarm).sound h hnow, trivial⟩

/-- In every run whose writes are fair, polls signal what they are to, and register C reads as what
was signalled since it was read. -/
theorem correct_of_fair (wallTime now : ℚ≥0) {events : List Event}
    (hfair : Runs.Each step Fair (.start wallTime now) events) :
    Runs.Each step Correct (.start wallTime now) events :=
  Runs.each_of (A := fun _ => True) (I := Sound)
    (fun _ e _ h hfair => h.step e hfair) (fun _ _ => trivial) (sound_start wallTime now) hfair

/-- At noon, the guest enables an alarm for one o'clock and the periodic interrupt. -/
def afternoon : List Event :=
  [⟨0, .write70 0x05⟩, ⟨0, .write71 0x13⟩, ⟨0, .write70 0x0B⟩, ⟨0, .write71 0x62⟩, ⟨1, .poll⟩,
    ⟨1, .write70 0x0C⟩, ⟨0, .read71⟩, ⟨3600000, .poll⟩]

theorem correct_afternoon : Runs.Each step Correct (.start 43200000 0) afternoon := by
  refine correct_of_fair 43200000 0 ⟨trivial, ⟨fun h => ?_, fun h => ?_, fun _ => .inl rfl⟩, trivial,
    ⟨fun h => ?_, fun _ => ⟨fun _ => .inl ?_, fun h => ?_, fun _ h => ?_⟩, fun h => ?_⟩, trivial,
    trivial, trivial, trivial, trivial⟩
  all_goals
    first
    | exact absurd h (by decide +kernel)
    | decide +kernel

/-- At noon, the guest enables an alarm for midnight. -/
def midnightAlarm : List Event := [⟨0, .write70 0x0B⟩, ⟨0, .write71 0x22⟩, ⟨0, .poll⟩]

theorem signalled_at_once : ¬∀ (wallTime now : ℚ≥0) (events : List Event),
      Runs.Each step Correct (.start wallTime now) events := by
  intro h
  obtain ⟨-, -, hpoll, -⟩ := h 43200000 0 midnightAlarm
  obtain ⟨-, day, hsince, hnow⟩ := hpoll.alarm (by decide +kernel)
  exact absurd (hsince.trans_le hnow) (by decide +kernel)

end V86.Rtc
