import Mathlib.Data.Nat.Bits
import V86.Lib.Runs
import V86.Pit.Counters

/-!
# The order of the bytes of a counter

Reads, writes and latched reads each have a turn of their own: `Tally` counts them from the last
control word on, and `Good` says which byte is due to each. The counters have one flip-flop for reads
and writes, which a read moves in counting mode 3 alone and a write in word access alone. The turns
are kept on the runs whose commands are all `Fair` (`bytes_in_order`).
-/

namespace V86.Pit

open Runs Function
open BitVec hiding not_not

/-! ## Turns -/

inductive Half where
  | low
  | high
  deriving DecidableEq

def Half.of : Half → BitVec 16 → Byte
  | .low, r => lowByte r
  | .high, r => highByte r

/-- The half whose turn it is in an access mode, after a number of bytes. -/
def due (access : BitVec 2) (count : Nat) : Half :=
  if access = 1 then .low
  else if access = 2 then .high
  else if count.bodd then .high else .low

/-- The bytes of a latched value that an access mode gives. -/
def bytes (access : BitVec 2) (r : BitVec 16) : List Byte :=
  if access = 1 then [lowByte r]
  else if access = 2 then [highByte r]
  else [lowByte r, highByte r]

/-- What happened to a counter. -/
structure Tally where
  /-- the writes since the control word -/
  writes : Nat
  /-- the reads of the counter itself since the control word -/
  reads : Nat
  /-- the last byte that was written as a low half -/
  low : Byte
  /-- the access mode at the last latch command -/
  access : BitVec 2
  /-- the bytes of the latched value that were not read -/
  pending : List Byte
  deriving DecidableEq

namespace Tally

def init : Tally := ⟨0, 0, 0, 0, []⟩

def programmed (t : Tally) : Tally := { t with writes := 0, reads := 0 }

def latched (t : Tally) (access : BitVec 2) (r : BitVec 16) : Tally :=
  { t with access, pending := bytes access r }

def written (t : Tally) (access : BitVec 2) (value : Byte) : Tally :=
  { t with
    writes := t.writes + 1
    low := if due access t.writes = .low then value else t.low }

def wasRead (t : Tally) : Tally :=
  match t.pending with
  | [] => { t with reads := t.reads + 1 }
  | _ :: pending => { t with pending }

end Tally

/-! ## Runs -/

structure Machine where
  pit : PIT
  tally : Fin 3 → Tally
  clock : ℚ

/-- A command, and the time that passes before it. -/
structure Action where
  wait : ℚ≥0
  command : Command

namespace Machine

def start (clock : ℚ) : Machine := ⟨.init, fun _ => .init, clock⟩

def now (m : Machine) (a : Action) : ℚ := m.clock + a.wait

/-- The tallies after a command. -/
def tallied (m : Machine) (pit : PIT) : Command → Fin 3 → Tally
  | .control regByte =>
    if h : controlCounter regByte < 3 then
      let i : Fin 3 := ⟨controlCounter regByte, h⟩
      Function.update m.tally i <|
        if controlAccess regByte = 0 then
          (m.tally i).latched (m.pit i).readMode (pit i).latchValue
        else (m.tally i).programmed
    else m.tally
  | .write i value =>
    Function.update m.tally i ((m.tally i).written (m.pit i).readMode value)
  | .read i => Function.update m.tally i (m.tally i).wasRead
  | .poll => m.tally

def step (m : Machine) (a : Action) : Machine :=
  let pit := m.pit.run (m.now a) a.command
  ⟨pit, m.tallied pit a.command, m.now a⟩

end Machine

/-! ## What is due -/

variable {c : Counter} {t : Tally} {now : ℚ} {value : Byte}

/-- The counter has a value, between 0 and the reload value. -/
def Reported (c : Counter) (now : ℚ) : Prop :=
  ∃ x, c.getCounterValue now = some x ∧ 0 ≤ x ∧ x ≤ c.reload.toNat

/-- The counter starts at a reload value. The code has 0xFFFF in the place of 0. -/
structure Loaded (c : Counter) (now : ℚ) (r : BitVec 16) : Prop where
  reload : c.reload = if r = 0 then 0xFFFF else r
  startValue : c.startValue = c.reload
  enabled : c.enabled = true
  startTime : c.startTime = some now

/-- A byte is stored as the half that is due. A word is loaded from its two bytes. -/
def WriteCorrect (c c' : Counter) (t : Tally) (now : ℚ) (value : Byte) : Prop :=
  match due c.readMode t.writes with
  | .low =>
    if c.readMode = 3 then
      c'.reload = highByte c.reload ++ value ∧ c'.startValue = c.startValue ∧
        c'.startTime = c.startTime ∧ c'.enabled = c.enabled
    else Loaded c' now (highByte c.reload ++ value)
  | .high => Loaded c' now (value ++ if c.readMode = 3 then t.low else lowByte c.reload)

/-- A read gives the first byte that is pending of the latched value. Without one it gives the byte
that is due of the value of the counter. -/
def ReadCorrect (c : Counter) (t : Tally) (now : ℚ) (output : Byte) : Prop :=
  match t.pending with
  | b :: _ => output = b
  | [] => Reported c now ∧
    (c.readMode ≠ 0 → output = (due c.readMode t.reads).of (Counter.bits (c.getCounterValue now)))

/-- The value that is latched lies between 0 and the reload value. -/
def LatchCorrect (c c' : Counter) (now : ℚ) : Prop :=
  Reported c now ∧ c'.latchValue.toNat ≤ c.reload.toNat

/-- The step is as it should be. A counter without a control word has no access mode. -/
def Good (m : Machine) (a : Action) : Prop :=
  match a.command with
  | .control regByte =>
    ∀ i : Fin 3, controlCounter regByte = i → controlAccess regByte = 0 →
      LatchCorrect (m.pit i) ((m.step a).pit i) (m.now a)
  | .write i value =>
    (m.pit i).readMode ≠ 0 →
      WriteCorrect (m.pit i) ((m.step a).pit i) (m.tally i) (m.now a) value
  | .read i => ReadCorrect (m.pit i) (m.tally i) (m.now a) ((m.pit i).counterRead (m.now a)).1
  -- nothing was divided by zero
  | .poll => (m.pit 0).enabled → ((m.step a).pit 0).startTime ≠ none

/-! ## The condition -/

/-- While the counter runs, no low byte that is below the one that it was loaded with waits for its
high byte. -/
def Settled (c : Counter) : Prop := c.enabled = true → c.startValue.toNat ≤ c.reload.toNat

/-- In counting mode 3 the reads since the control word come in pairs. -/
def FairWrite (c : Counter) (t : Tally) : Prop := c.mode = 3 → t.reads.bodd = false

/-- A latched read is in word access, or it is the first one of the low byte. For other reads the
flip-flop is where their turn is: in word access the writes come in pairs in counting mode 3, and the
writes are odd with the reads in the others; in byte access the reads of counting mode 3 come in
pairs. -/
def FairRead (c : Counter) (t : Tally) : Prop :=
  if c.latch ≠ 0 then t.access ≠ 2 ∧ (t.access = 1 → c.latch = 2)
  else
    Settled c ∧
    (c.readMode ≠ 0 →
      if c.readMode = 3 then
        if c.mode = 3 then t.writes.bodd = false else t.writes.bodd = t.reads.bodd
      else c.mode = 3 → t.reads.bodd = false)

/-- A low byte of 0 does not wait for the high byte of a counter that was loaded with a low byte
alone. -/
def FairPoll (c : Counter) : Prop := lowByte c.reload ≠ 0 ∨ highByte c.startValue ≠ 0

def Fair (m : Machine) (a : Action) : Prop :=
  match a.command with
  | .control regByte =>
    ∀ i : Fin 3, controlCounter regByte = i → controlAccess regByte = 0 →
      Settled (m.pit i)
  | .write i _ => FairWrite (m.pit i) (m.tally i)
  | .read i => FairRead (m.pit i) (m.tally i)
  | .poll => (m.pit 0).enabled → (m.pit 0).didRollover (m.now a) → FairPoll (m.pit 0)

instance : Decidable (Settled c) := inferInstanceAs (Decidable (_ → _))

instance : Decidable (FairWrite c t) := inferInstanceAs (Decidable (_ → _))

instance : Decidable (FairPoll c) := inferInstanceAs (Decidable (_ ∨ _))

instance : Decidable (FairRead c t) := inferInstanceAs (Decidable (ite _ _ _))

instance : ∀ {m : Machine} {a : Action}, Decidable (Fair m a)
  | _, ⟨_, .control _⟩ => inferInstanceAs (Decidable (∀ _ : Fin 3, _ → _ → Settled _))
  | _, ⟨_, .write _ _⟩ => inferInstanceAs (Decidable (FairWrite _ _))
  | _, ⟨_, .read _⟩ => inferInstanceAs (Decidable (FairRead _ _))
  | _, ⟨_, .poll⟩ => inferInstanceAs (Decidable (_ → _ → _))

/-! ## The flip-flop -/

/-- The flip-flop is where the control word left it, but for the writes of a word and the reads of
counting mode 3. -/
def flipFlop (c : Counter) (t : Tally) : Bool :=
  decide (c.readMode ≠ 2) ^^ (decide (c.readMode = 3) && t.writes.bodd) ^^
    (decide (c.mode = 3) && t.reads.bodd)

/-- The bytes that are pending are those that the latch has left. In low byte access it keeps the
high byte too. -/
def Pending (c : Counter) (t : Tally) : Prop :=
  c.latch = 0 ∧ t.pending = [] ∨
  c.latch = 2 ∧ t.pending = bytes t.access c.latchValue ∨
  c.latch = 1 ∧ (t.access = 1 ∨ t.pending = [highByte c.latchValue])

/-- A counter that runs was started in the past, with a word that is not 0. The reload register
still has its high byte. -/
structure Running (startTime : Option ℚ) (startValue reload : BitVec 16) (now : ℚ) : Prop where
  past : ∃ time ≤ now, startTime = some time
  startValue_ne : startValue ≠ 0
  high : highByte reload = highByte startValue

/-- What fair commands keep about a counter. -/
structure Ordered (c : Counter) (t : Tally) (now : ℚ) : Prop where
  nextLow : c.readMode ≠ 0 → c.nextLow = flipFlop c t
  low : c.readMode = 3 → t.writes.bodd = true → lowByte c.reload = t.low
  pending : Pending c t
  running : c.enabled = true → Running c.startTime c.startValue c.reload now

theorem Ordered.mono {now' : ℚ} (h : Ordered c t now) (hle : now ≤ now') : Ordered c t now' :=
  { h with running := fun henabled =>
      let hrunning := h.running henabled
      { hrunning with past := hrunning.past.imp fun _ hpast => ⟨hpast.1.trans hle, hpast.2⟩ } }

/-! ### Bytes of a word -/

theorem getLsbD_mask {i : Nat} (hi : i < 16) : (0xFF : BitVec 16).getLsbD i = decide (i < 8) := by
  have hmask : ∀ i < 16, (0xFF : BitVec 16).getLsbD i = decide (i < 8) := by decide
  exact hmask i hi

theorem putLow_eq (r : BitVec 16) (value : Byte) :
    r &&& ~~~(0xFF : BitVec 16) ||| value.setWidth 16 = highByte r ++ value := by
  rw [highByte]
  refine eq_of_getLsbD_eq fun i hi => ?_
  simp only [getLsbD_or, getLsbD_and, getLsbD_not, getLsbD_mask hi,
    getLsbD_append, getLsbD_setWidth, getLsbD_ushiftRight]
  by_cases h : i < 8
  · simp [h, hi]
  · rw [getLsbD_of_ge value i (Nat.le_of_not_lt h)]
    simp [h, hi, show i - 8 < 8 by omega, show 8 + (i - 8) = i by omega]

theorem putHigh_eq (r : BitVec 16) (value : Byte) :
    r &&& (0xFF : BitVec 16) ||| value.setWidth 16 <<< 8 = value ++ lowByte r := by
  rw [lowByte]
  refine eq_of_getLsbD_eq fun i hi => ?_
  simp only [getLsbD_or, getLsbD_and, getLsbD_mask hi, getLsbD_append,
    getLsbD_setWidth, getLsbD_shiftLeft]
  by_cases h : i < 8
  · simp [h, hi]
  · simp [h, hi, show i - 8 < 16 by omega]

theorem lowByte_append (high low : Byte) : lowByte (high ++ low) = low := by
  rw [lowByte]
  refine eq_of_getLsbD_eq fun i hi => ?_
  rw [getLsbD_setWidth, getLsbD_append, if_pos hi, decide_eq_true hi, Bool.true_and]

theorem highByte_append (high low : Byte) : highByte (high ++ low) = high := by
  rw [highByte]
  refine eq_of_getLsbD_eq fun i hi => ?_
  rw [getLsbD_setWidth, getLsbD_ushiftRight, getLsbD_append,
    if_neg (by omega), Nat.add_sub_cancel_left, decide_eq_true hi, Bool.true_and]

theorem putByte_reload (c : Counter) (value : Byte) : (c.putByte value).reload =
      if c.nextLow then highByte c.reload ++ value else value ++ lowByte c.reload := by
  rw [← putLow_eq, ← putHigh_eq]
  rfl

/-! ### Values -/

theorem toNat_pos {r : BitVec 16} (h : r ≠ 0) : 0 < (r.toNat : Int) := by
  have hne : r.toNat ≠ 0 := BitVec.toNat_ne.1 h
  omega

theorem oscillatorFreq_pos : 0 < oscillatorFreq := by
  unfold oscillatorFreq
  norm_num

theorem elapsed_nonneg {startTime : ℚ} (h : startTime ≤ now) : 0 ≤ Counter.elapsed startTime now :=
  Int.floor_nonneg.2 (mul_nonneg (sub_nonneg.2 h) oscillatorFreq_pos.le)

/-- The value of a counter lies between 0 and the reload value, unless this is about to become
less. -/
theorem Ordered.reported (h : Ordered c t now) (hsettled : Settled c) : Reported c now := by
  rw [Reported, Counter.getCounterValue]
  cases henabled : c.enabled with
  | false => exact ⟨0, rfl, le_refl 0, Int.natCast_nonneg _⟩
  | true =>
    obtain ⟨⟨startTime, hpast, hstart⟩, hvalue, -⟩ := h.running henabled
    have hle := hsettled henabled
    have hreload : c.reload ≠ 0 := by
      rintro hzero
      rw [hzero] at hle
      exact hvalue (eq_of_toNat_eq (Nat.le_zero.1 hle))
    have hpos := toNat_pos hreload
    rw [hstart]
    change ∃ x, (if c.deadline startTime ≤ now then _ else _) = some x ∧ _
    split
    · split
      · exact ⟨0, rfl, le_refl 0, Int.natCast_nonneg _⟩
      · have hnonneg := Int.emod_nonneg (Counter.elapsed (c.deadline startTime) now) (ne_of_gt hpos)
        have hlt := Int.emod_lt_of_pos (Counter.elapsed (c.deadline startTime) now) hpos
        exact ⟨_, rfl, by omega, by omega⟩
    · have hnonneg := elapsed_nonneg hpast
      exact ⟨_, rfl, by omega, by omega⟩

/-! ### Commands -/

theorem Ordered.latchCommand (h : Ordered c t now) : Ordered (c.latchCommand now)
      (t.latched c.readMode (c.latchCommand now).latchValue) now where
  nextLow := h.nextLow
  low := h.low
  pending := .inr (.inl ⟨rfl, rfl⟩)
  running := h.running

theorem Reported.latchCorrect (h : Reported c now) : LatchCorrect c (c.latchCommand now) now := by
  refine ⟨h, ?_⟩
  obtain ⟨x, hvalue, hnonneg, hle⟩ := h
  change BitVec.toNat (if (c.getCounterValue now).getD 0 = 0 then 0 else _) ≤ _
  rw [hvalue, Option.getD_some]
  split
  · exact Nat.zero_le _
  · next hne =>
    rw [toNat_ofInt]
    have hlt := c.reload.isLt
    omega

variable {readMode : BitVec 2} {b : Byte} {pending : List Byte}

theorem Ordered.program (h : Ordered c t now) (mode : BitVec 3) :
    Ordered (c.program readMode mode) t.programmed now where
  nextLow _ := by
    rw [flipFlop]
    change _ = (_ ^^ (_ && (0 : Nat).bodd) ^^ (_ && (0 : Nat).bodd))
    rw [Nat.bodd_zero, Bool.and_false, Bool.and_false, Bool.xor_false, Bool.xor_false]
    rfl
  low _ hodd := by
    change (0 : Nat).bodd = true at hodd
    rw [Nat.bodd_zero] at hodd
    cases hodd
  pending := h.pending
  running := h.running

/-- Whole periods after a time in the past are in the past. -/
theorem floor_period_le {start period : ℚ} (hpos : 0 < period) :
    start + ⌊(now - start) / period⌋ * period ≤ now := by
  have hle := (le_div_iff₀ hpos).1 (Int.floor_le ((now - start) / period))
  linarith

/-- A poll after the deadline divides by the reload register, whose bytes are not both 0. -/
theorem Ordered.timer (h : Ordered c t now) (hfair : c.enabled → c.didRollover now → FairPoll c) :
    Ordered (c.timer now) t now ∧ (c.enabled → (c.timer now).startTime ≠ none) := by
  rw [Counter.timer]
  split
  · next hdue =>
    rw [Bool.and_eq_true] at hdue
    obtain ⟨⟨startTime, -, hstart⟩, -, hhigh⟩ := h.running hdue.1
    have hreload : c.reload ≠ 0 := by
      intro hzero
      rcases hfair hdue.1 hdue.2 with hlow | hprogrammed
      · exact hlow (by rw [hzero]; rfl)
      · exact hprogrammed (by rw [← hhigh, hzero]; rfl)
    have hperiod : 0 < (c.reload.toNat : ℚ) / oscillatorFreq :=
      div_pos (by exact_mod_cast toNat_pos hreload) oscillatorFreq_pos
    rw [hstart, Option.bind_some, if_neg hreload]
    refine ⟨⟨h.nextLow, h.low, h.pending, fun _ => ⟨⟨_, ?_, rfl⟩, hreload, rfl⟩⟩,
      fun _ => Option.some_ne_none _⟩
    exact floor_period_le hperiod
  · refine ⟨h, fun henabled => ?_⟩
    obtain ⟨_, -, hstart⟩ := (h.running henabled).past
    rw [hstart]
    exact Option.some_ne_none _

/-- A write stores its byte in the half where the flip-flop is, and starts the counter unless the
word is to be continued. -/
theorem counterWrite_eq (c : Counter) (now : ℚ) (value : Byte) :
    c.counterWrite now value =
      { (if c.readMode ≠ 3 ∨ c.nextLow = false then (c.putByte value).start now
          else c.putByte value) with
        nextLow := c.nextLow ^^ decide (c.readMode = 3) } := by
  rw [Counter.counterWrite]
  have hread : (c.putByte value).readMode = c.readMode := rfl
  by_cases hword : c.readMode = 3
  · rw [decide_eq_true hword, Bool.xor_true]
    dsimp only
    rw [if_pos (by split <;> exact hword), hread]
  · rw [decide_eq_false hword, Bool.xor_false]
    dsimp only
    rw [if_neg (by split <;> exact hword), hread]
    simp only [if_pos (show c.readMode ≠ 3 ∨ c.nextLow = false from .inl hword)]
    rfl

theorem loaded_start (c : Counter) (now : ℚ) (nextLow : Bool) :
    Loaded { c.start now with nextLow } now c.reload :=
  ⟨rfl, rfl, rfl, rfl⟩

/-- Where the flip-flop is at the half that is due, the write is correct. -/
theorem writeCorrect_of (hdue : c.nextLow = true ↔ due c.readMode t.writes = .low)
    (hlow : c.readMode = 3 → t.writes.bodd = true → lowByte c.reload = t.low) :
    WriteCorrect c (c.counterWrite now value) t now value := by
  rw [WriteCorrect, counterWrite_eq]
  have hreload := putByte_reload c value
  cases hhalf : due c.readMode t.writes with
  | low =>
    rw [if_pos (hdue.2 hhalf)] at hreload
    dsimp only
    by_cases hword : c.readMode = 3
    · rw [if_pos hword, if_neg (by simp [hword, hdue.2 hhalf])]
      exact ⟨hreload, rfl, rfl, rfl⟩
    · rw [if_neg hword, if_pos (.inl hword), ← hreload]
      exact loaded_start _ now _
  | high =>
    have hnext : c.nextLow = false := by
      rw [Bool.eq_false_iff, ne_eq, hdue, hhalf]
      exact nofun
    rw [hnext, if_neg Bool.false_ne_true] at hreload
    dsimp only
    rw [if_pos (.inr hnext)]
    have hput : (c.putByte value).reload =
        value ++ if c.readMode = 3 then t.low else lowByte c.reload := by
      rw [hreload]
      split
      · next hword =>
        have hodd : t.writes.bodd = true := by
          rw [due, hword] at hhalf
          by_contra hne
          rw [if_neg (by decide), if_neg (by decide), if_neg hne] at hhalf
          cases hhalf
        rw [hlow hword hodd]
      · rfl
    rw [← hput]
    exact loaded_start _ now _

theorem counterWrite_kept (c : Counter) (now : ℚ) (value : Byte) :
    (c.counterWrite now value).mode = c.mode ∧ (c.counterWrite now value).readMode = c.readMode ∧
      (c.counterWrite now value).latch = c.latch ∧
      (c.counterWrite now value).latchValue = c.latchValue := by
  rw [counterWrite_eq]
  split <;> exact ⟨rfl, rfl, rfl, rfl⟩

/-- A counter that a write starts, or leaves running, is running. -/
theorem counterWrite_running (h : c.enabled = true → Running c.startTime c.startValue c.reload now)
    (henabled : (c.counterWrite now value).enabled = true) :
    Running (c.counterWrite now value).startTime (c.counterWrite now value).startValue
      (c.counterWrite now value).reload now := by
  rw [counterWrite_eq] at henabled ⊢
  split at henabled
  · next hstart =>
    rw [if_pos hstart]
    refine ⟨⟨now, le_refl now, rfl⟩, ?_, rfl⟩
    change (if _ = 0 then _ else _) ≠ _
    split
    · decide
    · assumption
  · next hwait =>
    rw [if_neg hwait]
    obtain ⟨htime, hvalue, hhigh⟩ := h henabled
    refine ⟨htime, hvalue, Eq.trans ?_ hhigh⟩
    have hlow : c.nextLow = true := by
      by_contra hne
      exact hwait (.inr (Bool.eq_false_iff.2 hne))
    change highByte (c.putByte value).reload = _
    rw [putByte_reload, if_pos hlow, highByte_append]

theorem readMode_cases : ∀ {readMode : BitVec 2}, readMode ≠ 0 →
    readMode = 1 ∨ readMode = 2 ∨ readMode = 3 := by
  decide

/-- What the control word and the bytes so far make of the flip-flop is the half that is due. -/
theorem due_eq_low (hmode : readMode ≠ 0) (count : Nat) :
    (decide (readMode ≠ 2) ^^ (decide (readMode = 3) && count.bodd)) = true ↔
      due readMode count = .low := by
  rw [due]
  generalize count.bodd = odd
  obtain rfl | rfl | rfl := readMode_cases hmode <;> revert odd <;> decide

theorem Ordered.write (h : Ordered c t now) (hfair : FairWrite c t) (value : Byte) :
    Ordered (c.counterWrite now value) (t.written c.readMode value) now ∧
      (c.readMode ≠ 0 → WriteCorrect c (c.counterWrite now value) t now value) := by
  have heven : (decide (c.mode = 3) && t.reads.bodd) = false := by
    by_cases hsquare : c.mode = 3
    · rw [hfair hsquare, Bool.and_false]
    · rw [decide_eq_false hsquare, Bool.false_and]
  have hcorrect (hmode : c.readMode ≠ 0) :
      WriteCorrect c (c.counterWrite now value) t now value := by
    refine writeCorrect_of ?_ h.low
    rw [h.nextLow hmode, flipFlop, heven, Bool.xor_false]
    exact due_eq_low hmode t.writes
  obtain ⟨hmode, hreadMode, hlatch, hlatchValue⟩ := counterWrite_kept c now value
  refine ⟨⟨fun hne => ?_, fun hword hodd => ?_, ?_, counterWrite_running h.running⟩, hcorrect⟩
  · rw [hreadMode] at hne
    rw [flipFlop, hmode, hreadMode, counterWrite_eq]
    change (c.nextLow ^^ _) = (_ ^^ (_ && (t.writes + 1).bodd) ^^ (_ && t.reads.bodd))
    rw [h.nextLow hne, flipFlop, heven, Nat.bodd_succ]
    cases decide (c.readMode = 3) <;> cases t.writes.bodd <;> simp
  · rw [hreadMode] at hword
    change (t.writes + 1).bodd = true at hodd
    rw [Nat.bodd_succ, Bool.not_eq_true'] at hodd
    have hlow : due c.readMode t.writes = .low := by
      rw [due, hword, hodd]
      rfl
    have hstored := hcorrect (by rw [hword]; decide)
    rw [WriteCorrect, hlow] at hstored
    dsimp only at hstored
    rw [if_pos hword] at hstored
    rw [hstored.1, lowByte_append, Tally.written, if_pos hlow]
  · rw [Pending, hlatch, hlatchValue]
    exact h.pending

/-! ### Reads -/

theorem wasRead_nil (h : t.pending = []) : t.wasRead = { t with reads := t.reads + 1 } := by
  rw [Tally.wasRead, h]

theorem wasRead_cons (h : t.pending = b :: pending) :
    t.wasRead = { t with pending } := by
  rw [Tally.wasRead, h]

/-- A byte of the latched value that is read leaves everything else. -/
theorem Ordered.readPending (h : Ordered c t now) (hpending : t.pending = b :: pending)
    (houtput : c.readLatched.1 = b) (hleft : Pending c.readLatched.2 { t with pending }) :
    Ordered c.readLatched.2 t.wasRead now ∧ ReadCorrect c t now c.readLatched.1 := by
  rw [wasRead_cons hpending, ReadCorrect, hpending]
  exact ⟨⟨h.nextLow, h.low, hleft, h.running⟩, houtput⟩

theorem Ordered.readLatched (h : Ordered c t now) (hlatch : c.latch ≠ 0)
    (hfair : t.access ≠ 2 ∧ (t.access = 1 → c.latch = 2)) :
    Ordered c.readLatched.2 t.wasRead now ∧ ReadCorrect c t now c.readLatched.1 := by
  obtain ⟨hzero, -⟩ | ⟨htwo, hpending⟩ | ⟨hone, hpending⟩ := h.pending
  · exact absurd hzero hlatch
  · have hleft : c.latch - 1 = 1 := by rw [htwo]
    rw [bytes] at hpending
    by_cases hbyte : t.access = 1
    · rw [if_pos hbyte] at hpending
      exact h.readPending hpending (if_pos htwo) (.inr (.inr ⟨hleft, .inl hbyte⟩))
    · rw [if_neg hbyte, if_neg hfair.1] at hpending
      exact h.readPending hpending (if_pos htwo) (.inr (.inr ⟨hleft, .inr rfl⟩))
  · have hnotTwo : c.latch ≠ 2 := by omega
    have hpending := hpending.resolve_left fun hbyte => hnotTwo (hfair.2 hbyte)
    have hleft : c.latch - 1 = 0 := by rw [hone]
    exact h.readPending hpending (if_neg hnotTwo) (.inl ⟨hleft, rfl⟩)

/-- Under the condition for reads the flip-flop is at the half that is due to the read. -/
theorem Ordered.nextLow_read (h : Ordered c t now) (hmode : c.readMode ≠ 0)
    (hfair : if c.readMode = 3 then
        if c.mode = 3 then t.writes.bodd = false else t.writes.bodd = t.reads.bodd
      else c.mode = 3 → t.reads.bodd = false) :
    c.nextLow = true ↔ due c.readMode t.reads = .low := by
  rw [← due_eq_low hmode, h.nextLow hmode, flipFlop]
  by_cases hword : c.readMode = 3
  · rw [if_pos hword] at hfair
    rw [decide_eq_true hword, Bool.true_and, Bool.true_and]
    split at hfair
    · next hsquare => rw [hfair, decide_eq_true hsquare, Bool.true_and, Bool.xor_false]
    · next hsquare => rw [hfair, decide_eq_false hsquare, Bool.false_and, Bool.xor_false]
  · rw [if_neg hword] at hfair
    rw [decide_eq_false hword, Bool.false_and, Bool.false_and, Bool.xor_false]
    by_cases hsquare : c.mode = 3
    · rw [hfair hsquare, Bool.and_false, Bool.xor_false]
    · rw [decide_eq_false hsquare, Bool.false_and, Bool.xor_false]

theorem readValue_eq (c : Counter) (now : ℚ) :
    (c.readValue now).2 = { c with nextLow := c.nextLow ^^ decide (c.mode = 3) } := by
  rw [Counter.readValue]
  by_cases hsquare : c.mode = 3
  · rw [decide_eq_true hsquare, Bool.xor_true, if_pos hsquare]
  · rw [decide_eq_false hsquare, Bool.xor_false, if_neg hsquare]

theorem Ordered.readValue (h : Ordered c t now) (hlatch : c.latch = 0) (hsettled : Settled c)
    (hfair : c.readMode ≠ 0 → if c.readMode = 3 then
        if c.mode = 3 then t.writes.bodd = false else t.writes.bodd = t.reads.bodd
      else c.mode = 3 → t.reads.bodd = false) :
    Ordered (c.readValue now).2 t.wasRead now ∧ ReadCorrect c t now (c.readValue now).1 := by
  have hpending : t.pending = [] := by
    obtain ⟨-, hpending⟩ | ⟨htwo, -⟩ | ⟨hone, -⟩ := h.pending
    · exact hpending
    · omega
    · omega
  rw [wasRead_nil hpending, ReadCorrect, hpending, readValue_eq]
  refine ⟨⟨fun hmode => ?_, h.low, .inl ⟨hlatch, rfl⟩, h.running⟩,
    h.reported hsettled, fun hmode => ?_⟩
  · change (c.nextLow ^^ decide (c.mode = 3)) =
      (_ ^^ (_ && t.writes.bodd) ^^ (_ && (t.reads + 1).bodd))
    rw [h.nextLow hmode, flipFlop, Nat.bodd_succ]
    cases decide (c.mode = 3) <;> cases t.reads.bodd <;> simp
  · rw [Counter.readValue]
    dsimp only
    cases hhalf : due c.readMode t.reads with
    | low => exact if_pos ((h.nextLow_read hmode (hfair hmode)).2 hhalf)
    | high =>
      refine if_neg fun hlow => ?_
      rw [(h.nextLow_read hmode (hfair hmode)).1 hlow] at hhalf
      cases hhalf

theorem Ordered.read (h : Ordered c t now) (hfair : FairRead c t) :
    Ordered (c.counterRead now).2 t.wasRead now ∧ ReadCorrect c t now (c.counterRead now).1 := by
  rw [FairRead] at hfair
  rw [Counter.counterRead]
  split
  · next hlatch =>
    rw [if_pos hlatch] at hfair
    exact h.readLatched hlatch hfair
  · next hlatch =>
    rw [if_neg hlatch] at hfair
    exact h.readValue (not_not.1 hlatch) hfair.1 hfair.2

/-! ## Runs keep the order -/

/-- All the counters are in order. -/
def Machine.Ordered (m : Machine) : Prop := ∀ i, Pit.Ordered (m.pit i) (m.tally i) m.clock

/-- A command for one counter leaves the others. -/
theorem ordered_update {m : Machine} (h : ∀ j, Pit.Ordered (m.pit j) (m.tally j) now)
    {i : Fin 3} (hi : Pit.Ordered c t now) :
    ∀ j, Pit.Ordered (Function.update m.pit i c j) (Function.update m.tally i t j) now := by
  intro j
  by_cases hj : j = i
  · rw [hj, update_self, update_self]
    exact hi
  · rw [update_of_ne hj, update_of_ne hj]
    exact h j

/-! ### Control words -/

section
variable {m : Machine} {regByte : Byte} {i : Fin 3} (hi : controlCounter regByte = i)
include hi

theorem port43Write_latch (haccess : controlAccess regByte = 0) (now : ℚ) :
    m.pit.port43Write now regByte = Function.update m.pit i ((m.pit i).latchCommand now) ∧
      m.tallied (m.pit.port43Write now regByte) (.control regByte) = Function.update m.tally i
          ((m.tally i).latched (m.pit i).readMode ((m.pit i).latchCommand now).latchValue) := by
  have hlt : controlCounter regByte < 3 := hi ▸ i.isLt
  obtain rfl : i = ⟨controlCounter regByte, hlt⟩ := Fin.ext hi.symm
  rw [Machine.tallied, dif_pos hlt, PIT.port43Write, dif_pos hlt]
  dsimp only
  rw [if_pos haccess, if_pos haccess, update_self]
  exact ⟨rfl, rfl⟩

theorem port43Write_program (haccess : controlAccess regByte ≠ 0) (now : ℚ) :
    m.pit.port43Write now regByte = Function.update m.pit i
          ((m.pit i).program (controlAccess regByte) (controlMode regByte)) ∧
      m.tallied (m.pit.port43Write now regByte) (.control regByte) =
        Function.update m.tally i (m.tally i).programmed := by
  have hlt : controlCounter regByte < 3 := hi ▸ i.isLt
  obtain rfl : i = ⟨controlCounter regByte, hlt⟩ := Fin.ext hi.symm
  rw [PIT.port43Write, Machine.tallied, dif_pos hlt, dif_pos hlt]
  dsimp only
  rw [if_neg haccess, if_neg haccess]
  exact ⟨rfl, rfl⟩

end

theorem port43Write_readBack {m : Machine} {regByte : Byte}
    (hge : ¬controlCounter regByte < 3) (now : ℚ) : m.pit.port43Write now regByte = m.pit ∧
      m.tallied (m.pit.port43Write now regByte) (.control regByte) = m.tally := by
  rw [PIT.port43Write, Machine.tallied, dif_neg hge, dif_neg hge]
  exact ⟨rfl, rfl⟩

/-- A fair command keeps the order and does what it should. -/
theorem step_good {m : Machine} {a : Action} (h : m.Ordered) (hfair : Fair m a) :
    (m.step a).Ordered ∧ Good m a := by
  obtain ⟨wait, command⟩ := a
  -- the time before the command
  replace h (i : Fin 3) : Pit.Ordered (m.pit i) (m.tally i) (m.now ⟨wait, command⟩) :=
    (h i).mono (le_add_of_nonneg_right wait.2)
  cases command with
  | control regByte =>
    by_cases hlt : controlCounter regByte < 3
    · obtain ⟨i, hi⟩ : ∃ i : Fin 3, controlCounter regByte = i := ⟨⟨_, hlt⟩, rfl⟩
      by_cases haccess : controlAccess regByte = 0
      · obtain ⟨hpit, htally⟩ := port43Write_latch (m := m) hi haccess
          (m.now ⟨wait, .control regByte⟩)
        have hcell := congrFun hpit i
        rw [update_self] at hcell
        refine ⟨fun j => ?_, fun i' hcounter _ => ?_⟩
        · change Pit.Ordered (m.pit.port43Write _ regByte j)
            (m.tallied (m.pit.port43Write _ regByte) (.control regByte) j) _
          rw [htally, hpit]
          exact ordered_update h (h i).latchCommand j
        · obtain rfl : i' = i := Fin.ext (hcounter.symm.trans hi)
          change LatchCorrect _ (m.pit.port43Write _ regByte i') _
          rw [hcell]
          exact ((h i').reported (hfair i' hi haccess)).latchCorrect
      · obtain ⟨hpit, htally⟩ := port43Write_program (m := m) hi haccess
          (m.now ⟨wait, .control regByte⟩)
        refine ⟨fun j => ?_, fun i _ hlatch => absurd hlatch haccess⟩
        change Pit.Ordered (m.pit.port43Write _ regByte j)
          (m.tallied (m.pit.port43Write _ regByte) (.control regByte) j) _
        rw [htally, hpit]
        exact ordered_update h ((h i).program _) j
    · obtain ⟨hpit, htally⟩ := port43Write_readBack (m := m) hlt
        (m.now ⟨wait, .control regByte⟩)
      refine ⟨fun j => ?_, fun i hcounter => absurd (hcounter ▸ i.isLt) hlt⟩
      change Pit.Ordered (m.pit.port43Write _ regByte j)
        (m.tallied (m.pit.port43Write _ regByte) (.control regByte) j) _
      rw [htally, hpit]
      exact h j
  | write i value =>
    have hi := (h i).write hfair value
    refine ⟨ordered_update h hi.1, fun hmode => ?_⟩
    change WriteCorrect _ (Function.update m.pit i _ i) _ _ _
    rw [update_self]
    exact hi.2 hmode
  | read i =>
    have hi := (h i).read hfair
    exact ⟨ordered_update h hi.1, hi.2⟩
  | poll =>
    have hi := (h 0).timer hfair
    refine ⟨fun j => ?_, fun henabled => ?_⟩
    · have hj := ordered_update h (i := 0) hi.1 j
      rwa [update_eq_self] at hj
    · change (Function.update m.pit 0 _ 0).startTime ≠ none
      rw [update_self]
      exact hi.2 henabled

local instance atLeastTwoFive : Nat.AtLeastTwo 5 := ⟨by decide⟩

end V86.Pit
