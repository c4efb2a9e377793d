import V86.Hpet.Device
import V86.Lib.Runs
import Mathlib.Data.Nat.ModEq
import Mathlib.Order.Fin.Basic

/-!
# Matches of the comparators

The counter values at which a timer matches, from a value `since` on: those that are its comparator
in its width, or for a periodic timer the first of these and on by periods. A timer is watched from
the poll before, or from where it was armed; its `deadline` is the first match from there on, and so
a poll fires the timer exactly if it has an unserved match.
-/

namespace V86.Hpet

open Bits List

variable {m m' : Machine} {t : Timer} {i j : Fin timerCount} {since c d v : Nat}

namespace Timer

/-- The timer is periodic, with a period. -/
def periodic (t : Timer) : Bool := has t.config tnTypePeriodic && value64 t.period ≠ 0

/-- `v` is the first value from `since` on that is the comparator in the timer's width. -/
structure First (t : Timer) (since v : Nat) : Prop where
  le : since ≤ v
  eq : v ≡ value64 t.comparator [MOD t.width]
  least : ∀ u, since ≤ u → u ≡ value64 t.comparator [MOD t.width] → v ≤ u

/-- `v` is a match, from `since` on. -/
def Matches (t : Timer) (since v : Nat) : Prop :=
  if t.periodic then ∃ start k, t.First since start ∧ v = start + k * value64 t.period
  else since ≤ v ∧ v ≡ value64 t.comparator [MOD t.width]

/-- In 32-bit mode the upper halves are 0. -/
def Narrow (t : Timer) : Prop :=
  has t.config tn32mode = true → t.comparator.high = 0 ∧ t.period.high = 0

theorem First.unique (h : t.First since v) (h' : t.First since d) : v = d :=
  Nat.le_antisymm (h.least d h'.le h'.eq) (h'.least v h.le h.eq)

/-- There is a match up to `c` just if the first one is. -/
theorem First.exists_matches (h : t.First since d) : (∃ v, t.Matches since v ∧ v ≤ c) ↔ d ≤ c := by
  unfold Matches
  split
  · constructor
    · rintro ⟨v, ⟨start, k, hstart, rfl⟩, hv⟩
      rw [h.unique hstart]
      omega
    · intro hd
      exact ⟨d, ⟨d, 0, h, by simp⟩, hd⟩
  · constructor
    · rintro ⟨v, ⟨hle, heq⟩, hv⟩
      exact (h.least v hle heq).trans hv
    · intro hd
      exact ⟨d, ⟨h.le, h.eq⟩, hd⟩

/-- The first match from a value that is not past it. -/
theorem First.later (h : t.First since d) (hle : since ≤ c) (hd : c ≤ d) : t.First c d :=
  ⟨hd, h.eq, fun u hu heq => h.least u (hle.trans hu) heq⟩

theorem width_pos (t : Timer) : 0 < t.width := by
  unfold width
  split <;> omega

theorem value64_lt (halves : Halves) : value64 halves < 0x10000000000000000 := by
  have hlow := halves.low.isLt
  have hhigh := halves.high.isLt
  unfold value64
  omega

theorem Narrow.comparator_lt (h : t.Narrow) : value64 t.comparator < t.width := by
  unfold width
  split
  case isTrue hmode =>
    have hlow := t.comparator.low.isLt
    rw [value64, (h hmode).1]
    simpa using hlow
  case isFalse => exact value64_lt _

theorem Narrow.period_lt (h : t.Narrow) : value64 t.period < t.width := by
  unfold width
  split
  case isTrue hmode =>
    have hlow := t.period.low.isLt
    rw [value64, (h hmode).2]
    simpa using hlow
  case isFalse => exact value64_lt _

theorem width_eq (t : Timer) : t.width = 0x100000000 ∨ t.width = 0x10000000000000000 := by
  unfold width
  split
  · exact .inl rfl
  · exact .inr rfl

/-- Values less than a width apart are not both matches. -/
theorem First.of_lt (hle : c ≤ d) (heq : d ≡ value64 t.comparator [MOD t.width])
    (hlt : d < c + t.width) : t.First c d := by
  refine ⟨hle, heq, fun u hu hueq => ?_⟩
  by_contra hud
  have hdvd : t.width ∣ d - u :=
    (Nat.modEq_iff_dvd' (by omega)).1 (hueq.trans heq.symm)
  have := Nat.le_of_dvd (by omega) hdvd
  omega

/-- The first value from `c` on that is the comparator in the timer's width. -/
def startAt (t : Timer) (c : Nat) : Nat :=
  c + (value64 t.comparator + (t.width - c % t.width)) % t.width

theorem first_startAt (t : Timer) (c : Nat) : t.First c (t.startAt c) := by
  have hlt := Nat.mod_lt (value64 t.comparator + (t.width - c % t.width)) t.width_pos
  refine .of_lt (Nat.le_add_right _ _) ?_ (Nat.add_lt_add_left hlt c)
  unfold startAt Nat.ModEq
  rcases t.width_eq with hw | hw
  · rw [hw]
    omega
  · rw [hw]
    omega

/-- `arm` finds the first match from the counter on. -/
theorem Narrow.first_nextMatch (h : t.Narrow) (counter : Nat) :
    t.First counter (t.nextMatch counter) := by
  have hlt := h.comparator_lt
  have hnext : counter ≤ t.nextMatch counter ∧ t.nextMatch counter < counter + t.width ∧
      t.nextMatch counter ≡ value64 t.comparator [MOD t.width] := by
    unfold nextMatch Nat.ModEq
    dsimp only
    rcases t.width_eq with hw | hw
    · rw [hw] at hlt ⊢
      split <;> omega
    · rw [hw] at hlt ⊢
      split <;> omega
  exact .of_lt hnext.1 hnext.2.2 hnext.2.1

/-- A number below `2 ^ 64` is what its halves make up. -/
theorem value64_set64 {n : Nat} (h : n < 0x10000000000000000) : value64 (set64 n) = n := by
  have htoNat : ∀ k, (BitVec.ofNat 32 (k % 0x100000000)).toNat = k % 0x100000000 := by
    simp
  have hhigh : n / 0x100000000 < 0x100000000 := by omega
  rw [value64, set64, htoNat, htoNat, Nat.mod_eq_of_lt hhigh]
  exact Nat.div_add_mod' n 0x100000000

theorem period_advance (t : Timer) (counter deadline : Nat) :
    (t.advance counter deadline).period = t.period := by
  unfold advance
  dsimp only
  split <;> rfl

theorem periodic_advance (t : Timer) (counter deadline : Nat) :
    (t.advance counter deadline).periodic = t.periodic := by
  rw [periodic, config_advance, period_advance, periodic]

theorem width_advance (t : Timer) (counter deadline : Nat) :
    (t.advance counter deadline).width = t.width := by
  rw [width, config_advance, width]

/-- A periodic timer that has fired matches next within a period. -/
theorem Narrow.advance_periodic (h : t.Narrow) (hperiodic : t.periodic = true)
    (hfirst : t.First since d) (hd : d ≤ c) :
    ∃ d', (t.advance c d).deadline = some d' ∧ (t.advance c d).First (c + 1) d' ∧
      d' ≤ c + value64 t.period := by
  have hperiod : 0 < value64 t.period := by
    rw [periodic, Bool.and_eq_true, decide_eq_true_eq] at hperiodic
    exact Nat.pos_of_ne_zero hperiodic.2
  have hlt := h.period_lt
  generalize hp : value64 t.period = p at hperiod hlt
  have hdiv : (c - d) / p * p ≤ c - d := Nat.div_mul_le_self _ _
  have hmod : c - d < ((c - d) / p + 1) * p := Nat.lt_mul_of_div_lt (Nat.lt_succ_self _) hperiod
  have hadvance : t.advance c d =
      { t with
        deadline := some (d + ((c - d) / p + 1) * p)
        comparator := set64 ((value64 t.comparator + ((c - d) / p + 1) * p) % t.width) } := by
    unfold advance
    dsimp only
    rw [hp]
    exact if_pos (by rw [← hp]; exact hperiodic)
  have hcomparator : value64 (t.advance c d).comparator =
      (value64 t.comparator + ((c - d) / p + 1) * p) % t.width := by
    rw [hadvance]
    refine value64_set64 (Nat.lt_of_lt_of_le (Nat.mod_lt _ t.width_pos) ?_)
    rcases t.width_eq with hw | hw <;> omega
  refine ⟨d + ((c - d) / p + 1) * p, by rw [hadvance], ?_, ?_⟩
  · refine .of_lt (by omega) ?_ ?_
    · rw [hcomparator, width_advance]
      exact (hfirst.eq.add_right _).trans (Nat.mod_modEq _ _).symm
    · rw [width_advance]
      rw [Nat.add_mul] at hmod ⊢
      omega
  · rw [Nat.add_mul] at hmod ⊢
    omega

/-- A one-shot timer that has fired matches next a width later. -/
theorem advance_oneShot (hperiodic : t.periodic = false) (hfirst : t.First since d) (hd : d ≤ c)
    (hc : c < d + t.width) : (t.advance c d).deadline = some (d + t.width) ∧
      (t.advance c d).First (c + 1) (d + t.width) := by
  have hadvance : t.advance c d = { t with deadline := some (d + t.width) } := by
    unfold advance
    dsimp only
    exact if_neg (by rw [← periodic, hperiodic]; nofun)
  rw [hadvance]
  refine ⟨rfl, .of_lt hc ?_ ?_⟩
  · exact (Nat.ModEq.trans (by simp [Nat.ModEq, Timer.width]) hfirst.eq)
  · exact Nat.lt_of_le_of_lt (Nat.add_le_add_right hd _) (by simp [Timer.width])

theorem Narrow.advance (h : t.Narrow) : (t.advance c d).Narrow := by
  unfold Timer.advance
  dsimp only
  split
  · intro hmode
    refine ⟨?_, (h hmode).2⟩
    have hw : t.width = 0x100000000 := if_pos hmode
    rw [hw, set64]
    apply BitVec.eq_of_toNat_eq
    simp
  · exact h

end Timer

/-! ## What interrupts leave alone -/

/-- A timer without what only its interrupts use. -/
def Timer.bare (t : Timer) : Timer := { t with fsbValue := 0, fsbAddress := 0, line := none }

/-- The same main counter, and the same timers but for what their interrupts use. -/
structure Counts (m m' : Machine) : Prop where
  config : has m'.hpet.config enableCnf = has m.hpet.config enableCnf
  counter : ∀ now, m'.hpet.counter now = m.hpet.counter now
  bare : ∀ i, (m'.hpet.timers i).bare = (m.hpet.timers i).bare

theorem Counts.refl (m : Machine) : Counts m m := ⟨rfl, fun _ => rfl, fun _ => rfl⟩

theorem Counts.trans {m'' : Machine} (h : Counts m m') (h' : Counts m' m'') : Counts m m'' :=
  ⟨h'.config.trans h.config, fun now => (h'.counter now).trans (h.counter now),
    fun i => (h'.bare i).trans (h.bare i)⟩

theorem counts_modify {f : Timer → Timer}
    (h : (f (m.hpet.timers i)).bare = (m.hpet.timers i).bare) : Counts m (m.modify i f) where
  config := rfl
  counter := fun _ => rfl
  bare := by
    intro k
    rcases eq_or_ne k i with rfl | hne
    · simp [Machine.modify, h]
    · simp [Machine.modify, hne]

theorem counts_release (m : Machine) (i : Fin timerCount) : Counts m (m.release i) := by
  unfold Machine.release
  split
  · exact .refl m
  · have h := counts_modify (m := m) (i := i) (f := fun t => { t with line := none }) rfl
    exact ⟨h.config, h.counter, h.bare⟩

theorem counts_setLine (m : Machine) (i : Fin timerCount) (level : Bool) :
    Counts m (m.setLine i level) := by
  unfold Machine.setLine
  cases level with
  | false => exact counts_release m i
  | true =>
    simp only [if_true]
    split
    · exact ⟨rfl, fun _ => rfl, fun _ => rfl⟩
    split
    · exact .refl m
    case h_2 line _ =>
      split
      · exact .refl m
      · have h := counts_modify (m := m.release i) (i := i)
          (f := fun t => { t with line := some line }) rfl
        have h' := (counts_release m i).trans h
        exact ⟨h'.config, h'.counter, h'.bare⟩

theorem fires_release (m : Machine) (i : Fin timerCount) : (m.release i).fires = m.fires := by
  unfold Machine.release
  split <;> rfl

theorem fires_setLine (m : Machine) (i : Fin timerCount) (level : Bool) :
    (m.setLine i level).fires = m.fires := by
  unfold Machine.setLine
  cases level with
  | false => exact fires_release m i
  | true =>
    simp only [if_true]
    split
    · rfl
    split
    · rfl
    · split
      · rfl
      · exact fires_release m i

theorem counts_fire (m : Machine) (i : Fin timerCount) : Counts m (m.fire i) := by
  have hfires : ∀ fires isr, Counts m { m with fires := fires, hpet.isr := isr } :=
    fun _ _ => ⟨rfl, fun _ => rfl, fun _ => rfl⟩
  unfold Machine.fire
  dsimp only
  split
  · exact hfires _ m.hpet.isr
  split
  · exact (hfires _ _).trans (counts_setLine _ i true)
  · exact ((hfires _ m.hpet.isr).trans (counts_setLine _ i true)).trans (counts_setLine _ i false)

theorem fires_fire (m : Machine) (i : Fin timerCount) : (m.fire i).fires = m.fires ++ [i] := by
  unfold Machine.fire
  dsimp only
  split
  · rfl
  split
  · rw [fires_setLine]
  · rw [fires_setLine, fires_setLine]

/-! ## The poll -/

/-- The timer after a poll at `c`. -/
def Timer.polled (t : Timer) (c : Nat) : Timer :=
  match t.deadline with
  | none => t
  | some d => if d ≤ c then t.advance c d else t

/-- The timer has a deadline that `c` has reached. -/
def Timer.due (t : Timer) (c : Nat) : Bool :=
  match t.deadline with
  | none => false
  | some d => d ≤ c

theorem Timer.advance_bare (t : Timer) (c d : Nat) : t.bare.advance c d = (t.advance c d).bare := by
  unfold advance
  dsimp only
  have hperiodic : (has t.bare.config tnTypePeriodic && value64 t.bare.period ≠ 0) =
      (has t.config tnTypePeriodic && value64 t.period ≠ 0) := rfl
  have hwidth : t.bare.width = t.width := rfl
  rw [hperiodic, hwidth]
  split <;> rfl

theorem Timer.polled_bare (t : Timer) (c : Nat) : t.bare.polled c = (t.polled c).bare := by
  unfold polled
  have hdeadline : t.bare.deadline = t.deadline := rfl
  rw [hdeadline]
  cases t.deadline with
  | none => rfl
  | some d =>
    dsimp only
    split
    · exact t.advance_bare c d
    · rfl

theorem Timer.bare_polled {t t' : Timer} (h : t'.bare = t.bare) :
    (t'.polled c).bare = (t.polled c).bare := by
  rw [← polled_bare, h, polled_bare]

theorem Timer.due_congr {t t' : Timer} (h : t'.bare = t.bare) : t'.due c = t.due c := by
  have hdeadline : t'.bare.deadline = t.bare.deadline := by rw [h]
  have hdeadline : t'.deadline = t.deadline := hdeadline
  rw [due, due, hdeadline]

/-- A round of the poll. -/
theorem poll1_spec (m : Machine) (c : Nat) (i : Fin timerCount) :
    (m.poll1 c i).fires = (m.fires ++ if (m.hpet.timers i).due c then [i] else []) ∧
      has (m.poll1 c i).hpet.config enableCnf = has m.hpet.config enableCnf ∧
      (∀ now, (m.poll1 c i).hpet.counter now = m.hpet.counter now) ∧
      ((m.poll1 c i).hpet.timers i).bare = ((m.hpet.timers i).polled c).bare ∧
      ∀ j, j ≠ i → ((m.poll1 c i).hpet.timers j).bare = (m.hpet.timers j).bare := by
  have hnothing : m.fires = m.fires ++ [] ∧
      has m.hpet.config enableCnf = has m.hpet.config enableCnf ∧
      (∀ now, m.hpet.counter now = m.hpet.counter now) ∧
      (m.hpet.timers i).bare = (m.hpet.timers i).bare ∧
      ∀ j, j ≠ i → (m.hpet.timers j).bare = (m.hpet.timers j).bare := by simp
  unfold Machine.poll1 Timer.due Timer.polled
  cases hdeadline : (m.hpet.timers i).deadline with
  | none => exact hnothing
  | some d =>
    dsimp only
    simp only [decide_eq_true_eq]
    split
    · have hfire := counts_fire m i
      refine ⟨fires_fire m i, hfire.config, hfire.counter, ?_, fun j hne => ?_⟩
      · simp only [Machine.modify, Function.update_self]
        rw [← Timer.advance_bare, ← Timer.advance_bare, hfire.bare]
      · simp only [Machine.modify, Function.update_of_ne hne]
        exact hfire.bare j
    · exact hnothing

/-- The rounds for some of the timers. -/
theorem foldl_poll1_spec {is : List (Fin timerCount)} (hnodup : is.Nodup) (m : Machine) (c : Nat) :
    let m' := is.foldl (Machine.poll1 c) m
    m'.fires = m.fires ++ is.filter (fun i => (m.hpet.timers i).due c) ∧
      has m'.hpet.config enableCnf = has m.hpet.config enableCnf ∧
      (∀ now, m'.hpet.counter now = m.hpet.counter now) ∧
      (∀ i ∈ is, (m'.hpet.timers i).bare = ((m.hpet.timers i).polled c).bare) ∧
      ∀ j, j ∉ is → (m'.hpet.timers j).bare = (m.hpet.timers j).bare := by
  induction is generalizing m with
  | nil => simp
  | cons i is ih =>
    rw [nodup_cons] at hnodup
    obtain ⟨hfires, hconfig, hcounter, hself, hother⟩ := poll1_spec m c i
    obtain ⟨hfires', hconfig', hcounter', hself', hother'⟩ := ih hnodup.2 (m.poll1 c i)
    have hne : ∀ j ∈ is, j ≠ i := fun j hj heq => hnodup.1 (heq ▸ hj)
    refine ⟨?_, hconfig'.trans hconfig, fun now => (hcounter' now).trans (hcounter now),
      fun j hj => ?_, fun j hj => ?_⟩
    · have hdue : is.filter (fun j => ((m.poll1 c i).hpet.timers j).due c) =
          is.filter fun j => (m.hpet.timers j).due c :=
        filter_congr fun j hj => Timer.due_congr (hother j (hne j hj))
      rw [foldl_cons, hfires', hfires, hdue, filter_cons, append_assoc]
      split <;> rfl
    · rcases List.mem_cons.1 hj with rfl | hj
      · rw [foldl_cons, hother' j hnodup.1, hself]
      · rw [foldl_cons, hself' j hj]
        exact Timer.bare_polled (hother j (hne j hj))
    · rw [mem_cons, not_or] at hj
      rw [foldl_cons, hother' j hj.2, hother j hj.1]

/-- The poll fires the timers that are due, and moves them on. -/
theorem timer_spec (m : Machine) (now : Rat) (h : has m.hpet.config enableCnf = true) :
    (m.timer now).fires = m.fires ++ (List.finRange timerCount).filter
        (fun i => (m.hpet.timers i).due (m.hpet.counter now)) ∧
      has (m.timer now).hpet.config enableCnf = true ∧
      (∀ now', (m.timer now).hpet.counter now' = m.hpet.counter now') ∧
      ∀ i, ((m.timer now).hpet.timers i).bare =
        ((m.hpet.timers i).polled (m.hpet.counter now)).bare := by
  rw [Machine.timer, if_pos h]
  obtain ⟨hfires, hconfig, hcounter, hself, -⟩ :=
    foldl_poll1_spec (nodup_finRange timerCount) m (m.hpet.counter now)
  exact ⟨hfires, hconfig.trans h, hcounter, fun i => hself i (mem_finRange i)⟩

/-! ## Arming -/

/-- What is known of a timer: its deadline is the first match from `since` on, where the counter
stands at `c`; unless that is still the match at `start`, where the timer was set to start, it is
within a period. -/
structure Timer.Tracks (t : Timer) (enabled : Bool) (c since start : Nat) : Prop where
  narrow : t.Narrow
  stopped : enabled = false → t.deadline = none
  since_le : enabled = true → since ≤ c + 1
  deadline : enabled = true → ∃ d, t.deadline = some d ∧ t.First since d ∧
    (t.periodic = true → d ≤ start ∨ d < since + value64 t.period)

/-- The deadline that `arm` sets. -/
def Timer.armed (t : Timer) (enabled : Bool) (c : Nat) : Timer :=
  { t with deadline := if enabled then some (t.nextMatch c) else none }

namespace Timer

variable {t' : Timer} {e : Bool} {start : Nat}

theorem first_bare : t.bare.First since d ↔ t.First since d :=
  ⟨fun h => ⟨h.le, h.eq, h.least⟩, fun h => ⟨h.le, h.eq, h.least⟩⟩

theorem matches_bare : t.bare.Matches since v ↔ t.Matches since v := by
  have hperiodic : t.bare.periodic = t.periodic := rfl
  have hperiod : t.bare.period = t.period := rfl
  have hcomparator : t.bare.comparator = t.comparator := rfl
  have hwidth : t.bare.width = t.width := rfl
  rw [Matches, Matches, hperiodic, hperiod, hcomparator, hwidth]
  simp only [first_bare]

theorem Tracks.congr (h : t.Tracks e c since start) (hbare : t'.bare = t.bare) :
    t'.Tracks e c since start := by
  have hdeadline : t'.bare.deadline = t.bare.deadline := by rw [hbare]
  have hperiodic : t'.bare.periodic = t.bare.periodic := by rw [hbare]
  have hperiod : t'.bare.period = t.bare.period := by rw [hbare]
  have hnarrow : t'.bare.Narrow ↔ t.bare.Narrow := by rw [hbare]
  have hdeadline : t'.deadline = t.deadline := hdeadline
  have hperiodic : t'.periodic = t.periodic := hperiodic
  have hperiod : t'.period = t.period := hperiod
  refine ⟨hnarrow.2 h.narrow, fun he => hdeadline.trans (h.stopped he), h.since_le, fun he => ?_⟩
  obtain ⟨d, hd, hfirst, hlt⟩ := h.deadline he
  refine ⟨d, hdeadline.trans hd, ?_, ?_⟩
  · rw [← first_bare, hbare, first_bare]
    exact hfirst
  · rw [hperiodic, hperiod]
    exact hlt

/-- The deadline of an armed timer is the first match from the counter on. -/
theorem Narrow.tracks_armed (h : t.Narrow) : (t.armed e c).Tracks e c c (t.startAt c) where
  narrow := h
  stopped := fun he => by
    rw [armed, he]
    rfl
  since_le := fun _ => Nat.le_succ c
  deadline := fun he => by
    have hfirst := h.first_nextMatch c
    refine ⟨t.nextMatch c, ?_, ⟨hfirst.le, hfirst.eq, hfirst.least⟩, fun _ => .inl ?_⟩
    · rw [armed, he]
      rfl
    · rw [hfirst.unique (t.first_startAt c)]

theorem narrow_writeConf (t : Timer) (value : BitVec 32) : (t.writeConf value).Narrow := by
  unfold writeConf
  dsimp only
  split
  · exact fun _ => ⟨rfl, rfl⟩
  case isFalse hmode => exact fun h => absurd h hmode

theorem Narrow.writeComparator (h : t.Narrow) {high : Bool} {value : BitVec 32}
    (hhigh : (high && has t.config tn32mode) = false) : (t.writeComparator high value).Narrow := by
  have hmode : has (t.writeComparator high value).config tn32mode = has t.config tn32mode := by
    unfold Timer.writeComparator
    dsimp only
    split
    · rw [show tn32mode = bit 32 8 from rfl, has_bit _ (by omega), has_bit _ (by omega),
        show tnValSet = bit 32 6 from rfl, getLsbD_clear_ne (by omega)]
    · rfl
  intro hnarrow
  rw [hmode] at hnarrow
  rw [hnarrow, Bool.and_true] at hhigh
  subst hhigh
  obtain ⟨hcomparator, hperiod⟩ := h hnarrow
  unfold Timer.writeComparator Halves.write
  dsimp only
  constructor
  · split
    · exact hcomparator
    · exact hcomparator
  · split
    · exact hperiod
    · exact hperiod

end Timer

theorem Timer.armed_bare (t : Timer) (e : Bool) (c : Nat) :
    t.bare.armed e c = (t.armed e c).bare := by
  have hnext : t.bare.nextMatch c = t.nextMatch c := by
    have hcomparator : t.bare.comparator = t.comparator := rfl
    have hwidth : t.bare.width = t.width := rfl
    rw [nextMatch, hwidth, hcomparator, nextMatch]
  rw [armed, hnext, armed]
  rfl

theorem counts_arm (h : Counts m m') (i : Fin timerCount) (c : Nat) :
    Counts (m.arm i c) (m'.arm i c) where
  config := h.config
  counter := h.counter
  bare := fun j => by
    have harm : ∀ u : Machine, u.arm i c = u.modify i (·.armed (has u.hpet.config enableCnf) c) :=
      fun _ => rfl
    rw [harm, harm, h.config]
    rcases eq_or_ne j i with rfl | hne
    · simp only [Machine.modify, Function.update_self]
      rw [← Timer.armed_bare, h.bare, Timer.armed_bare]
    · simp only [Machine.modify, Function.update_of_ne hne]
      exact h.bare j

theorem fires_updateLevel (m : Machine) (i : Fin timerCount) :
    (m.updateLevel i).fires = m.fires := fires_setLine m i _

theorem counts_updateLevel (m : Machine) (i : Fin timerCount) : Counts m (m.updateLevel i) :=
  counts_setLine m i _

theorem counts_updateLevels (is : List (Fin timerCount)) (m : Machine) :
    Counts m (is.foldl Machine.updateLevel m) ∧
      (is.foldl Machine.updateLevel m).fires = m.fires := by
  induction is generalizing m with
  | nil => exact ⟨.refl m, rfl⟩
  | cons i is ih =>
    obtain ⟨hcounts, hfires⟩ := ih (m.updateLevel i)
    exact ⟨(counts_updateLevel m i).trans hcounts, hfires.trans (fires_updateLevel m i)⟩

theorem counts_reroute (m : Machine) (old : BitVec 32) :
    Counts m (m.reroute old) ∧ (m.reroute old).fires = m.fires := by
  unfold Machine.reroute
  split
  · have hset := (counts_setLine m 0 false).trans (counts_setLine _ 1 false)
    have hfires : ((m.setLine 0 false).setLine 1 false).fires = m.fires := by
      rw [fires_setLine, fires_setLine]
    have hlower : Counts m { (m.setLine 0 false).setLine 1 false with
        lines := (((m.setLine 0 false).setLine 1 false).lines.setIrq 0 false).setIrq 8 false } :=
      ⟨hset.config, hset.counter, hset.bare⟩
    refine ⟨(hlower.trans (counts_updateLevel _ 0)).trans (counts_updateLevel _ 1), ?_⟩
    dsimp only
    rw [fires_updateLevel, fires_updateLevel, ← hfires]
  · exact ⟨.refl m, rfl⟩

/-- Arming some of the timers. -/
theorem foldl_arm (c : Nat) (is : List (Fin timerCount)) (m : Machine) :
    is.foldl (fun m i => m.arm i c) m =
      { m with hpet.timers := fun j =>
          if j ∈ is then (m.hpet.timers j).armed (has m.hpet.config enableCnf) c
          else m.hpet.timers j } := by
  induction is generalizing m with
  | nil => simp
  | cons i is ih =>
    have htimers : ∀ j, ((m.arm i c).hpet.timers j) =
        if j = i then (m.hpet.timers j).armed (has m.hpet.config enableCnf) c
        else m.hpet.timers j := by
      intro j
      rcases eq_or_ne j i with rfl | hne
      · simp [Machine.arm, Machine.modify, Timer.armed]
      · simp [Machine.arm, Machine.modify, hne]
    have hconfig : (m.arm i c).hpet.config = m.hpet.config := rfl
    rw [foldl_cons, ih, hconfig]
    have hall : (fun j => if j ∈ is
          then ((m.arm i c).hpet.timers j).armed (has m.hpet.config enableCnf) c
          else (m.arm i c).hpet.timers j) =
        fun j => if j ∈ i :: is then (m.hpet.timers j).armed (has m.hpet.config enableCnf) c
          else m.hpet.timers j := by
      funext j
      rw [htimers]
      simp only [mem_cons]
      rcases eq_or_ne j i with rfl | hne
      · simp only [if_true, true_or]
        split <;> rfl
      · simp only [hne, if_false, false_or]
    rw [hall]
    rfl

/-! ## Writes -/

namespace Machine

/-- The write computes the timer's deadline anew. -/
def rearms (m : Machine) (offset : Nat) (value : BitVec 32) (i : Fin timerCount) : Bool :=
  match Register.at offset with
  | .conf j => !isHigh offset && j = i
  | .comparator j => !(isHigh offset && has (m.hpet.timers j).config tn32mode) && j = i
  | .genConf =>
    !isHigh offset &&
      has (m.hpet.config ^^^ (value &&& (enableCnf ||| legRtCnf))) enableCnf
  | _ => false

end Machine

/-- What a write leaves, where it computes the deadlines of the timers `rearms` anew and the counter
stands at `c`. -/
structure Rewritten (m m' : Machine) (now : Rat) (rearms : Fin timerCount → Bool) : Prop where
  fires : m'.fires = m.fires
  enabled : has m'.hpet.config enableCnf = has m.hpet.config enableCnf ∨ ∀ i, rearms i = true
  counter : has m'.hpet.config enableCnf = true → m'.hpet.counter now = m.hpet.counter now
  kept : ∀ i, rearms i = false → (m'.hpet.timers i).bare = (m.hpet.timers i).bare
  armed : ∀ i, rearms i = true → ∃ t : Timer, ((m.hpet.timers i).Narrow → t.Narrow) ∧
    (m'.hpet.timers i).bare = (t.armed (has m'.hpet.config enableCnf) (m.hpet.counter now)).bare

theorem Rewritten.counts {m'' : Machine} {now : Rat} {rearms : Fin timerCount → Bool}
    (h : Rewritten m m' now rearms) (h' : Counts m' m'') (hfires : m''.fires = m'.fires) :
    Rewritten m m'' now rearms where
  fires := hfires.trans h.fires
  enabled := by
    rw [h'.config]
    exact h.enabled
  counter := fun he => by
    rw [h'.config] at he
    exact (h'.counter now).trans (h.counter he)
  kept := fun i hi => (h'.bare i).trans (h.kept i hi)
  armed := fun i hi => by
    rw [h'.bare, h'.config]
    exact h.armed i hi

/-- A write that has nothing to do with the counter. -/
theorem Counts.rewritten (h : Counts m m') (hfires : m'.fires = m.fires) (now : Rat) :
    Rewritten m m' now fun _ => false where
  fires := hfires
  enabled := .inl h.config
  counter := fun _ => h.counter now
  kept := fun i _ => h.bare i
  armed := nofun

/-- A write to a timer that is armed after it. -/
theorem rewritten_arm (m : Machine) (now : Rat) (i : Fin timerCount) {f : Timer → Timer}
    (hf : (m.hpet.timers i).Narrow → (f (m.hpet.timers i)).Narrow) :
    Rewritten m ((m.modify i f).arm i (m.hpet.counter now)) now fun j => i = j where
  fires := rfl
  enabled := .inl rfl
  counter := fun _ => rfl
  kept := fun j hj => by
    have hne : j ≠ i := fun h => of_decide_eq_false hj h.symm
    simp [Machine.arm, Machine.modify, hne]
  armed := fun j hj => by
    obtain rfl := of_decide_eq_true hj
    refine ⟨f (m.hpet.timers i), hf, ?_⟩
    simp [Machine.arm, Machine.modify, Timer.armed]

/-- Starting or stopping the counter arms all timers. -/
theorem rewritten_startStop (m : Machine) (now : Rat) (config : BitVec 32) :
    Rewritten m (({ m with hpet.config := config } : Machine).startStop m.hpet.config now
      (m.hpet.counter now)) now fun _ => has (m.hpet.config ^^^ config) enableCnf := by
  unfold Machine.startStop
  dsimp only
  split
  case isTrue htoggled =>
    rw [foldl_arm, htoggled]
    refine ⟨rfl, .inr fun _ => rfl, fun he => ?_, nofun, fun i _ => ⟨m.hpet.timers i, id, ?_⟩⟩
    · have hfloor : (Rat.floor 0 : Int) = 0 := rfl
      simp only at he
      simp [HPET.counter, he, hfloor]
    · simp [mem_finRange]
  case isFalse hsame =>
    have hbit : has config enableCnf = has m.hpet.config enableCnf := by
      have hhas : ∀ x, has x enableCnf = x.getLsbD 0 := fun x => has_bit x (k := 0) (by omega)
      rw [hhas, BitVec.getLsbD_xor, Bool.not_eq_true, bne_eq_false_iff_eq] at hsame
      rw [hhas, hhas, hsame]
    rw [Bool.not_eq_true] at hsame
    rw [hsame]
    have hcounts : Counts m { m with hpet.config := config } := by
      refine ⟨hbit, fun _ => ?_, fun _ => rfl⟩
      rw [HPET.counter, hbit, HPET.counter]
    exact hcounts.rewritten rfl now

/-- What a write leaves. -/
theorem rewritten_write32 (m : Machine) (now : Rat) (offset : Nat) (value : BitVec 32) :
    Rewritten m (m.write32 now offset value) now (m.rearms offset value) := by
  have hsame : Rewritten m m now fun _ => false := Counts.rewritten (.refl m) rfl now
  unfold Machine.write32 Machine.rearms
  dsimp only
  cases Register.at offset with
  | conf i =>
    cases isHigh offset with
    | true => exact hsame
    | false =>
      have h := rewritten_arm m now i (f := (·.writeConf value))
        fun _ => Timer.narrow_writeConf (m.hpet.timers i) value
      have hcounts := counts_arm (counts_updateLevel (m.modify i (·.writeConf value)) i) i
        (m.hpet.counter now)
      have h' := h.counts hcounts (fires_updateLevel _ _)
      simpa using h'
  | comparator i =>
    dsimp only
    cases hhigh : isHigh offset && has (m.hpet.timers i).config tn32mode with
    | true => simpa using hsame
    | false =>
      have h := rewritten_arm m now i (f := (·.writeComparator (isHigh offset) value))
        fun hnarrow => hnarrow.writeComparator hhigh
      simpa using h
  | fsbRoute i =>
    refine (counts_modify ?_).rewritten rfl now
    cases isHigh offset <;> rfl
  | genConf =>
    cases isHigh offset with
    | true => exact hsame
    | false =>
      have h := rewritten_startStop m now (value &&& (enableCnf ||| legRtCnf))
      obtain ⟨hcounts, hfires⟩ := counts_reroute (({ m with
        hpet.config := value &&& (enableCnf ||| legRtCnf) } : Machine).startStop m.hpet.config now
          (m.hpet.counter now)) m.hpet.config
      exact h.counts hcounts hfires
  | gintrSta =>
    cases isHigh offset with
    | true => exact hsame
    | false =>
      have hisr : Counts m { m with hpet.isr := m.hpet.isr &&& ~~~value } :=
        ⟨rfl, fun _ => rfl, fun _ => rfl⟩
      obtain ⟨hcounts, hfires⟩ := counts_updateLevels (List.finRange timerCount)
        { m with hpet.isr := m.hpet.isr &&& ~~~value }
      exact (hisr.trans hcounts).rewritten hfires now
  | mainCnt =>
    dsimp only
    split
    · exact hsame
    case isFalse hstopped =>
      exact ⟨rfl, .inl rfl, fun he => absurd he hstopped, fun _ _ => rfl, nofun⟩
  | gcapId => exact hsame
  | none => exact hsame

/-! ## Runs -/

/-- What a timer is watched with: the value from which on its matches are unserved, and the one that
it was set to start at when it was armed. -/
structure Watch where
  since : Nat
  start : Nat

/-- The machine at a time, with its timers watched. -/
structure Watched where
  machine : Machine
  clock : Rat
  watch : Fin timerCount → Watch

/-- Polls and register accesses, each at a time. -/
inductive Access where
  | timer (now : Rat)
  | write32 (now : Rat) (offset : Nat) (value : BitVec 32)
  | write8 (now : Rat) (addr : Nat) (value : BitVec 8)
  | read32 (now : Rat) (offset : Nat)

def Access.now : Access → Rat
  | .timer now => now
  | .write32 now _ _ => now
  | .write8 now _ _ => now
  | .read32 now _ => now

namespace Watched

/-- The timers of a new machine. -/
def new : Watched where
  machine :=
    { hpet :=
        { config := 0
          isr := 0
          counterBase := 0
          baseTime := 0
          timers := fun _ => ⟨0, ⟨0xFFFFFFFF, 0xFFFFFFFF⟩, ⟨0, 0⟩, 0, 0, none, none⟩ }
      lines := ⟨fun _ => false, fun _ _ => false, []⟩
      fires := [] }
  clock := 0
  watch := fun _ => ⟨0, 0⟩

/-- The counter counts. -/
def enabled (s : Watched) : Bool := has s.machine.hpet.config enableCnf

/-- An armed timer is watched from where the counter stands. -/
def write (s : Watched) (now : Rat) (offset : Nat) (value : BitVec 32) : Watched where
  machine := s.machine.write32 now offset value
  clock := now
  watch := fun i =>
    if s.machine.rearms offset value i then
      let c := s.machine.hpet.counter now
      ⟨c, ((s.machine.write32 now offset value).hpet.timers i).startAt c⟩
    else s.watch i

/-- A poll serves the matches up to where the counter stands. -/
def poll (s : Watched) (now : Rat) : Watched where
  machine := s.machine.timer now
  clock := now
  watch := fun i =>
    if s.enabled then { s.watch i with since := s.machine.hpet.counter now + 1 } else s.watch i

def step (s : Watched) : Access → Watched
  | .timer now => s.poll now
  | .write32 now offset value => s.write now offset value
  | .write8 now addr value =>
    s.write now (addr - addr % 4) (s.machine.hpet.merge8 now addr value)
  | .read32 now _ => { s with clock := now }

/-- `v` is a match of timer `i` that the counter has passed, with no poll since. -/
def Passed (s : Watched) (i : Fin timerCount) (now : Rat) (v : Nat) : Prop :=
  s.enabled = true ∧ (s.machine.hpet.timers i).Matches (s.watch i).since v ∧
    v ≤ s.machine.hpet.counter now

/-- A poll fires the timer exactly if the counter has passed a match of it, and leaves its deadline
past the counter, in phase with its comparator, and for a periodic timer at most a period ahead. -/
def Polls (s : Watched) (i : Fin timerCount) (now : Rat) : Prop :=
  let t := (s.poll now).machine.hpet.timers i
  (∃ fires, (s.poll now).machine.fires = s.machine.fires ++ fires ∧
    (i ∈ fires ↔ ∃ v, s.Passed i now v)) ∧
  ∃ d, t.deadline = some d ∧ s.machine.hpet.counter now < d ∧
    d ≡ value64 t.comparator [MOD t.width] ∧
    (t.periodic = true → d ≤ s.machine.hpet.counter now + value64 t.period)

/-- The poll of a counter that counts serves the matches passed, and other accesses lose none of a
timer whose comparator they leave. -/
def Serves (s : Watched) (i : Fin timerCount) : Access → Prop
  | .timer now => s.enabled = true → s.Polls i now
  | a => ((s.step a).machine.hpet.timers i).comparator = (s.machine.hpet.timers i).comparator →
    ∀ v, s.Passed i a.now v → (s.step a).Passed i a.now v

/-- A write that arms the timer anew changes its comparator, or comes when no match is unserved. -/
def Spares (s : Watched) (i : Fin timerCount) (now : Rat) (offset : Nat) (value : BitVec 32) :
    Prop :=
  s.machine.rearms offset value i = true →
    ((s.machine.write32 now offset value).hpet.timers i).comparator =
      (s.machine.hpet.timers i).comparator →
    ¬ ∃ v, s.Passed i now v

/-- A poll comes before the counter is around once more from an unserved match of a one-shot timer,
and at most a period before a periodic timer starts. -/
def Timely (s : Watched) (i : Fin timerCount) (now : Rat) : Prop :=
  let t := s.machine.hpet.timers i
  if t.periodic = true then
    (s.watch i).start ≤ s.machine.hpet.counter now + value64 t.period
  else ∀ v, s.Passed i now v → s.machine.hpet.counter now < v + t.width

/-- Time does not go back, writes spare unserved matches of the timer, and polls are timely. -/
def Calm (s : Watched) (i : Fin timerCount) (a : Access) : Prop :=
  s.clock ≤ a.now ∧
    match a with
    | .timer now => s.enabled = true → s.Timely i now
    | .write32 now offset value => s.Spares i now offset value
    | .write8 now addr value =>
      s.Spares i now (addr - addr % 4) (s.machine.hpet.merge8 now addr value)
    | .read32 _ _ => True

/-- The timer tracks its comparator. -/
def Inv (s : Watched) (i : Fin timerCount) : Prop :=
  (s.machine.hpet.timers i).Tracks s.enabled (s.machine.hpet.counter s.clock) (s.watch i).since
    (s.watch i).start

end Watched

theorem HPET.counter_mono (h : HPET) {now now' : Rat} (hle : now ≤ now') :
    h.counter now ≤ h.counter now' := by
  unfold counter
  split
  · have hticks : (now - h.baseTime) * ticksPerMs ≤ (now' - h.baseTime) * ticksPerMs :=
      mul_le_mul_of_nonneg_right (sub_le_sub_right hle _) (by decide +kernel)
    exact Nat.add_le_add_left (Int.toNat_le_toNat (Rat.floor_monotone hticks)) _
  · exact Nat.le_refl _

namespace Timer

/-- A timer is due exactly if the counter has passed a match. -/
theorem Tracks.due_iff {c₀ start : Nat} (h : t.Tracks true c₀ since start) :
    t.due c = true ↔ ∃ v, t.Matches since v ∧ v ≤ c := by
  obtain ⟨d, hd, hfirst, -⟩ := h.deadline rfl
  rw [hfirst.exists_matches, due, hd]
  exact decide_eq_true_iff

/-- A poll moves the deadline past the counter. -/
theorem Tracks.polled {c₀ start : Nat} (h : t.Tracks true c₀ since start) (hc : c₀ ≤ c)
    (hround : t.periodic = false → ∀ v, t.Matches since v → v ≤ c → c < v + t.width) :
    (t.polled c).Tracks true c (c + 1) start := by
  obtain ⟨d, hd, hfirst, hlt⟩ := h.deadline rfl
  have hsince := h.since_le rfl
  rw [Timer.polled, hd]
  dsimp only
  split
  case isTrue hdue =>
    refine ⟨h.narrow.advance, nofun, fun _ => Nat.le_refl _, fun _ => ?_⟩
    cases hperiodic : t.periodic with
    | true =>
      obtain ⟨d', hd', hfirst', hle⟩ := h.narrow.advance_periodic hperiodic hfirst hdue
      refine ⟨d', hd', hfirst', fun _ => .inr ?_⟩
      rw [period_advance]
      omega
    | false =>
      have hfirst_matches : t.Matches since d := by
        rw [Matches, hperiodic]
        exact ⟨hfirst.le, hfirst.eq⟩
      obtain ⟨hd', hfirst'⟩ := advance_oneShot hperiodic hfirst hdue
        (hround hperiodic d hfirst_matches hdue)
      refine ⟨_, hd', hfirst', fun hperiodic' => ?_⟩
      rw [periodic_advance, hperiodic] at hperiodic'
      exact absurd hperiodic' nofun
  case isFalse hdue =>
    refine ⟨h.narrow, nofun, fun _ => Nat.le_refl _, fun _ => ⟨d, hd, ?_, fun hperiodic => ?_⟩⟩
    · exact hfirst.later (by omega) (by omega)
    · exact (hlt hperiodic).imp_right fun hlt => by omega

end Timer

namespace Watched

variable {s : Watched} {now : Rat}

theorem Inv.since_le (h : s.Inv i) (hclock : s.clock ≤ now) (he : s.enabled = true) :
    (s.watch i).since ≤ s.machine.hpet.counter now + 1 :=
  (Timer.Tracks.since_le h he).trans (Nat.succ_le_succ (s.machine.hpet.counter_mono hclock))

/-- A write that does not arm the timer. -/
theorem write_other (now : Rat) {offset : Nat} {value : BitVec 32}
    (hi : s.machine.rearms offset value i = false) :
    (s.write now offset value).watch i = s.watch i ∧
      (s.write now offset value).enabled = s.enabled := by
  refine ⟨if_neg (by rw [hi]; nofun), ?_⟩
  rcases (rewritten_write32 s.machine now offset value).enabled with he | hall
  · exact he
  · exact absurd (hi.symm.trans (hall i)) nofun

/-- A write keeps the timer tracking. -/
theorem Inv.write (h : s.Inv i) (hclock : s.clock ≤ now) (offset : Nat) (value : BitVec 32) :
    (s.write now offset value).Inv i := by
  have hw := rewritten_write32 s.machine now offset value
  unfold Inv
  cases hi : s.machine.rearms offset value i with
  | true =>
    have hwatch : (s.write now offset value).watch i = ⟨s.machine.hpet.counter now,
        ((s.write now offset value).machine.hpet.timers i).startAt (s.machine.hpet.counter now)⟩ :=
      if_pos hi
    obtain ⟨t, hnarrow, hbare⟩ := hw.armed i hi
    have htracks := ((hnarrow (Timer.Tracks.narrow h)).tracks_armed
      (e := (s.write now offset value).enabled) (c := s.machine.hpet.counter now)).congr hbare
    have hstart : ((s.write now offset value).machine.hpet.timers i).startAt
        (s.machine.hpet.counter now) = t.startAt (s.machine.hpet.counter now) := by
      have hsame := congrArg (Timer.startAt · (s.machine.hpet.counter now)) hbare
      exact hsame
    rw [hwatch, hstart]
    refine ⟨htracks.narrow, htracks.stopped, fun he => ?_, htracks.deadline⟩
    have hcounter := hw.counter he
    rw [show (s.write now offset value).clock = now from rfl]
    exact Nat.le_succ_of_le hcounter.ge
  | false =>
    obtain ⟨hwatch, henabled⟩ := write_other now hi
    have htracks := Timer.Tracks.congr h (hw.kept i hi)
    rw [hwatch, henabled]
    refine ⟨htracks.narrow, htracks.stopped, fun he => ?_, htracks.deadline⟩
    have hcounter := hw.counter (henabled.trans he)
    exact (h.since_le hclock he).trans (Nat.succ_le_succ hcounter.ge)

/-- A write that spares unserved matches loses none. -/
theorem Spares.passed {offset : Nat} {value : BitVec 32} (h : s.Spares i now offset value)
    (hcomparator : ((s.write now offset value).machine.hpet.timers i).comparator =
      (s.machine.hpet.timers i).comparator) (v : Nat) (hv : s.Passed i now v) :
    (s.write now offset value).Passed i now v := by
  cases hi : s.machine.rearms offset value i with
  | true => exact absurd ⟨v, hv⟩ (h hi hcomparator)
  | false =>
    have hw := rewritten_write32 s.machine now offset value
    obtain ⟨hwatch, henabled⟩ := write_other now hi
    have hbare : ((s.write now offset value).machine.hpet.timers i).bare =
        (s.machine.hpet.timers i).bare := hw.kept i hi
    obtain ⟨he, hmatches, hle⟩ := hv
    refine ⟨henabled.trans he, ?_, ?_⟩
    · rw [hwatch, ← Timer.matches_bare, hbare, Timer.matches_bare]
      exact hmatches
    · exact hle.trans (hw.counter (henabled.trans he)).ge

/-- What the timer is after a poll. -/
theorem Inv.poll_tracks (h : s.Inv i) (hclock : s.clock ≤ now) (he : s.enabled = true)
    (htimely : s.Timely i now) :
    ((s.poll now).machine.hpet.timers i).Tracks true (s.machine.hpet.counter now)
      (s.machine.hpet.counter now + 1) (s.watch i).start := by
  obtain ⟨-, -, -, hbare⟩ := timer_spec s.machine now he
  unfold Inv at h
  rw [he] at h
  refine (h.polled (s.machine.hpet.counter_mono hclock) fun hperiodic v hmatches hle => ?_).congr
    (hbare i)
  rw [Timely, hperiodic, if_neg Bool.false_ne_true] at htimely
  exact htimely v ⟨he, hmatches, hle⟩

/-- A timer is as periodic after a poll as before it. -/
theorem poll_periodic (now : Rat) (he : s.enabled = true) (i : Fin timerCount) :
    ((s.poll now).machine.hpet.timers i).periodic = (s.machine.hpet.timers i).periodic ∧
      ((s.poll now).machine.hpet.timers i).period = (s.machine.hpet.timers i).period := by
  obtain ⟨-, -, -, hbare⟩ := timer_spec s.machine now he
  have hpolled : ((s.machine.hpet.timers i).polled (s.machine.hpet.counter now)).periodic =
        (s.machine.hpet.timers i).periodic ∧
      ((s.machine.hpet.timers i).polled (s.machine.hpet.counter now)).period =
        (s.machine.hpet.timers i).period := by
    unfold Timer.polled
    split
    · exact ⟨rfl, rfl⟩
    · split
      · exact ⟨Timer.periodic_advance .., Timer.period_advance ..⟩
      · exact ⟨rfl, rfl⟩
  exact ⟨(congrArg Timer.periodic (hbare i)).trans hpolled.1,
    (congrArg Timer.period (hbare i)).trans hpolled.2⟩

/-- A timely poll serves the matches passed. -/
theorem Inv.polls (h : s.Inv i) (hclock : s.clock ≤ now) (he : s.enabled = true)
    (htimely : s.Timely i now) : s.Polls i now := by
  obtain ⟨hperiodic, hperiod⟩ := poll_periodic now he i
  obtain ⟨d, hd, hfirst, hlt⟩ := (h.poll_tracks hclock he htimely).deadline rfl
  refine ⟨⟨_, (timer_spec s.machine now he).1, ?_⟩, d, hd, hfirst.le, hfirst.eq, fun hp => ?_⟩
  · unfold Inv at h
    rw [he] at h
    rw [mem_filter, h.due_iff]
    constructor
    · rintro ⟨-, v, hmatches, hle⟩
      exact ⟨v, he, hmatches, hle⟩
    · rintro ⟨v, -, hmatches, hle⟩
      exact ⟨mem_finRange i, v, hmatches, hle⟩
  · rw [Timely, ← hperiodic, if_pos hp, ← hperiod] at htimely
    have := hlt hp
    omega

theorem Inv.poll (h : s.Inv i) (hclock : s.clock ≤ now)
    (htimely : s.enabled = true → s.Timely i now) : (s.poll now).Inv i := by
  cases he : s.enabled with
  | true =>
    obtain ⟨-, henabled, hcounter, -⟩ := timer_spec s.machine now he
    have hwatch : (s.poll now).watch i =
        { s.watch i with since := s.machine.hpet.counter now + 1 } := if_pos he
    have henabled : (s.poll now).enabled = true := henabled
    have hstands : (s.poll now).machine.hpet.counter (s.poll now).clock =
        s.machine.hpet.counter now := hcounter now
    rw [Inv, henabled, hstands, hwatch]
    exact h.poll_tracks hclock he (htimely he)
  | false =>
    have hsame : s.machine.timer now = s.machine := if_neg (by rw [enabled] at he; rw [he]; nofun)
    have hpoll : s.poll now = { s with clock := now } := by
      simp only [Watched.poll, hsame, he]
      rfl
    rw [hpoll, Inv, show ({ s with clock := now } : Watched).enabled = false from he]
    exact ⟨Timer.Tracks.narrow h, fun _ => Timer.Tracks.stopped h he, nofun, nofun⟩

/-- Time passes. -/
theorem Inv.tick (h : s.Inv i) (hclock : s.clock ≤ now) :
    ({ s with clock := now } : Watched).Inv i :=
  ⟨Timer.Tracks.narrow h, Timer.Tracks.stopped h, h.since_le hclock, Timer.Tracks.deadline h⟩

theorem inv_new (i : Fin timerCount) : Watched.new.Inv i :=
  have hstopped : Watched.new.enabled = false := rfl
  have hwide : has 0 tn32mode = false := rfl
  ⟨fun hmode => absurd (hwide.symm.trans hmode) nofun, fun _ => rfl,
    fun he => absurd (hstopped.symm.trans he) nofun, fun he => absurd (hstopped.symm.trans he) nofun⟩

/-- A calm access serves, and keeps the timer tracking. -/
theorem Inv.step (h : s.Inv i) {a : Access} (hcalm : s.Calm i a) :
    (s.step a).Inv i ∧ s.Serves i a := by
  cases a with
  | timer now => exact ⟨h.poll hcalm.1 hcalm.2, fun he => h.polls hcalm.1 he (hcalm.2 he)⟩
  | write32 now offset value => exact ⟨h.write hcalm.1 offset value, hcalm.2.passed⟩
  | write8 now addr value => exact ⟨h.write hcalm.1 _ _, hcalm.2.passed⟩
  | read32 now offset => exact ⟨h.tick hcalm.1, fun _ _ hv => hv⟩

end Watched

end V86.Hpet
