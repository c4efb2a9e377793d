import V86.Hpet.Device
import V86.Lib.Runs

/-!
# Level interrupts follow the registers

`Wired` relates the inputs of the interrupt controllers to the lines that the timers keep, and
`level` is the line that the registers ask for. Each operation is described by the lines that it
leaves; one of them, a write to a timer's configuration, may leave a line asserted that the
registers no longer ask for.
-/

namespace V86.Hpet

open Bits Function

variable {m m' : Machine} {l : Lines} {f : Fin timerCount → Option Line} {i j : Fin timerCount}

theorem timer_cases (i : Fin timerCount) : i = 0 ∨ i = 1 ∨ i = 2 := by
  have hi : i.val < 3 := i.isLt
  have h0 : i.val = 0 → i = 0 := fun h => Fin.ext h
  have h1 : i.val = 1 → i = 1 := fun h => Fin.ext h
  have h2 : i.val = 2 → i = 2 := fun h => Fin.ext h
  omega

/-- `timer.line`. -/
def Machine.line (m : Machine) (i : Fin timerCount) : Option Line := (m.hpet.timers i).line

/-- The line that the registers ask for. -/
def HPET.level (h : HPET) (i : Fin timerCount) : Option Line :=
  if h.active i then h.route i else none

/-- Timer `i` interrupts on input `n` by the legacy replacement route. -/
def Owns (i : Fin timerCount) (n : Nat) : Prop := i.val < 2 ∧ n = if i.val = 0 then 0 else 8

variable {n : Nat} {h h' : HPET} {x : Option Line} {s : Session} {op : Op}

theorem Owns.unique (hi : Owns i n) (hj : Owns j n) : i = j := by
  obtain ⟨hi2, hin⟩ := hi
  obtain ⟨hj2, hjn⟩ := hj
  apply Fin.ext
  split at hin <;> split at hjn <;> omega

/-- The inputs are driven for these lines and for no others. -/
structure Wired (l : Lines) (f : Fin timerCount → Option Line) : Prop where
  raised : ∀ n, l.raised n = true ↔ ∃ i, f i = some (.irq n)
  sources : ∀ g (i : Fin timerCount), l.sources g (hpetSource + i) = true ↔ f i = some (.gsi g)
  owned : ∀ i n, f i = some (.irq n) → Owns i n

/-- The lines are those that the registers ask for. -/
structure Inv (m : Machine) : Prop where
  wired : Wired m.lines m.line
  line : ∀ i, m.line i = m.hpet.level i

/-- A timer's line is its route, exactly while its status bit is set and it is enabled, level
triggered, not in FSB mode and has that route; the interrupt controllers have its assertion there
and nowhere else. -/
structure Follows (m : Machine) : Prop where
  line : ∀ i line, (m.hpet.timers i).line = some line ↔
    m.hpet.isr.getLsbD i = true ∧ has (m.hpet.timers i).config tnIntEnb = true ∧
      has (m.hpet.timers i).config tnIntTypeLevel = true ∧ (m.hpet.timers i).fsb = false ∧
        m.hpet.route i = some line
  raised : ∀ n, m.lines.raised n = true ↔ ∃ i, (m.hpet.timers i).line = some (.irq n)
  sources : ∀ g (i : Fin timerCount),
    m.lines.sources g (hpetSource + i) = true ↔ (m.hpet.timers i).line = some (.gsi g)

/-- When the registers ask for a line. -/
theorem HPET.level_eq_some {line : Line} : h.level i = some line ↔
      h.isr.getLsbD i = true ∧ has (h.timers i).config tnIntEnb = true ∧
        has (h.timers i).config tnIntTypeLevel = true ∧ (h.timers i).fsb = false ∧
          h.route i = some line := by
  have hboth : (h.timers i).config &&& (tnIntEnb ||| tnIntTypeLevel) = tnIntEnb ||| tnIntTypeLevel ↔
      has (h.timers i).config tnIntEnb = true ∧ has (h.timers i).config tnIntTypeLevel = true := by
    rw [and_or_eq_or]
    exact and_congr (has_iff_and_eq (k := 2) (by omega)).symm
      (has_iff_and_eq (k := 1) (by omega)).symm
  unfold level active
  simp only [Bool.and_eq_true, Bool.not_eq_true', decide_eq_true_eq, hboth]
  split
  case isTrue h => simp [h]
  case isFalse hnot =>
    refine iff_of_false nofun fun h => hnot ?_
    exact ⟨⟨h.1, h.2.1, h.2.2.1⟩, h.2.2.2.1⟩

/-! ## The inputs -/

/-- Driving the input of a timer that has no other line. -/
theorem Wired.drive (h : Wired l f) (line : Line) (hline : ∀ x, f i = some x → x = line)
    (hown : ∀ n, line = .irq n → Owns i n) (level : Bool) :
    Wired (l.drive i line level) (Function.update f i (if level then some line else none)) where
  raised := by
    intro n
    have hother : (∀ k, line = .irq k → n ≠ k) →
        (l.raised n = true ↔
          ∃ j, Function.update f i (if level then some line else none) j = some (.irq n)) := by
      intro hne
      rw [h.raised]
      refine exists_congr fun j => ?_
      rcases eq_or_ne j i with rfl | hji
      · rw [update_self]
        refine iff_of_false (fun hj => hne n (hline _ hj).symm rfl) ?_
        cases level with
        | false => nofun
        | true => exact fun hj => hne n (Option.some.inj hj) rfl
      · rw [update_of_ne hji]
    cases line with
    | irq k =>
      rcases eq_or_ne n k with rfl | hne
      · simp only [Lines.drive, Lines.setIrq, update_self]
        cases level with
        | true => exact iff_of_true rfl ⟨i, by simp⟩
        | false =>
          refine iff_of_false nofun ?_
          rintro ⟨j, hj⟩
          rcases eq_or_ne j i with rfl | hji
          · simp at hj
          · rw [update_of_ne hji] at hj
            exact hji ((h.owned j n hj).unique (hown n rfl))
      · simp only [Lines.drive, Lines.setIrq, update_of_ne hne]
        exact hother fun k' hk' => by rwa [← Line.irq.inj hk']
    | gsi k => exact hother nofun
  sources := by
    intro g j
    have hother : (∀ k, line = .gsi k → g = k → j ≠ i) →
        (l.sources g (hpetSource + j) = true ↔
          Function.update f i (if level then some line else none) j = some (.gsi g)) := by
      intro hne
      rw [h.sources]
      rcases eq_or_ne j i with rfl | hji
      · rw [update_self]
        refine iff_of_false (fun hj => hne g (hline _ hj).symm rfl rfl) ?_
        cases level with
        | false => nofun
        | true => exact fun hj => hne g (Option.some.inj hj) rfl rfl
      · rw [update_of_ne hji]
    cases line with
    | irq k => exact hother nofun
    | gsi k =>
      simp only [Lines.drive, Lines.setSharedGsiLevel]
      rcases eq_or_ne g k with rfl | hgk
      · rw [update_self]
        rcases eq_or_ne j i with rfl | hji
        · rw [update_self, update_self]
          cases level <;> simp
        · have hsource : hpetSource + j.val ≠ hpetSource + i.val := by
            have := Fin.val_ne_of_ne hji
            omega
          rw [update_of_ne hsource]
          exact hother fun _ _ _ => hji
      · rw [update_of_ne hgk]
        exact hother fun k' hk' hg => absurd (hg.trans (Line.gsi.inj hk').symm) hgk
  owned := by
    intro j n hj
    rcases eq_or_ne j i with rfl | hji
    · rw [update_self] at hj
      cases level with
      | false => cases hj
      | true => exact hown n (Option.some.inj hj)
    · rw [update_of_ne hji] at hj
      exact h.owned j n hj

/-- A route that is not an input of the I/O APIC is one of the legacy inputs. -/
theorem HPET.route_owned (hroute : h.route i = some (.irq n)) : Owns i n := by
  unfold route at hroute
  split at hroute
  · cases hroute
  split at hroute
  case isTrue hlegacy =>
    cases hroute
    simp only [Bool.and_eq_true, decide_eq_true_eq] at hlegacy
    exact ⟨hlegacy.2, rfl⟩
  case isFalse =>
    dsimp only at hroute
    split at hroute <;> cases hroute

theorem follows_iff : Follows m ↔ Inv m := by
  constructor
  · intro h
    have hline : ∀ i, m.line i = m.hpet.level i := by
      intro i
      apply Option.ext
      intro line
      rw [HPET.level_eq_some]
      exact h.line i line
    refine ⟨⟨h.raised, h.sources, fun i n hi => ?_⟩, hline⟩
    rw [hline, HPET.level_eq_some] at hi
    exact HPET.route_owned hi.2.2.2.2
  · intro h
    refine ⟨fun i line => ?_, h.wired.raised, h.wired.sources⟩
    rw [← HPET.level_eq_some, ← h.line]
    rfl

/-! ## Driving a line -/

/-- The timers with other lines. -/
def HPET.withLines (h : HPET) (f : Fin timerCount → Option Line) : HPET :=
  { h with timers := fun i => { h.timers i with line := f i } }

@[simp] theorem HPET.level_withLines (h : HPET) (f : Fin timerCount → Option Line) :
    (h.withLines f).level i = h.level i := rfl

/-- `m'` is `m` with `x` as the line of timer `i`, and the inputs to match. -/
structure Sets (m m' : Machine) (i : Fin timerCount) (x : Option Line) : Prop where
  hpet : m'.hpet = m.hpet.withLines (Function.update m.line i x)
  wired : Wired m'.lines (Function.update m.line i x)

theorem Sets.line (h : Sets m m' i x) : m'.line = Function.update m.line i x := by
  funext k
  rw [Machine.line, h.hpet]
  rfl

theorem Sets.wired' (h : Sets m m' i x) : Wired m'.lines m'.line := by
  rw [h.line]
  exact h.wired

theorem sets_self (h : Wired m.lines m.line) : Sets m m i (m.line i) where
  hpet := by
    rw [update_eq_self]
    rfl
  wired := by
    rw [update_eq_self]
    exact h

theorem modify_line (x : Option Line) :
    (m.modify i fun t => { t with line := x }).hpet =
      m.hpet.withLines (Function.update m.line i x) := by
  simp only [Machine.modify, HPET.withLines]
  congr 1
  funext k
  rcases eq_or_ne k i with rfl | hne
  · simp
  · simp [hne, Machine.line]

theorem sets_release (h : Wired m.lines m.line) : Sets m (m.release i) i none := by
  unfold Machine.release
  split
  case h_1 hline =>
    have hself := sets_self (i := i) h
    rw [show m.line i = none from hline] at hself
    exact hself
  case h_2 line hline =>
    have hwired := h.drive (i := i) line
      (fun x hx => Option.some.inj (hx.symm.trans hline))
      (fun n hn => h.owned i n (hn ▸ hline)) false
    exact ⟨modify_line none, hwired⟩

/-- `set_line` asserts the route if there is one, and leaves the line alone if there is none. -/
theorem sets_setLine (h : Wired m.lines m.line) (level : Bool) :
    Sets m (m.setLine i level) i (if level then (m.hpet.route i).or (m.line i) else none) := by
  unfold Machine.setLine
  cases level with
  | false => exact sets_release h
  | true =>
    simp only [if_true]
    split
    case isTrue hfsb =>
      -- a message
      have hroute : m.hpet.route i = none := by
        rw [HPET.route, if_pos hfsb]
      rw [hroute, Option.none_or]
      have hself := sets_self (i := i) h
      exact ⟨hself.hpet, ⟨hself.wired.raised, hself.wired.sources, hself.wired.owned⟩⟩
    case isFalse =>
      split
      case h_1 hroute =>
        rw [hroute, Option.none_or]
        exact sets_self h
      case h_2 line hroute =>
        rw [hroute, Option.some_or]
        split
        case isTrue hline =>
          have hself := sets_self (i := i) h
          rw [show m.line i = some line from hline] at hself
          exact hself
        case isFalse =>
          have hrelease := sets_release (i := i) h
          have hwired := hrelease.wired.drive (i := i) line (by simp)
            (fun n hn => HPET.route_owned (hn ▸ hroute)) true
          rw [update_idem] at hwired
          refine ⟨?_, hwired⟩
          have hhpet := modify_line (m := m.release i) (i := i) (some line)
          rw [hrelease.line, hrelease.hpet, update_idem] at hhpet
          exact hhpet

/-! ## Operations that do not change what is asked for -/

/-- The lines, and what the registers ask for, are as they were. -/
structure Quiet (m m' : Machine) : Prop where
  lines : m'.lines = m.lines
  line : m'.line = m.line
  level : ∀ i, m'.hpet.level i = m.hpet.level i

theorem Quiet.inv_iff (h : Quiet m m') : Inv m' ↔ Inv m := by
  constructor
  · rintro ⟨hwired, hline⟩
    rw [h.lines, h.line] at hwired
    refine ⟨hwired, fun i => ?_⟩
    rw [← h.level, ← hline, h.line]
  · rintro ⟨hwired, hline⟩
    refine ⟨by rw [h.lines, h.line]; exact hwired, fun i => ?_⟩
    rw [h.level, ← hline, h.line]

theorem Quiet.refl (m : Machine) : Quiet m m := ⟨rfl, rfl, fun _ => rfl⟩

theorem Quiet.trans {m'' : Machine} (h : Quiet m m') (h' : Quiet m' m'') : Quiet m m'' :=
  ⟨h'.lines.trans h.lines, h'.line.trans h.line, fun i => (h'.level i).trans (h.level i)⟩

/-- What is asked for depends on the status, the legacy replacement route and the timer's
configuration. -/
theorem level_congr (hisr : h'.isr.getLsbD i = h.isr.getLsbD i)
    (hleg : has h'.config legRtCnf = has h.config legRtCnf)
    (hconfig : (h'.timers i).config = (h.timers i).config) : h'.level i = h.level i := by
  unfold HPET.level HPET.active HPET.route Timer.fsb
  rw [hisr, hleg, hconfig]

/-- It does not depend on `TN_VAL_SET`. -/
theorem level_clear_valSet (hisr : h'.isr = h.isr) (hhpet : h'.config = h.config)
    (hconfig : (h'.timers i).config = (h.timers i).config &&& ~~~tnValSet) :
    h'.level i = h.level i := by
  have hand : ∀ config mask : BitVec 32, ~~~tnValSet &&& mask = mask →
      config &&& ~~~tnValSet &&& mask = config &&& mask := by
    intro config mask hmask
    rw [BitVec.and_assoc, hmask]
  have hshift : ∀ config : BitVec 32,
      (config &&& ~~~tnValSet) >>> tnIntRouteShift &&& 0x1F = config >>> tnIntRouteShift &&& 0x1F := by
    intro config
    rw [BitVec.ushiftRight_and_distrib, BitVec.and_assoc]
    rfl
  unfold HPET.level HPET.active HPET.route Timer.fsb has
  rw [hisr, hhpet, hconfig, hand _ _ (by decide), hand _ _ (by decide), hshift]

/-- A change of a timer that keeps its configuration and line. -/
theorem quiet_modify {f : Timer → Timer}
    (hconfig : (f (m.hpet.timers i)).config = (m.hpet.timers i).config)
    (hline : (f (m.hpet.timers i)).line = (m.hpet.timers i).line) : Quiet m (m.modify i f) where
  lines := rfl
  line := by
    funext k
    rcases eq_or_ne k i with rfl | hne
    · simp [Machine.line, Machine.modify, hline]
    · simp [Machine.line, Machine.modify, hne]
  level := by
    intro k
    refine level_congr rfl rfl ?_
    rcases eq_or_ne k i with rfl | hne
    · simp [Machine.modify, hconfig]
    · simp [Machine.modify, hne]

theorem quiet_arm (m : Machine) (i : Fin timerCount) (counter : Nat) : Quiet m (m.arm i counter) :=
  quiet_modify rfl rfl

/-! ## Following a change -/

/-- The route of an asserted line is not one that the timer does not have. -/
def Fixable (m : Machine) (i : Fin timerCount) : Prop :=
  m.hpet.active i = true → m.hpet.route i = none → m.line i = none

theorem sets_updateLevel (h : Wired m.lines m.line) (i : Fin timerCount) :
    Sets m (m.updateLevel i) i (if m.hpet.active i then (m.hpet.route i).or (m.line i) else none) :=
  sets_setLine h _

theorem Sets.level (h : Sets m m' i x) (j : Fin timerCount) : m'.hpet.level j = m.hpet.level j := by
  rw [h.hpet, HPET.level_withLines]

theorem Sets.fixable (h : Sets m m' i x) (hne : j ≠ i) : Fixable m' j ↔ Fixable m j := by
  unfold Fixable
  rw [h.line, update_of_ne hne, h.hpet]
  rfl

/-- `update_level` makes the line follow, unless its route is lost. -/
theorem line_updateLevel_iff (h : Wired m.lines m.line) :
    (m.updateLevel i).line i = (m.updateLevel i).hpet.level i ↔ Fixable m i := by
  have hsets := sets_updateLevel h i
  rw [hsets.line, update_self, hsets.level, HPET.level, Fixable]
  cases m.hpet.active i with
  | false => simp
  | true =>
    cases m.hpet.route i with
    | none => simp
    | some line => simp

/-- The levels of some timers brought up to date, those of the others being so. -/
theorem inv_updateLevels (is : List (Fin timerCount)) (h : Wired m.lines m.line)
    (hline : ∀ j, j ∉ is → m.line j = m.hpet.level j) (hfix : ∀ j ∈ is, Fixable m j) :
    Inv (is.foldl Machine.updateLevel m) := by
  induction is generalizing m with
  | nil => exact ⟨h, fun j => hline j nofun⟩
  | cons i is ih =>
    have hsets := sets_updateLevel h i
    have hself := (line_updateLevel_iff h).2 (hfix i List.mem_cons_self)
    refine ih hsets.wired' (fun j hj => ?_) fun j hj => ?_
    · rcases eq_or_ne j i with rfl | hne
      · exact hself
      · rw [hsets.line, update_of_ne hne, hsets.level]
        exact hline j fun hmem => (List.mem_cons.1 hmem).elim hne hj
    · rcases eq_or_ne j i with rfl | hne
      · intro hactive hroute
        rw [hself, HPET.level, if_pos hactive, hroute]
      · exact (hsets.fixable hne).2 (hfix j (List.mem_cons_of_mem _ hj))

/-- A line that follows is fixable while the registers that count stay as they are. -/
theorem Inv.fixable (h : Inv m) (hlines : m'.line = m.line)
    (hactive : m'.hpet.active i = true → m.hpet.active i = true)
    (hroute : m'.hpet.route i = m.hpet.route i) : Fixable m' i := by
  intro hact hnone
  rw [hlines, h.line, HPET.level, if_pos (hactive hact), ← hroute, hnone]

/-! ## A match -/

/-- A level-triggered match sets the status and asserts the line. -/
theorem Inv.fire_level (h : Inv m) (henb : has (m.hpet.timers i).config tnIntEnb = true)
    (hlevel : has (m.hpet.timers i).config tnIntTypeLevel = true)
    (hfsb : (m.hpet.timers i).fsb = false) {fires : List (Fin timerCount)} :
    Inv (Machine.setLine
      { m with hpet.isr := m.hpet.isr ||| bit 32 i, fires := fires } i true) := by
  generalize hm' : ({ m with hpet.isr := m.hpet.isr ||| bit 32 i, fires := fires } : Machine) = m'
  have hi : i.val < 32 := Nat.lt_of_lt_of_le i.isLt (by decide)
  have hactive : m'.hpet.active i = true := by
    subst hm'
    rw [HPET.active, getLsbD_set_self hi, hfsb, decide_eq_true]
    · rfl
    · rw [and_or_eq_or]
      exact ⟨(has_iff_and_eq (k := 2) (by omega)).1 henb, (has_iff_and_eq (k := 1) (by omega)).1 hlevel⟩
  have hupdate : m'.setLine i true = [i].foldl Machine.updateLevel m' := by
    rw [List.foldl_cons, List.foldl_nil, Machine.updateLevel, hactive]
  have hlines : m'.line = m.line := by
    subst hm'
    rfl
  rw [hupdate]
  refine inv_updateLevels _ ?_ (fun j hj => ?_) fun j hj => ?_
  · rw [hlines]
    subst hm'
    exact h.wired
  · have hne : i.val ≠ j.val := fun hij => hj (List.mem_singleton.2 (Fin.ext hij.symm))
    have hlevel : m'.hpet.level j = m.hpet.level j := by
      subst hm'
      exact level_congr (h := m.hpet) (getLsbD_set_ne hne) rfl rfl
    rw [hlines, h.line, hlevel]
  · intro _ hnone
    rw [List.mem_singleton.1 hj] at hnone ⊢
    have hroute : m.hpet.route i = none := by
      subst hm'
      exact hnone
    rw [hlines, h.line, HPET.level, hroute, ite_self]

/-- An edge, or a message, leaves the line as it was. -/
theorem Inv.fire_edge (h : Inv m)
    (hedge : ¬(has (m.hpet.timers i).config tnIntTypeLevel && !(m.hpet.timers i).fsb) = true) :
    Inv ((m.setLine i true).setLine i false) := by
  have hnone : m.line i = none := by
    rw [h.line, Option.eq_none_iff_forall_ne_some]
    intro line hline
    rw [HPET.level_eq_some] at hline
    refine hedge ?_
    rw [hline.2.2.1, hline.2.2.2.1]
    rfl
  have hraise := sets_setLine (i := i) h.wired true
  have hlower := sets_setLine (i := i) hraise.wired' false
  have hline : ((m.setLine i true).setLine i false).line = m.line := by
    rw [hlower.line, hraise.line, update_idem, ← hnone]
    exact update_eq_self ..
  refine ⟨hlower.wired', fun j => ?_⟩
  rw [hline, h.line, hlower.level, hraise.level]

theorem Inv.fire (h : Inv m) (i : Fin timerCount) : Inv (m.fire i) := by
  have hfires : Inv { m with fires := m.fires ++ [i] } := ⟨h.wired, h.line⟩
  unfold Machine.fire
  dsimp only
  split
  · exact hfires
  case isFalse henb =>
    rw [Bool.not_eq_true', Bool.not_eq_false] at henb
    split
    case isTrue hlevel =>
      rw [Bool.and_eq_true, Bool.not_eq_true'] at hlevel
      exact h.fire_level henb hlevel.1 hlevel.2
    case isFalse hedge => exact hfires.fire_edge hedge

/-- A round of the poll. -/
theorem Inv.poll1 (h : Inv m) (counter : Nat) (i : Fin timerCount) : Inv (m.poll1 counter i) := by
  unfold Machine.poll1
  split
  · exact h
  · split
    · exact (quiet_modify (Timer.config_advance ..) (Timer.line_advance ..)).inv_iff.2 (h.fire i)
    · exact h

theorem Inv.timer (h : Inv m) (now : Rat) : Inv (m.timer now) := by
  unfold Machine.timer
  split
  · exact List.foldlRecOn _ _ h fun m' h' i _ => h'.poll1 _ i
  · exact h

/-! ## Writes -/

theorem line_modify {f : Timer → Timer}
    (hline : (f (m.hpet.timers i)).line = (m.hpet.timers i).line) : (m.modify i f).line = m.line := by
  funext k
  rcases eq_or_ne k i with rfl | hne
  · simp [Machine.line, Machine.modify, hline]
  · simp [Machine.line, Machine.modify, hne]

theorem level_modify_of_ne {f : Timer → Timer} (hne : j ≠ i) :
    (m.modify i f).hpet.level j = m.hpet.level j := by
  refine level_congr rfl rfl ?_
  simp [Machine.modify, hne]

theorem Timer.line_writeConf (t : Timer) (value : BitVec 32) : (t.writeConf value).line = t.line := by
  unfold writeConf
  dsimp only
  split <;> rfl

/-- A configuration write follows, unless it loses the route of an asserted line. -/
theorem inv_writeConf_iff (h : Inv m) (i : Fin timerCount) (value : BitVec 32) (counter : Nat) :
    Inv (((m.modify i (·.writeConf value)).updateLevel i).arm i counter) ↔
      Fixable (m.modify i (·.writeConf value)) i := by
  rw [(quiet_arm _ _ _).inv_iff]
  have hline : (m.modify i (·.writeConf value)).line = m.line :=
    line_modify (Timer.line_writeConf ..)
  have hwired : Wired (m.modify i (·.writeConf value)).lines (m.modify i (·.writeConf value)).line := by
    rw [hline]
    exact h.wired
  constructor
  · intro hinv
    exact (line_updateLevel_iff hwired).1 (hinv.line i)
  · intro hfix
    refine inv_updateLevels [i] hwired (fun j hj => ?_) fun j hj => ?_
    · rw [hline, level_modify_of_ne fun hji => hj (List.mem_singleton.2 hji)]
      exact h.line j
    · rw [List.mem_singleton.1 hj]
      exact hfix

theorem quiet_writeComparator (m : Machine) (i : Fin timerCount) (high : Bool) (value : BitVec 32) :
    Quiet m (m.modify i (·.writeComparator high value)) where
  lines := rfl
  line := line_modify rfl
  level := by
    intro k
    rcases eq_or_ne k i with rfl | hne
    · by_cases hclear : high || has (m.hpet.timers k).config tn32mode
      · refine level_clear_valSet rfl rfl ?_
        simp [Machine.modify, Timer.writeComparator, hclear]
      · refine level_congr rfl rfl ?_
        simp [Machine.modify, Timer.writeComparator, hclear]
    · exact level_modify_of_ne hne

/-- Arming all timers. -/
theorem quiet_arms (counter : Nat) (is : List (Fin timerCount)) (m : Machine) :
    Quiet m (is.foldl (fun m i => m.arm i counter) m) := by
  induction is generalizing m with
  | nil => exact .refl m
  | cons i is ih => exact (quiet_arm m i counter).trans (ih _)

/-- Timer 2 has no part in the legacy replacement route. -/
theorem level_two (hisr : h'.isr = h.isr) (htimers : h'.timers = h.timers) :
    h'.level 2 = h.level 2 := by
  unfold HPET.level HPET.active HPET.route
  rw [hisr, htimers]
  simp

/-- Timers 0 and 1 change lines. -/
theorem Wired.swap (h : Wired m.lines m.line) (h2 : m.line 2 = m.hpet.level 2) :
    Inv ((({ (m.release 0).release 1 with
      lines := (((m.release 0).release 1).lines.setIrq 0 false).setIrq 8 false }
        : Machine).updateLevel 0).updateLevel 1) := by
  have h0 := sets_release (i := 0) h
  have h1 := sets_release (i := 1) h0.wired'
  have hline : ((m.release 0).release 1).line =
      Function.update (Function.update m.line 0 none) 1 none := by
    rw [h1.line, h0.line]
  -- neither IRQ 0 nor IRQ 8 is asserted any more, so lowering them changes nothing
  have hraised : ∀ n, ((m.release 0).release 1).lines.raised n = false := by
    intro n
    rw [Bool.eq_false_iff, Ne, h1.wired'.raised]
    rintro ⟨i, hi⟩
    have hown := (h1.wired'.owned i n hi).1
    rw [hline] at hi
    rcases timer_cases i with rfl | rfl | rfl
    · cases hi
    · cases hi
    · exact absurd hown (by decide)
  generalize hm' : ({ (m.release 0).release 1 with
    lines := (((m.release 0).release 1).lines.setIrq 0 false).setIrq 8 false } : Machine) = m'
  have hline' : m'.line = ((m.release 0).release 1).line := by
    subst hm'
    rfl
  have hwired : Wired m'.lines m'.line := by
    rw [hline']
    refine ⟨fun n => ?_, ?_, h1.wired'.owned⟩
    · rw [← h1.wired'.raised, hraised]
      subst hm'
      simp [Lines.setIrq, update_apply, hraised]
    · subst hm'
      exact h1.wired'.sources
  refine inv_updateLevels [0, 1] hwired (fun j hj => ?_) fun j hj => ?_
  · have hj2 : j = 2 := by
      rcases timer_cases j with rfl | rfl | h
      · simp at hj
      · simp at hj
      · exact h
    have hlevel : m'.hpet.level 2 = m.hpet.level 2 := by
      rw [← h0.level 2, ← h1.level 2]
      subst hm'
      rfl
    rw [hj2, hline', hline, hlevel, ← h2]
    rfl
  · intro _ _
    rw [hline', hline]
    rcases timer_cases j with rfl | rfl | rfl
    · rfl
    · rfl
    · exact absurd hj (by decide)

theorem quiet_startStop (m : Machine) (old : BitVec 32) (now : Rat) (counter : Nat) :
    Quiet m (m.startStop old now counter) := by
  unfold Machine.startStop
  split
  · have hbase : Quiet m { m with hpet.counterBase := counter, hpet.baseTime := now } :=
      ⟨rfl, rfl, fun _ => rfl⟩
    exact hbase.trans (quiet_arms _ _ _)
  · exact .refl m

theorem config_arms (counter : Nat) (is : List (Fin timerCount)) (m : Machine) :
    (is.foldl (fun m i => m.arm i counter) m).hpet.config = m.hpet.config := by
  induction is generalizing m with
  | nil => rfl
  | cons i is ih => exact ih _

theorem config_startStop (m : Machine) (old : BitVec 32) (now : Rat) (counter : Nat) :
    (m.startStop old now counter).hpet.config = m.hpet.config := by
  unfold Machine.startStop
  split
  · exact config_arms _ _ _
  · rfl

theorem Inv.writeGenConf (h : Inv m) (now : Rat) (value : BitVec 32) :
    Inv (m.writeGenConf now value) := by
  unfold Machine.writeGenConf
  dsimp only
  generalize hm₁ : ({ m with hpet.config := value &&& (enableCnf ||| legRtCnf) } : Machine) = m₁
  have hline : m₁.line = m.line := by
    subst hm₁
    rfl
  have hwired : Wired m₁.lines m₁.line := by
    rw [hline]
    subst hm₁
    exact h.wired
  have hquiet := quiet_startStop m₁ m.hpet.config now (m.hpet.counter now)
  have hconfig := config_startStop m₁ m.hpet.config now (m.hpet.counter now)
  generalize m₁.startStop m.hpet.config now (m.hpet.counter now) = m₂ at hquiet hconfig
  unfold Machine.reroute
  split
  case isTrue =>
    refine Wired.swap ?_ ?_
    · rw [hquiet.lines, hquiet.line]
      exact hwired
    · have htwo : m₁.hpet.level 2 = m.hpet.level 2 := by
        subst hm₁
        exact level_two rfl rfl
      rw [hquiet.line, hquiet.level, hline, htwo]
      exact h.line 2
  case isFalse hsame =>
    rw [hquiet.inv_iff]
    refine ⟨hwired, fun i => ?_⟩
    have hleg : has m₁.hpet.config legRtCnf = has m.hpet.config legRtCnf := by
      have hbit : ∀ config, has config legRtCnf = config.getLsbD 1 :=
        fun config => has_bit config (k := 1) (by omega)
      rw [hbit, BitVec.getLsbD_xor, hconfig, Bool.not_eq_true, bne_eq_false_iff_eq] at hsame
      rw [hbit, hbit, hsame]
    have hlevel : m₁.hpet.level i = m.hpet.level i := by
      subst hm₁
      exact level_congr rfl hleg rfl
    rw [hline, hlevel]
    exact h.line i

theorem Inv.writeGintrSta (h : Inv m) (value : BitVec 32) :
    Inv ((List.finRange timerCount).foldl Machine.updateLevel
      { m with hpet.isr := m.hpet.isr &&& ~~~value }) := by
  refine inv_updateLevels _ h.wired (fun j hj => absurd (List.mem_finRange j) hj) fun j _ => ?_
  refine h.fixable rfl (fun hactive => ?_) rfl
  simp only [HPET.active, BitVec.getLsbD_and, Bool.and_eq_true] at hactive ⊢
  exact ⟨⟨hactive.1.1.1, hactive.1.2⟩, hactive.2⟩

theorem Inv.reset (h : Inv m) : Inv m.reset := by
  have h0 := sets_release (i := 0) h.wired
  have h1 := sets_release (i := 1) h0.wired'
  have h2 := sets_release (i := 2) h1.wired'
  have hnone : (((m.release 0).release 1).release 2).line = fun _ => none := by
    rw [h2.line, h1.line, h0.line]
    funext k
    rcases timer_cases k with rfl | rfl | rfl <;> rfl
  have hline : m.reset.line = fun _ => none := hnone
  refine ⟨?_, fun i => ?_⟩
  · rw [hline, ← hnone]
    exact h2.wired'
  · rw [hline, HPET.level, HPET.active]
    simp [Machine.reset]

/-! ## Runs -/

/-- What happens to the timers: register writes, polls, resets, and snapshots taken and restored. -/
inductive Op where
  | write32 (now : Rat) (offset : Nat) (value : BitVec 32)
  | write8 (now : Rat) (addr : Nat) (value : BitVec 8)
  | timer (now : Rat)
  | reset
  | getState
  | setState

/-- The machine, and the last snapshot of the timers and of the interrupt controllers. -/
structure Session where
  machine : Machine
  saved : Option (SavedState × Lines)

/-- The timers of a new machine, which assert nothing. -/
def Session.new : Session where
  machine :=
    { hpet :=
        { config := 0
          isr := 0
          counterBase := 0
          baseTime := 0
          timers := fun _ => ⟨0, ⟨0xFFFFFFFF, 0xFFFFFFFF⟩, ⟨0, 0⟩, 0, 0, none, none⟩ }
      lines := ⟨fun _ => false, fun _ _ => false, []⟩
      fires := [] }
  saved := none

def Session.step (s : Session) : Op → Session
  | .write32 now offset value => { s with machine := s.machine.write32 now offset value }
  | .write8 now addr value => { s with machine := s.machine.write8 now addr value }
  | .timer now => { s with machine := s.machine.timer now }
  | .reset => { s with machine := s.machine.reset }
  | .getState => { s with saved := some (s.machine.hpet.getState, s.machine.lines) }
  | .setState =>
    match s.saved with
    | none => s
    | some (state, lines) =>
      -- the interrupt controllers restore the lines themselves
      { s with machine.hpet := state.setState, machine.lines := lines }

/-- A write that leaves the interrupt of a timer active does not take the route from an asserted
line. -/
def Machine.KeepsRoute (m : Machine) (offset : Nat) (value : BitVec 32) : Prop :=
  match Register.at offset with
  | .conf i =>
    isHigh offset = false →
      (m.modify i (·.writeConf value)).hpet.active i = true →
        (m.modify i (·.writeConf value)).hpet.route i = none → (m.hpet.timers i).line = none
  | _ => True

/-- The same of the write of a byte. -/
def Session.KeepsRoute (s : Session) : Op → Prop
  | .write32 _ offset value => s.machine.KeepsRoute offset value
  | .write8 now addr value =>
    s.machine.KeepsRoute (addr - addr % 4) (s.machine.hpet.merge8 now addr value)
  | _ => True

/-- A write keeps the lines following, unless it takes the route from an asserted line. -/
theorem inv_write32_iff (h : Inv m) (now : Rat) (offset : Nat) (value : BitVec 32) :
    Inv (m.write32 now offset value) ↔ m.KeepsRoute offset value := by
  unfold Machine.write32 Machine.KeepsRoute
  dsimp only
  cases Register.at offset with
  | conf i =>
    cases isHigh offset with
    | true => exact iff_of_true h nofun
    | false =>
      have hline : (m.modify i (·.writeConf value)).line = m.line :=
        line_modify (Timer.line_writeConf ..)
      refine (inv_writeConf_iff h i value _).trans ?_
      rw [Fixable, hline]
      exact ⟨fun hkeeps _ => hkeeps, fun hkeeps => hkeeps rfl⟩
  | comparator i =>
    refine iff_of_true ?_ trivial
    dsimp only
    split
    · exact h
    · exact ((quiet_writeComparator m i _ value).trans (quiet_arm _ _ _)).inv_iff.2 h
  | fsbRoute i =>
    refine iff_of_true ((quiet_modify ?_ ?_).inv_iff.2 h) trivial
    · cases isHigh offset <;> rfl
    · cases isHigh offset <;> rfl
  | genConf =>
    refine iff_of_true ?_ trivial
    dsimp only
    split
    · exact h
    · exact h.writeGenConf now value
  | gintrSta =>
    refine iff_of_true ?_ trivial
    dsimp only
    split
    · exact h
    · exact h.writeGintrSta value
  | mainCnt =>
    refine iff_of_true ?_ trivial
    dsimp only
    split
    · exact h
    · exact ⟨h.wired, h.line⟩
  | gcapId | none => exact iff_of_true h trivial

/-- What holds of the machine holds of the one that its snapshot restores. -/
structure Session.Inv (s : Session) : Prop where
  machine : Hpet.Inv s.machine
  saved : ∀ p ∈ s.saved, ∀ fires, Hpet.Inv ⟨p.1.setState, p.2, fires⟩

theorem Session.inv_new : Session.new.Inv where
  machine :=
    { wired := ⟨fun _ => by simp [new, Machine.line], fun _ _ => by simp [new, Machine.line],
        fun _ _ h => by simp [new, Machine.line] at h⟩
      line := fun _ => by simp [new, Machine.line, HPET.level, HPET.active] }
  saved := nofun

/-- The machine that a snapshot of timers whose lines follow restores. -/
theorem Inv.restored (h : Inv m) (fires : List (Fin timerCount)) :
    Inv ⟨m.hpet.getState.setState, m.lines, fires⟩ := by
  rw [HPET.setState_getState]
  exact ⟨h.wired, h.line⟩

/-- A step keeps the lines following, unless it takes the route from an asserted line. -/
theorem Session.inv_step (h : s.Inv) (hkeeps : s.KeepsRoute op) : (s.step op).Inv := by
  cases op with
  | write32 now offset value => exact ⟨(inv_write32_iff h.machine now offset value).2 hkeeps, h.saved⟩
  | write8 now addr value => exact ⟨(inv_write32_iff h.machine now _ _).2 hkeeps, h.saved⟩
  | timer now => exact ⟨h.machine.timer now, h.saved⟩
  | reset => exact ⟨h.machine.reset, h.saved⟩
  | getState =>
    refine ⟨h.machine, fun p hp fires => ?_⟩
    rw [step, Option.mem_some_iff] at hp
    subst hp
    exact h.machine.restored fires
  | setState =>
    rw [step]
    split
    · exact h
    case h_2 state lines hsaved => exact ⟨h.saved _ hsaved _, h.saved⟩

/-- A step after which the lines follow takes no route from an asserted line. -/
theorem Session.keepsRoute_of_inv (h : s.Inv)
    (hfollows : Hpet.Inv (s.step op).machine) : s.KeepsRoute op := by
  cases op with
  | write32 now offset value => exact (inv_write32_iff h.machine now offset value).1 hfollows
  | write8 now addr value => exact (inv_write32_iff h.machine now _ _).1 hfollows
  | timer now => trivial
  | reset => trivial
  | getState => trivial
  | setState => trivial

/-- In every run from power-on the lines follow the registers in every state reached, exactly if no
write takes the route from an asserted line. -/
theorem levels_follow_iff (ops : List Op) : Follows Session.new.machine ∧
      (Runs.Each Session.step (fun s op => Follows (s.step op).machine) Session.new ops ↔
        Runs.Each Session.step Session.KeepsRoute Session.new ops) := by
  refine ⟨follows_iff.2 Session.inv_new.machine, ?_⟩
  refine Runs.each_iff (A := fun _ => True) (I := Session.Inv) (fun s op _ h hkeeps => ?_)
    (fun s op _ h hfollows => ?_) (fun _ _ => trivial) Session.inv_new
  · have hstep := Session.inv_step h hkeeps
    exact ⟨hstep, follows_iff.2 hstep.machine⟩
  · exact Session.keepsRoute_of_inv h (follows_iff.1 hfollows)

/-- The counter is started, timer 2 is set to interrupt on input 20 at 100, level triggered, and
after a poll that sees the match its route is set to 5. -/
def routeLost : List Op :=
  [.write32 0 0x010 1, .write32 0 0x140 0x2806, .write32 0 0x14C 0, .write32 0 0x148 100,
    .timer 1, .write32 1 0x140 0xA06]

/-- The interrupt stays asserted on input 20 when the route becomes one that the timer does not
have. -/
theorem route_lost_stays_asserted :
    ¬ Runs.Each Session.step (fun s op => Follows (s.step op).machine) Session.new routeLost := by
  intro h
  have hlast : Follows (routeLost.foldl Session.step Session.new).machine := h.2.2.2.2.2.1
  have hline : ((routeLost.foldl Session.step Session.new).machine.hpet.timers 2).line =
      some (.gsi 20) := by
    decide +kernel
  have hroute : (routeLost.foldl Session.step Session.new).machine.hpet.route 2 = none := by
    decide +kernel
  have hasked := ((hlast.line 2 _).1 hline).2.2.2.2
  exact absurd (hroute.symm.trans hasked) nofun

end V86.Hpet
