import V86.Lib.Runs
import V86.Pci.Intx

/-!
# What a function asserts

A function contributes to exactly the lines that are recorded for it, to none while its level is
low, its INTx Disable is set or it is not on the bus, and its interrupt status shows its level
(`State.Sound`). All operations keep this but the rerouting of Q35, which asserts the pins of
functions that are not on the bus, too.
-/

namespace V86.Pci

open Bits Sparse List

/-! ## Writes to a configuration space -/

namespace Device

variable (device : Device) (space : Space)

theorem byteLength_writeByte (o : Nat) (byte : BitVec 8) :
    (device.writeByte space o byte).1.byteLength = space.byteLength := by
  unfold writeByte
  split
  · rfl
  split
  · split <;> rfl
  split
  · rfl
  split
  · rfl
  split <;> rfl

/-- No byte of a write changes the interrupt status. -/
theorem interrupt_writeByte (o : Nat) (byte : BitVec 8) :
    (device.writeByte space o byte).1.interrupt = space.interrupt := by
  unfold writeByte
  split
  case isTrue ho => exact space.interrupt_setByte _ (by omega)
  split
  case isTrue ho =>
    split
    · exact space.interrupt_setByte _ (by omega)
    · exact space.interrupt_setByte _ (by omega)
  split
  case isTrue ho => exact space.interrupt_setByte _ (by omega)
  split
  case isTrue ho =>
    rcases ho with rfl | rfl
    · -- none of the low bits of the status is cleared by writing one
      have hmask : (statusRw1c >>> (8 * (6 - 6))).setWidth 8 = 0#8 := by decide
      rw [hmask, BitVec.and_zero, BitVec.not_zero, BitVec.and_allOnes]
      rw [Space.interrupt, Space.getLsbD_setByte _ _ _ _ (by decide)]
      split
      · rw [Space.getLsbD_byte _ _ (by decide)]
        rfl
      · rfl
    · exact space.interrupt_setByte _ (by omega)
  split
  case isTrue ho =>
    refine space.interrupt_setByte _ fun h => ?_
    subst h
    revert ho
    decide
  · rfl

theorem writeBytes_spec (offset : Nat) (value : BitVec 32) (is : List Nat) :
    (device.writeBytes offset value is space).1.byteLength = space.byteLength ∧
      (device.writeBytes offset value is space).1.interrupt = space.interrupt := by
  unfold writeBytes
  refine List.foldlRecOn is _ (motive := fun p : Space × Bool =>
    p.1.byteLength = space.byteLength ∧ p.1.interrupt = space.interrupt) ⟨rfl, rfl⟩ ?_
  intro p hp i _
  exact ⟨(device.byteLength_writeByte p.1 _ _).trans hp.1,
    (device.interrupt_writeByte p.1 _ _).trans hp.2⟩

/-- Writing a BAR or the expansion ROM base leaves dword 1 as it is. -/
theorem writeBar_spec {offset : Nat} (written : BitVec 32) (h : 0x10 ≤ offset) :
    (device.writeBar space offset written).byteLength = space.byteLength ∧
      (device.writeBar space offset written).dwords 1 = space.dwords 1 := by
  unfold writeBar
  dsimp only
  split
  · exact ⟨rfl, space.dwords_setDword_of_ne _ (by omega)⟩
  · exact ⟨rfl, space.dwords_setDword_of_ne _ (by omega)⟩

theorem restoreBars_spec : (device.restoreBars space).byteLength = space.byteLength ∧
    (device.restoreBars space).dwords 1 = space.dwords 1 := by
  unfold restoreBars
  refine List.foldlRecOn _ _ (motive := fun other : Space =>
    other.byteLength = space.byteLength ∧ other.dwords 1 = space.dwords 1) ⟨rfl, rfl⟩ ?_
  rintro other ⟨hlength, hdword⟩ ⟨bar, nr⟩ _
  dsimp only
  split
  · split
    · exact ⟨hlength, (other.dwords_setDword_of_ne _ (by omega)).trans hdword⟩
    · exact ⟨hlength, hdword⟩
  · exact ⟨hlength, hdword⟩

end Device

/-! ## Lines and records -/

section
variable {α : Type} [DecidableEq α] {sources : Sources α}

/-- The lines a source asserts are the recorded one. -/
def Recorded (sources : Sources α) (record : Sparse α) : Prop :=
  ∀ f line, sources line f = true ↔ record.get f = some line

theorem Recorded.release {record : Sparse α} {f : Nat} (h : Recorded sources record)
    (line : Option α) (hline : ∀ l, record.get f = some l → line = some l) :
    Recorded (sources.release line f) (record.put f none) := by
  intro g l
  rw [get_put]
  by_cases hg : g = f
  · subst hg
    rw [if_pos rfl]
    refine iff_of_false (fun hl => ?_) nofun
    cases line with
    | none =>
      cases hline l ((h g l).1 hl)
    | some line' =>
      rw [Sources.release, Sources.set] at hl
      split at hl
      · cases hl
      case isFalse hne =>
        exact hne ⟨(Option.some.inj (hline l ((h g l).1 hl))).symm, rfl⟩
  · rw [if_neg hg, ← h g l]
    cases line with
    | none => rfl
    | some line' => rw [Sources.release, Sources.set, if_neg fun hl => hg hl.2]

theorem Recorded.move {record : Sparse α} (h : Recorded sources record) (f : Nat)
    (line : Option α) : Recorded (sources.move (record.get f) line f) (record.put f line) := by
  intro g l
  rw [get_put]
  have hbefore : (if record.get f ≠ line then sources.release (record.get f) f else sources) l g =
      true ↔ if g = f then record.get f = line ∧ line = some l else record.get g = some l := by
    split
    case isTrue hne =>
      have hreleased : Recorded (sources.release (record.get f) f) (record.put f none) :=
        h.release _ fun _ hl => hl
      rw [hreleased g l, get_put]
      by_cases hg : g = f
      · simp [hg, hne]
      · simp [hg]
    case isFalse heq =>
      have heq := Decidable.not_not.1 heq
      by_cases hg : g = f
      · subst hg
        rw [h, if_pos rfl, heq]
        simp
      · rw [h, if_neg hg]
  unfold Sources.move
  cases line with
  | none =>
    dsimp only
    rw [hbefore]
    by_cases hg : g = f
    · simp [hg]
    · simp [hg]
  | some line =>
    dsimp only
    rw [Sources.set]
    by_cases hg : g = f
    · subst hg
      by_cases hl : l = line
      · simp [hl]
      · rw [if_neg fun hh => hl hh.1, hbefore, if_pos rfl, if_pos rfl]
        refine iff_of_false (fun hh => ?_) fun hh => hl (Option.some.inj hh).symm
        exact hl (Option.some.inj hh.2).symm
    · rw [if_neg fun hh => hg hh.2, hbefore, if_neg hg, if_neg hg]

end

/-! ## Driving -/

/-- A function contributes to nothing unless it drives its pin. -/
def State.Quiet (s : State) (f : Nat) : Prop :=
  s.level f = false ∨ s.disabled f = true ∨ s.isAbsent f = true →
    s.assertedIrqLines.get f = none ∧ s.assertedGsis.get f = none

/-- The interrupt status of a function shows its level. -/
def State.Shown (s : State) (f : Nat) : Prop :=
  ∀ space, s.deviceSpaces.get f = some space → space.interrupt = s.level f

/-- The state of the pins: a function contributes to the recorded lines (at most one of each kind)
and to no others, and to none unless it drives its pin; its interrupt status shows its level. -/
structure State.Sound (s : State) : Prop where
  lines : Recorded s.irqSources s.assertedIrqLines
  inputs : Recorded s.gsiSources s.assertedGsis
  quiet : ∀ f, s.Quiet f
  shown : ∀ f, s.Shown f

/-- What is true of a state whatever the functions drive. -/
structure Board.Wired (b : Board) (s : State) : Prop where
  lines : Recorded s.irqSources s.assertedIrqLines
  inputs : Recorded s.gsiSources s.assertedGsis
  /-- An input that is recorded is one the PIC has. -/
  routed : ∀ f irq, s.assertedIrqLines.get f = some irq → irq &&& 0x80 = 0
  spaces : ∀ f, (s.deviceSpaces.get f).map (·.byteLength) =
    (b.devices.get f).map (·.template.byteLength)
  behind : ∀ f, s.isAbsent f = true → 256 ≤ f ∧ (b.devices.get f).isSome

namespace Board

variable (b : Board) (s : State) (f g : Nat) (level : Bool)

@[simp] theorem deviceSpaces_driveIntx : (b.driveIntx s f level).deviceSpaces = s.deviceSpaces := by
  unfold driveIntx
  cases level <;> rfl

@[simp] theorem intxLevels_driveIntx : (b.driveIntx s f level).intxLevels = s.intxLevels := by
  unfold driveIntx
  cases level <;> rfl

@[simp] theorem absent_driveIntx : (b.driveIntx s f level).absent = s.absent := by
  unfold driveIntx
  cases level <;> rfl

@[simp] theorem rcba_driveIntx : (b.driveIntx s f level).rcba = s.rcba := by
  unfold driveIntx
  cases level <;> rfl

/-- The records after driving a pin. -/
theorem lines_driveIntx : (b.driveIntx s f level).assertedIrqLines.get g =
    if g = f then if level then (b.route s f).irq else none else s.assertedIrqLines.get g := by
  unfold driveIntx
  cases level <;> simp [get_put]

theorem gsis_driveIntx : (b.driveIntx s f level).assertedGsis.get g =
    if g = f then if level then (b.route s f).gsi else none else s.assertedGsis.get g := by
  unfold driveIntx
  cases level <;> simp [get_put]

@[simp] theorem level_driveIntx : (b.driveIntx s f level).level g = s.level g := by
  simp [State.level]

@[simp] theorem disabled_driveIntx : (b.driveIntx s f level).disabled g = s.disabled g := by
  simp [State.disabled]

@[simp] theorem isAbsent_driveIntx : (b.driveIntx s f level).isAbsent g = s.isAbsent g := by
  simp [State.isAbsent]

theorem Route.irq_eq_some {route : Route} {irq : BitVec 8} (h : route.irq = some irq) :
    irq &&& 0x80 = 0 := by
  unfold Route.irq at h
  split at h
  · cases h
  case isFalse hbit =>
    rw [← Option.some.inj h]
    exact Decidable.not_not.1 hbit

variable {b s f g level}

/-- Driving a pin keeps the records exact. -/
theorem Wired.driveIntx (h : b.Wired s) : b.Wired (b.driveIntx s f level) where
  lines := by
    cases level with
    | true => exact h.lines.move f _
    | false =>
      -- a recorded input has bit 7 clear
      have hreleased := h.lines.release (
        if (s.assertedIrqLines.get f).getD (b.route s f).pic &&& 0x80 ≠ 0 then none
        else some ((s.assertedIrqLines.get f).getD (b.route s f).pic)) fun irq hirq => by
          rw [hirq, Option.getD_some, if_neg (fun hbit => hbit (h.routed f irq hirq))]
      unfold Board.driveIntx
      simp only [Bool.false_eq_true, if_false]
      split at hreleased
      case isTrue hbit =>
        rw [if_pos hbit]
        exact hreleased
      case isFalse hbit =>
        rw [if_neg hbit]
        exact hreleased
  inputs := by
    cases level with
    | true => exact h.inputs.move f _
    | false => exact h.inputs.release _ fun gsi hgsi => by rw [hgsi]; rfl
  routed g irq hirq := by
    rw [lines_driveIntx] at hirq
    split at hirq
    · split at hirq
      · exact Route.irq_eq_some hirq
      · cases hirq
    · exact h.routed g irq hirq
  spaces g := by
    rw [deviceSpaces_driveIntx]
    exact h.spaces g
  behind g hg := by
    rw [isAbsent_driveIntx] at hg
    exact h.behind g hg

/-- A pin is driven high only for a function that may. -/
theorem quiet_driveIntx_self
    (h : level = true → ¬(s.level f = false ∨ s.disabled f = true ∨ s.isAbsent f = true)) :
    (b.driveIntx s f level).Quiet f := by
  intro hquiet
  rw [level_driveIntx, disabled_driveIntx, isAbsent_driveIntx] at hquiet
  cases level with
  | true => exact absurd hquiet (h rfl)
  | false => exact ⟨by simp [lines_driveIntx], by simp [gsis_driveIntx]⟩

theorem quiet_driveIntx_of_ne (hg : g ≠ f) (h : s.Quiet g) : (b.driveIntx s f level).Quiet g := by
  intro hquiet
  rw [level_driveIntx, disabled_driveIntx, isAbsent_driveIntx] at hquiet
  rw [lines_driveIntx, gsis_driveIntx, if_neg hg, if_neg hg]
  exact h hquiet

theorem shown_driveIntx (h : s.Shown g) : (b.driveIntx s f level).Shown g := by
  intro space hspace
  rw [deviceSpaces_driveIntx] at hspace
  rw [level_driveIntx]
  exact h space hspace

end Board

/-! ## Changes to a space -/

namespace State

variable {s : State} {f g : Nat} {change : Space → Space}

theorem get_modifySpace (s : State) (f g : Nat) (change : Space → Space) :
    (s.modifySpace f change).deviceSpaces.get g =
      if g = f then (s.deviceSpaces.get f).map change else s.deviceSpaces.get g := by
  unfold modifySpace
  cases hf : s.deviceSpaces.get f with
  | none =>
    dsimp only
    split
    case isTrue hg => rw [hg, hf, Option.map_none]
    · rfl
  | some space => simp [get_put]

@[simp] theorem intxLevels_modifySpace : (s.modifySpace f change).intxLevels = s.intxLevels := by
  unfold modifySpace
  split <;> rfl

@[simp] theorem absent_modifySpace : (s.modifySpace f change).absent = s.absent := by
  unfold modifySpace
  split <;> rfl

@[simp] theorem assertedIrqLines_modifySpace :
    (s.modifySpace f change).assertedIrqLines = s.assertedIrqLines := by
  unfold modifySpace
  split <;> rfl

@[simp] theorem assertedGsis_modifySpace :
    (s.modifySpace f change).assertedGsis = s.assertedGsis := by
  unfold modifySpace
  split <;> rfl

@[simp] theorem irqSources_modifySpace : (s.modifySpace f change).irqSources = s.irqSources := by
  unfold modifySpace
  split <;> rfl

@[simp] theorem gsiSources_modifySpace : (s.modifySpace f change).gsiSources = s.gsiSources := by
  unfold modifySpace
  split <;> rfl

@[simp] theorem level_modifySpace : (s.modifySpace f change).level g = s.level g := by
  simp [level]

@[simp] theorem isAbsent_modifySpace : (s.modifySpace f change).isAbsent g = s.isAbsent g := by
  simp [isAbsent]

theorem disabled_modifySpace_of_ne (hg : g ≠ f) :
    (s.modifySpace f change).disabled g = s.disabled g := by
  rw [disabled, disabled, get_modifySpace, if_neg hg]

theorem disabled_modifySpace_self (h : ∀ space, s.deviceSpaces.get f = some space →
    (change space).disabled = space.disabled) :
    (s.modifySpace f change).disabled f = s.disabled f := by
  rw [disabled, disabled, get_modifySpace, if_pos rfl]
  cases hf : s.deviceSpaces.get f with
  | none => rfl
  | some space => simp [h space hf]

theorem quiet_modifySpace (hdisabled : (s.modifySpace f change).disabled g = s.disabled g) :
    (s.modifySpace f change).Quiet g ↔ s.Quiet g := by
  unfold Quiet
  rw [level_modifySpace, isAbsent_modifySpace, hdisabled, assertedIrqLines_modifySpace,
    assertedGsis_modifySpace]

theorem shown_modifySpace (h : s.Shown g) (hinterrupt : g = f → ∀ space,
    s.deviceSpaces.get f = some space → (change space).interrupt = space.interrupt) :
    (s.modifySpace f change).Shown g := by
  intro space hspace
  rw [get_modifySpace] at hspace
  rw [level_modifySpace]
  split at hspace
  case isTrue hg =>
    obtain ⟨before, hbefore, rfl⟩ := Option.map_eq_some_iff.1 hspace
    rw [hinterrupt hg before hbefore]
    exact h before (hg ▸ hbefore)
  · exact h space hspace

end State

namespace Board

variable {b : Board} {s : State} {f g : Nat} {level : Bool} {change : Space → Space}

theorem Wired.modifySpace (h : b.Wired s) (hlength : ∀ space, s.deviceSpaces.get f = some space →
      (change space).byteLength = space.byteLength) : b.Wired (s.modifySpace f change) where
  lines := by
    rw [State.irqSources_modifySpace, State.assertedIrqLines_modifySpace]
    exact h.lines
  inputs := by
    rw [State.gsiSources_modifySpace, State.assertedGsis_modifySpace]
    exact h.inputs
  routed g irq hirq := by
    rw [State.assertedIrqLines_modifySpace] at hirq
    exact h.routed g irq hirq
  spaces g := by
    rw [State.get_modifySpace, ← h.spaces g]
    split
    case isTrue hg =>
      rw [hg]
      cases hf : s.deviceSpaces.get f with
      | none => rfl
      | some space => exact congrArg some (hlength space hf)
    · rfl
  behind g hg := by
    rw [State.isAbsent_modifySpace] at hg
    exact h.behind g hg

/-- A wired state whose functions are all quiet and show their levels. -/
structure Kept (b : Board) (s : State) : Prop where
  wired : b.Wired s
  quiet : ∀ f, s.Quiet f
  shown : ∀ f, s.Shown f

theorem Kept.sound (h : b.Kept s) : s.Sound :=
  ⟨h.wired.lines, h.wired.inputs, h.quiet, h.shown⟩

/-- A change of a space that leaves dword 1 as it is. -/
theorem Kept.modifySpace (h : b.Kept s) (hchange : ∀ space, s.deviceSpaces.get f = some space →
      (change space).byteLength = space.byteLength ∧ (change space).dwords 1 = space.dwords 1) :
    b.Kept (s.modifySpace f change) where
  wired := h.wired.modifySpace fun space hspace => (hchange space hspace).1
  quiet g := by
    refine (State.quiet_modifySpace ?_).2 (h.quiet g)
    by_cases hg : g = f
    · subst hg
      exact State.disabled_modifySpace_self fun space hspace =>
        Space.disabled_congr (hchange space hspace).2
    · exact State.disabled_modifySpace_of_ne hg
  shown g := State.shown_modifySpace (h.shown g) fun _ space hspace =>
    Space.interrupt_congr (hchange space hspace).2

/-! ## Levels -/

/-- The state in `set_irq_level` before the pin is driven. -/
def levelled (s : State) (f : Nat) (level : Bool) : State :=
  { s with intxLevels := s.intxLevels.put f (some level) }.modifySpace f (showLevel level)

theorem setIrqLevel_eq (b : Board) (s : State) (f : Nat) (level : Bool) :
    b.setIrqLevel s f level = b.driveIntx (levelled s f level) f
      (level && !(levelled s f level).disabled f && !(levelled s f level).isAbsent f) := rfl

theorem level_levelled (s : State) (f : Nat) (level : Bool) (g : Nat) :
    (levelled s f level).level g = if g = f then level else s.level g := by
  rw [levelled, State.level_modifySpace, State.level, get_put]
  split <;> rfl

theorem interrupt_showLevel (level : Bool) (space : Space) :
    (showLevel level space).interrupt = level := by
  rw [Space.interrupt, showLevel, Space.dwords_setDword, if_pos rfl]
  cases level with
  | true => exact getLsbD_set_self (by decide)
  | false => exact getLsbD_clear_self

theorem wired_levelled (h : b.Wired s) : b.Wired (levelled s f level) :=
  Wired.modifySpace (s := { s with intxLevels := s.intxLevels.put f (some level) })
    ⟨h.lines, h.inputs, h.routed, h.spaces, h.behind⟩ fun _ _ => rfl

theorem Wired.setIrqLevel (h : b.Wired s) : b.Wired (b.setIrqLevel s f level) :=
  (wired_levelled h).driveIntx

/-- Whatever was asserted before, the function is quiet now. -/
theorem quiet_setIrqLevel_self : (b.setIrqLevel s f level).Quiet f := by
  rw [setIrqLevel_eq]
  refine quiet_driveIntx_self fun hlevel => ?_
  simp only [Bool.and_eq_true, Bool.not_eq_true'] at hlevel
  obtain ⟨⟨hhigh, henabled⟩, hpresent⟩ := hlevel
  rw [level_levelled, if_pos rfl, henabled, hpresent, hhigh]
  decide

theorem shown_setIrqLevel_self : (b.setIrqLevel s f level).Shown f := by
  rw [setIrqLevel_eq]
  refine shown_driveIntx ?_
  intro space hspace
  rw [levelled, State.get_modifySpace, if_pos rfl] at hspace
  obtain ⟨before, -, rfl⟩ := Option.map_eq_some_iff.1 hspace
  rw [level_levelled, if_pos rfl, interrupt_showLevel]

theorem quiet_setIrqLevel_of_ne (hg : g ≠ f) (h : s.Quiet g) :
    (b.setIrqLevel s f level).Quiet g := by
  rw [setIrqLevel_eq]
  refine quiet_driveIntx_of_ne hg ?_
  refine (State.quiet_modifySpace (State.disabled_modifySpace_of_ne hg)).2 ?_
  intro hquiet
  rw [State.level, get_put_of_ne _ hg] at hquiet
  exact h hquiet

theorem shown_setIrqLevel_of_ne (hg : g ≠ f) (h : s.Shown g) :
    (b.setIrqLevel s f level).Shown g := by
  rw [setIrqLevel_eq]
  refine shown_driveIntx ?_
  intro space hspace
  rw [levelled, State.get_modifySpace, if_neg hg] at hspace
  rw [level_levelled, if_neg hg]
  exact h space hspace

/-- Every function but `f` is quiet and shows its level. -/
def Others (s : State) (f : Nat) : Prop := ∀ g, g ≠ f → s.Quiet g ∧ s.Shown g

theorem Others.setIrqLevel (h : Others s f) : Others (b.setIrqLevel s f level) f := fun g hg =>
  ⟨quiet_setIrqLevel_of_ne hg (h g hg).1, shown_setIrqLevel_of_ne hg (h g hg).2⟩

/-- `set_irq_level` puts one function in order. -/
theorem kept_setIrqLevel (hw : b.Wired s) (h : Others s f) : b.Kept (b.setIrqLevel s f level) where
  wired := hw.setIrqLevel
  quiet g := by
    by_cases hg : g = f
    · exact hg ▸ quiet_setIrqLevel_self
    · exact (h.setIrqLevel g hg).1
  shown g := by
    by_cases hg : g = f
    · exact hg ▸ shown_setIrqLevel_self
    · exact (h.setIrqLevel g hg).2

theorem Kept.others (h : b.Kept s) : Others s f := fun g _ => ⟨h.quiet g, h.shown g⟩

/-! ## Hot plug -/

variable {resets : List Bool} {t : State} {offset size bdf : Nat} {space : Space}
  {spaces others : Sparse Space} {m : Machine} {op : Op}

theorem arrive_spec (hw : b.Wired s) (h : Others s f) :
    b.Wired (b.arrive s f resets) ∧ Others (b.arrive s f resets) f := by
  unfold arrive
  cases hf : b.devices.get f with
  | none => exact ⟨hw, h⟩
  | some device =>
    refine List.foldlRecOn resets _ (motive := fun s => b.Wired s ∧ Others s f) ⟨?_, ?_⟩ ?_
    · have hset : b.Wired (s.modifySpace f (·.set device.template)) :=
        hw.modifySpace fun _ _ => rfl
      exact ⟨hset.lines, hset.inputs, hset.routed, hset.spaces, hset.behind⟩
    · intro g hg
      constructor
      · intro hquiet
        rw [State.level, get_put_of_ne _ hg] at hquiet
        exact (State.quiet_modifySpace (State.disabled_modifySpace_of_ne hg)).2 (h g hg).1 hquiet
      · intro space hspace
        rw [State.level, get_put_of_ne _ hg]
        exact State.shown_modifySpace (h g hg).2 (fun heq => absurd heq hg) space hspace
    · intro s hs level _
      exact ⟨hs.1.setIrqLevel, hs.2.setIrqLevel⟩

theorem Kept.setFunctionPresent {present fresh : Bool} (h : b.Kept s)
    (hf : (b.devices.get f).isSome ∧ 256 ≤ f) :
    b.Kept (b.setFunctionPresent s f present fresh resets) := by
  have hw : b.Wired { s with absent := s.absent.put f (some !present) } := by
    refine ⟨h.wired.lines, h.wired.inputs, h.wired.routed, h.wired.spaces, fun g hg => ?_⟩
    by_cases hgf : g = f
    · exact hgf ▸ ⟨hf.2, hf.1⟩
    · rw [State.isAbsent, get_put_of_ne _ hgf] at hg
      exact h.wired.behind g hg
  have ho : Others { s with absent := s.absent.put f (some !present) } f := by
    refine fun g hg => ⟨fun hquiet => ?_, h.shown g⟩
    rw [State.isAbsent, get_put_of_ne _ hg] at hquiet
    exact h.quiet g hquiet
  unfold Board.setFunctionPresent
  dsimp only
  split
  · obtain ⟨hw, ho⟩ := arrive_spec hw ho
    exact kept_setIrqLevel hw ho
  · exact kept_setIrqLevel hw ho

/-! ## Rerouting -/

theorem rootPin_congr (h : t.byte f 0x3D = s.byte f 0x3D) : b.rootPin t f = b.rootPin s f := by
  unfold rootPin
  rw [h]

/-- A route depends on the configuration spaces and on the chipset registers. -/
theorem route_congr (hspaces : t.deviceSpaces = s.deviceSpaces) (hrcba : t.rcba = s.rcba)
    (f : Nat) : b.route t f = b.route s f := by
  have hbyte : ∀ f o, t.byte f o = s.byte f o := fun f o => by
    rw [State.byte, State.byte, hspaces]
  have hpirq : ∀ slot pin, pirq t slot pin = pirq s slot pin := fun slot pin => by
    unfold pirq
    rw [hrcba]
  rw [route, route, rootPin_congr (hbyte f 0x3D), irqRoute, irqRoute]
  simp only [piixPirqLine, q35IrqRoute, hbyte, hpirq]

theorem route_driveIntx : b.route (b.driveIntx s f level) g = b.route s g :=
  route_congr (deviceSpaces_driveIntx ..) (rcba_driveIntx ..) g

/-- One function of `reroute_pins`. -/
def rerouted (b : Board) (s : State) (e : Nat × Bool) : State :=
  if e.2 then b.driveIntx s e.1 !s.disabled e.1 else s

theorem reroutePins_eq (b : Board) (s : State) :
    b.reroutePins s = s.intxLevels.entries.foldl b.rerouted s := rfl

theorem rerouted_true (b : Board) (s : State) (f : Nat) :
    b.rerouted s (f, true) = b.driveIntx s f !s.disabled f := rfl

/-- The records after rerouting some functions. -/
theorem get_foldl_rerouted (es : List (Nat × Bool)) (s : State) (g : Nat) :
    (es.foldl b.rerouted s).assertedIrqLines.get g =
        (if (g, true) ∈ es then if s.disabled g then none else (b.route s g).irq
          else s.assertedIrqLines.get g) ∧ (es.foldl b.rerouted s).assertedGsis.get g =
        (if (g, true) ∈ es then if s.disabled g then none else (b.route s g).gsi
          else s.assertedGsis.get g) := by
  induction es generalizing s with
  | nil => exact ⟨rfl, rfl⟩
  | cons e es ih =>
    obtain ⟨f, level⟩ := e
    rw [foldl_cons, (ih _).1, (ih _).2]
    cases level with
    | false =>
      have hmem : (g, true) ∈ (f, false) :: es ↔ (g, true) ∈ es := by simp
      simp only [hmem]
      exact ⟨rfl, rfl⟩
    | true =>
      rw [rerouted_true, disabled_driveIntx, route_driveIntx, lines_driveIntx, gsis_driveIntx]
      by_cases hmem : (g, true) ∈ es
      · simp [hmem]
      · by_cases hg : g = f
        · subst hg
          cases hdisabled : s.disabled g <;> simp [hmem]
        · simp [hmem, hg]

theorem foldl_rerouted (es : List (Nat × Bool)) (s : State) :
    (es.foldl b.rerouted s).deviceSpaces = s.deviceSpaces ∧
      (es.foldl b.rerouted s).intxLevels = s.intxLevels ∧
      (es.foldl b.rerouted s).absent = s.absent := by
  refine List.foldlRecOn es _ (motive := fun t : State => t.deviceSpaces = s.deviceSpaces ∧
    t.intxLevels = s.intxLevels ∧ t.absent = s.absent) ⟨rfl, rfl, rfl⟩ ?_
  rintro t ht ⟨f, level⟩ _
  cases level with
  | false => exact ht
  | true => simpa [rerouted_true] using ht

@[simp] theorem deviceSpaces_reroutePins : (b.reroutePins s).deviceSpaces = s.deviceSpaces :=
  (foldl_rerouted _ s).1

@[simp] theorem intxLevels_reroutePins : (b.reroutePins s).intxLevels = s.intxLevels :=
  (foldl_rerouted _ s).2.1

@[simp] theorem absent_reroutePins : (b.reroutePins s).absent = s.absent :=
  (foldl_rerouted _ s).2.2

theorem mem_entries_level : (f, true) ∈ s.intxLevels.entries ↔ s.level f = true := by
  rw [mem_entries, State.level]
  cases s.intxLevels.get f <;> simp

/-- Rerouting moves every pin that is driven, and only those. -/
theorem lines_reroutePins (g : Nat) : (b.reroutePins s).assertedIrqLines.get g =
    if s.level g then if s.disabled g then none else (b.route s g).irq
    else s.assertedIrqLines.get g := by
  rw [reroutePins_eq, (get_foldl_rerouted _ s g).1]
  simp only [mem_entries_level]

theorem gsis_reroutePins (g : Nat) : (b.reroutePins s).assertedGsis.get g =
    if s.level g then if s.disabled g then none else (b.route s g).gsi
    else s.assertedGsis.get g := by
  rw [reroutePins_eq, (get_foldl_rerouted _ s g).2]
  simp only [mem_entries_level]

theorem Wired.reroutePins (h : b.Wired s) : b.Wired (b.reroutePins s) := by
  rw [reroutePins_eq]
  refine List.foldlRecOn _ _ (motive := b.Wired) h ?_
  rintro t ht ⟨f, level⟩ _
  cases level with
  | false => exact ht
  | true => exact ht.driveIntx

/-- No function that is off the bus would drive its pin, or none that the chipset connects. -/
def Spared (b : Board) (s : State) : Prop :=
  ∀ f, s.isAbsent f = true → s.level f = true → s.disabled f = false → (b.route s f).gsi = none

/-- Where a pin ends on Q35. -/
theorem gsi_route (hq : b.chipset = .q35) : (b.route s f).gsi = none ↔
    (b.rootPin s f).2 < 0 ∨ 3 < (b.rootPin s f).2 ∨ 256 ≤ (b.rootPin s f).1 := by
  rw [route, irqRoute, hq]
  dsimp only
  unfold q35IrqRoute
  split
  case isTrue h => exact iff_of_true rfl h
  case isFalse h => exact iff_of_false nofun h

theorem irq_route_of_gsi (hq : b.chipset = .q35) (h : (b.route s f).gsi = none) :
    (b.route s f).irq = none := by
  rw [gsi_route hq] at h
  have hroute : b.route s f = ⟨0x80, none⟩ := by
    rw [route, irqRoute, hq]
    exact if_pos h
  rw [hroute]
  rfl

theorem Kept.reroutePins (hq : b.chipset = .q35) (h : b.Kept s) (hs : b.Spared s) :
    b.Kept (b.reroutePins s) where
  wired := h.wired.reroutePins
  quiet f := by
    intro hquiet
    rw [State.level, State.disabled, State.isAbsent, deviceSpaces_reroutePins,
      intxLevels_reroutePins, absent_reroutePins] at hquiet
    rw [lines_reroutePins, gsis_reroutePins]
    cases hlevel : s.level f with
    | false => exact h.quiet f (.inl hlevel)
    | true =>
      cases hdisabled : s.disabled f with
      | true => exact ⟨rfl, rfl⟩
      | false =>
        have habsent : s.isAbsent f = true := by
          rcases hquiet with hl | hd | ha
          · exact absurd (hlevel.symm.trans hl) (by decide)
          · exact absurd (hdisabled.symm.trans hd) (by decide)
          · exact ha
        have hgsi := hs f habsent hlevel hdisabled
        exact ⟨irq_route_of_gsi hq hgsi, hgsi⟩
  shown f space hspace := by
    rw [deviceSpaces_reroutePins] at hspace
    rw [State.level, intxLevels_reroutePins]
    exact h.shown f space hspace

/-- If they are quiet after rerouting, no absent function was asserted by it. -/
theorem spared_of_reroutePins (h : ∀ f, s.isAbsent f = true → (b.reroutePins s).Quiet f) :
    b.Spared s := by
  intro f habsent hlevel hdisabled
  have hquiet := h f habsent (.inr (.inr (by rwa [State.isAbsent, absent_reroutePins])))
  rw [gsis_reroutePins, if_pos hlevel, hdisabled] at hquiet
  exact hquiet.2

/-! ## Configuration writes -/

/-- The states differ in the space of one function, and in what is asserted. -/
structure Near (f : Nat) (s t : State) : Prop where
  spaces : ∀ g, g ≠ f → t.deviceSpaces.get g = s.deviceSpaces.get g
  levels : t.intxLevels = s.intxLevels
  absent : t.absent = s.absent

theorem Near.refl (f : Nat) (s : State) : Near f s s := ⟨fun _ _ => rfl, rfl, rfl⟩

theorem Near.modifySpace (h : Near f s t) (change : Space → Space) :
    Near f s (t.modifySpace f change) where
  spaces g hg := by rw [State.get_modifySpace, if_neg hg, h.spaces g hg]
  levels := by rw [State.intxLevels_modifySpace, h.levels]
  absent := by rw [State.absent_modifySpace, h.absent]

theorem Near.commandChanged (h : Near f s t) (g : Nat) (old new : BitVec 16) :
    Near f s (b.commandChanged t g old new) := by
  unfold Board.commandChanged
  split
  · exact ⟨fun g hg => by rw [deviceSpaces_driveIntx, h.spaces g hg],
      by rw [intxLevels_driveIntx, h.levels], by rw [absent_driveIntx, h.absent]⟩
  · exact h

/-- Another function that is off the bus is connected as before. -/
theorem Near.spared (hq : b.chipset = .q35) (h : Near f s t)
    (hf : s.isAbsent f = false) : b.Spared t ↔ b.Spared s := by
  refine forall_congr' fun g => ?_
  have habsent : t.isAbsent g = s.isAbsent g := by rw [State.isAbsent, State.isAbsent, h.absent]
  by_cases hg : g = f
  · subst hg
    rw [habsent, hf]
    exact iff_of_true nofun nofun
  · have hlevel : t.level g = s.level g := by rw [State.level, State.level, h.levels]
    have hdisabled : t.disabled g = s.disabled g := by
      rw [State.disabled, State.disabled, h.spaces g hg]
    have hbyte : t.byte g 0x3D = s.byte g 0x3D := by rw [State.byte, State.byte, h.spaces g hg]
    rw [habsent, hlevel, hdisabled, gsi_route hq, gsi_route hq, rootPin_congr hbyte]

theorem maskRouting_spec (space : Space) : (maskRouting space).byteLength = space.byteLength ∧
    (maskRouting space).dwords 1 = space.dwords 1 := by
  unfold maskRouting
  refine List.foldlRecOn _ _ (motive := fun other : Space =>
    other.byteLength = space.byteLength ∧ other.dwords 1 = space.dwords 1) ⟨rfl, rfl⟩ ?_
  rintro other ⟨hlength, hdword⟩ i _
  refine ⟨hlength, ?_⟩
  rw [Space.dwords_setByte_of_ne _ _ (by omega), Space.dwords_setByte_of_ne _ _ (by omega), hdword]

theorem updatePmDecode_spec (space : Space) : (updatePmDecode space).byteLength = space.byteLength ∧
      (updatePmDecode space).dwords 1 = space.dwords 1 :=
  ⟨rfl, space.dwords_setDword_of_ne _ (by decide)⟩

theorem updateRcba_spec (space : Space) : (updateRcba space).byteLength = space.byteLength ∧
    (updateRcba space).dwords 1 = space.dwords 1 :=
  ⟨rfl, space.dwords_setDword_of_ne _ (by decide)⟩

theorem Kept.lpcConfigWritten (hq : b.chipset = .q35) (h : b.Kept s) (hf : s.isAbsent f = false)
    (hs : touchesRouting offset size = true → b.Spared s) :
    b.Kept (b.lpcConfigWritten s f offset size) := by
  unfold Board.lpcConfigWritten
  dsimp only
  have hpm : b.Kept (if touches offset size 0x40 (0x44 + 1) then s.modifySpace f updatePmDecode
      else s) ∧ Near f s (if touches offset size 0x40 (0x44 + 1) then
        s.modifySpace f updatePmDecode else s) := by
    split
    · exact ⟨h.modifySpace fun space _ => updatePmDecode_spec space, (Near.refl f s).modifySpace _⟩
    · exact ⟨h, .refl f s⟩
  revert hpm
  generalize (if touches offset size 0x40 (0x44 + 1) then s.modifySpace f updatePmDecode
    else s) = t
  rintro ⟨ht, hnear⟩
  have hroute : b.Kept (if touchesRouting offset size then
      b.reroutePins (t.modifySpace f maskRouting) else t) := by
    split
    case isTrue htouches =>
      refine Kept.reroutePins hq (ht.modifySpace fun space _ => maskRouting_spec space) ?_
      exact (Near.spared hq (hnear.modifySpace _) hf).2 (hs htouches)
    · exact ht
  split
  · exact hroute.modifySpace fun space _ => updateRcba_spec space
  · exact hroute

/-- If all are quiet after a write to the routing registers, no absent function was asserted. -/
theorem spared_of_lpcConfigWritten (hq : b.chipset = .q35) (hf : s.isAbsent f = false)
    (htouches : touchesRouting offset size = true)
    (h : ∀ g, (b.lpcConfigWritten s f offset size).Quiet g) : b.Spared s := by
  unfold Board.lpcConfigWritten at h
  dsimp only at h
  rw [if_pos htouches] at h
  have hnear : Near f s (if touches offset size 0x40 (0x44 + 1) then s.modifySpace f updatePmDecode
      else s) := by
    split
    · exact (Near.refl f s).modifySpace _
    · exact .refl f s
  have hnear := hnear.modifySpace maskRouting
  rw [← hnear.spared hq hf]
  refine spared_of_reroutePins fun g hg => ?_
  have hg' : g ≠ f := by
    rintro rfl
    rw [State.isAbsent, hnear.absent] at hg
    exact absurd (hg.symm.trans hf) (by decide)
  have hquiet := h g
  split at hquiet
  · exact (State.quiet_modifySpace (State.disabled_modifySpace_of_ne hg')).1 hquiet
  · exact hquiet

/-- The guest changed INTx Disable, or it did not. -/
theorem kept_commandChanged (hw : b.Wired s) (ho : Others s f) (hshown : s.Shown f)
    (hf : s.isAbsent f = false) {old : Space} (hspace : s.deviceSpaces.get f = some space)
    (hquiet : space.disabled = old.disabled → s.Quiet f) :
    b.Kept (b.commandChanged s f old.command space.command) := by
  have hdisabled : s.disabled f = space.disabled := by rw [State.disabled, hspace]; rfl
  unfold Board.commandChanged
  split
  · refine ⟨hw.driveIntx, fun g => ?_, fun g => shown_driveIntx ?_⟩
    · by_cases hg : g = f
      · subst hg
        refine quiet_driveIntx_self fun hlevel => ?_
        rw [Bool.and_eq_true, Bool.not_eq_true'] at hlevel
        rw [hdisabled, hlevel.1, hf, Space.disabled, hlevel.2]
        decide
      · exact quiet_driveIntx_of_ne hg (ho g hg).1
    · by_cases hg : g = f
      · exact hg ▸ hshown
      · exact (ho g hg).2
  case isFalse hsame =>
    have hsame : space.disabled = old.disabled := by
      rw [BitVec.getLsbD_xor] at hsame
      rw [Space.disabled, Space.disabled]
      cases h : old.command.getLsbD commandIntxDisable <;>
        cases h' : space.command.getLsbD commandIntxDisable <;> simp_all
    refine ⟨hw, fun g => ?_, fun g => ?_⟩
    · by_cases hg : g = f
      · exact hg ▸ hquiet hsame
      · exact (ho g hg).1
    · by_cases hg : g = f
      · exact hg ▸ hshown
      · exact (ho g hg).2

/-- The bytes of a write, and what `command_changed` makes of them. -/
def headerWritten (b : Board) (s : State) (f : Nat) (space written : Space) : State :=
  b.commandChanged (s.modifySpace f fun _ => written) f space.command written.command

theorem Kept.headerWritten (h : b.Kept s) (hf : s.isAbsent f = false) {written : Space}
    (hspace : s.deviceSpaces.get f = some space) (hlength : written.byteLength = space.byteLength)
    (hinterrupt : written.interrupt = space.interrupt) :
    b.Kept (b.headerWritten s f space written) := by
  have hchange : ∀ before, s.deviceSpaces.get f = some before → before = space := fun _ hbefore =>
    Option.some.inj (hbefore.symm.trans hspace)
  refine kept_commandChanged (h.wired.modifySpace fun before hbefore => ?_) ?_ ?_ ?_ ?_ ?_
  · rw [hchange before hbefore, hlength]
  · exact fun g hg => ⟨(State.quiet_modifySpace (State.disabled_modifySpace_of_ne hg)).2
      (h.quiet g), State.shown_modifySpace (h.shown g) fun heq => absurd heq hg⟩
  · refine State.shown_modifySpace (h.shown f) fun _ before hbefore => ?_
    rw [hchange before hbefore, hinterrupt]
  · rw [State.isAbsent_modifySpace, hf]
  · rw [State.get_modifySpace, if_pos rfl, hspace, Option.map_some]
  · intro hsame
    refine (State.quiet_modifySpace (State.disabled_modifySpace_self fun before hbefore => ?_)).2
      (h.quiet f)
    rw [hchange before hbefore, hsame]

/-- Writing to a function that is on the bus. -/
theorem Kept.functionWrite (value : BitVec 32) (h : b.Kept s) (hf : s.isAbsent f = false)
    (hs : b.chipset = .q35 → f = b.chipset.isaBridge → touchesRouting offset size = true →
      b.Spared s) : b.Kept (b.functionWrite s f offset size value) := by
  unfold Board.functionWrite
  split
  case h_2 => exact h
  case h_1 space device hspace _ =>
    split
    · exact h
    split
    case isTrue hbar =>
      have hoffset : 0x10 ≤ offset := by
        unfold Device.barOffset at hbar
        split at hbar <;> simp only [Bool.and_eq_true, Bool.or_eq_true, decide_eq_true_eq] at hbar <;>
          omega
      split
      · refine h.modifySpace fun space _ => ?_
        split
        · exact ⟨rfl, space.dwords_setDword_of_ne _ (by decide)⟩
        · exact device.writeBar_spec space value hoffset
      · exact h
    · have hspec := device.writeBytes_spec space offset value (List.range size)
      generalize device.writeBytes offset value (List.range size) space = written at hspec
      obtain ⟨written, plain⟩ := written
      have hkept : b.Kept (b.headerWritten s f space written) :=
        h.headerWritten hf hspace hspec.1 hspec.2
      have hnear : Near f s (b.headerWritten s f space written) :=
        ((Near.refl f s).modifySpace _).commandChanged _ _ _
      change b.Kept (if _ then b.onConfigWrite (b.headerWritten s f space written) f offset size
        else b.headerWritten s f space written)
      split
      · unfold Board.onConfigWrite
        split
        case isTrue hq =>
          refine hkept.lpcConfigWritten hq.1 ?_ fun htouches => ?_
          · rw [State.isAbsent, hnear.absent]
            exact hf
          · exact (hnear.spared hq.1 hf).2 (hs hq.1 hq.2 htouches)
        · exact hkept
      · exact hkept

/-- A configuration access reaches only functions that are on the bus. -/
theorem isAbsent_hop {bridges : List Nat}
    (h : hop b s bdf bridges = .answer (some f)) : s.isAbsent f = false := by
  induction bridges with
  | nil => cases h
  | cons bridge bridges ih =>
    unfold hop at h
    split at h
    · dsimp only at h
      split at h
      · split at h
        · cases h
        · split at h
          case isTrue hpresent =>
            cases h
            exact hpresent.2
          · cases h
      · split at h
        · cases h
        · exact ih h
    · exact ih h

theorem isAbsent_routeConfig (h : b.Wired s) (hroute : b.routeConfig s bdf = some f) :
    s.isAbsent f = false := by
  have hhops : ∀ fuel bus, hops b s bdf fuel bus = some f → s.isAbsent f = false := by
    intro fuel
    induction fuel with
    | zero => exact fun _ => nofun
    | succ fuel ih =>
      intro bus hh
      unfold hops at hh
      split at hh
      case h_1 answer hanswer =>
        subst hh
        exact isAbsent_hop hanswer
      · exact ih _ hh
  unfold routeConfig at hroute
  split at hroute
  case isTrue hbus =>
    cases hroute
    cases habsent : s.isAbsent f with
    | false => rfl
    | true =>
      have hge := (h.behind f habsent).1
      rw [Nat.shiftRight_eq_div_pow] at hbus
      omega
  · exact hhops _ _ hroute

theorem Kept.configWrite (value : BitVec 32) (h : b.Kept s)
    (hs : b.chipset = .q35 → b.routeConfig s bdf = some b.chipset.isaBridge →
      touchesRouting offset size = true → b.Spared s) :
    b.Kept (b.configWrite s bdf offset size value) := by
  unfold Board.configWrite
  split
  case h_1 f hroute =>
    exact h.functionWrite value (isAbsent_routeConfig h.wired hroute) fun hq hf =>
      hs hq (hf ▸ hroute)
  · exact h

/-- A write to the routing registers of Q35 is carried out. -/
theorem spared_of_configWrite (hq : b.chipset = .q35) (hw : b.Wired s) (value : BitVec 32)
    (hsize : size = 1 ∨ size = 2 ∨ size = 4)
    (hroute : b.routeConfig s bdf = some b.chipset.isaBridge)
    (htouches : touchesRouting offset size = true)
    (h : ∀ g, (b.configWrite s bdf offset size value).Quiet g) : b.Spared s := by
  have hf := isAbsent_routeConfig hw hroute
  have hoffset : 0x5D ≤ offset ∧ offset < 0x6C := by
    simp only [touchesRouting, touches, Bool.or_eq_true, Bool.and_eq_true, decide_eq_true_eq]
      at htouches
    omega
  obtain ⟨device, hdevice⟩ := Option.isSome_iff_exists.1 b.isaBridge_isSome
  obtain ⟨space, hspace, hlength⟩ := Option.map_eq_some_iff.1
    ((hw.spaces b.chipset.isaBridge).trans (congrArg (Option.map (·.template.byteLength)) hdevice))
  have hlength : space.byteLength = device.template.byteLength := hlength
  have htemplate := b.template_length _ _ hdevice
  rw [Board.configWrite, hroute] at h
  dsimp only at h
  unfold Board.functionWrite at h
  rw [hspace, hdevice] at h
  dsimp only at h
  have hbar : device.barOffset offset = false := by
    unfold Device.barOffset
    split <;> simp only [Bool.and_eq_false_iff, Bool.or_eq_false_iff, decide_eq_false_iff_not] <;>
      omega
  rw [if_neg (by omega), hbar, if_neg (by decide), if_pos (.inl (by omega)), onConfigWrite,
    if_pos ⟨hq, rfl⟩] at h
  have hnear : Near b.chipset.isaBridge s (b.headerWritten s b.chipset.isaBridge space
      (device.writeBytes offset value (List.range size) space).1) :=
    ((Near.refl _ s).modifySpace _).commandChanged _ _ _
  rw [← hnear.spared hq hf]
  refine spared_of_lpcConfigWritten hq ?_ htouches h
  rw [State.isAbsent, hnear.absent]
  exact hf

/-! ## Snapshots -/

/-- The levels and the functions off the bus are saved as lists of functions. -/
theorem get_ofEntries_flags (flags : Sparse Bool) (keep : Nat → Bool)
    (h : ∀ f, flags.get f = some true → keep f = true) (f : Nat) :
    ((ofEntries (((flags.entries.filterMap fun e => if e.2 then some e.1 else none).filter
      keep).map (·, true))).get f).getD false = (flags.get f).getD false := by
  rw [get_ofEntries (f := fun f => if flags.get f = some true then some true else none)]
  · cases hf : flags.get f with
    | none => rfl
    | some flag => cases flag <;> rfl
  · intro g flag
    simp only [mem_map, mem_filter, mem_filterMap, Prod.exists, mem_entries, Prod.mk.injEq]
    constructor
    · rintro ⟨g', ⟨⟨g'', flag', hget, hsome⟩, _⟩, rfl, rfl⟩
      cases flag' with
      | false => cases hsome
      | true =>
        cases hsome
        rw [if_pos hget]
    · intro hget
      split at hget
      case isTrue htrue =>
        cases hget
        exact ⟨g, ⟨⟨g, true, htrue, rfl⟩, h g htrue⟩, rfl, rfl⟩
      · cases hget

theorem level_setState (t : State) (f : Nat) : (b.setState s (getState t)).level f = t.level f := by
  have hflags := get_ofEntries_flags t.intxLevels (fun _ => true) (fun _ _ => rfl) f
  rw [List.filter_eq_self.2 fun _ _ => rfl] at hflags
  exact hflags

theorem isAbsent_setState (h : b.Wired t) (f : Nat) :
    (b.setState s (getState t)).isAbsent f = t.isAbsent f :=
  get_ofEntries_flags _ _ (fun f hf => (h.behind f (by rw [State.isAbsent, hf]; rfl)).2) f

/-- The entries of a snapshot are the spaces of the functions. -/
theorem mem_functions :
    (f, some space) ∈ (getState t).functions ↔ t.deviceSpaces.get f = some space := by
  unfold Snapshot.functions getState
  simp only [mem_append, mem_map, mem_range, mem_filter, Prod.exists,
    mem_entries, decide_eq_true_eq, Prod.mk.injEq]
  constructor
  · rintro (⟨i, hi, rfl, hget⟩ | ⟨i, space', ⟨hget, -⟩, rfl, heq⟩)
    · rw [List.getElem?_map, List.getElem?_range hi] at hget
      exact hget
    · cases heq
      exact hget
  · intro hget
    by_cases hf : f < 256
    · refine .inl ⟨f, hf, rfl, ?_⟩
      rw [List.getElem?_map, List.getElem?_range hf]
      exact hget
    · exact .inr ⟨f, space, ⟨hget, Nat.le_of_not_lt hf⟩, rfl, rfl⟩

/-- Spaces of the lengths that the functions have. -/
def Sized (b : Board) (spaces : Sparse Space) : Prop :=
  ∀ f, (spaces.get f).map (·.byteLength) = (b.devices.get f).map (·.template.byteLength)

/-- The function has a space, with the same dword 1 as in the other spaces. -/
def Agrees (spaces others : Sparse Space) (f : Nat) : Prop :=
  ∃ space other, spaces.get f = some space ∧ others.get f = some other ∧
    space.dwords 1 = other.dwords 1

theorem Sized.isSome (h : b.Sized spaces) (hspace : spaces.get f = some space) :
    ∃ device, b.devices.get f = some device ∧ space.byteLength = device.template.byteLength := by
  have hf := h f
  rw [hspace, Option.map_some, eq_comm, Option.map_eq_some_iff] at hf
  obtain ⟨device, hdevice, hlength⟩ := hf
  exact ⟨device, hdevice, hlength.symm⟩

/-- Restoring the space of one function. -/
theorem restoreSpace_spec (h : b.Sized spaces) (ho : b.Sized others) {space : Option Space}
    (hspace : ∀ other, space = some other → others.get f = some other) :
    b.Sized (b.restoreSpace spaces f space) ∧
      (space.isSome ∨ Agrees spaces others f → Agrees (b.restoreSpace spaces f space) others f) ∧
      ∀ g, g ≠ f → (b.restoreSpace spaces f space).get g = spaces.get g := by
  cases space with
  | none =>
    have hskip : b.restoreSpace spaces f none = spaces := by
      unfold restoreSpace
      split
      case h_1 heq _ => cases heq
      · rfl
    rw [hskip]
    exact ⟨h, fun hh => hh.resolve_left (by decide), fun _ _ => rfl⟩
  | some other =>
    have hother := hspace other rfl
    obtain ⟨device, hdevice, holength⟩ := ho.isSome hother
    have hcurrent : ∃ current, spaces.get f = some current ∧
        current.byteLength = device.template.byteLength := by
      have := h f
      rw [hdevice, Option.map_some, Option.map_eq_some_iff] at this
      exact this
    obtain ⟨current, hcurrent, hlength⟩ := hcurrent
    have hput : b.restoreSpace spaces f (some other) =
        spaces.put f (some (current.set (device.restoreBars other))) := by
      unfold restoreSpace
      rw [hdevice, hcurrent]
    rw [hput]
    refine ⟨fun g => ?_, fun _ => ?_, fun g hg => get_put_of_ne _ hg⟩
    · rw [get_put, ← h g]
      split
      case isTrue hg => rw [hg, hcurrent, Option.map_some, Option.map_some, Space.byteLength_set]
      · rfl
    · refine ⟨_, other, get_put_self .., hother, ?_⟩
      have hbars := device.restoreBars_spec other
      have htemplate := b.template_length _ _ hdevice
      unfold Space.set
      dsimp only
      rw [hbars.1, if_pos (by omega), hbars.2]

theorem foldl_restoreSpace (ho : b.Sized others) (es : List (Nat × Option Space)) :
    ∀ {spaces : Sparse Space}, b.Sized spaces →
    (∀ e ∈ es, ∀ other, e.2 = some other → others.get e.1 = some other) →
    b.Sized (es.foldl (fun spaces e => b.restoreSpace spaces e.1 e.2) spaces) ∧
      ((∃ space, (f, some space) ∈ es) ∨ Agrees spaces others f →
        Agrees (es.foldl (fun spaces e => b.restoreSpace spaces e.1 e.2) spaces) others f) := by
  induction es with
  | nil =>
    intro spaces h _
    refine ⟨h, fun hh => hh.resolve_left ?_⟩
    rintro ⟨space, hspace⟩
    cases hspace
  | cons e es ih =>
    intro spaces h hes
    obtain ⟨hsized, hself, hother⟩ := restoreSpace_spec h ho (hes e mem_cons_self)
    obtain ⟨hsized', hagrees⟩ := ih hsized fun e he => hes e (mem_cons_of_mem _ he)
    refine ⟨hsized', fun hh => hagrees ?_⟩
    by_cases hf : f = e.1
    · rcases hh with ⟨space, hmem⟩ | hh
      · rcases List.mem_cons.1 hmem with rfl | hmem
        · exact .inr (hf ▸ hself (.inl rfl))
        · exact .inl ⟨space, hmem⟩
      · exact .inr (hf ▸ hself (.inr (hf ▸ hh)))
    · rcases hh with ⟨space, hmem⟩ | ⟨space, other, hspace, hh⟩
      · rcases List.mem_cons.1 hmem with rfl | hmem
        · exact absurd rfl hf
        · exact .inl ⟨space, hmem⟩
      · exact .inr ⟨space, other, (hother f hf).trans hspace, hh⟩

theorem restore_save (b : Board) (s t : State) : b.restore s (save t) =
    { b.setState s (getState t) with
      rcba := t.rcba, irqSources := t.irqSources, gsiSources := t.gsiSources } := rfl

theorem deviceSpaces_setState (b : Board) (s : State) (state : Snapshot) :
    (b.setState s state).deviceSpaces =
      state.functions.foldl (fun spaces e => b.restoreSpace spaces e.1 e.2) s.deviceSpaces := rfl

/-- The spaces that a restored snapshot leaves. -/
theorem spaces_restore (h : b.Wired s) (ht : b.Wired t) :
    b.Sized (b.restore s (save t)).deviceSpaces ∧ ∀ f space, t.deviceSpaces.get f = some space →
        Agrees (b.restore s (save t)).deviceSpaces t.deviceSpaces f := by
  have hes : ∀ e ∈ (getState t).functions, ∀ other, e.2 = some other →
      t.deviceSpaces.get e.1 = some other := by
    rintro ⟨f, space⟩ he other rfl
    exact mem_functions.1 he
  rw [restore_save]
  dsimp only
  rw [deviceSpaces_setState]
  constructor
  · exact (foldl_restoreSpace (f := 0) ht.spaces _ h.spaces hes).1
  · intro f space hspace
    exact (foldl_restoreSpace ht.spaces _ h.spaces hes).2 (.inl ⟨space, mem_functions.2 hspace⟩)

theorem level_restore (t : State) (f : Nat) : (b.restore s (save t)).level f = t.level f := by
  rw [restore_save]
  exact level_setState (b := b) (s := s) t f

theorem isAbsent_restore (h : b.Wired t) (f : Nat) :
    (b.restore s (save t)).isAbsent f = t.isAbsent f := by
  rw [restore_save]
  exact isAbsent_setState (s := s) h f

theorem lines_restore (t : State) (f : Nat) :
    (b.restore s (save t)).assertedIrqLines.get f = t.assertedIrqLines.get f := by
  rw [restore_save]
  exact get_ofEntries_entries t.assertedIrqLines f

theorem gsis_restore (t : State) (f : Nat) :
    (b.restore s (save t)).assertedGsis.get f = t.assertedGsis.get f := by
  rw [restore_save]
  exact get_ofEntries_entries t.assertedGsis f

/-- Restoring a snapshot of a sound machine. -/
theorem Kept.restore (h : b.Wired s) (ht : b.Kept t) : b.Kept (b.restore s (save t)) := by
  obtain ⟨hsized, hagrees⟩ := spaces_restore h ht.wired
  have hback : ∀ f space, (b.restore s (save t)).deviceSpaces.get f = some space →
      ∃ before, t.deviceSpaces.get f = some before ∧ space.dwords 1 = before.dwords 1 := by
    intro f space hspace
    obtain ⟨device, hdevice, -⟩ := hsized.isSome hspace
    obtain ⟨before, hbefore, -⟩ := Option.map_eq_some_iff.1
      ((ht.wired.spaces f).trans (congrArg (Option.map (·.template.byteLength)) hdevice))
    obtain ⟨space', other, hspace', hother, hdword⟩ := hagrees f before hbefore
    obtain rfl := Option.some.inj (hspace.symm.trans hspace')
    exact ⟨other, hother, hdword⟩
  have hdisabled : ∀ f, (b.restore s (save t)).disabled f = t.disabled f := by
    intro f
    rw [State.disabled, State.disabled]
    cases hf : (b.restore s (save t)).deviceSpaces.get f with
    | none =>
      cases hbefore : t.deviceSpaces.get f with
      | none => rfl
      | some before =>
        obtain ⟨space, _, hspace, -⟩ := hagrees f before hbefore
        rw [hspace] at hf
        cases hf
    | some space =>
      obtain ⟨before, hbefore, hdword⟩ := hback f space hf
      rw [hbefore]
      exact Space.disabled_congr hdword
  refine ⟨⟨fun f line => ?_, fun f gsi => ?_, fun f irq hirq => ?_, hsized, fun f hf => ?_⟩,
    fun f => ?_, fun f space hget => ?_⟩
  · rw [lines_restore]
    exact ht.wired.lines f line
  · rw [gsis_restore]
    exact ht.wired.inputs f gsi
  · rw [lines_restore] at hirq
    exact ht.wired.routed f irq hirq
  · rw [isAbsent_restore ht.wired] at hf
    exact ht.wired.behind f hf
  · unfold State.Quiet
    rw [level_restore, hdisabled, isAbsent_restore ht.wired, lines_restore, gsis_restore]
    exact ht.quiet f
  · obtain ⟨before, hbefore, hdword⟩ := hback f space hget
    rw [level_restore, ← ht.shown f before hbefore]
    exact Space.interrupt_congr hdword

/-! ## Operations -/

/-- A machine in order, all of whose snapshots were taken of machines in order. -/
def Orderly (b : Board) (m : Machine) : Prop :=
  b.Kept m.state ∧ ∀ saved ∈ m.saved, ∃ t, b.Kept t ∧ saved = save t

/-- The write changes the routing of Q35, and pins are driven again. -/
def Reroutes (b : Board) (s : State) : Op → Prop
  | .rcbaWrite offset _ => 0x3140 ≤ offset ∧ offset < 0x3154
  | .configWrite bdf offset size _ => b.chipset = .q35 ∧
    b.routeConfig s bdf = some b.chipset.isaBridge ∧ touchesRouting offset size = true
  | _ => False

/-- A rerouting write finds no absent function with its level high and its INTx Disable clear whose
pin the chipset connects. -/
def Spares (b : Board) (m : Machine) (op : Op) : Prop := b.Reroutes m.state op → b.Spared m.state

theorem spared_rcba (hq : b.chipset = .q35) {rcba : Nat → BitVec 8} :
    b.Spared { s with rcba := rcba } ↔ b.Spared s := by
  refine forall_congr' fun f => ?_
  rw [gsi_route hq, gsi_route hq, rootPin_congr (show { s with rcba := rcba }.byte f 0x3D =
    s.byte f 0x3D from rfl)]
  rfl

theorem Kept.rcbaWrite (hq : b.chipset = .q35) (value : BitVec 8) (h : b.Kept s)
    (hs : 0x3140 ≤ offset ∧ offset < 0x3154 → b.Spared s) :
    b.Kept (b.rcbaWrite s offset value) := by
  have hkept : b.Kept { s with rcba := fun o => if o = offset then value else s.rcba o } :=
    ⟨⟨h.wired.lines, h.wired.inputs, h.wired.routed, h.wired.spaces, h.wired.behind⟩, h.quiet,
      h.shown⟩
  unfold Board.rcbaWrite
  dsimp only
  split
  case isTrue hoffset => exact hkept.reroutePins hq ((spared_rcba hq).2 (hs hoffset))
  · exact hkept

/-- One operation: what holds of the machine and of its snapshots is kept. -/
theorem Orderly.step (h : b.Orderly m) (hop : b.Allows op)
    (hs : b.Spares m op) : b.Orderly (b.step m op) := by
  obtain ⟨hkept, hsaved⟩ := h
  cases op with
  | raiseIrq f => exact ⟨kept_setIrqLevel hkept.wired hkept.others, hsaved⟩
  | lowerIrq f =>
    have hlowered : b.Kept (b.setIrqLevel m.state f false) :=
      kept_setIrqLevel hkept.wired hkept.others
    exact ⟨hlowered, hsaved⟩
  | configWrite bdf offset size value =>
    exact ⟨hkept.configWrite value fun hq hroute htouches => hs ⟨hq, hroute, htouches⟩, hsaved⟩
  | setFunctionPresent f present fresh resets => exact ⟨hkept.setFunctionPresent hop, hsaved⟩
  | rcbaWrite offset value => exact ⟨hkept.rcbaWrite hop value hs, hsaved⟩
  | deviceStore f offset value =>
    refine ⟨hkept.modifySpace fun space _ => ⟨rfl, space.dwords_setByte_of_ne _ ?_⟩, hsaved⟩
    have : 0x40 ≤ offset := hop
    omega
  | getState =>
    refine ⟨hkept, fun saved hmem => ?_⟩
    rcases List.mem_append.1 hmem with hmem | hmem
    · exact hsaved saved hmem
    · exact ⟨m.state, hkept, List.mem_singleton.1 hmem⟩
  | setState n =>
    unfold Board.step
    dsimp only
    split
    case h_1 saved hget =>
      obtain ⟨t, ht, rfl⟩ := hsaved saved (mem_of_getElem? hget)
      exact ⟨Kept.restore hkept.wired ht, hsaved⟩
    · exact ⟨hkept, hsaved⟩

/-- An operation that leaves a sound state rerouted nothing that is absent. -/
theorem Orderly.spares (h : b.Orderly m) (hop : b.Allows op)
    (hsound : (b.step m op).state.Sound) : b.Spares m op := by
  intro hreroutes
  cases op with
  | rcbaWrite offset value =>
    have hquiet : ∀ f, (b.rcbaWrite m.state offset value).Quiet f := hsound.quiet
    unfold Board.rcbaWrite at hquiet
    dsimp only at hquiet
    have hrange : 0x3140 ≤ offset ∧ offset < 0x3154 := hreroutes
    rw [if_pos hrange] at hquiet
    exact (spared_rcba hop).1 (spared_of_reroutePins fun f _ => hquiet f)
  | configWrite bdf offset size value =>
    obtain ⟨hq, hroute, htouches⟩ := hreroutes
    exact spared_of_configWrite hq h.1.wired value hop hroute htouches hsound.quiet
  | _ => exact hreroutes.elim

theorem orderly_boot (b : Board) (rcba : Nat → BitVec 8) : b.Orderly (b.boot rcba) := by
  have hget : ∀ f, (b.boot rcba).state.deviceSpaces.get f =
      (b.devices.get f).map (·.template) := fun f => by
    rw [boot, Sparse.get, Sparse.get, List.getElem?_map]
    cases b.devices[f]? with
    | none => rfl
    | some device => cases device <;> rfl
  refine ⟨⟨⟨fun _ _ => ?_, fun _ _ => ?_, fun _ _ => nofun, fun f => ?_, fun _ => nofun⟩, fun _ _ =>
    ⟨rfl, rfl⟩, fun f space hspace => ?_⟩, nofun⟩
  · exact iff_of_false nofun nofun
  · exact iff_of_false nofun nofun
  · rw [hget, Option.map_map]
    rfl
  · rw [hget] at hspace
    obtain ⟨device, hdevice, rfl⟩ := Option.map_eq_some_iff.1 hspace
    exact b.template_quiet f device hdevice

/-- Driving a pin high makes the function contribute to the lines that its root pin is routed to. -/
theorem sources_driveIntx (b : Board) (s : State) (f : Nat) :
    (∀ irq, (b.route s f).irq = some irq → (b.driveIntx s f true).irqSources irq f = true) ∧
      ∀ gsi, (b.route s f).gsi = some gsi → (b.driveIntx s f true).gsiSources gsi f = true := by
  unfold driveIntx
  constructor
  · intro irq hirq
    simp [hirq, Sources.move, Sources.set]
  · intro gsi hgsi
    simp [hgsi, Sources.move, Sources.set]

/-- In every run from power-on all states are sound, exactly if no rerouting write on Q35 comes
upon an absent function that would assert a pin that is connected. And driving a pin high always
reaches the lines that are routed then. -/
theorem sound_iff_spares (b : Board) (rcba : Nat → BitVec 8) (ops : List Op)
    (hops : ∀ op ∈ ops, b.Allows op) : (∀ s f,
      (∀ irq, (b.route s f).irq = some irq → (b.driveIntx s f true).irqSources irq f = true) ∧
      ∀ gsi, (b.route s f).gsi = some gsi → (b.driveIntx s f true).gsiSources gsi f = true) ∧
    (Runs.Each b.step (fun m op => (b.step m op).state.Sound) (b.boot rcba) ops ↔
      Runs.Each b.step b.Spares (b.boot rcba) ops) := by
  refine ⟨sources_driveIntx b, ?_⟩
  refine Runs.each_iff (I := b.Orderly) (fun m op hop h hs => ?_) (fun m op hop h hsound => ?_) hops
    (b.orderly_boot rcba)
  · have hstep := h.step hop hs
    exact ⟨hstep, hstep.1.sound⟩
  · exact h.spares hop hsound

/-! A Q35 machine with a root port at `00:1c.0` and a card behind it. -/

/-- A conventional space with an interrupt pin. -/
def pinSpace (pin : BitVec 8) : Space :=
  Space.setByte ⟨fun _ => 0, 256⟩ 0x3D pin

def sampleDevice (pin : BitVec 8) (behind : Option Nat) : Device where
  pciSecondaryBus := behind
  pciExpressDownstream := behind.isSome
  pciBars := []
  pciRomSize := 0
  pciRomAddress := 0
  template := pinSpace pin

def sampleDevices : Sparse Device :=
  ofEntries [(0xE0, sampleDevice 1 (some 1)), (0xF8, sampleDevice 0 none),
    (0x100, sampleDevice 1 none)]

theorem sampleDevices_template {f : Nat} {device : Device} (h : sampleDevices.get f = some device) :
    device.template.byteLength = 256 ∧ device.template.interrupt = false := by
  rcases get_assign_eq h with hmem | hnil
  · simp only [mem_cons, not_mem_nil, or_false, Prod.mk.injEq] at hmem
    rcases hmem with ⟨-, rfl⟩ | ⟨-, rfl⟩ | ⟨-, rfl⟩ <;> exact ⟨rfl, by decide⟩
  · cases hnil

def sampleBoard : Board where
  chipset := .q35
  devices := sampleDevices
  bridgeForBus := [none, some 0xE0]
  bridgesOn bus := if bus = 0 then [0xE0] else []
  depth f := if f = 0xE0 then 0 else 1
  depth_lt f bridge h := by
    have hbus : f >>> 8 = 1 ∧ bridge = 0xE0 := by
      generalize f >>> 8 = bus at h
      match bus, h with
      | 1, h => exact ⟨rfl, (Option.some.inj h).symm⟩
    rw [Nat.shiftRight_eq_div_pow] at hbus
    rw [if_pos hbus.2, if_neg (by omega)]
    decide
  template_length _ _ h := .inl (sampleDevices_template h).1
  isaBridge_isSome := by decide +kernel
  template_quiet _ _ h := (sampleDevices_template h).2

/-- A card raises its pin, is rerouted, lowers its pin and is pulled out: it asserts nothing it should
not. -/
theorem sound_rerouted : Runs.Each sampleBoard.step
    (fun m op => (sampleBoard.step m op).state.Sound) (sampleBoard.boot fun _ => 0)
    [.raiseIrq 0x100, .rcbaWrite 0x3146 0, .lowerIrq 0x100,
      .setFunctionPresent 0x100 false false []] := by
  refine (sound_iff_spares sampleBoard (fun _ => 0) _ ?_).2.2 ⟨nofun, ?_, nofun, nofun, trivial⟩
  · intro op hop
    simp only [mem_cons, not_mem_nil, or_false] at hop
    rcases hop with rfl | rfl | rfl | rfl
    · exact (by decide +kernel : (sampleBoard.devices.get 0x100).isSome)
    · exact (rfl : sampleBoard.chipset = .q35)
    · exact (by decide +kernel : (sampleBoard.devices.get 0x100).isSome)
    · exact ⟨(by decide +kernel : (sampleBoard.devices.get 0x100).isSome), by decide⟩
  · -- no function is off the bus when the guest reroutes
    intro _ f habsent
    have hnone : (sampleBoard.step (sampleBoard.boot fun _ => 0) (.raiseIrq 0x100)).state.absent =
        [] := by
      decide +kernel
    rw [State.isAbsent, hnone] at habsent
    cases habsent

/-- The card raises its pin and is pulled out, then the guest writes the route of device 28: the
card asserts an input of the IOAPIC. -/
theorem absent_asserts : ¬∀ (b : Board) (rcba : Nat → BitVec 8) (ops : List Op),
    (∀ op ∈ ops, b.Allows op) →
      Runs.Each b.step (fun m op => (b.step m op).state.Sound) (b.boot rcba) ops := by
  intro h
  obtain ⟨-, -, hsound, -⟩ := h sampleBoard (fun _ => 0)
    [.raiseIrq 0x100, .setFunctionPresent 0x100 false false [], .rcbaWrite 0x3146 0] (by
      intro op hop
      simp only [mem_cons, not_mem_nil, or_false] at hop
      rcases hop with rfl | rfl | rfl
      · exact (by decide +kernel : (sampleBoard.devices.get 0x100).isSome)
      · exact ⟨(by decide +kernel : (sampleBoard.devices.get 0x100).isSome), by decide⟩
      · exact (rfl : sampleBoard.chipset = .q35))
  generalize hm : sampleBoard.step (sampleBoard.step (sampleBoard.step (sampleBoard.boot fun _ => 0)
    (.raiseIrq 0x100)) (.setFunctionPresent 0x100 false false [])) (.rcbaWrite 0x3146 0) = m at hsound
  have hstate : (m.state.assertedGsis.get 0x100, m.state.isAbsent 0x100) = (some 16, true) := by
    rw [← hm]
    decide +kernel
  obtain ⟨hgsi, habsent⟩ := Prod.mk.inj hstate
  have hquiet := hsound.quiet 0x100 (.inr (.inr habsent))
  rw [hgsi] at hquiet
  cases hquiet.2

end Board
end V86.Pci
