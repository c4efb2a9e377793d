import V86.Pci.Config

/-!
# Interrupt pins of PCI functions

`pci.js` and `q35.js`: a function drives its pin (`set_irq_level`), the bridges carry the pin to
bus 0 (`root_pin`) and the chipset connects it there to an input of the PIC and, on Q35, to one of
the IOAPIC (`irq_route`). `asserted_irq_lines` and `asserted_gsis` record what a function asserts.
The CPU keeps for each line the set of the sources that assert it.
-/

namespace V86.Pci

open Bits

/-- For each line, the functions that assert it. -/
abbrev Sources (α : Type) := α → Nat → Bool

section
variable {α : Type} [DecidableEq α]

/-- `set_shared_irq_level` and `set_shared_gsi_level`. -/
def Sources.set (sources : Sources α) (line : α) (source : Nat) (level : Bool) : Sources α :=
  fun l f => if l = line ∧ f = source then level else sources l f

/-- Release a line, if there is one. -/
def Sources.release (sources : Sources α) (line : Option α) (source : Nat) : Sources α :=
  match line with
  | some line => sources.set line source false
  | none => sources

/-- Move a source from the line it asserted to another one. -/
def Sources.move (sources : Sources α) (previous line : Option α) (source : Nat) : Sources α :=
  let sources := if previous ≠ line then sources.release previous source else sources
  match line with
  | some line => sources.set line source true
  | none => sources

end

/-- What `get_state` gives of the PCI bus. -/
structure Snapshot where
  spaces : List (Option Space)
  /-- `state[261]`: the functions behind bus 0. -/
  behind : List (Nat × Space)
  levels : List Nat
  lines : List (Nat × BitVec 8)
  gsis : List (Nat × Nat)
  absent : List Nat

/-- The spaces of a snapshot by function. -/
@[irreducible] def Snapshot.functions (state : Snapshot) : List (Nat × Option Space) :=
  (List.range 256).map (fun i => (i, state.spaces[i]?.join)) ++
    state.behind.map fun e => (e.1, some e.2)

/-- A snapshot of the machine: of PCI, of Q35 and of the CPU's lines. -/
structure Saved where
  pci : Snapshot
  rcba : Nat → BitVec 8
  irqSources : Sources (BitVec 8)
  gsiSources : Sources Nat

structure State where
  deviceSpaces : Sparse Space
  assertedIrqLines : Sparse (BitVec 8)
  assertedGsis : Sparse Nat
  intxLevels : Sparse Bool
  absent : Sparse Bool
  rcba : Nat → BitVec 8
  irqSources : Sources (BitVec 8)
  gsiSources : Sources Nat

/-- The state and the snapshots that were taken. -/
structure Machine where
  state : State
  saved : List Saved

/-- `irq_route`: the PIC's input (bit 7: not routed), and the input of the IOAPIC only. -/
structure Route where
  pic : BitVec 8
  gsi : Option Nat

/-- The input of the PIC, if there is one. -/
def Route.irq (route : Route) : Option (BitVec 8) :=
  if route.pic &&& 0x80 ≠ 0 then none else some route.pic

/-- What can happen to the pins. -/
inductive Op
  | raiseIrq (f : Nat)
  | lowerIrq (f : Nat)
  | configWrite (bdf offset size : Nat) (value : BitVec 32)
  /-- The device's `reset` drives its pin with the levels `resets`. -/
  | setFunctionPresent (f : Nat) (present fresh : Bool) (resets : List Bool)
  | rcbaWrite (offset : Nat) (value : BitVec 8)
  /-- A device stores to its own part of its configuration space. -/
  | deviceStore (f offset : Nat) (value : BitVec 8)
  | getState
  /-- Restore the `n`th snapshot. -/
  | setState (n : Nat)

namespace State

variable (s : State)

/-- The level a function drives on its pin. -/
def level (f : Nat) : Bool := (s.intxLevels.get f).getD false

/-- `get_command(f) & PCI_COMMAND_INTX_DISABLE`. -/
def disabled (f : Nat) : Bool := (s.deviceSpaces.get f).any (·.disabled)

/-- The function is not on the bus. -/
def isAbsent (f : Nat) : Bool := (s.absent.get f).getD false

/-- A byte of the configuration space of a function. -/
def byte (f o : Nat) : BitVec 8 := ((s.deviceSpaces.get f).map (·.byte o)).getD 0

/-- Changes the configuration space of a function, if it has one. -/
def modifySpace (f : Nat) (change : Space → Space) : State :=
  match s.deviceSpaces.get f with
  | some space => { s with deviceSpaces := s.deviceSpaces.put f (some (change space)) }
  | none => s

end State

namespace Board

variable (b : Board) (s : State)

/-! ## Routing -/

/-- The loop of `root_pin`. -/
def rootFrom (f : Nat) (pin : Int) : Nat × Int :=
  match _ : b.parentBridge f with
  | none => (f, pin)
  | some bridge => rootFrom bridge ((pin + (f >>> 3 &&& 0x1F : Nat)) % 4)
  termination_by b.depth f
  decreasing_by exact depth_parentBridge ‹_›

/-- `root_pin`. -/
def rootPin (f : Nat) : Nat × Int :=
  let pin : Int := (s.byte f 0x3D).toNat - 1
  if pin < 0 ∨ 3 < pin then (f, -1) else b.rootFrom f pin

/-- `piix_pirq_line`. -/
def piixPirqLine (f : Nat) (pin : Int) : BitVec 8 :=
  let device : Int := ((f >>> 3 : Nat) - 1 : Int) % 256
  let parentPin := ((pin + device) % 4).toNat
  s.byte b.chipset.isaBridge (0x60 + parentPin)

/-- `RCBA_DIR`. -/
def rcbaDir : Nat → Option Nat
  | 31 => some 0x3140
  | 29 => some 0x3144
  | 28 => some 0x3146
  | 27 => some 0x3148
  | 26 => some 0x314C
  | 25 => some 0x3150
  | _ => none

/-- The PIRQ that Q35 connects a pin of bus 0 to. -/
def pirq (slot pin : Nat) : Nat :=
  if slot ≤ 24 then 4 + (slot + pin) % 4
  else match rcbaDir slot with
    | some offset =>
      let route := s.rcba (offset + 1) ++ s.rcba offset
      (route >>> (4 * pin) &&& 7).toNat
    | none => 4 + pin

/-- `Q35.irq_route`. -/
def q35IrqRoute (f : Nat) (pin : Int) : Route :=
  if pin < 0 ∨ 3 < pin ∨ 256 ≤ f then ⟨0x80, none⟩
  else
    let pirq := pirq s (f >>> 3) pin.toNat
    let rout := s.byte b.chipset.isaBridge (if pirq < 4 then 0x60 + pirq else 0x68 + pirq - 4)
    ⟨if rout &&& 0x80 ≠ 0 then 0x80 else rout &&& 0x0F, some (16 + pirq)⟩

/-- `irq_route`, as the chipset has it. -/
def irqRoute (f : Nat) (pin : Int) : Route :=
  match b.chipset with
  | .i440fx => ⟨b.piixPirqLine s f pin, none⟩
  | .q35 => b.q35IrqRoute s f pin

/-- The lines the chipset connects to a function's pin. -/
def route (f : Nat) : Route :=
  let root := b.rootPin s f
  b.irqRoute s root.1 root.2

/-! ## Driving a pin -/

/-- `drive_intx`. -/
def driveIntx (f : Nat) (level : Bool) : State :=
  let route := b.route s f
  if level then
    { s with
      irqSources := s.irqSources.move (s.assertedIrqLines.get f) route.irq f
      assertedIrqLines := s.assertedIrqLines.put f route.irq
      gsiSources := s.gsiSources.move (s.assertedGsis.get f) route.gsi f
      assertedGsis := s.assertedGsis.put f route.gsi }
  else
    -- without a record the current routing is released
    let irq := (s.assertedIrqLines.get f).getD route.pic
    let gsi := (s.assertedGsis.get f).or route.gsi
    { s with
      irqSources := if irq &&& 0x80 ≠ 0 then s.irqSources else s.irqSources.set irq f false
      assertedIrqLines := s.assertedIrqLines.put f none
      gsiSources := s.gsiSources.release gsi f
      assertedGsis := s.assertedGsis.put f none }

/-- The interrupt status bit follows the level. -/
def showLevel (level : Bool) (space : Space) : Space :=
  space.setDword 1
    (if level then space.dwords 1 ||| bit 32 statusInterrupt
      else space.dwords 1 &&& ~~~bit 32 statusInterrupt)

/-- `set_irq_level`. -/
def setIrqLevel (f : Nat) (level : Bool) : State :=
  let s := { s with intxLevels := s.intxLevels.put f (some level) }
  let s := s.modifySpace f (showLevel level)
  b.driveIntx s f (level && !s.disabled f && !s.isAbsent f)

/-- `command_changed`. -/
def commandChanged (f : Nat) (oldCommand command : BitVec 16) : State :=
  if (oldCommand ^^^ command).getLsbD commandIntxDisable then
    b.driveIntx s f (s.level f && !command.getLsbD commandIntxDisable)
  else s

/-- `reroute_pins`. -/
def reroutePins : State :=
  s.intxLevels.entries.foldl (fun s (f, level) =>
    if level then b.driveIntx s f !s.disabled f else s) s

/-! ## Configuration writes -/

/-- What a bridge makes of an access. -/
inductive Hop
  | answer (f : Option Nat)
  | next (bus : Nat)

/-- The bridges of one bus: the loop in `route_config`. -/
def hop (bdf : Nat) : List Nat → Hop
  | [] => .answer none
  | bridge :: bridges =>
    match b.devices.get bridge, (b.devices.get bridge).bind (·.pciSecondaryBus),
      s.deviceSpaces.get bridge with
    | some device, some behind, some space =>
      let bus := bdf >>> 8
      let secondary := (space.byte 0x19).toNat
      let subordinate := (space.byte 0x1A).toNat
      if bus = secondary then
        if device.pciExpressDownstream ∧ bdf &&& 0xF8 ≠ 0 then .answer none
        else
          let f := behind <<< 8 ||| bdf &&& 0xFF
          .answer (if (s.deviceSpaces.get f).isSome ∧ s.isAbsent f = false then some f else none)
      else if secondary < bus ∧ bus ≤ subordinate then .next behind
      else hop bdf bridges
    | _, _, _ => hop bdf bridges

/-- The buses that an access passes. Each is behind the one before, and there are less than 256. -/
def hops (bdf : Nat) : Nat → Nat → Option Nat
  | 0, _ => none
  | fuel + 1, bus =>
    match hop b s bdf (b.bridgesOn bus) with
    | .answer f => f
    | .next bus => hops bdf fuel bus

/-- `route_config`. -/
def routeConfig (bdf : Nat) : Option Nat :=
  if bdf >>> 8 = 0 then some bdf else hops b s bdf 256 0

/-- `touches`. -/
def touches (offset size start stop : Nat) : Bool := offset < stop && start < offset + size

/-- The PIRQ routing registers without their reserved bits. -/
def maskRouting (space : Space) : Space :=
  (List.range 4).foldl (fun space i =>
    let space := space.setByte (0x60 + i) (space.byte (0x60 + i) &&& 0x8F)
    space.setByte (0x68 + i) (space.byte (0x68 + i) &&& 0x8F)) space

/-- The write changes the PIRQ routing. -/
def touchesRouting (offset size : Nat) : Bool :=
  touches offset size 0x60 (0x60 + 4) || touches offset size 0x68 (0x68 + 4)

/-- `update_pm_decode`, as far as it changes the register. -/
def updatePmDecode (space : Space) : Space :=
  space.setDword (0x40 / 4) (space.dwords (0x40 / 4) &&& 0xFF80 ||| 1)

/-- `update_rcba`, as far as it changes the register. -/
def updateRcba (space : Space) : Space :=
  space.setDword (0xF0 / 4) (space.dwords (0xF0 / 4) &&& ~~~0x3FFE)

/-- `lpc_config_written`. -/
def lpcConfigWritten (f offset size : Nat) : State :=
  let s := if touches offset size 0x40 (0x44 + 1) then s.modifySpace f updatePmDecode else s
  let s := if touchesRouting offset size then b.reroutePins (s.modifySpace f maskRouting) else s
  if touches offset size 0xF0 (0xF0 + 4) then s.modifySpace f updateRcba else s

/-- `on_config_write`, of the function that has the PIRQ routing registers of Q35. -/
def onConfigWrite (f offset size : Nat) : State :=
  if b.chipset = .q35 ∧ f = b.chipset.isaBridge then b.lpcConfigWritten s f offset size else s

/-- `function_write`. -/
def functionWrite (f offset size : Nat) (value : BitVec 32) : State :=
  match s.deviceSpaces.get f, b.devices.get f with
  | some space, some device =>
    if space.byteLength < offset + size then s
    else if device.barOffset offset then
      if size = 4 ∧ offset % 4 = 0 then
        s.modifySpace f fun space =>
          if offset = 0x30 then device.writeExpansionRom space value
          else device.writeBar space offset value
      else s
    else
      let (written, headerWritten) := device.writeBytes offset value (List.range size) space
      let s := s.modifySpace f fun _ => written
      let s := b.commandChanged s f space.command written.command
      if 0x40 < offset + size ∨ headerWritten then b.onConfigWrite s f offset size else s
  | _, _ => s

/-- `config_write`. -/
def configWrite (bdf offset size : Nat) (value : BitVec 32) : State :=
  match b.routeConfig s bdf with
  | some f => b.functionWrite s f offset size value
  | none => s

/-! ## Other operations -/

/-- A card arrives with its configuration space of power-on, and is reset. -/
def arrive (f : Nat) (resets : List Bool) : State :=
  match b.devices.get f with
  | some device =>
    let s := s.modifySpace f (·.set device.template)
    let s := { s with intxLevels := s.intxLevels.put f (some false) }
    resets.foldl (fun s level => b.setIrqLevel s f level) s
  | none => s

/-- `set_function_present`. -/
def setFunctionPresent (f : Nat) (present fresh : Bool) (resets : List Bool) : State :=
  let s := { s with absent := s.absent.put f (some !present) }
  let s := if present && fresh then b.arrive s f resets else s
  b.setIrqLevel s f (s.level f)

/-- `rcba_write`. -/
def rcbaWrite (offset : Nat) (value : BitVec 8) : State :=
  let s := { s with rcba := fun o => if o = offset then value else s.rcba o }
  if 0x3140 ≤ offset ∧ offset < 0x3154 then b.reroutePins s else s

/-- `get_state`. -/
def getState : Snapshot where
  spaces := (List.range 256).map s.deviceSpaces.get
  behind := s.deviceSpaces.entries.filter fun e => 256 ≤ e.1
  levels := s.intxLevels.entries.filterMap fun (f, level) => if level then some f else none
  lines := s.assertedIrqLines.entries
  gsis := s.assertedGsis.entries
  absent := s.absent.entries.filterMap fun (f, absent) => if absent then some f else none

/-- One function of `set_state`. -/
def restoreSpace (spaces : Sparse Space) (f : Nat) (space : Option Space) : Sparse Space :=
  match b.devices.get f, space, spaces.get f with
  | some device, some space, some current =>
    spaces.put f (some (current.set (device.restoreBars space)))
  | _, _, _ => spaces

/-- `set_state`. -/
def setState (state : Snapshot) : State :=
  { s with
    deviceSpaces := state.functions.foldl (fun spaces e => b.restoreSpace spaces e.1 e.2)
      s.deviceSpaces
    intxLevels := Sparse.ofEntries (state.levels.map (·, true))
    assertedIrqLines := Sparse.ofEntries state.lines
    assertedGsis := Sparse.ofEntries state.gsis
    absent := Sparse.ofEntries
      ((state.absent.filter fun f => (b.devices.get f).isSome).map (·, true)) }

/-- A snapshot of the machine. -/
def save : Saved := ⟨getState s, s.rcba, s.irqSources, s.gsiSources⟩

/-- Restore a snapshot of the machine. -/
def restore (saved : Saved) : State :=
  { b.setState s saved.pci with
    rcba := saved.rcba, irqSources := saved.irqSources, gsiSources := saved.gsiSources }

/-- One operation. -/
def step (m : Machine) : Op → Machine
  | .raiseIrq f => { m with state := b.setIrqLevel m.state f true }
  | .lowerIrq f => { m with state := b.setIrqLevel m.state f false }
  | .configWrite bdf offset size value =>
    { m with state := b.configWrite m.state bdf offset size value }
  | .setFunctionPresent f present fresh resets =>
    { m with state := b.setFunctionPresent m.state f present fresh resets }
  | .rcbaWrite offset value => { m with state := b.rcbaWrite m.state offset value }
  | .deviceStore f offset value =>
    { m with state := m.state.modifySpace f (·.setByte offset value) }
  | .getState => { m with saved := m.saved ++ [save m.state] }
  | .setState n =>
    match m.saved[n]? with
    | some saved => { m with state := b.restore m.state saved }
    | none => m

/-- What the callers of the operations keep to: functions are registered, those of a slot are behind
a bridge, accesses have 1, 2 or 4 bytes, devices store behind the header, and only Q35 has the
chipset configuration registers. -/
def Allows : Op → Prop
  | .raiseIrq f | .lowerIrq f => (b.devices.get f).isSome
  | .configWrite _ _ size _ => size = 1 ∨ size = 2 ∨ size = 4
  | .setFunctionPresent f _ _ _ => (b.devices.get f).isSome ∧ 256 ≤ f
  | .rcbaWrite _ _ => b.chipset = .q35
  | .deviceStore _ offset _ => 0x40 ≤ offset
  | .getState | .setState _ => True

/-- The board after power-on: nothing is asserted. -/
def boot (rcba : Nat → BitVec 8) : Machine where
  state :=
    { deviceSpaces := b.devices.map (·.map (·.template))
      assertedIrqLines := []
      assertedGsis := []
      intxLevels := []
      absent := []
      rcba := rcba
      irqSources := fun _ _ => false
      gsiSources := fun _ _ => false }
  saved := []

end Board
end V86.Pci
