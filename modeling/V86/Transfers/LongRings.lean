import V86.Transfers.OuterRings

/-!
# What a return of IA-32e mode leaves loaded

`far_return` and `iret` of IA-32e mode load `CS` and `SS` for the ring that they return to and leave
the other segments as they are, so that what is loaded in `ES`, `DS`, `FS` and `GS` stays loaded in an
outer ring.
-/

namespace V86.Transfers

open Routine

variable {μ : Type} (bus : Bus μ) {s s' : Cpu μ}

/-- The selector of `CS` that a return of IA-32e mode pops. -/
def returnSelector (width : Nat) : Run μ (BitVec 16) := do
  let rsp := (← get).gpr 4
  let _ ← readStack bus width rsp
  return (← readStack bus width (rsp + BitVec.ofNat 64 (width / 8))).setWidth 16

/-- What a return of IA-32e mode leaves: the ring and the stack of the selector it popped, and the
other segments as they were. -/
structure LongReturned (width : Nat) (s s' : Cpu μ) : Prop where
  ring : ∃ selector s₁, returnSelector bus width s = .ok selector s₁ ∧
    s'.cpl = Selector.rpl selector
  stack : s'.cpl ≠ s.cpl → (s'.segment .SS).StackAt s'.cpl
  data : ∀ reg ∈ dataRegs, s'.segment reg = s.segment reg

theorem Cpu.writeRip_rings (s : Cpu μ) (value : BitVec 64) : (s.writeRip value).rings = s.rings := by
  rw [writeRip]
  split <;> rfl

@[simp] theorem Cpu.writeRip_cpl (s : Cpu μ) (value : BitVec 64) : (s.writeRip value).cpl = s.cpl :=
  congrArg (·.2.1) (s.writeRip_rings value)

@[simp] theorem Cpu.writeRip_segment (s : Cpu μ) (value : BitVec 64) :
    (s.writeRip value).segment = s.segment :=
  congrArg (·.1) (s.writeRip_rings value)

@[simp] theorem Cpu.writeGpr_cpl (s : Cpu μ) (r : Fin 16) (value : BitVec 64) :
    (s.writeGpr r value).cpl = s.cpl := rfl

@[simp] theorem Cpu.writeGpr_segment (s : Cpu μ) (r : Fin 16) (value : BitVec 64) :
    (s.writeGpr r value).segment = s.segment := rfl

theorem Cpu.writeFlags64_segment (s : Cpu μ) (value : BitVec 64) :
    (s.writeFlags64 value).segment = s.segment := rfl

@[simp] theorem Cpu.installCs_cpl (s : Cpu μ) (selector : BitVec 16) (d : Descriptor)
    (privilege : BitVec 8) : (s.installCs selector d privilege).cpl = privilege := rfl

theorem Cpu.installCs_segment (s : Cpu μ) (selector : BitVec 16) (d : Descriptor)
    (privilege : BitVec 8) {reg : SegReg} (h : reg ≠ .CS) :
    (s.installCs selector d privilege).segment reg = s.segment reg :=
  Function.update_of_ne h ..

@[simp] theorem Cpu.installSs_cpl (s : Cpu μ) (long : Bool) (selector : BitVec 16)
    (d : Option Descriptor) (newCpl : BitVec 8) :
    (s.installSs long selector d newCpl).cpl = s.cpl := rfl

theorem Cpu.installSs_segment (s : Cpu μ) (long : Bool) (selector : BitVec 16)
    (d : Option Descriptor) (newCpl : BitVec 8) {reg : SegReg} (h : reg ≠ .SS) :
    (s.installSs long selector d newCpl).segment reg = s.segment reg :=
  Function.update_of_ne h ..

theorem nullStack_ring (c : BitVec 8) (h : c &&& 3 = c) :
    (0x93 ||| c <<< 5) >>> 5 &&& (3 : BitVec 8) = c := by
  revert c
  decide

theorem Selector.rpl_and (selector : BitVec 16) : rpl selector &&& 3 = rpl selector := by
  rw [rpl, show (3 : BitVec 8) = (3 : BitVec 16).setWidth 8 from rfl, ← BitVec.setWidth_and,
    BitVec.and_assoc, BitVec.and_self]

/-- `SS` is loaded for the ring. -/
theorem Cpu.installSs_stackAt (s : Cpu μ) (long : Bool) {selector : BitVec 16}
    {d : Option Descriptor} {newCpl : BitVec 8} (hrpl : Selector.rpl selector = newCpl)
    (hd : ∀ d' ∈ d, d'.dpl = newCpl) :
    ((s.installSs long selector d newCpl).segment .SS).StackAt newCpl := by
  simp only [installSs, setSegment, Function.update_self]
  refine ⟨?_, hrpl⟩
  cases d with
  | none => exact nullStack_ring newCpl (hrpl ▸ Selector.rpl_and selector)
  | some d => exact hd d rfl

theorem ne_of_mem_dataRegs {reg : SegReg} (h : reg ∈ dataRegs) : reg ≠ .CS ∧ reg ≠ .SS := by
  revert reg
  decide

theorem checkLongStack_spec {t : Cpu μ} (selector : BitVec 16) (d : Descriptor)
    (newCpl : BitVec 8) : Sat (checkLongStack selector d newCpl) t
      (fun _ t' => t' = t ∧ d.dpl = newCpl ∧ Selector.rpl selector = newCpl) fun _ _ => True := by
  refine sat_bind_of_require fun h => ?_
  rw [sat_require]
  split
  case isTrue =>
    simp only [Bool.not_eq_true', Bool.or_eq_false_iff, decide_eq_false_iff_not, not_not] at h
    exact ⟨rfl, h.1.2, h.2⟩
  case isFalse => trivial

theorem outerStack_spec (width : Nat) (discard : BitVec 16) (newCpl : BitVec 8)
    (nextRsp : BitVec 64) :
    Sat (outerStack bus width discard newCpl nextRsp) s
      (fun stack s' => s'.core = s.core ∧ match stack.2 with
        | none => newCpl = s.cpl
        | some (selector, d) => d.dpl = newCpl ∧ Selector.rpl selector = newCpl)
      fun _ _ => True := by
  rw [outerStack, sat_bind, sat_get]
  dsimp only
  split
  case isTrue =>
    refine (readStack_keeps bus ..).sat_bind fun pointer s₁ h₁ => ?_
    refine (readStack_keeps bus ..).sat_bind fun selector s₂ h₂ => ?_
    refine (descriptor_keeps bus _).sat_bind fun found s₃ h₃ => ?_
    rw [sat_bind]
    refine (checkLongStack_spec ..).mono (fun _ s₄ h₄ => ?_) fun _ _ _ => trivial
    refine sat_bind_of_require fun _ => ?_
    rw [sat_pure]
    exact ⟨h₄.1 ▸ h₃.trans (h₂.trans h₁), h₄.2⟩
  case isFalse h => exact (sat_pure _).2 ⟨rfl, not_not.1 h⟩

theorem returnSelector_of_ok {s₁ s₂ : Cpu μ} {ip popped : BitVec 64}
    (h₁ : readStack bus width (s.gpr 4) s = .ok ip s₁)
    (h₂ : readStack bus width (s.gpr 4 + BitVec.ofNat 64 (width / 8)) s₁ = .ok popped s₂) :
    returnSelector bus width s = .ok (popped.setWidth 16) s₂ ∧ s₂.core = s.core := by
  refine ⟨?_, ((readStack_keeps bus width _).of_ok h₂).trans
    ((readStack_keeps bus width _).of_ok h₁)⟩
  rw [returnSelector, bind_ok (x := get) rfl, bind_ok h₁, bind_ok h₂]
  rfl

theorem farReturn_spec (width : Nat) (discard : BitVec 16) :
    Sat (farReturn bus width discard) s (fun _ s' => LongReturned bus width s s')
      fun _ _ => True := by
  rw [farReturn, sat_bind, sat_get]
  dsimp only
  refine sat_bind_of_ok fun ip s₁ h₁ => sat_bind_of_ok fun popped s₂ h₂ => ?_
  obtain ⟨hpop, hcore⟩ := returnSelector_of_ok bus h₁ h₂
  refine (descriptor_keeps bus _).sat_bind fun found s₃ h₃ => ?_
  rw [sat_bind, sat_get]
  iterate 3 refine sat_bind_of_require fun _ => ?_
  rw [sat_bind]
  refine (outerStack_spec bus ..).mono (fun stack s₄ h₄ => ?_) fun _ _ _ => trivial
  refine (markAccessed_keeps bus ..).sat_bind fun _ s₅ h₅ => ?_
  simp only [sat_bind, sat_modify]
  have hseg : s₅.segment = s.segment :=
    Cpu.segment_of_core (h₅.trans (h₄.1.trans (h₃.trans hcore)))
  have hcpl : s₃.cpl = s.cpl := Cpu.cpl_of_core (h₃.trans hcore)
  refine ⟨⟨_, s₂, hpop, by simp⟩, fun hout => ?_, fun reg hreg => ?_⟩
  · rcases stack with ⟨rsp, _ | ⟨ssSelector, d⟩⟩
    · exact absurd (h₄.2.trans hcpl) (by simpa using hout)
    · simp [Cpu.installCs_segment]
      exact Cpu.installSs_stackAt _ _ h₄.2.2 (by simp [h₄.2.1])
  · obtain ⟨hcs, hss⟩ := ne_of_mem_dataRegs hreg
    rcases stack with ⟨rsp, _ | ⟨ssSelector, d⟩⟩
    · simp [Cpu.installCs_segment, hcs, hseg]
    · simp [Cpu.installCs_segment, Cpu.installSs_segment, hcs, hss, hseg]

theorem longStack_spec (long : Bool) (selector : BitVec 16) (newCpl : BitVec 8) :
    Sat (longStack bus long selector newCpl) s
      (fun d s' => s'.core = s.core ∧ Selector.rpl selector = newCpl ∧ ∀ d' ∈ d, d'.dpl = newCpl)
      fun _ _ => True := by
  rw [longStack]
  split
  case isTrue =>
    refine sat_bind_of_require fun h => ?_
    rw [sat_pure]
    simp only [Bool.not_eq_true', Bool.or_eq_false_iff, decide_eq_false_iff_not, not_not] at h
    refine ⟨rfl, h.2, fun d' hd' => ?_⟩
    cases hd'
  case isFalse =>
    refine (descriptor_keeps bus selector).sat_bind fun found s₁ h₁ => ?_
    rw [sat_bind]
    refine (checkLongStack_spec ..).mono (fun _ s₂ h₂ => ?_) fun _ _ _ => trivial
    rw [sat_pure]
    refine ⟨h₂.1 ▸ h₁, h₂.2.2, fun d hd => ?_⟩
    rw [← Option.mem_some_iff.1 hd]
    exact h₂.2.1

theorem iret_spec (width : Nat) :
    Sat (iret bus width) s (fun _ s' => LongReturned bus width s s') fun _ _ => True := by
  rw [iret, sat_bind, sat_get]
  refine sat_bind_of_require fun _ => ?_
  dsimp only
  refine sat_bind_of_ok fun ip s₁ h₁ => sat_bind_of_ok fun popped s₂ h₂ => ?_
  obtain ⟨hpop, hcore⟩ := returnSelector_of_ok bus h₁ h₂
  refine (readStack_keeps bus ..).sat_bind fun flags s₃ h₃ => ?_
  refine (readStack_keeps bus ..).sat_bind fun newRsp s₄ h₄ => ?_
  refine (readStack_keeps bus ..).sat_bind fun ssSelector s₅ h₅ => ?_
  rw [sat_bind, sat_modify]
  refine (descriptor_keeps bus _).sat_bind fun found s₆ h₆ => ?_
  iterate 5 refine sat_bind_of_require fun _ => ?_
  rw [sat_bind]
  refine (longStack_spec ..).mono (fun stack s₇ h₇ => ?_) fun _ _ _ => trivial
  simp only [sat_bind, sat_modify]
  have hdesc := Cpu.segment_of_core h₆
  have hreads := Cpu.segment_of_core (h₅.trans (h₄.trans (h₃.trans hcore)))
  have hseg : s₇.segment = s.segment :=
    (Cpu.segment_of_core h₇.1).trans (hdesc.trans hreads)
  refine ⟨⟨_, s₂, hpop, by simp⟩, fun _ => ?_, fun reg hreg => ?_⟩
  · simp only [Cpu.writeRip_segment, Cpu.writeGpr_segment, Cpu.writeRip_cpl, Cpu.writeGpr_cpl,
      Cpu.installSs_cpl, Cpu.installCs_cpl]
    exact Cpu.installSs_stackAt _ _ h₇.2.1 h₇.2.2
  · obtain ⟨hcs, hss⟩ := ne_of_mem_dataRegs hreg
    rw [Cpu.writeRip_segment, Cpu.writeGpr_segment, Cpu.installSs_segment _ _ _ _ _ hss,
      Cpu.installCs_segment _ _ _ _ hcs, Cpu.writeFlags64_segment, hseg]

/-! ## Every far return -/

/-- The far returns, with their operands. -/
inductive FarReturn where
  | iret (is16 : Bool)
  | farReturn (eip : BitVec 32) (selector : BitVec 16) (stackAdjust : BitVec 32) (isOsize32 : Bool)
  | longIret (width : Nat)
  | longFarReturn (width : Nat) (discard : BitVec 16)

def FarReturn.run : FarReturn → Run μ Unit
  | .iret is16 => iretChecked bus is16
  | .farReturn eip selector stackAdjust isOsize32 =>
    farReturnChecked bus eip selector stackAdjust isOsize32
  | .longIret width => Transfers.iret bus width
  | .longFarReturn width discard => Transfers.farReturn bus width discard

/-- The return completes in an outer ring. -/
structure FarReturn.Outward (r : FarReturn) (s s' : Cpu μ) : Prop where
  completes : r.run bus s = .ok () s'
  outer : s.cpl < s'.cpl
  rings : s'.InRings

/-- What is loaded before a return may stay loaded after it: a return of IA-32e mode finds in `ES`,
`DS`, `FS` and `GS` segments that the ring of the selector it pops may hold. -/
def FarReturn.Clear (s : Cpu μ) : FarReturn → Prop
  | .iret _ | .farReturn .. => True
  | .longIret width | .longFarReturn width _ => ∀ selector s₁,
    returnSelector bus width s = .ok selector s₁ →
      ∀ reg ∈ dataRegs, (s.segment reg).HeldAt (Selector.rpl selector)

theorem LongReturned.noInnerSegment_iff {width : Nat} (h : LongReturned bus width s s')
    (hout : s.cpl < s'.cpl) : s'.NoInnerSegment ↔ ∀ selector s₁,
      returnSelector bus width s = .ok selector s₁ →
        ∀ reg ∈ dataRegs, (s.segment reg).HeldAt (Selector.rpl selector) := by
  obtain ⟨selector, s₁, hpop, hcpl⟩ := h.ring
  have hne : s'.cpl ≠ s.cpl := fun heq => BitVec.lt_irrefl _ (heq ▸ hout)
  constructor
  · intro hnone selector' s₁' hpop' reg hreg
    obtain ⟨rfl, rfl⟩ := EStateM.Result.ok.inj (hpop.symm.trans hpop')
    rw [← h.data reg hreg, ← hcpl]
    exact hnone.1 reg hreg
  · intro hheld
    refine ⟨fun reg hreg => ?_, h.stack hne⟩
    rw [h.data reg hreg, hcpl]
    exact hheld selector s₁ hpop reg hreg

/-- A return that completes in an outer ring leaves no segment of a more privileged ring loaded,
exactly if none was loaded that the return keeps. -/
theorem noInnerSegment_iff_clear {r : FarReturn} (h : r.Outward bus s s') :
    s'.NoInnerSegment ↔ r.Clear bus s := by
  obtain ⟨hrun, hout, hrings⟩ := h
  cases r with
  | iret is16 =>
    exact iff_of_true ((iretChecked_spec bus is16).of_ok hrun hout hrings) trivial
  | farReturn eip selector stackAdjust isOsize32 =>
    exact iff_of_true ((farReturnChecked_spec bus ..).of_ok hrun hout hrings) trivial
  | longIret width => exact ((iret_spec bus width).of_ok hrun).noInnerSegment_iff bus hout
  | longFarReturn width discard =>
    exact ((farReturn_spec bus width discard).of_ok hrun).noInnerSegment_iff bus hout

/-! ## A kernel's data segment in user mode -/

/-- A memory of doublewords that is all there and can be written, for `decide`. -/
def flatBus : Bus (List (BitVec 64 × BitVec 32)) where
  read _ width address m :=
    let word (a : BitVec 64) : BitVec 64 := ((m.lookup a).getD 0).setWidth 64
    let value := word address ||| word (address + 4) <<< 32
    (.ok (if width = 64 then value else if width = 32 then value &&& 0xFFFFFFFF else value &&& 0xFFFF),
      m)
  write _ _ address value m := (.ok (), (address, value.setWidth 32) :: m)
  probeWrite _ _ _ m := (.ok (), m)
  setCr3 _ m := m
  deliver s := s

/-- A kernel at CPL 0 with a data segment of its own in `DS`, a code segment (`0x0B`) and a data
segment (`0x13`) of ring 3 in the GDT, and the frame of a return to them on its stack. -/
def kernel (long : Bool) : Cpu (List (BitVec 64 × BitVec 32)) where
  segment
    | .DS => ⟨0x20, false, 0xFFFFFFFF, 0x93, 0⟩
    | .CS => ⟨0x18, false, 0xFFFFFFFF, 0x9B, 0⟩
    | .SS => ⟨0x20, false, 0xFFFFFFFF, 0x93, 0⟩
    | _ => ⟨0, true, 0, 0, 0⟩
  cpl := 0
  gpr := fun r => if r = 4 then 0x2000 else 0
  ip := 0x5000
  flags := 2
  arithmetic := 0
  protectedMode := true
  is32 := !long
  stackSize32 := true
  csLong := long
  lma := long
  tssSize32 := true
  nmiBlocked := false
  interruptShadow := false
  gdtrBase := 0x1000
  gdtrSize := 0x17
  cr0 := 1
  memory :=
    let frame : List (BitVec 32) := [0x400000, 0x0B, 2, 0x8000, 0x13]
    let slot : Nat := if long then 8 else 4
    [(0x1008, 0xFFFF), (0x100C, if long then 0x00AFFB00 else 0x00CFFB00),
      (0x1010, 0xFFFF), (0x1014, 0x00CFF300)] ++
    frame.zipIdx.map fun (value, i) => (0x2000 + BitVec.ofNat 64 (slot * i), value)

/-- An `IRETQ` of the kernel's to ring 3 leaves the kernel's data segment in `DS`. -/
theorem longIret_leaves_inner :
    ∃ s', (FarReturn.longIret 64).Outward flatBus (kernel true) s' ∧ ¬ s'.NoInnerSegment := by
  obtain ⟨_, s', hrun, h⟩ := Routine.gives_iff.1 (show Routine.gives (iret flatBus 64) (kernel true)
    (fun _ s' => decide (0 < s'.cpl ∧ s'.InRings ∧ ¬ s'.NoInnerSegment)) = true by decide +kernel)
  obtain ⟨hout, hrings, hinner⟩ := of_decide_eq_true h
  exact ⟨s', ⟨hrun, hout, hrings⟩, hinner⟩

/-- The same return by `IRETD` outside of IA-32e mode. -/
theorem iret_noInnerSegment :
    ∃ s', (FarReturn.iret false).Outward flatBus (kernel false) s' ∧ s'.NoInnerSegment := by
  obtain ⟨_, s', hrun, h⟩ := Routine.gives_iff.1
    (show Routine.gives (iretChecked flatBus false) (kernel false)
      (fun _ s' => decide (0 < s'.cpl ∧ s'.InRings)) = true by decide +kernel)
  obtain ⟨hout, hrings⟩ := of_decide_eq_true h
  have houtward : (FarReturn.iret false).Outward flatBus (kernel false) s' := ⟨hrun, hout, hrings⟩
  exact ⟨s', houtward, (noInnerSegment_iff_clear flatBus houtward).2 trivial⟩

end V86.Transfers
