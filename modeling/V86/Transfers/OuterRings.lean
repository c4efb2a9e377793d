import V86.Transfers.Frames

/-!
# What a return to an outer ring leaves loaded

A data segment may stay loaded across a return to an outer ring if it is null, conforming code or
of a ring no further in, and `SS` is one of the ring that is returned to. Outside of IA-32e mode every return
sees to that: it makes the other data segments null, and `switch_seg`, which loads `SS` and the segments
of a new task, checks the ring.
-/

namespace V86.Transfers

open Routine

variable {μ : Type} (bus : Bus μ) {s s' : Cpu μ}

/-! ## Segments a ring may hold -/

/-- A segment for data that code at `cpl` may have loaded: none, conforming code, or one of its own
ring or one further out. -/
def Segment.HeldAt (seg : Segment) (cpl : BitVec 8) : Prop :=
  seg.isNull = true ∨ (seg.access &&& 8 = 8 ∧ seg.access &&& 4 = 4) ∨ cpl ≤ seg.access >>> 5 &&& 3

/-- A stack segment of the ring `cpl`. -/
def Segment.StackAt (seg : Segment) (cpl : BitVec 8) : Prop :=
  seg.access >>> 5 &&& 3 = cpl ∧ Selector.rpl seg.selector = cpl

instance (seg : Segment) (cpl : BitVec 8) : Decidable (seg.HeldAt cpl) :=
  inferInstanceAs (Decidable (_ ∨ _ ∨ _))

instance (seg : Segment) (cpl : BitVec 8) : Decidable (seg.StackAt cpl) :=
  inferInstanceAs (Decidable (_ ∧ _))

/-- The segment registers for data besides `SS`. -/
def dataRegs : List SegReg := [.ES, .DS, .FS, .GS]

/-- Protected mode, outside of virtual-8086 mode: segments have descriptors. -/
def Cpu.InRings (s : Cpu μ) : Prop := s.protectedMode = true ∧ s.vm86Mode = false

instance (s : Cpu μ) : Decidable s.InRings := inferInstanceAs (Decidable (_ ∧ _))

theorem Descriptor.setAccessed_accessByte (d : Descriptor) :
    d.setAccessed.accessByte = d.accessByte ||| 1 := by
  rw [accessByte, setAccessed, accessByte, BitVec.ushiftRight_or_distrib, BitVec.setWidth_or]
  rfl

/-- The accessed bit says nothing of the ring. -/
theorem ring_or_one (access : BitVec 8) :
    (access ||| 1) >>> 5 &&& (3 : BitVec 8) = access >>> 5 &&& 3 ∧
      (access ||| 1) &&& 8 = access &&& 8 ∧ (access ||| 1) &&& 4 = access &&& 4 := by
  revert access
  decide

/-! ## `switch_seg` -/

/-- The part of a core that says which segments its ring has loaded. -/
def Cpu.rings (s : Cpu μ) : (SegReg → Segment) × BitVec 8 × BitVec 32 × Bool :=
  (s.segment, s.cpl, s.flags, s.protectedMode)

theorem Cpu.rings_of_core (h : s'.core = s.core) : s'.rings = s.rings :=
  congrArg (fun c : Cpu Unit => (c.segment, c.cpl, c.flags, c.protectedMode)) h

/-- What `switch_seg` leaves. -/
structure Switched (reg : SegReg) (s s' : Cpu μ) : Prop where
  cpl : s'.cpl = s.cpl
  flags : s'.flags = s.flags
  protectedMode : s'.protectedMode = s.protectedMode
  others : ∀ r, r ≠ reg → s'.segment r = s.segment r
  stack : s.InRings → reg = .SS → (s'.segment reg).StackAt s.cpl
  data : s.InRings → reg ≠ .SS → (s'.segment reg).HeldAt s.cpl

variable {t : Cpu μ} {reg : SegReg} {selector : BitVec 16} {d : Descriptor}

/-- A segment written, with no rings to speak of or as the ring may have it. -/
theorem Switched.set (ht : t.rings = s.rings) (seg : Segment)
    (stack : s.InRings → reg = .SS → seg.StackAt s.cpl)
    (data : s.InRings → reg ≠ .SS → seg.HeldAt s.cpl) : Switched reg s (t.setSegment reg seg) := by
  simp only [Cpu.rings, Prod.mk.injEq] at ht
  obtain ⟨hseg, hcpl, hflags, hprot⟩ := ht
  refine ⟨hcpl, hflags, hprot, fun r hr => ?_, fun hs hr => ?_, fun hs hr => ?_⟩
  · rw [← hseg]
    exact Function.update_of_ne hr ..
  · simpa [Cpu.setSegment] using stack hs hr
  · simpa [Cpu.setSegment] using data hs hr

/-- A descriptor that passed the checks of `switch_seg` for `reg`. -/
structure Descriptor.FitFor (d : Descriptor) (reg : SegReg) (selector : BitVec 16) (cpl : BitVec 8) :
    Prop where
  stack : reg = .SS → d.dpl = cpl ∧ Selector.rpl selector = cpl
  data : reg ≠ .SS → d.isConformingExecutable = true ∨ cpl ≤ d.dpl

theorem checkStackSegment_spec (selector : BitVec 16) (d : Descriptor) (cpl : BitVec 8) :
    Sat (checkStackSegment selector d cpl) t
      (fun _ t' => t' = t ∧ d.FitFor .SS selector cpl) fun _ _ => True := by
  rw [checkStackSegment, sat_bind, sat_require, sat_require]
  split
  case isFalse => trivial
  case isTrue h =>
    split
    case isFalse => trivial
    case isTrue =>
      simp only [Bool.not_eq_true', Bool.or_eq_false_iff, decide_eq_false_iff_not, not_not] at h
      exact ⟨rfl, fun _ => ⟨h.2, h.1.1.2⟩, fun h => absurd rfl h⟩

theorem checkDataSegment_spec (hreg : reg ≠ .SS) (selector : BitVec 16) (d : Descriptor)
    (cpl : BitVec 8) : Sat (checkDataSegment selector d cpl) t
      (fun _ t' => t' = t ∧ d.FitFor reg selector cpl) fun _ _ => True := by
  rw [checkDataSegment, sat_bind, sat_require, sat_require]
  split
  case isFalse => trivial
  case isTrue h =>
    split
    case isFalse => trivial
    case isTrue =>
      refine ⟨rfl, fun h => absurd h hreg, fun _ => ?_⟩
      simp only [Bool.not_eq_true', Bool.or_eq_false_iff, Bool.and_eq_false_iff,
        Bool.not_eq_false', decide_eq_false_iff_not, BitVec.not_lt] at h
      exact h.2.imp_right And.right

/-- The cached descriptor of one that fits. -/
theorem Switched.cache (ht : t.rings = s.rings) (h : d.FitFor reg selector s.cpl) :
    Switched reg s (t.cacheDescriptor reg selector d) := by
  refine .set ht _ (fun _ hr => h.stack hr) fun _ hr => .inr ?_
  refine (h.data hr).imp_left fun hc => ?_
  simpa [Descriptor.isConformingExecutable, Descriptor.isDc, Descriptor.isExecutable,
    and_comm] using hc

theorem Descriptor.FitFor.setAccessed {cpl : BitVec 8}
    (h : d.FitFor reg selector cpl) : d.setAccessed.FitFor reg selector cpl := by
  obtain ⟨hdpl, hexec, hdc⟩ := ring_or_one d.accessByte
  refine ⟨fun hr => ?_, fun hr => ?_⟩
  · rw [dpl, setAccessed_accessByte, hdpl]
    exact h.stack hr
  · rw [isConformingExecutable, isDc, isExecutable, dpl, setAccessed_accessByte, hdpl, hexec, hdc]
    exact h.data hr

theorem cacheAccessed_spec (address : BitVec 64) (ht : t.rings = s.rings)
    (h : d.FitFor reg selector s.cpl) :
    Sat (if d.accessed = true then modify (·.cacheDescriptor reg selector d)
      else do
        writeDescriptorAccessByte bus address d.setAccessed.accessByte
        modify (·.cacheDescriptor reg selector d.setAccessed)) t
      (fun _ s' => Switched reg s s') fun _ _ => True := by
  split
  · rw [sat_modify]
    exact .cache ht h
  · refine (writeDescriptorAccessByte_keeps bus address _).sat_bind fun _ t' ht' => ?_
    rw [sat_modify]
    exact .cache ((Cpu.rings_of_core ht').trans ht) h.setAccessed

theorem Switched.real (hmode : ¬ s.InRings) (reg : SegReg) (selector : BitVec 16) :
    Switched reg s (s.switchRealSeg reg selector) := by
  have hseg (stackSize32 : Bool) : Switched reg s
      { (s.setSegment reg { s.segment reg with selector, isNull := false }).setOffset reg
        (selector.setWidth 32 <<< 4) with stackSize32 } := by
    refine ⟨rfl, rfl, rfl, fun r hr => ?_, fun h => absurd h hmode, fun h => absurd h hmode⟩
    simp [Cpu.setOffset, Cpu.setSegment, Function.update_of_ne hr]
  rw [Cpu.switchRealSeg]
  split
  · exact hseg false
  · exact hseg s.stackSize32

theorem switchSeg_spec (reg : SegReg) (selector : BitVec 16) :
    Sat (switchSeg bus reg selector) s (fun _ s' => Switched reg s s') fun _ _ => True := by
  rw [switchSeg, sat_bind, sat_get, sat_ite]
  split
  case isTrue hmode =>
    refine (sat_modify _).2 (.real (fun h => ?_) reg selector)
    simp [h.1, h.2] at hmode
  case isFalse =>
    refine (lookupSegmentSelector_keeps bus selector).sat_bind fun found s₁ h₁ => ?_
    have hrings := Cpu.rings_of_core h₁
    rcases found with (_ | _) | ⟨d, address⟩
    · dsimp only
      split
      · exact (sat_throw _).2 trivial
      case isFalse hreg =>
        rw [sat_modify]
        exact .set hrings _ (fun _ hr => absurd hr hreg) fun _ _ => .inl rfl
    · exact (sat_throw _).2 trivial
    · dsimp only
      split
      case isTrue hreg =>
        subst hreg
        rw [sat_bind]
        refine (checkStackSegment_spec selector d s.cpl).mono (fun _ t ht => ?_) fun _ _ h => h
        rw [sat_bind, sat_modify]
        exact cacheAccessed_spec bus address (ht.1 ▸ hrings) ht.2
      case isFalse hreg =>
        rw [sat_bind]
        refine (checkDataSegment_spec hreg selector d s.cpl).mono (fun _ t ht => ?_) fun _ _ h => h
        exact cacheAccessed_spec bus address (ht.1 ▸ hrings) ht.2

/-! ## After the return -/

/-- No segment of a more privileged ring is loaded. -/
def Cpu.NoInnerSegment (s : Cpu μ) : Prop :=
  (∀ reg ∈ dataRegs, (s.segment reg).HeldAt s.cpl) ∧ (s.segment .SS).StackAt s.cpl

instance (s : Cpu μ) : Decidable s.NoInnerSegment := inferInstanceAs (Decidable (_ ∧ _))

/-- Two cores that differ in `CS` at most, as far as rings go. -/
structure SameBesidesCode (s s' : Cpu μ) : Prop where
  cpl : s'.cpl = s.cpl
  flags : s'.flags = s.flags
  protectedMode : s'.protectedMode = s.protectedMode
  segment : ∀ reg, reg ≠ .CS → s'.segment reg = s.segment reg

theorem SameBesidesCode.noInnerSegment (h : SameBesidesCode s s') (hs : s.NoInnerSegment) :
    s'.NoInnerSegment := by
  refine ⟨fun reg hreg => ?_, ?_⟩
  · rw [h.cpl, h.segment reg (by rintro rfl; simp [dataRegs] at hreg)]
    exact hs.1 reg hreg
  · rw [h.cpl, h.segment .SS nofun]
    exact hs.2

/-- `CS`, its base and size, and the instruction pointer are written. -/
theorem Cpu.setCode_same (s : Cpu μ) (seg : Segment) (base : BitVec 32) (is32 csLong : Bool)
    (ip : BitVec 64) :
    SameBesidesCode s { (s.setSegment .CS seg).setOffset .CS base with is32, csLong, ip } :=
  ⟨rfl, rfl, rfl, fun _ h => by simp [setOffset, setSegment, Function.update_of_ne h]⟩

theorem Cpu.dropInner_self (s : Cpu μ) (reg : SegReg) :
    ((s.dropInner reg).segment reg).HeldAt s.cpl := by
  simp only [dropInner]
  split
  case isTrue => exact .inl (by simp [setSegment])
  case isFalse h =>
    rw [not_and_or, not_not, BitVec.not_lt] at h
    exact .inr h.symm

theorem Cpu.dropInner_of_ne (s : Cpu μ) {r : SegReg} (h : r ≠ reg) :
    (s.dropInner reg).segment r = s.segment r := by
  simp only [dropInner]
  split
  · simp [setSegment, Function.update_of_ne h]
  · rfl

theorem Cpu.dropInner_rest (s : Cpu μ) (reg : SegReg) :
    (s.dropInner reg).cpl = s.cpl ∧ (s.dropInner reg).flags = s.flags ∧
      (s.dropInner reg).protectedMode = s.protectedMode := by
  simp only [dropInner]
  split <;> exact ⟨rfl, rfl, rfl⟩

/-- What dropping the inner segments of `regs` leaves. -/
structure Dropped (regs : List SegReg) (s s' : Cpu μ) : Prop where
  cpl : s'.cpl = s.cpl
  flags : s'.flags = s.flags
  protectedMode : s'.protectedMode = s.protectedMode
  held : ∀ reg ∈ regs, (s'.segment reg).HeldAt s.cpl
  others : ∀ reg, reg ∉ regs → s'.segment reg = s.segment reg

theorem dropped_foldl (regs : List SegReg) (s : Cpu μ) :
    Dropped regs s (regs.foldl Cpu.dropInner s) := by
  induction regs generalizing s with
  | nil => exact ⟨rfl, rfl, rfl, nofun, fun _ _ => rfl⟩
  | cons reg rest ih =>
    obtain ⟨hcpl, hflags, hprot⟩ := s.dropInner_rest reg
    have ih := ih (s.dropInner reg)
    refine ⟨ih.cpl.trans hcpl, ih.flags.trans hflags, ih.protectedMode.trans hprot, ?_, ?_⟩
    · intro r hr
      by_cases hrest : r ∈ rest
      · exact hcpl ▸ ih.held r hrest
      · obtain rfl := (List.mem_cons.1 hr).resolve_right hrest
        rw [List.foldl_cons, ih.others r hrest]
        exact s.dropInner_self r
    · intro r hr
      rw [List.mem_cons, not_or] at hr
      rw [List.foldl_cons, ih.others r hr.2, s.dropInner_of_ne hr.1]

/-- A return that has loaded `SS` for the new ring and dropped the inner segments. -/
theorem noInnerSegment_of_drop {u : Cpu μ} (hss : Switched .SS s s') (ht : t.rings = s'.rings)
    (hu : SameBesidesCode t.dropAllInner u) (hrings : u.InRings) : u.NoInnerSegment := by
  simp only [Cpu.rings, Prod.mk.injEq] at ht
  have h : Dropped dataRegs t t.dropAllInner := dropped_foldl dataRegs t
  have hs : s.InRings := by
    refine ⟨?_, ?_⟩
    · rw [← hss.protectedMode, ← ht.2.2.2, ← h.protectedMode, ← hu.protectedMode]
      exact hrings.1
    · rw [Cpu.vm86Mode, ← hss.flags, ← ht.2.2.1, ← h.flags, ← hu.flags]
      exact hrings.2
  have hcpl : t.cpl = s.cpl := ht.2.1.trans hss.cpl
  refine hu.noInnerSegment ⟨fun reg hreg => h.cpl ▸ h.held reg hreg, ?_⟩
  rw [h.others .SS (by decide), h.cpl, hcpl, ht.1]
  exact hss.stack hs rfl

theorem Cpu.setStackReg_rings (s : Cpu μ) (value : BitVec 32) :
    (s.setStackReg value).rings = s.rings := by
  rw [setStackReg]
  split <;> rfl

theorem Cpu.setStackReg_flags (s : Cpu μ) (value : BitVec 32) :
    (s.setStackReg value).flags = s.flags :=
  congrArg (·.2.2.1) (s.setStackReg_rings value)

theorem Cpu.returnVirtualFlags_outer (hcpl : s.cpl ≠ 0) (is16 : Bool) (newFlags : BitVec 32) :
    s.returnVirtualFlags is16 newFlags = s :=
  if_neg fun h => hcpl h.1

theorem Cpu.returnVirtualFlags_cpl (s : Cpu μ) (is16 : Bool) (newFlags : BitVec 32) :
    (s.returnVirtualFlags is16 newFlags).cpl = s.cpl := by
  rw [returnVirtualFlags]
  split <;> rfl

theorem Cpu.setStackReg_cpl (s : Cpu μ) (value : BitVec 32) : (s.setStackReg value).cpl = s.cpl :=
  congrArg (·.2.1) (s.setStackReg_rings value)

theorem Cpu.returnFlags_cpl (s : Cpu μ) (is16 : Bool) (newFlags : BitVec 32) :
    (s.returnFlags is16 newFlags).cpl = s.cpl := rfl

theorem Cpu.iretCode_same (s : Cpu μ) (selector : BitVec 16) (d : Descriptor) (eip : BitVec 32) :
    SameBesidesCode s (s.iretCode selector d eip) :=
  setCode_same ..

theorem Cpu.farReturnCode_same (s : Cpu μ) (selector : BitVec 16) (d : Descriptor)
    (eip : BitVec 32) : SameBesidesCode s (s.farReturnCode selector d eip) :=
  setCode_same ..

theorem iretProtected_spec (is16 : Bool) (newEip : BitVec 32) (newCs : BitVec 16)
    (newFlags : BitVec 32) : Sat (iretProtected bus is16 newEip newCs newFlags) s
      (fun _ s' => s.cpl < s'.cpl → s'.InRings → s'.NoInnerSegment) fun _ _ => True := by
  refine (checkReturnCode_keeps bus newCs).sat_bind fun d s₁ h₁ => ?_
  refine sat_bind_of_require fun _ => ?_
  dsimp only
  rw [sat_bind, sat_get]
  split
  case isTrue hout =>
    refine (stackSlot_keeps bus ..).sat_bind fun esp s₃ _ => ?_
    refine (stackSelector_keeps bus _).sat_bind fun ss s₄ _ => ?_
    refine (checkOuterStack_keeps bus ss _).sat_bind fun _ s₅ _ => ?_
    rw [sat_bind, sat_modify, sat_bind, sat_modify, sat_bind]
    refine (switchSeg_spec bus .SS ss).mono (fun _ s₆ h₆ => ?_) fun _ _ _ => trivial
    simp only [sat_bind, sat_modify]
    have hcpl : (s₆.setStackReg esp).cpl ≠ 0 := by
      rw [s₆.setStackReg_cpl, h₆.cpl]
      rintro (hzero : Selector.rpl newCs = 0)
      exact BitVec.not_lt_zero (hzero ▸ hout)
    rw [Cpu.returnVirtualFlags_outer hcpl]
    intro _
    exact noInnerSegment_of_drop h₆ (s₆.setStackReg_rings esp) (Cpu.iretCode_same ..)
  case isFalse hin =>
    simp only [sat_bind, sat_modify]
    refine fun hcpl => absurd hcpl ?_
    rw [(Cpu.iretCode_same ..).cpl, Cpu.returnVirtualFlags_cpl, Cpu.returnFlags_cpl,
      Cpu.adjustStackReg, Cpu.setStackReg_cpl, Cpu.cpl_of_core h₁]
    exact BitVec.lt_irrefl _

theorem iretReal_spec (is16 : Bool) (newEip : BitVec 32) (newCs : BitVec 16)
    (newFlags : BitVec 32) :
    Sat (iretReal is16 newEip newCs newFlags) s (fun _ s' => s'.cpl = s.cpl) fun _ _ => True := by
  refine sat_bind_of_require fun _ => ?_
  cases is16 with
  | false =>
    simp only [sat_bind, sat_modify, Bool.false_eq_true, if_false, Cpu.adjustStackReg,
      Cpu.setStackReg_cpl]
    rfl
  | true =>
    simp only [sat_bind, sat_modify, if_true, Cpu.adjustStackReg, Cpu.setStackReg_cpl]
    rfl

theorem or_and_right_self {w : Nat} (x y : BitVec w) : (x ||| y) &&& y = y := by
  ext i hi
  rw [BitVec.getElem_and, BitVec.getElem_or]
  cases y[i] <;> simp

theorem iretVm86_spec (newEip : BitVec 32) (newCs : BitVec 16) (newFlags : BitVec 32) :
    Sat (iretVm86 bus newEip newCs newFlags) s (fun _ s' => s'.vm86Mode = true)
      fun _ _ => True := by
  refine sat_bind_of_forall fun esp s₁ => sat_bind_of_forall fun ss s₂ => ?_
  refine sat_bind_of_forall fun es s₃ => sat_bind_of_forall fun ds s₄ => ?_
  refine sat_bind_of_forall fun fs s₅ => sat_bind_of_forall fun gs s₆ => ?_
  simp only [sat_bind, sat_modify]
  refine (switchSeg_spec bus .ES es).mono (fun _ s₇ h₇ => ?_) fun _ _ _ => trivial
  refine (switchSeg_spec bus .DS ds).mono (fun _ s₈ h₈ => ?_) fun _ _ _ => trivial
  refine (switchSeg_spec bus .FS fs).mono (fun _ s₉ h₉ => ?_) fun _ _ _ => trivial
  refine (switchSeg_spec bus .GS gs).mono (fun _ t h => ?_) fun _ _ _ => trivial
  refine (switchSeg_spec bus .SS ss).mono (fun _ t' h' => ?_) fun _ _ _ => trivial
  have hflags : t'.flags = (s₆.updateEflags newFlags).flags ||| FLAG_VM :=
    calc t'.flags = ((t.adjustStackReg (9 * 4)).writeReg32 4 esp).flags := h'.flags
      _ = t.flags := t.setStackReg_flags _
      _ = s₉.flags := h.flags
      _ = s₈.flags := h₉.flags
      _ = s₇.flags := h₈.flags
      _ = _ := h₇.flags
  exact decide_eq_true (hflags ▸ or_and_right_self _ FLAG_VM)

/-- The segments of `regs` are such as the ring may have. -/
structure Loaded (regs : List SegReg) (s : Cpu μ) : Prop where
  data : ∀ reg ∈ regs, reg ≠ .SS → (s.segment reg).HeldAt s.cpl
  stack : .SS ∈ regs → (s.segment .SS).StackAt s.cpl

theorem Switched.inRings (h : Switched reg s s') : s'.InRings ↔ s.InRings := by
  rw [Cpu.InRings, Cpu.InRings, Cpu.vm86Mode, Cpu.vm86Mode, h.flags, h.protectedMode]

/-- One more segment is loaded. -/
theorem Switched.loaded {regs : List SegReg} (h : Switched reg s s') (hs : s.InRings)
    (hregs : Loaded regs s) : Loaded (reg :: regs) s' := by
  refine ⟨fun r hr hss => ?_, fun hr => ?_⟩
  · rw [h.cpl]
    by_cases heq : r = reg
    · exact heq ▸ h.data hs (heq ▸ hss)
    · rw [h.others r heq]
      exact hregs.data r ((List.mem_cons.1 hr).resolve_left heq) hss
  · rw [h.cpl]
    by_cases heq : SegReg.SS = reg
    · exact heq ▸ h.stack hs heq.symm
    · rw [h.others .SS heq]
      exact hregs.stack ((List.mem_cons.1 hr).resolve_left heq)

/-- The segments of a new task. -/
theorem switchTaskSegs_spec (es ss ds fs gs : BitVec 16) {rest : Run μ Unit}
    (hrest : Keeps Cpu.core rest) :
    Sat (do
      switchSeg bus .ES es
      switchSeg bus .SS ss
      switchSeg bus .DS ds
      switchSeg bus .FS fs
      switchSeg bus .GS gs
      rest) s (fun _ s' => s'.InRings → s'.NoInnerSegment) fun _ _ => True := by
  rw [sat_bind]
  refine (switchSeg_spec bus .ES es).mono (fun _ s₁ h₁ => ?_) fun _ _ h => h
  rw [sat_bind]
  refine (switchSeg_spec bus .SS ss).mono (fun _ s₂ h₂ => ?_) fun _ _ h => h
  rw [sat_bind]
  refine (switchSeg_spec bus .DS ds).mono (fun _ s₃ h₃ => ?_) fun _ _ h => h
  rw [sat_bind]
  refine (switchSeg_spec bus .FS fs).mono (fun _ s₄ h₄ => ?_) fun _ _ h => h
  rw [sat_bind]
  refine (switchSeg_spec bus .GS gs).mono (fun _ s₅ h₅ => ?_) fun _ _ h => h
  refine (hrest.sat s₅).mono (fun _ s₆ h₆ hs₆ => ?_) fun _ _ _ => trivial
  have hs₅ : s₅.InRings := by
    rwa [Cpu.InRings, Cpu.vm86Mode, Cpu.flags_of_core h₆, Cpu.protectedMode_of_core h₆] at hs₆
  have hs₄ := h₅.inRings.1 hs₅
  have hs₃ := h₄.inRings.1 hs₄
  have hs₂ := h₃.inRings.1 hs₃
  have hs₁ := h₂.inRings.1 hs₂
  have hloaded : Loaded [.GS, .FS, .DS, .SS, .ES] s₅ :=
    h₅.loaded hs₄ <| h₄.loaded hs₃ <| h₃.loaded hs₂ <| h₂.loaded hs₁ <|
      h₁.loaded (h₁.inRings.1 hs₁) ⟨nofun, nofun⟩
  rw [Cpu.NoInnerSegment, Cpu.segment_of_core h₆, Cpu.cpl_of_core h₆]
  refine ⟨fun reg hreg => ?_, hloaded.stack (by decide)⟩
  exact hloaded.data reg (by revert reg; decide) (by rintro rfl; simp [dataRegs] at hreg)

theorem doTaskSwitchChecked_spec (selector : BitVec 16) (source : TaskSwitchSource) :
    Sat (doTaskSwitchChecked bus selector source) s
      (fun _ s' => s'.InRings → s'.NoInnerSegment) fun _ _ => True := by
  -- up to the first segment nothing matters
  refine sat_bind_of_forall fun found _ => sat_bind_of_forall fun _ _ => ?_
  refine sat_bind_of_forall fun _ _ => ?_
  dsimp only
  split
  case' isTrue => refine sat_bind_of_forall fun _ _ => ?_
  all_goals
    refine sat_bind_of_forall fun task _ => sat_bind_of_forall fun _ _ => ?_
    iterate 3 refine sat_bind_of_forall fun _ _ => sat_bind_of_forall fun _ _ => ?_
    refine sat_bind_of_forall fun newCpl _ => sat_bind_of_forall fun _ _ => ?_
    refine sat_bind_of_forall fun _ _ => sat_bind_of_forall fun _ _ => ?_
    exact switchTaskSegs_spec bus _ _ _ _ _ (.bind .get fun _ => .require _ _)

theorem iretChecked_spec (is16 : Bool) : Sat (iretChecked bus is16) s
      (fun _ s' => s.cpl < s'.cpl → s'.InRings → s'.NoInnerSegment) fun _ _ => True := by
  rw [iretChecked, sat_bind, sat_modify, sat_bind, sat_get]
  refine sat_bind_of_require fun _ => ?_
  refine (stackSlot_keeps bus ..).sat_bind fun newEip s₁ h₁ => ?_
  refine (stackSelector_keeps bus _).sat_bind fun newCs s₂ h₂ => ?_
  refine (stackSlot_keeps bus ..).sat_bind fun newFlags s₃ h₃ => ?_
  have h₁ := Cpu.cpl_of_core h₁
  have hcpl : s₃.cpl = s.cpl := (Cpu.cpl_of_core h₃).trans ((Cpu.cpl_of_core h₂).trans h₁)
  rw [sat_bind, sat_get, ← hcpl]
  split
  · refine (iretReal_spec ..).mono (fun _ s' h hout => ?_) fun _ _ h => h
    exact absurd (h ▸ hout) (BitVec.lt_irrefl _)
  split
  · refine sat_bind_of_forall fun backlink _ => ?_
    exact (doTaskSwitchChecked_spec bus backlink .iret).mono (fun _ _ h _ => h) fun _ _ h => h
  split
  · refine (iretVm86_spec ..).mono (fun _ s' h _ hrings => ?_) fun _ _ h => h
    exact absurd (h.symm.trans hrings.2) nofun
  · exact iretProtected_spec ..

theorem farReturnChecked_spec (eip : BitVec 32) (selector : BitVec 16) (stackAdjust : BitVec 32)
    (isOsize32 : Bool) : Sat (farReturnChecked bus eip selector stackAdjust isOsize32) s
      (fun _ s' => s.cpl < s'.cpl → s'.InRings → s'.NoInnerSegment) fun _ _ => True := by
  rw [farReturnChecked, sat_bind, sat_get]
  dsimp only
  split
  case isTrue =>
    simp only [sat_bind, sat_modify, Cpu.adjustStackReg]
    refine fun hcpl => absurd hcpl ?_
    rw [Cpu.setStackReg_cpl]
    exact BitVec.lt_irrefl _
  case isFalse =>
    refine (checkReturnCode_keeps bus selector).sat_bind fun d s₁ h₁ => ?_
    refine sat_bind_of_require fun _ => ?_
    split
    case isTrue =>
      refine ((stackSlot_keeps bus ..).mapError _).sat_bind fun esp s₂ _ => ?_
      refine ((stackSelector_keeps bus _).mapError _).sat_bind fun ss s₃ _ => ?_
      rw [sat_bind, sat_modify, sat_bind]
      refine (switchSeg_spec bus .SS ss).mono (fun _ s₄ h₄ => ?_) fun _ _ _ => trivial
      simp only [sat_bind, sat_modify]
      exact fun _ => noInnerSegment_of_drop h₄ (s₄.setStackReg_rings _) (Cpu.farReturnCode_same ..)
    case isFalse =>
      simp only [sat_bind, sat_modify]
      refine fun hcpl => absurd hcpl ?_
      rw [(Cpu.farReturnCode_same ..).cpl, Cpu.adjustStackReg, Cpu.setStackReg_cpl,
        Cpu.cpl_of_core h₁]
      exact BitVec.lt_irrefl _

end V86.Transfers
