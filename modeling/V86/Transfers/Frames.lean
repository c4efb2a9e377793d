import V86.Transfers.Returns
import V86.Transfers.LongReturns

/-!
# What the parts of a transfer leave alone

Accesses of memory change nothing of a core but its memory, and so does every part of a transfer
that only looks something up.
-/

namespace V86.Transfers

open Routine

variable {μ : Type} (bus : Bus μ)

/-- A core without its memory. -/
def Cpu.core (s : Cpu μ) : Cpu Unit := { s with memory := () }

/-- An access of memory changes nothing of the core. -/
theorem access_keeps {α : Type} (f : μ → Except Fault α × μ) : Keeps Cpu.core (access f) := by
  refine ⟨fun s => ?_⟩
  simp only [access, sat_bind, sat_get, sat_set]
  rcases f s.memory with ⟨_ | _, memory⟩
  · rw [sat_throw]
    rfl
  · rw [sat_pure]
    rfl

section

variable {s s' : Cpu μ} (h : s'.core = s.core)
include h

theorem Cpu.cpl_of_core : s'.cpl = s.cpl := congrArg (·.cpl) h

theorem Cpu.segment_of_core : s'.segment = s.segment := congrArg (·.segment) h

theorem Cpu.flags_of_core : s'.flags = s.flags := congrArg (·.flags) h

theorem Cpu.protectedMode_of_core : s'.protectedMode = s.protectedMode :=
  congrArg (·.protectedMode) h

end

theorem readSystem_keeps (width : Nat) (address : BitVec 64) :
    Keeps Cpu.core (bus.readSystem width address) := access_keeps _

theorem writeSystem_keeps (width : Nat) (address value : BitVec 64) :
    Keeps Cpu.core (bus.writeSystem width address value) := access_keeps _

theorem readCode_keeps (width : Nat) (address : BitVec 64) (stack : Bool) :
    Keeps Cpu.core (bus.readCode width address stack) := .bind .get fun _ => access_keeps _

theorem readStack_keeps (width : Nat) (address : BitVec 64) :
    Keeps Cpu.core (readStack bus width address) := readCode_keeps bus width address true

theorem stackSelector_keeps (offset : BitVec 32) : Keeps Cpu.core (stackSelector bus offset) :=
  .bind .get fun _ => .bind (readCode_keeps ..) fun _ => .pure _

/-- A slot of the stack is read and not popped. -/
theorem stackSlot_keeps (is16 : Bool) (offset : BitVec 32) :
    Keeps Cpu.core (stackSlot bus is16 offset) := by
  refine .bind .get fun _ => ?_
  cases is16 with
  | false => exact .bind (readCode_keeps ..) fun _ => .pure _
  | true => exact .bind (.bind (readCode_keeps ..) fun _ => .pure _) fun _ => .pure _

theorem lookupSegmentSelector_keeps (selector : BitVec 16) :
    Keeps Cpu.core (lookupSegmentSelector bus selector) := by
  unfold lookupSegmentSelector
  refine .ite (.pure _) (.bind .get fun s => .ite (.pure _) ?_)
  exact .bind (readSystem_keeps ..) fun _ => .pure _

theorem writeDescriptorAccessByte_keeps (address : BitVec 64) (accessByte : BitVec 8) :
    Keeps Cpu.core (writeDescriptorAccessByte bus address accessByte) :=
  .bind .get fun _ => writeSystem_keeps ..

theorem checkStackSegment_keeps (selector : BitVec 16) (d : Descriptor) (cpl : BitVec 8) :
    Keeps (Cpu.core (μ := μ)) (checkStackSegment selector d cpl) :=
  .bind (.require ..) fun _ => .require ..

theorem descriptor_keeps (selector : BitVec 16) : Keeps Cpu.core (descriptor bus selector) := by
  refine .bind (.require ..) fun _ => .bind .get fun s => ?_
  refine .bind (.require ..) fun _ => .bind (readSystem_keeps ..) fun _ => .pure _

theorem markAccessed_keeps (d : Descriptor) (address : BitVec 64) :
    Keeps Cpu.core (markAccessed bus d address) :=
  .ite (writeSystem_keeps ..) (.pure _)

/-- The checks of a return change nothing of the core. -/
theorem checkReturnCode_keeps (selector : BitVec 16) :
    Keeps Cpu.core (checkReturnCode bus selector) := by
  refine .bind (lookupSegmentSelector_keeps bus selector) fun found => ?_
  rcases found with (_ | _) | ⟨d, address⟩
  · exact .throw _
  · exact .throw _
  · refine .bind .get fun s => .bind (.require ..) fun _ => .bind (.require ..) fun _ => ?_
    refine .bind (.require ..) fun _ => .bind (.require ..) fun _ => .bind (.require ..) fun _ => ?_
    exact .pure d

/-- Those of the outer stack do not either. -/
theorem checkOuterStack_keeps (selector : BitVec 16) (newCpl : BitVec 8) :
    Keeps Cpu.core (checkOuterStack bus selector newCpl) := by
  refine .bind (lookupSegmentSelector_keeps bus selector) fun found => ?_
  rcases found with (_ | _) | ⟨d, address⟩
  · exact .throw _
  · exact .throw _
  · exact checkStackSegment_keeps selector d newCpl

end V86.Transfers
