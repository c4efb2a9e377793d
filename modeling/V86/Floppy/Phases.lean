import V86.Floppy.Controller

/-!
# The phases of the floppy controller

Between two commands the controller waits for a byte of the guest or has one to give out
(`Waits`). Every command but READ and WRITE ends so, and so does every reset.
-/

namespace V86.Floppy

/-- In the command phase the controller takes a byte; in the result phase it has one to give. -/
def FloppyController.Waits (c : FloppyController) : Prop :=
  match c.cmdPhase with
  | .command => c.rqm = true ∧ c.dio = false
  | .execution => False
  | .result => c.rqm = true ∧ c.dio = true ∧ c.responseCursor < c.responseData.length

/-- The command has failed: its response has `SR0_ABNTERM`. -/
structure FloppyController.Aborted (c : FloppyController) : Prop where
  phase : c.cmdPhase = .result
  status : (c.responseData.getD 0 0).getLsbD 6 = true

namespace FloppyController

variable {c : FloppyController}

theorem waits_enterCommandPhase : c.enterCommandPhase.Waits := by
  constructor
  · simp [enterCommandPhase, rqm]
  · simp [enterCommandPhase, dio]

theorem waits_enterResultPhase {byte : Byte} {response : List Byte} :
    (c.enterResultPhase (byte :: response)).Waits := by
  refine ⟨?_, ?_, Nat.succ_pos _⟩
  · simp [enterResultPhase, rqm]
  · simp [enterResultPhase, dio]

/-- The phase, the main status register and the response are the same. -/
structure SamePhase (c c' : FloppyController) : Prop where
  phase : c'.cmdPhase = c.cmdPhase
  msr : c'.msr = c.msr
  data : c'.responseData = c.responseData
  cursor : c'.responseCursor = c.responseCursor

theorem Waits.same {c' : FloppyController} (h : c.Waits) (hsame : SamePhase c c') : c'.Waits := by
  unfold Waits rqm dio at h ⊢
  rw [hsame.phase, hsame.msr, hsame.data, hsame.cursor]
  exact h

theorem waits_endReadWrite (status0 status1 status2 : Byte) :
    (c.endReadWrite status0 status1 status2).Waits :=
  waits_enterResultPhase.same ⟨rfl, rfl, rfl, rfl⟩

theorem aborted_endReadWrite {status0 : Byte} (h : status0.getLsbD 6 = true)
    (status1 status2 : Byte) : (c.endReadWrite status0 status1 status2).Aborted := by
  refine ⟨rfl, ?_⟩
  change BitVec.getLsbD (_ ||| status0) 6 = true
  rw [BitVec.getLsbD_or, h, Bool.or_true]

theorem waits_resetFdc : c.resetFdc.Waits := waits_enterCommandPhase.same ⟨rfl, rfl, rfl, rfl⟩

theorem waits_execSenseInterruptStatus : c.execSenseInterruptStatus.Waits := by
  unfold execSenseInterruptStatus
  dsimp only
  split
  · exact waits_enterResultPhase.same ⟨rfl, rfl, rfl, rfl⟩
  split
  · exact waits_enterResultPhase.same ⟨rfl, rfl, rfl, rfl⟩
  · exact waits_enterResultPhase

theorem waits_execFormatTrack (args : List Byte) : (c.execFormatTrack args).Waits := by
  unfold execFormatTrack
  dsimp only
  split
  · exact waits_endReadWrite ..
  · exact waits_endReadWrite ..

theorem waits_execLock : c.execLock.Waits := by
  unfold execLock
  split
  · exact waits_enterResultPhase
  · exact waits_enterResultPhase

/-! ### Accesses to the registers -/

theorem Waits.readRegFifo (h : c.Waits) : c.readRegFifo.2.Waits := by
  unfold FloppyController.readRegFifo
  dsimp only
  split
  · exact h.same ⟨rfl, rfl, rfl, rfl⟩
  split
  · exact h.same ⟨rfl, rfl, rfl, rfl⟩
  next hphase =>
  have hresult : c.cmdPhase = .result := Decidable.not_not.1 hphase
  split
  · next hlt =>
    split
    · exact waits_enterCommandPhase.same ⟨rfl, rfl, rfl, rfl⟩
    · next hne =>
      unfold Waits at h ⊢
      rw [hresult] at h
      change match c.cmdPhase with | .command => _ | .execution => _ | .result => _
      rw [hresult]
      exact ⟨h.1, h.2.1, Nat.lt_of_le_of_ne hlt hne⟩
  · exact h.same ⟨rfl, rfl, rfl, rfl⟩

/-- While a transfer is outstanding the FIFO gives out nothing. -/
theorem readRegFifo_execution (h : c.cmdPhase = .execution) : c.readRegFifo.2 = c.powerUp := by
  unfold readRegFifo
  dsimp only
  split
  · rfl
  · exact congrArg Prod.snd (if_pos fun hresult => Phase.noConfusion (h.symm.trans hresult))

theorem writeRegDor_cases (dorByte : Byte) :
    (c.writeRegDor dorByte).Waits ∨ SamePhase c (c.writeRegDor dorByte) := by
  unfold writeRegDor
  dsimp only
  split
  · exact .inl (waits_resetFdc.same ⟨rfl, rfl, rfl, rfl⟩)
  · exact .inr ⟨rfl, rfl, rfl, rfl⟩

theorem writeRegDsr_cases (dsrByte : Byte) :
    (c.writeRegDsr dsrByte).Waits ∨ SamePhase c (c.writeRegDsr dsrByte) := by
  unfold writeRegDsr
  dsimp only
  split
  · exact .inr ⟨rfl, rfl, rfl, rfl⟩
  by_cases hdown : dsrByte.getLsbD 6 = true
  · rw [if_pos hdown]
    exact .inl (waits_resetFdc.same ⟨rfl, rfl, rfl, rfl⟩)
  · rw [if_neg hdown]
    split
    · exact .inl (waits_resetFdc.same ⟨rfl, rfl, rfl, rfl⟩)
    · exact .inr ⟨rfl, rfl, rfl, rfl⟩

end FloppyController

end V86.Floppy
