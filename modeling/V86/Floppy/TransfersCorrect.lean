import V86.Floppy.Transfers
import V86.Floppy.Phases
import V86.Lib.Runs

/-!
# The floppy controller is never stuck

The controller waits, or it executes a READ or WRITE with one transfer outstanding (`Phased`). The
seek that validates an address lets a track, a head and a sector through that do not exist, a
transfer without DMA is never started, and a reset does not take a transfer back; where none of
this happens (`Fair`) every step is as it should be (`never_stuck`). An outstanding transfer stays
inside its image (`Transfer.Sound`), which is what the DMA controller checked when it started.
-/

namespace V86.Floppy

open List Function

open Dma (DMA Memory Pending Request Direction Move)

/-- The controller waits, or it executes a command with one transfer outstanding. -/
def Phased (s : System) : Prop :=
  if s.fdc.cmdPhase = .execution then s.outstanding.length = 1 else s.fdc.Waits

/-- The images and the memory of the guest are the same. -/
structure Kept (s s' : System) : Prop where
  memory : s'.memory = s.memory
  images : s'.images = s.images

/-- A command that ended with an abnormal termination and moved nothing. -/
structure Refused (s s' : System) : Prop where
  kept : Kept s s'
  outstanding : s'.outstanding = s.outstanding
  aborted : s'.fdc.Aborted

/-- The place in the image that a transfer starts from. -/
def startOf : Pending → Nat
  | .get _ start _ _ => start
  | .set _ start _ _ _ => start

/-- A command whose transfer was started, from the sector of the drive that it names. -/
structure Started (s s' : System) (r : ReadWrite) (d : Drive) : Prop where
  kept : Kept s s'
  named : r.Named d
  outstanding : ∃ image p, s'.outstanding = s.outstanding ++ [⟨r, d, image, 0, p⟩] ∧
    d.buffer = some image ∧ (startOf p : Int) = r.dataOffset d

/-- The transfer moves bytes between memory and its image, inside the image and from where it has
come to. -/
structure Transfer.Moves (t : Transfer) (s s' : System) (m : Move) : Prop where
  offset : (m.offset : Int) = t.command.dataOffset t.drive + t.moved
  inside : m.offset + m.data.length ≤ (s.images.getD t.image []).length
  effect : if t.command.doWrite then s'.memory = s.memory ∧
      s'.images = s.images.set t.image (splice (s.images.getD t.image []) m.offset m.data)
    else s'.images = s.images ∧ s.memory.writeBlobPhysical m.data m.address = some s'.memory ∧
      m.data = ((s.images.getD t.image []).drop m.offset).take m.data.length

/-- What may come of a completion of a transfer: its bytes are moved, and it is through, with the
heads over a sector that exists, or goes on behind them, or is refused to go on. Else it moved
nothing at all. -/
inductive Completed (s s' : System) (t : Transfer) : Prop where
  | finished (m : Move) (moves : t.Moves s s' m) (phase : s'.fdc.cmdPhase = .result)
      (stands : s'.fdc.currDrive.Stands)
  | goesOn (m : Move) (moves : t.Moves s s' m) (p : Pending)
      (mem : { t with moved := t.moved + m.data.length, pending := p } ∈ s'.outstanding)
  | stopped (m : Move) (moves : t.Moves s s' m) (aborted : s'.fdc.Aborted)
  | failed (moved : t.moved = 0) (kept : Kept s s') (aborted : s'.fdc.Aborted)

/-- A step that is as it should be. -/
structure Good (s : System) (e : Event) : Prop where
  returns : (step s e).thrown = false
  phased : Phased (step s e)
  command : ∀ byte r, e = .writeFifo byte → s.readWrite byte = some r →
    Started s (step s e) r (s.sought r).1 ∨ Refused s (step s e)
  completed : ∀ i t, e = .complete i → s.outstanding[i]? = some t → Completed s (step s e) t

/-! ## Fair runs -/

/-- The command is not refused before it comes to its transfer. -/
def System.Reaches (s : System) (r : ReadWrite) : Prop :=
  (s.sought r).2 ≠ .invalidTrack ∧ (s.sought r).2 ≠ .invalidSector ∧
    ¬(r.sectSize ≠ 128 ∧ r.dataLength s.fdc.multiTrack ≤ 0) ∧
    (r.doWrite && (s.sought r).1.readOnly) = false

/-- The DMA controller refuses the transfer of a command at once. -/
def System.DmaRefuses (s : System) (r : ReadWrite) : Prop :=
  ∀ image, (s.sought r).1.buffer = some image →
    s.dmaAccepts r image (r.dataOffset (s.sought r).1) (r.dataLength s.fdc.multiTrack).toNat = false

/-- The completion of the transfer is its last. -/
def Transfer.Last (t : Transfer) : Prop :=
  match t.pending with
  | .get .. => True
  | .set _ _ _ _ more => more = none

/-- The heads are over the last sector of the last track. -/
def FloppyController.AtEnd (c : FloppyController) : Prop :=
  let d := c.currDrive
  d.currTrack + 1 = d.maxTrack ∧ (d.currSect = d.maxSect ∨ d.currSect = c.eot) ∧
    ¬(c.multiTrack = true ∧ d.currHead = 0 ∧ d.maxHead = 2)

/-- A READ or WRITE that comes to its transfer is one with DMA, of a sector that exists, with none
outstanding; the heads are over a sector that exists, not at the end of the disk, when a transfer
is through. -/
def Fair (s : System) : Event → Prop
  | .writeFifo byte => ∀ r, s.readWrite byte = some r → s.Reaches r →
      s.fdc.dmaen = true ∧ (s.DmaRefuses r ∨ r.Named (s.sought r).1 ∧ s.outstanding = [])
  | .complete i => ∀ t, s.outstanding[i]? = some t → t.Last →
      s.fdc.currDrive.Stands ∧ ¬s.fdc.AtEnd
  | _ => True

/-! ## The next sector -/

variable {d : Drive} {epoch image i address len : Nat} {p : Pending} {s s' : System} {t : Transfer}
  {r : ReadWrite} {f : FloppyController → FloppyController}

theorem hasSector_nextSect {eot : Nat} {multiTrack : Bool} (h : d.Stands)
    (hend : ¬(d.currTrack + 1 = d.maxTrack ∧ (d.currSect = d.maxSect ∨ d.currSect = eot) ∧
      ¬(multiTrack = true ∧ d.currHead = 0 ∧ d.maxHead = 2))) :
    d.HasSector (FloppyController.nextSect eot multiTrack d).2.1
      (FloppyController.nextSect eot multiTrack d).1
      (FloppyController.nextSect eot multiTrack d).2.2.1 := by
  obtain ⟨htrack, hhead, hsect, hle⟩ := h
  have hone : 1 ≤ d.maxSect := Nat.le_trans hsect hle
  rw [FloppyController.nextSect]
  split
  · next hlast =>
    have hlast : d.currSect = d.maxSect ∨ d.currSect = eot :=
      hlast.imp_left fun h => Nat.le_antisymm hle h
    split
    · split
      · next hside =>
        refine ⟨htrack, ?_, Nat.le_refl 1, hone⟩
        change 1 < d.maxHead
        omega
      · next hmulti hside =>
        have hnext : d.currTrack + 1 ≠ d.maxTrack := fun h =>
          hend ⟨h, hlast, fun h => hside h.2⟩
        refine ⟨?_, ?_, Nat.le_refl 1, hone⟩
        · change d.currTrack + 1 < d.maxTrack
          omega
        · change 0 < d.maxHead
          omega
    · next hmulti =>
      have hnext : d.currTrack + 1 ≠ d.maxTrack := fun h => hend ⟨h, hlast, fun h => hmulti h.1⟩
      refine ⟨?_, hhead, Nat.le_refl 1, hone⟩
      change d.currTrack + 1 < d.maxTrack
      omega
  · next hlast =>
    refine ⟨htrack, hhead, Nat.succ_pos _, ?_⟩
    change d.currSect + 1 ≤ d.maxSect
    omega

/-- The heads come to a sector that exists. -/
theorem FloppyController.stands_seekNextSect {c : FloppyController} (h : c.currDrive.Stands)
    (hend : ¬c.AtEnd) : c.seekNextSect.currDrive.Stands := by
  have hnew := hasSector_nextSect h hend
  have hcurr : c.seekNextSect.currDrive = (c.currDrive.seek (nextSect c.eot c.multiTrack c.currDrive).1
      (nextSect c.eot c.multiTrack c.currDrive).2.1
      (nextSect c.eot c.multiTrack c.currDrive).2.2.1).1 := by
    unfold seekNextSect
    dsimp only
    split
    · exact update_self ..
    · exact update_self ..
  rw [hcurr]
  exact h.seek hnew

/-! ## Outstanding transfers -/

/-- What the DMA controller waits for stays inside the image. -/
def Inside (epoch length : Nat) : Bool → Pending → Prop
  | false, .get e start count _ => e = epoch ∧ start + count ≤ length
  | true, .set e start _ data more =>
    e = epoch ∧ start + data.length ≤ length ∧ ∀ r, more = some r → r.start = start + data.length
  | _, _ => False

theorem Inside.mono {length length' : Nat} {doWrite : Bool} (h : Inside epoch length doWrite p)
    (hle : length ≤ length') : Inside epoch length' doWrite p := by
  cases doWrite with
  | false =>
    cases p with
    | get epoch start count address => exact ⟨h.1, Nat.le_trans h.2 hle⟩
    | set epoch start address data more => exact h.elim
  | true =>
    cases p with
    | get epoch start count address => exact h.elim
    | set epoch start address data more => exact ⟨h.1, Nat.le_trans h.2.1 hle, h.2.2⟩

/-- An outstanding transfer is one from a sector that exists, has come as far as it has, and has
not left its image. -/
structure Transfer.Sound (s : System) (t : Transfer) : Prop where
  named : t.command.Named t.drive
  offset : (startOf t.pending : Int) = t.command.dataOffset t.drive + t.moved
  inside : Inside s.dma.epoch (s.images.getD t.image []).length t.command.doWrite t.pending
  fresh : t.command.doWrite = false → t.moved = 0

/-- Images do not shrink. -/
theorem Transfer.Sound.mono (h : t.Sound s) (hepoch : s'.dma.epoch = s.dma.epoch)
    (hlength : (s.images.getD t.image []).length ≤ (s'.images.getD t.image []).length) :
    t.Sound s' :=
  ⟨h.named, h.offset, by rw [hepoch]; exact h.inside.mono hlength, h.fresh⟩

/-- The machine is not in an exception, is in a phase, and its transfers are sound. -/
structure Inv (s : System) : Prop where
  returned : s.thrown = false
  phased : Phased s
  sound : ∀ t ∈ s.outstanding, t.Sound s

/-- What a transfer that was started is. -/
theorem start_spec {q : Request} {d : Dma.System}
    (h : r.direction.start (s.view image) q = some (d, p)) :
    d.memory = s.memory ∧ d.buffer = s.images.getD image [] ∧ d.dma.epoch = s.dma.epoch ∧
      startOf p = q.start ∧ Inside s.dma.epoch (s.images.getD image []).length r.doWrite p := by
  unfold ReadWrite.direction at h
  cases hwrite : r.doWrite with
  | false =>
    rw [hwrite] at h
    change Dma.doRead _ _ = _ at h
    rw [Dma.doRead_eq] at h
    dsimp only at h
    split at h
    · next haccepts =>
      simp only [Dma.System.accepts, Bool.and_eq_true, decide_eq_true_eq] at haccepts
      cases h
      exact ⟨rfl, rfl, rfl, rfl, rfl, haccepts.1.1⟩
    · cases h
  | true =>
    rw [hwrite] at h
    change Dma.doWrite _ _ = _ at h
    rw [Dma.doWrite_eq] at h
    dsimp only at h
    split at h
    · next haccepts =>
      simp only [Dma.System.accepts, Bool.and_eq_true, decide_eq_true_eq] at haccepts
      cases h
      refine ⟨rfl, rfl, rfl, rfl, rfl, ?_, ?_⟩
      · rw [length_map, length_range]
        exact haccepts.1.1
      · intro r' hr'
        rw [length_map, length_range]
        unfold Request.more at hr'
        split at hr'
        · cases hr'
          rfl
        · cases hr'
    · cases h

theorem set_getD_self (images : List (List Byte)) (k : Nat) :
    images.set k (images.getD k []) = images := by
  rcases Nat.lt_or_ge k images.length with h | h
  · rw [getD_eq_getElem?_getD, List.getElem?_eq_getElem h, Option.getD_some, set_getElem_self]
  · exact set_eq_of_length_le h

theorem length_getD_set {images : List (List Byte)} {k : Nat} {image : List Byte}
    (h : image.length = (images.getD k []).length) (j : Nat) :
    ((images.set k image).getD j []).length = (images.getD j []).length := by
  rw [getD_eq_getElem?_getD, List.getElem?_set, getD_eq_getElem?_getD]
  split
  · next hkj =>
    rw [hkj, getD_eq_getElem?_getD] at h
    split
    · exact h
    · next hlt =>
      rw [← hkj, List.getElem?_eq_none (Nat.not_lt.1 hlt)]
  · rfl

/-! ## The callback -/

theorem called_of_error : (s.called true).fdc.Aborted ∧ Kept s (s.called true) :=
  ⟨FloppyController.aborted_endReadWrite (by decide) .., rfl, rfl⟩

theorem phased_called (error : Bool) : Phased (s.called error) := by
  have hwaits : (s.called error).fdc.Waits := by
    cases error with
    | true | false => exact FloppyController.waits_endReadWrite ..
  have hphase : (s.called error).fdc.cmdPhase = .result := by
    cases error with
    | true => rfl
    | false => rfl
  rw [Phased, if_neg (by rw [hphase]; decide)]
  exact hwaits

/-- The callback ends the command and touches nothing else. -/
theorem Inv.called (hreturned : s.thrown = false) (hsound : ∀ t ∈ s.outstanding, t.Sound s)
    (error : Bool) : Inv (s.called error) := by
  refine ⟨?_, phased_called error, ?_⟩
  · cases error with
    | true => exact hreturned
    | false => exact hreturned
  · intro t ht
    cases error with
    | true | false => exact (hsound t ht).mono rfl (Nat.le_refl _)

theorem stands_called (h : s.fdc.currDrive.Stands) (hend : ¬s.fdc.AtEnd) :
    (s.called false).fdc.currDrive.Stands :=
  FloppyController.stands_seekNextSect h hend

/-! ## Completions -/

/-- What comes of a completion that says that it is done. -/
theorem complete_done {d : Dma.System} {error : Bool} (hi : s.outstanding[i]? = some t)
    (hd : Dma.complete (s.view t.image) t.pending = (d, .done error)) :
    s.complete i =
      ({ s.put t.image d with outstanding := s.outstanding.eraseIdx i }).called error := by
  unfold System.complete
  rw [hi]
  dsimp only
  rw [hd]
  rfl

/-- What comes of one that goes on. -/
theorem complete_again {d : Dma.System} {r : Request} (hi : s.outstanding[i]? = some t)
    (hd : Dma.complete (s.view t.image) t.pending = (d, .again r)) :
    s.complete i =
      match t.command.direction.start ((s.put t.image d).view t.image) r with
      | none => ({ s.put t.image d with outstanding := s.outstanding.eraseIdx i }).called true
      | some (d', p) => { (s.put t.image d).put t.image d' with
          outstanding := s.outstanding.set i { t with
            moved := t.moved + (d.moves.map fun m => m.data.length).sum, pending := p } } := by
  unfold System.complete
  rw [hi]
  dsimp only
  rw [hd]
  rfl

/-- The other transfers stay sound. -/
theorem sound_put {d : Dma.System} (hepoch : d.dma.epoch = s.dma.epoch)
    (hlength : d.buffer.length = (s.images.getD image []).length)
    (h : t.Sound s) : t.Sound (s.put image d) := by
  refine h.mono hepoch (Nat.le_of_eq ?_)
  exact (length_getD_set hlength t.image).symm

/-- Without the transfer that has ended, and with the callback. -/
theorem Inv.gone {d : Dma.System} (h : Inv s) (hepoch : d.dma.epoch = s.dma.epoch)
    (hlength : d.buffer.length = (s.images.getD image []).length) (error : Bool) :
    Inv (({ s.put image d with outstanding := s.outstanding.eraseIdx i }).called error) := by
  refine Inv.called (s := { s.put image d with outstanding := s.outstanding.eraseIdx i })
    h.returned (fun u hu => ?_) error
  exact (sound_put hepoch hlength (h.sound u (mem_of_mem_eraseIdx hu))).mono rfl
    (Nat.le_refl _)

theorem complete_read {start count : Nat} (hinv : Inv s) (hi : s.outstanding[i]? = some t)
    (hpending : t.pending = .get epoch start count address) (hread : t.command.doWrite = false)
    (hfair : s.fdc.currDrive.Stands ∧ ¬s.fdc.AtEnd) :
    Inv (s.complete i) ∧ Completed s (s.complete i) t := by
  have hsound := hinv.sound t (mem_of_getElem? hi)
  have hinside := hsound.inside
  rw [hpending, hread] at hinside
  obtain ⟨hepoch, hle⟩ := hinside
  have hne : ¬epoch ≠ (s.view t.image).dma.epoch := not_not_intro hepoch
  cases hwrite : (s.view t.image).memory.writeBlobPhysical
      (((s.view t.image).buffer.drop start).take count) address with
  | none =>
    have hd : Dma.complete (s.view t.image) t.pending = (s.view t.image, .done true) := by
      rw [hpending, Dma.complete, if_neg hne, hwrite]
    rw [complete_done hi hd]
    refine ⟨hinv.gone rfl rfl true, ?_⟩
    refine .failed (hsound.fresh hread) ⟨rfl, set_getD_self ..⟩ called_of_error.1
  | some memory =>
    have hd : Dma.complete (s.view t.image) t.pending = ({ s.view t.image with
        memory := memory
        moves := [.of address start (((s.images.getD t.image []).drop start).take count)] },
        .done false) := by
      rw [hpending, Dma.complete, if_neg hne, hwrite]
      rfl
    have hlength : (((s.images.getD t.image []).drop start).take count).length = count := by
      rw [length_take, length_drop]
      omega
    rw [complete_done hi hd]
    refine ⟨hinv.gone rfl rfl false, ?_⟩
    refine .finished ⟨address, start, ((s.images.getD t.image []).drop start).take count⟩
      ⟨?_, ?_, ?_⟩ rfl (stands_called hfair.1 hfair.2)
    · have hoffset := hsound.offset
      rw [hpending] at hoffset
      exact hoffset
    · change start + (List.take count _).length ≤ _
      rw [hlength]
      exact hle
    · rw [hread]
      refine ⟨set_getD_self .., hwrite, ?_⟩
      change List.take count _ = List.take (List.take count _).length _
      rw [hlength]

theorem complete_write {start : Nat} {data : List Byte} {more : Option Request} (hinv : Inv s)
    (hi : s.outstanding[i]? = some t) (hpending : t.pending = .set epoch start address data more)
    (hwrite : t.command.doWrite = true)
    (hfair : more = none → s.fdc.currDrive.Stands ∧ ¬s.fdc.AtEnd) :
    Inv (s.complete i) ∧ Completed s (s.complete i) t := by
  have hsound := hinv.sound t (mem_of_getElem? hi)
  have hinside := hsound.inside
  rw [hpending, hwrite] at hinside
  obtain ⟨hepoch, hle, hmore⟩ := hinside
  have hne : ¬epoch ≠ (s.view t.image).dma.epoch := not_not_intro hepoch
  -- the image with the data in it, whatever comes after
  have hlength : (splice (s.images.getD t.image []) start data).length =
      (s.images.getD t.image []).length := length_splice hle
  have hmoves : ∀ s' : System, s'.memory = s.memory →
      s'.images = s.images.set t.image (splice (s.images.getD t.image []) start data) →
      t.Moves s s' ⟨address, start, data⟩ := by
    intro s' hmemory himages
    refine ⟨?_, hle, ?_⟩
    · have hoffset := hsound.offset
      rw [hpending] at hoffset
      exact hoffset
    · rw [hwrite]
      exact ⟨hmemory, himages⟩
  cases more with
  | none =>
    have hd : Dma.complete (s.view t.image) t.pending = ({ s.view t.image with
        buffer := splice (s.images.getD t.image []) start data
        moves := [.of address start data] }, .done false) := by
      rw [hpending, Dma.complete]
      exact if_neg hne
    rw [complete_done hi hd]
    refine ⟨hinv.gone rfl hlength false, ?_⟩
    exact .finished _ (hmoves _ rfl rfl) rfl (stands_called (hfair rfl).1 (hfair rfl).2)
  | some r =>
    have hd : Dma.complete (s.view t.image) t.pending = ({ s.view t.image with
        buffer := splice (s.images.getD t.image []) start data
        moves := [.of address start data] }, .again r) := by
      rw [hpending, Dma.complete]
      exact if_neg hne
    rw [complete_again hi hd]
    split
    · exact ⟨hinv.gone rfl hlength true, .stopped _ (hmoves _ rfl rfl) called_of_error.1⟩
    · next d p hstart =>
      obtain ⟨hmemory, hbuffer, hepoch', hoffset, hinside⟩ := start_spec hstart
      have himages : (s.images.set t.image (splice (s.images.getD t.image []) start data)).set
          t.image d.buffer =
            s.images.set t.image (splice (s.images.getD t.image []) start data) := by
        rw [hbuffer]
        exact set_getD_self ..
      refine ⟨⟨hinv.returned, ?_, ?_⟩, .goesOn _ (hmoves _ hmemory himages) p ?_⟩
      · have hphased := hinv.phased
        unfold Phased at hphased ⊢
        dsimp only
        rw [length_set]
        exact hphased
      · intro u hu
        have hbound : ∀ k, (s.images.getD k []).length ≤
            (((s.images.set t.image (splice (s.images.getD t.image []) start data)).set t.image
              d.buffer).getD k []).length := by
          intro k
          rw [himages, length_getD_set hlength]
        rcases mem_or_eq_of_mem_set hu with hu | rfl
        · exact (hinv.sound u hu).mono hepoch' (hbound _)
        · refine ⟨hsound.named, ?_, ?_, fun h => ?_⟩
          · have hbefore := hsound.offset
            rw [hpending] at hbefore
            have hrequest := hmore r rfl
            change (startOf p : Int) =
              t.command.dataOffset t.drive + ((t.moved + (data.length + 0) : Nat) : Int)
            change (start : Int) = _ at hbefore
            rw [hoffset, hrequest]
            omega
          · rw [← hepoch'] at hinside
            refine hinside.mono (Nat.le_of_eq ?_)
            exact congrArg (fun images => (List.getD images t.image []).length) himages.symm
          · change t.command.doWrite = false at h
            rw [hwrite] at h
            cases h
      · have hlt : i < s.outstanding.length := (List.getElem?_eq_some_iff.1 hi).1
        exact List.mem_set hlt _

/-! ## Commands -/

theorem refused_refuse {status0 status1 : Byte}
    (h : status0.getLsbD 6 = true) : Refused s (s.refuse r status0 status1) := by
  have haborted := FloppyController.aborted_endReadWrite (c := s.fdc) h status1 0
  exact ⟨⟨rfl, rfl⟩, rfl, haborted.phase, haborted.status⟩

theorem Inv.refuse (hreturned : s.thrown = false) (hsound : ∀ t ∈ s.outstanding, t.Sound s)
    (r : ReadWrite) (status0 status1 : Byte) : Inv (s.refuse r status0 status1) := by
  refine ⟨hreturned, ?_, fun t ht => (hsound t ht).mono rfl (Nat.le_refl _)⟩
  have hwaits := FloppyController.waits_endReadWrite (c := s.fdc) status0 status1 0
  unfold Phased
  rw [if_neg (by change Phase.result ≠ .execution; decide)]
  exact ⟨hwaits.1, hwaits.2.1, Nat.succ_pos _⟩

theorem dataOffset_nonneg (h : r.Named d) : 0 ≤ r.dataOffset d :=
  Int.mul_nonneg (Drive.chs2lba_nonneg h.2.2.1) (Int.natCast_nonneg _)

/-- The checks of the DMA controller are the ones that `start_read_write` relies on. -/
theorem start_of_refuses {start : Nat} (h : s.dmaAccepts r image start len = false) :
    r.direction.start (s.view image) ⟨start, len, dmaChannel⟩ = none := by
  have haccepts : (s.view image).accepts start (s.dmaCount r len)
      (s.dma.addressGet8bit dmaChannel) = false := by
    rw [← h, System.dmaAccepts, Dma.System.accepts]
    congr 3
    exact propext Int.ofNat_le.symm
  unfold System.dmaCount at haccepts
  unfold ReadWrite.direction at haccepts ⊢
  cases hwrite : r.doWrite with
  | false =>
    rw [hwrite] at haccepts
    change Dma.doRead _ _ = none
    rw [Dma.doRead_eq]
    exact if_neg (ne_true_of_eq_false haccepts)
  | true =>
    rw [hwrite] at haccepts
    change Dma.doWrite _ _ = none
    rw [Dma.doWrite_eq]
    exact if_neg (ne_true_of_eq_false haccepts)

theorem Refused.of_modifyFdc (h : Refused (s.modifyFdc f) s') : Refused s s' :=
  ⟨⟨h.kept.memory, h.kept.images⟩, h.outstanding, h.aborted⟩

theorem Started.of_modifyFdc (h : Started (s.modifyFdc f) s' r d) : Started s s' r d :=
  ⟨⟨h.kept.memory, h.kept.images⟩, h.named, h.outstanding⟩

theorem sound_modifyFdc (f : FloppyController → FloppyController)
    (h : ∀ t ∈ s.outstanding, t.Sound s) :
    ∀ t ∈ (s.modifyFdc f).outstanding, t.Sound (s.modifyFdc f) :=
  fun t ht => (h t ht).mono rfl (Nat.le_refl _)

/-- A transfer that is asked for is refused at once, or started. -/
theorem startDma_spec {start : Int} (hreturned : s.thrown = false)
    (hsound : ∀ t ∈ s.outstanding, t.Sound s) (hphase : s.fdc.cmdPhase = .execution)
    (hbuffer : d.buffer = some image) (hoffset : start = r.dataOffset d)
    (hfair : s.dmaAccepts r image start len = false ∨ r.Named d ∧ s.outstanding = []) :
    Inv (s.startDma r d image start len) ∧ (Started s (s.startDma r d image start len) r d ∨
        Refused s (s.startDma r d image start len)) := by
  have hrefused : Inv (s.called true) ∧ Refused s (s.called true) :=
    ⟨Inv.called hreturned hsound true, called_of_error.2, rfl, called_of_error.1⟩
  cases start with
  | negSucc k =>
    have haccepts : s.dmaAccepts r image (.negSucc k) len = false :=
      hfair.resolve_right fun h => by
        have hnonneg := dataOffset_nonneg h.1
        rw [← hoffset] at hnonneg
        exact absurd hnonneg (by omega)
    rw [System.startDma, if_neg (ne_true_of_eq_false haccepts)]
    exact ⟨hrefused.1, .inr hrefused.2⟩
  | ofNat k =>
    rw [System.startDma]
    split
    · exact ⟨hrefused.1, .inr hrefused.2⟩
    · next d' p hstart =>
      have hnamed := hfair.resolve_left fun h => by
        rw [start_of_refuses h] at hstart
        cases hstart
      obtain ⟨hmemory, hsame, hepoch, hat, hinside⟩ := start_spec hstart
      have himages : s.images.set image d'.buffer = s.images := by
        rw [hsame]
        exact set_getD_self ..
      have hat : (startOf p : Int) = Int.ofNat k := congrArg Int.ofNat hat
      refine ⟨⟨hreturned, ?_, ?_⟩,
        .inl ⟨⟨hmemory, himages⟩, hnamed.1, image, p, rfl, hbuffer, hat.trans hoffset⟩⟩
      · unfold Phased
        rw [if_pos (by exact hphase)]
        change (s.outstanding ++ [_]).length = 1
        rw [hnamed.2]
        rfl
      · intro t ht
        rw [hnamed.2, nil_append, mem_singleton] at ht
        subst ht
        refine ⟨hnamed.1, ?_, ?_, fun _ => rfl⟩
        · change (startOf p : Int) = r.dataOffset d + ((0 : Nat) : Int)
          rw [hat, hoffset]
          exact (Int.add_zero _).symm
        · rw [← hepoch] at hinside
          refine hinside.mono (Nat.le_of_eq ?_)
          exact congrArg (fun images => (List.getD images image []).length) himages.symm

/-- A command that is not refused before its transfer is one that DMA can take. -/
def Clear (s : System) (r : ReadWrite) (d : Drive) : Prop :=
  ¬(r.sectSize ≠ 128 ∧ r.dataLength s.fdc.multiTrack ≤ 0) → (r.doWrite && d.readOnly) = false →
    s.fdc.dmaen = true ∧
      ((∀ image, d.buffer = some image → s.dmaAccepts r image (r.dataOffset d)
        (r.dataLength s.fdc.multiTrack).toNat = false) ∨ r.Named d ∧ s.outstanding = [])

theorem Clear.modifyFdc (h : Clear s r d) (hmulti : (f s.fdc).multiTrack = s.fdc.multiTrack)
    (hdor : (f s.fdc).dor = s.fdc.dor) : Clear (s.modifyFdc f) r d := by
  have hdmaen : (f s.fdc).dmaen = s.fdc.dmaen := congrArg (BitVec.getLsbD · 3) hdor
  unfold Clear
  change ¬(_ ∧ r.dataLength (f s.fdc).multiTrack ≤ 0) → _ → (f s.fdc).dmaen = true ∧
    ((∀ image, _ → s.dmaAccepts r image _ (r.dataLength (f s.fdc).multiTrack).toNat = false) ∨ _)
  rw [hmulti, hdmaen]
  exact h

/-- What is behind the seek: the command is refused, or its transfer is started. -/
theorem startTransfer_spec (hreturned : s.thrown = false) (hsound : ∀ t ∈ s.outstanding, t.Sound s)
    (hphase : s.fdc.cmdPhase = .execution) (hbuffer : d.buffer ≠ none) (hclear : Clear s r d) :
    Inv (s.startTransfer r d) ∧
      (Started s (s.startTransfer r d) r d ∨ Refused s (s.startTransfer r d)) := by
  unfold System.startTransfer
  split
  · exact ⟨Inv.refuse hreturned hsound .., .inr (refused_refuse (by decide))⟩
  next hlength =>
  dsimp only
  have hsound := sound_modifyFdc (fun c => { c with eot := r.eot }) hsound
  split
  · refine ⟨Inv.refuse ?_ hsound .., .inr ?_⟩
    · exact hreturned
    · exact Refused.of_modifyFdc (refused_refuse (by decide))
  next hprotected =>
  obtain ⟨hdmaen, hfair⟩ := hclear hlength (Bool.eq_false_iff.2 hprotected)
  rw [if_pos (by exact hdmaen)]
  obtain ⟨image, himage⟩ := Option.ne_none_iff_exists'.1 hbuffer
  have hsound := sound_modifyFdc (fun c => { c with msr := c.msr &&& ~~~0x80 }) hsound
  rw [himage]
  obtain ⟨hinv, hend⟩ := startDma_spec (by exact hreturned) hsound (by exact hphase) himage rfl
    (hfair.imp_left fun h => h image himage)
  exact ⟨hinv, hend.imp (fun h => h.of_modifyFdc.of_modifyFdc) fun h => h.of_modifyFdc.of_modifyFdc⟩

/-- A READ or WRITE is refused, or its transfer is started. -/
theorem startReadWrite_spec (hreturned : s.thrown = false) (hsound : ∀ t ∈ s.outstanding, t.Sound s)
    (hphase : s.fdc.cmdPhase = .execution) (hfair : s.Reaches r → s.fdc.dmaen = true ∧
      (s.DmaRefuses r ∨ r.Named (s.sought r).1 ∧ s.outstanding = [])) : Inv (s.startReadWrite r) ∧
      (Started s (s.startReadWrite r) r (s.sought r).1 ∨ Refused s (s.startReadWrite r)) := by
  have hbuffer : (s.sought r).2 ≠ .invalidTrack → (s.sought r).2 ≠ .invalidSector →
      (s.sought r).1.buffer ≠ none := by
    intro htrack hsect
    rw [System.sought, Drive.buffer_seek]
    exact Drive.buffer_of_seek htrack hsect
  have hsound := sound_modifyFdc
    (fun c => (c.setCurrDriveNo r.driveNo).modifyDrive fun _ => (s.sought r).1) hsound
  have hrefused : ∀ status1, Inv ((s.modifyFdc fun c =>
      (c.setCurrDriveNo r.driveNo).modifyDrive fun _ => (s.sought r).1).refuse r 0x40 status1) ∧
        Refused s ((s.modifyFdc fun c => (c.setCurrDriveNo r.driveNo).modifyDrive fun _ =>
          (s.sought r).1).refuse r 0x40 status1) := fun status1 =>
    ⟨Inv.refuse (by exact hreturned) hsound .., (refused_refuse (by decide)).of_modifyFdc⟩
  unfold System.startReadWrite
  dsimp only
  split
  · exact ⟨(hrefused 0).1, .inr (hrefused 0).2⟩
  · exact ⟨(hrefused 0x80).1, .inr (hrefused 0x80).2⟩
  · next hchanged =>
    have hsound := sound_modifyFdc (fun c => { c with status0 := c.status0 ||| 0x20 }) hsound
    have htrack : (s.sought r).2 ≠ .invalidTrack := by
      rw [hchanged]
      decide
    have hsect : (s.sought r).2 ≠ .invalidSector := by
      rw [hchanged]
      decide
    have hclear : Clear s r (s.sought r).1 := fun hlength hprotected =>
      hfair ⟨htrack, hsect, hlength, hprotected⟩
    obtain ⟨hinv, hend⟩ := startTransfer_spec (by exact hreturned) hsound (by exact hphase)
      (hbuffer htrack hsect) ((hclear.modifyFdc rfl rfl).modifyFdc rfl rfl)
    exact ⟨hinv, hend.imp (fun h => h.of_modifyFdc.of_modifyFdc)
      fun h => h.of_modifyFdc.of_modifyFdc⟩
  · next hsame =>
    have htrack : (s.sought r).2 ≠ .invalidTrack := by
      rw [hsame]
      decide
    have hsect : (s.sought r).2 ≠ .invalidSector := by
      rw [hsame]
      decide
    have hclear : Clear s r (s.sought r).1 := fun hlength hprotected =>
      hfair ⟨htrack, hsect, hlength, hprotected⟩
    obtain ⟨hinv, hend⟩ := startTransfer_spec (by exact hreturned) hsound (by exact hphase)
      (hbuffer htrack hsect) (hclear.modifyFdc rfl rfl)
    exact ⟨hinv, hend.imp (fun h => h.of_modifyFdc) fun h => h.of_modifyFdc⟩

/-! ## The FIFO -/

/-- READ and WRITE take arguments. -/
theorem argc_of_readWrite (code : Byte)
    (h : (cmdTable code).handler = .read ∨ (cmdTable code).handler = .write) :
    (cmdTable code).argc ≠ 0 := by
  revert code
  decide +kernel

section
variable {c c' : FloppyController} {byte : Byte}

/-- What a byte that completes a command leaves as it is. -/
structure Executing (c c' : FloppyController) : Prop where
  phase : c'.cmdPhase = .execution
  drives : c'.drives = c.drives
  dor : c'.dor = c.dor
  multiTrack : (cmdTable c'.cmdCode).handler = .read ∨ (cmdTable c'.cmdCode).handler = .write →
    c'.multiTrack = c.multiTrack

theorem executing_of_executes (h : c.executes byte = some c') : Executing c c' := by
  unfold FloppyController.executes at h
  split at h
  · next htakes =>
    cases h
    have hremaining := htakes.2
    unfold FloppyController.takeByte at hremaining ⊢
    dsimp only at hremaining ⊢
    split
    · next hnew =>
      rw [if_pos hnew] at hremaining
      exact ⟨rfl, rfl, rfl, fun h => absurd hremaining (argc_of_readWrite byte h)⟩
    · exact ⟨rfl, rfl, rfl, fun _ => rfl⟩
  · cases h

/-- A byte that does not complete a command is refused, or is waited behind. -/
theorem waits_takeByte (htakes : c.takesBytes = true) : (c.takeByte byte).Waits := by
  simp only [FloppyController.takesBytes, Bool.and_eq_true, decide_eq_true_eq,
    Bool.not_eq_true'] at htakes
  obtain ⟨⟨⟨-, hrqm⟩, hdio⟩, hphase⟩ := htakes
  have hwaits : ∀ c'' : FloppyController, c''.cmdPhase = c.cmdPhase → c''.rqm = true →
      c''.dio = false → c''.Waits := by
    intro c'' hphase' hrqm' hdio'
    unfold FloppyController.Waits
    rw [hphase', hphase]
    exact ⟨hrqm', hdio'⟩
  unfold FloppyController.rqm at hrqm
  unfold FloppyController.dio at hdio
  unfold FloppyController.takeByte
  dsimp only
  split
  · refine hwaits _ rfl ?_ ?_
    · change BitVec.getLsbD (ite _ (c.msr ||| 0x80) c.msr ||| 0x10) 7 = true
      rw [BitVec.getLsbD_or, Bool.or_eq_true]
      refine .inl ?_
      split
      · rw [BitVec.getLsbD_or, hrqm, Bool.true_or]
      · exact hrqm
    · change BitVec.getLsbD (ite _ (c.msr ||| 0x80) c.msr ||| 0x10) 6 = false
      rw [BitVec.getLsbD_or, Bool.or_eq_false_iff]
      refine ⟨?_, rfl⟩
      split
      · rw [BitVec.getLsbD_or, hdio]
        rfl
      · exact hdio
  · exact hwaits _ rfl hrqm hdio

end

variable {s : System} {byte : Byte} {c : FloppyController}

theorem writeRegFifo_of_some (h : s.fdc.executes byte = some c) : s.writeRegFifo byte =
      (s.modifyFdc fun _ => c).exec (cmdTable c.cmdCode).handler c.cmdBuffer := by
  unfold FloppyController.executes at h
  split at h
  · next htakes =>
    cases h
    unfold System.writeRegFifo
    dsimp only
    rw [if_pos (by exact htakes.1), if_pos (by exact htakes.2)]
    rfl
  · cases h

theorem writeRegFifo_of_none (h : s.fdc.executes byte = none) :
    s.writeRegFifo byte = s.modifyFdc fun c =>
      if c.powerUp.takesBytes then c.powerUp.takeByte byte else c.powerUp := by
  unfold FloppyController.executes at h
  split at h
  · cases h
  · next hnot =>
    unfold System.writeRegFifo
    dsimp only
    by_cases htakes : s.fdc.powerUp.takesBytes = true
    · rw [if_pos (by exact htakes), if_neg (by exact fun hremaining => hnot ⟨htakes, hremaining⟩)]
      exact congrArg (fun c => { s with fdc := c }) (if_pos htakes).symm
    · rw [if_neg (by exact htakes)]
      exact congrArg (fun c => { s with fdc := c }) (if_neg htakes).symm

/-! ## Steps -/

/-- A change of the controller that ends in waiting, or leaves the phase as it is. -/
theorem Inv.modifyFdc (h : Inv s) {f : FloppyController → FloppyController}
    (hf : (f s.fdc).Waits ∨ s.fdc.SamePhase (f s.fdc)) : Inv (s.modifyFdc f) := by
  refine ⟨h.returned, ?_, sound_modifyFdc f h.sound⟩
  have hphased := h.phased
  unfold Phased at hphased ⊢
  change if (f s.fdc).cmdPhase = .execution then s.outstanding.length = 1 else (f s.fdc).Waits
  rcases hf with hwaits | hsame
  · rw [if_neg]
    · exact hwaits
    · intro hphase
      unfold FloppyController.Waits at hwaits
      rw [hphase] at hwaits
      exact hwaits
  · rw [hsame.phase]
    split
    · next hphase =>
      rw [if_pos hphase] at hphased
      exact hphased
    · next hphase =>
      rw [if_neg hphase] at hphased
      exact hphased.same hsame

/-- Every other command ends in waiting. -/
theorem waits_exec (s : System) {handler : Handler} (args : List Byte)
    (hread : handler ≠ .read) (hwrite : handler ≠ .write) :
    ∃ c : FloppyController, c.Waits ∧ s.exec handler args = s.modifyFdc fun _ => c := by
  cases handler with
  | read => exact absurd rfl hread
  | write => exact absurd rfl hwrite
  | seek =>
    refine ⟨s.fdc.execSeek args, ?_, rfl⟩
    exact FloppyController.waits_enterCommandPhase.same ⟨rfl, rfl, rfl, rfl⟩
  | senseInterruptStatus => exact ⟨_, FloppyController.waits_execSenseInterruptStatus, rfl⟩
  | recalibrate =>
    refine ⟨s.fdc.execRecalibrate args, ?_, rfl⟩
    exact FloppyController.waits_enterCommandPhase.same ⟨rfl, rfl, rfl, rfl⟩
  | formatTrack => exact ⟨_, FloppyController.waits_execFormatTrack args, rfl⟩
  | readId => exact ⟨_, FloppyController.waits_endReadWrite .., rfl⟩
  | specify => exact ⟨_, FloppyController.waits_enterCommandPhase, rfl⟩
  | senseDriveStatus => exact ⟨_, FloppyController.waits_enterResultPhase, rfl⟩
  | perpendicularMode | configure => exact ⟨_, FloppyController.waits_enterCommandPhase, rfl⟩
  | lock => exact ⟨_, FloppyController.waits_execLock, rfl⟩
  | dumpRegs | version | partId => exact ⟨_, FloppyController.waits_enterResultPhase, rfl⟩
  | unimplemented => exact ⟨_, FloppyController.waits_enterResultPhase, rfl⟩

theorem sought_of_executing (h : Executing s.fdc c) (r : ReadWrite) :
    (s.modifyFdc fun _ => c).sought r = s.sought r := by
  change ((c.drives (if r.driveNo.getLsbD 0 then 1 else 0)).seek ..) = _
  rw [h.drives]
  rfl

/-- A READ or WRITE that a byte completes. -/
theorem exec_readWrite {r : ReadWrite} (hinv : Inv s) (hexecuting : Executing s.fdc c)
    (hhandler : (cmdTable c.cmdCode).handler = .read ∨ (cmdTable c.cmdCode).handler = .write)
    (hrw : s.readWrite byte = some r) (hfair : Fair s (.writeFifo byte)) :
    Inv ((s.modifyFdc fun _ => c).startReadWrite r) ∧
      (Started s ((s.modifyFdc fun _ => c).startReadWrite r) r (s.sought r).1 ∨
        Refused s ((s.modifyFdc fun _ => c).startReadWrite r)) := by
  have hsought := sought_of_executing hexecuting r
  have hdmaen : c.dmaen = s.fdc.dmaen := congrArg (BitVec.getLsbD · 3) hexecuting.dor
  have hmulti : c.multiTrack = s.fdc.multiTrack := hexecuting.multiTrack hhandler
  have hfair' : (s.modifyFdc fun _ => c).Reaches r → c.dmaen = true ∧
      ((s.modifyFdc fun _ => c).DmaRefuses r ∨
        r.Named ((s.modifyFdc fun _ => c).sought r).1 ∧ s.outstanding = []) := by
    unfold System.Reaches System.DmaRefuses
    change _ ∧ _ ∧ ¬(_ ∧ r.dataLength c.multiTrack ≤ 0) ∧ _ → _ ∧ ((∀ image, _ →
      s.dmaAccepts r image _ (r.dataLength c.multiTrack).toNat = false) ∨ _)
    rw [hsought, hdmaen, hmulti]
    exact hfair r hrw
  obtain ⟨hinv', hend⟩ := startReadWrite_spec (s := s.modifyFdc fun _ => c) hinv.returned
    (sound_modifyFdc _ hinv.sound) hexecuting.phase hfair'
  rw [hsought] at hend
  exact ⟨hinv', hend.imp Started.of_modifyFdc Refused.of_modifyFdc⟩

theorem step_writeFifo (hinv : Inv s) (hfair : Fair s (.writeFifo byte)) :
    Inv (s.writeRegFifo byte) ∧ ∀ r, s.readWrite byte = some r →
      Started s (s.writeRegFifo byte) r (s.sought r).1 ∨ Refused s (s.writeRegFifo byte) := by
  cases hexecutes : s.fdc.executes byte with
  | none =>
    refine ⟨?_, fun r hr => ?_⟩
    · rw [writeRegFifo_of_none hexecutes]
      refine hinv.modifyFdc ?_
      split
      · next htakes => exact .inl (waits_takeByte htakes)
      · exact .inr ⟨rfl, rfl, rfl, rfl⟩
    · rw [System.readWrite, hexecutes] at hr
      cases hr
  | some c =>
    have hexecuting := executing_of_executes hexecutes
    rw [writeRegFifo_of_some hexecutes]
    by_cases hread : (cmdTable c.cmdCode).handler = .read
    · have hrw : s.readWrite byte = some (.ofArgs false c.cmdBuffer) := by
        rw [System.readWrite, hexecutes, Option.bind_some, hread]
      rw [hread]
      obtain ⟨hinv', hend⟩ := exec_readWrite hinv hexecuting (.inl hread) hrw hfair
      refine ⟨hinv', fun r hr => ?_⟩
      rw [hrw] at hr
      cases hr
      exact hend
    by_cases hwrite : (cmdTable c.cmdCode).handler = .write
    · have hrw : s.readWrite byte = some (.ofArgs true c.cmdBuffer) := by
        rw [System.readWrite, hexecutes, Option.bind_some, hwrite]
      rw [hwrite]
      obtain ⟨hinv', hend⟩ := exec_readWrite hinv hexecuting (.inr hwrite) hrw hfair
      refine ⟨hinv', fun r hr => ?_⟩
      rw [hrw] at hr
      cases hr
      exact hend
    obtain ⟨c', hwaits, hexec⟩ := waits_exec (s.modifyFdc fun _ => c) c.cmdBuffer hread hwrite
    rw [hexec]
    refine ⟨hinv.modifyFdc (f := fun _ => c') (.inl hwaits), fun r hr => ?_⟩
    rw [System.readWrite, hexecutes, Option.bind_some] at hr
    split at hr
    · next h => exact absurd h hread
    · next h => exact absurd h hwrite
    · cases hr

theorem step_complete {i : Nat} {t : Transfer} (hinv : Inv s) (hi : s.outstanding[i]? = some t)
    (hfair : Fair s (.complete i)) : Inv (s.complete i) ∧ Completed s (s.complete i) t := by
  have hinside := (hinv.sound t (mem_of_getElem? hi)).inside
  have hlast := hfair t hi
  unfold Transfer.Last at hlast
  cases hpending : t.pending with
  | get epoch start count address =>
    cases hwrite : t.command.doWrite with
    | false =>
      rw [hpending] at hlast
      exact complete_read hinv hi hpending hwrite (hlast trivial)
    | true =>
      rw [hpending, hwrite] at hinside
      exact hinside.elim
  | set epoch start address data more =>
    cases hwrite : t.command.doWrite with
    | false =>
      rw [hpending, hwrite] at hinside
      exact hinside.elim
    | true =>
      rw [hpending] at hlast
      exact complete_write hinv hi hpending hwrite hlast

theorem step_readFifo (hinv : Inv s) : Inv (s.modifyFdc fun c => c.readRegFifo.2) := by
  refine hinv.modifyFdc ?_
  have hphased := hinv.phased
  unfold Phased at hphased
  split at hphased
  · next hphase =>
    rw [FloppyController.readRegFifo_execution hphase]
    exact .inr ⟨rfl, rfl, rfl, rfl⟩
  · exact .inl hphased.readRegFifo

theorem step_insertDisk (hinv : Inv s) (driveNo : Fin 2) (image : List Byte)
    (readOnly : Bool) : Inv (s.insertDisk driveNo image readOnly) := by
  unfold System.insertDisk
  split
  · exact hinv
  · refine ⟨hinv.returned, hinv.phased, fun t ht => (hinv.sound t ht).mono rfl ?_⟩
    dsimp only
    rw [getD_eq_getElem?_getD, getD_eq_getElem?_getD]
    rcases Nat.lt_or_ge t.image s.images.length with hlt | hge
    · rw [List.getElem?_append_left hlt]
    · rw [List.getElem?_eq_none hge]
      exact Nat.zero_le _

/-- A fair step keeps the invariant and is as it should be. -/
theorem step_good {e : Event} (hinv : Inv s) (hfair : Fair s e) : Inv (step s e) ∧ Good s e := by
  have hgood : Inv (step s e) → (∀ byte, e ≠ .writeFifo byte) → (∀ i, e ≠ .complete i) →
      Inv (step s e) ∧ Good s e := fun h hfifo hcomplete =>
    ⟨h, h.returned, h.phased, fun byte _ he => absurd he (hfifo byte),
      fun i _ he => absurd he (hcomplete i)⟩
  cases e with
  | readMsr => exact hgood (hinv.modifyFdc (.inr ⟨rfl, rfl, rfl, rfl⟩)) nofun nofun
  | readFifo => exact hgood (step_readFifo hinv) nofun nofun
  | writeDor byte =>
    exact hgood (hinv.modifyFdc (f := fun c => c.writeRegDor byte)
      (FloppyController.writeRegDor_cases byte)) nofun nofun
  | writeTdr byte =>
    refine hgood (hinv.modifyFdc (f := fun c => c.writeRegTdr byte) (.inr ?_)) nofun nofun
    unfold FloppyController.writeRegTdr
    split <;> exact ⟨rfl, rfl, rfl, rfl⟩
  | writeDsr byte =>
    exact hgood (hinv.modifyFdc (f := fun c => c.writeRegDsr byte)
      (FloppyController.writeRegDsr_cases byte)) nofun nofun
  | writeFifo byte =>
    obtain ⟨hinv', hend⟩ := step_writeFifo hinv hfair
    refine ⟨hinv', hinv'.returned, hinv'.phased, ?_, nofun⟩
    intro byte' r he hr
    cases he
    exact hend r hr
  | writeCcr byte =>
    refine hgood (hinv.modifyFdc (f := fun c => c.writeRegCcr byte) (.inr ?_)) nofun nofun
    unfold FloppyController.writeRegCcr
    split <;> exact ⟨rfl, rfl, rfl, rfl⟩
  | complete i =>
    cases hi : s.outstanding[i]? with
    | none =>
      have hsame : s.complete i = s := by
        unfold System.complete
        rw [hi]
      have hinv' : Inv (step s (.complete i)) := by
        change Inv (s.complete i)
        rw [hsame]
        exact hinv
      refine ⟨hinv', hinv'.returned, hinv'.phased, nofun, ?_⟩
      intro j t he ht
      cases he
      rw [hi] at ht
      cases ht
    | some t =>
      obtain ⟨hinv', hend⟩ := step_complete hinv hi hfair
      refine ⟨hinv', hinv'.returned, hinv'.phased, nofun, ?_⟩
      intro j u he hu
      cases he
      rw [hi] at hu
      cases hu
      exact hend
  | insertDisk driveNo image readOnly =>
    exact hgood (step_insertDisk hinv driveNo image readOnly) nofun nofun
  | ejectDisk driveNo | program channels | poke address byte =>
    exact hgood ⟨hinv.returned, hinv.phased, fun t ht => (hinv.sound t ht).mono rfl
      (Nat.le_refl _)⟩ nofun nofun

theorem inv_start (driveTypes : Fin 2 → Nat) (dma : DMA) (memory : Memory) :
    Inv (start driveTypes dma memory) := by
  refine ⟨rfl, ?_, fun _ ht => (not_mem_nil ht).elim⟩
  unfold Phased
  rw [if_neg (by change Phase.command ≠ .execution; decide)]
  constructor
  · change (0x80 : Byte).getLsbD 7 = true
    decide
  · change (0x80 : Byte).getLsbD 6 = false
    decide

/-- A fair run goes well: the controller is never stuck, and its transfers stay inside the image. -/
theorem never_stuck (driveTypes : Fin 2 → Nat) (dma : DMA) (memory : Memory) (es : List Event)
    (hfair : Runs.Each step Fair (start driveTypes dma memory) es) :
    Runs.Each step Good (start driveTypes dma memory) es :=
  Runs.each_of (A := fun _ => True) (fun _ _ _ hinv hfair => step_good hinv hfair)
    (fun _ _ => trivial) (inv_start driveTypes dma memory) hfair

/-! ## The drive of a READ or WRITE -/

theorem currDrive_startDma {start : Int} :
    (s.startDma r d image start len).fdc.currDrive = s.fdc.currDrive := by
  unfold System.startDma
  split
  · split <;> rfl
  · split <;> rfl

theorem currDrive_startTransfer : (s.startTransfer r d).fdc.currDrive = s.fdc.currDrive := by
  unfold System.startTransfer
  dsimp only
  split
  · rfl
  split
  · rfl
  split
  · split
    · rfl
    · exact currDrive_startDma
  · rfl

theorem currDrive_startReadWrite : (s.startReadWrite r).fdc.currDrive = (s.sought r).1 := by
  unfold System.startReadWrite
  dsimp only
  split
  · exact update_self ..
  · exact update_self ..
  · rw [currDrive_startTransfer]
    exact update_self ..
  · rw [currDrive_startTransfer]
    exact update_self ..

/-- A READ or WRITE leaves its drive where it has sought, whatever comes of it. -/
theorem currDrive_readWrite (h : s.readWrite byte = some r) :
    (s.writeRegFifo byte).fdc.currDrive = (s.sought r).1 := by
  cases hexecutes : s.fdc.executes byte with
  | none =>
    rw [System.readWrite, hexecutes] at h
    cases h
  | some c =>
    have hsought := sought_of_executing (executing_of_executes hexecutes) r
    rw [System.readWrite, hexecutes, Option.bind_some] at h
    rw [writeRegFifo_of_some hexecutes, ← hsought]
    split at h
    · next hread =>
      cases h
      rw [hread]
      exact currDrive_startReadWrite
    · next hwrite =>
      cases h
      rw [hwrite]
      exact currDrive_startReadWrite
    · cases h

/-! ## A disk that is read -/

/-- DMA channels that are programmed for one byte to the start of memory. -/
def oneByte : DMA := ⟨fun _ => ⟨0, 0, 0, 0, 0, 0, 0⟩, false, 0⟩

def emptyMemory : Memory := ⟨fun _ => true, fun _ => 0⟩

/-- A disk is inserted, and a READ of a sector of its first track is begun. -/
def beginRead (sect : Byte) : List Event :=
  [.insertDisk 0 [] false, .writeFifo 0x06, .writeFifo 0, .writeFifo 0, .writeFifo 0,
    .writeFifo sect, .writeFifo 2, .writeFifo 1, .writeFifo 0]

theorem fair_of_none (h : s.readWrite byte = none) : Fair s (.writeFifo byte) := by
  intro r hr
  rw [h] at hr
  cases hr

theorem fair_complete (h : s.readWrite byte = some r) (hstands : (s.sought r).1.Stands)
    (hend : (s.sought r).1.currTrack + 1 ≠ (s.sought r).1.maxTrack) :
    Fair (step s (.writeFifo byte)) (.complete i) := by
  intro t _ _
  have hdrive : (step s (.writeFifo byte)).fdc.currDrive = (s.sought r).1 := currDrive_readWrite h
  rw [FloppyController.AtEnd, hdrive]
  exact ⟨hstands, fun hat => hend hat.1⟩

/-- The sector's byte is moved, and the first byte of the result is read. -/
def readThrough : List Event := beginRead 1 ++ [.writeFifo 0xff, .complete 0, .readFifo]

/-- A READ that is begun, moved and answered. -/
theorem never_stuck_reading :
    Runs.Each step Good (start (fun _ => 4) oneByte emptyMemory) readThrough := by
  refine never_stuck (fun _ => 4) oneByte emptyMemory readThrough ?_
  refine ⟨trivial, fair_of_none ?_, fair_of_none ?_, fair_of_none ?_, fair_of_none ?_,
    fair_of_none ?_, fair_of_none ?_, fair_of_none ?_, fair_of_none ?_, ?_,
    fair_complete (r := .ofArgs false [0, 0, 0, 1, 2, 1, 0, 0xff]) ?_ ?_ ?_, trivial, trivial⟩
  on_goal 9 =>
    intro r hr _
    have hr' : some r = some (ReadWrite.ofArgs false [0, 0, 0, 1, 2, 1, 0, 0xff]) := by
      rw [← hr]
      decide +kernel
    cases hr'
    exact ⟨by decide +kernel, .inr ⟨by decide +kernel, isEmpty_iff.1 (by decide +kernel)⟩⟩
  all_goals decide +kernel

/-- A READ of sector zero reads from before the image. -/
theorem throws_on_sector_zero : ¬Runs.Each step Good (start (fun _ => 4) oneByte emptyMemory)
      (beginRead 0 ++ [.writeFifo 0xff]) := by
  intro h
  have hthrown : (step ((beginRead 0).foldl step (start (fun _ => 4) oneByte emptyMemory))
      (.writeFifo 0xff)).thrown = true := by decide +kernel
  rw [h.last.returns] at hthrown
  cases hthrown

end V86.Floppy
