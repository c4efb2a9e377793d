import V86.Dma.Controller
import V86.Lib.Routine

/-!
# Descriptor chains of a virtqueue

`src/virtio.js`: `VirtQueueBufferChain` collects the buffers of a request by following the
descriptors that the driver left in guest memory, at most once through the table of the queue and
then at most once through an indirect table that one of its descriptors names. Whatever memory
holds, it stops, and it stops with a chain that can be used or with an empty one.
-/

namespace V86.Virtio

open Dma (Memory Byte)

/-! ## The device -/

/-- What a chain uses of a `VirtIO` device. -/
structure VirtIO where
  deviceStatus : BitVec 32
  isrStatus : BitVec 32
  configHasChanged : Bool
  qemuCompatible : Bool
  driverFeature : Fin 4 → BitVec 32
  plugGeneration : Nat
  /-- The interrupt line of the device, `pci.raise_irq`. -/
  irq : Bool

def statusDriverOk : BitVec 32 := 4
def statusDeviceNeedsReset : BitVec 32 := 64
def isrQueue : BitVec 32 := 1
def isrDeviceCfg : BitVec 32 := 2

/-- `VIRTIO_F_RING_INDIRECT_DESC`. -/
def featureRingIndirectDesc : Fin 128 := 28

namespace VirtIO

/-- `is_feature_negotiated`. -/
def isFeatureNegotiated (v : VirtIO) (feature : Fin 128) : Bool :=
  0 < (v.driverFeature ⟨feature / 32, by omega⟩ &&& 1#32 <<< (feature.val % 32)).toInt

/-- `raise_irq`. -/
def raiseIrq (v : VirtIO) (type : BitVec 32) : VirtIO :=
  { v with isrStatus := v.isrStatus ||| type, irq := true }

/-- `notify_config_changes`. -/
def notifyConfigChanges (v : VirtIO) : VirtIO :=
  let v := { v with configHasChanged := true }
  if v.deviceStatus &&& statusDriverOk ≠ 0 then
    v.raiseIrq (if v.qemuCompatible then isrDeviceCfg ||| isrQueue else isrDeviceCfg)
  else v

/-- `needs_reset`. -/
def needsReset (v : VirtIO) : VirtIO :=
  let v := { v with deviceStatus := v.deviceStatus ||| statusDeviceNeedsReset }
  if v.deviceStatus &&& statusDriverOk ≠ 0 then v.notifyConfigChanges else v

/-- `DEVICE_NEEDS_RESET`. -/
def mustReset (v : VirtIO) : Bool := v.deviceStatus &&& statusDeviceNeedsReset ≠ 0

theorem mustReset_needsReset (v : VirtIO) : v.needsReset.mustReset = true := by
  have hset : (v.deviceStatus ||| statusDeviceNeedsReset) &&& statusDeviceNeedsReset ≠ 0 := by
    intro h
    have hbit := congrArg (fun x : BitVec 32 => x.getLsbD 6) h
    simp [statusDeviceNeedsReset] at hbit
  rw [mustReset, decide_eq_true_eq, needsReset, notifyConfigChanges, raiseIrq]
  dsimp only
  split
  · exact hset
  · exact hset

end VirtIO

/-! ## Physical memory -/

section
variable (m : Memory)

/-- `read_physical_scalar` for `width` bytes, `none` where it throws. -/
def readPhysicalScalar (address width : Nat) : Option Nat :=
  if m.validatePhysicalRange address width then
    some ((List.range width).foldr (fun i n => (m.bytes (address + i)).toNat + 256 * n) 0)
  else none

/-- `write_physical_scalar` for `width` bytes, `none` where it throws. -/
def writePhysicalScalar (address value width : Nat) : Option Memory :=
  m.writeBlobPhysical ((List.range width).map fun i => BitVec.ofNat 8 (value / 256 ^ i)) address

theorem readPhysicalScalar_congr {m m' : Memory} {address width : Nat}
    (hmapped : m'.mapped = m.mapped)
    (hbytes : ∀ i < width, m'.bytes (address + i) = m.bytes (address + i)) :
    readPhysicalScalar m' address width = readPhysicalScalar m address width := by
  have hvalid : m'.validatePhysicalRange address width = m.validatePhysicalRange address width := by
    rw [Memory.validatePhysicalRange, Memory.validatePhysicalRange, hmapped]
  have hfold : ∀ is : List Nat, (∀ i ∈ is, i < width) →
      is.foldr (fun i n => (m'.bytes (address + i)).toNat + 256 * n) 0 =
        is.foldr (fun i n => (m.bytes (address + i)).toNat + 256 * n) 0 := by
    intro is his
    induction is with
    | nil => rfl
    | cons i is ih =>
      rw [List.foldr_cons, List.foldr_cons, ih fun j hj => his j (.tail _ hj),
        hbytes i (his i (.head _))]
  rw [readPhysicalScalar, readPhysicalScalar, hvalid, hfold _ fun i hi => List.mem_range.1 hi]

end

/-! ## Descriptors -/

/-- A descriptor as `get_descriptor` returns it. -/
structure Desc where
  address : Nat
  len : Nat
  flags : BitVec 16
  next : Nat
  deriving DecidableEq

namespace Desc

/-- `VIRTQ_DESC_F_NEXT`. -/
def hasNext (d : Desc) : Bool := d.flags &&& 1 ≠ 0

/-- `VIRTQ_DESC_F_WRITE`. -/
def isWrite (d : Desc) : Bool := d.flags &&& 2 ≠ 0

/-- `VIRTQ_DESC_F_INDIRECT`. -/
def isIndirect (d : Desc) : Bool := d.flags &&& 4 ≠ 0

/-- The buffer of a descriptor in memory that resolves. -/
def valid (m : Memory) (d : Desc) : Bool := m.validatePhysicalRange d.address d.len

end Desc

/-- `VIRTQ_DESC_ENTRYSIZE`. -/
def descEntrysize : Nat := 16

/-- `get_descriptor`, `none` where a read throws. -/
def getDescriptor (m : Memory) (tableAddress i : Nat) : Option Desc := do
  let addrLow ← readPhysicalScalar m (tableAddress + i * descEntrysize) 4
  let addrHigh ← readPhysicalScalar m (tableAddress + i * descEntrysize + 4) 4
  let len ← readPhysicalScalar m (tableAddress + i * descEntrysize + 8) 4
  let flags ← readPhysicalScalar m (tableAddress + i * descEntrysize + 12) 2
  let next ← readPhysicalScalar m (tableAddress + i * descEntrysize + 14) 2
  pure { address := addrLow + addrHigh * 0x100000000, len, flags := BitVec.ofNat 16 flags, next }

/-- A descriptor depends on its own bytes only. -/
theorem getDescriptor_congr {m m' : Memory} {tableAddress i : Nat} (hmapped : m'.mapped = m.mapped)
    (hbytes : ∀ k < descEntrysize, m'.bytes (tableAddress + i * descEntrysize + k) =
      m.bytes (tableAddress + i * descEntrysize + k)) :
    getDescriptor m' tableAddress i = getDescriptor m tableAddress i := by
  have hread : ∀ offset width, offset + width ≤ descEntrysize →
      readPhysicalScalar m' (tableAddress + i * descEntrysize + offset) width =
        readPhysicalScalar m (tableAddress + i * descEntrysize + offset) width := by
    intro offset width hle
    refine readPhysicalScalar_congr hmapped fun k hk => ?_
    rw [Nat.add_assoc _ offset]
    exact hbytes (offset + k) (by omega)
  have hlow := hread 0 4 (by decide)
  rw [Nat.add_zero] at hlow
  rw [getDescriptor, getDescriptor, hlow, hread 4 4 (by decide), hread 8 4 (by decide),
    hread 12 2 (by decide), hread 14 2 (by decide)]

/-! ## The queue -/

/-- What a chain uses of a `VirtQueue`. -/
structure VirtQueue where
  size : Nat
  descAddr : Nat
  availAddr : Nat
  availLastIdx : Nat
  usedAddr : Nat
  numStagedReplies : Nat

/-- `mask`, that of a size which is a power of two. -/
def VirtQueue.mask (q : VirtQueue) : BitVec 32 := BitVec.ofNat 32 q.size - 1

/-! ## Walking the chain -/

/-- A call of `get_descriptor`: where it reads, and what it gave. -/
structure Visit where
  table : Nat
  idx : Nat
  desc : Option Desc

/-- The variables of `collect_buffers` with the calls of `get_descriptor` it has made. -/
structure Walk where
  tableAddress : Nat
  descIdx : Nat
  chainLength : Nat
  chainMax : Nat
  writableRegion : Bool
  indirect : Bool
  readBuffers : List Desc
  writeBuffers : List Desc
  lengthReadable : Nat
  lengthWritable : Nat
  visits : List Visit

namespace Walk

/-- The variables before the loop. -/
def init (q : VirtQueue) (headIdx : Nat) : Walk where
  tableAddress := q.descAddr
  descIdx := headIdx
  chainLength := 0
  chainMax := q.size
  writableRegion := false
  indirect := false
  readBuffers := []
  writeBuffers := []
  lengthReadable := 0
  lengthWritable := 0
  visits := []

/-- The descriptor that comes next. -/
def desc (m : Memory) (w : Walk) : Option Desc := getDescriptor m w.tableAddress w.descIdx

/-- The descriptor that comes next is read. -/
def visit (m : Memory) (w : Walk) : Walk :=
  { w with
    chainLength := w.chainLength + 1
    visits := w.visits ++ [⟨w.tableAddress, w.descIdx, w.desc m⟩] }

/-- The loop carries on in the table of an indirect descriptor, starting at the first entry. -/
def enter (w : Walk) (d : Desc) : Walk :=
  { w with
    indirect := true
    tableAddress := d.address
    descIdx := 0
    chainLength := 0
    chainMax := d.len / descEntrysize }

/-- The buffer of a descriptor is collected. -/
def push (w : Walk) (d : Desc) : Walk :=
  if d.isWrite then
    { w with
      writableRegion := true
      writeBuffers := w.writeBuffers ++ [d]
      lengthWritable := w.lengthWritable + d.len }
  else
    { w with readBuffers := w.readBuffers ++ [d], lengthReadable := w.lengthReadable + d.len }

/-- Whether `collect_buffers` refuses an indirect descriptor. -/
def badIndirect (hasIndirectFeature : Bool) (w : Walk) (d : Desc) : Bool :=
  !hasIndirectFeature || w.indirect || d.hasNext || d.len = 0 || d.len % descEntrysize ≠ 0 ||
    65536 < d.len / descEntrysize

/-- Whether the descriptor that comes next is outside its table, or one too many. -/
def outside (w : Walk) : Bool := w.chainMax ≤ w.descIdx || w.chainMax < w.chainLength + 1

end Walk

/-- How a round of the loop ends: with another one, with the end of the chain, or with a
`RangeError`. -/
inductive Round where
  | next (w : Walk)
  | stop (w : Walk)
  | error (w : Walk)

/-- A round of the loop of `collect_buffers`. -/
def round (m : Memory) (hasIndirectFeature : Bool) (w : Walk) : Round :=
  if w.outside then .error w
  else
    match w.desc m with
    | none => .error (w.visit m)
    | some d =>
      if !d.valid m then .error (w.visit m)
      else if d.isIndirect then
        if w.badIndirect hasIndirectFeature d then .error (w.visit m)
        else .next ((w.visit m).enter d)
      else if !d.isWrite && w.writableRegion then .error (w.visit m)
      else if d.hasNext then .next { (w.visit m).push d with descIdx := d.next }
      else .stop ((w.visit m).push d)

variable {m : Memory} {f : Bool} {w w' : Walk}

/-- The rounds, by how they end. -/
theorem round_cases {P : Round → Prop} (limit : w.outside = true → P (.error w))
    (failed : w.descIdx < w.chainMax → w.chainLength < w.chainMax → P (.error (w.visit m)))
    (enter : ∀ d, w.descIdx < w.chainMax → w.chainLength < w.chainMax → w.desc m = some d →
      d.valid m = true → d.isIndirect = true → w.badIndirect f d = false →
        P (.next ((w.visit m).enter d)))
    (push : ∀ d, w.descIdx < w.chainMax → w.chainLength < w.chainMax → w.desc m = some d →
      d.valid m = true → d.isIndirect = false → (d.isWrite = false → w.writableRegion = false) →
        (d.hasNext = true → P (.next { (w.visit m).push d with descIdx := d.next })) ∧
          (d.hasNext = false → P (.stop ((w.visit m).push d)))) :
    P (round m f w) := by
  rw [round]
  split
  · next hlimit => exact limit hlimit
  · next hlimit =>
    simp only [Walk.outside, Bool.or_eq_true, decide_eq_true_eq, not_or, Nat.not_le, Nat.not_lt] at hlimit
    obtain ⟨hidx, hlength⟩ := hlimit
    cases hd : w.desc m with
    | none => exact failed hidx hlength
    | some d =>
      dsimp only
      cases hvalid : d.valid m with
      | false => exact failed hidx hlength
      | true =>
        cases hindirect : d.isIndirect with
        | true =>
          cases hbad : w.badIndirect f d with
          | true => exact failed hidx hlength
          | false => exact enter d hidx hlength hd hvalid hindirect hbad
        | false =>
          cases hbad : !d.isWrite && w.writableRegion with
          | true => exact failed hidx hlength
          | false =>
            have hwritable : d.isWrite = false → w.writableRegion = false := by
              intro hread
              simpa [hread] using hbad
            obtain ⟨hnext, hstop⟩ := push d hidx hlength hd hvalid hindirect hwritable
            cases h : d.hasNext with
            | true => exact hnext h
            | false => exact hstop h

/-- What the loop still may do: first the rounds in the table of the queue, then those in the
indirect one. -/
def Walk.todo (w : Walk) : Nat × Nat :=
  (if w.indirect then 0 else 1, w.chainMax - w.chainLength)

@[simp] theorem Walk.chainMax_push (w : Walk) (d : Desc) : (w.push d).chainMax = w.chainMax := by
  rw [push]
  split <;> rfl

@[simp] theorem Walk.chainLength_push (w : Walk) (d : Desc) :
    (w.push d).chainLength = w.chainLength := by
  rw [push]
  split <;> rfl

@[simp] theorem Walk.indirect_push (w : Walk) (d : Desc) : (w.push d).indirect = w.indirect := by
  rw [push]
  split <;> rfl

theorem round_todo (h : round m f w = .next w') : Prod.Lex (· < ·) (· < ·) w'.todo w.todo := by
  revert h
  refine round_cases (P := fun r => r = .next w' → Prod.Lex (· < ·) (· < ·) w'.todo w.todo)
    ?_ ?_ ?_ ?_
  · intro _ h
    cases h
  · intro _ _ h
    cases h
  · intro d _ _ _ _ _ hbad h
    cases h
    have hdirect : w.indirect = false := by
      cases hw : w.indirect with
      | false => rfl
      | true => simp [Walk.badIndirect, hw] at hbad
    refine .left _ _ ?_
    rw [hdirect]
    exact Nat.zero_lt_one
  · intro d _ hlength _ _ _ _
    refine ⟨fun _ h => ?_, fun _ h => by cases h⟩
    cases h
    rw [Walk.todo, Walk.todo]
    simp only [Walk.indirect_push, Walk.chainMax_push, Walk.chainLength_push]
    refine .right _ ?_
    change w.chainMax - (w.chainLength + 1) < w.chainMax - w.chainLength
    omega

/-- `collect_buffers` from some point of its loop on, and whether it came to the end of the
chain. -/
def collectBuffers (m : Memory) (hasIndirectFeature : Bool) (w : Walk) : Walk × Bool :=
  match _h : round m hasIndirectFeature w with
  | .next w' => collectBuffers m hasIndirectFeature w'
  | .stop w' => (w', true)
  | .error w' => (w', false)
termination_by w.todo
decreasing_by exact round_todo ‹_›

theorem collectBuffers_next (h : round m f w = .next w') :
    collectBuffers m f w = collectBuffers m f w' := by
  rw [collectBuffers]
  split <;> simp_all only [Round.next.injEq, reduceCtorEq]

theorem collectBuffers_stop (h : round m f w = .stop w') : collectBuffers m f w = (w', true) := by
  rw [collectBuffers]
  split <;> simp_all only [Round.stop.injEq, reduceCtorEq]

theorem collectBuffers_error (h : round m f w = .error w') :
    collectBuffers m f w = (w', false) := by
  rw [collectBuffers]
  split <;> simp_all only [Round.error.injEq, reduceCtorEq]

/-- The loop for as many rounds as there is fuel, which evaluates. -/
def collectRounds (m : Memory) (hasIndirectFeature : Bool) : Nat → Walk → Option (Walk × Bool)
  | 0, _ => none
  | fuel + 1, w =>
    match round m hasIndirectFeature w with
    | .next w' => collectRounds m hasIndirectFeature fuel w'
    | .stop w' => some (w', true)
    | .error w' => some (w', false)

theorem collectBuffers_of_rounds {fuel : Nat} {r : Walk × Bool}
    (h : collectRounds m f fuel w = some r) : collectBuffers m f w = r := by
  induction fuel generalizing w with
  | zero => cases h
  | succ fuel ih =>
    rw [collectRounds] at h
    cases hround : round m f w with
    | next w' =>
      rw [hround] at h
      rw [collectBuffers_next hround]
      exact ih h
    | stop w' =>
      rw [hround] at h
      rw [collectBuffers_stop hround]
      exact Option.some.inj h
    | error w' =>
      rw [hround] at h
      rw [collectBuffers_error hround]
      exact Option.some.inj h

/-! ## The constructor -/

/-- What of a `VirtQueueBufferChain` its constructor sets. -/
structure BufferChain where
  headIdx : Nat
  readBuffers : List Desc
  lengthReadable : Nat
  writeBuffers : List Desc
  lengthWritten : Nat
  lengthWritable : Nat
  valid : Bool
  plugGeneration : Nat

/-- `new VirtQueueBufferChain`: the chain, the device it leaves, and the descriptors it read. -/
def bufferChain (m : Memory) (v : VirtIO) (q : VirtQueue) (headIdx : Nat) :
    BufferChain × VirtIO × List Visit :=
  let chain : BufferChain :=
    { headIdx, readBuffers := [], lengthReadable := 0, writeBuffers := [], lengthWritten := 0,
      lengthWritable := 0, valid := false, plugGeneration := v.plugGeneration }
  match collectBuffers m (v.isFeatureNegotiated featureRingIndirectDesc) (.init q headIdx) with
  | (w, true) =>
    ({ chain with
      readBuffers := w.readBuffers
      lengthReadable := w.lengthReadable
      writeBuffers := w.writeBuffers
      lengthWritable := w.lengthWritable
      valid := true }, v, w.visits)
  | (w, false) => (chain, v.needsReset, w.visits)

/-! ## The rings -/

/-- What `pop_request` and `push_reply` change. -/
structure Rings where
  memory : Memory
  queue : VirtQueue

/-- `avail_get_entry`. -/
def availGetEntry (s : Rings) (i : Nat) : Option Nat :=
  readPhysicalScalar s.memory
    (s.queue.availAddr + 4 + 2 * (BitVec.ofNat 32 i &&& s.queue.mask).toNat) 2

/-- `pop_request`, `none` where reading the ring throws. -/
def popRequest (s : Rings) (v : VirtIO) : Option (BufferChain × VirtIO × Rings) := do
  let descIdx ← availGetEntry s s.queue.availLastIdx
  let (chain, v, _) := bufferChain s.memory v s.queue descIdx
  pure (chain, v, { s with queue.availLastIdx := (s.queue.availLastIdx + 1) % 0x10000 })

/-- A write to memory, `false` in place of what it throws. -/
def writePhysical (address value width : Nat) : Routine Unit Rings Unit := do
  match writePhysicalScalar (← get).memory address value width with
  | none => throw ()
  | some memory => modify fun s => { s with memory }

/-- `used_set_entry`. -/
def usedSetEntry (i descIdx lengthWritten : Nat) : Routine Unit Rings Unit := do
  let usedAddr := (← get).queue.usedAddr
  writePhysical (usedAddr + 4 + 8 * i) descIdx 4
  writePhysical (usedAddr + 8 + 8 * i) lengthWritten 4

/-- `push_reply`. -/
def pushReply (v : VirtIO) (c : BufferChain) : Routine Unit Rings Unit := do
  if !c.valid || c.plugGeneration ≠ v.plugGeneration then return
  let s ← get
  match readPhysicalScalar s.memory (s.queue.usedAddr + 2) 2 with
  | none => throw ()
  | some idx =>
    let usedIdx := BitVec.ofNat 32 (idx + s.queue.numStagedReplies) &&& s.queue.mask
    usedSetEntry usedIdx.toNat c.headIdx c.lengthWritten
    modify fun s => { s with queue.numStagedReplies := s.queue.numStagedReplies + 1 }

end V86.Virtio
