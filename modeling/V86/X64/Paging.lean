import Mathlib.Data.Fintype.Pi
import V86.Lib.Exec
import V86.Lib.Filter

/-!
# Translation in long mode

`x64/paging.rs`: the walk of the four levels of page tables, and the cache of its translations with
its snapshots. The page tables are in a memory that other parties change, which a walk reads and
whose accessed and dirty bits it sets.
-/

namespace V86.X64

open Bits

/-- A linear or a physical address. -/
abbrev Address := BitVec 64

/-- `PHYSICAL_MASK`: 36 bits. -/
def physicalMask : BitVec 64 := 0xFFFFFFFFF

/-- `ADDRESS`. -/
def addressMask : BitVec 64 := 0x000FFFFFFFFFF000

/-- `canonical`, of 48 bits. -/
def canonical (address : Address) : Bool := (address <<< 16).sshiftRight 16 = address

inductive Access
  | read | write | execute
  deriving DecidableEq

inductive WalkMode
  | runtime | snapshot
  deriving DecidableEq

structure Controls where
  cr3 : BitVec 64
  user : Bool
  writeProtect : Bool
  nxEnable : Bool
  deriving DecidableEq

/-- `Fault` of a walk. -/
inductive WalkFault
  | nonCanonical (address : Address)
  | page (address : Address) (error : BitVec 32) (level : Nat)
  | unavailable (address : Address)
  deriving DecidableEq

structure Translation where
  physical : Address
  pageShift : Nat
  writable : Bool
  user : Bool
  executable : Bool
  isGlobal : Bool
  witnesses : Fin 4 → Address
  witnessCount : Nat
  deriving DecidableEq

/-- `PageTableMemory`: reads and writes of entries, which may fail. -/
structure PageTableMemory (μ : Type) where
  readEntry : μ → Address → WalkMode → Option (BitVec 64) × μ
  writeEntry : μ → Address → BitVec 64 → Bool × μ

/-! ## Walks -/

/-- What a walk has gathered above some level. -/
structure Walked where
  table : Address
  writable : Bool
  user : Bool
  executable : Bool
  witnesses : Fin 4 → Address

section
variable {μ : Type} (mem : PageTableMemory μ)

def flag (b : Bool) (n : Nat) : BitVec 32 := if b then BitVec.ofNat 32 n else 0

/-- `page_fault`. -/
def pageFault (address : Address) (access : Access) (c : Controls) (present reserved : Bool)
    (level : Nat) : WalkFault :=
  .page address (flag (access = .write) 2 ||| flag c.user 4 |||
    flag (access = .execute && c.nxEnable) 16 ||| flag present 1 ||| flag reserved 8) level

/-- Set bits of an entry in a walk at runtime, if `need` says so. -/
def setEntry (m : μ) (need : Bool) (address : Address) (value : BitVec 64) :
    Except WalkFault Unit × μ :=
  if need then
    match mem.writeEntry m address value with
    | (true, m) => (.ok (), m)
    | (false, m) => (.error (.unavailable address), m)
  else (.ok (), m)

/-- The entry of a level maps a page: the checks of the access, and the translation. -/
def walkLeaf (address : Address) (access : Access) (c : Controls) (mode : WalkMode) (level : Nat)
    (w : Walked) (entryAddress : Address) (entry : BitVec 64) (large : Bool) (m : μ) :
    Except WalkFault Translation × μ :=
  if (c.user && !w.user) ||
      (access = .write && !w.writable && (c.user || c.writeProtect)) ||
      (access = .execute && !w.executable) then
    (.error (pageFault address access c true false level), m)
  else
    match setEntry mem m (mode = .runtime && access = .write && !entry.getLsbD 6) entryAddress
      (entry ||| 0x60) with
    | (.error e, m) => (.error e, m)
    | (.ok (), m) =>
      let pageShift := if large then 21 else 12
      let offsetMask := BitVec.twoPow 64 pageShift - 1
      (.ok {
        physical := (entry &&& addressMask &&& ~~~offsetMask) ||| (address &&& offsetMask)
        pageShift
        writable := w.writable
        user := w.user
        executable := w.executable
        isGlobal := entry.getLsbD 8
        witnesses := w.witnesses
        witnessCount := 5 - level }, m)

/-- The levels from `level` down. Level 1 maps a page. -/
def walkFrom (address : Address) (access : Access) (c : Controls) (mode : WalkMode) :
    Nat → Walked → μ → Exec (Except WalkFault Translation × μ)
  | 0, _, _ => .error .panic
  | next + 1, w, m =>
    let level := next + 1
    let shift := 12 + next * 9
    let entryAddress := w.table + ((address >>> shift) &&& 511) * 8
    let witnesses (i : Fin 4) := if i.val + level = 4 then entryAddress else w.witnesses i
    match mem.readEntry m entryAddress mode with
    | (none, m) => .ok (.error (.unavailable entryAddress), m)
    | (some entry, m) =>
      if !entry.getLsbD 0 then .ok (.error (pageFault address access c false false level), m)
      else
        let large := 1 < level && entry.getLsbD 7
        if entry &&& addressMask &&& ~~~physicalMask ≠ 0 || (!c.nxEnable && entry.getLsbD 63) ||
            (large && level ≠ 2) || (large && entry &&& 0x1FE000 ≠ 0) then
          .ok (.error (pageFault address access c true true level), m)
        else
          let w : Walked := {
            table := entry &&& addressMask
            writable := w.writable && entry.getLsbD 1
            user := w.user && entry.getLsbD 2
            executable := w.executable && !entry.getLsbD 63
            witnesses }
          match setEntry mem m (mode = .runtime && !entry.getLsbD 5) entryAddress
            (entry ||| 0x20) with
          | (.error e, m) => .ok (.error e, m)
          | (.ok (), m) =>
            if level = 1 || large then
              .ok (walkLeaf mem address access c mode level w entryAddress entry large m)
            else walkFrom address access c mode next w m

/-- `walk`. -/
def walk (m : μ) (address : Address) (access : Access) (c : Controls) (mode : WalkMode) :
    Exec (Except WalkFault Translation × μ) :=
  if !canonical address then .ok (.error (.nonCanonical address), m)
  else walkFrom mem address access c mode 4
    ⟨c.cr3 &&& physicalMask &&& ~~~0xFFF, true, true, true, fun _ => 0⟩ m

end

/-! ## The cache -/

/-- `Cached`. -/
structure Cached where
  linearPage : BitVec 64
  cr3 : BitVec 64
  control : BitVec 8
  epoch : BitVec 64
  value : Translation

/-- `Tlb`. -/
structure Tlb where
  entries : BitVec 8 → Option Cached
  epoch : BitVec 64
  globalEpoch : BitVec 64
  large : Filter 16

def Access.bits : Access → BitVec 8
  | .read => 0
  | .write => 1
  | .execute => 2

/-- `tlb_region_bit`. -/
def tlbRegionBit (address : Address) : Fin 16 × BitVec 64 :=
  let region := (address >>> 21).toNat % 1024
  (⟨region / 64, Nat.div_lt_of_lt_mul (Nat.mod_lt _ (by decide))⟩, bit 64 (region % 64))

namespace Tlb

def new : Tlb := ⟨fun _ => none, 1, 1, .empty⟩

/-- `current`. -/
def current (t : Tlb) (e : Cached) (cr3 : BitVec 64) : Bool :=
  if e.value.isGlobal then e.epoch = t.globalEpoch else e.epoch = t.epoch && e.cr3 = cr3

def controlFlag (b : Bool) (i : Nat) : BitVec 8 := if b then bit 8 i else 0

/-- `control`. -/
def control (access : Access) (c : Controls) : BitVec 8 :=
  access.bits ||| controlFlag c.user 2 ||| controlFlag c.writeProtect 3 ||| controlFlag c.nxEnable 4

/-- `slot`. -/
def slot (address : Address) (access : BitVec 8) : BitVec 8 :=
  (address >>> 12 ^^^ address >>> 32 ^^^ ((access.setWidth 64 &&& 3) <<< 6)).setWidth 8

/-- The entry for an access, if it is one. -/
def hit (t : Tlb) (address : Address) (access : Access) (c : Controls) : Option Cached :=
  match t.entries (slot address access.bits) with
  | some e =>
    if !t.current e c.cr3 || e.linearPage ≠ address >>> 12 || e.control ≠ control access c then none
    else some e
  | none => none

def physicalAt (value : Translation) (address : Address) : Address :=
  (value.physical &&& ~~~4095) ||| (address &&& 4095)

/-- `lookup_physical`. -/
def lookupPhysical (t : Tlb) (address : Address) (access : Access) (c : Controls) : Option Address :=
  (t.hit address access c).map fun e => physicalAt e.value address

/-- `lookup`. -/
def lookup (t : Tlb) (address : Address) (access : Access) (c : Controls) : Option Translation :=
  (t.hit address access c).map fun e => { e.value with physical := physicalAt e.value address }

/-- Replace a slot. -/
def setSlot (t : Tlb) (s : BitVec 8) (e : Option Cached) : Tlb :=
  { t with entries := fun s' => if s' = s then e else t.entries s' }

/-- `insert`. -/
def insert (t : Tlb) (address : Address) (access : Access) (c : Controls) (value : Translation) :
    Tlb :=
  let large :=
    if value.pageShift > 21 then .full
    else if value.pageShift > 12 then t.large.mark (tlbRegionBit address)
    else t.large
  { t with large }.setSlot (slot address access.bits) (some {
    linearPage := address >>> 12
    cr3 := c.cr3
    control := control access c
    epoch := if value.isGlobal then t.globalEpoch else t.epoch
    value })

/-- Empty the slots whose entries satisfy `p`. -/
def retain (t : Tlb) (p : BitVec 8 → Cached → Bool) : Tlb :=
  { t with entries := fun s => (t.entries s).filter fun e => !p s e }

/-- `invalidate`. -/
def invalidate (t : Tlb) (address : Address) : Tlb :=
  if t.large.has (tlbRegionBit address) then
    t.retain fun _ e => (e.linearPage <<< 12) >>> e.value.pageShift = address >>> e.value.pageShift
  else
    t.retain fun s e => [Access.read, .write, .execute].any (fun access => s = slot address access.bits) &&
      e.linearPage = address >>> 12

/-- `clear`. -/
def clear (t : Tlb) : Tlb :=
  if t.epoch + 1 = 0 || t.globalEpoch + 1 = 0 then ⟨fun _ => none, 1, 1, .empty⟩
  else { t with epoch := t.epoch + 1, globalEpoch := t.globalEpoch + 1, large := .empty }

/-- `clear_nonglobal`. -/
def clearNonglobal (t : Tlb) : Tlb :=
  let t := { t with epoch := t.epoch + 1 }
  if t.epoch = 0 then t.clear else t

end Tlb

/-! ## Snapshots of the cache -/

abbrev Dword := BitVec 32

/-- The low and the high half of a word. -/
def halves (x : BitVec 64) : List Dword := [x.setWidth 32, (x >>> 32).setWidth 32]

/-- The `DWORD`s of an entry. -/
def Cached.record (e : Cached) : List Dword :=
  halves e.linearPage ++ halves e.cr3 ++ [e.control.setWidth 32] ++ halves e.value.physical ++
    [BitVec.ofNat 32 e.value.pageShift,
      flag e.value.writable 1 ||| flag e.value.user 2 ||| flag e.value.executable 4 |||
        flag e.value.isGlobal 8, BitVec.ofNat 32 e.value.witnessCount] ++
    (List.finRange 4).flatMap fun i => halves (e.value.witnesses i)

/-- Two `DWORD`s. -/
def wide (record : List Dword) (i : Nat) : BitVec 64 :=
  (record.getD i 0).setWidth 64 ||| (record.getD (i + 1) 0).setWidth 64 <<< 32

namespace Tlb

/-- Is an entry of the current epochs? -/
def isLive (t : Tlb) (e : Cached) : Bool :=
  e.epoch = if e.value.isGlobal then t.globalEpoch else t.epoch

/-- The slots, in their order. -/
def slots : List (BitVec 8) := (List.range 256).map (BitVec.ofNat 8)

/-- The entries that a snapshot holds. -/
def liveEntries (t : Tlb) : List Cached := slots.filterMap fun s => (t.entries s).filter t.isLive

/-- `snapshot`. -/
def snapshot (t : Tlb) : List Dword := t.liveEntries.flatMap Cached.record

end Tlb

/-- The entry of a record, in an empty cache. -/
def decodeRecord (record : List Dword) : Cached where
  linearPage := wide record 0
  cr3 := wide record 2
  control := (record.getD 4 0).setWidth 8
  epoch := 1
  value := {
    physical := wide record 5
    pageShift := (record.getD 7 0).toNat
    writable := (record.getD 8 0).getLsbD 0
    user := (record.getD 8 0).getLsbD 1
    executable := (record.getD 8 0).getLsbD 2
    isGlobal := (record.getD 8 0).getLsbD 3
    witnesses := fun i => wide record (10 + i.val * 2)
    witnessCount := (record.getD 9 0).toNat }

/-- The checks of the linear and physical address, of CR3, of the access, of the size of the page
and of the permissions. -/
def Cached.admissible (e : Cached) : Bool :=
  let address := e.linearPage <<< 12
  let user := e.control.getLsbD 2
  let writeProtect := e.control.getLsbD 3
  let nxEnable := e.control.getLsbD 4
  (e.linearPage >>> 52 = 0 && canonical address && e.cr3 ≤ physicalMask &&
    e.value.physical ≤ physicalMask && e.control &&& 3 ≠ 3 &&
    ((e.value.pageShift = 12 && e.value.witnessCount = 4) ||
      (e.value.pageShift = 21 && e.value.witnessCount = 3))) &&
  !((user && !e.value.user) ||
    (e.control &&& 3 = Access.write.bits && !e.value.writable && (user || writeProtect)) ||
    (e.control &&& 3 = Access.execute.bits && !e.value.executable) ||
    (!nxEnable && !e.value.executable) ||
    (e.value.pageShift = 21 && e.value.physical &&& 0x1FF000 ≠ address &&& 0x1FF000))

/-- The check of the witnesses. -/
def Cached.witnessed (e : Cached) : Bool :=
  (List.finRange 4).all fun i =>
    if i.val < e.value.witnessCount then
      e.value.witnesses i ≤ physicalMask - 7 && e.value.witnesses i &&& 7 = 0
    else e.value.witnesses i = 0

namespace Tlb

/-- A record of a snapshot. The checks change nothing, so that their order does not matter. -/
def restoreRecord (t : Tlb) (record : List Dword) : Option Tlb :=
  let e := decodeRecord record
  let address := e.linearPage <<< 12
  let s := slot address e.control
  if record.getD 4 0 &&& ~~~31 ≠ 0 || record.getD 8 0 &&& ~~~15 ≠ 0 || !e.admissible ||
      (t.entries s).isSome || !e.witnessed then none
  else
    some ({ t with large :=
      if e.value.pageShift = 21 then t.large.mark (tlbRegionBit address) else t.large }.setSlot s
        (some { e with epoch := if e.value.isGlobal then t.globalEpoch else t.epoch }))

/-- `n` records of eighteen `DWORD`s. -/
def restoreRecords : Nat → List Dword → Tlb → Option Tlb
  | 0, _, t => some t
  | n + 1, records, t => do
    let t ← t.restoreRecord (records.take 18)
    restoreRecords n (records.drop 18) t

/-- `restore_snapshot`. -/
def restoreSnapshot (t : Tlb) (records : List Dword) : Bool × Tlb :=
  if records.length % 18 ≠ 0 || records.length / 18 > 256 then (false, t)
  else
    match restoreRecords (records.length / 18) records new with
    | some candidate => (true, candidate)
    | none => (false, t)

end Tlb

end V86.X64
