import V86.Lib.Bits
import V86.Lib.History

/-!
# Translation outside long mode

`cpu/cpu.rs`: the walk of the page tables of 32-bit and PAE paging, and the table of its outcomes
(`tlb_data`), with the list of the pages that may have one (`valid_tlb_entries`). Page tables are in
RAM, as dwords.
-/

namespace V86.Cpu

/-- Is a bit of a mask set? -/
def has (x mask : BitVec 32) : Bool := x &&& mask != 0

/-! ## Controls -/

def pageTablePresent : BitVec 32 := 1 <<< 0
def pageTableRw : BitVec 32 := 1 <<< 1
def pageTableUser : BitVec 32 := 1 <<< 2
def pageTableAccessed : BitVec 32 := 1 <<< 5
def pageTableDirty : BitVec 32 := 1 <<< 6
def pageTablePse : BitVec 32 := 1 <<< 7
def pageTableGlobal : BitVec 32 := 1 <<< 8

def cr0Wp : BitVec 32 := 1 <<< 16
def cr0Pg : BitVec 32 := 1 <<< 31
def cr4Pse : BitVec 32 := 1 <<< 4
def cr4Pae : BitVec 32 := 1 <<< 5
def cr4Pge : BitVec 32 := 1 <<< 7

def tlbValid : BitVec 32 := 1 <<< 0
def tlbReadonly : BitVec 32 := 1 <<< 1
def tlbNoUser : BitVec 32 := 1 <<< 2
def tlbInMappedRange : BitVec 32 := 1 <<< 3
def tlbGlobal : BitVec 32 := 1 <<< 4
def tlbHasCode : BitVec 32 := 1 <<< 5

/-- `VALID_TLB_ENTRY_MAX`. -/
def validTlbEntryMax : Nat := 10000

/-- What a walk depends on, besides the page tables. `mem8` is where the guest's memory is in the
host's, which is allocated in whole pages; `inMappedRange` tells the addresses that are not RAM. -/
structure PageControls where
  cr0 : BitVec 32
  cr3 : BitVec 32
  cr4 : BitVec 32
  pdpte : Fin 4 → BitVec 64
  inMappedRange : BitVec 32 → Bool
  mem8 : BitVec 32
  mem8_aligned : mem8 &&& 0xFFF = 0

/-- The dwords of the page tables, by address. -/
abbrev PageMemory := BitVec 32 → BitVec 32

/-- `set_page_entry_bits`. -/
def PageMemory.setPageEntryBits (m : PageMemory) (address : BitVec 32) (bits : BitVec 8) :
    PageMemory := fun a => if a = address then m a ||| bits.setWidth 32 else m a

/-- The page that an entry points to. -/
def frame (entry : BitVec 32) : BitVec 32 := entry &&& 0xFFFFF000

namespace PageControls

variable (c : PageControls)

def pae : Bool := has c.cr4 cr4Pae

/-- The address of the entry of the page directory, if the PDPTE is present. -/
def pageDirAddr (address : BitVec 32) : Option (BitVec 32) :=
  if c.pae then
    let pdptEntry := (c.pdpte ((address >>> 30).setWidth 2).toFin).setWidth 32
    if has pdptEntry pageTablePresent then
      some (frame pdptEntry + ((address >>> 21) &&& 0x1FF) <<< 3)
    else none
  else some (c.cr3 + (address >>> 22) <<< 2)

/-- The address of the entry of the page table. -/
def pageTableAddr (pageDirEntry address : BitVec 32) : BitVec 32 :=
  if c.pae then frame pageDirEntry + ((address >>> 12) &&& 0x1FF) <<< 3
  else frame pageDirEntry + ((address >>> 12) &&& 0x3FF) <<< 2

/-- The physical page in a large page. -/
def largeHigh (pageDirEntry address : BitVec 32) : BitVec 32 :=
  if c.pae then (pageDirEntry &&& 0xFFE00000) ||| (address &&& 0x1FF000)
  else (pageDirEntry &&& 0xFFC00000) ||| (address &&& 0x3FF000)

end PageControls

/-! ## Walks -/

/-- What a walk finds: the physical page. -/
structure Found where
  high : BitVec 32
  allowUser : Bool
  isGlobal : Bool

/-- Set the accessed bit of an entry, and the dirty bit of a leaf that is written. -/
def markEntry (m : PageMemory) (sideEffects : Bool) (address entry bits : BitVec 32) : PageMemory :=
  let new := entry ||| bits
  if sideEffects && entry != new then m.setPageEntryBits address ((new ^^^ entry).setWidth 8) else m

def leafBits (forWriting : Bool) : BitVec 32 :=
  pageTableAccessed ||| if forWriting then pageTableDirty else 0

/-- `do_page_walk`, up to the page that it finds. An error tells whether the page is present. -/
def walkTables (c : PageControls) (m : PageMemory) (address : BitVec 32)
    (forWriting user sideEffects : Bool) : Except Bool Found × PageMemory :=
  if !has c.cr0 cr0Pg then (.ok ⟨frame address, true, false⟩, m)
  else
    match c.pageDirAddr address with
    | none => (.error false, m)
    | some dirAddr =>
      let dirEntry := m dirAddr
      if !has dirEntry pageTablePresent then (.error false, m)
      else
        let kernelWriteOverride := !user && !has c.cr0 cr0Wp
        let allowWrite := has dirEntry pageTableRw
        let allowUser := has dirEntry pageTableUser
        if has dirEntry pageTablePse && has c.cr4 cr4Pse then
          if (forWriting && !allowWrite && !kernelWriteOverride) || (user && !allowUser) then
            (.error true, m)
          else
            (.ok ⟨c.largeHigh dirEntry address, allowUser, has dirEntry pageTableGlobal⟩,
              markEntry m sideEffects dirAddr dirEntry (leafBits forWriting))
        else
          let tableAddr := c.pageTableAddr dirEntry address
          let tableEntry := m tableAddr
          let present := has tableEntry pageTablePresent
          let allowWrite := allowWrite && has tableEntry pageTableRw
          let allowUser := allowUser && has tableEntry pageTableUser
          if !present || (forWriting && !allowWrite && !kernelWriteOverride) ||
              (user && !allowUser) then
            (.error present, m)
          else
            let m := markEntry m sideEffects dirAddr dirEntry pageTableAccessed
            let m := markEntry m sideEffects tableAddr tableEntry (leafBits forWriting)
            (.ok ⟨frame tableEntry, allowUser, has tableEntry pageTableGlobal⟩, m)

/-! ## The table -/

/-- The number of a page. -/
abbrev PageNumber := BitVec 20

def pageOf (address : BitVec 32) : PageNumber := (address >>> 12).setWidth 20

/-- `tlb_data`, and the first `valid_tlb_entries_count` of `valid_tlb_entries`. -/
structure Tlb where
  data : PageNumber → BitVec 32
  valid : List PageNumber

namespace Tlb

def new : Tlb := ⟨fun _ => 0, []⟩

def setEntry (data : PageNumber → BitVec 32) (page : PageNumber) (entry : BitVec 32) :
    PageNumber → BitVec 32 := fun p => if p = page then entry else data p

/-- `full_clear_tlb`. -/
def fullClear (t : Tlb) : Tlb := ⟨t.valid.foldl (fun data page => setEntry data page 0) t.data, []⟩

/-- A page of the list in `clear_tlb`: it is kept if its entry is global. -/
def clearPage (t : Tlb) (page : PageNumber) : Tlb :=
  if has (t.data page) tlbGlobal then { t with valid := t.valid ++ [page] }
  else { t with data := setEntry t.data page 0 }

/-- `clear_tlb`. The pages that are kept are gathered at the front of the list. -/
def clear (t : Tlb) : Tlb := t.valid.foldl clearPage ⟨t.data, []⟩

/-- `invlpg`. The page stays in the list. -/
def invlpg (t : Tlb) (address : BitVec 32) : Tlb :=
  { t with data := setEntry t.data (pageOf address) 0 }

/-- A place in the list for a page that has no entry. -/
def reserve (t : Tlb) (page : PageNumber) : Tlb :=
  if t.data page = 0 then
    let t :=
      if t.valid.length = validTlbEntryMax then
        let t := t.clear
        if t.valid.length > validTlbEntryMax * 3 / 4 then t.fullClear else t
      else t
    { t with valid := t.valid ++ [page] }
  else t

end Tlb

def tlbFlag (b : Bool) (flag : BitVec 32) : BitVec 32 := if b then flag else 0

/-- The entry for a page. -/
def tlbEntry (c : PageControls) (f : Found) (page : PageNumber) (forWriting hasCode : Bool) :
    BitVec 32 :=
  let isInMappedRange := c.inMappedRange f.high
  let infoBits := tlbValid ||| tlbFlag (!forWriting) tlbReadonly ||| tlbFlag (!f.allowUser) tlbNoUser |||
    tlbFlag isInMappedRange tlbInMappedRange |||
    tlbFlag (f.isGlobal && has c.cr4 cr4Pge) tlbGlobal ||| tlbFlag hasCode tlbHasCode
  ((f.high + c.mem8) ^^^ page.setWidth 32 <<< 12) ||| infoBits

/-! ## Translation -/

/-- A page fault, as `trigger_pagefault` raises it. -/
structure PageFault where
  cr2 : BitVec 32
  errorCode : BitVec 32
  deriving DecidableEq

/-- The page tables and the table of their outcomes. -/
structure Mmu where
  mem : PageMemory
  tlb : Tlb

/-- `trigger_pagefault`. -/
def Mmu.triggerPagefault (s : Mmu) (address : BitVec 32) (present write user : Bool) :
    PageFault × Mmu :=
  (⟨address, tlbFlag user 4 ||| tlbFlag write 2 ||| tlbFlag present 1⟩,
    { s with tlb := s.tlb.invlpg address })

/-- `do_page_walk`. The error is the fault, if one was raised. `hasCode` tells whether the compiler
needs to be notified of writes to the page that the walk finds. -/
def Mmu.doPageWalk (c : PageControls) (s : Mmu) (address : BitVec 32)
    (forWriting user sideEffects : Bool) (hasCode : BitVec 32 → Bool) :
    Except (Option PageFault) (BitVec 32) × Mmu :=
  match walkTables c s.mem address forWriting user sideEffects with
  | (.error present, mem) =>
    let s := { s with mem }
    if sideEffects then
      let (fault, s) := s.triggerPagefault address present forWriting user
      (.error (some fault), s)
    else (.error none, s)
  | (.ok found, mem) =>
    let page := pageOf address
    let tlb := if sideEffects then s.tlb.reserve page else s.tlb
    let code := if sideEffects then !c.inMappedRange found.high && hasCode found.high else true
    let entry := tlbEntry c found page forWriting code
    (.ok entry, ⟨mem, if sideEffects then { tlb with data := Tlb.setEntry tlb.data page entry }
      else tlb⟩)

/-- The entry that serves an access: the one in the table, unless it refuses the access. -/
def Mmu.entryFor (c : PageControls) (s : Mmu) (address : BitVec 32)
    (forWriting user sideEffects : Bool) (hasCode : BitVec 32 → Bool) :
    Except (Option PageFault) (BitVec 32) × Mmu :=
  let entry := s.tlb.data (pageOf address)
  let refused := entry &&& (tlbValid ||| tlbFlag user tlbNoUser ||| tlbFlag forWriting tlbReadonly) !=
    tlbValid
  if refused then s.doPageWalk c address forWriting user sideEffects hasCode else (.ok entry, s)

/-- The physical address by an entry. -/
def physicalBy (c : PageControls) (entry address : BitVec 32) : BitVec 32 :=
  ((entry &&& ~~~0xFFF) ^^^ address) - c.mem8

/-- `translate_address`, outside long mode. -/
def Mmu.translateAddress (c : PageControls) (s : Mmu) (address : BitVec 32)
    (forWriting user sideEffects : Bool) (hasCode : BitVec 32 → Bool) :
    Except (Option PageFault) (BitVec 32) × Mmu :=
  match s.entryFor c address forWriting user sideEffects hasCode with
  | (.ok entry, s) => (.ok (physicalBy c entry address), s)
  | (.error fault, s) => (.error fault, s)

/-- `translate_address_write_and_can_skip_dirty`, outside long mode. -/
def Mmu.translateAddressWriteAndCanSkipDirty (c : PageControls) (s : Mmu) (address : BitVec 32)
    (user : Bool) (hasCode : BitVec 32 → Bool) :
    Except (Option PageFault) (BitVec 32 × Bool) × Mmu :=
  match s.entryFor c address true user true hasCode with
  | (.ok entry, s) => (.ok (physicalBy c entry address, entry &&& tlbHasCode = 0), s)
  | (.error fault, s) => (.error fault, s)

/-! ## Runs -/

inductive MmuEvent
  | translate (address : BitVec 32) (forWriting user sideEffects : Bool)
      (hasCode : BitVec 32 → Bool)
  | translateWrite (address : BitVec 32) (user : Bool) (hasCode : BitVec 32 → Bool)
  | invlpg (address : BitVec 32)
  | clear
  | fullClear

def Mmu.step (c : PageControls) (s : Mmu) : MmuEvent → Mmu
  | .translate address forWriting user sideEffects hasCode =>
    (s.translateAddress c address forWriting user sideEffects hasCode).2
  | .translateWrite address user hasCode =>
    (s.translateAddressWriteAndCanSkipDirty c address user hasCode).2
  | .invlpg address => { s with tlb := s.tlb.invlpg address }
  | .clear => { s with tlb := s.tlb.clear }
  | .fullClear => { s with tlb := s.tlb.fullClear }

end V86.Cpu
