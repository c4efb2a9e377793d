import V86.Lib.History
import V86.X64.Paging

/-!
# The caches of compiled pages

What compiled code in long mode keeps of translations: the access cache of `x64/jac.rs`, and of
`x64/pages.rs` the chaining tables and the last translation of a code page. An entry is tagged with
its linear page and with the epoch of its core, which a flush moves on.
-/

namespace V86.X64

open Bits History

/-- `EPOCH_SHIFT`. -/
def epochShift : Nat := 52

/-- `EPOCH_LIMIT`. -/
def epochLimit : BitVec 64 := 1 <<< (64 - epochShift)

/-- `WASM_TABLE_OFFSET`. -/
def wasmTableOffset : Dword := 1024

/-- An entry of the access cache, whose `target` is the `host` of the page, or of a chaining table,
whose `target` is a `table_index`. `isLarge` is a ghost: whether the translation that the entry is
from is of a large page. No step reads it. -/
structure Entry where
  tag : BitVec 64
  target : Dword
  isGlobal : Bool
  isLarge : Bool

def Entry.empty : Entry := ⟨0, 0, false, false⟩

/-- A direct-mapped table: the slot of a page is its low ten bits. -/
abbrev Table := BitVec 10 → Entry

namespace Table

def empty : Table := fun _ => .empty

/-- The slot of a page. -/
def slotOf (page : BitVec 64) : BitVec 10 := page.setWidth 10

def set (t : Table) (page : BitVec 64) (e : Entry) : Table :=
  fun i => if i = slotOf page then e else t i

/-- Retire the entries that satisfy `p`. -/
def retire (t : Table) (p : BitVec 10 → Entry → Bool) : Table :=
  fun i => if p i (t i) then { t i with tag := 0 } else t i

end Table

/-- `CODE_TLB` of a core. `isLarge` is a ghost, as of an entry. -/
structure CodeTlb where
  tag : BitVec 64
  linear : BitVec 64
  page : Dword
  isGlobal : Bool
  isLarge : Bool

def CodeTlb.empty : CodeTlb := ⟨0, 0, 0, false, false⟩

/-- What a core has in `JAC`, `CHAIN` and `CODE_TLB`. -/
structure Core where
  /-- Read supervisor, read user, write supervisor, write user. -/
  tables : Fin 4 → Table
  epoch : BitVec 64
  large : Filter 16
  chain : Bool → Table
  codeTlb : CodeTlb

/-- The table of the access cache for a privilege and a kind of access. -/
def tableOf (user write : Bool) : Fin 4 :=
  ⟨write.toNat * 2 + user.toNat, by cases write <;> cases user <;> decide⟩

namespace Core

def new : Core := ⟨fun _ => .empty, 1, .empty, fun _ => .empty, .empty⟩

/-! ## The access cache -/

/-- `epoch_bits`. -/
def epochBits (c : Core) : BitVec 64 := c.epoch <<< epochShift

/-- `flush`. The tables are emptied when the epoch wraps. -/
def flush (c : Core) : Core :=
  let c := { c with epoch := c.epoch + 1, large := .empty }
  if c.epoch = epochLimit then { c with tables := fun _ => .empty, epoch := 1 } else c

/-- `flush_nonglobal`. -/
def flushNonglobal (c : Core) : Core :=
  { c with tables := fun k => (c.tables k).retire fun _ e => !e.isGlobal }

/-- `invlpg` of the access cache. `region_bit` is that of the TLB. -/
def jacInvlpg (c : Core) (address : Address) : Core :=
  if c.large.has (tlbRegionBit address) then c.flush
  else
    let page := address >>> 12
    { c with tables := fun k => (c.tables k).retire fun i e =>
      i = Table.slotOf page && e.tag = page ||| c.epochBits }

/-- `fill`. `mem8` is where the guest's memory is in the host's. -/
def fill (mem8 : Dword) (c : Core) (user write : Bool) (address : Address) (backing : Dword)
    (large isGlobal : Bool) : Core :=
  let page := address >>> 12
  { c with
    large := if large then c.large.mark (tlbRegionBit address) else c.large
    tables := fun k => if k = tableOf user write then
        (c.tables k).set page ⟨page ||| c.epochBits, mem8 + backing, isGlobal, large⟩
      else c.tables k }

/-! ## Code -/

/-- `chain_fill`. -/
def chainFill (c : Core) (user : Bool) (rip : Address) (slot : Dword) (isGlobal large : Bool) :
    Core :=
  let page := rip >>> 12
  { c with chain := fun u => if u = user then
      (c.chain u).set page ⟨page ||| c.epochBits, slot + wasmTableOffset, isGlobal, large⟩
    else c.chain u }

/-- `forget_nonglobal_code`. -/
def forgetNonglobalCode (c : Core) : Core :=
  { c with codeTlb := .empty, chain := fun u => (c.chain u).retire fun _ e => !e.isGlobal }

def userBit (user : Bool) : BitVec 64 := if user then 1 else 0

/-- The cached translation of a code page, if it is of the page. -/
def codeHit (c : Core) (user : Bool) (rip : Address) : Option (Dword × Bool) :=
  if c.codeTlb.tag = c.epochBits ||| userBit user && c.codeTlb.linear = rip >>> 12 then
    some (c.codeTlb.page, c.codeTlb.isGlobal)
  else none

/-- `code_page`. `translated` is what `translate_page_execute` and `code_key` give: the key of the
page, and whether the translation is of a large page and global. -/
def codePage (c : Core) (user : Bool) (rip : Address) (translated : Option (Dword × Bool × Bool)) :
    Option (Dword × Bool) × Core :=
  match c.codeHit user rip with
  | some hit => (some hit, c)
  | none =>
    match translated with
    | some (page, large, isGlobal) => (some (page, isGlobal),
        { c with codeTlb := ⟨c.epochBits ||| userBit user, rip >>> 12, page, isGlobal, large⟩ })
    | none => (none, c)

/-- The linear page of a tag. -/
def tagPage (tag : BitVec 64) : BitVec 64 := tag &&& ~~~(BitVec.allOnes 64 <<< epochShift)

/-- `forget_code_page`. -/
def forgetCodePage (c : Core) (address : Address) : Core :=
  let page := address >>> 12
  { c with
    codeTlb := .empty
    chain := fun u => (c.chain u).retire fun i e => i = Table.slotOf page && tagPage e.tag = page }

/-! ## Invalidations -/

/-- `invalidate_core_nonglobal`, of these caches. -/
def invalidateNonglobal (c : Core) : Core := c.flushNonglobal.forgetNonglobalCode

/-- `memory::invlpg`, of these caches. -/
def invlpg (c : Core) (address : Address) : Core := (c.jacInvlpg address).forgetCodePage address

end Core

/-! ## The machine -/

/-- The caches of the cores. -/
abbrev Machine := Fin 8 → Core

/-- What happens to the caches of a core, and `flush_all`. -/
inductive CacheEvent
  | fill (core : Fin 8) (user write : Bool) (address : Address) (backing : Dword)
      (large isGlobal : Bool)
  | chainFill (core : Fin 8) (user : Bool) (rip : Address) (slot : Dword) (isGlobal large : Bool)
  | codePage (core : Fin 8) (user : Bool) (rip : Address)
      (translated : Option (Dword × Bool × Bool))
  | flush (core : Fin 8)
  | flushAll
  | flushNonglobal (core : Fin 8)
  | invlpg (core : Fin 8) (address : Address)

/-- The effect of an event on a core. -/
def CacheEvent.effect (mem8 : Dword) (k : Fin 8) (c : Core) : CacheEvent → Core
  | .fill core user write address backing large isGlobal =>
    if core = k then c.fill mem8 user write address backing large isGlobal else c
  | .chainFill core user rip slot isGlobal large =>
    if core = k then c.chainFill user rip slot isGlobal large else c
  | .codePage core user rip translated =>
    if core = k then (c.codePage user rip translated).2 else c
  | .flush core => if core = k then c.flush else c
  | .flushAll => c.flush
  | .flushNonglobal core => if core = k then c.invalidateNonglobal else c
  | .invlpg core address => if core = k then c.invlpg address else c

namespace Machine

def new : Machine := fun _ => .new

def step (mem8 : Dword) (m : Machine) (e : CacheEvent) : Machine := fun k => e.effect mem8 k (m k)

end Machine

end V86.X64
