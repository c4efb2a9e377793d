import V86.X64.Paging

/-!
# The translation of the architecture

What a walk of page tables is to find and to do, over the contents of the tables: `Descends` goes
down the entries that point to tables, and `Ends` has one rule for each way in which a walk ends.
The contents of the tables do not change on the way. `TableMemory` is a memory of tables for the walk
of `x64/paging.rs`.
-/

namespace V86.X64

/-! ## Entries -/

/-- The reserved bits of an entry, with 36 physical bits and pages of 4 KiB and 2 MiB. -/
def Reserved (c : Controls) (level : Nat) (entry : BitVec 64) : Prop :=
  (∃ i, 36 ≤ i ∧ i < 52 ∧ entry.getLsbD i) ∨
  c.nxEnable = false ∧ entry.getLsbD 63 ∨
  3 ≤ level ∧ entry.getLsbD 7 ∨
  level = 2 ∧ entry.getLsbD 7 ∧ ∃ i, 13 ≤ i ∧ i < 21 ∧ entry.getLsbD i

/-- The entry maps a page. -/
def Maps (level : Nat) (entry : BitVec 64) : Prop := level = 1 ∨ level = 2 ∧ entry.getLsbD 7

/-- The error code of a page fault. -/
def IsErrorCode (access : Access) (c : Controls) (present reserved : Bool) (error : BitVec 32) :
    Prop :=
  ∀ i, error.getLsbD i =
    if i = 0 then present
    else if i = 1 then decide (access = .write)
    else if i = 2 then c.user
    else if i = 3 then reserved
    else if i = 4 then decide (access = .execute) && c.nxEnable
    else false

/-! ## Paths -/

/-- The entries of a path from level 4 on, with their addresses. -/
abbrev Path := List (Address × BitVec 64)

namespace Path

/-- The level below a path. -/
def level (p : Path) : Nat := 4 - p.length

/-- The table that a path leads to. -/
def table (p : Path) (c : Controls) : Address :=
  (p.getLast?.elim c.cr3 Prod.snd) &&& physicalMask &&& ~~~0xFFF

/-- The entry of an address in the table that a path leads to. -/
def next (p : Path) (c : Controls) (address : Address) : Address :=
  p.table c + ((address >>> (12 + (p.level - 1) * 9)) &&& 511) * 8

def addresses (p : Path) : List Address := p.map Prod.fst

/-- The entries of a path permit an access. -/
def Permits (p : Path) (access : Access) (c : Controls) : Prop :=
  (c.user → ∀ v ∈ p, v.2.getLsbD 2) ∧
  (access = .write →
    (∀ v ∈ p, v.2.getLsbD 1) ∨ c.user = false ∧ c.writeProtect = false) ∧
  (access = .execute → ∀ v ∈ p, v.2.getLsbD 63 = false)

/-- The translation by a path whose last entry maps a page. -/
def translation (p : Path) (address : Address) (entry : BitVec 64) : Translation :=
  let pageShift := if p.length = 4 then 12 else 21
  let offset := BitVec.twoPow 64 pageShift - 1
  { physical := (entry &&& physicalMask &&& ~~~offset) ||| (address &&& offset)
    pageShift
    writable := p.all (·.2.getLsbD 1)
    user := p.all (·.2.getLsbD 2)
    executable := p.all (!·.2.getLsbD 63)
    isGlobal := entry.getLsbD 8
    witnesses i := p.addresses[i.val]?.getD 0
    witnessCount := p.length }

end Path

section
variable (cells : Address → Option (BitVec 64)) (address : Address) (access : Access) (c : Controls)

/-- The path of an address: its entries are present, without reserved bits, and point to tables. -/
inductive Descends : Path → Prop
  | root : Descends []
  | next {p : Path} {entry : BitVec 64} (above : Descends p)
      (read : cells (p.next c address) = some entry) (present : entry.getLsbD 0 = true)
      (sound : ¬Reserved c p.level entry) (points : ¬Maps p.level entry) :
      Descends (p ++ [(p.next c address, entry)])

/-- What a walk gives, the entries that it reads, those that it marks as accessed and the one that
it marks as dirty. -/
structure Outcome where
  result : Except WalkFault Translation
  seen : List Address
  accessed : List Address
  dirty : Option Address

/-- The walk ends below a path: the first level that fails gives the fault. -/
inductive Ends (p : Path) : Outcome → Prop
  | unavailable (read : cells (p.next c address) = none) :
      Ends p ⟨.error (.unavailable (p.next c address)), p.addresses ++ [p.next c address],
        p.addresses, none⟩
  | notPresent {entry : BitVec 64} {error : BitVec 32}
      (read : cells (p.next c address) = some entry) (present : entry.getLsbD 0 = false)
      (code : IsErrorCode access c false false error) :
      Ends p ⟨.error (.page address error p.level), p.addresses ++ [p.next c address],
        p.addresses, none⟩
  | reserved {entry : BitVec 64} {error : BitVec 32}
      (read : cells (p.next c address) = some entry) (present : entry.getLsbD 0 = true)
      (reserved : Reserved c p.level entry) (code : IsErrorCode access c true true error) :
      Ends p ⟨.error (.page address error p.level), p.addresses ++ [p.next c address],
        p.addresses, none⟩
  | denied {entry : BitVec 64} {error : BitVec 32}
      (read : cells (p.next c address) = some entry) (present : entry.getLsbD 0 = true)
      (sound : ¬Reserved c p.level entry) (maps : Maps p.level entry)
      (denied : ¬Path.Permits (p ++ [(p.next c address, entry)]) access c)
      (code : IsErrorCode access c true false error) :
      Ends p ⟨.error (.page address error p.level), p.addresses ++ [p.next c address],
        p.addresses ++ [p.next c address], none⟩
  | translated {entry : BitVec 64}
      (read : cells (p.next c address) = some entry) (present : entry.getLsbD 0 = true)
      (sound : ¬Reserved c p.level entry) (maps : Maps p.level entry)
      (permitted : Path.Permits (p ++ [(p.next c address, entry)]) access c) :
      Ends p ⟨.ok (Path.translation (p ++ [(p.next c address, entry)]) address entry),
        p.addresses ++ [p.next c address], p.addresses ++ [p.next c address],
        if access = .write then some (p.next c address) else none⟩

/-- What a walk gives and does. -/
inductive Walks : Outcome → Prop
  | nonCanonical (h : canonical address = false) :
      Walks ⟨.error (.nonCanonical address), [], [], none⟩
  | follows {p : Path} {o : Outcome} (h : canonical address = true)
      (path : Descends cells address c p) (ends : Ends cells address access c p o) : Walks o

end

/-- The bits that a walk at run time sets in an entry: A, and D. -/
def Outcome.marks (o : Outcome) (a : Address) : BitVec 64 :=
  (if a ∈ o.accessed then 0x20 else 0) ||| (if o.dirty = some a then 0x40 else 0)

/-! ## Tables in memory -/

/-- A memory of page tables, by the addresses of their entries. The tables may be in the memory of a
device, which a walk for the compiler may not read. `writes` counts the writes of entries. -/
structure TableMemory where
  cell : Address → Option (BitVec 64)
  peekable : Address → Bool
  writes : Nat

namespace TableMemory

/-- The entries that a walk may read. -/
def visible (m : TableMemory) : WalkMode → Address → Option (BitVec 64)
  | .runtime, a => m.cell a
  | .snapshot, a => if m.peekable a then m.cell a else none

/-- `read_entry` and `write_entry`. -/
def access : PageTableMemory TableMemory where
  readEntry m a mode := (m.visible mode a, m)
  writeEntry m a value :=
    if (m.cell a).isSome then
      (true, { m with cell := Function.update m.cell a (some value), writes := m.writes + 1 })
    else (false, m)

end TableMemory

end V86.X64
