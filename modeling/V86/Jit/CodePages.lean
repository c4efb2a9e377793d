import V86.Lib.Bits
import Mathlib.Algebra.Group.Int.Defs

/-!
# Table slots and watched code pages

The state of `src/rust/jit.rs`: the table indices that are free, the slots with the physical pages
that their code was compiled from, the number of slots that watch each page, and its mirrors: the
bitmap for writers, the translations' flag and the claims of pages against other cores.
-/

namespace V86.Jit

/-- `WASM_TABLE_SIZE`. -/
def wasmTableSize : Nat := 12000

/-- A physical page. -/
abbrev Page := Nat

/-- A `HashSet` of pages, in the order in which it goes through them. -/
abbrev PageSet := { pages : List Page // pages.Nodup }

/-- What an instance is seen to do. -/
inductive Call where
  /-- `ir_page_count`, with the sum that it clamps and cuts to a `u16`. -/
  | counted (page : Page) (sum : Int)
  /-- `parallel::code::claim`. -/
  | claim (page : Page)
  /-- `parallel::code::release`. -/
  | release (page : Page)
  /-- `parallel::code::release_all`. -/
  | releaseAll
  /-- `parallel::code::written`. -/
  | written (page : Page)
  deriving DecidableEq

/-- A reserved slot: its index in the table, its owner's id and the pages it depends on. -/
structure Slot where
  index : Nat
  id : Nat
  pages : PageSet
  deriving DecidableEq

/-- `JitState`, the bitmap `WATCHED`, what `tlb_set_has_code` was last called with for each page,
and the calls, the latest first. -/
structure JitState where
  freeList : List Nat
  irSlots : List Slot
  irPageCounts : List (BitVec 16)
  watched : List (BitVec 64)
  hasCode : Page → Option Bool
  calls : List Call

/-- `Vec::resize` to a greater length. -/
def grow {α : Type _} (l : List α) (n : Nat) (x : α) : List α :=
  l ++ List.replicate (n - l.length) x

namespace JitState

/-- `JitState::create_and_initialise`. -/
def initial : JitState where
  freeList := List.range' 1 (wasmTableSize - 1)
  irSlots := []
  irPageCounts := []
  watched := []
  hasCode _ := none
  calls := []

/-! ## Counts -/

/-- An element of `ir_page_counts`, which is zero beyond its end. -/
def pageCount (s : JitState) (page : Page) : BitVec 16 := s.irPageCounts.getD page 0

/-- `ir_page_watched`. -/
def irPageWatched (s : JitState) (page : Page) : Bool := s.pageCount page != 0

/-- `set_watched`. -/
def setWatched (bits : List (BitVec 64)) (page : Page) (watched : Bool) : List (BitVec 64) :=
  if bits.length ≤ page / 64 ∧ !watched then bits
  else
    (grow bits (page / 64 + 1) 0).modify (page / 64) fun w =>
      if watched then w ||| Bits.bit 64 (page % 64) else w &&& ~~~Bits.bit 64 (page % 64)

/-- The bit of a page in the bitmap, as `page_watched` reads it. -/
def watchedBit (bits : List (BitVec 64)) (page : Page) : Bool :=
  bits[page / 64]?.any fun (w : BitVec 64) => (w >>> (page % 64)) &&& 1#64 != 0

def call (s : JitState) (c : Call) : JitState := { s with calls := c :: s.calls }

/-- `ir_page_count`. -/
def irPageCount (s : JitState) (page : Page) (delta : Int) : JitState :=
  let before := s.pageCount page != 0
  let sum := (s.pageCount page).toNat + delta
  let count := BitVec.ofInt 16 (max sum 0)
  let after := count != 0
  let s := { s with
    irPageCounts := (grow s.irPageCounts (page + 1) 0).set page count
    watched := setWatched s.watched page after
    calls := .counted page sum :: s.calls }
  if before ≠ after then s.call (if after then .claim page else .release page) else s

/-- `ir_page_count` for each page of a set. -/
def irPageCounted (s : JitState) (pages : List Page) (delta : Int) : JitState :=
  pages.foldl (fun s page => s.irPageCount page delta) s

/-- `tlb_set_has_code` for each page of a set. -/
def tlbSetHasCode (s : JitState) (pages : List Page) (hasCode : Page → Bool) : JitState :=
  { s with hasCode := fun page => if page ∈ pages then some (hasCode page) else s.hasCode page }

/-! ## Slots -/

/-- `insert` of `ir_slots`. -/
def insertSlot (slots : List Slot) (slot : Slot) : List Slot :=
  slots.filter (·.index ≠ slot.index) ++ [slot]

/-- `ir_reserve_slot`. -/
def irReserveSlot (s : JitState) (id : Nat) (pages : PageSet) : JitState × Option Nat :=
  match s.freeList.getLast? with
  | none => (s, none)
  | some index =>
    let s := { s with freeList := s.freeList.dropLast }
    let s := s.irPageCounted pages.1 1
    let s := { s with irSlots := insertSlot s.irSlots ⟨index, id, pages⟩ }
    (s.tlbSetHasCode pages.1 fun _ => true, some index)

/-- `ir_release_slot`. -/
def irReleaseSlot (s : JitState) (index id : Nat) : JitState × Bool :=
  if index = 0 ∨ wasmTableSize ≤ index then (s, false)
  else
    match s.irSlots.find? (·.index = index % 2 ^ 16) with
    | none => (s, false)
    | some slot =>
      if slot.id ≠ id then (s, false)
      else
        let s := { s with irSlots := s.irSlots.filter (·.index ≠ index % 2 ^ 16) }
        let s := s.irPageCounted slot.pages.1 (-1)
        let s := s.tlbSetHasCode slot.pages.1 s.irPageWatched
        ({ s with freeList := s.freeList ++ [index % 2 ^ 16] }, true)

/-- A slot whose pages are drained. -/
def drain (slot : Slot) : Slot := { slot with pages := ⟨[], List.nodup_nil⟩ }

/-- `retire_page_ctx`. -/
def retirePage (s : JitState) (page : Page) : JitState :=
  if !s.irPageWatched page then s
  else
    let unwatched := (s.irSlots.filter (page ∈ ·.pages.1)).flatMap (·.pages.1)
    let s := { s with irSlots := s.irSlots.map fun (slot : Slot) =>
      if page ∈ slot.pages.1 then drain slot else slot }
    let s := s.irPageCounted unwatched (-1)
    s.tlbSetHasCode unwatched s.irPageWatched

/-- `jit_dirty_page`. -/
def jitDirtyPage (s : JitState) (page : Page) : JitState := (s.call (.written page)).retirePage page

/-- The pages of `jit_dirty_cache`. -/
def dirtyPages (start stop : Nat) : List Page :=
  List.range' (start / 4096) ((stop - 1) / 4096 + 1 - start / 4096)

/-- `jit_dirty_cache`. -/
def jitDirtyCache (s : JitState) (start stop : Nat) : JitState :=
  (dirtyPages start stop).foldl jitDirtyPage s

/-- `jit_clear_cache`. -/
def jitClearCache (s : JitState) : JitState :=
  let pagesWithCode := s.irSlots.flatMap (·.pages.1)
  let s := { s with
    irSlots := s.irSlots.map drain
    irPageCounts := []
    watched := []
    calls := .releaseAll :: s.calls }
  s.tlbSetHasCode pagesWithCode fun _ => false

end JitState

/-! ## Runs -/

inductive Event where
  | reserve (id : Nat) (pages : PageSet)
  | release (index id : Nat)
  | dirtyPage (page : Page)
  | dirtyCache (start stop : Nat)
  | retirePage (page : Page)
  | clearCache
  /-- The `HashMap` goes through its slots in another order. -/
  | rehash (slots : List Slot)

def step (s : JitState) : Event → JitState
  | .reserve id pages => (s.irReserveSlot id pages).1
  | .release index id => (s.irReleaseSlot index id).1
  | .dirtyPage page => s.jitDirtyPage page
  | .dirtyCache start stop => s.jitDirtyCache start stop
  | .retirePage page => s.retirePage page
  | .clearCache => s.jitClearCache
  | .rehash slots => if slots.isPerm s.irSlots then { s with irSlots := slots } else s

def run (events : List Event) : JitState := events.foldl step .initial

end V86.Jit
