import Mathlib.Data.List.Range
import Mathlib.Tactic.Ring

/-!
# Scattered memory

A table of entries names pieces of memory that together hold the bytes of a transfer, one piece
after the other. A transfer of a range of the bytes is cut into segments, each inside one piece
(`Transfer`), and whatever the cuts, the bytes are those of the table (`Transfer.bytes_eq`).
-/

namespace V86.Scatter

open List

/-- A piece of memory. -/
structure Entry where
  address : Int
  count : Nat
  pos : 0 < count

/-- A part of a transfer: where in memory it is, and where in the transfer. -/
structure Segment where
  address : Int
  offset : Nat
  length : Nat

section
variable (table : Nat → Entry)

/-- The position of an entry's first byte. -/
def start : Nat → Nat
  | 0 => 0
  | k + 1 => start k + (table k).count

theorem start_lt_succ (k : Nat) : start table k < start table (k + 1) :=
  Nat.lt_add_of_pos_right (table k).pos

theorem start_strictMono : StrictMono (start table) := strictMono_nat_of_lt_succ (start_lt_succ table)

theorem le_start (k : Nat) : k ≤ start table k := by
  induction k with
  | zero => exact Nat.zero_le _
  | succ k ih => exact Nat.lt_of_le_of_lt ih (start_lt_succ table k)

theorem exists_lt_start (p : Nat) : ∃ k, p < start table (k + 1) := ⟨p, le_start table (p + 1)⟩

/-- The entry that a byte is in. -/
def index (p : Nat) : Nat := Nat.find (exists_lt_start table p)

variable {table} {p k : Nat}

theorem lt_start_index (p : Nat) : p < start table (index table p + 1) :=
  Nat.find_spec (exists_lt_start table p)

theorem start_index_le (p : Nat) : start table (index table p) ≤ p := by
  cases h : index table p with
  | zero => exact Nat.zero_le p
  | succ k => exact Nat.le_of_not_lt (Nat.find_min (exists_lt_start table p) (by
      change k < index table p
      rw [h]
      exact Nat.lt_succ_self k))

theorem index_eq (hle : start table k ≤ p) (hlt : p < start table (k + 1)) : index table p = k := by
  have hmono := start_strictMono table
  refine Nat.le_antisymm ?_ ?_
  · exact Nat.lt_succ_iff.1 (hmono.lt_iff_lt.1 (Nat.lt_of_le_of_lt (start_index_le p) hlt))
  · exact Nat.lt_succ_iff.1 (hmono.lt_iff_lt.1 (Nat.lt_of_le_of_lt hle (lt_start_index p)))

variable (table) in
/-- The address of a byte. -/
def address (p : Nat) : Int :=
  (table (index table p)).address + ((p : Int) - start table (index table p))

theorem address_eq (hle : start table k ≤ p) (hlt : p < start table (k + 1)) :
    address table p = (table k).address + ((p : Int) - start table k) := by
  rw [address, index_eq hle hlt]

end

/-! ## Segments -/

/-- The addresses of a segment's bytes. -/
def Segment.bytes (s : Segment) : List Int := (List.range s.length).map fun i : Nat => s.address + i

/-- The addresses of the bytes of some segments. -/
def bytes (segments : List Segment) : List Int := segments.flatMap Segment.bytes

/-- The segments are those of a range, in order, without gap or overlap. -/
def Tiles : Nat → List Segment → Nat → Prop
  | first, [], last => first = last
  | first, s :: segments, last =>
    s.offset = first ∧ 0 < s.length ∧ Tiles (first + s.length) segments last

section
variable {table : Nat → Entry} {offset length first last : Nat} {segments : List Segment}

variable (table) in
/-- A segment of a transfer that begins at `offset` lies in one entry, at its place there. -/
def Inside (offset : Nat) (s : Segment) : Prop :=
  ∃ k, start table k ≤ offset + s.offset ∧ offset + s.offset + s.length ≤ start table (k + 1) ∧
    s.address = (table k).address + (((offset + s.offset : Nat) : Int) - start table k)

variable (table) in
/-- The segments of the bytes from `offset` on. -/
structure Transfer (offset length : Nat) (segments : List Segment) : Prop where
  tiles : Tiles 0 segments length
  inside : ∀ s ∈ segments, Inside table offset s

theorem Inside.bytes_eq {s : Segment} (h : Inside table offset s) :
    s.bytes = (List.range s.length).map fun i => address table (offset + (s.offset + i)) := by
  obtain ⟨k, hle, hlt, haddress⟩ := h
  rw [Segment.bytes]
  refine map_congr_left fun i hi => ?_
  have hi := List.mem_range.1 hi
  rw [haddress, address_eq (k := k) (by omega) (by omega)]
  push_cast
  ring

theorem Tiles.le (h : Tiles first segments last) : first ≤ last := by
  induction segments generalizing first with
  | nil => exact Nat.le_of_eq h
  | cons s segments ih => exact Nat.le_trans (Nat.le_add_right _ _) (ih h.2.2)

theorem Tiles.bytes_eq (h : Tiles first segments last)
    (hinside : ∀ s ∈ segments, Inside table offset s) : bytes segments =
      (List.range (last - first)).map fun i => address table (offset + (first + i)) := by
  induction segments generalizing first with
  | nil =>
    change first = last at h
    rw [h, Nat.sub_self]
    rfl
  | cons s segments ih =>
    obtain ⟨hoffset, -, hrest⟩ := h
    have hbytes := (hinside s mem_cons_self).bytes_eq
    have hle := hrest.le
    have hsplit : last - first = s.length + (last - (first + s.length)) := by omega
    rw [bytes, flatMap_cons, ← bytes, hbytes,
      ih hrest fun s' hs' => hinside s' (mem_cons_of_mem _ hs'), hsplit, range_add,
      map_append, List.map_map, hoffset]
    congr 1
    refine map_congr_left fun i _ => ?_
    change _ = address table (offset + (first + (s.length + i)))
    rw [Nat.add_assoc]

/-- The bytes of a transfer are those of the table. -/
theorem Transfer.bytes_eq (h : Transfer table offset length segments) :
    bytes segments = (List.range length).map fun i => address table (offset + i) := by
  rw [h.tiles.bytes_eq h.inside, Nat.sub_zero]
  refine map_congr_left fun i _ => ?_
  rw [Nat.zero_add]

/-- Two transfers one after the other are one. -/
theorem Transfer.bytes_append {length' : Nat} {segments' all : List Segment}
    (h : Transfer table offset length segments)
    (h' : Transfer table (offset + length) length' segments')
    (hall : Transfer table offset (length + length') all) :
    bytes all = bytes segments ++ bytes segments' := by
  rw [h.bytes_eq, h'.bytes_eq, hall.bytes_eq, range_add, map_append, List.map_map]
  congr 1
  refine map_congr_left fun i _ => ?_
  rw [Nat.add_assoc]
  rfl

end

end V86.Scatter
