import V86.Lib.Splice

/-!
# Numbers as bytes

A number as a run of bytes, the lowest first, and back. Reading what was written gives the number
modulo what the bytes can hold.
-/

namespace V86.Bytes

open List

variable {n k : Nat} {bs : List UInt8}

/-- The lowest `k` bytes of a number, the lowest first. -/
def le : Nat → Nat → List UInt8
  | 0, _ => []
  | k + 1, n => UInt8.ofNat n :: le k (n / 256)

/-- The number of some bytes, the lowest first. -/
def ofLe : List UInt8 → Nat
  | [] => 0
  | b :: bs => b.toNat + 256 * ofLe bs

@[simp] theorem length_le (k n : Nat) : (le k n).length = k := by
  induction k generalizing n with
  | zero => rfl
  | succ k ih => rw [le, length_cons, ih]

theorem ofLe_le (k n : Nat) : ofLe (le k n) = n % 256 ^ k := by
  induction k generalizing n with
  | zero => rw [Nat.pow_zero, Nat.mod_one]; rfl
  | succ k ih =>
    have hbyte : (UInt8.ofNat n).toNat = n % 256 := UInt8.toNat_ofNat'
    rw [le, ofLe, ih, hbyte, Nat.pow_succ, Nat.mul_comm (256 ^ k), Nat.mod_mul]

/-! ## Bytes at an offset -/

/-- A number of `k` bytes at an offset, if they are all there. -/
def readLe (data : List UInt8) (offset k : Nat) : Option Nat :=
  if offset + k ≤ data.length then some (ofLe ((data.drop offset).take k)) else none

variable {data : List UInt8} {offset : Nat}

theorem prefix_drop_append {cs : List UInt8} (h : bs ++ cs <+: data.drop offset) :
    bs <+: data.drop offset ∧ cs <+: data.drop (offset + bs.length) := by
  obtain ⟨rest, hrest⟩ := h
  refine ⟨⟨cs ++ rest, by rw [← hrest, append_assoc]⟩, rest, ?_⟩
  rw [← drop_drop, ← hrest, append_assoc, drop_left]

theorem take_of_prefix_drop (h : bs <+: data.drop offset) :
    (data.drop offset).take bs.length = bs := by
  obtain ⟨rest, hrest⟩ := h
  rw [← hrest, take_left]

theorem readLe_of_prefix (h : le k n <+: data.drop offset)
    (hle : offset ≤ data.length) : readLe data offset k = some (n % 256 ^ k) := by
  have hlength := h.length_le
  rw [length_le, length_drop] at hlength
  have htake := take_of_prefix_drop h
  rw [length_le] at htake
  rw [readLe, if_pos (by omega), htake, ofLe_le]

/-- Bytes are stored one after another; those beyond the end are dropped. -/
def put (data : List UInt8) (offset : Nat) : List UInt8 → List UInt8
  | [] => data
  | b :: bs => put (data.set offset b) (offset + 1) bs

theorem put_append (done rest : List UInt8) (h : bs.length ≤ rest.length) :
    put (done ++ rest) done.length bs = done ++ bs ++ rest.drop bs.length := by
  induction bs generalizing done rest with
  | nil => rw [put, append_nil, length_nil, drop_zero]
  | cons b bs ih =>
    cases rest with
    | nil => exact absurd h (Nat.not_succ_le_zero _)
    | cons r rest =>
      have hnext := ih (done ++ [b]) rest (Nat.le_of_succ_le_succ h)
      rw [put, set_append_right _ _ (Nat.le_refl _), Nat.sub_self, set_cons_zero]
      simpa using hnext

end V86.Bytes
