import Mathlib.Algebra.GroupWithZero.Nat
import Mathlib.Tactic.Common

/-!
# Writing a run of elements into a list

`splice l offset data` is `l` with `data` in place of its elements from `offset` on, as `set` of a
typed array does it.
-/

namespace V86

open List

variable {α : Type _} {l data : List α} {offset i : Nat}

def splice (l : List α) (offset : Nat) (data : List α) : List α :=
  l.take offset ++ data ++ l.drop (offset + data.length)

theorem length_splice (h : offset + data.length ≤ l.length) :
    (splice l offset data).length = l.length := by
  simp only [splice, length_append, length_take, length_drop]
  omega

@[simp] theorem splice_nil : splice l offset [] = l := by
  rw [splice, append_nil, length_nil, Nat.add_zero, take_append_drop]

/-- Two runs that are written one after the other. -/
theorem splice_splice {data' : List α} (h : offset ≤ l.length) :
    splice (splice l offset data) (offset + data.length) data' =
      splice l offset (data ++ data') := by
  have hlength : (l.take offset ++ data).length = offset + data.length := by
    rw [length_append, length_take]
    omega
  have hdrop : (l.take offset ++ data ++ l.drop (offset + data.length)).drop
      (offset + data.length + data'.length) = l.drop (offset + (data ++ data').length) := by
    rw [← drop_drop, drop_left' hlength, drop_drop, length_append, Nat.add_assoc]
  rw [splice, splice, hdrop, take_left' hlength, splice]
  simp only [append_assoc]

theorem getElem?_splice (h : offset + data.length ≤ l.length) : (splice l offset data)[i]? =
      if offset ≤ i ∧ i < offset + data.length then data[i - offset]? else l[i]? := by
  have htake : (l.take offset).length = offset := by
    rw [length_take]
    omega
  rcases Nat.lt_or_ge i offset with hlt | hge
  · rw [splice, append_assoc, List.getElem?_append_left (by omega), if_neg (by omega),
      List.getElem?_take_of_lt hlt]
  · rw [splice, append_assoc, List.getElem?_append_right (by omega), htake]
    rcases Nat.lt_or_ge i (offset + data.length) with hlt | hge'
    · rw [List.getElem?_append_left (by omega), if_pos ⟨hge, hlt⟩]
    · rw [List.getElem?_append_right (by omega), if_neg (by omega), List.getElem?_drop]
      congr 1
      omega

end V86
