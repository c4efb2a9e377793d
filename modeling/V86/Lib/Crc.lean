import Mathlib.Tactic.Common

/-!
# Cyclic redundancy checks

The remainder of a check of 32 bits, lowest bit first, by the polynomial `p`. A shift of the
remainder is linear in exclusive or, so the remainder of a run of bytes is the sum of what each of
its bytes contributes. This is what tables for several bytes at once rest on (`octets_words`).
-/

namespace V86.Crc

open List BitVec

variable {p : BitVec 32}

/-- One shift of the remainder. -/
def shift (p c : BitVec 32) : BitVec 32 := c >>> 1 ^^^ if c.getLsbD 0 then p else 0

def shifts (p : BitVec 32) : Nat → BitVec 32 → BitVec 32
  | 0, c => c
  | n + 1, c => shifts p n (shift p c)

/-- The shifts of `n` bytes. -/
def octets (p : BitVec 32) : Nat → BitVec 32 → BitVec 32
  | 0, c => c
  | n + 1, c => octets p n (shifts p 8 c)

/-- Take one byte into the remainder. -/
def absorb (p c : BitVec 32) (b : BitVec 8) : BitVec 32 := shifts p 8 (c ^^^ b.setWidth 32)

/-- Take one bit into the remainder. -/
def absorbBit (p c : BitVec 32) (b : Bool) : BitVec 32 := shift p (c ^^^ if b then 1 else 0)

/-- The bits of a byte in the order in which they are taken in. -/
def bits (b : BitVec 8) : List Bool := (List.range 8).map b.getLsbD

/-- The check of some bytes, one bit at a time. -/
def check (p initial final : BitVec 32) (bytes : List (BitVec 8)) : BitVec 32 :=
  (bytes.flatMap bits).foldl (absorbBit p) initial ^^^ final

/-- The word of four bytes, the lowest first. -/
def word (b₀ b₁ b₂ b₃ : BitVec 8) : BitVec 32 :=
  b₀.setWidth 32 ^^^ b₁.setWidth 32 <<< 8 ^^^ b₂.setWidth 32 <<< 16 ^^^ b₃.setWidth 32 <<< 24

theorem shift_xor (a b : BitVec 32) : shift p (a ^^^ b) = shift p a ^^^ shift p b := by
  unfold shift
  rw [ushiftRight_xor_distrib, getLsbD_xor]
  have hself : ∀ x y z : BitVec 32, x ^^^ z ^^^ (y ^^^ z) = x ^^^ y := by
    intro x y z
    rw [BitVec.xor_assoc, ← BitVec.xor_assoc z, BitVec.xor_comm z y, BitVec.xor_assoc y,
      BitVec.xor_self, xor_zero]
  cases a.getLsbD 0 with
  | false => cases b.getLsbD 0 <;> simp [BitVec.xor_assoc]
  | true =>
    cases b.getLsbD 0 with
    | false => simp [BitVec.xor_assoc, BitVec.xor_comm p]
    | true => simp [hself]

theorem shifts_xor (n : Nat) (a b : BitVec 32) :
    shifts p n (a ^^^ b) = shifts p n a ^^^ shifts p n b := by
  induction n generalizing a b with
  | zero => rfl
  | succ n ih => rw [shifts, shifts, shifts, shift_xor, ih]

theorem octets_xor (n : Nat) (a b : BitVec 32) :
    octets p n (a ^^^ b) = octets p n a ^^^ octets p n b := by
  induction n generalizing a b with
  | zero => rfl
  | succ n ih => rw [octets, octets, octets, shifts_xor, ih]

theorem octets_add (m n : Nat) (c : BitVec 32) :
    octets p (m + n) c = octets p n (octets p m c) := by
  induction m generalizing c with
  | zero => rw [Nat.zero_add, octets]
  | succ m ih => rw [Nat.succ_add, octets, octets, ih]

theorem octets_succ (n : Nat) (c : BitVec 32) : octets p (n + 1) c = shifts p 8 (octets p n c) :=
  octets_add n 1 c

/-- The bits of a word from place `k` on, taken in one after another: the ones above do not reach the
lowest place before their turn. -/
theorem foldl_absorbBit (x : BitVec 32) {n k : Nat} (c : BitVec 32)
    (h : ∀ i, k + n ≤ i → x.getLsbD i = false) :
    ((List.range' k n).map x.getLsbD).foldl (absorbBit p) c = shifts p n (c ^^^ x >>> k) := by
  induction n generalizing k c with
  | zero =>
    have hzero : x >>> k = 0#32 := by
      apply eq_of_getLsbD_eq
      intro i hi
      rw [getLsbD_ushiftRight, h (k + i) (by omega)]
      simp
    rw [hzero, xor_zero]
    rfl
  | succ n ih =>
    have hlow : (x >>> (k + 1)) <<< 1 = x >>> k ^^^ if x.getLsbD k then 1#32 else 0#32 := by
      apply eq_of_getLsbD_eq
      intro i hi
      have hbit : (if x.getLsbD k then 1#32 else 0#32).getLsbD i =
          (x.getLsbD k && decide (i = 0)) := by
        cases x.getLsbD k <;> simp [hi]
      rw [getLsbD_shiftLeft, getLsbD_xor, getLsbD_ushiftRight, getLsbD_ushiftRight, hbit]
      rcases i with _ | i
      · simp
      · simp [hi, show k + 1 + i = k + (i + 1) by omega]
    have hshift : shift p (c ^^^ x >>> k) =
        absorbBit p c (x.getLsbD k) ^^^ x >>> (k + 1) := by
      have hmove : shift p ((x >>> (k + 1)) <<< 1) = x >>> (k + 1) := by
        unfold shift
        apply eq_of_getLsbD_eq
        intro i hi
        by_cases hi31 : i = 31
        · subst hi31
          simp
        · simp [getLsbD_ushiftRight, show 1 + i < 32 by omega]
      rw [← hmove, hlow, absorbBit, ← shift_xor]
      generalize (if x.getLsbD k then 1#32 else 0#32) = b
      congr 1
      rw [BitVec.xor_comm (x >>> k), BitVec.xor_assoc, ← BitVec.xor_assoc b, BitVec.xor_self,
        BitVec.zero_xor]
    rw [List.range'_succ, map_cons, foldl_cons, ih _ (fun i hi => h i (by omega)), shifts, hshift]

/-- A byte is its eight bits. -/
theorem foldl_bits (c : BitVec 32) (b : BitVec 8) :
    (bits b).foldl (absorbBit p) c = absorb p c b := by
  have hbits : bits b = (List.range' 0 8).map (b.setWidth 32).getLsbD := by
    rw [bits, range_eq_range']
    refine map_congr_left fun i hi => ?_
    have hi8 : i < 32 := by
      have := List.mem_range'_1.mp hi
      omega
    rw [getLsbD_setWidth]
    simp [hi8]
  rw [hbits, foldl_absorbBit, absorb, ushiftRight_zero]
  intro i hi
  rw [getLsbD_setWidth, getLsbD_of_ge b i (by omega)]
  simp

theorem check_eq (initial final : BitVec 32) (bytes : List (BitVec 8)) :
    check p initial final bytes = bytes.foldl (absorb p) initial ^^^ final := by
  unfold check
  rw [foldl_flatMap]
  simp only [foldl_bits]

/-- Bits that are not lost are only moved. -/
theorem shifts_of_low {c : BitVec 32} {n : Nat} (h : ∀ i < n, c.getLsbD i = false) :
    shifts p n c = c >>> n := by
  induction n generalizing c with
  | zero => simp [shifts]
  | succ n ih =>
    have hshift : shift p c = c >>> 1 := by
      rw [shift, h 0 (Nat.succ_pos n)]
      simp
    have hlow : ∀ i < n, (c >>> 1).getLsbD i = false := by
      intro i hi
      rw [getLsbD_ushiftRight]
      exact h (1 + i) (by omega)
    rw [shifts, hshift, ih hlow, ← shiftRight_add, Nat.add_comm]

theorem shifts_shiftLeft {x : BitVec 32} (h : ∀ i, 24 ≤ i → x.getLsbD i = false) :
    shifts p 8 (x <<< 8) = x := by
  rw [shifts_of_low]
  · apply eq_of_getLsbD_eq
    intro i hi
    rw [getLsbD_ushiftRight, getLsbD_shiftLeft]
    by_cases hi24 : i < 24
    · simp [show 8 + i < 32 by omega]
    · simp [h i (by omega)]
  · intro i hi
    rw [getLsbD_shiftLeft]
    simp [hi]

/-- A table of one byte is enough for eight shifts. -/
theorem shifts_eight (c : BitVec 32) :
    shifts p 8 c = c >>> 8 ^^^ shifts p 8 ((c.setWidth 8).setWidth 32) := by
  have hsplit : c = (c >>> 8) <<< 8 ^^^ (c.setWidth 8).setWidth 32 := by
    apply eq_of_getLsbD_eq
    intro i hi
    rw [getLsbD_xor, getLsbD_shiftLeft, getLsbD_ushiftRight, getLsbD_setWidth, getLsbD_setWidth]
    by_cases hi8 : i < 8
    · simp [hi, hi8]
    · simp [hi, hi8, show 8 + (i - 8) = i by omega]
  conv_lhs => rw [hsplit]
  rw [shifts_xor, shifts_shiftLeft]
  intro i hi
  rw [getLsbD_ushiftRight]
  exact getLsbD_of_ge _ _ (by omega)

theorem getLsbD_byte_shiftLeft (b : BitVec 8) (k i : Nat) (h : 8 + k ≤ i) :
    (b.setWidth 32 <<< k).getLsbD i = false := by
  rw [getLsbD_shiftLeft, getLsbD_setWidth, getLsbD_of_ge b (i - k) (by omega)]
  simp

/-- The byte at place `k` of a word is shifted into the lowest place first. -/
theorem octets_byte (n k : Nat) (b : BitVec 8) (hk : k < 4) :
    octets p (n + k) (b.setWidth 32 <<< (8 * k)) = octets p n (b.setWidth 32) := by
  induction k with
  | zero => simp
  | succ k ih =>
    have hmove : b.setWidth 32 <<< (8 * (k + 1)) = (b.setWidth 32 <<< (8 * k)) <<< 8 := by
      rw [← shiftLeft_add]
      rfl
    rw [hmove, Nat.add_succ, octets, shifts_shiftLeft, ih (by omega)]
    intro i hi
    exact getLsbD_byte_shiftLeft b _ i (by omega)

/-- What the four bytes of a word contribute. -/
theorem octets_word (n : Nat) (b₀ b₁ b₂ b₃ : BitVec 8) : octets p (n + 4) (word b₀ b₁ b₂ b₃) =
      octets p (n + 4) (b₀.setWidth 32) ^^^ octets p (n + 3) (b₁.setWidth 32) ^^^
        octets p (n + 2) (b₂.setWidth 32) ^^^ octets p (n + 1) (b₃.setWidth 32) := by
  rw [word, octets_xor, octets_xor, octets_xor]
  have h₁ := octets_byte (p := p) (n + 3) 1 b₁ (by decide)
  have h₂ := octets_byte (p := p) (n + 2) 2 b₂ (by decide)
  have h₃ := octets_byte (p := p) (n + 1) 3 b₃ (by decide)
  rw [h₁, h₂, h₃]

/-- Four bytes are taken in at once. -/
theorem absorb_word (c : BitVec 32) (b₀ b₁ b₂ b₃ : BitVec 8) :
    absorb p (absorb p (absorb p (absorb p c b₀) b₁) b₂) b₃ =
      octets p 4 (c ^^^ word b₀ b₁ b₂ b₃) := by
  have habsorb : ∀ (d : BitVec 32) (b : BitVec 8), absorb p d b =
      octets p 1 d ^^^ octets p 1 (b.setWidth 32) := by
    intro d b
    rw [absorb, shifts_xor]
    rfl
  have hnext : ∀ (n : Nat) (d : BitVec 32), octets p 1 (octets p n d) = octets p (n + 1) d :=
    fun n d => (octets_succ n d).symm
  rw [octets_xor, octets_word 0]
  simp only [habsorb, octets_xor, hnext, Nat.zero_add, BitVec.xor_assoc]

/-- The bytes of a word. -/
theorem word_bytes (a : BitVec 32) : word (a.setWidth 8) ((a >>> 8).setWidth 8)
    ((a >>> 16).setWidth 8) ((a >>> 24).setWidth 8) = a := by
  apply eq_of_getLsbD_eq
  intro i hi
  simp only [word, getLsbD_xor, getLsbD_shiftLeft, getLsbD_setWidth, getLsbD_ushiftRight]
  by_cases h₁ : i < 8
  · simp [hi, h₁, show i < 16 by omega, show i < 24 by omega]
  by_cases h₂ : i < 16
  · simp [hi, h₁, h₂, show i < 24 by omega, show i - 8 < 8 by omega, show 8 + (i - 8) = i by omega,
      show i - 8 < 32 by omega]
  by_cases h₃ : i < 24
  · simp [hi, h₁, h₂, h₃, show ¬i - 8 < 8 by omega, show i - 16 < 8 by omega,
      show 16 + (i - 16) = i by omega, show i - 16 < 32 by omega]
  · simp [hi, h₁, h₂, h₃, show ¬i - 8 < 8 by omega, show ¬i - 16 < 8 by omega,
      show i - 24 < 8 by omega, show 24 + (i - 24) = i by omega, show i - 24 < 32 by omega]

/-- Sixteen bytes at once: the remainder goes into the first word, and each word contributes by
itself. -/
theorem octets_words (c a b d e : BitVec 32) :
    octets p 4 (octets p 4 (octets p 4 (octets p 4 (c ^^^ a) ^^^ b) ^^^ d) ^^^ e) =
      octets p 16 (c ^^^ a) ^^^ octets p 12 b ^^^ octets p 8 d ^^^ octets p 4 e := by
  have h : ∀ (n : Nat) (x : BitVec 32), octets p 4 (octets p n x) = octets p (n + 4) x :=
    fun n x => (octets_add n 4 x).symm
  simp only [octets_xor, h]

/-! ## Bursts -/

section
variable (hp : p.getLsbD 31 = true)
include hp

variable {a b : BitVec 32}

/-- The highest bit of the polynomial shows the bit that is lost. -/
theorem shift_injective (h : shift p a = shift p b) : a = b := by
  have hzero : shift p (a ^^^ b) = 0#32 := by rw [shift_xor, h, BitVec.xor_self]
  have hbit : ∀ i, (shift p (a ^^^ b)).getLsbD i = false := fun i => by rw [hzero, getLsbD_zero]
  rw [← BitVec.xor_eq_zero_iff]
  have hlow : (a ^^^ b).getLsbD 0 = false := by
    have hhigh := hbit 31
    unfold shift at hhigh
    rw [getLsbD_xor, getLsbD_ushiftRight, getLsbD_of_ge _ _ (by omega), Bool.false_xor] at hhigh
    by_contra hone
    rw [Bool.not_eq_false] at hone
    rw [if_pos hone, hp] at hhigh
    cases hhigh
  apply eq_of_getLsbD_eq
  rintro (_ | i) hi
  · rw [hlow, getLsbD_zero]
  · have hnext := hbit i
    unfold shift at hnext
    rw [hlow] at hnext
    change ((a ^^^ b) >>> 1 ^^^ 0#32).getLsbD i = false at hnext
    rw [xor_zero, getLsbD_ushiftRight, Nat.add_comm] at hnext
    rw [hnext, getLsbD_zero]

theorem shifts_injective {n : Nat} (h : shifts p n a = shifts p n b) : a = b := by
  induction n generalizing a b with
  | zero => exact h
  | succ n ih => exact shift_injective hp (ih h)

theorem foldl_injective {l : List Bool}
    (h : l.foldl (absorbBit p) a = l.foldl (absorbBit p) b) : a = b := by
  induction l generalizing a b with
  | nil => exact h
  | cons x l ih => exact (xor_left_inj _).1 (shift_injective hp (ih h))

/-- Two runs of bits that differ within 32 successive bits leave different remainders. -/
theorem burst {before w w' after : List Bool} {c : BitVec 32} (hlen : w.length = w'.length)
    (h32 : w.length ≤ 32) (h : (before ++ w ++ after).foldl (absorbBit p) c =
      (before ++ w' ++ after).foldl (absorbBit p) c) : w = w' := by
  have hword : ∀ l : List Bool, l.length ≤ 32 → ∃ x : BitVec 32,
      l = (List.range' 0 l.length).map x.getLsbD ∧ ∀ i, 0 + l.length ≤ i → x.getLsbD i = false := by
    intro l hl
    refine ⟨(BitVec.ofBoolListLE l).setWidth 32, ext_getElem (by simp) fun i h₁ h₂ => ?_,
      fun i hi => ?_⟩
    · rw [getElem_map, getElem_range', getLsbD_setWidth, getLsbD_ofBoolListLE]
      simp [show i < 32 by omega, h₁]
    · simp [show l.length ≤ i by omega]
  obtain ⟨x, hx, hxhigh⟩ := hword w h32
  obtain ⟨y, hy, hyhigh⟩ := hword w' (hlen ▸ h32)
  rw [foldl_append, foldl_append, foldl_append, foldl_append] at h
  have hmid := foldl_injective hp h
  rw [hx, hy, foldl_absorbBit _ _ hxhigh, foldl_absorbBit _ _ hyhigh, hlen] at hmid
  have hxy := shifts_injective hp hmid
  rw [ushiftRight_zero, ushiftRight_zero, xor_right_inj] at hxy
  rw [hx, hy, hxy, hlen]

end

/-- The check behind its bytes leaves the same remainder, whatever the bytes. -/
theorem foldl_check {initial final c : BitVec 32} {bytes : List (BitVec 8)}
    (hc : check p initial final bytes = c) :
    ((bytes ++ [c.setWidth 8, (c >>> 8).setWidth 8, (c >>> 16).setWidth 8,
      (c >>> 24).setWidth 8]).flatMap bits).foldl (absorbBit p) initial = octets p 4 final := by
  rw [foldl_flatMap]
  simp only [foldl_bits, foldl_append, foldl_cons, foldl_nil, absorb_word, word_bytes]
  rw [← hc, check_eq, ← BitVec.xor_assoc, BitVec.xor_self, BitVec.zero_xor]

end V86.Crc
