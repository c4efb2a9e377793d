import V86.Lib.Runs
import V86.Lib.Splice

/-!
# The growable ring buffer

`GrowableRingbuffer` of `browser/fake_network.js`: a queue of bytes in an array that is used as a
ring, and copied to one of twice the length (or more) when the bytes no longer fit. It is a list:
writing appends, and peeking and removing take from the front.
-/

namespace V86.Net

open List

abbrev Byte := BitVec 8

/-- `GrowableRingbuffer`. The bytes are at `tail` and behind it, up to `head`. -/
structure Ringbuffer where
  maximumCapacity : Nat
  tail : Nat
  head : Nat
  length : Nat
  buffer : List Byte
  tail_lt : tail < buffer.length
  length_le : length ≤ buffer.length
  head_eq : head = (tail + length) % buffer.length

/-- An index of a ring, at most one turn too far. -/
theorem mod_wrap {i n : Nat} (h : i < 2 * n) : i % n = if i < n then i else i - n := by
  split
  case isTrue hlt => exact Nat.mod_eq_of_lt hlt
  case isFalse hge =>
    rw [Nat.mod_eq_sub_mod (Nat.le_of_not_lt hge), Nat.mod_eq_of_lt (by omega)]

namespace Ringbuffer

/-- The constructor. -/
def new (initialCapacity maximumCapacity : Nat) (h : 0 < initialCapacity) : Ringbuffer where
  maximumCapacity :=
    if maximumCapacity ≠ 0 then max maximumCapacity (min initialCapacity 16) else 0
  tail := 0
  head := 0
  length := 0
  buffer := List.replicate (min initialCapacity 16) 0
  tail_lt := by
    rw [length_replicate]
    omega
  length_le := Nat.zero_le _
  head_eq := (Nat.zero_mod _).symm

variable (r : Ringbuffer)

/-- The bytes in the order in which they were written. -/
def toList : List Byte := (r.buffer.drop r.tail ++ r.buffer.take r.tail).take r.length

/-- The bytes that `peek` copies to an array of length `n`. -/
def peek (n : Nat) : List Byte :=
  let length := min r.length n
  let capacity := r.buffer.length
  let newTail := r.tail + length
  if capacity < newTail then r.buffer.drop r.tail ++ r.buffer.take (newTail % capacity)
  else (r.buffer.drop r.tail).take length

/-- The smallest capacity that is reached by doubling and has room for `total` bytes. -/
def doubled (capacity total : Nat) : Nat :=
  if 0 < capacity ∧ capacity < total then doubled (capacity * 2) total else capacity
  termination_by total - capacity

theorem le_doubled (capacity total : Nat) : capacity ≤ doubled capacity total := by
  fun_induction doubled capacity total with
  | case1 capacity h ih => omega
  | case2 capacity h => exact Nat.le_refl _

theorem total_le_doubled {capacity total : Nat} (h : 0 < capacity) :
    total ≤ doubled capacity total := by
  fun_induction doubled capacity total with
  | case1 capacity hlt ih => exact ih (by omega)
  | case2 capacity hge => omega

theorem length_peek (n : Nat) : (r.peek n).length = min r.length n := by
  have htail := r.tail_lt
  have hlength := r.length_le
  unfold peek
  dsimp only
  split
  case isTrue hlt =>
    rw [mod_wrap (by omega), if_neg (by omega), length_append, length_drop, length_take]
    omega
  case isFalse hge =>
    rw [length_take, length_drop]
    omega

/-- The buffer copied to a longer array. -/
def grow (capacity : Nat) (h : r.buffer.length ≤ capacity) : Ringbuffer :=
  have hlength : min r.length capacity = r.length := Nat.min_eq_left (Nat.le_trans r.length_le h)
  { r with
    tail := 0
    head := r.length % capacity
    buffer := r.peek capacity ++ List.replicate (capacity - r.length) 0
    tail_lt := by
      have := r.tail_lt
      rw [length_append, length_peek, length_replicate]
      omega
    length_le := by
      rw [length_append, length_peek, hlength]
      omega
    head_eq := by
      have := r.length_le
      rw [length_append, length_peek, hlength, length_replicate, Nat.zero_add,
        show r.length + (capacity - r.length) = capacity by omega] }

/-- The array after the bytes were stored from `head` on. -/
def stored (src : List Byte) : List Byte :=
  let capacity := r.buffer.length
  if capacity < r.head + src.length then
    let split := capacity - r.head
    splice (splice r.buffer r.head (src.take split)) 0 (src.drop split)
  else splice r.buffer r.head src

theorem head_lt : r.head < r.buffer.length :=
  r.head_eq ▸ Nat.mod_lt _ (Nat.zero_lt_of_lt r.tail_lt)

section
variable {r} {src : List Byte}

theorem length_stored (h : r.length + src.length ≤ r.buffer.length) :
    (r.stored src).length = r.buffer.length := by
  have hhead := r.head_lt
  unfold stored
  dsimp only
  split
  case isTrue hlt =>
    have hfirst : r.head + (src.take (r.buffer.length - r.head)).length ≤ r.buffer.length := by
      rw [length_take]
      omega
    rw [length_splice, length_splice hfirst]
    rw [length_splice hfirst, length_drop]
    omega
  case isFalse hge =>
    rw [length_splice (by omega)]

/-- What is at an index after the bytes were stored: one of them, if it is less than their number
behind `head`. -/
theorem getElem?_stored (h : r.length + src.length ≤ r.buffer.length) {p : Nat}
    (hp : p < r.buffer.length) : (r.stored src)[p]? =
      if (p + r.buffer.length - r.head) % r.buffer.length < src.length then
        src[(p + r.buffer.length - r.head) % r.buffer.length]? else r.buffer[p]? := by
  have hhead := r.head_lt
  rw [mod_wrap (by omega)]
  unfold stored
  dsimp only
  split
  case isTrue hlt =>
    have hfirst : r.head + (src.take (r.buffer.length - r.head)).length ≤ r.buffer.length := by
      rw [length_take]
      omega
    rw [getElem?_splice (by rw [length_splice hfirst, length_drop]; omega),
      getElem?_splice hfirst, length_take, length_drop, List.getElem?_drop, List.getElem?_take]
    rcases Nat.lt_or_ge p r.head with hbefore | hbehind
    · rw [if_pos (show p + r.buffer.length - r.head < r.buffer.length by omega)]
      by_cases hsecond : p < src.length - (r.buffer.length - r.head)
      · rw [if_pos (by omega), if_pos (by omega)]
        congr 1
        omega
      · rw [if_neg (by omega), if_neg (by omega), if_neg (by omega)]
    · rw [if_neg (show ¬p + r.buffer.length - r.head < r.buffer.length by omega), if_neg (by omega),
        if_pos (by omega), if_pos (by omega), if_pos (by omega)]
      congr 1
      omega
  case isFalse hge =>
    rw [getElem?_splice (by omega)]
    rcases Nat.lt_or_ge p r.head with hbefore | hbehind
    · rw [if_pos (show p + r.buffer.length - r.head < r.buffer.length by omega), if_neg (by omega),
        if_neg (by omega)]
    · rw [if_neg (show ¬p + r.buffer.length - r.head < r.buffer.length by omega)]
      by_cases hin : p < r.head + src.length
      · rw [if_pos ⟨hbehind, hin⟩, if_pos (by omega)]
        congr 1
        omega
      · rw [if_neg (by omega), if_neg (by omega)]

end

/-- The last part of `write`: there is room for the bytes. -/
def append (src : List Byte) (h : r.length + src.length ≤ r.buffer.length) : Ringbuffer :=
  { r with
    buffer := r.stored src
    head := (r.head + src.length) % r.buffer.length
    length := r.length + src.length
    tail_lt := by
      rw [length_stored h]
      exact r.tail_lt
    length_le := by
      rw [length_stored h]
      exact h
    head_eq := by
      rw [length_stored h, r.head_eq, Nat.mod_add_mod, Nat.add_assoc] }

/-- `write`. -/
def write (src : List Byte) : Except String Ringbuffer :=
  let totalLength := r.length + src.length
  if h : r.buffer.length < totalLength then
    let capacity := doubled r.buffer.length totalLength
    if r.maximumCapacity ≠ 0 ∧ r.maximumCapacity < capacity then
      .error "stream capacity overflow in GrowableRingbuffer.write(), package dropped"
    else
      .ok ((r.grow capacity (le_doubled _ _)).append src (by
        have hlength := r.length_le
        have hroom : totalLength ≤ capacity := total_le_doubled (Nat.zero_lt_of_lt r.tail_lt)
        have hcapacity : r.buffer.length ≤ capacity := le_doubled _ _
        change r.length + src.length ≤ (r.peek capacity ++ _).length
        rw [length_append, length_peek, length_replicate]
        omega))
  else .ok (r.append src (Nat.le_of_not_lt h))

/-- `remove`. -/
def remove (length : Nat) : Ringbuffer :=
  let length := min length r.length
  { r with
    tail := (r.tail + length) % r.buffer.length
    length := r.length - length
    tail_lt := Nat.mod_lt _ (Nat.zero_lt_of_lt r.tail_lt)
    length_le := Nat.le_trans (Nat.sub_le _ _) r.length_le
    head_eq := by
      rw [r.head_eq, Nat.mod_add_mod, Nat.add_assoc, Nat.add_sub_cancel' (Nat.min_le_right _ _)] }

/-! ## What the operations do to the list -/

theorem length_toList : r.toList.length = r.length := by
  have htail := r.tail_lt
  have hlength := r.length_le
  rw [toList, length_take, length_append, length_drop, length_take]
  omega

theorem getElem?_toList {i : Nat} (h : i < r.length) :
    r.toList[i]? = r.buffer[(r.tail + i) % r.buffer.length]? := by
  have htail := r.tail_lt
  have hlength := r.length_le
  rw [toList, List.getElem?_take_of_lt h, mod_wrap (by omega)]
  split
  case isTrue hlt =>
    rw [List.getElem?_append_left (by rw [length_drop]; omega), List.getElem?_drop]
  case isFalse hge =>
    rw [List.getElem?_append_right (by rw [length_drop]; omega), length_drop,
      List.getElem?_take_of_lt (by omega)]
    congr 1
    omega

/-- `peek` copies the first bytes. -/
theorem peek_eq (n : Nat) : r.peek n = r.toList.take n := by
  have htail := r.tail_lt
  have hlength := r.length_le
  unfold peek toList
  dsimp only
  rw [take_take, take_append, length_drop, take_take, Nat.min_comm n]
  split
  case isTrue hlt =>
    have hwhole : (r.buffer.drop r.tail).take (min r.length n) = r.buffer.drop r.tail :=
      take_of_length_le (by rw [length_drop]; omega)
    rw [mod_wrap (by omega), if_neg (by omega), hwhole]
    congr 2
    omega
  case isFalse hge =>
    rw [show min (min r.length n - (r.buffer.length - r.tail)) r.tail = 0 by omega, take_zero,
      append_nil]

/-- A list of this length with these elements. -/
theorem toList_eq {l : List Byte} (hlength : r.length = l.length)
    (h : ∀ i < r.length, r.buffer[(r.tail + i) % r.buffer.length]? = l[i]?) : r.toList = l := by
  apply ext_getElem?
  intro i
  rcases Nat.lt_or_ge i r.length with hlt | hge
  · rw [getElem?_toList r hlt, h i hlt]
  · rw [List.getElem?_eq_none (by rwa [length_toList]), List.getElem?_eq_none (by omega)]

theorem toList_grow (capacity : Nat) (h : r.buffer.length ≤ capacity) :
    (r.grow capacity h).toList = r.toList := by
  have hlength := r.length_le
  have hpeek : r.peek capacity = r.toList := by
    rw [peek_eq, take_of_length_le (by rw [length_toList]; omega)]
  change ((r.peek capacity ++ _).drop 0 ++ (r.peek capacity ++ _).take 0).take r.length = _
  rw [drop_zero, take_zero, append_nil, hpeek, take_left' (length_toList r)]

theorem toList_append (src : List Byte) (h : r.length + src.length ≤ r.buffer.length) :
    (r.append src h).toList = r.toList ++ src := by
  have htail := r.tail_lt
  have hhead := r.head_lt
  refine toList_eq _ (by rw [length_append, length_toList]; rfl) fun i hi => ?_
  have hi : i < r.length + src.length := hi
  change (r.stored src)[(r.tail + i) % (r.stored src).length]? = _
  rw [length_stored h, getElem?_stored h (Nat.mod_lt _ (by omega))]
  have hoffset : ((r.tail + i) % r.buffer.length + r.buffer.length - r.head) % r.buffer.length =
      if i < r.length then i + r.buffer.length - r.length else i - r.length := by
    have heq := r.head_eq
    rw [mod_wrap (by omega)] at heq
    rw [mod_wrap (show r.tail + i < 2 * r.buffer.length by omega),
      mod_wrap (by split <;> split at heq <;> omega)]
    split at heq <;> split <;> split <;> split <;> omega
  rw [hoffset]
  split
  case isTrue hlt =>
    rw [if_neg (by omega), List.getElem?_append_left (by rwa [length_toList]), getElem?_toList r hlt]
  case isFalse hge =>
    rw [if_pos (by omega), List.getElem?_append_right (by rw [length_toList]; omega), length_toList]

/-- `write` appends, unless the capacity is limited. -/
theorem write_eq (src : List Byte) (h : r.maximumCapacity = 0) :
    ∃ r', r.write src = .ok r' ∧ r'.toList = r.toList ++ src ∧ r'.maximumCapacity = 0 := by
  unfold write
  dsimp only
  split
  · rw [if_neg fun hmax => hmax.1 h]
    exact ⟨_, rfl, by rw [toList_append, toList_grow], h⟩
  · exact ⟨_, rfl, toList_append _ _ _, h⟩

/-- `remove` drops the first bytes. -/
theorem toList_remove (n : Nat) : (r.remove n).toList = r.toList.drop n := by
  have htail := r.tail_lt
  have hlength := r.length_le
  have hlen : (r.remove n).length = r.length - min n r.length := rfl
  refine toList_eq _ ?_ fun i hi => ?_
  · rw [length_drop, length_toList, hlen]
    omega
  · rw [hlen] at hi
    change r.buffer[((r.tail + min n r.length) % r.buffer.length + i) % r.buffer.length]? = _
    rw [List.getElem?_drop, getElem?_toList r (by omega), Nat.mod_add_mod]
    congr 2
    omega

/-! ## Calls -/

/-- `doubled` gives the smallest capacity of this kind. -/
theorem doubled_spec {capacity : Nat} (total : Nat) (h : 0 < capacity) :
    (∃ k, doubled capacity total = capacity * 2 ^ k) ∧
      ∀ k, total ≤ capacity * 2 ^ k → doubled capacity total ≤ capacity * 2 ^ k := by
  fun_induction doubled capacity total with
  | case1 capacity hlt ih =>
    obtain ⟨⟨k, hk⟩, hleast⟩ := ih (by omega)
    refine ⟨⟨k + 1, by rw [hk, Nat.pow_succ', Nat.mul_assoc]⟩, fun k hle => ?_⟩
    cases k with
    | zero =>
      rw [Nat.pow_zero, Nat.mul_one] at hle
      exact absurd hlt.2 (Nat.not_lt.2 hle)
    | succ k =>
      rw [Nat.pow_succ', ← Nat.mul_assoc] at hle ⊢
      exact hleast k hle
  | case2 capacity hge =>
    refine ⟨⟨0, by rw [Nat.pow_zero, Nat.mul_one]⟩, fun k _ => ?_⟩
    exact Nat.le_mul_of_pos_right _ (Nat.two_pow_pos k)

inductive Call
  | write (src : List Byte)
  | peek (dst : List Byte)
  | remove (length : Nat)

/-- What a call does: it returns, throws, or returns a number and leaves bytes in `dst`. -/
inductive Answer
  | written
  | thrown (message : String)
  | peeked (dst : List Byte) (length : Nat)
  | removed (length : Nat)

/-- The message of `write`. -/
def overflowMessage : String :=
  "stream capacity overflow in GrowableRingbuffer.write(), package dropped"

/-- A call; a `write` that throws has changed nothing. -/
def step (r : Ringbuffer) : Call → Ringbuffer × Answer
  | .write src =>
    match r.write src with
    | .ok r' => (r', .written)
    | .error message => (r, .thrown message)
  | .peek dst => (r, .peeked (splice dst 0 (r.peek dst.length)) (min r.length dst.length))
  | .remove length => (r.remove length, .removed (min length r.length))

/-- A maximum is set, and the smallest capacity `initial * 2 ^ k` with room for the bytes exceeds
it. -/
def Overflows (initial maximum total : Nat) : Prop :=
  maximum ≠ 0 ∧ ∀ k, total ≤ initial * 2 ^ k → maximum < initial * 2 ^ k

open Classical in
/-- A call on a list of bytes. -/
noncomputable def refStep (initial maximum : Nat) (l : List Byte) : Call → List Byte × Answer
  | .write src =>
    if Overflows initial maximum (l.length + src.length) then (l, .thrown overflowMessage)
    else (l ++ src, .written)
  | .peek dst => (l, .peeked (l.take dst.length ++ dst.drop l.length) (min l.length dst.length))
  | .remove length => (l.drop length, .removed (min length l.length))

/-- The buffer holds the list, and its capacity is of the kind that `write` makes and not beyond the
maximum. -/
structure Tracks (initial maximum : Nat) (r : Ringbuffer) (l : List Byte) : Prop where
  toList : r.toList = l
  bound : r.maximumCapacity = maximum
  capacity : ∃ k, r.buffer.length = initial * 2 ^ k
  limited : maximum ≠ 0 → r.buffer.length ≤ maximum

section
variable {r} {initial maximum : Nat} {l : List Byte}

theorem Tracks.append (h : Tracks initial maximum r l) (src : List Byte)
    (hroom : r.length + src.length ≤ r.buffer.length) :
    Tracks initial maximum (r.append src hroom) (l ++ src) := by
  have hlength : (r.append src hroom).buffer.length = r.buffer.length := length_stored hroom
  exact ⟨by rw [toList_append, h.toList], h.bound, by rw [hlength]; exact h.capacity,
    by rw [hlength]; exact h.limited⟩

theorem Tracks.write (h : Tracks initial maximum r l) (src : List Byte) :
    Overflows initial maximum (l.length + src.length) ∧ r.write src = .error overflowMessage ∨
      ¬Overflows initial maximum (l.length + src.length) ∧
        ∃ r', r.write src = .ok r' ∧ Tracks initial maximum r' (l ++ src) := by
  have hlength : l.length = r.length := h.toList ▸ length_toList r
  obtain ⟨j, hj⟩ := h.capacity
  have hbuffer : 0 < r.buffer.length := Nat.zero_lt_of_lt r.tail_lt
  unfold Ringbuffer.write
  dsimp only
  rw [hlength]
  split
  · rename_i hgrow
    obtain ⟨⟨k, hk⟩, hleast⟩ := doubled_spec (r.length + src.length) hbuffer
    have htotal : r.length + src.length ≤ doubled r.buffer.length (r.length + src.length) :=
      total_le_doubled hbuffer
    split
    · rename_i hover
      refine .inl ⟨⟨h.bound ▸ hover.1, fun k hle => ?_⟩, rfl⟩
      -- a capacity with room is a multiple of the present one, which has none
      have hlt : j < k := by
        refine Nat.lt_of_not_le fun hkj => ?_
        have hpow := Nat.mul_le_mul_left initial (Nat.pow_le_pow_right (show 0 < 2 by decide) hkj)
        omega
      have hmul : initial * 2 ^ k = r.buffer.length * 2 ^ (k - j) := by
        rw [hj, Nat.mul_assoc, ← Nat.pow_add, Nat.add_sub_cancel' (Nat.le_of_lt hlt)]
      rw [hmul] at hle ⊢
      exact Nat.lt_of_lt_of_le (h.bound ▸ hover.2) (hleast _ hle)
    · rename_i hfits
      refine .inr ⟨fun hover => hfits ⟨h.bound.symm ▸ hover.1, ?_⟩, _, rfl, ?_⟩
      · have hlt := hover.2 (j + k) (by rw [Nat.pow_add, ← Nat.mul_assoc, ← hj, ← hk]; exact htotal)
        rw [Nat.pow_add, ← Nat.mul_assoc, ← hj, ← hk] at hlt
        rw [h.bound]
        exact hlt
      · have hcapacity : (r.grow _ (le_doubled r.buffer.length (r.length + src.length))).buffer.length =
            doubled r.buffer.length (r.length + src.length) := by
          have hle := r.length_le
          have hgrown := le_doubled r.buffer.length (r.length + src.length)
          change (r.peek _ ++ _).length = _
          rw [length_append, length_peek, length_replicate]
          omega
        refine Tracks.append (r := r.grow _ (le_doubled r.buffer.length (r.length + src.length)))
          ⟨by rw [toList_grow, h.toList], h.bound, ?_, fun hmax => ?_⟩ src _
        · rw [hcapacity]
          exact ⟨j + k, by rw [hk, hj, Nat.pow_add, Nat.mul_assoc]⟩
        · rw [hcapacity]
          refine Nat.le_of_not_lt fun hlt => hfits ⟨?_, ?_⟩
          · rw [h.bound]
            exact hmax
          · rw [h.bound]
            exact hlt
  · rename_i hroom
    refine .inr ⟨fun hover => ?_, _, rfl, h.append src _⟩
    have hlt := hover.2 j (by omega)
    have hle := h.limited hover.1
    omega

theorem Tracks.remove (h : Tracks initial maximum r l) (n : Nat) :
    Tracks initial maximum (r.remove n) (l.drop n) :=
  ⟨by rw [toList_remove, h.toList], h.bound, h.capacity, h.limited⟩

theorem Tracks.step (h : Tracks initial maximum r l) (call : Call) :
    Tracks initial maximum (r.step call).1 (refStep initial maximum l call).1 ∧
      (r.step call).2 = (refStep initial maximum l call).2 := by
  have hlength : l.length = r.length := h.toList ▸ length_toList r
  cases call with
  | write src =>
    unfold Ringbuffer.step refStep
    dsimp only
    rcases h.write src with ⟨hover, hwrite⟩ | ⟨hfits, r', hwrite, htracks⟩
    · rw [if_pos hover, hwrite]
      exact ⟨h, rfl⟩
    · rw [if_neg hfits, hwrite]
      exact ⟨htracks, rfl⟩
  | peek dst =>
    refine ⟨h, ?_⟩
    unfold Ringbuffer.step refStep
    dsimp only
    rw [peek_eq, h.toList, hlength, splice, take_zero, nil_append, Nat.zero_add,
      length_take, hlength]
    congr 2
    rw [drop_eq_drop_iff]
    omega
  | remove n =>
    refine ⟨h.remove n, ?_⟩
    unfold Ringbuffer.step refStep
    dsimp only
    rw [hlength]

end

/-- A new buffer has a capacity of 16 at most, and a maximum of its capacity at least. -/
theorem Tracks.new {initialCapacity : Nat} (maximumCapacity : Nat) (h : 0 < initialCapacity) :
    Tracks (min initialCapacity 16)
      (if maximumCapacity ≠ 0 then max maximumCapacity (min initialCapacity 16) else 0)
      (new initialCapacity maximumCapacity h) [] := by
  have hlength : (Ringbuffer.new initialCapacity maximumCapacity h).buffer.length =
      min initialCapacity 16 := length_replicate
  refine ⟨take_zero, rfl, ⟨0, by rw [hlength, Nat.pow_zero, Nat.mul_one]⟩, fun hmax => ?_⟩
  rw [hlength]
  split
  · exact Nat.le_max_right _ _
  · rename_i hzero
    rw [if_neg hzero] at hmax
    exact absurd rfl hmax

/-- A buffer for 17 bytes, and 30 at most, does not take 17. -/
theorem ringbuffer_initial_ignored :
    ¬∀ (initialCapacity maximumCapacity : Nat) (h : 0 < initialCapacity) (calls : List Call),
      Runs.answers step (new initialCapacity maximumCapacity h) calls =
        Runs.answers (refStep initialCapacity maximumCapacity) [] calls := by
  intro hall
  have hover : Overflows 16 30 17 := by
    refine ⟨by decide, fun k hk => ?_⟩
    cases k with
    | zero => exact absurd hk (by decide)
    | succ k =>
      have hpos := Nat.two_pow_pos k
      rw [Nat.pow_succ]
      omega
  have hfits : ¬Overflows 17 30 17 := fun h => absurd (h.2 0 (by decide)) (by decide)
  have hleft : (step (new 17 30 (by decide)) (.write (List.replicate 17 0))).2 =
      .thrown overflowMessage := by
    rcases (Tracks.new 30 (show 0 < 17 by decide)).write (List.replicate 17 0) with
      ⟨-, hwrite⟩ | ⟨hnot, -⟩
    · unfold step
      dsimp only
      rw [hwrite]
    · exact absurd hover hnot
  have hright : (refStep 17 30 [] (.write (List.replicate 17 0))).2 = .written := by
    unfold refStep
    dsimp only
    rw [if_neg (show ¬Overflows 17 30 (([] : List Byte).length +
      (List.replicate 17 (0 : Byte)).length) from hfits)]
  have hhead := (List.cons.inj (hall 17 30 (by decide) [.write (List.replicate 17 0)])).1
  rw [hleft, hright] at hhead
  cases hhead

/-- Every sequence of calls is answered as a list answers it, for an initial capacity of 16 at most
and a maximum of at least that. -/
theorem ringbuffer_queue (initialCapacity maximumCapacity : Nat) (h : 0 < initialCapacity)
    (calls : List Call) : Runs.answers step (new initialCapacity maximumCapacity h) calls =
      Runs.answers (refStep (min initialCapacity 16)
        (if maximumCapacity ≠ 0 then max maximumCapacity (min initialCapacity 16) else 0)) [] calls :=
  Runs.answers_eq (C := fun _ _ => True)
    (fun _ _ call htracks _ => htracks.step call)
    (Tracks.new maximumCapacity h) (.of_forall fun _ _ => trivial)

/-- A buffer that is filled around its end and grows while it is wrapped. -/
theorem ringbuffer_queue_wrapped :
    let calls : List Call := [.write [1, 2, 3], .remove 2, .write [4, 5, 6], .write [7, 8], .peek [0, 0],
      .write (List.replicate 9 0)]
    Runs.answers step (new 4 8 (by decide)) calls = Runs.answers (refStep 4 8) [] calls :=
  ringbuffer_queue 4 8 (by decide) _

end Ringbuffer
end V86.Net
