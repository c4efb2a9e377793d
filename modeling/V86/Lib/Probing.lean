import Mathlib.Algebra.GroupWithZero.Nat
import Mathlib.Data.Finmap
import Mathlib.Data.Fintype.Card

/-!
# Hash tables with linear probing

A table of `n` slots, where an entry stands at its key's home slot or after it, around the end of
the table, with no free slot in between (`Probed`). A search passes slots of other keys
(`Passed`) and ends at a free slot, which shows that the key is absent. Deletion with backward
shifts frees a slot and lets later entries move up: until it is done, entries may miss the one
free slot that it moves (`Holed`). `Represents` relates a table to the finite map it stands for.
-/

namespace V86.Probing

open Function

variable {κ β : Type} {n : Nat}

/-- The number of slots from `a` forward to `b`. -/
def dist (a b : Fin n) : Nat := (b - a).val

theorem dist_eq (a b : Fin n) :
    dist a b = if a.val ≤ b.val then b.val - a.val else b.val + n - a.val := by
  unfold dist
  rw [Fin.val_sub]
  split
  · rename_i h
    have hsum : n - a.val + b.val = n + (b.val - a.val) := by omega
    rw [hsum, Nat.add_mod_left]
    exact Nat.mod_eq_of_lt (by omega)
  · rw [Nat.mod_eq_of_lt (by omega)]
    omega

theorem dist_lt (a b : Fin n) : dist a b < n := (b - a).isLt

theorem dist_self (a : Fin n) : dist a a = 0 := by
  rw [dist_eq, if_pos (Nat.le_refl _)]
  omega

variable {a b c : Fin n}

theorem dist_inj (h : dist a b = dist a c) : b = c := by
  rw [dist_eq, dist_eq] at h
  apply Fin.ext
  split at h <;> split at h <;> omega

/-- Distances add up along the table. -/
theorem dist_add (h : dist a b + dist b c < n) : dist a c = dist a b + dist b c := by
  simp only [dist_eq] at h ⊢
  split at h <;> split at h <;> split <;> omega

/-- What lies before `c` and not before `b` lies between them. -/
theorem dist_sub (h : dist a b ≤ dist a c) : dist b c = dist a c - dist a b := by
  simp only [dist_eq] at h ⊢
  split at h <;> split at h <;> split <;> omega

theorem dist_succ [NeZero n] (h : dist a b + 1 < n) : dist a (b + 1) = dist a b + 1 := by
  have hone : (1 : Fin n).val = 1 := by
    rw [Fin.val_one']
    exact Nat.mod_eq_of_lt (by omega)
  have hsucc : (b + 1).val = if b.val + 1 = n then 0 else b.val + 1 := by
    rw [Fin.val_add, hone]
    split
    · rename_i hend
      rw [hend, Nat.mod_self]
    · exact Nat.mod_eq_of_lt (by omega)
  simp only [dist_eq, hsucc] at h ⊢
  split at h <;> split <;> split <;> omega

/-- The slots of a table. -/
abbrev Slots (κ β : Type) (n : Nat) := Fin n → Option (κ × β)

variable {home : κ → Fin n} {s : Slots κ β n} {k : κ} {v : β} {i j : Fin n} {d : Nat}

/-- Every key has one entry, and there is no free slot between its home and its entry. -/
structure Probed (home : κ → Fin n) (s : Slots κ β n) : Prop where
  unique : ∀ {i j k v w}, s i = some (k, v) → s j = some (k, w) → i = j
  filled : ∀ {i j k v}, s i = some (k, v) → dist (home k) j < dist (home k) i → s j ≠ none

theorem Probed.empty (home : κ → Fin n) : Probed home (fun _ => none : Slots κ β n) :=
  ⟨(fun h => nomatch h), (fun h => nomatch h)⟩

/-! ## Searches -/

/-- The first `d` slots from the home of `k` hold other keys. -/
def Passed (home : κ → Fin n) (s : Slots κ β n) (k : κ) (d : Nat) : Prop :=
  ∀ j, dist (home k) j < d → ∃ e, s j = some e ∧ e.1 ≠ k

theorem Passed.zero : Passed home s k 0 := fun _ h => absurd h (Nat.not_lt_zero _)

theorem Passed.succ {e : κ × β} (h : Passed home s k d) (hd : dist (home k) i = d)
    (hi : s i = some e) (hne : e.1 ≠ k) : Passed home s k (d + 1) := by
  intro j hj
  rcases Nat.lt_succ_iff_lt_or_eq.1 hj with hj | hj
  · exact h j hj
  · obtain rfl : j = i := dist_inj (hj.trans hd.symm)
    exact ⟨e, hi, hne⟩

/-- A key is not at a slot that a search for it has passed. -/
theorem Passed.le (h : Passed home s k d) (hi : s i = some (k, v)) : d ≤ dist (home k) i := by
  refine Nat.le_of_not_lt fun hlt => ?_
  obtain ⟨e, he, hne⟩ := h i hlt
  rw [hi] at he
  cases he
  exact hne rfl

/-- A search that ends at a free slot finds nothing. -/
theorem Passed.absent (hs : Probed home s) (h : Passed home s k d) (hd : dist (home k) j = d)
    (hj : s j = none) : s i ≠ some (k, v) := by
  intro hi
  have hle := h.le hi
  rcases Nat.lt_or_eq_of_le hle with hlt | heq
  · exact hs.filled hi (hd ▸ hlt) hj
  · obtain rfl : i = j := dist_inj (heq.symm.trans hd.symm)
    rw [hi] at hj
    cases hj

theorem Passed.all (h : Passed home s k n) : s i ≠ some (k, v) := fun hi =>
  absurd (h.le hi) (Nat.not_le.2 (dist_lt _ _))

/-! ## Insertion -/

/-- An entry may get another value. -/
theorem Probed.replace {w : β} (hs : Probed home s) (hi : s i = some (k, w)) :
    Probed home (Function.update s i (some (k, v))) := by
  have hkey : ∀ {j k' v'}, Function.update s i (some (k, v)) j = some (k', v') →
      ∃ w', s j = some (k', w') := by
    intro j k' v' hj
    rw [update_apply] at hj
    split at hj
    · rename_i hji
      cases hj
      exact ⟨w, hji ▸ hi⟩
    · exact ⟨v', hj⟩
  refine ⟨fun h1 h2 => ?_, fun h1 hlt => ?_⟩
  · obtain ⟨_, h1⟩ := hkey h1
    obtain ⟨_, h2⟩ := hkey h2
    exact hs.unique h1 h2
  · obtain ⟨_, h1⟩ := hkey h1
    rw [update_apply]
    split
    · exact Option.some_ne_none _
    · exact hs.filled h1 hlt

/-- A new entry goes to the free slot where the search for its key ends. -/
theorem Probed.insert (hs : Probed home s) (h : Passed home s k d) (hd : dist (home k) i = d)
    (hi : s i = none) : Probed home (Function.update s i (some (k, v))) := by
  have hentry : ∀ {j k' v'}, Function.update s i (some (k, v)) j = some (k', v') →
      j = i ∧ k' = k ∨ k' ≠ k ∧ s j = some (k', v') := by
    intro j k' v' hj
    rw [update_apply] at hj
    split at hj
    · rename_i hji
      cases hj
      exact .inl ⟨hji, rfl⟩
    · refine .inr ⟨fun hk => ?_, hj⟩
      subst hk
      exact Passed.absent hs h hd hi hj
  refine ⟨fun h1 h2 => ?_, fun {i' j k' v'} h1 hlt => ?_⟩
  · rcases hentry h1 with ⟨rfl, rfl⟩ | ⟨hne, h1⟩ <;> rcases hentry h2 with ⟨rfl, hk⟩ | ⟨hne', h2⟩
    · rfl
    · exact absurd rfl hne'
    · exact absurd hk hne
    · exact hs.unique h1 h2
  · rw [update_apply]
    split
    · exact Option.some_ne_none _
    · rcases hentry h1 with ⟨rfl, rfl⟩ | ⟨-, h1⟩
      · obtain ⟨e, he, -⟩ := h j (hd ▸ hlt)
        rw [he]
        exact Option.some_ne_none _
      · exact hs.filled h1 hlt

/-! ## Deletion -/

/-- While a free slot is moved away, `hole` is the only free slot that entries may miss, and those
that do stand at `i` or after it. -/
structure Holed (home : κ → Fin n) (s : Slots κ β n) (hole i : Fin n) : Prop where
  free : s hole = none
  unique : ∀ {i j k v w}, s i = some (k, v) → s j = some (k, w) → i = j
  filled : ∀ {i j k v}, s i = some (k, v) → dist (home k) j < dist (home k) i →
    s j ≠ none ∨ j = hole
  later : ∀ {j k v}, s j = some (k, v) → dist (home k) hole < dist (home k) j →
    dist hole i ≤ dist hole j

variable {hole : Fin n}

section
variable [NeZero n]

/-- Deleting an entry leaves a hole. -/
theorem Probed.holed (hs : Probed home s) (hn : 1 < n) :
    Holed home (Function.update s hole none) hole (hole + 1) := by
  have hentry : ∀ {j k v}, Function.update s hole none j = some (k, v) →
      j ≠ hole ∧ s j = some (k, v) := by
    intro j k v hj
    rw [update_apply] at hj
    split at hj
    · cases hj
    · exact ⟨‹_›, hj⟩
  refine ⟨update_self .., fun h1 h2 => hs.unique (hentry h1).2 (hentry h2).2,
    fun {i j k v} h1 hlt => ?_, fun {j k v} hj _ => ?_⟩
  · rw [update_apply]
    split
    · exact .inr ‹_›
    · exact .inl (hs.filled (hentry h1).2 hlt)
  · rw [dist_succ (by rw [dist_self]; exact hn), dist_self]
    refine Nat.pos_of_ne_zero fun hzero => (hentry hj).1 ?_
    exact dist_inj (hzero.trans (dist_self hole).symm)

/-- An entry that is not beyond the hole stays where it is. -/
theorem Holed.skip (h : Holed home s hole i) (hi : s i = some (k, v))
    (hhome : dist (home k) i ≤ dist (home k) hole) (hlt : dist hole i + 1 < n) :
    Holed home s hole (i + 1) := by
  refine ⟨h.free, h.unique, h.filled, fun {j k' v'} hj hbeyond => ?_⟩
  rw [dist_succ hlt]
  refine Nat.lt_of_le_of_ne (h.later hj hbeyond) fun heq => ?_
  obtain rfl : i = j := dist_inj heq
  rw [hi] at hj
  cases hj
  exact absurd hbeyond (Nat.not_lt.2 hhome)

/-- An entry beyond the hole moves to it. -/
theorem Holed.shift (h : Holed home s hole i) (hi : s i = some (k, v))
    (hhome : dist (home k) hole < dist (home k) i) (hn : 1 < n) :
    Holed home (Function.update (Function.update s hole (some (k, v))) i none) i (i + 1) := by
  have hne : i ≠ hole := fun he => by rw [he] at hhome; exact Nat.lt_irrefl _ hhome
  have hentry : ∀ {j k' v'},
      Function.update (Function.update s hole (some (k, v))) i none j = some (k', v') →
      j ≠ i ∧ (j = hole ∧ k' = k ∧ v' = v ∨ j ≠ hole ∧ s j = some (k', v')) := by
    intro j k' v' hj
    rw [update_apply] at hj
    split at hj
    · cases hj
    · rename_i hji
      rw [update_apply] at hj
      split at hj
      · cases hj
        exact ⟨hji, .inl ⟨‹_›, rfl, rfl⟩⟩
      · exact ⟨hji, .inr ⟨‹_›, hj⟩⟩
  refine ⟨update_self .., fun {a b k' v' w'} h1 h2 => ?_, fun {a j k' v'} h1 hlt => ?_,
    fun {j k' v'} hj _ => ?_⟩
  · obtain ⟨ha, ha'⟩ := hentry h1
    obtain ⟨hb, hb'⟩ := hentry h2
    rcases ha' with ⟨rfl, rfl, -⟩ | ⟨-, ha'⟩ <;> rcases hb' with ⟨hbh, hk, -⟩ | ⟨-, hb'⟩
    · exact hbh.symm
    · exact absurd (h.unique hb' hi) hb
    · subst hk
      exact absurd (h.unique ha' hi) ha
    · exact h.unique ha' hb'
  · by_cases hj : j = i
    · exact .inr hj
    refine .inl ?_
    rw [update_of_ne hj, update_apply]
    split
    · exact Option.some_ne_none _
    · rename_i hjhole
      obtain ⟨-, ⟨rfl, rfl, -⟩ | ⟨-, h1⟩⟩ := hentry h1
      · exact (h.filled hi (hlt.trans hhome)).resolve_right hjhole
      · exact (h.filled h1 hlt).resolve_right hjhole
  · rw [dist_succ (by rw [dist_self]; exact hn), dist_self]
    refine Nat.pos_of_ne_zero fun hzero => (hentry hj).1 ?_
    exact dist_inj (hzero.trans (dist_self i).symm)

end

/-- At another free slot the deletion is done. -/
theorem Holed.probed (h : Holed home s hole i) (hi : s i = none) (hne : i ≠ hole) :
    Probed home s := by
  refine ⟨h.unique, fun {j j' k v} hj hlt => ?_⟩
  refine (h.filled hj hlt).elim id fun hj' => ?_
  subst hj'
  -- the free slot would lie between the hole and the entry
  have hle := h.later hj hlt
  have hbetween := dist_sub (Nat.le_of_lt hlt)
  have hlast : dist j' i ≠ dist j' j := fun heq => by
    rw [dist_inj heq, hj] at hi
    cases hi
  have hsum : dist (home k) i = dist (home k) j' + dist j' i :=
    dist_add (by have := dist_lt (home k) j; omega)
  exact absurd hi ((h.filled hj (by omega)).resolve_right hne)

/-! ## The map of a table -/

/-- The table holds the entries of the map. -/
def Represents (s : Slots κ β n) (m : Finmap fun _ : κ => β) [DecidableEq κ] : Prop :=
  ∀ k v, m.lookup k = some v ↔ ∃ i, s i = some (k, v)

section
variable [DecidableEq κ] {m : Finmap fun _ : κ => β}

theorem Represents.empty : Represents (fun _ => none : Slots κ β n) ∅ := by
  intro k v
  rw [Finmap.lookup_empty]
  exact ⟨(fun h => nomatch h), fun ⟨_, h⟩ => nomatch h⟩

theorem Represents.lookup_none (h : Represents s m) (habsent : ∀ i v, s i ≠ some (k, v)) :
    m.lookup k = none := by
  cases hk : m.lookup k with
  | none => rfl
  | some v =>
    obtain ⟨i, hi⟩ := (h k v).1 hk
    exact absurd hi (habsent i v)

/-- An entry written to the slot of its key, or to a free slot. -/
theorem Represents.insert (h : Represents s m)
    (hi : s i = none ∨ ∃ w, s i = some (k, w)) (hkey : ∀ j w, s j = some (k, w) → j = i) :
    Represents (Function.update s i (some (k, v))) (m.insert k v) := by
  intro k' v'
  by_cases hk : k' = k
  · subst hk
    rw [Finmap.lookup_insert]
    constructor
    · intro hv
      cases hv
      exact ⟨i, update_self ..⟩
    · rintro ⟨j, hj⟩
      rw [update_apply] at hj
      split at hj
      · cases hj
        rfl
      · exact absurd (hkey j v' hj) ‹_›
  · rw [Finmap.lookup_insert_of_ne _ hk, h k' v']
    refine exists_congr fun j => ?_
    rw [update_apply]
    split
    · rename_i hj
      subst hj
      constructor
      · intro hj
        rcases hi with hi | ⟨w, hi⟩
        · rw [hi] at hj
          cases hj
        · rw [hi] at hj
          cases hj
          exact absurd rfl hk
      · intro hj
        cases hj
        exact absurd rfl hk
    · rfl

/-- Deletion of the entry of a key. -/
theorem Represents.erase (h : Represents s m) (hi : s i = some (k, v))
    (hkey : ∀ j w, s j = some (k, w) → j = i) :
    Represents (Function.update s i none) (m.erase k) := by
  intro k' v'
  by_cases hk : k' = k
  · subst hk
    rw [Finmap.lookup_erase]
    refine ⟨(fun h => nomatch h), ?_⟩
    rintro ⟨j, hj⟩
    rw [update_apply] at hj
    split at hj
    · cases hj
    · exact absurd (hkey j v' hj) ‹_›
  · rw [Finmap.lookup_erase_ne hk, h k' v']
    refine exists_congr fun j => ?_
    rw [update_apply]
    split
    · rename_i hj
      subst hj
      rw [hi]
      constructor
      · intro hj
        cases hj
        exact absurd rfl hk
      · intro hj
        cases hj
    · rfl

/-- A move of an entry to a free slot. -/
theorem Represents.move (h : Represents s m) (hi : s i = some (k, v)) (hj : s j = none) :
    Represents (Function.update (Function.update s j (some (k, v))) i none) m := by
  have hne : j ≠ i := fun he => by
    rw [he, hi] at hj
    cases hj
  intro k' v'
  rw [h k' v']
  constructor
  · rintro ⟨a, ha⟩
    by_cases hai : a = i
    · subst hai
      rw [hi] at ha
      cases ha
      exact ⟨j, by rw [update_of_ne hne, update_self]⟩
    · refine ⟨a, ?_⟩
      rw [update_of_ne hai, update_of_ne, ha]
      intro haj
      rw [haj, hj] at ha
      cases ha
  · rintro ⟨a, ha⟩
    rw [update_apply] at ha
    split at ha
    · cases ha
    · rw [update_apply] at ha
      split at ha
      · cases ha
        exact ⟨i, hi⟩
      · exact ⟨a, ha⟩

/-- A table without a free slot holds `n` keys. -/
theorem Represents.card (h : Represents s m) (hs : Probed home s) (hfull : ∀ i, s i ≠ none) :
    n ≤ m.keys.card := by
  choose e he using fun i => Option.ne_none_iff_exists'.1 (hfull i)
  have hmem : ∀ i, (e i).1 ∈ m.keys := fun i => by
    rw [Finmap.mem_keys, ← Finmap.lookup_isSome, (h (e i).1 (e i).2).2 ⟨i, he i⟩]
    rfl
  have hinj : Function.Injective fun i => (e i).1 := fun i j hij => by
    have hj := he j
    exact hs.unique (he i) (v := (e i).2) (w := (e j).2) (by
      dsimp only at hij
      rw [hj, hij])
  calc n = (Finset.univ.map ⟨_, hinj⟩).card := by rw [Finset.card_map, Finset.card_fin]
    _ ≤ m.keys.card := Finset.card_le_card fun k hk => by
      obtain ⟨i, -, rfl⟩ := Finset.mem_map.1 hk
      exact hmem i

end

end V86.Probing
