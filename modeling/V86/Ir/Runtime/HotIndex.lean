import V86.Lib.Probing

/-!
# The scheduler's index of hot entries

`HotIndex` of `ir/runtime/hot_index.rs`: a fixed table from entry keys to indices, with linear
probing and deletion by backward shifts. A slot number is a `Fin size`, whose sums and differences
wrap as `(at + 1) & (SIZE - 1)` and `hole.wrapping_sub(home) & (SIZE - 1)` do. A loop over
`0..SIZE` recurses on the turns left.
-/

namespace V86.Ir.Runtime

/-- `CpuEntryKey`. -/
structure CpuEntryKey where
  pc : BitVec 32
  linear : BitVec 32
  default32 : Bool
  deriving DecidableEq

namespace HotIndex

/-- `SIZE`. -/
abbrev size : Nat := 2048

abbrev Slots := Probing.Slots CpuEntryKey Nat size

end HotIndex

/-- `HotIndex`. -/
structure HotIndex where
  slots : HotIndex.Slots

namespace HotIndex

/-- `HotIndex::new`. -/
def new : HotIndex := ⟨fun _ => none⟩

/-- `HotIndex::clear`. -/
def clear (_ : HotIndex) : HotIndex := ⟨fun _ => none⟩

/-- `HotIndex::hash`. -/
def hash (key : CpuEntryKey) : Fin size :=
  let n := key.linear ^^^ key.pc.rotateLeft 13 ^^^ (BitVec.ofBool key.default32).setWidth 32
  ⟨((n * 0x9E3779B1) >>> 21).toNat, by
    rw [BitVec.toNat_ushiftRight, Nat.shiftRight_eq_div_pow]
    have hlt := (n * 0x9E3779B1).isLt
    have hsize : size = 2048 := rfl
    omega⟩

/-- The loop of `HotIndex::get`. -/
def getFrom (slots : Slots) (key : CpuEntryKey) : Nat → Fin size → Option Nat
  | 0, _ => none
  | turns + 1, i =>
    match slots i with
    | none => none
    | some (saved, index) => if saved = key then some index else getFrom slots key turns (i + 1)

/-- `HotIndex::get`. -/
def get (t : HotIndex) (key : CpuEntryKey) : Option Nat := getFrom t.slots key size (hash key)

/-- The loop of `HotIndex::insert`; nothing where it reaches `unreachable!`. -/
def insertFrom (slots : Slots) (key : CpuEntryKey) (index : Nat) : Nat → Fin size → Option Slots
  | 0, _ => none
  | turns + 1, i =>
    if (slots i).all (·.1 = key) then some (Function.update slots i (some (key, index)))
    else insertFrom slots key index turns (i + 1)

/-- `HotIndex::insert`. -/
def insert (t : HotIndex) (key : CpuEntryKey) (index : Nat) : Option HotIndex :=
  (insertFrom t.slots key index size (hash key)).map .mk

/-- The first loop of `HotIndex::remove`: nothing where it returns. -/
def findFrom (slots : Slots) (key : CpuEntryKey) : Nat → Fin size → Option (Fin size)
  | 0, hole => some hole
  | turns + 1, hole =>
    match slots hole with
    | none => none
    | some (saved, _) => if saved = key then some hole else findFrom slots key turns (hole + 1)

/-- The second loop of `HotIndex::remove`, which has no bound in the source: nothing where it does
not end within `turns` turns. -/
def shiftFrom : Nat → Slots → Fin size → Fin size → Option Slots
  | 0, _, _, _ => none
  | turns + 1, slots, hole, i =>
    match slots i with
    | none => some slots
    | some (saved, index) =>
      let home := hash saved
      if hole - home < i - home then
        shiftFrom turns (Function.update (Function.update slots hole (some (saved, index))) i none)
          i (i + 1)
      else shiftFrom turns slots hole (i + 1)

/-- `HotIndex::remove`. -/
def remove (t : HotIndex) (key : CpuEntryKey) : Option HotIndex :=
  match findFrom t.slots key size (hash key) with
  | none => some t
  | some hole => (shiftFrom size (Function.update t.slots hole none) hole (hole + 1)).map .mk

/-- A call of the scheduler. -/
inductive Call
  | insert (key : CpuEntryKey) (index : Nat)
  | remove (key : CpuEntryKey)
  | clear

/-- A call on the table; nothing where it panics or does not end. -/
def step (t : HotIndex) : Call → Option HotIndex
  | .insert key index => t.insert key index
  | .remove key => t.remove key
  | .clear => some t.clear

/-- A call on a finite map. -/
def refStep (m : Finmap fun _ : CpuEntryKey => Nat) : Call → Finmap fun _ : CpuEntryKey => Nat
  | .insert key index => m.insert key index
  | .remove key => m.erase key
  | .clear => ∅

/-! ## The table is a finite map -/

open Probing

/-- The table stands for the map. -/
structure Tracks (t : HotIndex) (m : Finmap fun _ : CpuEntryKey => Nat) : Prop where
  probed : Probed hash t.slots
  map : Represents t.slots m

variable {t : HotIndex} {m : Finmap fun _ : CpuEntryKey => Nat} {key : CpuEntryKey}

theorem Tracks.new : Tracks new ∅ := ⟨.empty hash, .empty⟩

theorem Tracks.clear (_ : Tracks t m) : Tracks t.clear ∅ := ⟨.empty hash, .empty⟩

/-- The slot after the last one passed is the next one of the search. -/
theorem next_dist {home i : Fin size} {turns d : Nat} (hturns : d + (turns + 1) = size)
    (hd : turns + 1 ≠ 0 → dist home i = d) : turns ≠ 0 → dist home (i + 1) = d + 1 := by
  intro hpos
  rw [dist_succ (by rw [hd (Nat.succ_ne_zero _)]; omega), hd (Nat.succ_ne_zero _)]

theorem getFrom_eq (ht : Tracks t m) (turns : Nat) (i : Fin size) (d : Nat)
    (hturns : d + turns = size) (hpassed : Passed hash t.slots key d)
    (hd : turns ≠ 0 → dist (hash key) i = d) : getFrom t.slots key turns i = m.lookup key := by
  induction turns generalizing i d with
  | zero =>
    obtain rfl : d = size := hturns
    exact (ht.map.lookup_none fun _ _ => hpassed.all).symm
  | succ turns ih =>
    have hi := hd (Nat.succ_ne_zero _)
    unfold getFrom
    split
    · rename_i hfree
      exact (ht.map.lookup_none fun _ _ => hpassed.absent ht.probed hi hfree).symm
    · rename_i saved index hslot
      split
      · rename_i heq
        subst heq
        exact ((ht.map _ index).2 ⟨i, hslot⟩).symm
      · rename_i hne
        exact ih (i + 1) (d + 1) (by omega) (hpassed.succ hi hslot hne) (next_dist hturns hd)

/-- `get` looks the key up. -/
theorem Tracks.get (ht : Tracks t m) (key : CpuEntryKey) : t.get key = m.lookup key :=
  getFrom_eq ht size (hash key) 0 (Nat.zero_add _) .zero fun _ => dist_self _

/-- A table with room is not passed as a whole. -/
theorem Tracks.not_passed (ht : Tracks t m) (hroom : m.keys.card < size) :
    ¬Passed hash t.slots key size := by
  intro hpassed
  have hfull : ∀ i, t.slots i ≠ none := fun i => by
    obtain ⟨e, he, -⟩ := hpassed i (dist_lt _ _)
    rw [he]
    exact Option.some_ne_none _
  exact absurd (ht.map.card ht.probed hfull) (Nat.not_le.2 hroom)

theorem insertFrom_tracks (ht : Tracks t m) (key : CpuEntryKey) (index turns : Nat) (i : Fin size)
    (d : Nat) (hturns : d + turns = size) (hpassed : Passed hash t.slots key d)
    (hd : turns ≠ 0 → dist (hash key) i = d) (hroom : m.keys.card < size) :
    ∃ slots, insertFrom t.slots key index turns i = some slots ∧
      Tracks ⟨slots⟩ (m.insert key index) := by
  induction turns generalizing i d with
  | zero =>
    obtain rfl : d = size := hturns
    exact (ht.not_passed hroom hpassed).elim
  | succ turns ih =>
    have hi := hd (Nat.succ_ne_zero _)
    unfold insertFrom
    cases hslot : t.slots i with
    | none =>
      refine ⟨_, rfl, ht.probed.insert hpassed hi hslot, ht.map.insert (.inl hslot) ?_⟩
      exact fun j w hj => absurd hj (hpassed.absent ht.probed hi hslot)
    | some e =>
      obtain ⟨saved, old⟩ := e
      by_cases heq : saved = key
      · subst heq
        refine ⟨_, if_pos (decide_eq_true rfl), ht.probed.replace hslot, ?_⟩
        exact ht.map.insert (.inr ⟨old, hslot⟩) fun j w hj => ht.probed.unique hj hslot
      · obtain ⟨slots, hslots, htracks⟩ := ih (i + 1) (d + 1) (by omega)
          (hpassed.succ hi hslot heq) (next_dist hturns hd)
        exact ⟨slots, (if_neg (by simpa using heq)).trans hslots, htracks⟩

theorem Tracks.insert (ht : Tracks t m) (hroom : m.keys.card < size) (key : CpuEntryKey)
    (index : Nat) : ∃ t', t.insert key index = some t' ∧ Tracks t' (m.insert key index) := by
  obtain ⟨slots, hslots, htracks⟩ := insertFrom_tracks ht key index size (hash key) 0
    (Nat.zero_add _) .zero (fun _ => dist_self _) hroom
  exact ⟨⟨slots⟩, by rw [HotIndex.insert, hslots]; rfl, htracks⟩

/-- The search of a deletion ends at the key's entry or finds that there is none. -/
theorem findFrom_spec (ht : Tracks t m) (key : CpuEntryKey) (turns : Nat) (i : Fin size) (d : Nat)
    (hturns : d + turns = size) (hpassed : Passed hash t.slots key d)
    (hd : turns ≠ 0 → dist (hash key) i = d) (hroom : m.keys.card < size) :
    findFrom t.slots key turns i = none ∧ (∀ i v, t.slots i ≠ some (key, v)) ∨
      ∃ hole v, findFrom t.slots key turns i = some hole ∧ t.slots hole = some (key, v) := by
  induction turns generalizing i d with
  | zero =>
    obtain rfl : d = size := hturns
    exact (ht.not_passed hroom hpassed).elim
  | succ turns ih =>
    have hi := hd (Nat.succ_ne_zero _)
    unfold findFrom
    split
    · rename_i hfree
      exact .inl ⟨rfl, fun _ _ => hpassed.absent ht.probed hi hfree⟩
    · rename_i saved index hslot
      split
      · rename_i heq
        subst heq
        exact .inr ⟨i, index, rfl, hslot⟩
      · rename_i hne
        exact ih (i + 1) (d + 1) (by omega) (hpassed.succ hi hslot hne) (next_dist hturns hd)

/-- The shifts end at the latest at a free slot `e` other than the hole. -/
theorem shiftFrom_tracks (turns : Nat) {slots : Slots} {hole i e : Fin size}
    (hholed : Holed hash slots hole i) (hmap : Represents slots m) (hfree : slots e = none)
    (hne : e ≠ hole) (hturns : dist i e < turns) (hbefore : 0 < dist hole i)
    (hle : dist hole i ≤ dist hole e) :
    ∃ slots', shiftFrom turns slots hole i = some slots' ∧ Tracks ⟨slots'⟩ m := by
  induction turns generalizing slots hole i with
  | zero => exact absurd hturns (Nat.not_lt_zero _)
  | succ turns ih =>
    have hihole : i ≠ hole := fun h => by
      rw [h, dist_self] at hbefore
      exact Nat.lt_irrefl _ hbefore
    have hrest := dist_sub hle
    have hlt := dist_lt hole e
    unfold shiftFrom
    split
    · rename_i hi
      exact ⟨slots, rfl, hholed.probed hi hihole, hmap⟩
    · rename_i saved index hi
      have hei : e ≠ i := fun h => by
        rw [h, hi] at hfree
        cases hfree
      have hless : dist hole i < dist hole e :=
        Nat.lt_of_le_of_ne hle fun h => hei (dist_inj h).symm
      have hstep : dist hole (i + 1) = dist hole i + 1 := dist_succ (by omega)
      have hone : dist i (i + 1) = 1 := by
        rw [dist_succ (by rw [dist_self]; decide), dist_self]
      have hnext : dist (i + 1) e = dist i e - 1 := by
        have hsub := dist_sub (a := hole) (b := i + 1) (c := e) (by omega)
        omega
      dsimp only
      split
      · rename_i hmove
        have hmove : dist (hash saved) hole < dist (hash saved) i := hmove
        refine ih (hholed.shift hi hmove (by decide)) (hmap.move hi hholed.free) ?_ hei (by omega)
          (by omega) (by omega)
        rw [Function.update_of_ne hei, Function.update_of_ne hne, hfree]
      · rename_i hstay
        have hstay : dist (hash saved) i ≤ dist (hash saved) hole := Nat.not_lt.1 hstay
        exact ih (hholed.skip hi hstay (by omega)) hmap hfree hne (by omega) (by omega) (by omega)

theorem Tracks.remove (ht : Tracks t m) (hroom : m.keys.card < size) (key : CpuEntryKey) :
    ∃ t', t.remove key = some t' ∧ Tracks t' (m.erase key) := by
  unfold HotIndex.remove
  rcases findFrom_spec ht key size (hash key) 0 (Nat.zero_add _) .zero
    (fun _ => dist_self _) hroom with ⟨hfind, habsent⟩ | ⟨hole, v, hfind, hslot⟩
  · rw [hfind]
    have hkeep : m.erase key = m := Finmap.ext_lookup fun k => by
      by_cases hk : k = key
      · rw [hk, Finmap.lookup_erase, ht.map.lookup_none habsent]
      · rw [Finmap.lookup_erase_ne hk]
    rw [hkeep]
    exact ⟨t, rfl, ht⟩
  · rw [hfind]
    -- a table that is not full has a free slot besides the hole
    obtain ⟨e, he⟩ : ∃ e, t.slots e = none := by
      by_contra hfull
      push Not at hfull
      exact absurd (ht.map.card ht.probed hfull) (Nat.not_le.2 hroom)
    have hne : e ≠ hole := fun h => by
      rw [h, hslot] at he
      cases he
    have hone : dist hole (hole + 1) = 1 := by
      rw [dist_succ (by rw [dist_self]; decide), dist_self]
    have hpos : 0 < dist hole e := Nat.pos_of_ne_zero fun h => hne (dist_inj (h.trans (dist_self _).symm))
    obtain ⟨slots, hslots, htracks⟩ := shiftFrom_tracks size (e := e)
      (ht.probed.holed (by decide))
      (ht.map.erase hslot fun j w hj => ht.probed.unique hj hslot)
      (by rw [Function.update_of_ne hne, he]) hne (dist_lt _ _) (by omega) (by omega)
    exact ⟨⟨slots⟩, by dsimp only; rw [hslots]; rfl, htracks⟩

/-- Every call runs through and tracks the same call on the map. -/
theorem Tracks.step (ht : Tracks t m) (hroom : m.keys.card < size) (call : Call) :
    ∃ t', t.step call = some t' ∧ Tracks t' (refStep m call) := by
  cases call with
  | insert key index => exact ht.insert hroom key index
  | remove key => exact ht.remove hroom key
  | clear => exact ⟨_, rfl, ht.clear⟩

theorem Tracks.run {calls : List Call} (ht : Tracks t m)
    (hroom : ∀ before, before <+: calls → (before.foldl refStep m).keys.card < size) :
    ∃ t', calls.foldlM HotIndex.step t = some t' ∧ Tracks t' (calls.foldl refStep m) := by
  induction calls generalizing t m with
  | nil => exact ⟨t, rfl, ht⟩
  | cons call calls ih =>
    obtain ⟨t', hstep, ht'⟩ := ht.step (hroom [] List.nil_prefix) call
    obtain ⟨t'', hrun, ht''⟩ := ih ht' fun before hbefore =>
      hroom (call :: before) (List.prefix_cons_inj call |>.2 hbefore)
    refine ⟨t'', ?_, ht''⟩
    rw [List.foldlM_cons, hstep]
    exact hrun

/-- Calls that never hold more than 2047 keys run through, without reaching `unreachable!` or
shifting forever, and then every key has the index of its last insertion unless it has been removed
since. -/
theorem hotIndex_map (calls : List Call)
    (hkeys : ∀ before, before <+: calls → (before.foldl refStep ∅).keys.card ≤ 2047) :
    ∃ t, calls.foldlM step new = some t ∧
      ∀ key, t.get key = (calls.foldl refStep ∅).lookup key := by
  obtain ⟨t, hrun, ht⟩ := Tracks.new.run fun before hbefore => Nat.lt_succ_of_le (hkeys before hbefore)
  exact ⟨t, hrun, ht.get⟩

/-- Two keys of one home slot, of which the first is removed. -/
def collision : List Call :=
  [.insert ⟨0, 0, false⟩ 5, .insert ⟨0, 1597, false⟩ 6, .remove ⟨0, 0, false⟩]

theorem hotIndex_map_collision : ∃ t, collision.foldlM step new = some t ∧
    ∀ key, t.get key = (collision.foldl refStep ∅).lookup key :=
  hotIndex_map collision fun before hbefore =>
    (by decide : ∀ before ∈ collision.inits, (before.foldl refStep ∅).keys.card ≤ 2047) before
      ((List.mem_inits _ _).2 hbefore)

end HotIndex

end V86.Ir.Runtime
