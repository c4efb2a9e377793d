import V86.X64.Architecture
import V86.X64.PagingCorrect

/-!
# Walks are those of the architecture

A walk sets bits of the entries that it reads, also of those that it will read again where tables map
themselves. `Same` entries differ in these bits alone, which no rule of `Walks` looks at
(`Walks.alike`). The loop of the walk thus goes down the path of the contents that it began with
(`walkFrom_walks`).
-/

namespace V86.X64

open List Function
open BitVec hiding not_not or_assoc

variable {cells cells' : Address → Option (BitVec 64)} {address : Address} {access : Access}
  {c : Controls} {mode : WalkMode} {m : TableMemory} {p p' : Path} {o o' : Outcome}

/-! ## Walks of one contents -/

theorem IsErrorCode.unique {present reserved : Bool} {error error' : BitVec 32}
    (h : IsErrorCode access c present reserved error)
    (h' : IsErrorCode access c present reserved error') : error = error' :=
  eq_of_getLsbD_eq fun i _ => (h i).trans (h' i).symm

/-- Paths of one length are the same. -/
theorem Descends.unique (h : Descends cells address c p) (h' : Descends cells address c p')
    (hlength : p.length = p'.length) : p = p' := by
  induction h generalizing p' with
  | root => exact (List.length_eq_zero_iff.1 hlength.symm).symm
  | next above read present sound points ih =>
    cases h' with
    | root => simp at hlength
    | next above' read' present' sound' points' =>
      obtain rfl := ih above' (by simpa using hlength)
      rw [read] at read'
      cases read'
      rfl

/-- The entry below a path is one of a longer path. -/
def Passes (cells : Address → Option (BitVec 64)) (address : Address) (c : Controls) (p : Path) :
    Prop :=
  ∃ entry, cells (p.next c address) = some entry ∧ entry.getLsbD 0 = true ∧
    ¬Reserved c p.level entry ∧ ¬Maps p.level entry

theorem Descends.passes (h : Descends cells address c p) (h' : Descends cells address c p')
    (hlength : p.length < p'.length) : Passes cells address c p := by
  induction h' with
  | root => exact absurd hlength (Nat.not_lt_zero _)
  | @next q entry above read present sound points ih =>
    rw [length_append, length_singleton] at hlength
    rcases Nat.lt_or_ge p.length q.length with hlt | hge
    · exact ih hlt
    · obtain rfl := h.unique above (by omega)
      exact ⟨entry, read, present, sound, points⟩

theorem Ends.not_passes (h : Ends cells address access c p o) : ¬Passes cells address c p := by
  rintro ⟨entry, read', present', sound', points'⟩
  cases h with
  | unavailable read => cases read.symm.trans read'
  | notPresent read present =>
    cases read.symm.trans read'
    cases present.symm.trans present'
  | reserved read _ reserved =>
    cases read.symm.trans read'
    exact sound' reserved
  | denied read _ _ maps | translated read _ _ maps =>
    cases read.symm.trans read'
    exact points' maps

theorem Ends.unique (h : Ends cells address access c p o) (h' : Ends cells address access c p o') :
    o = o' := by
  cases h <;> cases h' <;> simp_all
  all_goals
    rename_i code _ code'
    exact code.unique code'

theorem Walks.unique (h : Walks cells address access c o) (h' : Walks cells address access c o') :
    o = o' := by
  cases h with
  | nonCanonical hcanonical =>
    cases h' with
    | nonCanonical => rfl
    | follows hcanonical' => cases hcanonical.symm.trans hcanonical'
  | @follows p _ hcanonical path ends =>
    cases h' with
    | nonCanonical hcanonical' => cases hcanonical.symm.trans hcanonical'
    | @follows p' _ _ path' ends' =>
      rcases Nat.lt_trichotomy p.length p'.length with hlt | heq | hgt
      · exact absurd (path.passes path' hlt) ends.not_passes
      · obtain rfl := path.unique path' heq
        exact ends.unique ends'
      · exact absurd (path'.passes path hgt) ends'.not_passes

/-! ## Entries that differ in A and D -/

/-- The entries are the same but for their bits A and D. -/
def Same (entry entry' : BitVec 64) : Prop :=
  ∀ i, i ≠ 5 → i ≠ 6 → entry'.getLsbD i = entry.getLsbD i

variable {entry entry' : BitVec 64}

theorem Same.reserved (h : Same entry entry') (level : Nat) :
    Reserved c level entry' ↔ Reserved c level entry := by
  have hbit (low : Nat) (hlow : 7 ≤ low) (high : Nat) :
      (∃ i, low ≤ i ∧ i < high ∧ entry'.getLsbD i = true) ↔
        ∃ i, low ≤ i ∧ i < high ∧ entry.getLsbD i = true := by
    refine exists_congr fun i => and_congr_right fun hi => and_congr_right fun _ => ?_
    rw [h i (by omega) (by omega)]
  rw [Reserved, Reserved, hbit 36 (by decide), hbit 13 (by decide), h 63 (by decide) (by decide),
    h 7 (by decide) (by decide)]

theorem Same.maps (h : Same entry entry') (level : Nat) : Maps level entry' ↔ Maps level entry := by
  rw [Maps, Maps, h 7 (by decide) (by decide)]

/-- The entries point to the same table, or map the same page. -/
theorem Same.frame (h : Same entry entry') {offset : BitVec 64}
    (hoffset : ∀ i < 12, offset.getLsbD i = true) :
    entry' &&& physicalMask &&& ~~~offset = entry &&& physicalMask &&& ~~~offset := by
  refine eq_of_getLsbD_eq fun i hi => ?_
  rw [getLsbD_and, getLsbD_and, getLsbD_and, getLsbD_and, getLsbD_not]
  rcases Nat.lt_or_ge i 12 with hlt | hge
  · rw [hoffset i hlt, Bool.not_true, Bool.and_false, Bool.and_false, Bool.and_false]
  · rw [h i (by omega) (by omega)]

/-- The paths have the same addresses, and entries that are the same but for A and D. -/
abbrev SamePath (p p' : Path) : Prop :=
  List.Forall₂ (fun v v' => v'.1 = v.1 ∧ Same v.2 v'.2) p p'

theorem SamePath.level (h : SamePath p p') : p'.level = p.level := by
  rw [Path.level, Path.level, h.length_eq]

theorem SamePath.addresses (h : SamePath p p') : p'.addresses = p.addresses := by
  induction h with
  | nil => rfl
  | cons hv _ ih => exact congrArg₂ List.cons hv.1 ih

theorem SamePath.getLast? (h : SamePath p p') : p.getLast? = none ∧ p'.getLast? = none ∨
      ∃ v v', p.getLast? = some v ∧ p'.getLast? = some v' ∧ Same v.2 v'.2 := by
  induction h with
  | nil => exact .inl ⟨rfl, rfl⟩
  | @cons v v' l l' hv _ ih =>
    right
    rw [List.getLast?_cons, List.getLast?_cons]
    obtain ⟨hnone, hnone'⟩ | ⟨w, w', hw, hw', hsame⟩ := ih
    · rw [hnone, hnone']
      exact ⟨v, v', rfl, rfl, hv.2⟩
    · rw [hw, hw']
      exact ⟨w, w', rfl, rfl, hsame⟩

theorem SamePath.next (h : SamePath p p') : p'.next c address = p.next c address := by
  have htable : p'.table c = p.table c := by
    rw [Path.table, Path.table]
    obtain ⟨hnone, hnone'⟩ | ⟨v, v', hv, hv', hsame⟩ := h.getLast?
    · rw [hnone, hnone']
    · rw [hv, hv']
      refine hsame.frame fun i hi => ?_
      have hlow : (0xFFF : BitVec 64) = BitVec.twoPow 64 12 - 1 := rfl
      rw [hlow, getLsbD_offset (by decide), decide_eq_true hi]
  rw [Path.next, Path.next, htable, h.level]

theorem SamePath.all (h : SamePath p p') {f : BitVec 64 → Bool}
    (hf : ∀ entry entry', Same entry entry' → f entry' = f entry) :
    p'.all (fun v => f v.2) = p.all (fun v => f v.2) := by
  induction h with
  | nil => rfl
  | cons hv _ ih => rw [all_cons, all_cons, ih, hf _ _ hv.2]

theorem Path.permits_iff : p.Permits access c ↔ (c.user = true → p.all (·.2.getLsbD 2) = true) ∧
    (access = .write → p.all (·.2.getLsbD 1) = true ∨ c.user = false ∧ c.writeProtect = false) ∧
    (access = .execute → p.all (!·.2.getLsbD 63) = true) := by
  rw [Path.Permits, all_eq_true, all_eq_true, all_eq_true]
  simp only [Bool.not_eq_true']

theorem SamePath.permits (h : SamePath p p') : p'.Permits access c ↔ p.Permits access c := by
  rw [Path.permits_iff, Path.permits_iff,
    h.all (f := (·.getLsbD 2)) fun _ _ hsame => hsame 2 (by decide) (by decide),
    h.all (f := (·.getLsbD 1)) fun _ _ hsame => hsame 1 (by decide) (by decide),
    h.all (f := (!·.getLsbD 63)) fun _ _ hsame =>
      congrArg not (hsame 63 (by decide) (by decide))]

theorem SamePath.translation (h : SamePath p p')
    (hentry : Same entry entry') : p'.translation address entry' = p.translation address entry := by
  rw [Path.translation, Path.translation, ← h.length_eq, h.addresses,
    h.all (f := (·.getLsbD 2)) fun _ _ hsame => hsame 2 (by decide) (by decide),
    h.all (f := (·.getLsbD 1)) fun _ _ hsame => hsame 1 (by decide) (by decide),
    h.all (f := (!·.getLsbD 63)) fun _ _ hsame =>
      congrArg not (hsame 63 (by decide) (by decide)), hentry 8 (by decide) (by decide)]
  rw [hentry.frame]
  intro i hi
  rw [getLsbD_offset (by split <;> decide), decide_eq_true]
  split <;> omega

/-- The contents of a cell, but for A and D. -/
def Alike (x y : Option (BitVec 64)) : Prop := x.map (· ||| 0x60) = y.map (· ||| 0x60)

theorem Alike.read {x y : Option (BitVec 64)} (h : Alike x y)
    (hx : x = some entry) : ∃ entry', y = some entry' ∧ Same entry entry' := by
  rw [Alike, hx, Option.map_some] at h
  obtain ⟨entry', hy, heq⟩ := Option.map_eq_some_iff.1 h.symm
  refine ⟨entry', hy, fun i hne hne' => ?_⟩
  have hbit := congrArg (·.getLsbD i) heq
  have hmask : (0x60 : BitVec 64).getLsbD i = false :=
    (getLsbD_of_all (p := fun i => decide (i = 5 ∨ i = 6)) (by decide)
      (fun i hi => decide_eq_false (by omega)) i).trans (decide_eq_false (by omega))
  rwa [getLsbD_or, getLsbD_or, hmask, Bool.or_false, Bool.or_false] at hbit

theorem Alike.none {x y : Option (BitVec 64)} (h : Alike x y) (hx : x = none) : y = none := by
  rw [Alike, hx, Option.map_none] at h
  exact Option.map_eq_none_iff.1 h.symm

theorem Path.addresses_append (p : Path) (v : Address × BitVec 64) :
    (p ++ [v] : Path).addresses = p.addresses ++ [v.1] := by
  rw [Path.addresses, map_append]
  rfl

theorem Descends.alike (h : Descends cells address c p)
    (halike : ∀ a ∈ p.addresses, Alike (cells a) (cells' a)) :
    ∃ p', Descends cells' address c p' ∧ SamePath p p' := by
  induction h with
  | root => exact ⟨[], .root, .nil⟩
  | @next p entry above read present sound points ih =>
    rw [Path.addresses_append] at halike
    obtain ⟨p', hp', hsame⟩ := ih fun a ha => halike a (mem_append_left _ ha)
    obtain ⟨entry', read', hentry⟩ :=
      (halike _ (mem_append_right _ (mem_singleton_self _))).read read
    rw [← hsame.next] at read'
    refine ⟨_, .next hp' read' ?_ ?_ ?_, rel_append hsame (.cons ⟨hsame.next, hentry⟩ .nil)⟩
    · rw [hentry 0 (by decide) (by decide)]
      exact present
    · rwa [hentry.reserved, hsame.level]
    · rwa [hentry.maps, hsame.level]

theorem Ends.alike (h : Ends cells address access c p o) (hsame : SamePath p p')
    (halike : Alike (cells (p.next c address)) (cells' (p.next c address))) :
    Ends cells' address access c p' o := by
  rw [← hsame.next] at halike
  have hlast {entry entry' : BitVec 64} (hentry : Same entry entry') :
      SamePath (p ++ [(p.next c address, entry)]) (p' ++ [(p'.next c address, entry')]) :=
    rel_append hsame (.cons ⟨hsame.next, hentry⟩ .nil)
  have hread {entry : BitVec 64} {present : Bool} (read : cells (p.next c address) = some entry)
      (h : entry.getLsbD 0 = present) : ∃ entry', cells' (p'.next c address) = some entry' ∧
        Same entry entry' ∧ entry'.getLsbD 0 = present := by
    rw [← hsame.next] at read
    obtain ⟨entry', read', hentry⟩ := halike.read read
    exact ⟨entry', read', hentry, (hentry 0 (by decide) (by decide)).trans h⟩
  cases h with
  | unavailable read =>
    rw [← hsame.next, ← hsame.addresses]
    rw [← hsame.next] at read
    exact .unavailable (halike.none read)
  | notPresent read present code =>
    obtain ⟨entry', read', hentry, present⟩ := hread read present
    rw [← hsame.next, ← hsame.addresses, ← hsame.level]
    exact .notPresent read' present code
  | reserved read present reserved code =>
    obtain ⟨entry', read', hentry, present⟩ := hread read present
    rw [← hsame.level, ← hentry.reserved] at reserved
    rw [← hsame.next, ← hsame.addresses, ← hsame.level]
    exact .reserved read' present reserved code
  | denied read present sound maps denied code =>
    obtain ⟨entry', read', hentry, present⟩ := hread read present
    rw [← hsame.level, ← hentry.reserved] at sound
    rw [← hsame.level, ← hentry.maps] at maps
    rw [← (hlast hentry).permits] at denied
    rw [← hsame.next, ← hsame.addresses, ← hsame.level]
    exact .denied read' present sound maps denied code
  | translated read present sound maps permitted =>
    obtain ⟨entry', read', hentry, present⟩ := hread read present
    rw [← hsame.level, ← hentry.reserved] at sound
    rw [← hsame.level, ← hentry.maps] at maps
    rw [← (hlast hentry).permits] at permitted
    rw [← (hlast hentry).translation hentry, ← hsame.next, ← hsame.addresses]
    exact .translated read' present sound maps permitted

theorem Ends.seen (h : Ends cells address access c p o) :
    o.seen = p.addresses ++ [p.next c address] := by
  cases h <;> rfl

/-- A walk does not look at A and D. -/
theorem Walks.alike (h : Walks cells address access c o)
    (halike : ∀ a ∈ o.seen, Alike (cells a) (cells' a)) : Walks cells' address access c o := by
  cases h with
  | nonCanonical hcanonical => exact .nonCanonical hcanonical
  | follows hcanonical path ends =>
    rw [ends.seen] at halike
    obtain ⟨p', path', hsame⟩ := path.alike fun a ha => halike a (mem_append_left _ ha)
    exact .follows hcanonical path' (ends.alike hsame
      (halike _ (mem_append_right _ (mem_singleton_self _))))

/-! ## Marks -/

namespace TableMemory

/-- Set bits of an entry, unless they are set. -/
def touch (bits : BitVec 64) (m : TableMemory) (a : Address) : TableMemory :=
  match m.cell a with
  | some entry =>
    if entry &&& bits = bits then m
    else
      { m with cell := Function.update m.cell a (some (entry ||| bits)), writes := m.writes + 1 }
  | none => m

/-- The entries `as` are marked as accessed, at run time. -/
def accessed (m : TableMemory) (mode : WalkMode) (as : List Address) : TableMemory :=
  match mode with
  | .runtime => as.foldl (touch 0x20) m
  | .snapshot => m

/-- The memory after a walk. -/
def after (m : TableMemory) (mode : WalkMode) (o : Outcome) : TableMemory :=
  match mode with
  | .runtime => o.dirty.elim id (fun a m => m.touch 0x60 a) (m.accessed .runtime o.accessed)
  | .snapshot => m

theorem touch_of_set {bits : BitVec 64} {a : Address}
    (h : ∀ entry, m.cell a = some entry → entry &&& bits = bits) : m.touch bits a = m := by
  rw [touch]
  split
  · next entry hcell => rw [if_pos (h entry hcell)]
  · rfl

theorem or_eq_self {entry bits : BitVec 64} (h : entry &&& bits = bits) : entry ||| bits = entry := by
  rw [← h]
  refine eq_of_getLsbD_eq fun i _ => ?_
  rw [getLsbD_or, getLsbD_and]
  cases entry.getLsbD i <;> rfl

theorem touch_cell (bits : BitVec 64) (m : TableMemory) (a a' : Address) :
    (m.touch bits a).cell a' = if a' = a then (m.cell a').map (· ||| bits) else m.cell a' := by
  rw [touch]
  split
  · next entry hcell =>
    by_cases ha : a' = a
    · rw [if_pos ha, ha, hcell, Option.map_some]
      split
      · next hset => rw [or_eq_self hset, hcell]
      · exact update_self ..
    · rw [if_neg ha]
      split
      · rfl
      · exact update_of_ne ha ..
  · next hcell =>
    split
    · next ha => rw [ha, hcell, Option.map_none]
    · rfl

theorem accessed_cell (m : TableMemory) (as : List Address) (a : Address) :
    (m.accessed .runtime as).cell a = if a ∈ as then (m.cell a).map (· ||| 0x20) else m.cell a := by
  rw [accessed]
  induction as generalizing m with
  | nil => rw [if_neg (not_mem_nil)]; rfl
  | cons a' as ih =>
    rw [foldl_cons, ih, touch_cell]
    by_cases ha : a = a'
    · have hmem : a ∈ a' :: as := by
        rw [ha]
        exact mem_cons_self
      rw [if_pos ha, if_pos hmem]
      split
      · rw [Option.map_map]
        congr 1
        funext entry
        rw [comp_apply, BitVec.or_assoc, BitVec.or_self]
      · rfl
    · rw [if_neg ha]
      simp only [mem_cons, ha, false_or]

theorem accessed_append (m : TableMemory) (mode : WalkMode) (as : List Address) (a : Address) :
    m.accessed mode (as ++ [a]) =
      if mode = .runtime then (m.accessed mode as).touch 0x20 a else m.accessed mode as := by
  cases mode with
  | runtime => exact foldl_append ..
  | snapshot => rfl

/-- The marks are those of the outcome. -/
theorem after_cell (m : TableMemory) (h : ∀ a, o.dirty = some a → a ∈ o.accessed) (a : Address) :
    (m.after .runtime o).cell a = (m.cell a).map (· ||| o.marks a) := by
  rw [after]
  cases hdirty : o.dirty with
  | none =>
    change (m.accessed .runtime o.accessed).cell a = _
    rw [accessed_cell]
    by_cases hmem : a ∈ o.accessed <;> simp [Outcome.marks, hmem, hdirty]
  | some a' =>
    change ((m.accessed .runtime o.accessed).touch 0x60 a').cell a = _
    rw [touch_cell, accessed_cell]
    by_cases ha : a = a'
    · have hmem := h a' hdirty
      rw [ha, if_pos hmem, if_pos rfl, Option.map_map]
      congr 1
      funext entry
      rw [comp_apply, BitVec.or_assoc, Outcome.marks, if_pos hmem, if_pos hdirty]
      rfl
    · rw [if_neg ha]
      have hne : ¬a' = a := fun heq => ha heq.symm
      by_cases hmem : a ∈ o.accessed <;> simp [Outcome.marks, hmem, hdirty, hne]

end TableMemory

/-! ## The checks of the code -/

theorem pageFault_code (address : Address) (access : Access) (c : Controls)
    (present reserved : Bool) (level : Nat) : ∃ error,
    pageFault address access c present reserved level = .page address error level ∧
      IsErrorCode access c present reserved error := by
  refine ⟨_, rfl, fun i => ?_⟩
  obtain ⟨_, user, _, nxEnable⟩ := c
  dsimp only
  rcases Nat.lt_or_ge i 32 with hlt | hge
  · revert i
    cases access <;> cases user <;> cases nxEnable <;> cases present <;> cases reserved <;> decide
  · rw [getLsbD_of_ge _ _ hge]
    simp [show i ≠ 0 by omega, show i ≠ 1 by omega, show i ≠ 2 by omega, show i ≠ 3 by omega,
      show i ≠ 4 by omega]

variable {entry entry' : BitVec 64} {level : Nat} {w : Walked} {a : Address} {m₁ : TableMemory}

/-- Some bit of a mask is set. -/
theorem and_ne_zero_iff {mask : BitVec 64} {low high : Nat}
    (hmask : ∀ i, mask.getLsbD i = decide (low ≤ i ∧ i < high)) :
    entry &&& mask ≠ 0 ↔ ∃ i, low ≤ i ∧ i < high ∧ entry.getLsbD i = true := by
  constructor
  · intro hne
    by_contra hnone
    refine hne (eq_of_getLsbD_eq fun i _ => ?_)
    have hzero : (0 : BitVec 64).getLsbD i = false := getLsbD_zero
    rw [getLsbD_and, hmask, hzero]
    by_cases hi : low ≤ i ∧ i < high
    · rw [decide_eq_true hi, Bool.and_true, Bool.eq_false_iff]
      exact fun hbit => hnone ⟨i, hi.1, hi.2, hbit⟩
    · rw [decide_eq_false hi, Bool.and_false]
  · rintro ⟨i, hlow, hlt, hbit⟩ heq
    have hzero : (entry &&& mask).getLsbD i = false := by
      rw [heq]
      exact getLsbD_zero
    rw [getLsbD_and, hmask, hbit, decide_eq_true ⟨hlow, hlt⟩] at hzero
    cases hzero

theorem reserved_iff :
    (entry &&& addressMask &&& ~~~physicalMask ≠ 0 || (!c.nxEnable && entry.getLsbD 63) ||
        ((decide (1 < level) && entry.getLsbD 7) && decide (level ≠ 2)) ||
        ((decide (1 < level) && entry.getLsbD 7) && decide (entry &&& 0x1FE000 ≠ 0))) = true ↔
      Reserved c level entry := by
  have hhigh : entry &&& addressMask &&& ~~~physicalMask ≠ 0 ↔
      ∃ i, 36 ≤ i ∧ i < 52 ∧ entry.getLsbD i = true := by
    rw [BitVec.and_assoc]
    refine and_ne_zero_iff fun i => ?_
    exact getLsbD_of_all (p := fun i => decide (36 ≤ i ∧ i < 52)) (by decide)
      (fun i hi => decide_eq_false (by omega)) i
  have hlow : entry &&& 0x1FE000 ≠ 0 ↔ ∃ i, 13 ≤ i ∧ i < 21 ∧ entry.getLsbD i = true := by
    refine and_ne_zero_iff fun i => ?_
    exact getLsbD_of_all (p := fun i => decide (13 ≤ i ∧ i < 21)) (by decide)
      (fun i hi => decide_eq_false (by omega)) i
  simp only [Bool.or_eq_true, Bool.and_eq_true, decide_eq_true_eq, Bool.not_eq_true', hhigh, hlow,
    Reserved, or_assoc]
  refine or_congr_right (or_congr_right ⟨?_, ?_⟩)
  · rintro (⟨⟨hlevel, hlarge⟩, hne⟩ | ⟨⟨hlevel, hlarge⟩, hbits⟩)
    · exact .inl ⟨by omega, hlarge⟩
    · by_cases htwo : level = 2
      · exact .inr ⟨htwo, hlarge, hbits⟩
      · exact .inl ⟨by omega, hlarge⟩
  · rintro (⟨hlevel, hlarge⟩ | ⟨rfl, hlarge, hbits⟩)
    · exact .inl ⟨⟨by omega, hlarge⟩, by omega⟩
    · exact .inr ⟨⟨by decide, hlarge⟩, hbits⟩

theorem maps_iff (h : ¬Reserved c level entry) :
    (decide (level = 1) || (decide (1 < level) && entry.getLsbD 7)) = true ↔ Maps level entry := by
  rw [Bool.or_eq_true, Bool.and_eq_true, decide_eq_true_eq, decide_eq_true_eq, Maps]
  refine or_congr_right (and_congr_left fun hlarge => ⟨fun hlt => ?_, by omega⟩)
  by_contra hne
  exact h (.inr (.inr (.inl ⟨by omega, hlarge⟩)))

/-- The address bits of an entry without reserved bits are physical ones. -/
theorem addressMask_eq (h : ¬Reserved c level entry) :
    entry &&& addressMask = entry &&& physicalMask &&& ~~~0xFFF := by
  refine eq_of_getLsbD_eq fun i hi => ?_
  have hlow : (0xFFF : BitVec 64) = BitVec.twoPow 64 12 - 1 := rfl
  rw [getLsbD_and, getLsbD_and, getLsbD_and, getLsbD_not, hlow,
    getLsbD_offset (by decide), getLsbD_addressMask, getLsbD_physicalMask, decide_eq_true hi]
  by_cases hreserved : 36 ≤ i ∧ i < 52
  · have hbit : entry.getLsbD i = false := by
      rw [Bool.eq_false_iff]
      exact fun hbit => h (.inl ⟨i, hreserved.1, hreserved.2, hbit⟩)
    rw [hbit, Bool.false_and, Bool.false_and, Bool.false_and]
  · rw [Bool.and_assoc]
    congr 1
    by_cases h12 : i < 12
    · simp [h12, Nat.not_le.2 h12]
    · simp [h12, Nat.not_lt.1 h12, show i < 52 ↔ i < 36 by omega]

/-- The frame of a page that an entry maps. -/
theorem Same.frame_eq (h : Same entry entry') (hsound : ¬Reserved c level entry) {n : Nat}
    (hn : 12 ≤ n ∧ n < 64) : entry' &&& addressMask &&& ~~~(BitVec.twoPow 64 n - 1) =
      entry &&& physicalMask &&& ~~~(BitVec.twoPow 64 n - 1) := by
  have hoffset (i : Nat) (hi : i < 12) : (BitVec.twoPow 64 n - 1).getLsbD i = true := by
    rw [getLsbD_offset hn.2, decide_eq_true (Nat.lt_of_lt_of_le hi hn.1)]
  rw [addressMask_eq (mt (h.reserved level).1 hsound), ← h.frame hoffset]
  refine eq_of_getLsbD_eq fun i hi => ?_
  have hlow : (0xFFF : BitVec 64) = BitVec.twoPow 64 12 - 1 := rfl
  rw [getLsbD_and, getLsbD_and, getLsbD_not, getLsbD_not, hlow,
    getLsbD_offset (by decide), getLsbD_and (x := entry' &&& physicalMask),
    getLsbD_not, decide_eq_true hi, Bool.true_and, Bool.true_and]
  by_cases hlt : i < 12
  · rw [hoffset i hlt, Bool.not_true, Bool.and_false, Bool.and_false]
  · rw [decide_eq_false hlt, Bool.not_false, Bool.and_true]

/-- What the code has gathered is about the entries of the path. -/
structure Gathers (w : Walked) (c : Controls) (p : Path) : Prop where
  table : w.table = p.table c
  writable : w.writable = p.all (·.2.getLsbD 1)
  user : w.user = p.all (·.2.getLsbD 2)
  executable : w.executable = p.all (!·.2.getLsbD 63)
  witnesses : ∀ i : Fin 4, w.witnesses i = p.addresses[i.val]?.getD 0

theorem Gathers.denied_iff (h : Gathers w c p) : ((c.user && !w.user) ||
      (decide (access = .write) && !w.writable && (c.user || c.writeProtect)) ||
      (decide (access = .execute) && !w.executable)) = true ↔ ¬p.Permits access c := by
  rw [Path.permits_iff, ← h.writable, ← h.user, ← h.executable]
  cases c.user <;> cases c.writeProtect <;> cases w.user <;> cases w.writable <;>
    cases w.executable <;> cases access <;> simp

/-- What is gathered with an entry that is the same as that of the path. -/
theorem Gathers.next (h : Gathers w c p) (hlevel : p.length < 4) (hsame : Same entry entry')
    (hsound : ¬Reserved c p.level entry) (address : Address) : Gathers {
      table := entry' &&& addressMask
      writable := w.writable && entry'.getLsbD 1
      user := w.user && entry'.getLsbD 2
      executable := w.executable && !entry'.getLsbD 63
      witnesses := fun i => if i.val + p.level = 4 then p.next c address else w.witnesses i } c
      (p ++ [(p.next c address, entry)]) := by
  have hreserved := mt (hsame.reserved p.level).1 hsound
  refine ⟨?_, ?_, ?_, ?_, fun i => ?_⟩
  · rw [addressMask_eq hreserved, Path.table, List.getLast?_concat]
    refine hsame.frame fun i hi => ?_
    have hlow : (0xFFF : BitVec 64) = BitVec.twoPow 64 12 - 1 := rfl
    rw [hlow, getLsbD_offset (by decide), decide_eq_true hi]
  · simp only [all_append, all_cons, all_nil, Bool.and_true, h.writable,
      hsame 1 (by decide) (by decide)]
  · simp only [all_append, all_cons, all_nil, Bool.and_true, h.user,
      hsame 2 (by decide) (by decide)]
  · simp only [all_append, all_cons, all_nil, Bool.and_true, h.executable,
      hsame 63 (by decide) (by decide)]
  · dsimp only
    rw [Path.addresses_append, h.witnesses, Path.level]
    have hlength : p.addresses.length = p.length := length_map ..
    rcases Nat.lt_trichotomy i.val p.length with hlt | heq | hgt
    · rw [if_neg (by omega), List.getElem?_append_left (by omega)]
    · rw [if_pos (by omega), List.getElem?_append_right (by omega), heq, hlength, Nat.sub_self]
      rfl
    · rw [if_neg (by omega), List.getElem?_eq_none (by omega), List.getElem?_eq_none]
      rw [length_append, length_singleton]
      omega

/-! ## Walks of the code -/

theorem readEntry_eq (m : TableMemory) (a : Address) (mode : WalkMode) :
    TableMemory.access.readEntry m a mode = (m.visible mode a, m) := rfl

theorem writeEntry_eq (hcell : m.cell a = some entry)
    (value : BitVec 64) : TableMemory.access.writeEntry m a value =
      (true, { m with cell := Function.update m.cell a (some value), writes := m.writes + 1 }) := by
  change (if (m.cell a).isSome = true then _ else _) = _
  rw [hcell]
  rfl

theorem setEntry_false (a : Address) (value : BitVec 64) :
    setEntry TableMemory.access m false a value = (.ok (), m) := rfl

/-- Bits are set where they are not set. -/
theorem setEntry_touch {value : BitVec 64} {need : Bool} (bits : BitVec 64)
    (hcell : m.cell a = some entry) (hneed : need = true ↔ entry &&& bits ≠ bits)
    (hvalue : value = entry ||| bits) :
    setEntry TableMemory.access m need a value = (.ok (), m.touch bits a) := by
  rw [setEntry, TableMemory.touch, hcell]
  dsimp only
  split
  · next hset =>
    rw [if_neg (hneed.1 hset), hvalue, writeEntry_eq hcell]
  · next hset =>
    rw [if_pos (not_not.1 (mt hneed.2 hset))]

theorem and_accessed : entry &&& 0x20 = 0x20 ↔ entry.getLsbD 5 = true :=
  Bits.and_bit_eq_bit (w := 64) (i := 5) (by decide)

theorem and_dirty : (entry ||| 0x20) &&& 0x60 = 0x60 ↔ entry.getLsbD 6 = true := by
  have hbits : (0x60 : BitVec 64) = Bits.bit 64 5 ||| Bits.bit 64 6 := by decide
  have hfive : (entry ||| 0x20).getLsbD 5 = true := by
    rw [getLsbD_or, show (0x20 : BitVec 64).getLsbD 5 = true by decide, Bool.or_true]
  have hsix : (entry ||| 0x20).getLsbD 6 = entry.getLsbD 6 := by
    rw [getLsbD_or, show (0x20 : BitVec 64).getLsbD 6 = false by decide, Bool.or_false]
  rw [hbits, Bits.and_or_eq_or, Bits.and_bit_eq_bit (by decide), Bits.and_bit_eq_bit (by decide),
    hfive, hsix, and_iff_right rfl]

/-- The code marks the leaf of a write as dirty at run time. -/
theorem setEntry_dirty (o : Outcome) (hcell : mode = .runtime → m₁.cell a = some (entry ||| 0x20))
    (hm₁ : m₁ = m.accessed mode o.accessed)
    (hdirty : o.dirty = if access = .write then some a else none) :
    setEntry TableMemory.access m₁ (mode = .runtime && access = .write && !entry.getLsbD 6) a
        (entry ||| 0x60) = (.ok (), m.after mode o) := by
  cases mode with
  | snapshot => rw [hm₁]; rfl
  | runtime =>
    rw [TableMemory.after, hdirty]
    by_cases hwrite : access = .write
    · rw [decide_eq_true rfl, decide_eq_true hwrite, if_pos hwrite, Bool.true_and, Bool.true_and,
        setEntry_touch 0x60 (hcell rfl), hm₁]
      · rfl
      · rw [Bool.not_eq_true', Bool.eq_false_iff]
        exact not_congr and_dirty.symm
      · rw [BitVec.or_assoc]
        rfl
    · rw [decide_eq_false hwrite, if_neg hwrite, Bool.and_false, Bool.false_and, setEntry_false, hm₁]
      rfl

/-- The entry maps a page. -/
theorem walkLeaf_ends {large : Bool} (hw : Gathers w c (p ++ [(p.next c address, entry)]))
    (hlength : p.length < 4) (read : cells (p.next c address) = some entry)
    (present : entry.getLsbD 0 = true) (sound : ¬Reserved c p.level entry)
    (maps : Maps p.level entry) (hsame : Same entry entry')
    (hlarge : large = (decide (1 < p.level) && entry'.getLsbD 7))
    (hcell : mode = .runtime → m₁.cell (p.next c address) = some (entry' ||| 0x20))
    (hm₁ : m₁ = m.accessed mode (p.addresses ++ [p.next c address])) :
    ∃ o, Ends cells address access c p o ∧
      walkLeaf TableMemory.access address access c mode p.level w (p.next c address) entry' large m₁ =
        (o.result, m.after mode o) := by
  rw [walkLeaf]
  by_cases hdenied : Path.Permits (p ++ [(p.next c address, entry)]) access c
  · refine ⟨_, .translated read present sound maps hdenied, ?_⟩
    have hlevel : p.level = 4 - p.length := rfl
    -- the size of the page, by the level and by the bit PS
    have hsize : (if large = true then 21 else 12) =
        if (p ++ [(p.next c address, entry)]).length = 4 then 12 else 21 := by
      have hlarge : large = true ↔ 1 < p.level ∧ entry.getLsbD 7 = true := by
        rw [hlarge, Bool.and_eq_true, decide_eq_true_eq, hsame 7 (by decide) (by decide)]
      rw [length_append, length_singleton]
      obtain hone | ⟨htwo, hbit⟩ := maps
      · rw [if_neg (fun h => by have := (hlarge.1 h).1; omega), if_pos (by omega)]
      · rw [if_pos (hlarge.2 ⟨by omega, hbit⟩), if_neg (by omega)]
    have hset := setEntry_dirty ⟨.ok (Path.translation (p ++ [(p.next c address, entry)]) address
      entry), p.addresses ++ [p.next c address], p.addresses ++ [p.next c address],
      if access = .write then some (p.next c address) else none⟩ hcell hm₁ rfl
    rw [if_neg (mt hw.denied_iff.1 (not_not.2 hdenied)), hset]
    refine Prod.ext (congrArg Except.ok ?_) rfl
    rw [Path.translation, hsize, Translation.mk.injEq]
    refine ⟨?_, rfl, hw.writable, hw.user, hw.executable, hsame 8 (by decide) (by decide),
      funext hw.witnesses, ?_⟩
    · rw [hsame.frame_eq sound]
      split <;> decide
    · rw [length_append, length_singleton]
      omega
  · obtain ⟨error, hfault, code⟩ := pageFault_code address access c true false p.level
    refine ⟨_, .denied read present sound maps hdenied code, ?_⟩
    rw [if_pos (hw.denied_iff.2 hdenied), hfault, hm₁]
    cases mode <;> rfl

theorem accessed_alike (m : TableMemory) (mode : WalkMode) (as : List Address) (a : Address) :
    Alike (m.visible mode a) ((m.accessed mode as).visible mode a) := by
  cases mode with
  | snapshot => rfl
  | runtime =>
    change Alike (m.cell a) ((m.accessed .runtime as).cell a)
    rw [TableMemory.accessed_cell]
    split
    · rw [Alike, Option.map_map]
      congr 1
      funext entry
      rw [comp_apply, BitVec.or_assoc]
      rfl
    · rfl

theorem visible_runtime (h : m.visible mode a = some entry)
    (hmode : mode = .runtime) : m.cell a = some entry := by
  rw [hmode] at h
  exact h

/-- The code marks an entry as accessed at run time. -/
theorem setEntry_accessed (as : List Address)
    (hread : (m.accessed mode as).visible mode a = some entry) :
    setEntry TableMemory.access (m.accessed mode as) (mode = .runtime && !entry.getLsbD 5) a
        (entry ||| 0x20) = (.ok (), m.accessed mode (as ++ [a])) ∧
      (mode = .runtime → (m.accessed mode (as ++ [a])).cell a = some (entry ||| 0x20)) := by
  rw [TableMemory.accessed_append]
  cases mode with
  | snapshot => exact ⟨rfl, nofun⟩
  | runtime =>
    rw [if_pos rfl, decide_eq_true rfl, Bool.true_and]
    have hcell := visible_runtime hread rfl
    refine ⟨setEntry_touch _ hcell ?_ rfl, fun _ => ?_⟩
    · rw [Bool.not_eq_true', Bool.eq_false_iff]
      exact not_congr and_accessed.symm
    · rw [TableMemory.touch_cell, if_pos rfl, hcell, Option.map_some]

/-- The code goes down the path of the contents that it began with. -/
theorem walkFrom_walks (m : TableMemory) (access : Access) (mode : WalkMode)
    (hcanonical : canonical address = true) {p : Path} (hlevel : p.length + level = 4)
    (hpos : 0 < level) (hpath : Descends (m.visible mode) address c p) (hw : Gathers w c p) :
    ∃ o, Walks (m.visible mode) address access c o ∧
      walkFrom TableMemory.access address access c mode level w (m.accessed mode p.addresses) =
        .ok (o.result, m.after mode o) := by
  induction level generalizing p w with
  | zero => cases hpos
  | succ next ih =>
    have hp : p.level = next + 1 := by rw [Path.level]; omega
    have hnext : w.table + ((address >>> (12 + next * 9)) &&& 511) * 8 = p.next c address := by
      rw [Path.next, hw.table, hp, Nat.add_sub_cancel]
    unfold walkFrom
    dsimp only
    rw [hnext]
    rw [readEntry_eq]
    have halike := accessed_alike m mode p.addresses (p.next c address)
    cases hread : m.visible mode (p.next c address) with
    | none =>
      rw [halike.none hread]
      exact ⟨_, .follows hcanonical hpath (.unavailable hread), by cases mode <;> rfl⟩
    | some entry =>
      obtain ⟨entry', hread', hsame⟩ := halike.read hread
      rw [hread']
      dsimp only
      by_cases present : entry.getLsbD 0 = true
      · rw [hsame 0 (by decide) (by decide), present, Bool.not_true, if_neg Bool.false_ne_true]
        by_cases sound : Reserved c p.level entry
        · obtain ⟨error, hfault, code⟩ := pageFault_code address access c true true p.level
          rw [← hp, if_pos (reserved_iff.2 ((hsame.reserved p.level).2 sound)), hfault]
          exact ⟨_, .follows hcanonical hpath (.reserved hread present sound code),
            by cases mode <;> rfl⟩
        · have hreserved := mt (hsame.reserved p.level).1 sound
          obtain ⟨hset, hmarked⟩ := setEntry_accessed p.addresses hread'
          have hgathers := hw.next (by omega) hsame sound address
          rw [← hp, if_neg (mt reserved_iff.1 hreserved), hset]
          dsimp only
          by_cases maps : Maps p.level entry
          · rw [if_pos ((maps_iff hreserved).2 ((hsame.maps p.level).2 maps))]
            obtain ⟨o, ends, hleaf⟩ := walkLeaf_ends hgathers (by omega) hread present sound maps
              hsame rfl hmarked rfl
            exact ⟨o, .follows hcanonical hpath ends, congrArg Except.ok hleaf⟩
          · have hmaps := mt (hsame.maps p.level).1 maps
            rw [if_neg (mt (maps_iff hreserved).1 hmaps)]
            have hnext : 0 < next := by
              by_contra hzero
              exact maps (.inl (by omega))
            have hdescends := Descends.next hpath hread present sound maps
            rw [← Path.addresses_append p (p.next c address, entry)]
            exact ih (by rw [length_append, length_singleton]; omega) hnext hdescends
              hgathers
      · obtain ⟨error, hfault, code⟩ := pageFault_code address access c false false p.level
        rw [Bool.not_eq_true] at present
        rw [hsame 0 (by decide) (by decide), present, Bool.not_false, if_pos rfl, ← hp, hfault]
        exact ⟨_, .follows hcanonical hpath (.notPresent hread present code), by cases mode <;> rfl⟩

theorem walk_walks (m : TableMemory) (address : Address) (access : Access) (c : Controls)
    (mode : WalkMode) : ∃ o, Walks (m.visible mode) address access c o ∧
      walk TableMemory.access m address access c mode = .ok (o.result, m.after mode o) := by
  rw [walk]
  cases hcanonical : canonical address with
  | false => exact ⟨_, .nonCanonical hcanonical, by cases mode <;> rfl⟩
  | true =>
    rw [Bool.not_true, if_neg Bool.false_ne_true]
    have hgathers : Gathers ⟨c.cr3 &&& physicalMask &&& ~~~0xFFF, true, true, true, fun _ => 0⟩ c
        [] := ⟨rfl, rfl, rfl, rfl, fun _ => rfl⟩
    have hstart := walkFrom_walks m access mode hcanonical
      (show ([] : Path).length + 4 = 4 from rfl) (by decide) .root hgathers
    cases mode <;> exact hstart

/-! ## Repeated walks -/

theorem Ends.dirty (h : Ends cells address access c p o) (ha : o.dirty = some a) :
    a ∈ o.accessed := by
  cases h with
  | translated =>
    dsimp only at ha
    split at ha
    · cases ha
      exact mem_append_right _ (mem_singleton_self _)
    · cases ha
  | _ => cases ha

theorem Walks.dirty (h : Walks cells address access c o) (ha : o.dirty = some a) :
    a ∈ o.accessed := by
  cases h with
  | nonCanonical => cases ha
  | follows _ _ ends => exact ends.dirty ha

theorem marks_alike (o : Outcome) (x : Option (BitVec 64)) (a : Address) :
    Alike x (x.map (· ||| o.marks a)) := by
  rw [Alike, Option.map_map]
  congr 1
  funext entry
  rw [comp_apply, BitVec.or_assoc]
  congr 1
  rw [Outcome.marks]
  split <;> split <;> rfl

/-- The marks of a walk are there when it is repeated. -/
theorem after_after (m : TableMemory) (h : ∀ a, o.dirty = some a → a ∈ o.accessed) :
    (m.after .runtime o).after .runtime o = m.after .runtime o := by
  have hcell := TableMemory.after_cell m h
  generalize m.after .runtime o = m' at hcell
  -- an entry with marks has the bits of the marks
  have hset {a : Address} {bits entry : BitVec 64} (hbits : bits &&& o.marks a = bits)
      (hentry : m'.cell a = some entry) : entry &&& bits = bits := by
    rw [hcell] at hentry
    obtain ⟨entry₀, -, rfl⟩ := Option.map_eq_some_iff.1 hentry
    rw [← hbits]
    refine eq_of_getLsbD_eq fun i _ => ?_
    rw [getLsbD_and, getLsbD_or, getLsbD_and]
    cases (o.marks a).getLsbD i <;> simp
  have haccessed : ∀ as, (∀ a ∈ as, a ∈ o.accessed) → m'.accessed .runtime as = m' := by
    intro as
    induction as with
    | nil => exact fun _ => rfl
    | cons a as ih =>
      intro has
      have htouch : m'.touch 0x20 a = m' := by
        refine TableMemory.touch_of_set fun entry hentry => hset ?_ hentry
        rw [Outcome.marks, if_pos (has a mem_cons_self)]
        split <;> rfl
      change (m'.touch 0x20 a).accessed .runtime as = m'
      rw [htouch]
      exact ih fun a' ha' => has a' (mem_cons_of_mem _ ha')
  rw [TableMemory.after, haccessed _ fun _ ha => ha]
  cases hdirty : o.dirty with
  | none => rfl
  | some a =>
    refine TableMemory.touch_of_set fun entry hentry => hset ?_ hentry
    rw [Outcome.marks, if_pos (h a hdirty), if_pos hdirty]
    rfl

/-- A walk gives what the architecture says. At run time it marks the entries of the path that it
got past as accessed, and the leaf of a write as dirty, and a repetition has nothing left to write.
A walk for the compiler writes nothing, and it gives the same unless it may not read an entry. -/
theorem walk_architectural (m : TableMemory) (address : Address) (access : Access) (c : Controls) :
    ∃ o, Walks m.cell address access c o ∧ (∀ o', Walks m.cell address access c o' → o' = o) ∧
      (∃ m', walk TableMemory.access m address access c .runtime = .ok (o.result, m') ∧
        (∀ a, m'.cell a = (m.cell a).map (· ||| o.marks a)) ∧
        walk TableMemory.access m' address access c .runtime = .ok (o.result, m')) ∧
      ∃ o', Walks (m.visible .snapshot) address access c o' ∧
        walk TableMemory.access m address access c .snapshot = .ok (o'.result, m) ∧
        ((∀ a ∈ o.seen, m.visible .snapshot a = m.cell a) → o' = o) := by
  obtain ⟨o, hwalks, hwalk⟩ := walk_walks m address access c .runtime
  change Walks m.cell address access c o at hwalks
  obtain ⟨o', hwalks', hwalk'⟩ := walk_walks m address access c .snapshot
  have hmarks := TableMemory.after_cell m fun a => hwalks.dirty (a := a)
  refine ⟨o, hwalks, fun o₂ h₂ => h₂.unique hwalks, ⟨_, hwalk, hmarks, ?_⟩, o', hwalks', hwalk',
    fun hseen => ?_⟩
  · obtain ⟨o₂, hwalks₂, hwalk₂⟩ := walk_walks (m.after .runtime o) address access c .runtime
    have hagain : Walks (m.after .runtime o).cell address access c o :=
      hwalks.alike fun a _ => by
        rw [hmarks]
        exact marks_alike o (m.cell a) a
    obtain rfl := hagain.unique hwalks₂
    rw [hwalk₂, after_after m fun a => hwalks.dirty (a := a)]
  · have hsnapshot : Walks (m.visible .snapshot) address access c o :=
      hwalks.alike fun a ha => by
        rw [hseen a ha]
        rfl
    exact hwalks'.unique hsnapshot

/-- Four tables map the page at 0, and the first one is in the memory of a device. -/
def deviceTables : TableMemory where
  cell a :=
    if a = 0x1000 then some 0x2003
    else if a = 0x2000 then some 0x3003
    else if a = 0x3000 then some 0x4003
    else if a = 0x4000 then some 0x5003
    else none
  peekable a := a ≠ 0x1000
  writes := 0

/-- A walk for the compiler does not give what a walk at run time gives. -/
theorem snapshot_not_runtime :
    ¬∀ (m : TableMemory) (address : Address) (access : Access) (c : Controls)
      (r r' : Except WalkFault Translation) (m₁ m₂ : TableMemory),
      walk TableMemory.access m address access c .runtime = .ok (r, m₁) →
      walk TableMemory.access m address access c .snapshot = .ok (r', m₂) → r' = r := by
  intro h
  obtain ⟨_, -, hruntime⟩ := walk_walks deviceTables 0 .read ⟨0x1000, false, true, true⟩ .runtime
  obtain ⟨_, -, hsnapshot⟩ := walk_walks deviceTables 0 .read ⟨0x1000, false, true, true⟩ .snapshot
  have heq := h _ _ _ _ _ _ _ _ hruntime hsnapshot
  have hok : (walk TableMemory.access deviceTables 0 .read ⟨0x1000, false, true, true⟩
      .runtime).toOption.map (·.1.toBool) = some true := by decide +kernel
  have herror : (walk TableMemory.access deviceTables 0 .read ⟨0x1000, false, true, true⟩
      .snapshot).toOption.map (·.1.toBool) = some false := by decide +kernel
  rw [hruntime] at hok
  rw [hsnapshot, heq] at herror
  cases hok.symm.trans herror

end V86.X64
