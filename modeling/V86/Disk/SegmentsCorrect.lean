import V86.Disk.Segments

/-!
# Scatter-gather is a flat transfer

Both walks return the segments of the range that is asked for, or throw; and they throw exactly when
the table does not cover the range, or an entry or a byte of the range is not valid memory
(`ide_flat`, `ahci_flat`). So a transfer in parts moves the same bytes (`ahci_concatenates`). The
command list and the received FISes of a port are at the addresses that the guest has programmed
only below 2 GiB: above, the registers are negative numbers (`list_at_minus`).
-/

namespace V86.Disk

open Scatter

/-! ## Valid memory -/

/-- An address of a mapped byte below a limit. -/
def Memory.Ok (mem : Memory) (limit : Nat) (x : Int) : Prop :=
  0 ≤ x ∧ x < limit ∧ mem.mapped x.toNat = true

/-- A range of memory that is valid below a limit. -/
def Memory.Valid (mem : Memory) (limit : Nat) (address : Int) (length : Nat) : Prop :=
  ∀ i < length, mem.Ok limit (address + (i : Nat))

section
variable {mem : Memory} {limit : Nat} {address : Int} {length : Nat}

theorem validatePages_ok (mem : Memory) (at_ last : Nat) :
    mem.validatePages at_ last = .ok () ↔ ∀ p, at_ ≤ p → p < last → mem.mapped p = true := by
  induction h : last - at_ using Nat.strongRecOn generalizing at_ with
  | ind n ih =>
    rw [Memory.validatePages]
    split
    · next hlt =>
      have hnext : at_ < min last ((at_ / 4096 + 1) * 4096) := by omega
      dsimp only
      by_cases hends : mem.mapped at_ = true ∧
          mem.mapped (min last ((at_ / 4096 + 1) * 4096) - 1) = true
      · rw [if_neg (by rw [hends.1, hends.2]; decide),
          ih _ (by omega) (min last ((at_ / 4096 + 1) * 4096)) rfl]
        refine ⟨fun hrest p hle hp => ?_, fun hall p hle hp => hall p (by omega) hp⟩
        -- the ends of a page are checked, and what is between them is mapped if they are
        by_cases hpage : p < min last ((at_ / 4096 + 1) * 4096)
        · exact mem.convex hle (by omega) (by omega) hends.1 hends.2
        · exact hrest p (by omega) hp
      · rw [if_pos (by
          rw [Bool.or_eq_true, Bool.not_eq_true', Bool.not_eq_true', ← Bool.not_eq_true,
            ← Bool.not_eq_true, ← not_and_or]
          exact hends)]
        refine ⟨nofun, fun hall => absurd ⟨hall at_ (Nat.le_refl _) hlt, ?_⟩ hends⟩
        exact hall _ (by omega) (by omega)
    · next hlt => exact ⟨fun _ p _ _ => by omega, fun _ => rfl⟩

theorem validatePhysicalRange_ok (hpos : 0 < length) :
    mem.validatePhysicalRange address length = .ok () ↔ mem.Valid busLimit address length := by
  rw [Memory.validatePhysicalRange]
  split
  · next hout =>
    refine ⟨nofun, fun hvalid => ?_⟩
    obtain ⟨hfirst, -⟩ := hvalid 0 hpos
    obtain ⟨-, hlast, -⟩ := hvalid (length - 1) (by omega)
    omega
  · next hin =>
    rw [validatePages_ok]
    constructor
    · intro hall i hi
      refine ⟨by omega, by omega, hall _ (by omega) (by omega)⟩
    · intro hvalid p hle hp
      obtain ⟨-, -, hmapped⟩ := hvalid (p - address.toNat) (by omega)
      rw [← hmapped]
      congr 1
      omega

/-- A range that ends below a limit. -/
theorem valid_limit (hpos : 0 < length) (hlimit : limit ≤ busLimit) :
    mem.Valid limit address length ↔ address + length ≤ limit ∧ mem.Valid busLimit address length := by
  constructor
  · intro hvalid
    obtain ⟨-, hlast, -⟩ := hvalid (length - 1) (by omega)
    refine ⟨by omega, fun i hi => ?_⟩
    obtain ⟨h0, hlt, hmapped⟩ := hvalid i hi
    exact ⟨h0, by omega, hmapped⟩
  · rintro ⟨hle, hvalid⟩ i hi
    obtain ⟨h0, -, hmapped⟩ := hvalid i hi
    exact ⟨h0, by omega, hmapped⟩

end

/-- A computation returns something good, or it throws in a bad case. -/
def Outcome {α : Type} (result : Except String α) (good : α → Prop) (bad : Prop) : Prop :=
  match result with
  | .ok a => good a
  | .error _ => bad

theorem Outcome.map {α β : Type} {result : Except String α} {f : α → β} {good : α → Prop}
    {good' : β → Prop} {bad bad' : Prop} (h : Outcome result good bad)
    (hgood : ∀ a, good a → good' (f a)) (hbad : bad → bad') :
    Outcome (result.map f) good' bad' := by
  cases result with
  | error e => exact hbad h
  | ok a => exact hgood a h

/-! ## Bus-master IDE -/

section
variable {mem : Memory} {byteCount table offset : Nat}

/-- The limit of the addresses of bus-master IDE. -/
def ideLimit : Nat := 0x100000000

/-- The entry at an address serves its part of a transfer of so many bytes. -/
structure Serves (mem : Memory) (byteCount table offset : Nat) : Prop where
  entry : mem.Valid ideLimit table 8
  data : mem.Valid ideLimit (prdEntry mem table).address
    (min (prdEntry mem table).count (byteCount - offset))
  last : prdEnd mem table = true →
    byteCount ≤ offset + min (prdEntry mem table).count (byteCount - offset)

/-- An entry that serves gives a segment; the rest is up to the entries after it. -/
theorem ideSegments_of_serves (hlt : offset < byteCount) (h : Serves mem byteCount table offset) :
    ideSegments mem byteCount table offset = (ideSegments mem byteCount (table + 8)
        (offset + min (prdEntry mem table).count (byteCount - offset))).map
          (⟨(prdEntry mem table).address, offset,
            min (prdEntry mem table).count (byteCount - offset)⟩ :: ·) := by
  have hpos : 0 < min (prdEntry mem table).count (byteCount - offset) :=
    Nat.lt_min.2 ⟨(prdEntry mem table).pos, by omega⟩
  obtain ⟨hentry, hentryValid⟩ := (valid_limit (by decide) (by decide)).1 h.entry
  obtain ⟨hdata, hdataValid⟩ := (valid_limit hpos (by decide)).1 h.data
  rw [ideLimit] at hentry hdata
  have hlast : ¬(prdEnd mem table = true ∧
      offset + min (prdEntry mem table).count (byteCount - offset) < byteCount) :=
    fun hand => absurd hand.2 (Nat.not_lt.2 (h.last hand.1))
  rw [ideSegments, if_pos hlt, if_neg (by omega), (validatePhysicalRange_ok (by decide)).2 hentryValid]
  dsimp only [bind, Except.bind, pure, Except.pure]
  rw [if_neg (by omega), (validatePhysicalRange_ok hpos).2 hdataValid]
  dsimp only
  rw [if_neg hlast]
  cases ideSegments mem byteCount (table + 8) _ <;> rfl

/-- A walk that returns has found that its first entry serves. -/
theorem serves_of_ideSegments (hlt : offset < byteCount) {segments : List Segment}
    (h : ideSegments mem byteCount table offset = .ok segments) :
    Serves mem byteCount table offset := by
  have hpos : 0 < min (prdEntry mem table).count (byteCount - offset) :=
    Nat.lt_min.2 ⟨(prdEntry mem table).pos, by omega⟩
  rw [ideSegments, if_pos hlt] at h
  by_cases htable : 0x100000000 < table + 8
  · rw [if_pos htable] at h
    cases h
  rw [if_neg htable] at h
  cases hentry : mem.validatePhysicalRange table 8 with
  | error e =>
    rw [hentry] at h
    cases h
  | ok _ =>
    rw [hentry] at h
    dsimp only [bind, Except.bind, pure, Except.pure] at h
    by_cases haddress : 0x100000000 < (prdEntry mem table).address +
        (min (prdEntry mem table).count (byteCount - offset) : Nat)
    · rw [if_pos haddress] at h
      cases h
    rw [if_neg haddress] at h
    cases hdata : mem.validatePhysicalRange (prdEntry mem table).address
        (min (prdEntry mem table).count (byteCount - offset)) with
    | error e =>
      rw [hdata] at h
      cases h
    | ok _ =>
      rw [hdata] at h
      dsimp only at h
      by_cases hlast : prdEnd mem table = true ∧
          offset + min (prdEntry mem table).count (byteCount - offset) < byteCount
      · rw [if_pos hlast] at h
        cases h
      refine ⟨(valid_limit (by decide) (by decide)).2 ⟨?_, ?_⟩,
        (valid_limit hpos (by decide)).2 ⟨?_, ?_⟩, fun hend => ?_⟩
      · rw [ideLimit]
        omega
      · exact (validatePhysicalRange_ok (by decide)).1 hentry
      · rw [ideLimit]
        omega
      · exact (validatePhysicalRange_ok hpos).1 hdata
      · exact Nat.le_of_not_lt fun hlt' => hlast ⟨hend, hlt'⟩

end

section
variable {mem : Memory} {prdtAddr : BitVec 32} {byteCount : Nat}

/-- The table that the address register points to. -/
def ideTable (mem : Memory) (prdtAddr : BitVec 32) (k : Nat) : Entry :=
  prdEntry mem (prdtAddr.toNat + 8 * k)

/-- The table covers a transfer: the entries that it needs are valid memory and are not marked as
the last one too early, and so is every byte of it. -/
structure IdeCovers (mem : Memory) (prdtAddr : BitVec 32) (byteCount : Nat) : Prop where
  entries : ∀ k, start (ideTable mem prdtAddr) k < byteCount →
    mem.Valid ideLimit ((prdtAddr.toNat + 8 * k : Nat) : Int) 8
  last : ∀ k, start (ideTable mem prdtAddr) k < byteCount →
    prdEnd mem (prdtAddr.toNat + 8 * k) = true → byteCount ≤ start (ideTable mem prdtAddr) (k + 1)
  data : ∀ p < byteCount, mem.Ok ideLimit (address (ideTable mem prdtAddr) p)

/-- The entries from one on serve their parts. -/
def ServesFrom (mem : Memory) (prdtAddr : BitVec 32) (byteCount k : Nat) : Prop :=
  ∀ j, k ≤ j → start (ideTable mem prdtAddr) j < byteCount →
    Serves mem byteCount (prdtAddr.toNat + 8 * j) (start (ideTable mem prdtAddr) j)

theorem ideCovers_iff : IdeCovers mem prdtAddr byteCount ↔ ServesFrom mem prdtAddr byteCount 0 := by
  have hsucc (k : Nat) : start (ideTable mem prdtAddr) (k + 1) =
      start (ideTable mem prdtAddr) k + (prdEntry mem (prdtAddr.toNat + 8 * k)).count := rfl
  constructor
  · intro h k _ hlt
    refine ⟨h.entries k hlt, fun i hi => ?_, fun hend => ?_⟩
    · have hok := h.data (start (ideTable mem prdtAddr) k + i) (by omega)
      have hsucc := hsucc k
      rw [address_eq (k := k) (by omega) (by omega)] at hok
      have haddress : (prdEntry mem (prdtAddr.toNat + 8 * k)).address + (i : Int) =
          (ideTable mem prdtAddr k).address +
            (((start (ideTable mem prdtAddr) k + i : Nat) : Int) -
              start (ideTable mem prdtAddr) k) := by
        rw [ideTable]
        push_cast
        ring
      rw [haddress]
      exact hok
    · have hle := h.last k hlt hend
      rw [hsucc] at hle
      omega
  · intro h
    refine ⟨fun k hlt => (h k (Nat.zero_le k) hlt).entry, fun k hlt hend => ?_, fun p hp => ?_⟩
    · have hle := (h k (Nat.zero_le k) hlt).last hend
      rw [hsucc]
      omega
    · have hle := @start_index_le (ideTable mem prdtAddr) p
      have hlt := @lt_start_index (ideTable mem prdtAddr) p
      rw [hsucc] at hlt
      have hok := (h (index (ideTable mem prdtAddr) p) (Nat.zero_le _) (by omega)).data
        (p - start (ideTable mem prdtAddr) (index (ideTable mem prdtAddr) p)) (by omega)
      rw [Int.ofNat_sub hle] at hok
      exact hok

/-- What the walk from an entry on returns, and when it throws. -/
theorem ideSegments_from (k : Nat) : Outcome (ideSegments mem byteCount (prdtAddr.toNat + 8 * k)
        (min (start (ideTable mem prdtAddr) k) byteCount)) (fun segments =>
        Tiles (min (start (ideTable mem prdtAddr) k) byteCount) segments byteCount ∧
          (∀ s ∈ segments, Inside (ideTable mem prdtAddr) 0 s) ∧
            ServesFrom mem prdtAddr byteCount k) (¬ServesFrom mem prdtAddr byteCount k) := by
  induction h : byteCount - min (start (ideTable mem prdtAddr) k) byteCount
    using Nat.strongRecOn generalizing k with
  | ind n ih =>
    by_cases hlt : start (ideTable mem prdtAddr) k < byteCount
    · have hsucc : start (ideTable mem prdtAddr) (k + 1) = start (ideTable mem prdtAddr) k +
          (prdEntry mem (prdtAddr.toNat + 8 * k)).count := rfl
      have hpos := (prdEntry mem (prdtAddr.toNat + 8 * k)).pos
      rw [Nat.min_eq_left (Nat.le_of_lt hlt)] at h ⊢
      by_cases hserves : Serves mem byteCount (prdtAddr.toNat + 8 * k)
          (start (ideTable mem prdtAddr) k)
      · have hnext : start (ideTable mem prdtAddr) k +
            min (prdEntry mem (prdtAddr.toNat + 8 * k)).count
              (byteCount - start (ideTable mem prdtAddr) k) =
            min (start (ideTable mem prdtAddr) (k + 1)) byteCount := by omega
        have hfrom : ServesFrom mem prdtAddr byteCount k ↔
            ServesFrom mem prdtAddr byteCount (k + 1) := by
          refine ⟨fun hall j hj => hall j (by omega), fun hall j hj hlt => ?_⟩
          rcases Nat.eq_or_lt_of_le hj with rfl | hj
          · exact hserves
          · exact hall j hj hlt
        rw [ideSegments_of_serves hlt hserves, hnext, Nat.add_assoc]
        refine (ih _ (by omega) (k + 1) rfl).map ?_ fun hnot hall => hnot (hfrom.1 hall)
        rintro segments ⟨htiles, hinside, hall⟩
        refine ⟨⟨rfl, by dsimp only; omega, ?_⟩, ?_, hfrom.2 hall⟩
        · rw [hnext]
          exact htiles
        · intro s hs
          rcases List.mem_cons.1 hs with rfl | hs
          · refine ⟨k, by dsimp only; omega, by dsimp only; omega, ?_⟩
            dsimp only
            rw [Nat.zero_add, Int.sub_self, Int.add_zero]
            rfl
          · exact hinside s hs
      · cases hwalk : ideSegments mem byteCount (prdtAddr.toNat + 8 * k)
            (start (ideTable mem prdtAddr) k) with
        | error e => exact fun hall => hserves (hall k (Nat.le_refl k) hlt)
        | ok segments => exact absurd (serves_of_ideSegments hlt hwalk) hserves
    · have hge := Nat.le_of_not_lt hlt
      rw [Nat.min_eq_right hge, ideSegments, if_neg (Nat.lt_irrefl _)]
      refine ⟨rfl, nofun, fun j hj hlt' => ?_⟩
      have hmono := (start_strictMono (ideTable mem prdtAddr)).monotone hj
      omega

variable (mem prdtAddr byteCount) in
/-- The segments of bus-master IDE are those of the whole transfer, or nothing is transferred. -/
def IdeFlat : Prop :=
  Outcome (ideDmaSegments mem prdtAddr byteCount)
    (fun segments => Transfer (ideTable mem prdtAddr) 0 byteCount segments ∧
      IdeCovers mem prdtAddr byteCount)
    (¬IdeCovers mem prdtAddr byteCount)

theorem ide_flat : IdeFlat mem prdtAddr byteCount := by
  have h := @ideSegments_from mem prdtAddr byteCount 0
  rw [start, Nat.zero_min, ← ideCovers_iff] at h
  rw [IdeFlat, ideDmaSegments]
  cases hwalk : ideSegments mem byteCount prdtAddr.toNat 0 with
  | error e =>
    rw [Nat.mul_zero, Nat.add_zero, hwalk] at h
    exact h
  | ok segments =>
    rw [Nat.mul_zero, Nat.add_zero, hwalk] at h
    exact ⟨⟨h.1, h.2.1⟩, h.2.2⟩

end

/-! ## AHCI -/

/-- The entries of a command's table, with addresses that are not signed. -/
def prdtTable (mem : Memory) (s64a : Bool) (command : Command) (k : Nat) : Entry where
  address :=
    (BitVec.ofNat 32 (mem.read (command.entry k).toNat 4) &&& ~~~1#32).toNat +
      if s64a then
        (BitVec.ofNat 32 (mem.read ((command.entry k).toNat + 4) 4)).toNat * 0x100000000
      else 0
  count := prdtCount mem (command.entry k).toNat
  pos := Nat.succ_pos _

section
variable {mem : Memory} {s64a : Bool} {command : Command} {offset length last : Nat}

variable (mem s64a command) in
/-- The addresses of a table that the numbers of the source can hold. -/
def Exact : Prop := ∀ k < command.prdtl, (prdtTable mem s64a command k).address < 2 ^ 53

theorem Exact.prdtAddress_eq (h : Exact mem s64a command) {k : Nat} (hk : k < command.prdtl) :
    prdtAddress mem s64a (command.entry k).toNat = (prdtTable mem s64a command k).address := by
  have hlt := h k hk
  rw [prdtTable] at hlt ⊢
  rw [prdtAddress]
  dsimp only at hlt ⊢
  congr 1
  cases s64a with
  | false => rfl
  | true =>
    rw [if_pos rfl] at hlt ⊢
    rw [if_pos rfl, BitVec.toInt_eq_toNat_of_lt (by omega), Int.natCast_mul]
    rfl

variable (mem s64a command offset last) in
/-- An entry serves its part of a range. -/
structure PrdtServes (k : Nat) : Prop where
  entry : mem.Valid busLimit (command.entry k) 16
  data : max (start (prdtTable mem s64a command) k) offset <
      min (start (prdtTable mem s64a command) (k + 1)) last →
    mem.Valid busLimit ((prdtTable mem s64a command k).address +
        ((max (start (prdtTable mem s64a command) k) offset : Nat) -
          (start (prdtTable mem s64a command) k : Int)))
      (min (start (prdtTable mem s64a command) (k + 1)) last -
        max (start (prdtTable mem s64a command) k) offset)

variable (mem s64a command offset last) in
/-- The segment of an entry in a range, if it has one. -/
def prdtPart (k : Nat) : List Segment :=
  if max (start (prdtTable mem s64a command) k) offset <
      min (start (prdtTable mem s64a command) (k + 1)) last then
    [⟨(prdtTable mem s64a command k).address +
        ((max (start (prdtTable mem s64a command) k) offset : Nat) -
          (start (prdtTable mem s64a command) k : Int)),
      max (start (prdtTable mem s64a command) k) offset - offset,
      min (start (prdtTable mem s64a command) (k + 1)) last -
        max (start (prdtTable mem s64a command) k) offset⟩]
  else []

attribute [local simp] prdtWalk

/-- An entry that serves gives its segment; the rest is up to the entries after it. -/
theorem prdtWalk_of_serves (h : Exact mem s64a command) {k : Nat} (hk : k < command.prdtl)
    (hlt : start (prdtTable mem s64a command) k < last)
    (hserves : PrdtServes mem s64a command offset last k) (left : Nat) :
    prdtWalk mem s64a command offset last (left + 1) k (start (prdtTable mem s64a command) k) =
      (prdtWalk mem s64a command offset last left (k + 1)
        (start (prdtTable mem s64a command) (k + 1))).map fun r =>
          (prdtPart mem s64a command offset last k ++ r.1, r.2) := by
  have hsucc : start (prdtTable mem s64a command) k + prdtCount mem (command.entry k).toNat =
      start (prdtTable mem s64a command) (k + 1) := rfl
  rw [prdtWalk, if_pos hlt]
  dsimp only
  rw [(validatePhysicalRange_ok (by decide)).2 hserves.entry]
  dsimp only [bind, Except.bind, pure, Except.pure]
  rw [hsucc, h.prdtAddress_eq hk]
  by_cases hpart : max (start (prdtTable mem s64a command) k) offset <
      min (start (prdtTable mem s64a command) (k + 1)) last
  · rw [if_pos hpart, prdtPart, if_pos hpart,
      (validatePhysicalRange_ok (Nat.sub_pos_of_lt hpart)).2 (hserves.data hpart)]
    dsimp only
    cases prdtWalk mem s64a command offset last left (k + 1) _ <;> rfl
  · rw [if_neg hpart, prdtPart, if_neg hpart]
    cases prdtWalk mem s64a command offset last left (k + 1) _ <;> rfl

/-- A walk that returns has found that its first entry serves. -/
theorem serves_of_prdtWalk (h : Exact mem s64a command) {k : Nat} (hk : k < command.prdtl)
    (hlt : start (prdtTable mem s64a command) k < last) {left : Nat} {r : List Segment × Nat}
    (hwalk : prdtWalk mem s64a command offset last (left + 1) k
      (start (prdtTable mem s64a command) k) = .ok r) :
    PrdtServes mem s64a command offset last k := by
  have hsucc : start (prdtTable mem s64a command) k + prdtCount mem (command.entry k).toNat =
      start (prdtTable mem s64a command) (k + 1) := rfl
  rw [prdtWalk, if_pos hlt] at hwalk
  dsimp only at hwalk
  cases hentry : mem.validatePhysicalRange (command.entry k) 16 with
  | error e =>
    rw [hentry] at hwalk
    cases hwalk
  | ok _ =>
    rw [hentry] at hwalk
    dsimp only [bind, Except.bind, pure, Except.pure] at hwalk
    rw [hsucc, h.prdtAddress_eq hk] at hwalk
    refine ⟨(validatePhysicalRange_ok (by decide)).1 hentry, fun hpart => ?_⟩
    rw [if_pos hpart] at hwalk
    refine (validatePhysicalRange_ok (Nat.sub_pos_of_lt hpart)).1 ?_
    generalize hdata : mem.validatePhysicalRange _ _ = data at hwalk ⊢
    cases data with
    | error e => cases hwalk
    | ok _ => rfl

variable (mem s64a command offset last) in
/-- The entries from one on serve their parts. -/
def PrdtServesFrom (k : Nat) : Prop :=
  ∀ j, k ≤ j → j < command.prdtl → start (prdtTable mem s64a command) j < last →
    PrdtServes mem s64a command offset last j

/-- A position, as an offset in the range. -/
def within (offset last position : Nat) : Nat := min (max position offset) last - offset

/-- A segment of an entry in front of those from the next entry on. -/
theorem tiles_prdtPart (hle : offset ≤ last) {k : Nat}
    (hlt : start (prdtTable mem s64a command) k < last) {segments : List Segment} {final : Nat}
    (h : Tiles (within offset last (start (prdtTable mem s64a command) (k + 1))) segments final) :
    Tiles (within offset last (start (prdtTable mem s64a command) k))
      (prdtPart mem s64a command offset last k ++ segments) final := by
  have hsucc := start_lt_succ (prdtTable mem s64a command) k
  rw [prdtPart]
  rw [within] at h ⊢
  split
  · next hpart =>
    refine ⟨by dsimp only; omega, by dsimp only; omega, ?_⟩
    dsimp only
    have hnext : min (max (start (prdtTable mem s64a command) k) offset) last - offset +
        (min (start (prdtTable mem s64a command) (k + 1)) last -
          max (start (prdtTable mem s64a command) k) offset) =
        min (max (start (prdtTable mem s64a command) (k + 1)) offset) last - offset := by omega
    rw [hnext]
    exact h
  · next hpart =>
    have hnext : min (max (start (prdtTable mem s64a command) k) offset) last - offset =
        min (max (start (prdtTable mem s64a command) (k + 1)) offset) last - offset := by omega
    rw [hnext]
    exact h

theorem inside_prdtPart {k : Nat} {s : Segment} (hs : s ∈ prdtPart mem s64a command offset last k) :
    Inside (prdtTable mem s64a command) offset s := by
  rw [prdtPart] at hs
  split at hs
  · next hpart =>
    rw [List.mem_singleton.1 hs]
    refine ⟨k, by dsimp only; omega, by dsimp only; omega, ?_⟩
    dsimp only
    have hoffset : offset + (max (start (prdtTable mem s64a command) k) offset - offset) =
        max (start (prdtTable mem s64a command) k) offset := by omega
    rw [hoffset]
  · cases hs

/-- What the walk from an entry on returns, and when it throws. -/
theorem prdtWalk_from (h : Exact mem s64a command) (hle : offset ≤ last) (left k : Nat)
    (hk : k + left = command.prdtl) :
    Outcome (prdtWalk mem s64a command offset last left k (start (prdtTable mem s64a command) k))
      (fun r => Tiles (within offset last (start (prdtTable mem s64a command) k)) r.1
          (within offset last r.2) ∧ (∀ s ∈ r.1, Inside (prdtTable mem s64a command) offset s) ∧
        (last ≤ r.2 ↔ last ≤ start (prdtTable mem s64a command) command.prdtl) ∧
        PrdtServesFrom mem s64a command offset last k)
      (¬PrdtServesFrom mem s64a command offset last k) := by
  have hmono := (start_strictMono (prdtTable mem s64a command)).monotone
  induction left generalizing k with
  | zero =>
    rw [prdtWalk, ← hk]
    exact ⟨rfl, nofun, Iff.rfl, fun j hj hj' => by omega⟩
  | succ left ih =>
    by_cases hlt : start (prdtTable mem s64a command) k < last
    · by_cases hserves : PrdtServes mem s64a command offset last k
      · have hfrom : PrdtServesFrom mem s64a command offset last k ↔
            PrdtServesFrom mem s64a command offset last (k + 1) := by
          refine ⟨fun hall j hj => hall j (by omega), fun hall j hj => ?_⟩
          rcases Nat.eq_or_lt_of_le hj with rfl | hj
          · exact fun _ _ => hserves
          · exact hall j hj
        rw [prdtWalk_of_serves h (by omega) hlt hserves]
        refine (ih (k + 1) (by omega)).map ?_ fun hnot hall => hnot (hfrom.1 hall)
        rintro ⟨segments, position⟩ ⟨htiles, hinside, hlast, hall⟩
        refine ⟨tiles_prdtPart hle hlt htiles, fun s hs => ?_, hlast, hfrom.2 hall⟩
        rcases List.mem_append.1 hs with hs | hs
        · exact inside_prdtPart hs
        · exact hinside s hs
      · cases hwalk : prdtWalk mem s64a command offset last (left + 1) k
            (start (prdtTable mem s64a command) k) with
        | error e => exact fun hall => hserves (hall k (Nat.le_refl k) (by omega) hlt)
        | ok r => exact absurd (serves_of_prdtWalk h (by omega) hlt hwalk) hserves
    · have hge := Nat.le_of_not_lt hlt
      rw [prdtWalk, if_neg hlt]
      refine ⟨rfl, nofun, ⟨fun _ => ?_, fun _ => hge⟩, fun j hj _ hlt' => ?_⟩
      · exact Nat.le_trans hge (hmono (by omega))
      · have hle := hmono hj
        omega

variable (mem s64a command offset last) in
/-- A command's table covers a range: it has an entry for each of its bytes, the entries are valid
memory, and so is every byte. -/
structure PrdtCovers : Prop where
  long : last ≤ start (prdtTable mem s64a command) command.prdtl
  entries : ∀ k < command.prdtl, start (prdtTable mem s64a command) k < last →
    mem.Valid busLimit (command.entry k) 16
  data : ∀ p, offset ≤ p → p < last →
    mem.Ok busLimit (address (prdtTable mem s64a command) p)

theorem prdtCovers_iff : PrdtCovers mem s64a command offset last ↔
    last ≤ start (prdtTable mem s64a command) command.prdtl ∧
      PrdtServesFrom mem s64a command offset last 0 := by
  have hmono := (start_strictMono (prdtTable mem s64a command)).monotone
  constructor
  · intro h
    refine ⟨h.long, fun k _ hk hlt => ⟨h.entries k hk hlt, fun hpart i hi => ?_⟩⟩
    have hok := h.data (max (start (prdtTable mem s64a command) k) offset + i) (by omega) (by omega)
    rw [address_eq (k := k) (by omega) (by omega)] at hok
    have haddress : (prdtTable mem s64a command k).address +
        ((max (start (prdtTable mem s64a command) k) offset : Nat) -
          (start (prdtTable mem s64a command) k : Int)) + (i : Nat) =
        (prdtTable mem s64a command k).address +
          (((max (start (prdtTable mem s64a command) k) offset + i : Nat) : Int) -
            start (prdtTable mem s64a command) k) := by
      push_cast
      ring
    rw [haddress]
    exact hok
  · rintro ⟨hlong, hserves⟩
    refine ⟨hlong, fun k hk hlt => (hserves k (Nat.zero_le k) hk hlt).entry, fun p hle hp => ?_⟩
    have hstart := @start_index_le (prdtTable mem s64a command) p
    have hnext := @lt_start_index (prdtTable mem s64a command) p
    have hindex : index (prdtTable mem s64a command) p < command.prdtl := by
      refine Nat.lt_of_not_le fun hge => ?_
      have hle := hmono hge
      omega
    have hok := (hserves (index (prdtTable mem s64a command) p) (Nat.zero_le _) hindex
      (by omega)).data (by omega)
        (p - max (start (prdtTable mem s64a command) (index (prdtTable mem s64a command) p)) offset)
        (by omega)
    have haddress : (prdtTable mem s64a command (index (prdtTable mem s64a command) p)).address +
        ((max (start (prdtTable mem s64a command) (index (prdtTable mem s64a command) p)) offset :
            Nat) -
          (start (prdtTable mem s64a command) (index (prdtTable mem s64a command) p) : Int)) +
        ((p - max (start (prdtTable mem s64a command) (index (prdtTable mem s64a command) p)) offset :
          Nat) : Int) = address (prdtTable mem s64a command) p := by
      rw [address]
      omega
    rw [haddress] at hok
    exact hok

variable (mem s64a command offset length) in
/-- The segments of a range are those of the range, or nothing of it is transferred. -/
def AhciFlat : Prop :=
  Outcome (prdtSegments mem s64a command offset length)
    (fun segments => Transfer (prdtTable mem s64a command) offset length segments ∧
      PrdtCovers mem s64a command offset (offset + length))
    (¬PrdtCovers mem s64a command offset (offset + length))

theorem ahci_flat (h : Exact mem s64a command) : AhciFlat mem s64a command offset length := by
  have hwalk := prdtWalk_from h (Nat.le_add_right offset length) command.prdtl 0 (Nat.zero_add _)
  rw [start] at hwalk
  rw [AhciFlat, prdtSegments, prdtCovers_iff]
  dsimp only
  cases hresult : prdtWalk mem s64a command offset (offset + length) command.prdtl 0 0 with
  | error e =>
    rw [hresult] at hwalk
    exact fun hcovers => hwalk hcovers.2
  | ok r =>
    obtain ⟨segments, position⟩ := r
    rw [hresult] at hwalk
    obtain ⟨htiles, hinside, hlast, hserves⟩ := hwalk
    dsimp only [bind, Except.bind, pure, Except.pure]
    by_cases hposition : position < offset + length
    · rw [if_pos hposition]
      exact fun hcovers => absurd (hlast.2 hcovers.1) (Nat.not_le.2 hposition)
    · rw [if_neg hposition]
      have hge := Nat.le_of_not_lt hposition
      refine ⟨⟨?_, hinside⟩, hlast.1 hge, hserves⟩
      have hfirst : within offset (offset + length) 0 = 0 := by
        rw [within]
        omega
      have hfinal : within offset (offset + length) position = length := by
        rw [within]
        omega
      rw [hfirst, hfinal] at htiles
      exact htiles

variable (mem s64a command offset length) in
/-- Two ranges one after the other are served when their union is, and their segments have the same
bytes. -/
def Concatenates (length' : Nat) : Prop :=
  ((∃ all, prdtSegments mem s64a command offset (length + length') = .ok all) ↔
    (∃ segments, prdtSegments mem s64a command offset length = .ok segments) ∧
      ∃ segments, prdtSegments mem s64a command (offset + length) length' = .ok segments) ∧
  ∀ segments segments' all, prdtSegments mem s64a command offset length = .ok segments →
    prdtSegments mem s64a command (offset + length) length' = .ok segments' →
      prdtSegments mem s64a command offset (length + length') = .ok all →
        bytes all = bytes segments ++ bytes segments'

theorem AhciFlat.isOk_iff (h : AhciFlat mem s64a command offset length) :
    (∃ segments, prdtSegments mem s64a command offset length = .ok segments) ↔
      PrdtCovers mem s64a command offset (offset + length) := by
  rw [AhciFlat] at h
  cases hresult : prdtSegments mem s64a command offset length with
  | error e =>
    rw [hresult] at h
    exact ⟨fun hok => (nomatch hok), fun hcovers => absurd hcovers h⟩
  | ok segments =>
    rw [hresult] at h
    exact ⟨fun _ => h.2, fun _ => ⟨segments, rfl⟩⟩

theorem AhciFlat.transfer (h : AhciFlat mem s64a command offset length) {segments : List Segment}
    (hok : prdtSegments mem s64a command offset length = .ok segments) :
    Transfer (prdtTable mem s64a command) offset length segments := by
  rw [AhciFlat, hok] at h
  exact h.1

theorem ahci_concatenates (h : Exact mem s64a command) (length' : Nat) :
    Concatenates mem s64a command offset length length' := by
  have hfirst : AhciFlat mem s64a command offset length := ahci_flat h
  have hsecond : AhciFlat mem s64a command (offset + length) length' := ahci_flat h
  have hall : AhciFlat mem s64a command offset (length + length') := ahci_flat h
  constructor
  · rw [hfirst.isOk_iff, hsecond.isOk_iff, hall.isOk_iff, ← Nat.add_assoc]
    constructor
    · intro hcovers
      refine ⟨⟨?_, fun k hk hlt => ?_, fun p hle hlt => ?_⟩, ⟨?_, fun k hk hlt => ?_, fun p hle hlt => ?_⟩⟩
      · exact Nat.le_trans (Nat.le_add_right _ _) hcovers.long
      · exact hcovers.entries k hk (by omega)
      · exact hcovers.data p hle (by omega)
      · exact hcovers.long
      · exact hcovers.entries k hk hlt
      · exact hcovers.data p (by omega) hlt
    · rintro ⟨hcovers, hcovers'⟩
      refine ⟨hcovers'.long, hcovers'.entries, fun p hle hlt => ?_⟩
      by_cases hp : p < offset + length
      · exact hcovers.data p hle hp
      · exact hcovers'.data p (Nat.le_of_not_lt hp) hlt
  · intro segments segments' all hok hok' hokAll
    exact (hfirst.transfer hok).bytes_append (hsecond.transfer hok') (hall.transfer hokAll)

end

/-! ## Base addresses -/

/-- What the guest has programmed into the registers of a port. -/
structure Programmed where
  clb : BitVec 32
  clbu : BitVec 32
  fb : BitVec 32
  fbu : BitVec 32

namespace Programmed

def init : Programmed := ⟨0, 0, 0, 0⟩

/-- The bytes that are written replace those of the register, and its reserved bits are 0. -/
def write (port : Programmed) (s64a : Bool) (w : PortWrite) : Programmed :=
  match w.register with
  | .clb => { port with clb := (port.clb &&& ~~~w.mask ||| w.value &&& w.mask) &&& ~~~0x3FF }
  | .clbu => if s64a then { port with clbu := port.clbu &&& ~~~w.mask ||| w.value &&& w.mask } else port
  | .fb => { port with fb := (port.fb &&& ~~~w.mask ||| w.value &&& w.mask) &&& ~~~0xFF }
  | .fbu => if s64a then { port with fbu := port.fbu &&& ~~~w.mask ||| w.value &&& w.mask } else port

/-- An address of two registers, of which the upper one counts with 64-bit addressing. -/
def base (s64a : Bool) (low high : BitVec 32) : Int :=
  low.toNat + if s64a then (high.toNat : Int) * 0x100000000 else 0

end Programmed

def programmed (s64a : Bool) (writes : List PortWrite) : Programmed :=
  writes.foldl (fun port w => port.write s64a w) .init

/-- The numbers in the registers are the programmed words, the lower ones with a sign. -/
structure Holds (port : Port) (p : Programmed) : Prop where
  clb : port.clb = p.clb.toInt
  clbu : port.clbu = p.clbu.toNat
  fb : port.fb = p.fb.toInt
  fbu : port.fbu = p.fbu.toNat

theorem merge_toInt (x value mask : BitVec 32) :
    Port.merge x.toInt value mask = x &&& ~~~mask ||| value := by
  rw [Port.merge, BitVec.ofInt_toInt]

theorem merge_toNat (x value mask : BitVec 32) :
    Port.merge (x.toNat : Int) value mask = x &&& ~~~mask ||| value := by
  rw [Port.merge, BitVec.ofInt_natCast, BitVec.ofNat_toNat, BitVec.setWidth_eq]

theorem holds_portAfter (s64a : Bool) (writes : List PortWrite) :
    Holds (portAfter s64a writes) (programmed s64a writes) := by
  induction writes using List.reverseRecOn with
  | nil => exact ⟨rfl, rfl, rfl, rfl⟩
  | append_singleton writes w ih =>
    rw [portAfter, programmed, List.foldl_append, List.foldl_append]
    change Holds (Port.write32 (portAfter s64a writes) s64a w.register (w.value &&& w.mask) w.mask)
      (Programmed.write (programmed s64a writes) s64a w)
    obtain ⟨hclb, hclbu, hfb, hfbu⟩ := ih
    obtain ⟨register, value, mask⟩ := w
    cases register with
    | clb => exact ⟨by rw [Port.write32, hclb, merge_toInt]; rfl, hclbu, hfb, hfbu⟩
    | clbu =>
      cases s64a with
      | false => exact ⟨hclb, hclbu, hfb, hfbu⟩
      | true => exact ⟨hclb, by rw [Port.write32, hclbu, merge_toNat]; rfl, hfb, hfbu⟩
    | fb => exact ⟨hclb, hclbu, by rw [Port.write32, hfb, merge_toInt]; rfl, hfbu⟩
    | fbu =>
      cases s64a with
      | false => exact ⟨hclb, hclbu, hfb, hfbu⟩
      | true => exact ⟨hclb, hclbu, hfb, by rw [Port.write32, hfbu, merge_toNat]; rfl⟩

/-- A signed number is the unsigned one below 2 GiB. -/
theorem toInt_eq_iff (x : BitVec 32) : x.toInt = x.toNat ↔ x.toNat < 2 ^ 31 := by
  rw [BitVec.toInt_eq_toNat_cond]
  split <;> omega

/-- The command list and the received FISes of the port are where the guest has programmed. -/
def BasesProgrammed (s64a : Bool) (writes : List PortWrite) : Prop :=
  (portAfter s64a writes).listBase s64a =
      Programmed.base s64a (programmed s64a writes).clb (programmed s64a writes).clbu ∧
    (portAfter s64a writes).fisBase s64a =
      Programmed.base s64a (programmed s64a writes).fb (programmed s64a writes).fbu

theorem basesProgrammed_iff (s64a : Bool) (writes : List PortWrite) :
    BasesProgrammed s64a writes ↔ (programmed s64a writes).clb.toNat < 2 ^ 31 ∧
      (programmed s64a writes).fb.toNat < 2 ^ 31 := by
  have h := holds_portAfter s64a writes
  rw [BasesProgrammed, Port.listBase, Port.fisBase, Programmed.base, Programmed.base, h.clb, h.clbu,
    h.fb, h.fbu, Int.add_left_inj, Int.add_left_inj, toInt_eq_iff, toInt_eq_iff]

/-- Everything but the base addresses above 2 GiB: the walks are flat transfers, and in parts they
are those of the whole. -/
theorem scatterGather_iff (mem : Memory) (prdtAddr : BitVec 32) (byteCount : Nat) (s64a : Bool)
    (command : Command) (offset length length' : Nat) (writes : List PortWrite) :
    (IdeFlat mem prdtAddr byteCount ∧
        (Exact mem s64a command → AhciFlat mem s64a command offset length ∧
          Concatenates mem s64a command offset length length') ∧ BasesProgrammed s64a writes) ↔
      (programmed s64a writes).clb.toNat < 2 ^ 31 ∧ (programmed s64a writes).fb.toNat < 2 ^ 31 := by
  rw [← basesProgrammed_iff]
  refine ⟨fun h => h.2.2, fun hbases => ⟨ide_flat, fun h => ⟨ahci_flat h, ?_⟩, hbases⟩⟩
  exact ahci_concatenates h length'

example (prdtAddr : BitVec 32) : IdeFlat (.flat 0x4000000 fun _ => 0) prdtAddr 512 := ide_flat

/-- The command list at 2 GiB. -/
def listAtTwoGiB : List PortWrite := [⟨.clb, 0x80000000, 0xFFFFFFFF⟩]

/-- The port looks for it at minus 2 GiB. -/
theorem list_at_minus : ¬∀ (s64a : Bool) (writes : List PortWrite), BasesProgrammed s64a writes := by
  intro h
  exact absurd (h true listAtTwoGiB).1 (by decide)

end V86.Disk
