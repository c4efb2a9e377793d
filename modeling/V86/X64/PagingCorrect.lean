import V86.X64.Paging

/-!
# Walks and records

What a walk gives passes the checks of a restore (`walk_admissible`), and the record of an entry is
read back (`decode_record`).
-/

namespace V86.X64

open Bits
open BitVec hiding not_and not_not not_or

/-! ## Masks -/

variable {x : BitVec 64} {n : Nat} {a : Address}

theorem getLsbD_of_all {p : Nat → Bool} (h : ∀ i : Fin 64, x.getLsbD i = p i)
    (hp : ∀ i, 64 ≤ i → p i = false) (i : Nat) : x.getLsbD i = p i := by
  rcases Nat.lt_or_ge i 64 with hi | hi
  · exact h ⟨i, hi⟩
  · rw [hp i hi, getLsbD_of_ge x i hi]

theorem getLsbD_physicalMask (i : Nat) : physicalMask.getLsbD i = decide (i < 36) :=
  getLsbD_of_all (p := fun i => decide (i < 36)) (by decide)
    (fun i hi => decide_eq_false (by omega)) i

theorem getLsbD_addressMask (i : Nat) : addressMask.getLsbD i = decide (12 ≤ i ∧ i < 52) :=
  getLsbD_of_all (p := fun i => decide (12 ≤ i ∧ i < 52)) (by decide)
    (fun i hi => decide_eq_false (by omega)) i

theorem getLsbD_subpage (i : Nat) : (0x1FF000 : BitVec 64).getLsbD i = decide (12 ≤ i ∧ i < 21) :=
  getLsbD_of_all (p := fun i => decide (12 ≤ i ∧ i < 21)) (by decide)
    (fun i hi => decide_eq_false (by omega)) i

/-- The bits of an offset in a page. -/
theorem getLsbD_offset (hn : n < 64) (i : Nat) :
    (BitVec.twoPow 64 n - 1).getLsbD i = decide (i < n) := by
  have hval : (BitVec.twoPow 64 n - 1).toNat = 2 ^ n - 1 := by
    have hlt : 2 ^ n < 2 ^ 64 := Nat.pow_lt_pow_right (by decide) hn
    have hpos : 0 < 2 ^ n := Nat.two_pow_pos n
    rw [toNat_sub_of_le, toNat_twoPow, Nat.mod_eq_of_lt hlt]
    · rfl
    · rw [le_def, toNat_twoPow, Nat.mod_eq_of_lt hlt]
      exact hpos
  rw [BitVec.getLsbD, hval, Nat.testBit_two_pow_sub_one]

theorem le_physicalMask_iff : x ≤ physicalMask ↔ ∀ i, 36 ≤ i → x.getLsbD i = false := by
  have hmask : physicalMask.toNat = 2 ^ 36 - 1 := rfl
  rw [le_def, hmask]
  constructor
  · intro h i hi
    exact Nat.testBit_lt_two_pow (Nat.lt_of_lt_of_le (show x.toNat < 2 ^ 36 by omega)
      (Nat.pow_le_pow_right (by decide) hi))
  · intro h
    have := Nat.lt_pow_two_of_testBit x.toNat fun i hi => h i hi
    omega

/-! ## Addresses -/

theorem canonical_iff : canonical a = true ↔ ∀ i, 48 ≤ i → i < 64 → a.getLsbD i = a.getLsbD 47 := by
  have hbit : ∀ i < 64, ((a <<< 16).sshiftRight 16).getLsbD i =
      if i < 48 then a.getLsbD i else a.getLsbD 47 := by
    intro i hi
    rw [getLsbD_sshiftRight]
    rcases Nat.lt_or_ge i 48 with hlt | hge
    · have hnot : ¬64 ≤ i := by omega
      have hshift : 16 + i < 64 := by omega
      simp [hlt, hnot, hshift, getLsbD_eq_getElem hi]
    · have hnot : ¬64 ≤ i := by omega
      have hshift : ¬16 + i < 64 := by omega
      have hlt : ¬i < 48 := by omega
      simp [hlt, hnot, hshift, msb_eq_getLsbD_last]
  unfold canonical
  rw [decide_eq_true_eq]
  constructor
  · intro h i hi hlt
    have := hbit i hlt
    rw [h, if_neg (by omega)] at this
    exact this
  · intro h
    refine eq_of_getLsbD_eq fun i hi => ?_
    rw [hbit i hi]
    split
    · rfl
    · exact (h i (by omega) hi).symm

/-- The address of a page. -/
theorem getLsbD_page (a : Address) (i : Nat) :
    ((a >>> 12) <<< 12).getLsbD i = (decide (12 ≤ i) && a.getLsbD i) := by
  rw [getLsbD_shiftLeft, getLsbD_ushiftRight]
  rcases Nat.lt_or_ge i 12 with h | h
  · simp [h]
  · rw [Nat.add_sub_cancel' h]
    rcases Nat.lt_or_ge i 64 with hi | hi
    · simp [h, hi]
    · simp [getLsbD_of_ge a i hi]

theorem canonical_page (h : canonical a = true) : canonical ((a >>> 12) <<< 12) = true := by
  rw [canonical_iff] at h ⊢
  intro i hi hlt
  rw [getLsbD_page, getLsbD_page, h i hi hlt]
  simp [show 12 ≤ i by omega]

/-- Addresses of a page are in the same regions that are not smaller. -/
theorem page_shift (a : Address) (hn : 12 ≤ n) : ((a >>> 12) <<< 12) >>> n = a >>> n := by
  refine eq_of_getLsbD_eq fun i _ => ?_
  rw [getLsbD_ushiftRight, getLsbD_ushiftRight, getLsbD_page]
  simp [show 12 ≤ n + i by omega]

/-! ## Walks -/

/-- What a walk has gathered above a level: tables are in physical memory, and so are their entries. -/
structure Walked.Good (w : Walked) (c : Controls) (level : Nat) : Prop where
  table : ∀ i, i < 12 ∨ 36 ≤ i → w.table.getLsbD i = false
  executable : c.nxEnable = false → w.executable = true
  seen : ∀ i : Fin 4, i.val + level < 4 →
    w.witnesses i ≤ physicalMask - 7 ∧ w.witnesses i &&& 7 = 0
  unseen : ∀ i : Fin 4, 4 ≤ i.val + level → w.witnesses i = 0

/-- What a walk that succeeds gives. -/
structure Translation.Good (t : Translation) (address : Address) (access : Access) (c : Controls) :
    Prop where
  canonical : canonical address = true
  physical : t.physical ≤ physicalMask
  size : t.pageShift = 12 ∧ t.witnessCount = 4 ∨ t.pageShift = 21 ∧ t.witnessCount = 3
  offset : t.pageShift = 21 → ∀ i, 12 ≤ i → i < 21 →
    t.physical.getLsbD i = address.getLsbD i
  user : c.user = true → t.user = true
  write : access = .write → t.writable = true ∨ c.user = false ∧ c.writeProtect = false
  execute : access = .execute → t.executable = true
  executable : c.nxEnable = false → t.executable = true
  seen : ∀ i : Fin 4, i.val < t.witnessCount →
    t.witnesses i ≤ physicalMask - 7 ∧ t.witnesses i &&& 7 = 0
  unseen : ∀ i : Fin 4, t.witnessCount ≤ i.val → t.witnesses i = 0

theorem and_low_eq_zero (hn : n < 64) :
    x &&& (BitVec.twoPow 64 n - 1) = 0 ↔ x.toNat % 2 ^ n = 0 := by
  have hval : (BitVec.twoPow 64 n - 1).toNat = 2 ^ n - 1 := by
    refine Nat.eq_of_testBit_eq fun i => ?_
    rw [Nat.testBit_two_pow_sub_one]
    exact getLsbD_offset hn i
  rw [toNat_eq, toNat_and, hval, Nat.and_two_pow_sub_one_eq_mod]
  rfl

/-- The address of an entry of a table. -/
theorem entry_address {table : Address} (h : ∀ i, i < 12 ∨ 36 ≤ i → table.getLsbD i = false)
    (x : BitVec 64) :
    table + (x &&& 511) * 8 ≤ physicalMask - 7 ∧ table + (x &&& 511) * 8 &&& 7 = 0 := by
  have hx : (x &&& 511).toNat < 512 := by
    rw [toNat_and]
    exact Nat.lt_of_le_of_lt Nat.and_le_right (by decide)
  have hmask := le_physicalMask_iff.2 fun i hi => h i (.inr hi)
  have hlow : table.toNat % 2 ^ 12 = 0 := by
    rw [← and_low_eq_zero (by decide)]
    refine eq_of_getLsbD_eq fun i _ => ?_
    have hzero : (0 : BitVec 64).getLsbD i = false := getLsbD_zero
    rw [getLsbD_and, getLsbD_offset (by decide), hzero]
    rcases Nat.lt_or_ge i 12 with hi | hi
    · rw [h i (.inl hi), Bool.false_and]
    · rw [decide_eq_false (Nat.not_lt.2 hi), Bool.and_false]
  rw [le_def, show physicalMask.toNat = 2 ^ 36 - 1 from rfl] at hmask
  have hsum : (table + (x &&& 511) * 8).toNat = table.toNat + (x &&& 511).toNat * 8 := by
    rw [toNat_add, toNat_mul, show (8 : BitVec 64).toNat = 8 from rfl]
    omega
  have hle : (physicalMask - 7).toNat = 2 ^ 36 - 8 := rfl
  refine ⟨?_, (and_low_eq_zero (n := 3) (by decide)).2 ?_⟩
  · rw [le_def, hsum, hle]
    omega
  · rw [hsum]
    omega

section
variable {μ : Type} {mem : PageTableMemory μ} {address : Address} {access : Access} {c : Controls}
  {mode : WalkMode} {m m' : μ} {t : Translation}

variable {entry : BitVec 64} {level : Nat} {w : Walked}

/-- An entry without reserved bits points into physical memory. -/
theorem entry_bits (h : entry &&& addressMask &&& ~~~physicalMask = 0) {i : Nat}
    (hi : i < 12 ∨ 36 ≤ i) : (entry &&& addressMask).getLsbD i = false := by
  rcases hi with hi | hi
  · rw [getLsbD_and, getLsbD_addressMask, decide_eq_false (by omega), Bool.and_false]
  · rcases Nat.lt_or_ge i 64 with hlt | hge
    · have hzero : (entry &&& addressMask &&& ~~~physicalMask).getLsbD i = false := by
        rw [h]
        exact getLsbD_zero
      rwa [getLsbD_and, getLsbD_not, getLsbD_physicalMask,
        decide_eq_false (Nat.not_lt.2 hi), decide_eq_true hlt, Bool.not_false, Bool.and_self,
        Bool.and_true] at hzero
    · exact getLsbD_of_ge _ _ hge

theorem physical_le {offset : BitVec 64} (h : entry &&& addressMask &&& ~~~physicalMask = 0)
    {n : Nat} (hn : n < 36) (ho : ∀ i, offset.getLsbD i = true → i < n) :
    (entry &&& addressMask &&& ~~~(BitVec.twoPow 64 n - 1)) ||| offset ≤ physicalMask := by
  rw [le_physicalMask_iff]
  intro i hi
  rw [getLsbD_or, getLsbD_and, entry_bits h (.inr hi), Bool.false_and, Bool.false_or,
    ← Bool.not_eq_true]
  intro hoff
  have := ho i hoff
  omega

theorem walkLeaf_good {entryAddress : Address} {large : Bool}
    (hcanonical : canonical address = true) (hw : w.Good c (level - 1))
    (hlevel : level = 1 ∧ large = false ∨ level = 2 ∧ large = true)
    (hentry : entry &&& addressMask &&& ~~~physicalMask = 0)
    (h : walkLeaf mem address access c mode level w entryAddress entry large m = (.ok t, m')) :
    t.Good address access c := by
  unfold walkLeaf at h
  split at h
  · cases h
  next hperm =>
  simp only [Bool.or_eq_true, Bool.and_eq_true, decide_eq_true_eq, Bool.not_eq_true', not_or,
    not_and, Bool.not_eq_false] at hperm
  obtain ⟨⟨huser, hwrite⟩, hexec⟩ := hperm
  split at h
  · cases h
  cases h
  have hoffset : ∀ n < 64, ∀ i, (address &&& (BitVec.twoPow 64 n - 1)).getLsbD i = true → i < n := by
    intro n hn i hi
    rw [getLsbD_and, getLsbD_offset hn, Bool.and_eq_true, decide_eq_true_eq] at hi
    exact hi.2
  have hshift : (if large then 21 else 12) < 36 := by split <;> decide
  exact {
    canonical := hcanonical
    physical := physical_le hentry hshift (hoffset _ (Nat.lt_trans hshift (by decide)))
    size := by
      rcases hlevel with ⟨rfl, rfl⟩ | ⟨rfl, rfl⟩
      · exact .inl ⟨rfl, rfl⟩
      · exact .inr ⟨rfl, rfl⟩
    offset := by
      intro hsize i hlow hhigh
      dsimp only at hsize ⊢
      rw [hsize, getLsbD_or, getLsbD_and, getLsbD_and, getLsbD_and,
        getLsbD_not, getLsbD_offset (by decide), decide_eq_true hhigh]
      simp
    user := huser
    write := by
      intro hacc
      by_cases hw' : w.writable = true
      · exact .inl hw'
      · have hneither := hwrite ⟨hacc, by simpa using hw'⟩
        simp only [Bool.not_eq_true] at hneither
        exact .inr hneither
    execute := hexec
    executable := hw.executable
    seen := fun i hi => hw.seen i (by dsimp only at hi; omega)
    unseen := fun i hi => hw.unseen i (by dsimp only at hi; omega) }

theorem walkFrom_good (hcanonical : canonical address = true) (hlevel : level ≤ 4)
    (hw : w.Good c level) (h : walkFrom mem address access c mode level w m = .ok (.ok t, m')) :
    t.Good address access c := by
  induction level generalizing w m with
  | zero => cases h
  | succ next ih =>
    unfold walkFrom at h
    dsimp only at h
    split at h
    · cases h
    next entry m₁ _ =>
    split at h
    · cases h
    split at h
    · cases h
    next hreserved =>
    simp only [Bool.or_eq_true, Bool.and_eq_true, decide_eq_true_eq, Bool.not_eq_true', not_or,
      not_and, ne_eq, not_not] at hreserved
    obtain ⟨⟨⟨hentry, hnx⟩, htwo⟩, _⟩ := hreserved
    obtain ⟨hbound, haligned⟩ := entry_address hw.table (address >>> (12 + next * 9))
    -- what is gathered with the entry of this level
    have hnext : Walked.Good {
        table := entry &&& addressMask
        writable := w.writable && entry.getLsbD 1
        user := w.user && entry.getLsbD 2
        executable := w.executable && !entry.getLsbD 63
        witnesses := fun i => if i.val + (next + 1) = 4 then
          w.table + (address >>> (12 + next * 9) &&& 511) * 8 else w.witnesses i } c next := by
      refine ⟨fun i hi => ?_, fun hc => ?_, fun i hi => ?_, fun i hi => ?_⟩
      · exact entry_bits hentry hi
      · dsimp only
        rw [hw.executable hc, Bool.eq_false_of_not_eq_true (hnx hc)]
        rfl
      · dsimp only
        split
        · exact ⟨hbound, haligned⟩
        · exact hw.seen i (by omega)
      · dsimp only
        rw [if_neg (by omega)]
        exact hw.unseen i (by omega)
    split at h
    · cases h
    split at h
    · next hleaf =>
      have hcase : next + 1 = 1 ∧ (decide (1 < next + 1) && entry.getLsbD 7) = false ∨
          next + 1 = 2 ∧ (decide (1 < next + 1) && entry.getLsbD 7) = true := by
        rcases Nat.eq_zero_or_pos next with rfl | hpos
        · exact .inl ⟨rfl, rfl⟩
        · have hlarge := hleaf
          rw [decide_eq_false (by omega), Bool.false_or] at hlarge
          rw [Bool.and_eq_true, decide_eq_true_eq] at hlarge
          exact .inr ⟨by have := htwo hlarge; omega, by simpa using hlarge⟩
      injection h with h
      exact walkLeaf_good hcanonical hnext hcase hentry h
    · exact ih (by omega) hnext h

theorem walk_good (h : walk mem m address access c mode = .ok (.ok t, m')) : t.Good address access c := by
  unfold walk at h
  split at h
  · cases h
  next hcanonical =>
  refine walkFrom_good (by simpa using hcanonical) (Nat.le_refl 4) ⟨fun i hi => ?_, fun _ => rfl,
    fun i hi => by omega, fun _ _ => rfl⟩ h
  have hlow : (0xFFF : BitVec 64) = BitVec.twoPow 64 12 - 1 := rfl
  dsimp only
  rw [getLsbD_and, getLsbD_and, getLsbD_not, getLsbD_physicalMask, hlow, getLsbD_offset (by decide)]
  rcases hi with hi | hi
  · rw [decide_eq_true hi, Bool.not_true, Bool.and_false, Bool.and_false]
  · rw [decide_eq_false (Nat.not_lt.2 hi), Bool.and_false, Bool.false_and]

end

/-! ## Entries -/

section
variable {address : Address} {access : Access} {c c' : Controls} {t : Translation}

theorem control_bits (access : Access) (c : Controls) :
    Tlb.control access c &&& 3 = access.bits ∧ (Tlb.control access c).getLsbD 2 = c.user ∧
      (Tlb.control access c).getLsbD 3 = c.writeProtect ∧
      (Tlb.control access c).getLsbD 4 = c.nxEnable ∧
      (Tlb.control access c).setWidth 32 &&& ~~~31 = 0 := by
  obtain ⟨_, user, writeProtect, nxEnable⟩ := c
  unfold Tlb.control
  dsimp only
  cases access <;> cases user <;> cases writeProtect <;> cases nxEnable <;> decide

theorem bits_injective {access access' : Access} (h : access.bits = access'.bits) :
    access = access' := by
  cases access <;> cases access' <;> first | rfl | exact absurd h (by decide)

/-- The access and the controls of an entry. -/
theorem control_injective {access access' : Access}
    (h : Tlb.control access c = Tlb.control access' c') : access = access' ∧ c.user = c'.user ∧
      c.writeProtect = c'.writeProtect ∧ c.nxEnable = c'.nxEnable := by
  obtain ⟨h1, h2, h3, h4, _⟩ := control_bits access c
  obtain ⟨h1', h2', h3', h4', _⟩ := control_bits access' c'
  rw [h] at h1 h2 h3 h4
  exact ⟨bits_injective (h1.symm.trans h1'), h2.symm.trans h2', h3.symm.trans h3', h4.symm.trans h4'⟩

/-- The entry of a translation passes the checks of a restore. -/
theorem walk_admissible (h : t.Good address access c) (hcr3 : c.cr3 ≤ physicalMask)
    (epoch : BitVec 64) :
    (Cached.mk (address >>> 12) c.cr3 (Tlb.control access c) epoch t).admissible = true ∧
      (Cached.mk (address >>> 12) c.cr3 (Tlb.control access c) epoch t).witnessed = true := by
  obtain ⟨haccess, huser, hwrite, hnx, _⟩ := control_bits access c
  have hpage : (address >>> 12) >>> 52 = 0 := by
    refine eq_of_getLsbD_eq fun i _ => ?_
    rw [getLsbD_ushiftRight, getLsbD_ushiftRight, getLsbD_of_ge address _ (by omega)]
    exact BitVec.getLsbD_zero.symm
  have hthree : access.bits ≠ 3 := by cases access <;> decide
  constructor
  · unfold Cached.admissible
    dsimp only
    rw [haccess, huser, hwrite, hnx, Bool.and_eq_true]
    constructor
    · simp only [Bool.and_eq_true, decide_eq_true_eq, Bool.or_eq_true]
      exact ⟨⟨⟨⟨⟨hpage, canonical_page h.canonical⟩, hcr3⟩, h.physical⟩, hthree⟩, h.size⟩
    · simp only [Bool.not_eq_true', Bool.or_eq_false_iff, Bool.and_eq_false_iff,
        Bool.not_eq_false', decide_eq_false_iff_not]
      refine ⟨⟨⟨⟨?_, ?_⟩, ?_⟩, ?_⟩, ?_⟩
      · cases hu : c.user with
        | false => exact .inl rfl
        | true => exact .inr (h.user hu)
      · by_cases hacc : access = .write
        · rcases h.write hacc with hw | hw
          · exact .inl (.inr hw)
          · exact .inr hw
        · exact .inl (.inl fun heq => hacc (bits_injective heq))
      · by_cases hacc : access = .execute
        · exact .inr (h.execute hacc)
        · exact .inl fun heq => hacc (bits_injective heq)
      · cases hn : c.nxEnable with
        | false => exact .inr (h.executable hn)
        | true => exact .inl rfl
      · by_cases hsize : t.pageShift = 21
        · refine .inr fun hne => hne (eq_of_getLsbD_eq fun i _ => ?_)
          rw [getLsbD_and, getLsbD_and, getLsbD_subpage, getLsbD_page]
          rcases Classical.em (12 ≤ i ∧ i < 21) with hi | hi
          · rw [h.offset hsize i hi.1 hi.2, decide_eq_true hi.1, Bool.true_and]
          · rw [decide_eq_false hi, Bool.and_false, Bool.and_false]
        · exact .inl hsize
  · unfold Cached.witnessed
    rw [List.all_eq_true]
    intro i _
    dsimp only
    split
    · next hi => simpa using h.seen i hi
    · next hi => simpa using h.unseen i (Nat.le_of_not_lt hi)

end

/-! ## Records -/

theorem halves_wide (x : BitVec 64) :
    (x.setWidth 32).setWidth 64 ||| ((x >>> 32).setWidth 32).setWidth 64 <<< 32 = x := by
  refine eq_of_getLsbD_eq fun i hi => ?_
  rw [getLsbD_or, getLsbD_shiftLeft, getLsbD_setWidth, getLsbD_setWidth,
    getLsbD_setWidth, getLsbD_setWidth, getLsbD_ushiftRight]
  rcases Nat.lt_or_ge i 32 with h | h
  · simp [h, hi]
  · rw [Nat.add_sub_cancel' h]
    simp [hi, Nat.not_lt.2 h, show i - 32 < 32 by omega, show i - 32 < 64 by omega]

theorem flag_bits (a b c d : Bool) :
    (flag a 1 ||| flag b 2 ||| flag c 4 ||| flag d 8).getLsbD 0 = a ∧
      (flag a 1 ||| flag b 2 ||| flag c 4 ||| flag d 8).getLsbD 1 = b ∧
      (flag a 1 ||| flag b 2 ||| flag c 4 ||| flag d 8).getLsbD 2 = c ∧
      (flag a 1 ||| flag b 2 ||| flag c 4 ||| flag d 8).getLsbD 3 = d ∧
      (flag a 1 ||| flag b 2 ||| flag c 4 ||| flag d 8) &&& ~~~15 = 0 := by
  cases a <;> cases b <;> cases c <;> cases d <;> decide

@[simp] theorem Cached.length_record (e : Cached) : e.record.length = 18 := rfl

/-- The record of an entry is read back. -/
theorem decode_record {e : Cached} (hsize : e.value.pageShift < 2 ^ 32)
    (hcount : e.value.witnessCount < 2 ^ 32) : decodeRecord e.record = { e with epoch := 1 } := by
  obtain ⟨h0, h1, h2, h3, _⟩ :=
    flag_bits e.value.writable e.value.user e.value.executable e.value.isGlobal
  have hcontrol : (e.control.setWidth 32).setWidth 8 = e.control := by
    refine eq_of_getLsbD_eq fun i hi => ?_
    simp [hi]
  have hwitness : (fun i : Fin 4 => wide e.record (10 + i.val * 2)) = e.value.witnesses := by
    funext i
    match i with
    | 0 => exact halves_wide _
    | 1 => exact halves_wide _
    | 2 => exact halves_wide _
    | 3 => exact halves_wide _
  have hlinear : wide e.record 0 = e.linearPage := halves_wide _
  have hcr3 : wide e.record 2 = e.cr3 := halves_wide _
  have hphysical : wide e.record 5 = e.value.physical := halves_wide _
  have hbyte : (e.record.getD 4 0).setWidth 8 = e.control := hcontrol
  have hshift : (e.record.getD 7 0).toNat = e.value.pageShift := Nat.mod_eq_of_lt hsize
  have hwitnesses : (e.record.getD 9 0).toNat = e.value.witnessCount := Nat.mod_eq_of_lt hcount
  have hflags : e.record.getD 8 0 = flag e.value.writable 1 ||| flag e.value.user 2 |||
    flag e.value.executable 4 ||| flag e.value.isGlobal 8 := rfl
  unfold decodeRecord
  rw [hwitness, hlinear, hcr3, hphysical, hbyte, hshift, hwitnesses, hflags, h0, h1, h2, h3]

end V86.X64
