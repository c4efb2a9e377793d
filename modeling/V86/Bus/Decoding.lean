import V86.Bus.Locations

/-!
# Pages decode as a whole

In a layout that the code accepts the parts of the memory map are page aligned, so that the bytes of
a page are all decoded in the same way: an access that stays in its page is decoded by its first
byte.
-/

namespace V86.Bus

variable {m : Layout} {a b n k : Nat}

/-- The layouts that the code accepts: RAM is of whole blocks and at most 2 GiB, windows and device
memory are checked where they are set, and TSEG is the end of the low RAM. -/
structure Layout.Accepted (m : Layout) : Prop where
  memorySize : pageSize ∣ m.memorySize ∧ m.memorySize ≤ 2 ^ 31
  windows : ∀ w ∈ m.bus.list, w.kind = .ram → pageSize ∣ w.backing.toNat ∧
    pageSize ∣ w.length.toNat ∧ w.backing.toNat + w.length.toNat ≤ m.memorySize ∧
    (w.backing.toNat + w.length.toNat ≤ 0xA0000 ∨ 0xC0000 ≤ w.backing.toNat)
  tseg : pageSize ∣ m.tsegBase ∧ pageSize ∣ m.tsegEnd ∧ m.tsegEnd ≤ m.memorySize
  ramFastLimit : m.ramFastLimit = m.fastLimit
  regions : ∀ r ∈ m.regions, r.mapped = true →
    pageSize ∣ r.base ∧ pageSize ∣ r.size ∧ 0x100000 ≤ r.base ∧ r.base + r.size ≤ 2 ^ 32

/-- The addresses are in one page. -/
def SamePage (a b : Nat) : Prop := a / 4096 = b / 4096

theorem wrap_of_lt (h : a < 2 ^ 32) : wrap a = a := Nat.mod_eq_of_lt h

theorem inPage_samePage (hpage : a % 4096 + n ≤ 4096) (hk : k < n) : SamePage (a + k) a := by
  rw [SamePage]
  omega

theorem inPage_lt (ha : a < 2 ^ 32) (hpage : a % 4096 + n ≤ 4096) (hk : k < n) :
    a + k < 2 ^ 32 := by
  omega

namespace Layout

theorem isLowRamHole_iff :
    m.isLowRamHole a = true ↔ ∃ w ∈ m.bus.list, w.kind = .ram ∧ w.backs a := by
  simp only [isLowRamHole, List.any_eq_true, Bool.and_eq_true, decide_eq_true_eq]

theorem fastLimit_le_of_hole (h : m.isLowRamHole a = true) : m.fastLimit ≤ a := by
  obtain ⟨w, hw, hkind, hbacks⟩ := isLowRamHole_iff.1 h
  have hmem : w.backing.toNat ∈ (m.bus.list.filter (·.kind = .ram)).map (·.backing.toNat) :=
    List.mem_map_of_mem (List.mem_filter.2 ⟨hw, decide_eq_true hkind⟩)
  have hle := List.min?_getD_le_of_mem (k := m.memorySize) hmem
  rw [fastLimit]
  have hbase := hbacks.1
  omega

theorem inTseg_iff : m.inTseg a = true ↔ m.tsegBase ≤ a ∧ a < m.tsegEnd := by
  rw [inTseg, Bool.and_eq_true, decide_eq_true_eq, decide_eq_true_eq]

theorem fastLimit_le_of_tseg (h : m.inTseg a = true) : m.fastLimit ≤ a := by
  rw [inTseg_iff] at h
  rw [fastLimit, tsegFloor, if_pos (by omega)]
  omega

theorem fastLimit_le (m : Layout) : m.fastLimit ≤ m.memorySize := by
  rw [fastLimit]
  omega

namespace Accepted

variable (h : m.Accepted)
include h

theorem hole_lt (hhole : m.isLowRamHole a = true) :
    a < m.memorySize ∧ (a < 0xA0000 ∨ 0xC0000 ≤ a) := by
  obtain ⟨w, hw, hkind, hbase, hend⟩ := isLowRamHole_iff.1 hhole
  obtain ⟨-, -, hmemory, hvga⟩ := h.windows w hw hkind
  omega

theorem tseg_lt (htseg : m.inTseg a = true) : a < m.memorySize := by
  have hend := h.tseg.2.2
  rw [inTseg_iff] at htseg
  omega

theorem inMappedRange_iff : m.inMappedRange a = true ↔
    0xA0000 ≤ a ∧ a < 0xC0000 ∨ m.memorySize ≤ a ∨ m.isLowRamHole a = true ∨ m.inTseg a = true := by
  have hmemory := fastLimit_le m
  simp only [inMappedRange, Bool.or_eq_true, Bool.and_eq_true, decide_eq_true_eq, h.ramFastLimit,
    or_assoc]
  refine or_congr_right ⟨And.right, fun hmapped => ⟨?_, hmapped⟩⟩
  obtain hge | hhole | htseg := hmapped
  · omega
  · exact fastLimit_le_of_hole hhole
  · exact fastLimit_le_of_tseg htseg

theorem lowRamHole_iff : m.lowRamHole a = true ↔
    m.isLowRamHole a = true ∨ m.inTseg a = true ∧ m.smmActive = false := by
  simp only [lowRamHole, tsegBlackhole, Bool.or_eq_true, Bool.and_eq_true, decide_eq_true_eq,
    Bool.not_eq_true', h.ramFastLimit]
  refine ⟨And.right, fun hhole => ⟨?_, hhole⟩⟩
  obtain hhole | ⟨htseg, -⟩ := hhole
  · exact ⟨fastLimit_le_of_hole hhole, (h.hole_lt hhole).1⟩
  · exact ⟨fastLimit_le_of_tseg htseg, h.tseg_lt htseg⟩

/-! ## Pages -/

theorem isLowRamHole_page (hpage : SamePage a b) : m.isLowRamHole a = m.isLowRamHole b := by
  rw [Bool.eq_iff_iff, isLowRamHole_iff, isLowRamHole_iff]
  refine exists_congr fun w => and_congr_right fun hw => and_congr_right fun hkind => ?_
  obtain ⟨⟨base, hbase⟩, ⟨length, hlength⟩, -⟩ := h.windows w hw hkind
  rw [Window.backs, Window.backs, hbase, hlength, pageSize]
  rw [SamePage] at hpage
  omega

theorem inTseg_page (hpage : SamePage a b) : m.inTseg a = m.inTseg b := by
  obtain ⟨⟨base, hbase⟩, ⟨stop, hstop⟩, -⟩ := h.tseg
  rw [Bool.eq_iff_iff, inTseg_iff, inTseg_iff, hbase, hstop, pageSize]
  rw [SamePage] at hpage
  omega

theorem inMappedRange_page (hpage : SamePage a b) : m.inMappedRange a = m.inMappedRange b := by
  obtain ⟨size, hsize⟩ := h.memorySize.1
  rw [Bool.eq_iff_iff, h.inMappedRange_iff, h.inMappedRange_iff, h.isLowRamHole_page hpage,
    h.inTseg_page hpage, hsize, pageSize]
  rw [SamePage] at hpage
  have hvga : (0xA0000 ≤ a ∧ a < 0xC0000) ↔ 0xA0000 ≤ b ∧ b < 0xC0000 := by omega
  have hmemory : 4096 * size ≤ a ↔ 4096 * size ≤ b := by omega
  rw [hvga, hmemory]

theorem lowRamHole_page (hpage : SamePage a b) : m.lowRamHole a = m.lowRamHole b := by
  rw [Bool.eq_iff_iff, h.lowRamHole_iff, h.lowRamHole_iff, h.isLowRamHole_page hpage,
    h.inTseg_page hpage]

end Accepted

end Layout

theorem apertureContains_iff (ha : a < 2 ^ 32) :
    apertureContains a = true ↔ 0xFEF00000 ≤ a ∧ a < 0xFF000000 := by
  rw [apertureContains, decide_eq_true_eq, wrap, apertureBase, apertureSize, pageSize]
  omega

theorem apertureContains_page (ha : a < 2 ^ 32) (hb : b < 2 ^ 32) (hpage : SamePage a b) :
    apertureContains a = apertureContains b := by
  rw [Bool.eq_iff_iff, apertureContains_iff ha, apertureContains_iff hb]
  rw [SamePage] at hpage
  omega

/-- An access in a page is in a region if one of its bytes is. -/
theorem Region.offset?_page {r : Region}
    (hr : r.mapped = true → pageSize ∣ r.base ∧ pageSize ∣ r.size ∧ r.base + r.size ≤ 2 ^ 32)
    (ha : a < 2 ^ 32) (hpage : a % 4096 + n ≤ 4096) (hk : k < n) :
    r.offset? (a + k) 1 = (r.offset? a n).map (· + k) := by
  rw [offset?, offset?]
  cases hmapped : r.mapped with
  | false => rfl
  | true =>
    obtain ⟨⟨base, hbase⟩, ⟨size, hsize⟩, hend⟩ := hr hmapped
    rw [hbase, hsize, pageSize] at hend ⊢
    simp only [Bool.true_and, Bool.and_eq_true, decide_eq_true_eq]
    have hwrap (x : Nat) : wrap x = x % 2 ^ 32 := rfl
    have hfirst := hwrap (a + 2 ^ 32 - 4096 * base)
    have hbyte := hwrap (a + k + 2 ^ 32 - 4096 * base)
    by_cases hin : 4096 * base ≤ a ∧ a < 4096 * base + 4096 * size
    · rw [if_pos (by omega), if_pos (by omega), Option.map_some]
      congr 1
      omega
    · rw [if_neg (by omega), if_neg (by omega)]
      rfl

theorem findFrom_page {rs : List Region} (hrs : ∀ r ∈ rs, r.mapped = true →
      pageSize ∣ r.base ∧ pageSize ∣ r.size ∧ r.base + r.size ≤ 2 ^ 32)
    (ha : a < 2 ^ 32) (hpage : a % 4096 + n ≤ 4096) (hk : k < n) (i : Nat) :
    findFrom (a + k) 1 i rs = (findFrom a n i rs).map fun host => (host.1, host.2 + k) := by
  induction rs generalizing i with
  | nil => rfl
  | cons r rs ih =>
    rw [findFrom, findFrom, Region.offset?_page (hrs r List.mem_cons_self) ha hpage hk]
    cases r.offset? a n with
    | some offset => rfl
    | none => exact ih (fun r hr => hrs r (List.mem_cons_of_mem _ hr)) (i + 1)

theorem Region.base_le_of_offset? {r : Region}
    (hr : r.mapped = true → r.base + r.size ≤ 2 ^ 32) (ha : a < 2 ^ 32)
    (h : (r.offset? a n).isSome) : r.base ≤ a := by
  rw [offset?] at h
  have hwrap : wrap (a + 2 ^ 32 - r.base) = (a + 2 ^ 32 - r.base) % 2 ^ 32 := rfl
  cases hmapped : r.mapped with
  | false =>
    rw [hmapped] at h
    simp at h
  | true =>
    have hend := hr hmapped
    simp only [hmapped, Bool.true_and, Bool.and_eq_true, decide_eq_true_eq] at h
    split at h
    · omega
    · simp at h

theorem findFrom_low {rs : List Region}
    (hrs : ∀ r ∈ rs, r.mapped = true → 0x100000 ≤ r.base ∧ r.base + r.size ≤ 2 ^ 32)
    (ha : a < 0x100000) (i : Nat) : findFrom a n i rs = none := by
  induction rs generalizing i with
  | nil => rfl
  | cons r rs ih =>
    rw [findFrom]
    cases hoffset : r.offset? a n with
    | none => exact ih (fun r hr => hrs r (List.mem_cons_of_mem _ hr)) (i + 1)
    | some offset =>
      have hr := hrs r List.mem_cons_self
      have hsome : (r.offset? a n).isSome := hoffset ▸ rfl
      have hbase := r.base_le_of_offset? (fun hmapped => (hr hmapped).2) (by omega) hsome
      rw [Region.offset?] at hoffset
      cases hmapped : r.mapped with
      | false =>
        rw [hmapped] at hoffset
        simp at hoffset
      | true =>
        have hlow := (hr hmapped).1
        omega

namespace Layout.Accepted

variable (h : m.Accepted)
include h

theorem find_page (ha : a < 2 ^ 32) (hpage : a % 4096 + n ≤ 4096) (hk : k < n) :
    m.find (a + k) 1 = (m.find a n).map fun host => (host.1, host.2 + k) :=
  findFrom_page (fun r hr hmapped =>
    have hregion := h.regions r hr hmapped
    ⟨hregion.1, hregion.2.1, hregion.2.2.2⟩) ha hpage hk 0

theorem find_low (ha : a < 0x100000) : m.find a n = none :=
  findFrom_low (fun r hr hmapped => (h.regions r hr hmapped).2.2) ha 0

theorem inMappedRange_of_high (ha : 2 ^ 31 ≤ a) : m.inMappedRange a = true :=
  h.inMappedRange_iff.2 (.inr (.inl (Nat.le_trans h.memorySize.2 ha)))

theorem lowRamHole_of_high (ha : 2 ^ 31 ≤ a) : m.lowRamHole a = false := by
  rw [Bool.eq_false_iff]
  intro hhole
  have hmemory := h.memorySize.2
  obtain hhole | ⟨htseg, -⟩ := h.lowRamHole_iff.1 hhole
  · have := (h.hole_lt hhole).1
    omega
  · have := h.tseg_lt htseg
    omega

theorem inTseg_of_high (ha : 2 ^ 31 ≤ a) : m.inTseg a = false := by
  rw [Bool.eq_false_iff]
  intro htseg
  have := h.tseg_lt htseg
  have hmemory := h.memorySize.2
  omega

end Layout.Accepted

/-! ## SMRAM -/

namespace Layout

theorem smramRam_byte (ha : a < 2 ^ 32) (fetch : Bool) : m.smramRam a 1 fetch =
    if 0xA0000 ≤ a ∧ a < 0xC0000 then if m.compatibleOpen fetch then some a else none
    else if 0xFEDA0000 ≤ a ∧ a < 0xFEDC0000 then
      if m.hSmrame && (m.dOpen || m.gSmrame && m.smmActive) then some (a - 0xFEDA0000 + 0xA0000)
      else none else if m.inTseg a && m.smmActive then some a else none := by
  rw [smramRam]
  rw [Nat.sub_self, Nat.add_zero, wrap_of_lt ha, Bool.and_self]
  rfl

/-- An access that wraps around is decoded as compatible SMRAM. -/
theorem smramRam_wrap (ha : 0xA0000 ≤ a) (hlt : a < 2 ^ 32) (hwrap : 2 ^ 32 < a + n) (hn : n ≤ 16)
    (fetch : Bool) : m.smramRam a n fetch = if m.compatibleOpen fetch then some a else none := by
  have hlast : wrap (a + (n - 1)) = (a + (n - 1)) % 2 ^ 32 := rfl
  rw [smramRam]
  rw [if_pos]
  rw [compatibleSmram, smramSize]
  omega

namespace Accepted

variable (h : m.Accepted)
include h

/-- The pages of SMRAM, too, are decoded as a whole. -/
theorem smramRam_page (ha : a < 2 ^ 32) (hpage : a % 4096 + n ≤ 4096) (hk : k < n) (fetch : Bool) :
    m.smramRam (a + k) 1 fetch = (m.smramRam a n fetch).map (· + k) := by
  have hlast : wrap (a + (n - 1)) = a + (n - 1) := wrap_of_lt (by omega)
  have htseg : m.inTseg (a + k) = m.inTseg a := h.inTseg_page (inPage_samePage hpage hk)
  have hstop : m.inTseg (a + (n - 1)) = m.inTseg a :=
    h.inTseg_page (inPage_samePage hpage (by omega))
  rw [smramRam_byte (inPage_lt ha hpage hk), smramRam, hlast, htseg, hstop, compatibleSmram,
    highSmram, smramSize]
  by_cases hcompatible : 0xA0000 ≤ a ∧ a + (n - 1) < 0xA0000 + 0x20000
  · rw [if_pos (by omega), if_pos hcompatible]
    cases m.compatibleOpen fetch <;> rfl
  · rw [if_neg (by omega), if_neg hcompatible]
    by_cases hhigh : 0xFEDA0000 ≤ a ∧ a + (n - 1) < 0xFEDA0000 + 0x20000
    · rw [if_pos (by omega), if_pos hhigh]
      cases m.hSmrame && (m.dOpen || m.gSmrame && m.smmActive) with
      | false => rfl
      | true =>
        refine congrArg some ?_
        change a + k - 0xFEDA0000 + 0xA0000 = a - 0xFEDA0000 + 0xA0000 + k
        omega
    · rw [if_neg (by omega), if_neg hhigh, Bool.and_self]
      cases m.inTseg a && m.smmActive <;> rfl

end Accepted

end Layout

end V86.Bus
