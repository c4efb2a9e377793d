import V86.Bus.Decoding

/-!
# Wide accesses and their bytes

The accesses of 2 to 16 bytes are those of their bytes wherever the bytes are memory, but for two
inputs. An access that wraps around is taken for one of compatible SMRAM, and reads of 2, 8 and 16
bytes look for device memory before they look for what decodes in front of it, which `read32s` and
all writes do the other way round.
-/

namespace V86.Bus

open Bytes

variable {δ : Type} {m : Layout} {d : Devices δ} {s : Store δ} {a b n k : Nat}
  {l : Nat → Location}

/-- The widths of the accesses. -/
inductive Width where
  | word
  | dword
  | qword
  | oword
  deriving DecidableEq

def Width.bytes : Width → Nat
  | .word => 2
  | .dword => 4
  | .qword => 8
  | .oword => 16

namespace Layout

variable (m : Layout)

def read (d : Devices δ) : Width → Nat → Access δ Nat
  | .word => m.read16 d
  | .dword => m.read32 d
  | .qword => m.read64 d
  | .oword => m.read128 d

def write (d : Devices δ) : Width → Nat → Nat → Access δ Unit
  | .word => m.write16 d
  | .dword => m.write32 d
  | .qword => m.write64 d
  | .oword => m.write128 d

/-- `read8` looks the byte up in device memory. -/
def DeviceByte (a : Nat) : Prop :=
  m.inMappedRange a = true ∧ m.smramRam a 1 false = none ∧ m.lowRamHole a = false ∧
    apertureContains a = false

/-- The byte is RAM at its own address. -/
def RamByte (a : Nat) : Prop := m.inMappedRange a = false ∨ m.smramRam a 1 false = some a

/-- The access does not wrap around into open SMRAM. -/
def NoSmramWrap (a n : Nat) : Prop := a + n ≤ 2 ^ 32 ∨ m.compatibleOpen false = false

/-- When a read is that of its bytes: what `find` returns for all of it is what `read8` returns for
each of them. -/
structure ReadFair (w : Width) (a : Nat) : Prop where
  noWrap : m.NoSmramWrap a w.bytes
  device : w ≠ .dword → m.mappedWidth a w.bytes = true → m.smramRam a w.bytes false = none →
    ∀ host, m.find a w.bytes = some host → ∀ k < w.bytes,
      m.DeviceByte (wrap (a + k)) ∧ m.find (wrap (a + k)) 1 = some (host.1, host.2 + k)

/-- When a write is that of its bytes: the writes of 8 and 16 bytes, which the callers do in one
page, look at their first byte only. -/
structure WriteFair (w : Width) (a : Nat) : Prop where
  noWrap : m.NoSmramWrap a w.bytes
  ram : w = .qword ∨ w = .oword → m.inMappedRange a = false → ∀ k < w.bytes, m.RamByte (a + k)

variable {m}

/-! ## The locations of bytes -/

theorem locate_region_iff {i offset : Nat} : m.locate b = some (.region i offset) ↔
    m.DeviceByte b ∧ m.find b 1 = some (i, offset) := by
  rw [locate, DeviceByte]
  cases m.inMappedRange b with
  | false => simp
  | true =>
    cases m.smramRam b 1 false with
    | some ram => simp
    | none =>
      cases m.lowRamHole b with
      | true => simp
      | false =>
        cases apertureContains b with
        | true =>
          cases m.longMode with
          | false => simp
          | true => cases m.apertureGuest b <;> simp
        | false =>
          cases m.find b 1 with
          | none => simp
          | some host => simp [Prod.ext_iff]

theorem locate_of_deviceByte (h : m.DeviceByte b) :
    m.locate b = (m.find b 1).map fun host => .region host.1 host.2 := by
  obtain ⟨hmapped, hram, hhole, haperture⟩ := h
  rw [locate, hmapped, hram, hhole, haperture]
  rfl

theorem locate_of_unmapped (h : m.inMappedRange b = false) : m.locate b = some (.ram b) := by
  rw [locate, h]
  rfl

theorem locate_of_smram {r : Nat} (hmapped : m.inMappedRange b = true)
    (h : m.smramRam b 1 false = some r) : m.locate b = some (.ram r) := by
  rw [locate, hmapped, h]
  rfl

theorem locate_of_aperture (hmapped : m.inMappedRange b = true)
    (hram : m.smramRam b 1 false = none) (hhole : m.lowRamHole b = false)
    (h : apertureContains b = true) (hlong : m.longMode = true) :
    m.locate b = some (((m.apertureGuest b).map .extended).getD .hole) := by
  rw [locate, hmapped, hram, hhole, h, hlong]
  rfl

theorem locate_ram {r : Nat} (h : m.locate b = some (.ram r)) : m.inMappedRange b = false ∧ r = b ∨
      m.inMappedRange b = true ∧ m.smramRam b 1 false = some r := by
  rw [locate] at h
  cases hmapped : m.inMappedRange b with
  | false =>
    rw [hmapped] at h
    cases h
    exact .inl ⟨rfl, rfl⟩
  | true =>
    refine .inr ⟨rfl, ?_⟩
    rw [hmapped] at h
    cases hram : m.smramRam b 1 false with
    | some ram =>
      rw [hram] at h
      cases h
      rfl
    | none =>
      rw [hram] at h
      cases hhole : m.lowRamHole b with
      | true =>
        rw [hhole] at h
        cases h
      | false =>
        cases haperture : apertureContains b with
        | true =>
          rw [hhole, haperture] at h
          cases hlong : m.longMode with
          | false =>
            rw [hlong] at h
            cases h
          | true =>
            rw [hlong] at h
            cases hguest : m.apertureGuest b <;> (rw [hguest] at h; cases h)
        | false =>
          rw [hhole, haperture] at h
          cases hfind : m.find b 1 <;> (rw [hfind] at h; cases h)

theorem locate_ram_self_iff : m.locate b = some (.ram b) ↔ m.RamByte b := by
  refine ⟨fun h => (locate_ram h).imp And.left And.right, fun h => ?_⟩
  cases hmapped : m.inMappedRange b with
  | false => exact locate_of_unmapped hmapped
  | true =>
    obtain hfalse | hram := h
    · rw [hmapped] at hfalse
      cases hfalse
    · exact locate_of_smram hmapped hram

/-! ## The locations of an access -/

namespace Accepted

variable (h : m.Accepted)
include h

theorem lt_of_unmapped (hmapped : m.inMappedRange a = false) : a < 2 ^ 31 := by
  by_contra hhigh
  rw [h.inMappedRange_of_high (Nat.le_of_not_lt hhigh)] at hmapped
  cases hmapped

/-- An access that the width test leaves to RAM is one of RAM. -/
theorem unmapped_all (hn : n ≤ 16) (hwidth : m.mappedWidth a n = false) (hk : k < n) :
    m.locate (a + k) = some (.ram (a + k)) := by
  rw [mappedWidth, Bool.or_eq_false_iff] at hwidth
  obtain ⟨hfirst, hlast⟩ := hwidth
  have ha := h.lt_of_unmapped hfirst
  rw [wrap_of_lt (by omega)] at hlast
  refine locate_of_unmapped ?_
  by_cases hpage : a % 4096 + k < 4096
  · rw [h.inMappedRange_page (b := a) (by rw [SamePage]; omega), hfirst]
  · rw [decide_eq_true (by omega : a % 4096 > 4096 - n), Bool.true_and] at hlast
    rw [h.inMappedRange_page (b := a + (n - 1)) (by rw [SamePage]; omega), hlast]

theorem vga_unlocated (hb : 0xA0000 ≤ b ∧ b < 0xC0000) (hsmm : m.smmActive = true)
    (hram : m.smramRam b 1 false = none) : m.locate b = none := by
  have hhole : m.lowRamHole b = false := by
    rw [Bool.eq_false_iff]
    intro hhole
    obtain hhole | ⟨-, hsmm'⟩ := h.lowRamHole_iff.1 hhole
    · have := (h.hole_lt hhole).2
      omega
    · rw [hsmm] at hsmm'
      cases hsmm'
  have haperture : apertureContains b = false := by
    rw [Bool.eq_false_iff]
    intro haperture
    have := (apertureContains_iff (by omega)).1 haperture
    omega
  rw [locate_of_deviceByte ⟨h.inMappedRange_iff.2 (.inl hb), hram, hhole, haperture⟩,
    h.find_low (by omega)]
  rfl

/-- The bytes of an access of SMRAM that does not wrap around are those of SMRAM. -/
theorem smram_all {r : Nat} (hend : a + n ≤ 2 ^ 32) (hram : m.smramRam a n false = some r)
    (hk : k < n) (hl : (m.locate (a + k)).isSome) : m.locate (a + k) = some (.ram (r + k)) := by
  have hlast : wrap (a + (n - 1)) = a + (n - 1) := wrap_of_lt (by omega)
  have hbyte := smramRam_byte (m := m) (a := a + k) (by omega) false
  rw [smramRam, hlast, compatibleSmram, highSmram, smramSize] at hram
  split at hram
  · next hcompatible =>
    rw [if_pos (by omega)] at hbyte
    split at hram
    · next hopen =>
      cases hram
      rw [if_pos hopen] at hbyte
      exact locate_of_smram (h.inMappedRange_iff.2 (.inl (by omega))) hbyte
    · cases hram
  · next hcompatible =>
    split at hram
    · next hhigh =>
      rw [if_neg (by omega), if_pos (by omega)] at hbyte
      split at hram
      · next hopen =>
        cases hram
        rw [if_pos hopen] at hbyte
        rw [show a - 0xFEDA0000 + 0xA0000 + k = a + k - 0xFEDA0000 + 0xA0000 by omega]
        exact locate_of_smram (h.inMappedRange_of_high (by omega)) hbyte
      · cases hram
    · next hhigh =>
      split at hram
      · next htseg =>
        cases hram
        rw [Bool.and_eq_true, Bool.and_eq_true, inTseg_iff, inTseg_iff] at htseg
        obtain ⟨⟨hfirst, hstop⟩, hsmm⟩ := htseg
        have hin : m.inTseg (a + k) = true := inTseg_iff.2 (by omega)
        have hmapped := h.inMappedRange_iff.2 (.inr (.inr (.inr hin)))
        have hmemory := h.memorySize.2
        have hlt := h.tseg_lt hin
        by_cases hvga : 0xA0000 ≤ a + k ∧ a + k < 0xC0000
        · -- the VGA window decodes in front of TSEG
          rw [if_pos hvga] at hbyte
          split at hbyte
          · exact locate_of_smram hmapped hbyte
          · rw [h.vga_unlocated hvga hsmm hbyte] at hl
            cases hl
        · rw [if_neg hvga, if_neg (by omega), hin, hsmm] at hbyte
          exact locate_of_smram hmapped hbyte
      · cases hram

theorem mapped_of_smram {r : Nat} (hn : n ≤ 16) (hram : m.smramRam a n false = some r) :
    m.inMappedRange a = true := by
  have hlast : wrap (a + (n - 1)) = (a + (n - 1)) % 2 ^ 32 := rfl
  rw [smramRam, compatibleSmram, highSmram, smramSize] at hram
  split at hram
  · next hcompatible =>
    by_cases hvga : a < 0xC0000
    · exact h.inMappedRange_iff.2 (.inl ⟨hcompatible.1, hvga⟩)
    · exact h.inMappedRange_of_high (by omega)
  · split at hram
    · next hhigh => exact h.inMappedRange_of_high (by omega)
    · split at hram
      · next htseg =>
        rw [Bool.and_eq_true, Bool.and_eq_true] at htseg
        exact h.inMappedRange_iff.2 (.inr (.inr (.inr htseg.1.1)))
      · cases hram

/-- An access of one page that is neither SMRAM nor of what decodes in front of device memory. -/
theorem device_all (ha : a < 2 ^ 32) (hpage : a % 4096 + n ≤ 4096)
    (hmapped : m.inMappedRange a = true) (hram : m.smramRam a n false = none)
    (hhole : m.lowRamHole a = false) (haperture : apertureContains a = false) (hk : k < n) :
    m.locate (a + k) = (m.find a n).map fun host => .region host.1 (host.2 + k) := by
  have hsame := inPage_samePage hpage hk
  have hbyte : m.DeviceByte (a + k) := by
    refine ⟨(h.inMappedRange_page hsame).trans hmapped, ?_, (h.lowRamHole_page hsame).trans hhole,
      (apertureContains_page (inPage_lt ha hpage hk) ha hsame).trans haperture⟩
    rw [h.smramRam_page ha hpage hk, hram]
    rfl
  rw [locate_of_deviceByte hbyte, h.find_page ha hpage hk, Option.map_map]
  rfl

end Accepted

theorem wrap_lt (a : Nat) : wrap a < 2 ^ 32 := Nat.mod_lt a (Nat.two_pow_pos 32)

theorem wrap_add (a k : Nat) : wrap (wrap a + k) = wrap (a + k) := Nat.mod_add_mod a (2 ^ 32) k

theorem NoSmramWrap.end_le {r : Nat} (h : m.NoSmramWrap a n) (ha : a < 2 ^ 32) (hn : n ≤ 16)
    (hram : m.smramRam a n false = some r) : a + n ≤ 2 ^ 32 := by
  obtain hend | hclosed := h
  · exact hend
  · by_contra hwrap
    rw [smramRam_wrap (by omega) ha (by omega) hn, hclosed] at hram
    cases hram

/-- A part of the access does not wrap around either. -/
theorem NoSmramWrap.part {c : Nat} (h : m.NoSmramWrap a n) (hpart : k + c ≤ n) :
    m.NoSmramWrap (wrap (a + k)) c := by
  obtain hend | hclosed := h
  · have hle : wrap (a + k) ≤ a + k := Nat.mod_le _ _
    exact .inl (by omega)
  · exact .inr hclosed

/-! ## The paths of the wide accesses -/

theorem read_of_unmapped (w : Width) (h : m.mappedWidth a w.bytes = false) :
    m.read d w a = load w.bytes a := by
  have hfalse := Bool.eq_false_iff.1 h
  cases w with
  | word => exact if_neg hfalse
  | dword => exact if_neg hfalse
  | qword => exact if_neg hfalse
  | oword => exact if_neg hfalse

theorem read_of_smram (w : Width) {r : Nat} (h : m.mappedWidth a w.bytes = true)
    (hram : m.smramRam a w.bytes false = some r) : m.read d w a = load w.bytes r := by
  cases w with
  | word =>
    rw [Width.bytes] at h hram
    rw [read, read16, if_pos h, hram]
    rfl
  | dword =>
    rw [Width.bytes] at h hram
    rw [read, read32, if_pos h, read32Mapped, hram]
    rfl
  | qword =>
    rw [Width.bytes] at h hram
    rw [read, read64, if_pos h, hram]
    rfl
  | oword =>
    rw [Width.bytes] at h hram
    rw [read, read128, if_pos h, hram]
    rfl

theorem read_of_find {w : Width} {host : Nat × Nat} (hw : w ≠ .dword)
    (h : m.mappedWidth a w.bytes = true) (hram : m.smramRam a w.bytes false = none)
    (hfind : m.find a w.bytes = some host) : m.read d w a = readHost w.bytes host := by
  cases w with
  | word =>
    rw [Width.bytes] at h hram hfind
    rw [read, read16, if_pos h, hram]
    dsimp only
    rw [hfind]
    rfl
  | dword => exact absurd rfl hw
  | qword =>
    rw [Width.bytes] at h hram hfind
    rw [read, read64, if_pos h, hram]
    dsimp only
    rw [hfind]
    rfl
  | oword =>
    rw [Width.bytes] at h hram hfind
    rw [read, read128, if_pos h, hram]
    dsimp only
    rw [hfind]
    rfl

theorem write_of_smram (w : Width) {r : Nat} (h : m.inMappedRange a = true)
    (hram : m.smramRam a w.bytes false = some r) (value : BitVec (8 * w.bytes)) :
    m.write d w a value.toNat = store w.bytes r value.toNat := by
  have hwidth (n : Nat) : m.mappedWidth a n = true := by rw [mappedWidth, h, Bool.true_or]
  cases w with
  | word =>
    rw [Width.bytes] at hram
    have hlt : value.toNat < 2 ^ 16 := value.isLt
    rw [write, write16, if_pos (hwidth 2), mmapWrite16, hram, Nat.mod_eq_of_lt hlt]
    rfl
  | dword =>
    rw [Width.bytes] at hram
    rw [write, write32, if_pos (hwidth 4), mmapWrite32, hram]
    rfl
  | qword =>
    rw [Width.bytes] at hram
    rw [write, write64, if_pos h, mmapWrite64, hram]
    rfl
  | oword =>
    rw [Width.bytes] at hram
    rw [write, write128, if_pos h, mmapWrite128, hram]
    rfl

end Layout

/-! ## Numbers of several parts -/

namespace Store

theorem getAll_or (s : Store δ) (l : Nat → Location) (n k : Nat) :
    s.getAll l n ||| s.getAll (fun i => l (n + i)) k <<< (8 * n) = s.getAll l (n + k) := by
  have hpow : 256 ^ n = 2 ^ (8 * n) := (Nat.pow_mul 2 8 n).symm
  rw [or_shift (hpow ▸ s.getAll_lt l n), getAll_add, hpow]

theorem getAll_byte (s : Store δ) (l : Nat → Location) (k : Nat) :
    s.getAll (fun i => l (k + i)) 1 = (s.get (l k)).toNat := by
  rw [getAll_succ]
  rfl

theorem getAll_or_byte (s : Store δ) (l : Nat → Location) (n : Nat) :
    s.getAll l n ||| (s.get (l n)).toNat <<< (8 * n) = s.getAll l (n + 1) := by
  rw [← getAll_byte, getAll_or]

theorem getAll_first (s : Store δ) (l : Nat → Location) : s.getAll l 1 = (s.get (l 0)).toNat :=
  s.getAll_byte l 0 ▸ getAll_congr fun k _ => by rw [Nat.zero_add]

theorem getAll_hole (s : Store δ) : s.getAll (fun _ => .hole) 4 = 0xFFFFFFFF := by
  change ofLe ((List.range 4).map fun _ => (0xFF : Byte)) = 0xFFFFFFFF
  decide

end Store

namespace Layout.Accepted

variable (h : m.Accepted) (ha : a < 2 ^ 32)
include h ha

/-- What is left of the wide accesses after SMRAM and the bytes: device memory. -/
theorem device_of_located (hl : ∀ k < n, m.locate (wrap (a + k)) = some (l k)) (hpos : 0 < n)
    (hn : n ≤ 16) (hwidth : m.mappedWidth a n = true) (hram : m.smramRam a n false = none)
    {edge : Nat} (hedge : edge + n = 4096)
    (hbytes : (decide (a % 4096 > edge) || m.touchesLowHole a n) = false) :
    ∃ host, m.find a n = some host ∧ ∀ k < n, l k = .region host.1 (host.2 + k) := by
  obtain ⟨hpage, htouches⟩ := Bool.or_eq_false_iff.1 hbytes
  have hpage := of_decide_eq_false hpage
  rw [mappedWidth, decide_eq_false (by omega), Bool.false_and, Bool.or_false] at hwidth
  simp only [touchesLowHole, Bool.or_eq_false_iff] at htouches
  obtain ⟨⟨⟨⟨⟨hhole, -⟩, haperture⟩, -⟩, -⟩, -⟩ := htouches
  have hall {k : Nat} (hk : k < n) :
      some (l k) = (m.find a n).map fun host => .region host.1 (host.2 + k) := by
    rw [← hl k hk, wrap_of_lt (by omega)]
    exact h.device_all ha (by omega) hwidth hram hhole haperture hk
  cases hfind : m.find a n with
  | none =>
    have hnone := hall hpos
    rw [hfind] at hnone
    cases hnone
  | some host =>
    refine ⟨host, rfl, fun k hk => ?_⟩
    have hsome := hall hk
    rw [hfind] at hsome
    exact Option.some.inj hsome

/-- The bytes of an aligned dword of the aperture are those of its guest physical address. -/
theorem aperture_all (hl : ∀ k < 4, m.locate (wrap (a + k)) = some (l k)) (halign : a % 4 = 0)
    (haperture : apertureContains a = true) (hlong : m.longMode = true)
    (hram : m.smramRam a 4 false = none) :
    ∀ k < 4, l k = ((m.apertureGuest a).map fun guest => .extended (guest + k)).getD .hole := by
  intro k hk
  have hrange := (apertureContains_iff ha).1 haperture
  have hpage : a % 4096 + 4 ≤ 4096 := by omega
  have hbyte : apertureContains (a + k) = true :=
    (apertureContains_page (inPage_lt ha hpage hk) ha (inPage_samePage hpage hk)).trans haperture
  have hbyteRam : m.smramRam (a + k) 1 false = none := by
    rw [h.smramRam_page ha hpage hk, hram]
    rfl
  have hguest : m.apertureGuest (a + k) = (m.apertureGuest a).map (· + k) := by
    have hslot : (a + k - apertureBase) / pageSize = (a - apertureBase) / pageSize := by
      rw [apertureBase, pageSize]
      omega
    have hoffset : (a + k) % pageSize = a % pageSize + k := by
      rw [pageSize]
      omega
    rw [apertureGuest, apertureGuest, if_pos hbyte, if_pos haperture, hslot, hoffset]
    cases m.slotPage ((a - apertureBase) / pageSize) with
    | none => rfl
    | some page =>
      dsimp only
      split
      · rw [Option.map_some, Nat.add_assoc]
      · rfl
  have hlocate := locate_of_aperture (h.inMappedRange_of_high (by omega)) hbyteRam
    (h.lowRamHole_of_high (by omega)) hbyte hlong
  rw [hguest, Option.map_map, ← wrap_of_lt (inPage_lt ha hpage hk), hl k hk] at hlocate
  exact Option.some.inj hlocate

/-! ## The accesses of located bytes -/

omit h in
theorem read8_at (hl : ∀ k < n, m.locate (wrap (a + k)) = some (l k)) (hpos : 0 < n) :
    m.read8 d a s = ((s.get (l 0)).toNat, s) := by
  have hfirst := hl 0 hpos
  rw [Nat.add_zero, wrap_of_lt ha] at hfirst
  exact read8_of_locate hfirst s

theorem unmapped_located (hl : ∀ k < n, m.locate (wrap (a + k)) = some (l k)) (hn : n ≤ 16)
    (hwidth : m.mappedWidth a n = false) : ∀ k < n, .ram (a + k) = l k := by
  intro k hk
  have hmapped := (Bool.or_eq_false_iff.1 hwidth).1
  have hlt := h.lt_of_unmapped hmapped
  have hbyte := hl k hk
  rw [wrap_of_lt (by omega), h.unmapped_all hn hwidth hk] at hbyte
  exact Option.some.inj hbyte

theorem smram_located {r : Nat} (hl : ∀ k < n, m.locate (wrap (a + k)) = some (l k)) (hn : n ≤ 16)
    (hwrap : m.NoSmramWrap a n) (hram : m.smramRam a n false = some r) :
    ∀ k < n, .ram (r + k) = l k := by
  intro k hk
  have hend := hwrap.end_le ha hn hram
  have hbyte := hl k hk
  rw [wrap_of_lt (by omega)] at hbyte
  have hram := h.smram_all hend hram hk (by rw [hbyte]; rfl)
  rw [hbyte] at hram
  exact (Option.some.inj hram).symm

theorem read32_of_located (hl : ∀ k < 4, m.locate (wrap (a + k)) = some (l k))
    (hwrap : m.NoSmramWrap a 4) (s : Store δ) : m.read32 d a s = (s.getAll l 4, s) := by
  cases hwidth : m.mappedWidth a 4 with
  | false =>
    rw [read32, if_neg (Bool.eq_false_iff.1 hwidth), load_run,
      Store.getAll_congr (h.unmapped_located ha hl (by omega) hwidth)]
  | true =>
    rw [read32, if_pos hwidth, read32Mapped]
    cases hram : m.smramRam a 4 false with
    | some r =>
      dsimp only
      rw [load_run, Store.getAll_congr (h.smram_located ha hl (by omega) hwrap hram)]
    | none =>
      dsimp only
      split
      · next haligned =>
        simp only [Bool.and_eq_true, decide_eq_true_eq] at haligned
        obtain ⟨⟨haperture, halign⟩, hlong⟩ := haligned
        have hall := h.aperture_all ha hl halign haperture hlong hram
        rw [Store.getAll_congr hall]
        cases m.apertureGuest a with
        | some guest => exact extendedRead_run 4 guest s
        | none => exact congrArg (·, s) s.getAll_hole.symm
      · split
        · -- byte by byte
          have h₀ := read8_at (d := d) ha (s := s) hl (by omega)
          have h₁ := read8_of_locate (d := d) (hl 1 (by omega)) s
          have h₂ := read8_of_locate (d := d) (hl 2 (by omega)) s
          have h₃ := read8_of_locate (d := d) (hl 3 (by omega)) s
          simp only [bind, StateT.bind, h₀, h₁, h₂, h₃]
          change (_, s) = _
          rw [← Store.getAll_or_byte s l 3, ← Store.getAll_or_byte s l 2,
            ← Store.getAll_or_byte s l 1, Store.getAll_first]
        · next hbytes =>
          obtain ⟨host, hfind, hall⟩ :=
            h.device_of_located ha hl (by omega) (by omega) hwidth hram rfl
              (Bool.eq_false_iff.2 hbytes)
          rw [hfind, Store.getAll_congr hall]
          exact readHost_run 4 host.1 host.2 s

omit ha in
/-- A dword of a wider read. -/
theorem read32_part (hl : ∀ k < n, m.locate (wrap (a + k)) = some (l k)) (hwrap : m.NoSmramWrap a n)
    (c : Nat) (hc : c + 4 ≤ n) (s : Store δ) :
    m.read32 d (wrap (a + c)) s = (s.getAll (fun k => l (c + k)) 4, s) := by
  refine h.read32_of_located (wrap_lt (a + c)) (fun k hk => ?_) (hwrap.part hc) s
  rw [wrap_add, Nat.add_assoc]
  exact hl (c + k) (by omega)

theorem read32_first (hl : ∀ k < n, m.locate (wrap (a + k)) = some (l k))
    (hwrap : m.NoSmramWrap a n) (hn : 4 ≤ n) (s : Store δ) :
    m.read32 d a s = (s.getAll l 4, s) := by
  refine h.read32_of_located ha (fun k hk => hl k (by omega)) ?_ s
  exact hwrap.imp (fun hend => by omega) id

theorem read_of_fair {w : Width} (hl : ∀ k < w.bytes, m.locate (wrap (a + k)) = some (l k))
    (hfair : m.ReadFair w a) (s : Store δ) : m.read d w a s = (s.getAll l w.bytes, s) := by
  have hn : w.bytes ≤ 16 := by cases w <;> decide
  cases hwidth : m.mappedWidth a w.bytes with
  | false =>
    rw [read_of_unmapped w hwidth, load_run, Store.getAll_congr (h.unmapped_located ha hl hn hwidth)]
  | true =>
    cases hram : m.smramRam a w.bytes false with
    | some r =>
      rw [read_of_smram w hwidth hram, load_run,
        Store.getAll_congr (h.smram_located ha hl hn hfair.noWrap hram)]
    | none =>
      by_cases hw : w = .dword
      · subst hw
        exact h.read32_of_located ha hl hfair.noWrap s
      · cases hfind : m.find a w.bytes with
        | some host =>
          have hall : ∀ k < w.bytes, l k = .region host.1 (host.2 + k) := fun k hk => by
            have hbyte := locate_region_iff.2 (hfair.device hw hwidth hram host hfind k hk)
            rw [hl k hk] at hbyte
            exact Option.some.inj hbyte
          rw [read_of_find hw hwidth hram hfind, Store.getAll_congr hall]
          exact readHost_run w.bytes host.1 host.2 s
        | none =>
          cases w with
          | word =>
            rw [Width.bytes] at hl hwidth hram hfind
            have h₀ := read8_at (d := d) ha (s := s) hl (by omega)
            have h₁ := read8_of_locate (d := d) (hl 1 (by omega)) s
            rw [read, read16, if_pos hwidth, hram]
            dsimp only
            rw [hfind]
            simp only [bind, StateT.bind, h₀, h₁]
            change (_, s) = _
            rw [Width.bytes, ← Store.getAll_or_byte s l 1, Store.getAll_first]
          | dword => exact absurd rfl hw
          | qword =>
            have hwrap := hfair.noWrap
            rw [Width.bytes] at hl hwidth hram hfind hwrap
            have h₀ := h.read32_first (d := d) ha hl hwrap (by omega) s
            have h₁ := h.read32_part (d := d) hl hwrap 4 (by omega) s
            rw [read, read64, if_pos hwidth, hram]
            dsimp only
            rw [hfind]
            simp only [bind, StateT.bind, h₀, h₁]
            change (_, s) = _
            rw [Width.bytes, ← Store.getAll_or s l 4 4]
          | oword =>
            have hwrap := hfair.noWrap
            rw [Width.bytes] at hl hwidth hram hfind hwrap
            have h₀ := h.read32_first (d := d) ha hl hwrap (by omega) s
            have h₁ := h.read32_part (d := d) hl hwrap 4 (by omega) s
            have h₂ := h.read32_part (d := d) hl hwrap 8 (by omega) s
            have h₃ := h.read32_part (d := d) hl hwrap 12 (by omega) s
            rw [read, read128, if_pos hwidth, hram]
            dsimp only
            rw [hfind]
            simp only [bind, StateT.bind, h₀, h₁, h₂, h₃]
            change (_, s) = _
            rw [Width.bytes, ← Store.getAll_or s l 12 4, ← Store.getAll_or s l 8 4,
              ← Store.getAll_or s l 4 4]

omit h ha in
theorem writeHost_located {host : Nat × Nat} (hpos : 0 < n)
    (hall : ∀ k < n, l k = .region host.1 (host.2 + k)) (value : Nat) (s : Store δ) :
    writeHost n host value s = ((), s.putAll l value n) := by
  rw [Store.putAll_congr hall]
  exact writeHost_run hpos host.1 host.2 value s

omit h in
theorem write16_bytes (hl : ∀ k < 2, m.locate (wrap (a + k)) = some (l k)) (value : Nat)
    (s : Store δ) : (do
      m.write8 d a (value % 256)
      m.write8 d (wrap (a + 1)) (value >>> 8 % 256) : Access δ Unit) s =
        ((), s.putAll l value 2) := by
  rw [← writeEach_of_locate hl value s]
  change _ = (do
    m.write8 d (wrap (a + 0)) (value >>> 0 % 256)
    m.write8 d (wrap (a + 1)) (value >>> 8 % 256)
    pure () : Access δ Unit) s
  have hfirst : wrap (a + 0) = a := wrap_of_lt ha
  rw [hfirst, Nat.shiftRight_zero]
  rfl

variable {edge value : Nat} {each other : Access δ Unit}

/-- The writes of a width `n` after those of RAM. -/
theorem bytes_or_device (hl : ∀ k < n, m.locate (wrap (a + k)) = some (l k)) (hpos : 0 < n)
    (hn : n ≤ 16) (hwidth : m.mappedWidth a n = true) (hram : m.smramRam a n false = none)
    (hedge : edge + n = 4096) {s : Store δ} (heach : each s = ((), s.putAll l value n)) :
    (if a % 4096 > edge || m.touchesLowHole a n then each
      else
        match m.find a n with
        | some host => writeHost n host value
        | none => other : Access δ Unit) s = ((), s.putAll l value n) := by
  split
  · exact heach
  · next hbytes =>
    obtain ⟨host, hfind, hall⟩ := h.device_of_located ha hl hpos hn hwidth hram hedge
      (Bool.eq_false_iff.2 hbytes)
    rw [hfind]
    exact writeHost_located hpos hall value s

theorem write_of_unmapped (hl : ∀ k < n, m.locate (wrap (a + k)) = some (l k)) (hn : n ≤ 16)
    (hwidth : ¬m.mappedWidth a n = true) (value : Nat) (s : Store δ) :
    store n a value s = ((), s.putAll l value n) := by
  rw [store_run, Store.putAll_congr (h.unmapped_located ha hl hn (Bool.eq_false_iff.2 hwidth))]

theorem write_of_smram_located {r : Nat} (hl : ∀ k < n, m.locate (wrap (a + k)) = some (l k))
    (hn : n ≤ 16) (hwrap : m.NoSmramWrap a n) (hram : m.smramRam a n false = some r) (value : Nat)
    (s : Store δ) : store n r value s = ((), s.putAll l value n) := by
  rw [store_run, Store.putAll_congr (h.smram_located ha hl hn hwrap hram)]

/-- The writes of 8 and 16 bytes to a mapped range. -/
theorem mapped_write (hl : ∀ k < n, m.locate (wrap (a + k)) = some (l k)) (hpos : 0 < n)
    (hn : n ≤ 16) (hwrap : m.NoSmramWrap a n) (hwidth : m.mappedWidth a n = true)
    (hedge : edge + n = 4096) {s : Store δ} (heach : each s = ((), s.putAll l value n)) :
    (match m.smramRam a n false with
      | some ram => store n ram value
      | none =>
        if a % 4096 > edge || m.touchesLowHole a n then each
        else
          match m.find a n with
          | some host => writeHost n host value
          | none => other : Access δ Unit) s = ((), s.putAll l value n) := by
  cases hram : m.smramRam a n false with
  | some r => exact h.write_of_smram_located ha hl hn hwrap hram value s
  | none => exact h.bytes_or_device ha hl hpos hn hwidth hram hedge heach

omit h in
/-- A write that starts in RAM and looks at its first byte only. -/
theorem write_ram_first (hl : ∀ k < n, m.locate (wrap (a + k)) = some (l k)) (hlow : a < 2 ^ 31)
    (hn : n ≤ 16) (hram : ∀ k < n, m.RamByte (a + k)) (value : Nat) (s : Store δ) :
    store n a value s = ((), s.putAll l value n) := by
  rw [store_run, Store.putAll_congr]
  intro k hk
  have hbyte := hl k hk
  rw [wrap_of_lt (by omega), locate_ram_self_iff.2 (hram k hk)] at hbyte
  exact Option.some.inj hbyte

theorem write_of_fair {w : Width} (hl : ∀ k < w.bytes, m.locate (wrap (a + k)) = some (l k))
    (hfair : m.WriteFair w a) (value : BitVec (8 * w.bytes)) (s : Store δ) :
    m.write d w a value.toNat s = ((), s.putAll l value.toNat w.bytes) := by
  have hwrap := hfair.noWrap
  have hram := hfair.ram
  have hwidth {n : Nat} (hmapped : m.inMappedRange a = true) : m.mappedWidth a n = true := by
    rw [mappedWidth, hmapped, Bool.true_or]
  cases w with
  | word =>
    rw [Width.bytes] at hl hwrap
    rw [write, write16]
    split
    · next hwidth =>
      have hlt : value.toNat < 2 ^ 16 := value.isLt
      rw [mmapWrite16, Nat.mod_eq_of_lt hlt]
      exact h.mapped_write ha hl (by omega) (by omega) hwrap hwidth rfl
        (write16_bytes ha hl value.toNat s)
    · next hwidth => exact h.write_of_unmapped ha hl (by omega) hwidth value.toNat s
  | dword =>
    rw [Width.bytes] at hl hwrap
    rw [write, write32]
    split
    · next hwidth =>
      rw [mmapWrite32]
      cases hram : m.smramRam a 4 false with
      | some r => exact h.write_of_smram_located ha hl (by omega) hwrap hram value.toNat s
      | none =>
        dsimp only
        split
        · next haligned =>
          simp only [Bool.and_eq_true, decide_eq_true_eq] at haligned
          obtain ⟨⟨haperture, halign⟩, hlong⟩ := haligned
          change _ = ((), s.putAll l value.toNat 4)
          rw [Store.putAll_congr (h.aperture_all ha hl halign haperture hlong hram)]
          cases m.apertureGuest a with
          | some guest => exact extendedWrite_run 4 guest value.toNat s
          | none => rfl
        · exact h.bytes_or_device ha hl (by omega) (by omega) hwidth hram rfl
            (writeEach_of_locate hl value.toNat s)
    · next hwidth => exact h.write_of_unmapped ha hl (by omega) hwidth value.toNat s
  | qword | oword =>
    rw [Width.bytes] at hl hwrap hram
    first | rw [write, write64] | rw [write, write128]
    split
    · next hmapped =>
      exact h.mapped_write ha hl (by omega) (by omega) hwrap (hwidth hmapped) rfl
        (writeEach_of_locate hl value.toNat s)
    · next hmapped =>
      have hfalse := Bool.eq_false_iff.2 hmapped
      exact write_ram_first ha hl (h.lt_of_unmapped hfalse) (by omega) (hram (by simp) hfalse)
        value.toNat s

end Layout.Accepted

/-! ## Telling locations apart -/

namespace Store

/-- Zeros, but for the RAM. -/
def ofRam (b : Byte) (devices : δ) : Store δ :=
  ⟨fun _ => b, fun _ => 0, fun _ _ => 0, fun _ _ => false, devices⟩

theorem get_put {x y : Location} (hx : x ≠ .hole) (b : Byte) :
    (s.put x b).get y = if y = x then b else s.get y := by
  cases x with
  | hole => exact absurd rfl hx
  | ram i =>
    cases y with
    | ram j => simp [put, get, Function.update_apply]
    | _ => rfl
  | extended i =>
    cases y with
    | extended j => simp [put, get, Function.update_apply]
    | _ => rfl
  | region i offset =>
    cases y with
    | region j offset' =>
      by_cases hi : j = i
      · subst hi
        simp [put, get, Function.update_apply]
      · simp [put, get, hi]
    | _ => rfl

theorem get_hole (s : Store δ) : s.get .hole = 0xFF := rfl

theorem location_ext [Inhabited δ] {x y : Location} (h : ∀ s : Store δ, s.get x = s.get y) :
    x = y := by
  have hzero (x : Location) (hx : x ≠ .hole) : (ofRam 0 (default : δ)).get x = 0 := by
    cases x with
    | hole => exact absurd rfl hx
    | _ => rfl
  by_cases hx : x = .hole
  · by_contra hne
    have hy : y ≠ .hole := fun hy => hne (hx.trans hy.symm)
    have hget := h (ofRam 0 default)
    rw [hzero y hy, hx, get_hole] at hget
    exact absurd hget (by decide)
  · by_contra hne
    by_cases hy : y = .hole
    · have hget := h (ofRam 0 default)
      rw [hzero x hx, hy, get_hole] at hget
      exact absurd hget (by decide)
    · have hget := h ((ofRam 0 default).put x 1)
      rw [get_put hx, get_put hx, if_pos rfl, if_neg (Ne.symm hne), hzero y hy] at hget
      exact absurd hget (by decide)

theorem get_of_getAll {l r : Nat → Location} (h : s.getAll l n = s.getAll r n) (hk : k < n) :
    s.get (l k) = s.get (r k) := by
  induction n generalizing l r k with
  | zero => omega
  | succ n ih =>
    rw [getAll_succ, getAll_succ] at h
    have hfirst := (s.get (l 0)).toNat_lt
    have hfirst' := (s.get (r 0)).toNat_lt
    cases k with
    | zero => exact UInt8.toNat_inj.1 (by omega)
    | succ k => exact ih (l := fun k => l (k + 1)) (r := fun k => r (k + 1)) (by omega) (by omega)

theorem get_putAll_of_ne {x : Location} (h : ∀ k < n, l k ≠ x) (value : Nat) :
    (s.putAll l value n).get x = s.get x := by
  induction n with
  | zero => rfl
  | succ n ih =>
    rw [putAll]
    by_cases hhole : l n = .hole
    · rw [hhole]
      exact ih fun k hk => h k (Nat.lt_succ_of_lt hk)
    · rw [get_put hhole, if_neg (Ne.symm (h n (Nat.lt_succ_self n))),
        ih fun k hk => h k (Nat.lt_succ_of_lt hk)]

/-- What is stored in a run of RAM is stored in it only. -/
theorem exists_of_putAll [Inhabited δ]
    (h : ∀ s : Store δ, s.putAll (fun k => .ram (a + k)) 0 n = s.putAll l 0 n) (hk : k < n) :
    ∃ j < n, l j = .ram (a + k) := by
  by_contra hnone
  have hne : ∀ j < n, l j ≠ .ram (a + k) := fun j hj heq => hnone ⟨j, hj, heq⟩
  have hget := get_putAll_of_ne (s := ofRam 0xFF (default : δ)) hne 0
  have hrun : (store n a 0 (ofRam 0xFF (default : δ))).2 =
      (ofRam 0xFF default).putAll (fun k => .ram (a + k)) 0 n :=
    congrArg Prod.snd (store_run n a 0 _)
  rw [← h, ← hrun] at hget
  change putWord (fun _ => 0xFF) n a 0 (a + k) = 0xFF at hget
  rw [putWord, if_pos (by omega), byteOf, Nat.zero_div] at hget
  exact absurd hget (by decide)

end Store

namespace Layout

theorem smramRam_byte_eq {r : Nat} (hb : b < 2 ^ 32) (h : m.smramRam b 1 false = some r) :
    r = b ∨ 0xFEDA0000 ≤ b ∧ b < 0xFEDC0000 ∧ r < 0xC0000 := by
  rw [smramRam_byte hb] at h
  split at h
  · split at h
    · exact .inl (Option.some.inj h).symm
    · cases h
  · split at h
    · split at h
      · have hr := Option.some.inj h
        exact .inr (by omega)
      · cases h
    · split at h
      · exact .inl (Option.some.inj h).symm
      · cases h

namespace Accepted

variable (h : m.Accepted) (ha : a < 2 ^ 32)
include h ha

theorem not_ramByte_of_top (hhigh : 0xFEDC0000 ≤ a) : ¬m.RamByte a := by
  rintro (hmapped | hram)
  · have := h.lt_of_unmapped hmapped
    omega
  · rw [smramRam_byte ha, if_neg (by omega), if_neg (by omega), h.inTseg_of_high (by omega)] at hram
    cases hram

theorem readFair_of_bytes [Inhabited δ] {w : Width}
    (hl : ∀ k < w.bytes, m.locate (wrap (a + k)) = some (l k))
    (hread : ∀ s : Store δ, m.read d w a s = m.readEach d w.bytes a s) : m.ReadFair w a := by
  have hn : 0 < w.bytes ∧ w.bytes ≤ 16 := by cases w <;> decide
  have hvalue (s : Store δ) : (m.read d w a s).1 = s.getAll l w.bytes := by
    rw [hread, readEach_of_locate hl]
  constructor
  · by_contra hwrap
    rw [NoSmramWrap, not_or, Bool.not_eq_false] at hwrap
    obtain ⟨hend, hopen⟩ := hwrap
    have hram := smramRam_wrap (m := m) (by omega) ha (Nat.lt_of_not_le hend) hn.2 false
    rw [if_pos hopen] at hram
    have hmapped := h.mapped_of_smram hn.2 hram
    have hfirst : .ram (a + 0) = l 0 := by
      refine Store.location_ext fun s : Store δ => ?_
      refine Store.get_of_getAll (n := w.bytes) (l := fun k => .ram (a + k)) ?_ hn.1
      rw [← hvalue, read_of_smram w (by rw [mappedWidth, hmapped, Bool.true_or]) hram, load_run]
    have hlocate := hl 0 hn.1
    rw [← hfirst, wrap_of_lt (by omega)] at hlocate
    exact h.not_ramByte_of_top (a := a + 0) ha (by omega) (locate_ram_self_iff.1 hlocate)
  · intro hw hwidth hram host hfind k hk
    have hregion : .region host.1 (host.2 + k) = l k := by
      refine Store.location_ext fun s : Store δ => ?_
      refine Store.get_of_getAll (n := w.bytes) (l := fun k => .region host.1 (host.2 + k)) ?_ hk
      rw [← hvalue, read_of_find hw hwidth hram hfind]
      rfl
    rw [← locate_region_iff, hregion]
    exact hl k hk

theorem writeFair_of_bytes [Inhabited δ] {w : Width}
    (hl : ∀ k < w.bytes, m.locate (wrap (a + k)) = some (l k))
    (hwrite : ∀ (value : BitVec (8 * w.bytes)) (s : Store δ), m.write d w a value.toNat s =
      m.writeEach d a (List.range w.bytes) value.toNat s) : m.WriteFair w a := by
  have hn : 0 < w.bytes ∧ w.bytes ≤ 16 := by cases w <;> decide
  have hstore (s : Store δ) : (m.write d w a 0 s).2 = s.putAll l 0 w.bytes := by
    have hzero := hwrite 0#(8 * w.bytes) s
    rw [writeEach_of_locate hl, BitVec.toNat_zero] at hzero
    rw [hzero]
  constructor
  · by_contra hwrap
    rw [NoSmramWrap, not_or, Bool.not_eq_false] at hwrap
    obtain ⟨hend, hopen⟩ := hwrap
    have hram := smramRam_wrap (m := m) (by omega) ha (Nat.lt_of_not_le hend) hn.2 false
    rw [if_pos hopen] at hram
    have hsame (s : Store δ) : s.putAll (fun k => .ram (a + k)) 0 w.bytes =
        s.putAll l 0 w.bytes := by
      have hwide := write_of_smram (d := d) w (h.mapped_of_smram hn.2 hram) hram
        0#(8 * w.bytes)
      rw [BitVec.toNat_zero] at hwide
      rw [← hstore, hwide, store_run]
    obtain ⟨j, hj, hlj⟩ := Store.exists_of_putAll hsame hn.1
    have hlocate := hl j hj
    rw [hlj] at hlocate
    have hwrapped : wrap (a + j) = (a + j) % 2 ^ 32 := rfl
    obtain ⟨hmapped, heq⟩ | ⟨hmapped, hbyte⟩ := locate_ram hlocate
    · have := h.lt_of_unmapped hmapped
      omega
    · obtain heq | ⟨-, -, hlow⟩ := smramRam_byte_eq (wrap_lt _) hbyte
      · rw [← heq] at hbyte
        exact h.not_ramByte_of_top (a := a + 0) ha (by omega) (.inr hbyte)
      · omega
  · intro hw hmapped k hk
    have hlow := h.lt_of_unmapped hmapped
    have hsame (s : Store δ) : s.putAll (fun k => .ram (a + k)) 0 w.bytes =
        s.putAll l 0 w.bytes := by
      rw [← hstore]
      obtain hw | hw := hw
      · subst hw
        rw [write, write64, if_neg (Bool.eq_false_iff.1 hmapped), store_run]
        rfl
      · subst hw
        rw [write, write128, if_neg (Bool.eq_false_iff.1 hmapped), store_run]
        rfl
    obtain ⟨j, hj, hlj⟩ := Store.exists_of_putAll hsame hk
    have hlocate := hl j hj
    rw [hlj, wrap_of_lt (by omega)] at hlocate
    obtain ⟨hbyte, heq⟩ | ⟨hbyte, hram⟩ := locate_ram hlocate
    · exact .inl (heq ▸ hbyte)
    · obtain heq | ⟨hhigh, -⟩ := smramRam_byte_eq (by omega) hram
      · exact .inr (heq ▸ hram)
      · omega

end Accepted

/-! ## A wide access and the accesses of its bytes -/

/-- A wide read is that of its bytes, whatever they are, exactly if it is fair, and so for writes. -/
theorem wide_iff_fair [Inhabited δ] (m : Layout) (d : Devices δ) (h : m.Accepted) (w : Width)
    (a : BitVec 32) (hlocated : ∀ k < w.bytes, (m.locate (wrap (a.toNat + k))).isSome) :
    ((∀ s : Store δ, m.read d w a.toNat s = m.readEach d w.bytes a.toNat s) ↔
      m.ReadFair w a.toNat) ∧
    ((∀ (value : BitVec (8 * w.bytes)) (s : Store δ), m.write d w a.toNat value.toNat s =
        m.writeEach d a.toNat (List.range w.bytes) value.toNat s) ↔ m.WriteFair w a.toNat) := by
  have hl : ∀ k < w.bytes, m.locate (wrap (a.toNat + k)) =
      some ((m.locate (wrap (a.toNat + k))).getD .hole) := fun k hk => by
    obtain ⟨l, hl⟩ := Option.isSome_iff_exists.1 (hlocated k hk)
    rw [hl]
    rfl
  refine ⟨⟨h.readFair_of_bytes a.isLt hl, fun hfair s => ?_⟩,
    ⟨h.writeFair_of_bytes a.isLt hl, fun hfair value s => ?_⟩⟩
  · rw [h.read_of_fair a.isLt hl hfair, readEach_of_locate hl]
  · rw [h.write_of_fair a.isLt hl hfair, writeEach_of_locate hl]

/-- 64 MiB of RAM, the last 16 of them relocated to 4 GiB, with device memory in the hole. -/
def relocated : Layout where
  memorySize := 0x4000000
  ramFastLimit := 0x3000000
  bus :=
    { windows := fun i => if i = 0 then some ⟨0x100000000, 0x3000000, 0x1000000, .ram⟩ else none
      generation := 2 }
  tsegBase := 0
  tsegEnd := 0
  smmActive := false
  smramControl := 0x02
  longMode := false
  base := 0x101000000
  pages := 0
  slotPage := fun _ => none
  regions := [⟨0x3000000, 0x1000, true⟩]

/-- Devices that are not there. -/
def noDevices : Devices Unit where
  mmapRead8 _ := pure 0xFF
  mmapRead32 _ := pure 0xFFFFFFFF
  mmapWrite8 _ _ := pure ()
  mmapWrite16 _ _ := pure ()
  mmapWrite32 _ _ := pure ()
  mmapWrite64 _ _ := pure ()
  mmapWrite128 _ _ := pure ()
  apicRead32 _ := pure 0
  apicWrite32 _ _ := pure ()
  ioapicRead32 _ := pure 0
  ioapicWrite32 _ _ := pure ()

theorem relocated_accepted : relocated.Accepted where
  memorySize := by decide
  windows := by decide
  tseg := by decide
  ramFastLimit := by decide
  regions := by decide

theorem wide_iff_fair_ram : relocated.locate (wrap (0x2FFFFFF#32).toNat) = some (.ram 0x2FFFFFF) ∧
      (((∀ s : Store Unit, relocated.read noDevices .word (0x2FFFFFF#32).toNat s =
          relocated.readEach noDevices 2 (0x2FFFFFF#32).toNat s) ↔
        relocated.ReadFair .word (0x2FFFFFF#32).toNat) ∧ ((∀ (value : BitVec 16) (s : Store Unit),
          relocated.write noDevices .word (0x2FFFFFF#32).toNat value.toNat s =
            relocated.writeEach noDevices (0x2FFFFFF#32).toNat (List.range 2) value.toNat s) ↔
        relocated.WriteFair .word (0x2FFFFFF#32).toNat)) :=
  ⟨by decide, wide_iff_fair relocated noDevices relocated_accepted .word 0x2FFFFFF#32 (by decide)⟩

/-- In the low hole, reads of two bytes find the device memory that those of one byte do not. -/
theorem low_hole_mixed : ¬∀ (m : Layout) (d : Devices Unit), m.Accepted →
    ∀ (w : Width) (a : BitVec 32), (∀ k < w.bytes, (m.locate (wrap (a.toNat + k))).isSome) →
      ∀ s : Store Unit, m.read d w a.toNat s = m.readEach d w.bytes a.toNat s := by
  intro h
  have heq := h relocated noDevices relocated_accepted .word 0x3000000#32 (by decide)
    (Store.ofRam 0 ())
  have hwide : (relocated.read noDevices .word (0x3000000#32).toNat (Store.ofRam 0 ())).1 = 0 := by
    decide
  have hbytes : (relocated.readEach noDevices 2 (0x3000000#32).toNat (Store.ofRam 0 ())).1 =
      0xFFFF := by decide
  rw [heq] at hwide
  exact absurd (hwide.symm.trans hbytes) (by decide)

end Layout

end V86.Bus
