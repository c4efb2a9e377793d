import V86.Bus.Windows

/-!
# Accesses of the physical bus

What an address resolves to decides what an access does: the shortcuts for plain RAM and for pages
of extended RAM agree with the windows (`resolve_of_plain`, `resolve_of_contains`), no byte of RAM has
two addresses, and an access is that of its bytes one after the other unless it is one of a device
(`physicalRead_each`, `physicalWrite_each`).
-/

namespace V86.Bus

open List

variable {δ : Type} {m : Layout} {d : Devices δ} {s : Store δ} {a b n k : Nat} {w : Window}
  {r : Resolved}

/-! ## Resolution -/

-- the equations that several proofs ask for are made once, before them: here, and in each module
-- that tags a definition so
attribute [local simp] Layout.writeParts

theorem find?_list (h : (m.bus.list.find? fun w => w.decodes a) = some w) :
    (∃ i, m.bus.windows i = some w) ∧ w.decodes a :=
  ⟨mem_list.1 (List.mem_of_find?_eq_some h),
    of_decide_eq_true (List.find?_some (p := fun w : Window => decide (w.decodes a)) h)⟩

/-- What decodes an address. -/
inductive Decodes (m : Layout) (a : Nat) : Resolved → Prop
  | low (h : a < highMemoryBase) (haperture : apertureContains a = false)
    (hhole : m.isLowRamHole a = false) : Decodes m a ⟨a,
      if m.memorySize ≤ a ∨ 0xA0000 ≤ a ∧ a < 0xC0000 ∨ m.tsegBlackhole a then .mmio else .ram⟩
  | window {w : Window} {i : Fin 16} (h : highMemoryBase ≤ a) (hi : m.bus.windows i = some w)
    (hdecodes : w.decodes a) :
    Decodes m a ⟨wrap (w.backing.toNat + (a - w.guestBase.toNat)), w.kind⟩
  | extended (h : highMemoryBase ≤ a) (hcontains : m.contains a = true) :
    Decodes m a ⟨0, .extended⟩

theorem decodes_of_resolve (h : m.resolve a = .ok r) : a < physicalLimit ∧ Decodes m a r := by
  simp only [Layout.resolve, bind, Except.bind, throw, throwThe, MonadExceptOf.throw, pure,
    Except.pure] at h
  split at h
  · cases h
  · next hrange =>
    refine ⟨(checkedRange_iff.1 hrange).2, ?_⟩
    split at h
    · next hlow =>
      split at h
      · cases h
      · next haperture =>
        split at h
        · cases h
        · next hhole =>
          cases h
          exact .low hlow (Bool.eq_false_iff.2 haperture) (Bool.eq_false_iff.2 hhole)
    · next hhigh =>
      split at h
      · next w hfind =>
        cases h
        obtain ⟨⟨i, hi⟩, hdecodes⟩ := find?_list hfind
        exact .window (Nat.le_of_not_lt hhigh) hi hdecodes
      · split at h
        · next hcontains =>
          cases h
          exact .extended (Nat.le_of_not_lt hhigh) hcontains
        · cases h

theorem resolve_of_low (h : a < highMemoryBase) (haperture : apertureContains a = false)
    (hhole : m.isLowRamHole a = false) : m.resolve a = .ok ⟨a,
      if m.memorySize ≤ a ∨ 0xA0000 ≤ a ∧ a < 0xC0000 ∨ m.tsegBlackhole a then .mmio else .ram⟩ := by
  have hrange : checkedRange a 1 = .ok () := by
    rw [checkedRange_iff, physicalLimit]
    rw [highMemoryBase] at h
    omega
  simp only [Layout.resolve, bind, Except.bind, hrange, if_pos h, haperture, hhole,
    Bool.false_eq_true, if_false]
  rfl

namespace Layout.Sound

variable (h : m.Sound)
include h

theorem backing_lt {i : Fin 16} (hi : m.bus.windows i = some w) (hdecodes : w.decodes a) :
    w.backing.toNat + (a - w.guestBase.toNat) < w.backingEnd ∧ w.backingEnd ≤ highMemoryBase := by
  refine ⟨?_, (h.bus.window i w hi).backingEnd⟩
  rw [Window.backingEnd]
  exact Nat.add_lt_add_left hdecodes.2 _

theorem wrap_backing {i : Fin 16} (hi : m.bus.windows i = some w) (hdecodes : w.decodes a) :
    wrap (w.backing.toNat + (a - w.guestBase.toNat)) =
      w.backing.toNat + (a - w.guestBase.toNat) := by
  obtain ⟨hlt, hend⟩ := h.backing_lt hi hdecodes
  exact wrap_of_lt (Nat.lt_of_lt_of_le hlt hend)

theorem contains_iff (ha : a < 2 ^ 64) :
    m.contains a = true ↔ m.pages ≠ 0 ∧ m.base ≤ a ∧ a < m.base + m.pages * pageSize := by
  rw [Layout.contains, decide_eq_true_eq, pageSize]
  by_cases hpages : m.pages = 0
  · rw [hpages]
    omega
  · obtain ⟨hbase, -, hend⟩ := h.extended hpages
    rw [physicalLimit, pageSize] at hend
    omega

/-- No window shows an address of extended RAM. -/
theorem not_decodes_of_contains (ha : a < 2 ^ 64) (hcontains : m.contains a = true) {i : Fin 16}
    (hi : m.bus.windows i = some w) : ¬w.decodes a := by
  obtain ⟨hpages, hbase, hend⟩ := (h.contains_iff ha).1 hcontains
  have hextended := (h.bus.window i w hi).extended (m.base, m.base + m.pages * pageSize)
    (by rw [extendedRange, if_pos hpages]; rfl)
  rintro ⟨hguest, hlength⟩
  rw [overlaps, Window.guestEnd] at hextended
  dsimp only at hextended
  omega

theorem resolve_of_contains (ha : a < 2 ^ 64) (hcontains : m.contains a = true) :
    m.resolve a = .ok ⟨0, .extended⟩ := by
  obtain ⟨hpages, hbase, hend⟩ := (h.contains_iff ha).1 hcontains
  obtain ⟨hlow, -, hlimit⟩ := h.extended hpages
  have hrange : checkedRange a 1 = .ok () := by
    rw [checkedRange_iff]
    omega
  have hfind : (m.bus.list.find? fun w => w.decodes a) = none := by
    rw [List.find?_eq_none]
    intro w hw hdecodes
    obtain ⟨i, hi⟩ := mem_list.1 hw
    exact h.not_decodes_of_contains ha hcontains hi (of_decide_eq_true hdecodes)
  simp only [resolve, bind, Except.bind, hrange, if_neg (Nat.not_lt.2 (Nat.le_trans hlow hbase)),
    hfind, hcontains, if_true]
  rfl

/-- RAM that no window relocates, below TSEG and outside of the VGA window. -/
theorem resolve_of_plain {width : Nat} (hplain : m.plainRam a width = true) (hwidth : width < 2 ^ 32)
    (ha : a < 2 ^ 64) (hk : k < width) : m.resolve (a + k) = .ok ⟨a + k, .ram⟩ := by
  simp only [plainRam, Bool.and_eq_true, Bool.or_eq_true, decide_eq_true_eq] at hplain
  obtain ⟨⟨hstart, hlimit⟩, hvga⟩ := hplain
  have hmemory := h.memorySize.2
  have hfast := fastLimit_le m
  rw [h.ramFastLimit] at hlimit
  have hbelow : a + k < m.fastLimit := by omega
  have haperture : apertureContains (a + k) = false := by
    rw [Bool.eq_false_iff]
    intro haperture
    have := (apertureContains_iff (by omega)).1 haperture
    omega
  have hhole : m.isLowRamHole (a + k) = false := by
    rw [Bool.eq_false_iff]
    intro hhole
    exact absurd (fastLimit_le_of_hole hhole) (by omega)
  have htseg : m.tsegBlackhole (a + k) = false := by
    rw [Bool.eq_false_iff, tsegBlackhole, Ne, Bool.and_eq_true]
    intro htseg
    exact absurd (fastLimit_le_of_tseg htseg.1) (by omega)
  rw [resolve_of_low (by rw [highMemoryBase]; omega) haperture hhole, htseg, if_neg]
  rintro (hram | hin | hfalse)
  · omega
  · omega
  · cases hfalse

/-- Two addresses of one byte of RAM are the same. -/
theorem resolve_injective {a' : Nat} (hram : m.resolve a = .ok ⟨b, .ram⟩)
    (hram' : m.resolve a' = .ok ⟨b, .ram⟩) : a = a' := by
  have hhole {a : Nat} {w : Window} {i : Fin 16} (hi : m.bus.windows i = some w)
      (hkind : w.kind = .ram) (hdecodes : w.decodes a)
      (hhole : m.isLowRamHole (w.backing.toNat + (a - w.guestBase.toNat)) = false) : False := by
    rw [Bool.eq_false_iff] at hhole
    refine hhole (isLowRamHole_iff.2 ⟨w, mem_list.2 ⟨i, hi⟩, hkind, Nat.le_add_right _ _, ?_⟩)
    exact Nat.add_lt_add_left hdecodes.2 _
  have hcases {a : Nat} {r : Resolved} (hd : Decodes m a r) (hr : r = ⟨b, .ram⟩) :
      a = b ∧ m.isLowRamHole b = false ∨ ∃ i w, m.bus.windows i = some w ∧ w.kind = .ram ∧
        w.decodes a ∧ b = w.backing.toNat + (a - w.guestBase.toNat) := by
    cases hd with
    | low hlow haperture hhole =>
      have hb : a = b := congrArg Resolved.backing hr
      exact .inl ⟨hb, hb ▸ hhole⟩
    | window hhigh hi hdecodes =>
      have hb := congrArg Resolved.backing hr
      rw [h.wrap_backing hi hdecodes] at hb
      exact .inr ⟨_, _, hi, congrArg Resolved.kind hr, hdecodes, hb.symm⟩
    | extended hhigh hcontains => cases hr
  obtain ⟨rfl, hopen⟩ | ⟨i, w, hi, hkind, hdecodes, hb⟩ := hcases (decodes_of_resolve hram).2 rfl
  · obtain ⟨rfl, -⟩ | ⟨j, w', hj, hkind', hdecodes', hb'⟩ :=
      hcases (decodes_of_resolve hram').2 rfl
    · rfl
    · rw [hb'] at hopen
      exact (hhole hj hkind' hdecodes' hopen).elim
  · obtain ⟨rfl, hopen⟩ | ⟨j, w', hj, hkind', hdecodes', hb'⟩ :=
      hcases (decodes_of_resolve hram').2 rfl
    · rw [hb] at hopen
      exact (hhole hi hkind hdecodes hopen).elim
    · obtain ⟨hbase, hlength⟩ := hdecodes
      obtain ⟨hbase', hlength'⟩ := hdecodes'
      by_cases hij : i = j
      · subst hij
        cases hi.symm.trans hj
        omega
      · refine absurd (.inr ⟨hkind, hkind', ?_⟩) (h.bus.apart i j w w' hij hi hj)
        rw [overlaps, Window.backingEnd, Window.backingEnd]
        omega

end Layout.Sound

/-! ## All bytes of an access -/

theorem resolveAll_ok {r : Nat → Resolved} (h : ∀ k < n, m.resolve (a + k) = .ok (r k)) :
    m.resolveAll a n = .ok ((List.range n).map r) := by
  have hmap (l : List Nat) (hl : ∀ k ∈ l, m.resolve (a + k) = .ok (r k)) :
      (l.mapM fun k => m.resolve (a + k)) = .ok (l.map r) := by
    induction l with
    | nil => rfl
    | cons k l ih =>
      rw [mapM_cons, hl k mem_cons_self, ih fun j hj => hl j (mem_cons_of_mem _ hj)]
      rfl
  exact hmap _ fun k hk => h k (List.mem_range.1 hk)

theorem resolve_of_resolveAll {bytes : List Resolved} (h : m.resolveAll a n = .ok bytes) :
    ∀ k < n, ∃ r, m.resolve (a + k) = .ok r := by
  have hmap (l : List Nat) (bytes : List Resolved)
      (hl : (l.mapM fun k => m.resolve (a + k)) = .ok bytes) :
      ∀ k ∈ l, ∃ r, m.resolve (a + k) = .ok r := by
    induction l generalizing bytes with
    | nil => nofun
    | cons k l ih =>
      rw [mapM_cons] at hl
      cases hk : m.resolve (a + k) with
      | error error =>
        rw [hk] at hl
        cases hl
      | ok r =>
        rw [hk] at hl
        cases hrest : (l.mapM fun k => m.resolve (a + k)) with
        | error error =>
          rw [hrest] at hl
          cases hl
        | ok rs =>
          intro j hj
          obtain rfl | hj := List.mem_cons.1 hj
          · exact ⟨r, hk⟩
          · exact ih rs hrest j hj
  exact fun k hk => hmap _ bytes h k (List.mem_range.2 hk)

theorem exists_resolved (h : ∀ k < n, ∃ r, m.resolve (a + k) = .ok r) :
    ∃ r : Nat → Resolved, ∀ k < n, m.resolve (a + k) = .ok (r k) := by
  choose r hr using h
  exact ⟨fun k => if hk : k < n then r k hk else ⟨0, .ram⟩, fun k hk => by
    simp only [dif_pos hk, hr k hk]⟩

theorem checkedRange_of_resolve (hn : 0 < n) (h : ∀ k < n, ∃ r, m.resolve (a + k) = .ok r) :
    checkedRange a n = .ok () := by
  obtain ⟨r, hlast⟩ := h (n - 1) (by omega)
  have hlimit := (decodes_of_resolve hlast).1
  rw [checkedRange_iff]
  omega

theorem access_ok {r : Nat → Resolved} (hn : n ∈ [1, 2, 4, 8])
    (h : ∀ k < n, m.resolve (a + k) = .ok (r k)) : m.access a n = .ok ((List.range n).map r) := by
  have hpos : 0 < n := by
    simp only [mem_cons, not_mem_nil, or_false] at hn
    omega
  rw [Layout.access, if_pos hn, checkedRange_of_resolve hpos fun k hk => ⟨r k, h k hk⟩]
  exact resolveAll_ok h

theorem resolve_of_access {bytes : List Resolved} (h : m.access a n = .ok bytes) :
    ∀ k < n, ∃ r, m.resolve (a + k) = .ok r := by
  rw [Layout.access] at h
  split at h
  · cases hrange : checkedRange a n with
    | error error =>
      rw [hrange] at h
      cases h
    | ok =>
      rw [hrange] at h
      exact resolve_of_resolveAll h
  · cases h

namespace Layout.Sound

variable (h : m.Sound)
include h

theorem resolve_of_samePage (ha : a < 2 ^ 64) (hcontains : m.contains a = true)
    (hpage : samePage a n = true) (hk : k < n) : m.resolve (a + k) = .ok ⟨0, .extended⟩ := by
  rw [samePage, decide_eq_true_eq] at hpage
  obtain ⟨hpages, hbase, hend⟩ := (h.contains_iff ha).1 hcontains
  obtain ⟨hlow, ⟨base, haligned⟩, hlimit⟩ := h.extended hpages
  rw [physicalLimit] at hlimit
  rw [haligned, pageSize] at hbase hend hlimit
  have hlt : a + k < 2 ^ 64 := by omega
  refine h.resolve_of_contains hlt ((h.contains_iff hlt).2 ⟨hpages, ?_, ?_⟩)
  · rw [haligned, pageSize]
    omega
  · rw [haligned, pageSize]
    omega

/-- A probe finds out whether all bytes resolve. -/
theorem probe_iff (ha : a < 2 ^ 64) :
    m.probe a n = .ok () ↔ 0 < n ∧ n ≤ 16 ∧ ∀ k < n, ∃ r, m.resolve (a + k) = .ok r := by
  rw [probe]
  split
  · next hquick =>
    obtain ⟨hzero, hle, hquick⟩ := hquick
    refine ⟨fun _ => ⟨by omega, hle, fun k hk => ?_⟩, fun _ => rfl⟩
    obtain hplain | ⟨hcontains, hpage⟩ := hquick
    · exact ⟨_, h.resolve_of_plain hplain (by omega) ha hk⟩
    · exact ⟨_, h.resolve_of_samePage ha hcontains hpage hk⟩
  · split
    · exact ⟨nofun, fun hn => by omega⟩
    · next hsize =>
      constructor
      · intro hprobe
        refine ⟨by omega, by omega, ?_⟩
        cases hrange : checkedRange a n with
        | error error =>
          rw [hrange] at hprobe
          cases hprobe
        | ok =>
          rw [hrange] at hprobe
          cases hall : m.resolveAll a n with
          | error error =>
            rw [hall] at hprobe
            cases hprobe
          | ok bytes => exact resolve_of_resolveAll hall
      · rintro ⟨hpos, -, hresolve⟩
        obtain ⟨r, hr⟩ := exists_resolved hresolve
        rw [checkedRange_of_resolve hpos hresolve, resolveAll_ok hr]
        rfl

end Layout.Sound

/-! ## Bytes -/

/-- What is behind an address, where it is RAM or extended RAM. -/
def Resolved.location (r : Resolved) (a : Nat) : Location :=
  match r.kind with
  | .extended => .extended a
  | _ => .ram r.backing

namespace Layout

variable (m d)

/-- The read of one byte. -/
def readPart (r : Resolved) (a : Nat) : Access δ Nat := do
  let part ← match r.kind with
    | .ram => load 1 r.backing
    | .mmio => m.read8 d r.backing
    | .extended => extendedRead a 1
  return part % 256

/-- The write of one byte. -/
def writePart (r : Resolved) (a part : Nat) : Access δ Unit :=
  match r.kind with
  | .ram => store 1 r.backing part
  | .mmio => m.write8 d r.backing part
  | .extended => extendedWrite a 1 part

/-- Reads of some bytes, the low one first. -/
def readPartEach (a : Nat) : Nat → List Resolved → Access δ Nat
  | _, [] => pure 0
  | offset, byte :: bytes => do
    let part ← m.readPart d byte (a + offset)
    let rest ← readPartEach a (offset + 1) bytes
    return part + 256 * rest

/-- Reads of bytes through the bus, the low one first. -/
def physicalReadEach : Nat → Nat → Access δ (Except PhysicalError Nat)
  | 0, _ => pure (.ok 0)
  | n + 1, a => do
    match ← m.physicalRead d .byte a with
    | .error error => pure (.error error)
    | .ok part =>
      match ← physicalReadEach n (a + 1) with
      | .error error => pure (.error error)
      | .ok rest => pure (.ok (part + 256 * rest))

/-- Writes of the bytes of a value through the bus, the low one first. -/
def physicalWriteEach (a value : Nat) : List Nat → Access δ (Except PhysicalError Unit)
  | [] => pure (.ok ())
  | offset :: offsets => do
    match ← m.physicalWrite d .byte (a + offset) (value >>> (offset * 8) % 256) with
    | .error error => pure (.error error)
    | .ok () => physicalWriteEach a value offsets

/-- The access is one of a page of a device. -/
def OneDevice (a n : Nat) : Prop :=
  ∃ b, ∀ k < n, m.resolve (a + k) = .ok ⟨b + k, .mmio⟩ ∧ b / 4096 = (b + k) / 4096

variable {m d}

theorem contiguous_ram {r : Nat → Resolved} (hcontiguous : contiguous ((List.range n).map r) = true)
    (hpos : 0 < n) : (r 0).kind ≠ .extended ∧ ∀ k < n, (r k).kind = (r 0).kind ∧
      (r k).backing = (r 0).backing + k ∧
      ((r 0).kind = .ram ∨ (r 0).backing / 4096 = (r k).backing / 4096) := by
  obtain ⟨n, rfl⟩ : ∃ j, n = j + 1 := ⟨n - 1, by omega⟩
  have hcons : (List.range (n + 1)).map r = r 0 :: (List.range n).map (fun k => r (k + 1)) := by
    rw [range_succ_eq_map, map_cons, List.map_map]
    rfl
  have hall := hcontiguous
  rw [hcons, contiguous, ← hcons] at hall
  simp only [Bool.and_eq_true, decide_eq_true_eq, all_eq_true, Bool.or_eq_true] at hall
  obtain ⟨hkind, hall⟩ := hall
  refine ⟨hkind, fun k hk => ?_⟩
  have hmem : (r k, k) ∈ ((List.range (n + 1)).map r).zipIdx := by
    rw [List.mem_zipIdx_iff_getElem?, List.getElem?_map, List.getElem?_range hk]
    rfl
  obtain ⟨⟨⟨-, hbacking⟩, hsame⟩, hpage⟩ := hall _ hmem
  exact ⟨hsame.symm, hbacking.symm, hpage⟩

theorem readPart_lt (r : Resolved) (a : Nat) (s : Store δ) : (m.readPart d r a s).1 < 256 := by
  have hpos : 0 < 256 := by decide
  rw [readPart]
  cases r.kind with
  | ram => exact Nat.mod_lt _ hpos
  | mmio => exact Nat.mod_lt _ hpos
  | extended => exact Nat.mod_lt _ hpos

/-- The loop of a read, as a number. -/
theorem readParts_run (bytes : List Resolved) (offset value : Nat) (hvalue : value < 256 ^ offset)
    (s : Store δ) : m.readParts d a offset bytes value s =
      ((value + 256 ^ offset * (m.readPartEach d a offset bytes s).1),
        (m.readPartEach d a offset bytes s).2) := by
  induction bytes generalizing offset value s with
  | nil =>
    change (value, s) = (value + 256 ^ offset * 0, s)
    rw [Nat.mul_zero, Nat.add_zero]
  | cons byte bytes ih =>
    have hpow : 256 ^ offset = 2 ^ (offset * 8) := by rw [Nat.mul_comm, Nat.pow_mul]
    have hstep (part : Nat) (hpart : part < 256) (s : Store δ) :
        m.readParts d a (offset + 1) bytes (value ||| part <<< (offset * 8)) s =
          (value + 256 ^ offset * (part + 256 * (m.readPartEach d a (offset + 1) bytes s).1),
            (m.readPartEach d a (offset + 1) bytes s).2) := by
      have hor : value ||| part <<< (offset * 8) = value + 256 ^ offset * part := by
        rw [or_shift (hpow ▸ hvalue), hpow]
      rw [hor, ih]
      · rw [Nat.pow_succ]
        congr 1
        ring
      · rw [Nat.pow_succ]
        have := Nat.mul_le_mul_left (256 ^ offset) (Nat.le_of_lt_succ hpart)
        omega
    have hunfold : m.readParts d a offset (byte :: bytes) value s =
        m.readParts d a (offset + 1) bytes
          (value ||| (m.readPart d byte (a + offset) s).1 <<< (offset * 8))
          (m.readPart d byte (a + offset) s).2 := by
      rw [readParts, readPart]
      cases byte.kind <;> rfl
    rw [hunfold, hstep _ (readPart_lt byte (a + offset) s)]
    rfl

theorem readPart_ram (b a : Nat) (s : Store δ) : m.readPart d ⟨b, .ram⟩ a s = load 1 b s := by
  have hlt : s.getAll (fun k => .ram (b + k)) 1 < 256 := s.getAll_lt _ 1
  exact congrArg (·, s) (Nat.mod_eq_of_lt hlt)

theorem readPart_extended (b a : Nat) (s : Store δ) :
    m.readPart d ⟨b, .extended⟩ a s = extendedRead a 1 s := by
  have hlt : s.getAll (fun k => .extended (a + k)) 1 < 256 := s.getAll_lt _ 1
  exact congrArg (·, s) (Nat.mod_eq_of_lt hlt)

theorem contiguous_one (hr : r.backing < 2 ^ 32) (hkind : r.kind ≠ .extended) :
    contiguous [r] = true := by
  simp only [contiguous, zipIdx_cons, zipIdx_nil, all_cons, all_nil,
    Nat.add_zero, decide_true, Bool.and_true, Bool.or_true, Bool.and_eq_true, decide_eq_true_eq]
  exact ⟨hkind, hr⟩

theorem backing_lt_of_resolve (h : m.resolve a = .ok r) : r.backing < 2 ^ 32 := by
  cases (decodes_of_resolve h).2 with
  | low hlow => exact hlow
  | window => exact Nat.mod_lt _ (Nat.two_pow_pos 32)
  | extended => exact Nat.two_pow_pos 32

theorem samePage_one (a : Nat) : samePage a 1 = true := by
  rw [samePage, decide_eq_true_eq]
  omega

namespace Sound

variable (h : m.Sound)
include h

/-- Addresses that take no shortcut are not those of extended RAM. -/
theorem kind_of_not_contains (hr : m.resolve a = .ok r)
    (hcontains : m.contains a = false) : r.kind ≠ .extended := by
  cases (decodes_of_resolve hr).2 with
  | low hlow =>
    dsimp only
    split <;> nofun
  | window hhigh hi =>
    intro hkind
    have hbacked := (h.bus.window _ _ hi).backed
    rw [Window.backed] at hbacked
    change Window.kind _ = _ at hkind
    rw [hkind] at hbacked
    exact hbacked
  | extended hhigh hin =>
    rw [hin] at hcontains
    cases hcontains

/-- What an access of one byte resolves to when it takes no shortcut. -/
theorem byte_of_not_contains (hr : m.resolve a = .ok r) (hcontains : m.contains a = false) :
    r.kind ≠ .extended ∧ m.access a 1 = .ok [r] ∧ contiguous [r] = true ∧
      ([r].all fun byte => decide (byte.kind = .extended)) = false := by
  have hkind := h.kind_of_not_contains hr hcontains
  refine ⟨hkind, access_ok (r := fun _ => r) (by decide) fun k hk => ?_,
    contiguous_one (backing_lt_of_resolve hr) hkind, by simp [hkind]⟩
  rw [Nat.lt_one_iff.1 hk]
  exact hr

/-- A read of one byte does what the address resolves to. -/
theorem physicalRead_byte (ha : a < 2 ^ 64) (hr : m.resolve a = .ok r) (s : Store δ) :
    m.physicalRead d .byte a s = (.ok (m.readPart d r a s).1, (m.readPart d r a s).2) := by
  rw [physicalRead, readAllowed, Size.bytes]
  by_cases hplain : m.plainRam a 1 = true
  · cases hr.symm.trans (h.resolve_of_plain hplain (by omega) ha Nat.one_pos)
    rw [if_pos hplain, Nat.add_zero, readPart_ram]
    rfl
  · rw [if_neg hplain]
    cases hcontains : m.contains a with
    | true =>
      cases hr.symm.trans (h.resolve_of_contains ha hcontains)
      rw [samePage_one, Bool.and_self, if_pos rfl, readPart_extended]
      rfl
    | false =>
      obtain ⟨hkind, haccess, hone, hall⟩ := h.byte_of_not_contains hr hcontains
      simp only [Bool.false_and, Bool.false_eq_true, if_false, haccess, Bool.not_true, hall, hone,
        if_true]
      obtain ⟨b, kind⟩ := r
      cases kind with
      | ram =>
        rw [readPart_ram]
        rfl
      | mmio => rfl
      | extended => exact absurd rfl hkind

/-- A write of one byte does what the address resolves to. -/
theorem physicalWrite_byte (ha : a < 2 ^ 64) (hr : m.resolve a = .ok r) (part : Nat)
    (hpart : part < 256) (s : Store δ) :
    m.physicalWrite d .byte a part s = (.ok (), (m.writePart d r a part s).2) := by
  rw [physicalWrite, Size.bytes]
  by_cases hplain : m.plainRam a 1 = true
  · cases hr.symm.trans (h.resolve_of_plain hplain (by omega) ha Nat.one_pos)
    rw [if_pos hplain, Nat.add_zero]
    rfl
  · rw [if_neg hplain]
    cases hcontains : m.contains a with
    | true =>
      cases hr.symm.trans (h.resolve_of_contains ha hcontains)
      rw [samePage_one, Bool.and_self, if_pos rfl]
      rfl
    | false =>
      obtain ⟨hkind, haccess, hone, hall⟩ := h.byte_of_not_contains hr hcontains
      simp only [Bool.false_and, Bool.false_eq_true, if_false, haccess, hall, hone, if_true]
      obtain ⟨b, kind⟩ := r
      cases kind with
      | ram => rfl
      | mmio =>
        have hmod : part % 2 ^ 8 = part := Nat.mod_eq_of_lt hpart
        change _ = (Except.ok (), (m.write8 d b part s).2)
        rw [if_neg (nofun : ¬WindowKind.mmio = .ram), writeMmio, hmod]
        rfl
      | extended => exact absurd rfl hkind

/-- Reads byte by byte are those of what the bytes resolve to. -/
theorem physicalReadEach_resolved {r : Nat → Resolved} (offset : Nat)
    (hr : ∀ k < n, m.resolve (a + offset + k) = .ok (r (offset + k)))
    (hend : a + offset + n ≤ 2 ^ 64) (s : Store δ) : m.physicalReadEach d n (a + offset) s =
      (.ok (m.readPartEach d a offset ((List.range' offset n).map r) s).1,
        (m.readPartEach d a offset ((List.range' offset n).map r) s).2) := by
  induction n generalizing offset s with
  | zero => rfl
  | succ n ih =>
    have hbyte := h.physicalRead_byte (d := d) (by omega) (hr 0 (Nat.succ_pos n)) s
    have hrest (s : Store δ) : m.physicalReadEach d n (a + offset + 1) s = _ :=
      ih (offset + 1) (fun k hk => by
        have := hr (k + 1) (Nat.succ_lt_succ hk)
        rwa [Nat.add_comm k 1, ← Nat.add_assoc, ← Nat.add_assoc] at this) (by omega) s
    rw [Nat.add_zero] at hbyte
    rw [List.range'_succ, map_cons, physicalReadEach, readPartEach]
    simp only [bind, StateT.bind, hbyte, hrest]
    rfl

/-- Writes byte by byte are those of what the bytes resolve to. -/
theorem physicalWriteEach_resolved {r : Nat → Resolved} (value offset : Nat)
    (hr : ∀ k < n, m.resolve (a + (offset + k)) = .ok (r (offset + k)))
    (hend : a + offset + n ≤ 2 ^ 64) (s : Store δ) :
    m.physicalWriteEach d a value (List.range' offset n) s =
      (.ok (), (m.writeParts d a value offset ((List.range' offset n).map r) s).2) := by
  induction n generalizing offset s with
  | zero => rfl
  | succ n ih =>
    have hbyte := h.physicalWrite_byte (d := d) (by omega) (hr 0 (Nat.succ_pos n))
      (value >>> (offset * 8) % 256) (Nat.mod_lt _ (by decide)) s
    have hrest (s : Store δ) := ih (offset + 1) (fun k hk => by
      have := hr (k + 1) (Nat.succ_lt_succ hk)
      rwa [Nat.add_comm k 1, ← Nat.add_assoc offset 1 k] at this) (by omega) s
    rw [Nat.add_zero] at hbyte
    rw [List.range'_succ, map_cons, physicalWriteEach, writeParts]
    simp only [bind, StateT.bind, hbyte, hrest]
    rw [writePart]
    cases (r offset).kind <;> rfl

end Sound

/-! ## Wide accesses -/

/-- Bytes of RAM and extended RAM, read one after the other. -/
theorem readPartEach_located {r : Nat → Resolved} (offset : Nat)
    (hkind : ∀ k < n, (r (offset + k)).kind ≠ .mmio) (s : Store δ) :
    m.readPartEach d a offset ((List.range' offset n).map r) s =
      (s.getAll (fun k => (r (offset + k)).location (a + (offset + k))) n, s) := by
  induction n generalizing offset with
  | zero => rfl
  | succ n ih =>
    have hpart : m.readPart d (r offset) (a + offset) s =
        ((s.get ((r offset).location (a + offset))).toNat, s) := by
      have hfirst := hkind 0 (Nat.succ_pos n)
      rw [Nat.add_zero] at hfirst
      rw [← getAll_one]
      generalize r offset = first at hfirst
      obtain ⟨b, kind⟩ := first
      cases kind with
      | ram => exact readPart_ram b (a + offset) s
      | mmio => exact absurd rfl hfirst
      | extended => exact readPart_extended b (a + offset) s
    have hrest := ih (offset + 1) fun k hk => by
      rw [Nat.add_right_comm]
      exact hkind (k + 1) (Nat.succ_lt_succ hk)
    rw [List.range'_succ, map_cons, readPartEach, Store.getAll_succ]
    rw [Store.getAll_congr fun k _ => by rw [show offset + (k + 1) = offset + 1 + k by omega]]
    simp only [bind, StateT.bind, hpart, hrest]
    rfl

theorem writeParts_append (value offset : Nat) (xs ys : List Resolved) (s : Store δ) :
    m.writeParts d a value offset (xs ++ ys) s =
      m.writeParts d a value (offset + xs.length) ys (m.writeParts d a value offset xs s).2 := by
  induction xs generalizing offset s with
  | nil => rfl
  | cons x xs ih =>
    rw [cons_append, length_cons, ← Nat.add_assoc, Nat.add_right_comm, writeParts, writeParts]
    cases x.kind <;> exact ih (offset + 1) _

/-- Bytes of RAM and extended RAM, written one after the other. -/
theorem writeParts_located {r : Nat → Resolved} (value : Nat)
    (hkind : ∀ k < n, (r k).kind ≠ .mmio) (s : Store δ) :
    m.writeParts d a value 0 ((List.range n).map r) s =
      ((), s.putAll (fun k => (r k).location (a + k)) value n) := by
  induction n with
  | zero => rfl
  | succ n ih =>
    have hlast (s : Store δ) : m.writeParts d a value n [r n] s =
        ((), s.put ((r n).location (a + n)) (byteOf value n)) := by
      have hkind := hkind n (Nat.lt_succ_self n)
      rw [← byteOf_shift, ← byteOf_zero, writeParts]
      generalize r n = last at hkind
      obtain ⟨b, kind⟩ := last
      cases kind with
      | ram => exact store_run 1 b _ s
      | mmio => exact absurd rfl hkind
      | extended => exact extendedWrite_run 1 (a + n) _ s
    rw [range_succ, map_append, writeParts_append,
      ih fun k hk => hkind k (Nat.lt_succ_of_lt hk), length_map, length_range,
      Nat.zero_add, Store.putAll]
    exact hlast _

theorem resolve_limit (hpos : 0 < n) {r : Nat → Resolved}
    (hr : ∀ k < n, m.resolve (a + k) = .ok (r k)) : a + n ≤ physicalLimit := by
  have := (decodes_of_resolve (hr (n - 1) (by omega))).1
  omega

theorem range_cons {α : Type} (hpos : 0 < n) (f : Nat → α) :
    ∃ tail, (List.range n).map f = f 0 :: tail := by
  obtain ⟨n, rfl⟩ : ∃ j, n = j + 1 := ⟨n - 1, by omega⟩
  rw [range_succ_eq_map, map_cons]
  exact ⟨_, rfl⟩

/-- The paths of an access whose bytes resolve. -/
inductive Path (m : Layout) (a n : Nat) (r : Nat → Resolved) : Prop
  | plain (hplain : m.plainRam a n = true) (hr : ∀ k < n, r k = ⟨a + k, .ram⟩)
  | page (hplain : m.plainRam a n = false) (hpage : (m.contains a && samePage a n) = true)
    (hr : ∀ k < n, (r k).kind = .extended)
  | ram (hplain : m.plainRam a n = false) (hpage : (m.contains a && samePage a n) = false)
    (hall : (((List.range n).map r).all (·.kind = .extended) && samePage a n) = false)
    (hcontiguous : contiguous ((List.range n).map r) = true)
    (hr : ∀ k < n, r k = ⟨(r 0).backing + k, .ram⟩)
  | each (hplain : m.plainRam a n = false) (hpage : (m.contains a && samePage a n) = false)
    (hall : (((List.range n).map r).all (·.kind = .extended) && samePage a n) = false)
    (hcontiguous : contiguous ((List.range n).map r) = false)

namespace Sound

variable (h : m.Sound)
include h

theorem path_of_resolved {r : Nat → Resolved} (ha : a < 2 ^ 64) (hpos : 0 < n) (hn : n ≤ 8)
    (hr : ∀ k < n, m.resolve (a + k) = .ok (r k)) (hdevice : ¬m.OneDevice a n) : Path m a n r := by
  cases hplain : m.plainRam a n with
  | true =>
    refine .plain hplain fun k hk => ?_
    exact Except.ok.inj ((hr k hk).symm.trans (h.resolve_of_plain hplain (by omega) ha hk))
  | false =>
    cases hpage : m.contains a && samePage a n with
    | true =>
      obtain ⟨hcontains, hsame⟩ := Bool.and_eq_true_iff.1 hpage
      refine .page hplain hpage fun k hk => ?_
      rw [Except.ok.inj ((hr k hk).symm.trans (h.resolve_of_samePage ha hcontains hsame hk))]
    | false =>
      have hall : (((List.range n).map r).all (·.kind = .extended) && samePage a n) = false := by
        rw [Bool.eq_false_iff]
        intro hboth
        obtain ⟨hall, hsame⟩ := Bool.and_eq_true_iff.1 hboth
        rw [hsame, Bool.and_true] at hpage
        refine h.kind_of_not_contains (hr 0 hpos) hpage (of_decide_eq_true ?_)
        exact List.all_eq_true.1 hall _ (mem_map_of_mem (List.mem_range.2 hpos))
      cases hcontiguous : contiguous ((List.range n).map r) with
      | false => exact .each hplain hpage hall hcontiguous
      | true =>
        obtain ⟨hkind, hbytes⟩ := contiguous_ram hcontiguous hpos
        have hram : (r 0).kind = .ram := by
          cases hfirst : (r 0).kind with
          | ram => rfl
          | extended => exact absurd hfirst hkind
          | mmio =>
            refine absurd ⟨(r 0).backing, fun k hk => ?_⟩ hdevice
            obtain ⟨hsame, hbacking, hpage⟩ := hbytes k hk
            rw [hfirst] at hsame hpage
            rw [hr k hk, ← hbacking, ← hsame]
            exact ⟨rfl, hpage.resolve_left nofun⟩
        refine .ram hplain hpage hall hcontiguous fun k hk => ?_
        obtain ⟨hsame, hbacking, -⟩ := hbytes k hk
        rw [← hbacking, ← hram, ← hsame]

variable {size : Size}

/-- A read that is not one of a device does what its bytes resolve to. -/
theorem physicalRead_resolved {r : Nat → Resolved} (ha : a < 2 ^ 64)
    (hr : ∀ k < size.bytes, m.resolve (a + k) = .ok (r k)) (hdevice : ¬m.OneDevice a size.bytes)
    (s : Store δ) : m.physicalRead d size a s =
      (.ok (m.readPartEach d a 0 ((List.range size.bytes).map r) s).1,
        (m.readPartEach d a 0 ((List.range size.bytes).map r) s).2) := by
  obtain ⟨hwidth, hpos, hle⟩ : size.bytes ∈ [1, 2, 4, 8] ∧ 0 < size.bytes ∧ size.bytes ≤ 8 := by
    cases size <;> decide
  have hlocated {l : Nat → Location}
      (hall : ∀ k < size.bytes, (r k).kind ≠ .mmio ∧ (r k).location (a + k) = l k) :
      (.ok (s.getAll l size.bytes), s) =
        (Except.ok (ε := PhysicalError) (m.readPartEach d a 0 ((List.range size.bytes).map r) s).1,
          (m.readPartEach d a 0 ((List.range size.bytes).map r) s).2) := by
    have heach := readPartEach_located (d := d) (m := m) (a := a) (r := r) (n := size.bytes) 0
      (fun k hk => by rw [Nat.zero_add]; exact (hall k hk).1) s
    rw [range_eq_range', heach]
    refine congrArg (fun value => (Except.ok value, s)) (Store.getAll_congr fun k hk => ?_)
    rw [Nat.zero_add]
    exact (hall k hk).2.symm
  rw [physicalRead, readAllowed]
  cases h.path_of_resolved ha hpos hle hr hdevice with
  | plain hplain hall =>
    rw [if_pos hplain]
    exact hlocated fun k hk => by rw [hall k hk]; exact ⟨nofun, rfl⟩
  | page hplain hpage hall =>
    rw [if_neg (Bool.eq_false_iff.1 hplain), if_pos hpage]
    exact hlocated fun k hk => by rw [Resolved.location, hall k hk]; exact ⟨nofun, rfl⟩
  | ram hplain hpage hall hcontiguous hbytes =>
    obtain ⟨tail, hcons⟩ := range_cons hpos r
    rw [if_neg (Bool.eq_false_iff.1 hplain), if_neg (Bool.eq_false_iff.1 hpage), access_ok hwidth hr]
    simp only [Bool.not_true, Bool.false_and, Bool.false_eq_true, if_false, hall, hcontiguous,
      if_true]
    rw [hcons]
    dsimp only
    rw [if_pos (by rw [hbytes 0 hpos]), ← hcons]
    exact hlocated fun k hk => by rw [hbytes k hk]; exact ⟨nofun, rfl⟩
  | each hplain hpage hall hcontiguous =>
    rw [if_neg (Bool.eq_false_iff.1 hplain), if_neg (Bool.eq_false_iff.1 hpage), access_ok hwidth hr]
    simp only [Bool.not_true, Bool.false_and, Bool.false_eq_true, if_false, hall, hcontiguous]
    have hrun := readParts_run (d := d) (m := m) (a := a) ((List.range size.bytes).map r) 0 0
      (by decide) s
    rw [Nat.pow_zero, Nat.one_mul, Nat.zero_add] at hrun
    change (Except.ok (m.readParts d a 0 _ 0 s).1, (m.readParts d a 0 _ 0 s).2) = _
    rw [hrun]

/-- A write that is not one of a device does what its bytes resolve to. -/
theorem physicalWrite_resolved {r : Nat → Resolved} (ha : a < 2 ^ 64)
    (hr : ∀ k < size.bytes, m.resolve (a + k) = .ok (r k)) (hdevice : ¬m.OneDevice a size.bytes)
    (value : Nat) (s : Store δ) : m.physicalWrite d size a value s =
      (.ok (), (m.writeParts d a value 0 ((List.range size.bytes).map r) s).2) := by
  obtain ⟨hwidth, hpos, hle⟩ : size.bytes ∈ [1, 2, 4, 8] ∧ 0 < size.bytes ∧ size.bytes ≤ 8 := by
    cases size <;> decide
  have hlocated {l : Nat → Location}
      (hall : ∀ k < size.bytes, (r k).kind ≠ .mmio ∧ (r k).location (a + k) = l k) :
      s.putAll l value size.bytes =
        (m.writeParts d a value 0 ((List.range size.bytes).map r) s).2 := by
    rw [writeParts_located value fun k hk => (hall k hk).1]
    exact Store.putAll_congr (fun k hk => (hall k hk).2.symm) value
  rw [physicalWrite]
  cases h.path_of_resolved ha hpos hle hr hdevice with
  | plain hplain hall =>
    rw [if_pos hplain]
    change (Except.ok (store size.bytes a value s).1, (store size.bytes a value s).2) = _
    rw [store_run, hlocated fun k hk => by rw [hall k hk]; exact ⟨nofun, rfl⟩]
  | page hplain hpage hall =>
    rw [if_neg (Bool.eq_false_iff.1 hplain), if_pos hpage]
    change (Except.ok (extendedWrite a size.bytes value s).1,
      (extendedWrite a size.bytes value s).2) = _
    rw [extendedWrite_run,
      hlocated fun k hk => by rw [Resolved.location, hall k hk]; exact ⟨nofun, rfl⟩]
  | ram hplain hpage hall hcontiguous hbytes =>
    obtain ⟨tail, hcons⟩ := range_cons hpos r
    rw [if_neg (Bool.eq_false_iff.1 hplain), if_neg (Bool.eq_false_iff.1 hpage), access_ok hwidth hr]
    simp only [Bool.false_eq_true, if_false, hall, hcontiguous, if_true]
    rw [hcons]
    dsimp only
    rw [if_pos (by rw [hbytes 0 hpos]), ← hcons]
    change (Except.ok (store size.bytes (r 0).backing value s).1,
      (store size.bytes (r 0).backing value s).2) = _
    rw [store_run, hlocated fun k hk => by rw [hbytes k hk]; exact ⟨nofun, rfl⟩]
  | each hplain hpage hall hcontiguous =>
    rw [if_neg (Bool.eq_false_iff.1 hplain), if_neg (Bool.eq_false_iff.1 hpage), access_ok hwidth hr]
    simp only [Bool.false_eq_true, if_false, hall, hcontiguous]
    rfl

/-! ## Failures -/

theorem access_resolves (ha : a < 2 ^ 64)
    (hquick : m.plainRam a size.bytes = true ∨ (m.contains a && samePage a size.bytes) = true ∨
      ∃ bytes, m.access a size.bytes = .ok bytes) :
    ∀ k < size.bytes, ∃ r, m.resolve (a + k) = .ok r := by
  intro k hk
  obtain hplain | hpage | ⟨bytes, haccess⟩ := hquick
  · have hle : size.bytes < 2 ^ 32 := by cases size <;> decide
    exact ⟨_, h.resolve_of_plain hplain hle ha hk⟩
  · obtain ⟨hcontains, hsame⟩ := Bool.and_eq_true_iff.1 hpage
    exact ⟨_, h.resolve_of_samePage ha hcontains hsame hk⟩
  · exact resolve_of_access haccess k hk

/-- A read fails where a byte does not resolve, and only there. -/
theorem physicalRead_ok_iff (ha : a < 2 ^ 64) (s : Store δ) :
    (∃ value, (m.physicalRead d size a s).1 = .ok value) ↔
      ∀ k < size.bytes, ∃ r, m.resolve (a + k) = .ok r := by
  constructor
  · rintro ⟨value, hread⟩
    refine h.access_resolves ha ?_
    rw [physicalRead, readAllowed] at hread
    split at hread
    · next hplain => exact .inl hplain
    · split at hread
      · next hpage => exact .inr (.inl hpage)
      · cases haccess : m.access a size.bytes with
        | error error =>
          rw [haccess] at hread
          cases hread
        | ok bytes => exact .inr (.inr ⟨bytes, rfl⟩)
  · intro hresolve
    obtain ⟨r, hr⟩ := exists_resolved hresolve
    have hwidth : size.bytes ∈ [1, 2, 4, 8] := by cases size <;> decide
    rw [physicalRead, readAllowed, access_ok hwidth hr]
    simp only [Bool.not_true, Bool.false_and, Bool.false_eq_true, if_false]
    split
    · exact ⟨_, rfl⟩
    · split
      · exact ⟨_, rfl⟩
      · split
        · exact ⟨_, rfl⟩
        · split
          · cases (List.range size.bytes).map r with
            | nil => exact ⟨_, rfl⟩
            | cons first tail => exact ⟨_, rfl⟩
          · exact ⟨_, rfl⟩

/-- A write fails where a byte does not resolve, and only there. -/
theorem physicalWrite_ok_iff (ha : a < 2 ^ 64) (value : Nat) (s : Store δ) :
    (m.physicalWrite d size a value s).1 = .ok () ↔
      ∀ k < size.bytes, ∃ r, m.resolve (a + k) = .ok r := by
  constructor
  · intro hwrite
    refine h.access_resolves ha ?_
    rw [physicalWrite] at hwrite
    split at hwrite
    · next hplain => exact .inl hplain
    · split at hwrite
      · next hpage => exact .inr (.inl hpage)
      · cases haccess : m.access a size.bytes with
        | error error =>
          rw [haccess] at hwrite
          cases hwrite
        | ok bytes => exact .inr (.inr ⟨bytes, rfl⟩)
  · intro hresolve
    obtain ⟨r, hr⟩ := exists_resolved hresolve
    have hwidth : size.bytes ∈ [1, 2, 4, 8] := by cases size <;> decide
    rw [physicalWrite, access_ok hwidth hr]
    dsimp only
    split
    · rfl
    · split
      · rfl
      · split
        · rfl
        · split
          · cases (List.range size.bytes).map r with
            | nil => rfl
            | cons first tail => rfl
          · rfl

omit h in
theorem physicalWrite_error {size : Size} {value : Nat} {s : Store δ} {error : PhysicalError}
    (hwrite : (m.physicalWrite d size a value s).1 = .error error) :
    (m.physicalWrite d size a value s).2 = s := by
  rw [physicalWrite] at hwrite ⊢
  split at hwrite
  · cases hwrite
  · next hplain =>
    rw [if_neg hplain]
    split at hwrite
    · cases hwrite
    · next hpage =>
      rw [if_neg hpage]
      cases haccess : m.access a size.bytes with
      | error error => rfl
      | ok bytes =>
        rw [haccess] at hwrite
        dsimp only at hwrite
        split at hwrite
        · cases hwrite
        · split at hwrite
          · cases bytes <;> cases hwrite
          · cases hwrite

end Sound

/-- The bus decodes each address in one way, whichever path asks. -/
structure Consistent (m : Layout) : Prop where
  apart : ∀ i j w w', i ≠ j → m.bus.windows i = some w → m.bus.windows j = some w' →
    ¬w.conflicts w'
  injective : ∀ a a' b, m.resolve a = .ok ⟨b, .ram⟩ → m.resolve a' = .ok ⟨b, .ram⟩ → a = a'
  plain : ∀ (a : BitVec 64) (width : BitVec 32), m.plainRam a.toNat width.toNat = true →
    ∀ k < width.toNat, m.resolve (a.toNat + k) = .ok ⟨a.toNat + k, .ram⟩
  probe : ∀ (a : BitVec 64) (size : Nat), m.probe a.toNat size = .ok () ↔
    0 < size ∧ size ≤ 16 ∧ ∀ k < size, ∃ r, m.resolve (a.toNat + k) = .ok r

/-- Accesses succeed where the probe does, and are those of their bytes in ascending order, but for
those of a page of one device, which are left to the low bus as they are. -/
structure ByBytes (m : Layout) (d : Devices δ) : Prop where
  read_ok : ∀ (size : Size) (a : BitVec 64) (s : Store δ),
    (∃ value, (m.physicalRead d size a.toNat s).1 = .ok value) ↔ m.probe a.toNat size.bytes = .ok ()
  write_ok : ∀ (size : Size) (a : BitVec 64) (value : Nat) (s : Store δ),
    (m.physicalWrite d size a.toNat value s).1 = .ok () ↔ m.probe a.toNat size.bytes = .ok ()
  /-- bytes of RAM and extended RAM, wherever they are -/
  read : ∀ (size : Size) (a : BitVec 64) (r : Nat → Resolved) (s : Store δ),
    (∀ k < size.bytes, m.resolve (a.toNat + k) = .ok (r k) ∧ (r k).kind ≠ .mmio) →
      m.physicalRead d size a.toNat s =
          (.ok (s.getAll (fun k => (r k).location (a.toNat + k)) size.bytes), s) ∧
        m.physicalRead d size a.toNat s = m.physicalReadEach d size.bytes a.toNat s
  write : ∀ (size : Size) (a : BitVec 64) (value : Nat) (r : Nat → Resolved) (s : Store δ),
    (∀ k < size.bytes, m.resolve (a.toNat + k) = .ok (r k) ∧ (r k).kind ≠ .mmio) →
      m.physicalWrite d size a.toNat value s =
          (.ok (), s.putAll (fun k => (r k).location (a.toNat + k)) value size.bytes) ∧
        m.physicalWrite d size a.toNat value s =
          m.physicalWriteEach d a.toNat value (List.range size.bytes) s
  /-- also with bytes of devices among them -/
  read_each : ∀ (size : Size) (a : BitVec 64) (s : Store δ), m.probe a.toNat size.bytes = .ok () →
    ¬m.OneDevice a.toNat size.bytes →
      m.physicalRead d size a.toNat s = m.physicalReadEach d size.bytes a.toNat s
  write_each : ∀ (size : Size) (a : BitVec 64) (value : Nat) (s : Store δ),
    m.probe a.toNat size.bytes = .ok () → ¬m.OneDevice a.toNat size.bytes →
      m.physicalWrite d size a.toNat value s =
        m.physicalWriteEach d a.toNat value (List.range size.bytes) s
  write_error : ∀ (size : Size) (a : BitVec 64) (value : Nat) (s : Store δ) (error : PhysicalError),
    (m.physicalWrite d size a.toNat value s).1 = .error error →
      (m.physicalWrite d size a.toNat value s).2 = s

theorem not_oneDevice {r : Nat → Resolved} (hpos : 0 < n)
    (hr : ∀ k < n, m.resolve (a + k) = .ok (r k) ∧ (r k).kind ≠ .mmio) : ¬m.OneDevice a n := by
  rintro ⟨b, hdevice⟩
  obtain ⟨hresolve, hkind⟩ := hr 0 hpos
  rw [Except.ok.inj (hresolve.symm.trans (hdevice 0 hpos).1)] at hkind
  exact hkind rfl

namespace Sound

variable (h : m.Sound)
include h

theorem consistent : m.Consistent where
  apart := h.bus.apart
  injective := fun _ _ _ => h.resolve_injective
  plain := fun a width hplain _ hk => h.resolve_of_plain hplain width.isLt a.isLt hk
  probe := fun a _ => h.probe_iff a.isLt

theorem probe_size_iff (ha : a < 2 ^ 64) (size : Size) : m.probe a size.bytes = .ok () ↔
    ∀ k < size.bytes, ∃ r, m.resolve (a + k) = .ok r := by
  have hsize : 0 < size.bytes ∧ size.bytes ≤ 16 := by cases size <;> decide
  rw [h.probe_iff ha]
  exact ⟨fun hprobe => hprobe.2.2, fun hresolve => ⟨hsize.1, hsize.2, hresolve⟩⟩

theorem read_each {size : Size} (ha : a < 2 ^ 64) {r : Nat → Resolved}
    (hr : ∀ k < size.bytes, m.resolve (a + k) = .ok (r k)) (hdevice : ¬m.OneDevice a size.bytes)
    (s : Store δ) : m.physicalRead d size a s = m.physicalReadEach d size.bytes a s := by
  have hpos : 0 < size.bytes := by cases size <;> decide
  have hlimit := resolve_limit hpos hr
  rw [physicalLimit] at hlimit
  have heach := h.physicalReadEach_resolved (d := d) (a := a) (r := r) 0
    (fun k hk => by rw [Nat.add_zero, Nat.zero_add]; exact hr k hk) (by omega) s
  rw [h.physicalRead_resolved ha hr hdevice, range_eq_range', ← heach, Nat.add_zero]

theorem write_each {size : Size} (ha : a < 2 ^ 64) {r : Nat → Resolved}
    (hr : ∀ k < size.bytes, m.resolve (a + k) = .ok (r k)) (hdevice : ¬m.OneDevice a size.bytes)
    (value : Nat) (s : Store δ) : m.physicalWrite d size a value s =
      m.physicalWriteEach d a value (List.range size.bytes) s := by
  have hpos : 0 < size.bytes := by cases size <;> decide
  have hlimit := resolve_limit hpos hr
  rw [physicalLimit] at hlimit
  have heach := h.physicalWriteEach_resolved (d := d) (a := a) (r := r) value 0
    (fun k hk => by rw [Nat.zero_add]; exact hr k hk) (by omega) s
  rw [h.physicalWrite_resolved ha hr hdevice, range_eq_range', heach]

theorem byBytes (d : Devices δ) : m.ByBytes d where
  read_ok := fun size a s => by
    rw [h.physicalRead_ok_iff a.isLt s, h.probe_size_iff a.isLt]
  write_ok := fun size a value s => by
    rw [h.physicalWrite_ok_iff a.isLt value s, h.probe_size_iff a.isLt]
  read := fun size a r s hr => by
    have hpos : 0 < size.bytes := by cases size <;> decide
    have hresolve := fun k hk => (hr k hk).1
    have hdevice := not_oneDevice hpos hr
    refine ⟨?_, h.read_each a.isLt hresolve hdevice s⟩
    have hlocated := readPartEach_located (d := d) (m := m) (a := a.toNat) (r := r) 0
      (fun k hk => by rw [Nat.zero_add]; exact (hr k hk).2) s
    rw [h.physicalRead_resolved a.isLt hresolve hdevice, range_eq_range', hlocated]
    simp only [Nat.zero_add]
  write := fun size a value r s hr => by
    have hpos : 0 < size.bytes := by cases size <;> decide
    have hresolve := fun k hk => (hr k hk).1
    have hdevice := not_oneDevice hpos hr
    refine ⟨?_, h.write_each a.isLt hresolve hdevice value s⟩
    rw [h.physicalWrite_resolved a.isLt hresolve hdevice,
      writeParts_located value fun k hk => (hr k hk).2]
  read_each := fun size a s hprobe hdevice => by
    obtain ⟨r, hr⟩ := exists_resolved ((h.probe_size_iff a.isLt size).1 hprobe)
    exact h.read_each a.isLt hr hdevice s
  write_each := fun size a value s hprobe hdevice => by
    obtain ⟨r, hr⟩ := exists_resolved ((h.probe_size_iff a.isLt size).1 hprobe)
    exact h.write_each a.isLt hr hdevice value s
  write_error := fun _ _ _ _ _ => physicalWrite_error

end Sound

end Layout

namespace Mapping

theorem setWindow_error {m : Mapping} {slot : Nat} {window : Option Window} {error : PhysicalError}
    (h : (m.setWindow slot window).1 = .error error) : (m.setWindow slot window).2 = m := by
  rw [setWindow] at h ⊢
  split at h
  · next hbusy => rw [if_pos hbusy]
  · next hidle =>
    rw [if_neg hidle]
    split at h
    · rfl
    · cases h
    · cases h

theorem restoreWindows_error {m : Mapping} {windows : Fin 16 → Option Window}
    {error : PhysicalError} (h : (m.restoreWindows windows).1 = .error error) :
    (m.restoreWindows windows).2 = m := by
  rw [restoreWindows] at h ⊢
  split at h
  · next hbusy => rw [if_pos hbusy]
  · next hidle =>
    rw [if_neg hidle]
    split at h
    · rfl
    · split at h
      · next hlast => rw [if_pos hlast]
      · cases h

/-- The physical bus decodes consistently in every machine that a run leads to, and what is refused
changes nothing. -/
theorem physical_bus_consistent (c : Settings) (commands : List MapCommand) {m : Mapping}
    (hrun : c.start.run commands = some m) :
    m.layout.Consistent ∧ (∀ (δ : Type) (d : Devices δ), m.layout.ByBytes d) ∧
      (∀ slot window error, (m.setWindow slot window).1 = .error error →
        (m.setWindow slot window).2 = m) ∧
      ∀ windows error, (m.restoreWindows windows).1 = .error error →
        (m.restoreWindows windows).2 = m := by
  have hsound := c.start_sound.run hrun
  exact ⟨hsound.consistent, fun _ => hsound.byBytes, fun _ _ _ => setWindow_error,
    fun _ _ => restoreWindows_error⟩

/-- 64 MiB of RAM, the last 16 of them at 4 GiB, and 2 MiB of extended RAM. -/
def small : Settings where
  memorySize := 0x4000000
  high := 0x1000000
  extendedPages := 512
  memorySize_sound := by decide
  high_sound := by decide
  extended_sound := by decide

/-- Device memory at 32 GiB. -/
def device : Window := ⟨0x800000000, 0xF0000000, 0x10000, .mmio⟩

/-- The device's window is added to that of the RAM; then both are restored, it in another slot. -/
def remapped : List MapCommand :=
  [.setWindow 1 (some device), .setTseg 0x2F00000 0x3000000, .smm true,
    .restoreWindows fun i => if i.val = 2 then some device else small.start.layout.bus.windows i]

theorem physical_bus_consistent_small : ∃ m, small.start.run remapped = some m ∧
    m.layout.bus.windows 2 = some device ∧
      m.layout.Consistent ∧ (∀ (δ : Type) (d : Devices δ), m.layout.ByBytes d) ∧
      (∀ slot window error, (m.setWindow slot window).1 = .error error →
        (m.setWindow slot window).2 = m) ∧
      ∀ windows error, (m.restoreWindows windows).1 = .error error →
        (m.restoreWindows windows).2 = m := by
  have hruns : (small.start.run remapped).map (fun m => m.layout.bus.windows 2) =
      some (some device) := by decide +kernel
  obtain ⟨m, hrun, hwindow⟩ := Option.map_eq_some_iff.1 hruns
  exact ⟨m, hrun, hwindow, physical_bus_consistent small remapped hrun⟩

end Mapping

end V86.Bus
