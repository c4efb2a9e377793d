import V86.Lib.History
import V86.X64.PagingCorrect

/-!
# The cache of translations

A run of the cache is a list of events, of which each insertion follows a walk. What the cache
answers was inserted, and no event after that retracted it (`lookup_since`), as long as every CR3 is
a physical address and no epoch of the translations that are not global ends by a wrap of its
counter. Under the same condition a snapshot is taken back, with the same answers.
-/

namespace V86.X64

open Bits History
open BitVec hiding not_not not_or

/-! ## Slots -/

theorem slot_page (a : Address) (access : BitVec 8) :
    Tlb.slot ((a >>> 12) <<< 12) access = Tlb.slot a access := by
  rw [Tlb.slot, page_shift a (Nat.le_refl 12), page_shift a (by decide), Tlb.slot]

theorem slot_control (a : Address) (access : Access) (c : Controls) :
    Tlb.slot a (Tlb.control access c) = Tlb.slot a access.bits := by
  have hlow : ∀ x : BitVec 8, x.setWidth 64 &&& 3 = (x &&& 3).setWidth 64 := by
    intro x
    rw [setWidth_and]
    rfl
  have hbits : access.bits &&& 3 = access.bits := by cases access <;> rfl
  rw [Tlb.slot, Tlb.slot, hlow, hlow, (control_bits access c).1, hbits]

/-- The slot that an entry belongs to. -/
def Cached.home (e : Cached) : BitVec 8 := Tlb.slot (e.linearPage <<< 12) e.control

theorem tlbRegionBit_eq (a : Address) : tlbRegionBit a =
    ((tlbRegionBit a).1, bit 64 ((a >>> 21).toNat % 1024 % 64)) := rfl

theorem tlbRegionBit_page (a : Address) : tlbRegionBit ((a >>> 12) <<< 12) = tlbRegionBit a := by
  unfold tlbRegionBit
  simp only [page_shift a (show 12 ≤ 21 by decide)]

/-! ## The invariant -/

/-- What a lookup needs of a cache: entries of the current epochs are in their slots, would be
restored, and are found by the filter if they are of large pages; no entry is of a later epoch. -/
structure Tlb.Inv (t : Tlb) : Prop where
  home : ∀ {s e}, t.entries s = some e → t.isLive e = true → e.home = s
  admissible : ∀ {s e}, t.entries s = some e → t.isLive e = true →
    e.admissible = true ∧ e.witnessed = true ∧ e.control.setWidth 32 &&& ~~~31 = 0
  region : ∀ {s e}, t.entries s = some e → t.isLive e = true → e.value.pageShift = 21 →
    t.large.has (tlbRegionBit (e.linearPage <<< 12)) = true
  old : ∀ {s e}, t.entries s = some e →
    e.epoch ≤ if e.value.isGlobal then t.globalEpoch else t.epoch

namespace Tlb

variable {t : Tlb}

theorem inv_new : Tlb.new.Inv := ⟨nofun, nofun, nofun, nofun⟩

theorem isLive_iff {e : Cached} :
    t.isLive e = true ↔ e.epoch = if e.value.isGlobal then t.globalEpoch else t.epoch := by
  rw [isLive, decide_eq_true_eq]

/-- Slots that are emptied. -/
theorem Inv.retain (h : t.Inv) (p : BitVec 8 → Cached → Bool) : (t.retain p).Inv where
  home hs := h.home (Option.eq_some_of_filter_eq_some hs)
  admissible hs := h.admissible (Option.eq_some_of_filter_eq_some hs)
  region hs := h.region (Option.eq_some_of_filter_eq_some hs)
  old hs := h.old (Option.eq_some_of_filter_eq_some hs)

/-- A slot that is filled. -/
theorem Inv.setSlot (h : t.Inv) {large : Filter 16} {s : BitVec 8} {e : Cached}
    (hlarge : ∀ a, t.large.has (tlbRegionBit a) = true → large.has (tlbRegionBit a) = true)
    (hlive : t.isLive e = true) (hhome : e.home = s)
    (hadm : e.admissible = true ∧ e.witnessed = true ∧ e.control.setWidth 32 &&& ~~~31 = 0)
    (hregion : e.value.pageShift = 21 →
      large.has (tlbRegionBit (e.linearPage <<< 12)) = true) :
    ({ t with large := large }.setSlot s (some e)).Inv := by
  have hslot : ∀ {s' e'}, ({ t with large := large }.setSlot s (some e)).entries s' = some e' →
      s' = s ∧ e' = e ∨ t.entries s' = some e' := by
    intro s' e' hs
    dsimp only [Tlb.setSlot] at hs
    split at hs
    · next heq => exact .inl ⟨heq, (Option.some.inj hs).symm⟩
    · exact .inr hs
  refine ⟨fun hs hl => ?_, fun hs hl => ?_, fun hs hl hsize => ?_, fun hs => ?_⟩
  · rcases hslot hs with ⟨rfl, rfl⟩ | hs
    · exact hhome
    · exact h.home hs hl
  · rcases hslot hs with ⟨rfl, rfl⟩ | hs
    · exact hadm
    · exact h.admissible hs hl
  · rcases hslot hs with ⟨rfl, rfl⟩ | hs
    · exact hregion hsize
    · exact hlarge _ (h.region hs hl hsize)
  · rcases hslot hs with ⟨rfl, rfl⟩ | hs
    · exact BitVec.le_of_eq (isLive_iff.1 hlive)
    · exact h.old hs

end Tlb

/-! ## Runs -/

/-- What an entry holds: the translation of a page for an access under some controls. -/
structure Line where
  page : BitVec 64
  access : Access
  controls : Controls
  value : Translation

def Cached.Holds (e : Cached) (l : Line) : Prop :=
  e.linearPage = l.page ∧ e.cr3 = l.controls.cr3 ∧ e.control = Tlb.control l.access l.controls ∧
    e.value = l.value

/-- What happens to a cache. Lookups and snapshots do not change it. -/
inductive TlbEvent (μ : Type)
  /-- A walk through the page tables `m`, and the insertion of its translation. -/
  | insert (m : μ) (address : Address) (access : Access) (c : Controls)
  | invalidate (address : Address)
  | clear
  | clearNonglobal
  | restore (records : List Dword)

section
variable {μ : Type} (mem : PageTableMemory μ)

def Tlb.step (t : Tlb) : TlbEvent μ → Tlb
  | .insert m address access c =>
    match walk mem m address access c .runtime with
    | .ok (.ok value, _) => t.insert address access c value
    | _ => t
  | .invalidate address => t.invalidate address
  | .clear => t.clear
  | .clearNonglobal => t.clearNonglobal
  | .restore records => (t.restoreSnapshot records).2

/-- The lines that an event brings in. -/
def TlbEvent.adds : TlbEvent μ → Line → Prop
  | .insert m address access c, l => ∃ value m',
    walk mem m address access c .runtime = .ok (.ok value, m') ∧
      l = ⟨address >>> 12, access, c, value⟩
  | .restore records, l => (Tlb.new.restoreSnapshot records).1 = true ∧
    ∃ s e, (Tlb.new.restoreSnapshot records).2.entries s = some e ∧ e.Holds l
  | _, _ => False

/-- The lines that an event retracts. A snapshot that is taken replaces the whole cache. -/
def TlbEvent.kills : TlbEvent μ → Line → Prop
  | .insert _ _ _ _, _ => False
  | .invalidate address, l => (l.page <<< 12) >>> l.value.pageShift = address >>> l.value.pageShift
  | .clear, _ => True
  | .clearNonglobal, l => l.value.isGlobal = false
  | .restore records, _ => (Tlb.new.restoreSnapshot records).1 = true

/-- An insertion is under a CR3 that is a physical address, and a flush of the translations that
are not global does not wrap their epoch. -/
def TlbEvent.Proper (t : Tlb) : TlbEvent μ → Prop
  | .insert _ _ _ c => c.cr3 ≤ physicalMask
  | .clearNonglobal => t.epoch ≠ BitVec.allOnes 64
  | _ => True

end

/-- A line that a lookup may answer. -/
def Tlb.Covers (t : Tlb) (l : Line) : Prop := ∃ s e, t.entries s = some e ∧ t.isLive e = true ∧ e.Holds l

/-! ## Steps -/

theorem le_succ_of_le {x y : BitVec 64} (h : x + 1 ≠ 0) (hy : y ≤ x) : y ≤ x + 1 := by
  bv_omega

theorem not_le_of_eq_succ {x y : BitVec 64} (h : x + 1 ≠ 0) (hy : y = x + 1) : ¬y ≤ x := by
  subst hy
  bv_omega

namespace Tlb

variable {t : Tlb} {l : Line} {address : Address} {access : Access} {c : Controls}

variable {value : Translation} {e : Cached} {t' : Tlb}

theorem insert_inv (h : t.Inv) (hvalue : value.Good address access c)
    (hcr3 : c.cr3 ≤ physicalMask) : (t.insert address access c value).Inv := by
  obtain ⟨hadm, hwit⟩ := walk_admissible hvalue hcr3
    (if value.isGlobal then t.globalEpoch else t.epoch)
  unfold Tlb.insert
  dsimp only
  refine h.setSlot (fun a ha => ?_) ?_ ?_ ⟨hadm, hwit, (control_bits access c).2.2.2.2⟩ fun hsize => ?_
  · rw [tlbRegionBit_eq] at ha ⊢
    split
    · exact Filter.has_full (Nat.mod_lt _ (by decide))
    split
    · exact Filter.has_mark (Nat.mod_lt _ (by decide)) _ ha
    · exact ha
  · exact isLive_iff.2 rfl
  · rw [Cached.home, slot_page, slot_control]
  · dsimp only at hsize ⊢
    rw [hsize, tlbRegionBit_page]
    exact Filter.has_mark_self _ (Nat.mod_lt _ (by decide))

theorem insert_covers (h : (t.insert address access c value).Covers l) :
    l = ⟨address >>> 12, access, c, value⟩ ∨ t.Covers l := by
  obtain ⟨s, e, hs, hlive, hholds⟩ := h
  unfold Tlb.insert at hs
  dsimp only [Tlb.setSlot] at hs
  split at hs
  · cases hs
    obtain ⟨hpage, hcr3, hcontrol, hvalue⟩ := hholds
    obtain ⟨haccess, huser, hwrite, hnx⟩ := control_injective hcontrol
    obtain ⟨page, access', ⟨cr3, user, writeProtect, nxEnable⟩, value'⟩ := l
    obtain ⟨cr3', user', writeProtect', nxEnable'⟩ := c
    dsimp only at hpage hcr3 haccess huser hwrite hnx hvalue
    subst hpage hcr3 haccess huser hwrite hnx hvalue
    exact .inl rfl
  · exact .inr ⟨s, e, hs, hlive, hholds⟩

theorem retain_covers {p : BitVec 8 → Cached → Bool} (h : (t.retain p).Covers l) :
    ∃ s e, t.entries s = some e ∧ t.isLive e = true ∧ e.Holds l ∧ p s e = false := by
  obtain ⟨s, e, hs, hlive, hholds⟩ := h
  obtain ⟨hs, hp⟩ := Option.filter_eq_some_iff.1 hs
  exact ⟨s, e, hs, hlive, hholds, by simpa using hp⟩

theorem page_address {x : BitVec 64} (h : x >>> 52 = 0) : (x <<< 12) >>> 12 = x := by
  refine eq_of_getLsbD_eq fun i hi => ?_
  rw [getLsbD_ushiftRight, getLsbD_shiftLeft, Nat.add_sub_cancel_left]
  rcases Nat.lt_or_ge i 52 with hlt | hge
  · simp [show 12 + i < 64 by omega]
  · have hzero : (x >>> 52).getLsbD (i - 52) = false := by
      rw [h]
      exact getLsbD_zero
    rw [getLsbD_ushiftRight, Nat.add_sub_cancel' hge] at hzero
    rw [hzero, Bool.and_false]

theorem admissible_page (h : e.admissible = true) : e.linearPage >>> 52 = 0 := by
  unfold Cached.admissible at h
  simp only [Bool.and_eq_true, decide_eq_true_eq] at h
  exact h.1.1.1.1.1.1

theorem admissible_size (h : e.admissible = true) :
    e.value.pageShift = 12 ∧ e.value.witnessCount = 4 ∨
      e.value.pageShift = 21 ∧ e.value.witnessCount = 3 := by
  unfold Cached.admissible at h
  simp only [Bool.and_eq_true, Bool.or_eq_true, decide_eq_true_eq] at h
  exact h.1.2

theorem tlbRegionBit_congr {a b : Address} (h : a >>> 21 = b >>> 21) :
    tlbRegionBit a = tlbRegionBit b := by
  unfold tlbRegionBit
  simp only [h]

/-- A line that an invalidation leaves is of no page with the address. -/
theorem invalidate_covers (h : t.Inv) (hc : (t.invalidate address).Covers l) :
    t.Covers l ∧ ¬(l.page <<< 12) >>> l.value.pageShift = address >>> l.value.pageShift := by
  unfold Tlb.invalidate at hc
  split at hc
  · obtain ⟨s, e, hs, hlive, hholds, hp⟩ := retain_covers hc
    obtain ⟨hpage, _, _, hvalue⟩ := id hholds
    rw [decide_eq_false_iff_not, hpage, hvalue] at hp
    exact ⟨⟨s, e, hs, hlive, hholds⟩, hp⟩
  · next hregion =>
    obtain ⟨s, e, hs, hlive, hholds, hp⟩ := retain_covers hc
    obtain ⟨hpage, _, hcontrol, hvalue⟩ := id hholds
    refine ⟨⟨s, e, hs, hlive, hholds⟩, fun hmaps => ?_⟩
    rw [← hpage, ← hvalue] at hmaps
    have hadm := (h.admissible hs hlive).1
    rcases admissible_size hadm with ⟨hsize, _⟩ | ⟨hsize, _⟩
    · -- a small page: its entry is in a slot of the address
      rw [hsize, page_address (admissible_page hadm)] at hmaps
      have hslot : s = slot address l.access.bits := by
        rw [← h.home hs hlive, Cached.home, hmaps, slot_page, hcontrol, slot_control]
      have hany : [Access.read, .write, .execute].any (fun access => s = slot address access.bits) =
          true := by
        rw [List.any_eq_true]
        exact ⟨l.access, by cases l.access <;> simp, decide_eq_true hslot⟩
      rw [hany, Bool.true_and, decide_eq_false_iff_not] at hp
      exact hp hmaps
    · -- a large page: the filter has its region
      rw [hsize] at hmaps
      have hhas := h.region hs hlive hsize
      rw [tlbRegionBit_congr hmaps] at hhas
      exact hregion hhas

theorem invalidate_inv (h : t.Inv) (address : Address) : (t.invalidate address).Inv := by
  unfold Tlb.invalidate
  split
  · exact h.retain _
  · exact h.retain _

theorem clear_inv (h : t.Inv) : t.clear.Inv ∧ ∀ l, ¬t.clear.Covers l := by
  unfold Tlb.clear
  split
  · refine ⟨⟨nofun, nofun, nofun, nofun⟩, ?_⟩
    rintro l ⟨_, _, hs, _⟩
    cases hs
  next hwrap =>
  simp only [Bool.or_eq_true, decide_eq_true_eq, not_or] at hwrap
  -- entries are of an epoch before
  have hdead : ∀ {s e}, t.entries s = some e →
      ¬e.epoch = if e.value.isGlobal then t.globalEpoch + 1 else t.epoch + 1 := by
    intro s e hs heq
    have hold := h.old hs
    split at heq
    · next hg =>
      rw [if_pos hg] at hold
      exact not_le_of_eq_succ hwrap.2 heq hold
    · next hg =>
      rw [if_neg hg] at hold
      exact not_le_of_eq_succ hwrap.1 heq hold
  refine ⟨⟨fun hs hl => absurd (isLive_iff.1 hl) (hdead hs),
    fun hs hl => absurd (isLive_iff.1 hl) (hdead hs),
    fun hs hl => absurd (isLive_iff.1 hl) (hdead hs), fun {s e} hs => ?_⟩, ?_⟩
  · have hold := h.old hs
    dsimp only
    split
    · next hg =>
      rw [if_pos hg] at hold
      exact le_succ_of_le hwrap.2 hold
    · next hg =>
      rw [if_neg hg] at hold
      exact le_succ_of_le hwrap.1 hold
  · rintro l ⟨s, e, hs, hl, _⟩
    exact hdead hs (isLive_iff.1 hl)

/-- Without a wrap of the epoch only global entries are left. -/
theorem clearNonglobal_inv (h : t.Inv) (hwrap : t.epoch ≠ BitVec.allOnes 64) :
    t.clearNonglobal.Inv ∧
      ∀ l, t.clearNonglobal.Covers l → t.Covers l ∧ l.value.isGlobal = true := by
  have hne : t.epoch + 1 ≠ 0 := by
    intro hzero
    refine hwrap (eq_of_toNat_eq ?_)
    rw [toNat_allOnes]
    bv_omega
  have heq : t.clearNonglobal = { t with epoch := t.epoch + 1 } := if_neg hne
  have hlive : ∀ {s e}, t.entries s = some e → Tlb.isLive { t with epoch := t.epoch + 1 } e = true →
      t.isLive e = true ∧ e.value.isGlobal = true := by
    intro s e hs hl
    rw [isLive_iff] at hl ⊢
    have hold := h.old hs
    by_cases hg : e.value.isGlobal = true
    · rw [if_pos hg] at hl ⊢
      exact ⟨hl, hg⟩
    · rw [if_neg hg] at hl hold
      exact absurd hold (not_le_of_eq_succ hne hl)
  rw [heq]
  refine ⟨⟨fun hs hl => h.home hs (hlive hs hl).1, fun hs hl => h.admissible hs (hlive hs hl).1,
    fun hs hl => h.region hs (hlive hs hl).1, fun {s e} hs => ?_⟩, ?_⟩
  · have hold := h.old hs
    dsimp only
    split
    · next hg => rwa [if_pos hg] at hold
    · next hg =>
      rw [if_neg hg] at hold
      exact le_succ_of_le hne hold
  · rintro l ⟨s, e, hs, hl, hholds⟩
    obtain ⟨hl, hg⟩ := hlive hs hl
    exact ⟨⟨s, e, hs, hl, hholds⟩, hholds.2.2.2 ▸ hg⟩

/-! ## Snapshots -/

theorem control_byte {x : BitVec 32} (h : x &&& ~~~31 = 0) :
    (x.setWidth 8).setWidth 32 &&& ~~~31 = (0 : BitVec 32) := by
  refine eq_of_getLsbD_eq fun i _ => ?_
  have hzero : (0 : BitVec 32).getLsbD i = false := getLsbD_zero
  have hbit : (x &&& ~~~31).getLsbD i = false := by rw [h, hzero]
  rw [getLsbD_and, Bool.and_eq_false_iff] at hbit
  rw [getLsbD_and, getLsbD_setWidth, getLsbD_setWidth, hzero]
  rcases hbit with hx | hy
  · rw [hx, Bool.and_false, Bool.and_false, Bool.false_and]
  · rw [hy, Bool.and_false]

theorem restoreRecord_inv {record : List Dword} (h : t.Inv)
    (hr : t.restoreRecord record = some t') : t'.Inv := by
  unfold Tlb.restoreRecord at hr
  dsimp only at hr
  split at hr
  · cases hr
  next hok =>
  simp only [Bool.or_eq_true, decide_eq_true_eq, Bool.not_eq_true', not_or, ne_eq, not_not,
    Bool.not_eq_false] at hok
  obtain ⟨⟨⟨⟨hcontrol, _⟩, hadm⟩, _⟩, hwit⟩ := hok
  cases hr
  refine h.setSlot (fun a ha => ?_) (isLive_iff.2 rfl) rfl ⟨hadm, hwit, control_byte hcontrol⟩
    fun hsize => ?_
  · split
    · rw [tlbRegionBit_eq] at ha ⊢
      exact Filter.has_mark (Nat.mod_lt _ (by decide)) _ ha
    · exact ha
  · have hsize' : (decodeRecord record).value.pageShift = 21 := hsize
    rw [if_pos hsize', tlbRegionBit_eq]
    exact Filter.has_mark_self _ (Nat.mod_lt _ (by decide))

theorem restoreRecords_inv {n : Nat} {records : List Dword} (h : t.Inv)
    (hr : restoreRecords n records t = some t') : t'.Inv := by
  induction n generalizing records t with
  | zero => exact (Option.some.inj hr) ▸ h
  | succ n ih =>
    rw [restoreRecords] at hr
    obtain ⟨t₁, ht₁, hrest⟩ := Option.bind_eq_some_iff.1 hr
    exact ih (restoreRecord_inv h ht₁) hrest

/-- A restore replaces the cache, or changes nothing. -/
theorem restoreSnapshot_cases (records : List Dword) :
    (∃ t' : Tlb, t'.Inv ∧ ∀ t : Tlb, t.restoreSnapshot records = (true, t')) ∨
      ∀ t : Tlb, t.restoreSnapshot records = (false, t) := by
  unfold Tlb.restoreSnapshot
  split
  · exact .inr fun _ => rfl
  · cases hr : restoreRecords (records.length / 18) records new with
    | none => exact .inr fun _ => rfl
    | some t' => exact .inl ⟨t', restoreRecords_inv inv_new hr, fun _ => rfl⟩

/-- The entry in a restored cache. -/
def fresh (e : Cached) : Cached := { e with epoch := 1 }

/-- The record of an entry is taken into a free slot. -/
theorem restoreRecord_record (hepoch : t.epoch = 1 ∧ t.globalEpoch = 1)
    (hadm : e.admissible = true ∧ e.witnessed = true ∧ e.control.setWidth 32 &&& ~~~31 = 0)
    (hfree : t.entries e.home = none) : ∃ t', t.restoreRecord e.record = some t' ∧
      (t'.epoch = 1 ∧ t'.globalEpoch = 1) ∧
      t'.entries = fun s => if s = e.home then some (fresh e) else t.entries s := by
  have hsize : e.value.pageShift < 2 ^ 32 ∧ e.value.witnessCount < 2 ^ 32 := by
    rcases admissible_size hadm.1 with ⟨h1, h2⟩ | ⟨h1, h2⟩ <;> omega
  have hdecode := decode_record hsize.1 hsize.2
  have hflags : e.record.getD 8 0 &&& ~~~15 = 0 :=
    (flag_bits e.value.writable e.value.user e.value.executable e.value.isGlobal).2.2.2.2
  have hcontrol : e.record.getD 4 0 &&& ~~~31 = 0 := hadm.2.2
  change decodeRecord e.record = fresh e at hdecode
  have hadm' : (fresh e).admissible = true := hadm.1
  have hwit' : (fresh e).witnessed = true := hadm.2.1
  have hfree' : t.entries (slot ((fresh e).linearPage <<< 12) (fresh e).control) = none := hfree
  unfold Tlb.restoreRecord
  dsimp only
  rw [hdecode]
  rw [if_neg]
  swap
  · rw [hcontrol, hflags, hfree', hadm', hwit']
    simp
  refine ⟨_, rfl, hepoch, ?_⟩
  funext s
  dsimp only [Tlb.setSlot]
  rw [hepoch.1, hepoch.2, ite_self]
  rfl

theorem restoreRecords_eq {es : List Cached} (hepoch : t.epoch = 1 ∧ t.globalEpoch = 1)
    (hadm : ∀ e ∈ es,
      e.admissible = true ∧ e.witnessed = true ∧ e.control.setWidth 32 &&& ~~~31 = 0)
    (hhomes : es.Pairwise fun e e' => e.home ≠ e'.home)
    (hfree : ∀ e ∈ es, t.entries e.home = none) :
    ∃ t', restoreRecords es.length (es.flatMap Cached.record) t = some t' ∧
      (t'.epoch = 1 ∧ t'.globalEpoch = 1) ∧ (∀ e ∈ es, t'.entries e.home = some (fresh e)) ∧
      ∀ s, (∀ e ∈ es, e.home ≠ s) → t'.entries s = t.entries s := by
  induction es generalizing t with
  | nil => exact ⟨t, rfl, hepoch, nofun, fun _ _ => rfl⟩
  | cons e es ih =>
    rw [List.pairwise_cons] at hhomes
    obtain ⟨t₁, hrecord, hepoch₁, hentries⟩ := restoreRecord_record hepoch
      (hadm e List.mem_cons_self) (hfree e List.mem_cons_self)
    have hfree₁ : ∀ e' ∈ es, t₁.entries e'.home = none := by
      intro e' he'
      rw [hentries]
      dsimp only
      rw [if_neg (hhomes.1 e' he').symm]
      exact hfree e' (List.mem_cons_of_mem _ he')
    obtain ⟨t', hrest, hepoch', hin, hout⟩ := ih hepoch₁
      (fun e' he' => hadm e' (List.mem_cons_of_mem _ he')) hhomes.2 hfree₁
    refine ⟨t', ?_, hepoch', fun e' he' => ?_, fun s hs => ?_⟩
    · rw [List.length_cons, List.flatMap_cons, restoreRecords, List.take_left' e.length_record,
        List.drop_left' e.length_record, hrecord]
      exact hrest
    · rcases List.mem_cons.1 he' with rfl | he'
      · rw [hout _ fun e'' he'' => (hhomes.1 e'' he'').symm, hentries]
        exact if_pos rfl
      · exact hin e' he'
    · rw [hout s fun e' he' => hs e' (List.mem_cons_of_mem _ he'), hentries]
      exact if_neg (hs e List.mem_cons_self).symm

theorem nodup_slots : slots.Nodup := by
  refine List.Nodup.map_on (fun i hi j hj h => ?_) List.nodup_range
  have hnat := congrArg BitVec.toNat h
  rw [toNat_ofNat, toNat_ofNat, Nat.mod_eq_of_lt (List.mem_range.1 hi),
    Nat.mod_eq_of_lt (List.mem_range.1 hj)] at hnat
  exact hnat

theorem mem_slots (s : BitVec 8) : s ∈ slots :=
  List.mem_map.2 ⟨s.toNat, List.mem_range.2 s.isLt, eq_of_toNat_eq (by simp)⟩

theorem mem_liveEntries : e ∈ t.liveEntries ↔ ∃ s, t.entries s = some e ∧ t.isLive e = true := by
  unfold Tlb.liveEntries
  rw [List.mem_filterMap]
  constructor
  · rintro ⟨s, _, hs⟩
    exact ⟨s, Option.filter_eq_some_iff.1 hs⟩
  · rintro ⟨s, hs⟩
    exact ⟨s, mem_slots s, Option.filter_eq_some_iff.2 hs⟩

theorem length_snapshot (t : Tlb) : t.snapshot.length = 18 * t.liveEntries.length := by
  unfold Tlb.snapshot
  induction t.liveEntries with
  | nil => rfl
  | cons e es ih =>
    rw [List.flatMap_cons, List.length_append, ih, e.length_record, List.length_cons]
    omega

/-- A snapshot is taken back: the cache has the entries of the current epochs, in a new epoch. -/
theorem restore_snapshot (h : t.Inv) : ∃ t', (∀ t₀ : Tlb, t₀.restoreSnapshot t.snapshot = (true, t')) ∧
    (t'.epoch = 1 ∧ t'.globalEpoch = 1) ∧
    ∀ s, t'.entries s = ((t.entries s).filter t.isLive).map fresh := by
  have hadm : ∀ e ∈ t.liveEntries,
      e.admissible = true ∧ e.witnessed = true ∧ e.control.setWidth 32 &&& ~~~31 = 0 := by
    intro e he
    obtain ⟨s, hs, hl⟩ := mem_liveEntries.1 he
    exact h.admissible hs hl
  have hhomes : t.liveEntries.Pairwise fun e e' => e.home ≠ e'.home := by
    refine List.Pairwise.filterMap _ (fun s s' hne e he e' he' => ?_) nodup_slots
    obtain ⟨hs, hl⟩ := Option.filter_eq_some_iff.1 he
    obtain ⟨hs', hl'⟩ := Option.filter_eq_some_iff.1 he'
    rw [h.home hs hl, h.home hs' hl']
    exact hne
  obtain ⟨t', hrestore, hepoch, hin, hout⟩ := restoreRecords_eq (t := new) ⟨rfl, rfl⟩ hadm hhomes
    fun _ _ => rfl
  have hcount : t.liveEntries.length ≤ 256 := by
    have hle : slots.length = 256 := by rw [slots, List.length_map, List.length_range]
    exact hle ▸ List.length_filterMap_le _ _
  refine ⟨t', fun t₀ => ?_, hepoch, fun s => ?_⟩
  · have hlen := length_snapshot t
    have hdiv : t.snapshot.length / 18 = t.liveEntries.length := by omega
    have hmod : t.snapshot.length % 18 = 0 := by omega
    unfold Tlb.restoreSnapshot
    rw [if_neg, hdiv]
    · have hrestore' : restoreRecords t.liveEntries.length t.snapshot new = some t' := hrestore
      rw [hrestore']
    · simp [hmod, hdiv, hcount]
  · cases hs : (t.entries s).filter t.isLive with
    | some e =>
      obtain ⟨hs, hl⟩ := Option.filter_eq_some_iff.1 hs
      have := hin e (mem_liveEntries.2 ⟨s, hs, hl⟩)
      rwa [h.home hs hl] at this
    | none =>
      refine hout s fun e he heq => ?_
      obtain ⟨s', hs', hl'⟩ := mem_liveEntries.1 he
      rw [h.home hs' hl'] at heq
      subst heq
      rw [Option.filter_eq_some_iff.2 ⟨hs', hl'⟩] at hs
      cases hs

theorem current_eq (t : Tlb) (e : Cached) (cr3 : BitVec 64) :
    t.current e cr3 = (t.isLive e && (e.value.isGlobal || decide (e.cr3 = cr3))) := by
  unfold Tlb.current Tlb.isLive
  cases e.value.isGlobal <;> simp

/-- A restored snapshot answers as the cache does. -/
theorem hit_restored (hepoch : t'.epoch = 1 ∧ t'.globalEpoch = 1)
    (hentries : ∀ s, t'.entries s = ((t.entries s).filter t.isLive).map fresh) :
    t'.hit address access c = (t.hit address access c).map fresh := by
  unfold Tlb.hit
  rw [hentries]
  cases hs : t.entries (slot address access.bits) with
  | none => rfl
  | some e =>
    cases hl : t.isLive e with
    | false =>
      have hdead : (some e).filter t.isLive = none := by simp [hl]
      rw [hdead]
      dsimp only [Option.map_none]
      rw [current_eq, hl]
      rfl
    | true =>
      have hfilter : (some e).filter t.isLive = some e := by simp [hl]
      have hfresh : t'.isLive (fresh e) = true := by
        rw [isLive_iff, hepoch.1, hepoch.2, ite_self]
        rfl
      rw [hfilter, Option.map_some]
      dsimp only
      rw [current_eq, current_eq, hl, hfresh]
      rw [apply_ite (Option.map fresh)]
      rfl

end Tlb

/-! ## Answers -/

section
variable {μ : Type} {mem : PageTableMemory μ} {t : Tlb} {address : Address} {access : Access}
  {c : Controls}

/-- What holds of a line that answers a lookup. -/
structure Line.Answers (l : Line) (address : Address) (access : Access) (c : Controls)
    (answer : Translation) : Prop where
  page : l.page = address >>> 12
  access : l.access = access
  user : l.controls.user = c.user
  writeProtect : l.controls.writeProtect = c.writeProtect
  nxEnable : l.controls.nxEnable = c.nxEnable
  cr3 : l.value.isGlobal = true ∨ l.controls.cr3 = c.cr3
  answer : answer = { l.value with physical := Tlb.physicalAt l.value address }

theorem lookup_covers {answer : Translation} (h : t.lookup address access c = some answer) :
    ∃ l, t.Covers l ∧ l.Answers address access c answer := by
  obtain ⟨e, he, hanswer⟩ := Option.map_eq_some_iff.1 h
  unfold Tlb.hit at he
  split at he
  · next e' hs =>
    split at he
    · cases he
    next hok =>
    cases he
    simp only [Bool.or_eq_true, Bool.not_eq_true', decide_eq_true_eq, not_or, ne_eq, not_not,
      Bool.not_eq_false, Tlb.current_eq, Bool.and_eq_true] at hok
    obtain ⟨⟨⟨hlive, hcr3⟩, hpage⟩, hcontrol⟩ := hok
    exact ⟨⟨e.linearPage, access, { c with cr3 := e.cr3 }, e.value⟩,
      ⟨_, e, hs, hlive, rfl, rfl, hcontrol, rfl⟩, hpage, rfl, rfl, rfl, rfl, hcr3, hanswer.symm⟩
  · cases he

/-- What a step answers was brought in by it, or is not retracted by it. -/
theorem Tlb.step_covers (mem : PageTableMemory μ) (t : Tlb) (e : TlbEvent μ) (h : t.Inv)
    (he : e.Proper t) : (t.step mem e).Inv ∧
      ∀ l, (t.step mem e).Covers l → e.adds mem l ∨ t.Covers l ∧ ¬e.kills l := by
  cases e with
  | insert m address access c =>
    unfold Tlb.step
    dsimp only
    split
    · next value m' hwalk =>
      refine ⟨insert_inv h (walk_good hwalk) he, fun l hl => ?_⟩
      rcases insert_covers hl with rfl | hl
      · exact .inl ⟨value, m', hwalk, rfl⟩
      · exact .inr ⟨hl, not_false⟩
    · exact ⟨h, fun l hl => .inr ⟨hl, not_false⟩⟩
  | invalidate address => exact ⟨invalidate_inv h address, fun l hl => .inr (invalidate_covers h hl)⟩
  | clear =>
    obtain ⟨hinv, hnone⟩ := clear_inv h
    exact ⟨hinv, fun l hl => absurd hl (hnone l)⟩
  | clearNonglobal =>
    obtain ⟨hinv, hleft⟩ := clearNonglobal_inv h he
    refine ⟨hinv, fun l hl => .inr ?_⟩
    obtain ⟨hl, hg⟩ := hleft l hl
    exact ⟨hl, fun hk => Bool.false_ne_true (hk.symm.trans hg)⟩
  | restore records =>
    rcases restoreSnapshot_cases records with ⟨t', hinv, hr⟩ | hr
    · have hstep : t.step mem (.restore records) = t' := congrArg Prod.snd (hr t)
      rw [hstep]
      refine ⟨hinv, fun l hl => .inl ?_⟩
      obtain ⟨s, e, hs, _, hholds⟩ := hl
      have hnew := hr new
      exact ⟨congrArg Prod.fst hnew, s, e, (congrArg Prod.snd hnew).symm ▸ hs, hholds⟩
    · have hstep : t.step mem (.restore records) = t := congrArg Prod.snd (hr t)
      rw [hstep]
      refine ⟨h, fun l hl => .inr ⟨hl, fun hk => ?_⟩⟩
      have hfalse := congrArg Prod.fst (hr new)
      exact Bool.false_ne_true (hfalse.symm.trans hk)

/-- A cache that covers only what holds since a history answers only such lines, whatever happens
to it from then on. -/
theorem lookup_since (old : List (TlbEvent μ)) {es : List (TlbEvent μ)} (h : t.Inv)
    (hes : Runs.Each (Tlb.step mem) TlbEvent.Proper t es)
    (hold : ∀ l, t.Covers l → Since (TlbEvent.adds mem) TlbEvent.kills old l)
    {answer : Translation} (hanswer : (after (Tlb.step mem) t es).lookup address access c = some answer) :
    ∃ l, Since (TlbEvent.adds mem) TlbEvent.kills (old ++ es) l ∧
      l.Answers address access c answer := by
  obtain ⟨l, hl, hanswers⟩ := lookup_covers hanswer
  exact ⟨l, (covered_of_run (Tlb.step_covers mem) old h hes hold).2 l hl, hanswers⟩

/-- The cache of translations, in any state that it reaches by proper events: it answers only what
was inserted and not retracted since, `lookup_physical` agrees, a snapshot is taken back with the
same answers and the same history, and a snapshot that is not taken changes nothing. -/
theorem tlb_live (mem : PageTableMemory μ) {es : List (TlbEvent μ)} {t : Tlb}
    (hes : Runs.Each (Tlb.step mem) TlbEvent.Proper Tlb.new es)
    (ht : t = after (Tlb.step mem) Tlb.new es) :
    (∀ address access c answer, t.lookup address access c = some answer →
      ∃ l, Since (TlbEvent.adds mem) TlbEvent.kills es l ∧ l.Answers address access c answer) ∧
    (∀ address access c, t.lookupPhysical address access c =
      (t.lookup address access c).map Translation.physical) ∧
    (∃ t', (∀ t₀ : Tlb, t₀.restoreSnapshot t.snapshot = (true, t')) ∧
      (∀ address access c, t'.lookup address access c = t.lookup address access c) ∧
      ∀ es', Runs.Each (Tlb.step mem) TlbEvent.Proper t' es' → ∀ address access c answer,
          (after (Tlb.step mem) t' es').lookup address access c = some answer →
          ∃ l, Since (TlbEvent.adds mem) TlbEvent.kills (es ++ es') l ∧
            l.Answers address access c answer) ∧
    ∀ records t', t.restoreSnapshot records = (false, t') → t' = t := by
  obtain ⟨hinv, hcovers⟩ := covered_of_run (Tlb.step_covers mem) [] Tlb.inv_new hes
    (fun l ⟨_, _, hs, _⟩ => nomatch hs)
  rw [← ht] at hinv hcovers
  rw [List.nil_append] at hcovers
  refine ⟨fun address access c answer hanswer => ?_, fun address access c => ?_, ?_, ?_⟩
  · obtain ⟨l, hl, hanswers⟩ := lookup_covers hanswer
    exact ⟨l, hcovers l hl, hanswers⟩
  · unfold Tlb.lookupPhysical Tlb.lookup
    rw [Option.map_map]
    rfl
  · obtain ⟨t', hrestore, hepoch, hentries⟩ := Tlb.restore_snapshot hinv
    refine ⟨t', hrestore, fun address access c => ?_, fun es' hes' address access c answer hanswer => ?_⟩
    · unfold Tlb.lookup
      rw [Tlb.hit_restored hepoch hentries, Option.map_map]
      rfl
    · have hinv' : t'.Inv := by
        rcases Tlb.restoreSnapshot_cases t.snapshot with ⟨t'', hinv'', hr⟩ | hr
        · have heq := (hrestore t).symm.trans (hr t)
          have hsame : t' = t'' := (Prod.ext_iff.1 heq).2
          rw [hsame]
          exact hinv''
        · have heq := (hrestore t).symm.trans (hr t)
          cases (Prod.ext_iff.1 heq).1
      refine lookup_since es hinv' hes' (fun l hl => ?_) hanswer
      obtain ⟨s, e, hs, _, hholds⟩ := hl
      rw [hentries] at hs
      obtain ⟨e₀, hs₀, rfl⟩ := Option.map_eq_some_iff.1 hs
      obtain ⟨hs₀, hlive₀⟩ := Option.filter_eq_some_iff.1 hs₀
      exact hcovers l ⟨s, e₀, hs₀, hlive₀, hholds⟩
  · intro records t' hr
    rcases Tlb.restoreSnapshot_cases records with ⟨t'', _, hr'⟩ | hr'
    · cases (Prod.ext_iff.1 (hr.symm.trans (hr' t))).1
    · exact (Prod.ext_iff.1 (hr.symm.trans (hr' t))).2

end

/-! ## A run -/

/-- Page tables in a memory of words of 64 bits. -/
def tables : PageTableMemory (Address → BitVec 64) where
  readEntry m address _ := (some (m address), m)
  writeEntry m address value := (true, fun a => if a = address then value else m a)

/-- Tables at `0x1000` that map the page at `0x1000` to `0x5000`. -/
def sampleTables (address : Address) : BitVec 64 :=
  if address = 0x1000 then 0x2007
  else if address = 0x2000 then 0x3007
  else if address = 0x3000 then 0x4007
  else if address = 0x4008 then 0x5007
  else 0

def sampleControls : Controls := ⟨0x1000, false, true, true⟩

/-- An insertion, an invalidation of another page and a flush. -/
def sampleEvents : List (TlbEvent (Address → BitVec 64)) :=
  [.insert sampleTables 0x1234 .read sampleControls, .invalidate 0x400000, .clearNonglobal,
    .insert sampleTables 0x1234 .read sampleControls]

theorem sampleEvents_proper : Runs.Each (Tlb.step tables) TlbEvent.Proper Tlb.new sampleEvents := by
  refine ⟨?_, trivial, ?_, ?_, trivial⟩
  · change sampleControls.cr3 ≤ physicalMask
    decide
  · change (Tlb.epoch _) ≠ BitVec.allOnes 64
    decide +kernel
  · change sampleControls.cr3 ≤ physicalMask
    decide

theorem tlb_live_sample : ∃ answer, answer.physical = 0x5234 ∧
    ∃ l, Since (TlbEvent.adds tables) TlbEvent.kills sampleEvents l ∧
      l.Answers 0x1234 .read sampleControls answer := by
  have hanswer : ((after (Tlb.step tables) Tlb.new sampleEvents).lookup 0x1234 .read
      sampleControls).map Translation.physical = some 0x5234 := by decide +kernel
  obtain ⟨answer, hanswer, hphysical⟩ := Option.map_eq_some_iff.1 hanswer
  exact ⟨answer, hphysical, (tlb_live tables sampleEvents_proper rfl).1 0x1234 .read _ _ hanswer⟩

/-! ## Outside the condition -/

/-- As many flushes as end with the epoch at its last value. -/
theorem after_clearNonglobal {μ : Type} (mem : PageTableMemory μ) {t : Tlb} {n : Nat}
    (h : t.epoch.toNat + n < 2 ^ 64) :
    after (Tlb.step mem) t (List.replicate n .clearNonglobal) =
      { t with epoch := t.epoch + BitVec.ofNat 64 n } := by
  induction n generalizing t with
  | zero => rw [BitVec.add_zero]; rfl
  | succ n ih =>
    have hone : (t.epoch + 1).toNat = t.epoch.toNat + 1 := by
      have hnat : (1 : BitVec 64).toNat = 1 := rfl
      rw [toNat_add, hnat]
      omega
    have hstep : t.step mem .clearNonglobal = { t with epoch := t.epoch + 1 } := by
      refine if_neg fun hzero => ?_
      have := congrArg BitVec.toNat hzero
      dsimp only at this
      rw [hone] at this
      cases this
    rw [List.replicate_succ, after, List.foldl_cons, hstep]
    have hrun := ih (t := { t with epoch := t.epoch + 1 }) (by dsimp only; omega)
    rw [after] at hrun
    rw [hrun]
    dsimp only
    have hadd : t.epoch + 1 + BitVec.ofNat 64 n = t.epoch + BitVec.ofNat 64 (n + 1) := by
      rw [ofNat_add, BitVec.add_assoc, BitVec.add_comm 1]
      rfl
    rw [hadd]

def TlbEvent.isFlush {μ : Type} : TlbEvent μ → Bool
  | .clear => true
  | .clearNonglobal => true
  | _ => false

/-- The translation of a page that is not global, and `2 ^ 64 - 1` flushes of such translations. -/
def staleEvents : List (TlbEvent (Address → BitVec 64)) :=
  .insert sampleTables 0x1234 .read sampleControls ::
    (List.replicate (2 ^ 64 - 2) .clearNonglobal ++ [.clearNonglobal])

/-- A CR3 with a bit above the physical addresses, as RSM loads it. The walk drops the bit. -/
def wideControls : Controls := { sampleControls with cr3 := 0x1000001000 }

theorem sample_nonglobal {l : Line}
    (h : TlbEvent.adds tables (.insert sampleTables 0x1234 .read sampleControls) l) :
    l.value.isGlobal = false := by
  obtain ⟨value, m, hwalk, rfl⟩ := h
  have hlocal : (match walk tables sampleTables 0x1234 .read sampleControls .runtime with
      | .ok (.ok value, _) => value.isGlobal
      | _ => true) = false := by decide +kernel
  rw [hwalk] at hlocal
  exact hlocal

theorem staleEvents_retract {l : Line} :
    ¬Since (TlbEvent.adds tables) TlbEvent.kills staleEvents l := by
  intro h
  obtain ⟨e, he, hadds⟩ := h.exists_adds
  have hlocal : l.value.isGlobal = false := by
    rcases List.mem_cons.1 he with rfl | he
    · exact sample_nonglobal hadds
    rcases List.mem_append.1 he with he | he
    · rw [List.eq_of_mem_replicate he] at hadds
      exact hadds.elim
    · rw [List.mem_singleton.1 he] at hadds
      exact hadds.elim
  rw [staleEvents, ← List.cons_append] at h
  exact h.not_kills id hlocal

/-- The wrapped epoch is that of the translation again: `clear` counts on from zero, so that its
own check of a wrap finds none. -/
theorem staleEvents_answer : ((after (Tlb.step tables) Tlb.new staleEvents).lookup 0x1234 .read
    sampleControls).map Translation.physical = some 0x5234 := by
  have hepoch : (after (Tlb.step tables) Tlb.new
      [.insert sampleTables 0x1234 .read sampleControls]).epoch = 1 := by decide +kernel
  have hrun := after_clearNonglobal tables (n := 2 ^ 64 - 2) (t := after (Tlb.step tables) Tlb.new
      [.insert sampleTables 0x1234 .read sampleControls]) (by rw [hepoch]; decide)
  rw [hepoch] at hrun
  unfold after at hrun ⊢
  rw [staleEvents, List.foldl_cons, List.foldl_append]
  rw [List.foldl_cons, List.foldl_nil] at hrun
  rw [hrun]
  decide +kernel

/-- The epoch comes back to that of an old entry, and a snapshot with a wide CR3 is rejected. -/
theorem tlb_not_live : (staleEvents.countP TlbEvent.isFlush < 2 ^ 64 ∧ ∃ answer,
      (after (Tlb.step tables) Tlb.new staleEvents).lookup 0x1234 .read sampleControls =
        some answer ∧ ¬∃ l, Since (TlbEvent.adds tables) TlbEvent.kills staleEvents l ∧
        l.Answers 0x1234 .read sampleControls answer) ∧ ∃ t, t = after (Tlb.step tables) Tlb.new
        [.insert sampleTables 0x1234 .read wideControls] ∧
      (t.restoreSnapshot t.snapshot).1 = false := by
  refine ⟨⟨?_, ?_⟩, _, rfl, by decide +kernel⟩
  · have hinsert : TlbEvent.isFlush
        (.insert sampleTables 0x1234 .read sampleControls) = false := rfl
    rw [staleEvents, List.countP_cons_of_neg (by rw [hinsert]; exact Bool.false_ne_true),
      List.countP_append, List.countP_replicate]
    decide
  · obtain ⟨answer, hanswer, _⟩ := Option.map_eq_some_iff.1 staleEvents_answer
    exact ⟨answer, hanswer, fun ⟨l, hl, _⟩ => staleEvents_retract hl⟩

end V86.X64
