import V86.X64.AccessCache
import V86.X64.TlbCorrect

/-!
# What the caches of compiled pages answer

An entry whose tag matches a page in the current epoch of its core was filled for the page, and
nothing retracted it since (`lookups_live`). The access cache keeps this by itself: it is emptied
when its epoch wraps, and its filter finds the entries of large pages. The chaining tables and
`CODE_TLB` share the epoch but not the emptying nor the filter, so that they keep it only as long as
an epoch does not return while an entry carries it, and as long as an INVLPG in a large page finds
the region in the filter of the access cache.
-/

namespace V86.X64

open Bits History BitVec

local instance neZeroCores : NeZero 8 := ⟨by decide⟩

/-! ## Tags -/

/-- The epoch of a tag. -/
def tagEpoch (tag : BitVec 64) : BitVec 64 := tag >>> epochShift

/-- A linear page number. -/
def IsPage (page : BitVec 64) : Prop := page >>> 52 = 0

theorem isPage_of_address (a : Address) : IsPage (a >>> 12) := by
  refine eq_of_getLsbD_eq fun i _ => ?_
  have hzero : (0 : BitVec 64).getLsbD i = false := getLsbD_zero
  rw [getLsbD_ushiftRight, getLsbD_ushiftRight, hzero]
  exact getLsbD_of_ge _ _ (by omega)

variable {page epoch : BitVec 64}

theorem IsPage.high (h : IsPage page) {i : Nat} (hi : 52 ≤ i) : page.getLsbD i = false := by
  have hbit : (page >>> 52).getLsbD (i - 52) = false := by
    rw [show page >>> 52 = 0 from h]
    exact getLsbD_zero
  rwa [getLsbD_ushiftRight, Nat.add_sub_cancel' hi] at hbit

theorem tagPage_or (h : IsPage page) : Core.tagPage (page ||| epoch <<< epochShift) = page := by
  refine eq_of_getLsbD_eq fun i hi => ?_
  rw [Core.tagPage, epochShift, getLsbD_and, getLsbD_or, getLsbD_not,
    getLsbD_shiftLeft, getLsbD_shiftLeft, getLsbD_allOnes]
  rcases Nat.lt_or_ge i 52 with hlt | hge
  · simp [hi, hlt]
  · rw [h.high hge]
    simp [hi, Nat.not_lt.2 hge, show i - 52 < 64 by omega]

theorem tagEpoch_or (h : IsPage page) (he : epoch.toNat < 4096) :
    tagEpoch (page ||| epoch <<< epochShift) = epoch := by
  refine eq_of_getLsbD_eq fun i hi => ?_
  rw [tagEpoch, epochShift, getLsbD_ushiftRight, getLsbD_or,
    getLsbD_shiftLeft, h.high (Nat.le_add_right 52 i), Bool.false_or,
    Nat.add_sub_cancel_left, decide_eq_false (Nat.not_lt.2 (Nat.le_add_right 52 i)), Bool.not_false,
    Bool.and_true]
  rcases Nat.lt_or_ge i 12 with hlt | hge
  · rw [decide_eq_true (show 52 + i < 64 by omega), Bool.true_and]
  · have hsmall : epoch.toNat < 2 ^ i :=
      Nat.lt_of_lt_of_le he (Nat.pow_le_pow_right (show 0 < 2 by decide) hge)
    have hzero : epoch.getLsbD i = false := Nat.testBit_lt_two_pow hsmall
    rw [hzero, Bool.and_false]

theorem tagEpoch_zero : tagEpoch 0 = 0 := rfl

theorem tagEpoch_zero_le (epoch : BitVec 64) : tagEpoch 0 ≤ epoch := by
  rw [tagEpoch_zero]
  bv_omega

theorem isPage_userBit (user : Bool) : IsPage (Core.userBit user) := by cases user <;> rfl

/-! ## Lines -/

/-- The three caches. -/
inductive CacheKind
  | access (write : Bool)
  | chain
  | code

/-- What an entry of a core was filled with. -/
structure CacheLine where
  core : Fin 8
  kind : CacheKind
  user : Bool
  page : BitVec 64
  target : Dword
  isGlobal : Bool
  isLarge : Bool

/-- The address bits that a page does not translate. -/
def CacheLine.shift (l : CacheLine) : Nat := if l.isLarge then 21 else 12

/-- An address in the page of a line. -/
def CacheLine.Maps (l : CacheLine) (address : Address) : Prop :=
  (l.page <<< 12) >>> l.shift = address >>> l.shift

/-- An entry matches the page of a line. -/
def Entry.Is (e : Entry) (epoch : BitVec 64) (l : CacheLine) : Prop :=
  IsPage l.page ∧ e = ⟨l.page ||| epoch <<< epochShift, l.target, l.isGlobal, l.isLarge⟩

/-- Some entry of a core matches the page of a line. -/
def Core.Holds (c : Core) (l : CacheLine) : Prop :=
  match l.kind with
  | .access write => ∃ i, (c.tables (tableOf l.user write) i).Is c.epoch l
  | .chain => ∃ i, (c.chain l.user i).Is c.epoch l
  | .code => c.codeTlb =
      ⟨c.epochBits ||| Core.userBit l.user, l.page, l.target, l.isGlobal, l.isLarge⟩

/-- The epochs are those of tags. Entries of the access cache are of no later epoch, and those of
the current epoch are in their slots and are found by the filter if they are of large pages. Entries
of the chaining tables are in their slots. -/
structure Core.Inv (c : Core) : Prop where
  pos : c.epoch ≠ 0
  small : c.epoch.toNat < 4096
  old : ∀ k i, tagEpoch (c.tables k i).tag ≤ c.epoch
  slot : ∀ k i, tagEpoch (c.tables k i).tag = c.epoch →
    Table.slotOf (Core.tagPage (c.tables k i).tag) = i
  region : ∀ k i, tagEpoch (c.tables k i).tag = c.epoch → (c.tables k i).isLarge = true →
    c.large.has (tlbRegionBit (Core.tagPage (c.tables k i).tag <<< 12)) = true
  chain : ∀ u i, tagEpoch (c.chain u i).tag ≠ 0 →
    Table.slotOf (Core.tagPage (c.chain u i).tag) = i

theorem Entry.Is.tags {e : Entry} {l : CacheLine} (h : e.Is epoch l)
    (hepoch : epoch.toNat < 4096) : Core.tagPage e.tag = l.page ∧ tagEpoch e.tag = epoch := by
  obtain ⟨hpage, rfl⟩ := h
  exact ⟨tagPage_or hpage, tagEpoch_or hpage hepoch⟩

namespace Table

variable {t : Table} {p : BitVec 10 → Entry → Bool} {i : BitVec 10} {epoch : BitVec 64}
  {l : CacheLine}

/-- An entry that matches was not retired. -/
theorem retire_is (hpos : epoch ≠ 0) (hepoch : epoch.toNat < 4096)
    (h : (t.retire p i).Is epoch l) : (t i).Is epoch l ∧ p i (t i) = false := by
  have htag := (h.tags hepoch).2
  unfold retire at h htag
  split at h
  · next hp =>
    rw [if_pos hp] at htag
    exact absurd (htag.symm.trans tagEpoch_zero) hpos
  · next hp => exact ⟨h, Bool.not_eq_true _ ▸ hp⟩

theorem retire_tag (t : Table) (p : BitVec 10 → Entry → Bool) (i : BitVec 10) :
    (t.retire p i).tag = 0 ∨ t.retire p i = t i := by
  unfold retire
  split
  · exact .inl rfl
  · exact .inr rfl

end Table

/-! ## Entries that go -/

namespace Core

variable {c : Core} {l : CacheLine} {user write isGlobal large : Bool} {address rip : Address}

theorem Inv.retireTables (h : c.Inv) (p : BitVec 10 → Entry → Bool) :
    ({ c with tables := fun k => (c.tables k).retire p } : Core).Inv where
  pos := h.pos
  small := h.small
  old k i := by
    rcases (c.tables k).retire_tag p i with htag | htag
    · dsimp only
      rw [htag]
      exact tagEpoch_zero_le _
    · dsimp only
      rw [htag]
      exact h.old k i
  slot k i := by
    rcases (c.tables k).retire_tag p i with htag | htag
    · dsimp only
      rw [htag]
      exact fun heq => absurd heq.symm h.pos
    · dsimp only
      rw [htag]
      exact h.slot k i
  region k i := by
    rcases (c.tables k).retire_tag p i with htag | htag
    · dsimp only
      rw [htag]
      exact fun heq => absurd heq.symm h.pos
    · dsimp only
      rw [htag]
      exact h.region k i
  chain := h.chain

theorem Inv.retireChain (h : c.Inv) (p : BitVec 10 → Entry → Bool) (codeTlb : CodeTlb) :
    ({ c with codeTlb := codeTlb, chain := fun u => (c.chain u).retire p } : Core).Inv where
  pos := h.pos
  small := h.small
  old := h.old
  slot := h.slot
  region := h.region
  chain u i := by
    rcases (c.chain u).retire_tag p i with htag | htag
    · dsimp only
      rw [htag]
      exact fun hne => absurd rfl hne
    · dsimp only
      rw [htag]
      exact h.chain u i

/-- `CODE_TLB` does not match when it is empty. -/
theorem code_empty (hpos : c.epoch ≠ 0) (hsmall : c.epoch.toNat < 4096) (h : CodeTlb.empty =
      ⟨c.epochBits ||| userBit user, l.page, l.target, l.isGlobal, l.isLarge⟩) : False := by
  have htag : 0 = c.epochBits ||| userBit user := congrArg CodeTlb.tag h
  rw [BitVec.or_comm] at htag
  have hepoch := congrArg tagEpoch htag
  rw [epochBits, tagEpoch_or (isPage_userBit user) hsmall] at hepoch
  exact hpos hepoch.symm

/-- MOV CR3. -/
theorem invalidateNonglobal_inv (h : c.Inv) : c.invalidateNonglobal.Inv :=
  (h.retireTables _).retireChain _ _

theorem invalidateNonglobal_holds (h : c.Inv) (hl : c.invalidateNonglobal.Holds l) :
    c.Holds l ∧ ¬l.isGlobal = false := by
  have hglobal : ∀ {e : Entry}, e.Is c.epoch l → (!e.isGlobal) = false → ¬l.isGlobal = false := by
    rintro e ⟨_, rfl⟩ hp
    simpa using hp
  unfold Holds at hl ⊢
  split at hl
  iterate 2
    · obtain ⟨i, hi⟩ := hl
      obtain ⟨hi, hp⟩ := Table.retire_is (p := fun _ e => !e.isGlobal) h.pos h.small hi
      exact ⟨⟨i, hi⟩, hglobal hi hp⟩
  · exact (code_empty h.pos h.small hl).elim

/-! ## Flushes -/

/-- The epoch after a flush. -/
def nextEpoch (c : Core) : BitVec 64 := if c.epoch + 1 = epochLimit then 1 else c.epoch + 1

/-- No entry of the chaining tables carries the next epoch, but for those of a page that `p` names,
and `CODE_TLB` does not. -/
def NoRevival (c : Core) (p : BitVec 64 → Prop) : Prop :=
  ∀ u i, tagEpoch (c.chain u i).tag = c.nextEpoch → p (tagPage (c.chain u i).tag)

theorem flush_eq (c : Core) : c.flush.epoch = c.nextEpoch ∧ c.flush.chain = c.chain ∧
    c.flush.codeTlb = c.codeTlb := by
  unfold flush nextEpoch
  dsimp only
  split <;> exact ⟨rfl, rfl, rfl⟩

theorem flush_inv (h : c.Inv) : c.flush.Inv ∧
    ∀ k i, tagEpoch (c.flush.tables k i).tag ≠ c.flush.epoch := by
  have hlimit : epochLimit = 4096 := rfl
  have hsmall := h.small
  unfold flush
  dsimp only
  split
  · have hdead : ∀ k i, tagEpoch ((fun _ => Table.empty : Fin 4 → Table) k i).tag ≠ 1 := by
      intro k i
      change tagEpoch 0 ≠ 1
      decide
    exact ⟨⟨(by decide : (1 : BitVec 64) ≠ 0), (by decide : (1 : BitVec 64).toNat < 4096),
      fun _ _ => tagEpoch_zero_le _, fun k i heq => absurd heq (hdead k i),
      fun k i heq => absurd heq (hdead k i), h.chain⟩, hdead⟩
  next hne =>
  rw [hlimit] at hne
  have hdead : ∀ k i, tagEpoch (c.tables k i).tag ≠ c.epoch + 1 := by
    intro k i heq
    have hold := h.old k i
    rw [heq] at hold
    bv_omega
  refine ⟨⟨?_, ?_, fun k i => ?_, fun k i heq => absurd heq (hdead k i),
    fun k i heq => absurd heq (hdead k i), h.chain⟩, hdead⟩
  · dsimp only
    bv_omega
  · dsimp only
    bv_omega
  · have hold := h.old k i
    dsimp only
    bv_omega

/-- A flush leaves no entry that matches, unless some entry carries the next epoch. -/
theorem flush_holds (h : c.Inv) (hchain : c.NoRevival fun _ => False)
    (hcode : tagEpoch c.codeTlb.tag ≠ c.nextEpoch) : ¬c.flush.Holds l := by
  obtain ⟨hinv, hdead⟩ := flush_inv h
  obtain ⟨hepoch, hchains, hcodes⟩ := c.flush_eq
  unfold Holds
  split
  · rintro ⟨i, hi⟩
    exact hdead _ i (hi.tags hinv.small).2
  · rintro ⟨i, hi⟩
    have htag := (hi.tags hinv.small).2
    rw [hchains, hepoch] at htag
    exact hchain _ i htag
  · intro heq
    rw [hcodes] at heq
    have htag := congrArg (tagEpoch ∘ CodeTlb.tag) heq
    dsimp only [Function.comp] at htag
    rw [epochBits, BitVec.or_comm, tagEpoch_or (isPage_userBit _) hinv.small, hepoch] at htag
    exact hcode htag

/-! ## INVLPG -/

/-- What an INVLPG relies on. If it flushes, no chaining entry of another page carries the next epoch;
if it does not, no chaining entry that matches is of another page of a large page. -/
def InvlpgProper (c : Core) (address : Address) : Prop :=
  if c.large.has (tlbRegionBit address) then c.NoRevival (· = address >>> 12)
  else ∀ u i, tagEpoch (c.chain u i).tag = c.epoch → (c.chain u i).isLarge = true →
    (tagPage (c.chain u i).tag <<< 12) >>> 21 = address >>> 21 →
    tagPage (c.chain u i).tag = address >>> 12

theorem invlpg_inv (h : c.Inv) (address : Address) : (c.invlpg address).Inv := by
  unfold invlpg jacInvlpg
  split
  · exact (flush_inv h).1.retireChain _ _
  · exact (h.retireTables _).retireChain _ _

variable {i : BitVec 10} {u u' : Bool} {target : Dword}

/-- An entry that matches is in the slot of its page. -/
theorem slot_of_is {t : Table} (hsmall : c.epoch.toNat < 4096)
    (hslot : tagEpoch (t i).tag = c.epoch → Table.slotOf (tagPage (t i).tag) = i)
    (hi : (t i).Is c.epoch l) : i = Table.slotOf l.page := by
  obtain ⟨hpage, hepoch⟩ := hi.tags hsmall
  rw [← hslot hepoch, hpage]

theorem chain_slot (h : c.Inv) (hepoch : tagEpoch (c.chain u i).tag = c.epoch) :
    Table.slotOf (tagPage (c.chain u i).tag) = i :=
  h.chain u i fun hzero => h.pos (hepoch.symm.trans hzero)

/-- A page that is not the page of an address maps it only if it is large. -/
theorem maps_large (hpage : IsPage l.page) (hne : l.page ≠ address >>> 12) (hmaps : l.Maps address) :
    l.isLarge = true ∧ (l.page <<< 12) >>> 21 = address >>> 21 := by
  unfold CacheLine.Maps CacheLine.shift at hmaps
  split at hmaps
  · next hlarge => exact ⟨hlarge, hmaps⟩
  · rw [Tlb.page_address hpage] at hmaps
    exact absurd hmaps hne

theorem invlpg_holds (h : c.Inv) (hproper : c.InvlpgProper address)
    (hl : (c.invlpg address).Holds l) : c.Holds l ∧ ¬l.Maps address := by
  unfold invlpg jacInvlpg InvlpgProper at *
  split at hl
  · next hregion =>
    -- the core was flushed: only a chaining entry could match
    rw [if_pos hregion] at hproper
    obtain ⟨hinv, hdead⟩ := flush_inv h
    obtain ⟨hepoch, hchains, _⟩ := c.flush_eq
    exfalso
    unfold Holds at hl
    split at hl
    · obtain ⟨i, hi⟩ := hl
      exact hdead _ i (Entry.Is.tags hi hinv.small).2
    · obtain ⟨i, hi⟩ := hl
      obtain ⟨hi, hp⟩ := Table.retire_is
        (p := fun i e => i = Table.slotOf (address >>> 12) && tagPage e.tag = address >>> 12)
        hinv.pos hinv.small hi
      have htag := (hi.tags hinv.small).2
      have hslot := chain_slot hinv htag
      rw [hchains, hepoch] at htag
      rw [hchains] at hslot hp
      have hpage := hproper _ i htag
      have hsame : i = Table.slotOf (address >>> 12) := by rw [← hslot, hpage]
      rw [decide_eq_true hsame, decide_eq_true hpage] at hp
      cases hp
    · exact code_empty hinv.pos hinv.small hl
  · next hregion =>
    rw [if_neg hregion] at hproper
    unfold Holds at hl ⊢
    split at hl
    · obtain ⟨i, hi⟩ := hl
      obtain ⟨hi, hp⟩ := Table.retire_is
        (p := fun i e => i = Table.slotOf (address >>> 12) && e.tag = address >>> 12 ||| c.epochBits)
        h.pos h.small hi
      refine ⟨⟨i, hi⟩, fun hmaps => ?_⟩
      have hslot := slot_of_is h.small (h.slot _ i) hi
      have hne : l.page ≠ address >>> 12 := by
        intro heq
        have hsame : i = Table.slotOf (address >>> 12) := by rw [hslot, heq]
        have htag : (c.tables (tableOf l.user _) i).tag = l.page ||| c.epochBits :=
          congrArg Entry.tag hi.2
        rw [heq] at htag
        rw [decide_eq_true hsame, decide_eq_true htag] at hp
        cases hp
      obtain ⟨hlarge, hsame⟩ := maps_large hi.1 hne hmaps
      obtain ⟨hpage, htag⟩ := hi.tags h.small
      have hhas := h.region _ i htag (by rw [hi.2]; exact hlarge)
      rw [hpage, Tlb.tlbRegionBit_congr hsame] at hhas
      exact hregion hhas
    · obtain ⟨i, hi⟩ := hl
      obtain ⟨hi, hp⟩ := Table.retire_is
        (p := fun i e => i = Table.slotOf (address >>> 12) && tagPage e.tag = address >>> 12)
        h.pos h.small hi
      refine ⟨⟨i, hi⟩, fun hmaps => ?_⟩
      obtain ⟨hpage, htag⟩ := hi.tags h.small
      have hslot := chain_slot h htag
      have hne : l.page ≠ address >>> 12 := by
        intro heq
        rw [heq] at hpage
        have hsame : i = Table.slotOf (address >>> 12) := by rw [← hslot, hpage]
        dsimp only at hp
        rw [decide_eq_true hsame, decide_eq_true hpage] at hp
        cases hp
      obtain ⟨hlarge, hsame⟩ := maps_large hi.1 hne hmaps
      rw [← hpage] at hsame hne
      exact hne (hproper _ i htag (by rw [hi.2]; exact hlarge) hsame)
    · exact (code_empty h.pos h.small hl).elim

/-! ## Fills -/

theorem userBit_injective (h : userBit u = userBit u') : u = u' := by
  cases u <;> cases u' <;> first | rfl | cases h

theorem tableOf_injective {w w' : Bool} (h : tableOf u w = tableOf u' w') : u = u' ∧ w = w' := by
  cases u <;> cases u' <;> cases w <;> cases w' <;> first | exact ⟨rfl, rfl⟩ | cases h

/-- The entry that a fill makes. -/
def filled (c : Core) (address : Address) (target : Dword) (isGlobal large : Bool) : Entry :=
  ⟨address >>> 12 ||| c.epochBits, target, isGlobal, large⟩

theorem filled_is (hsmall : c.epoch.toNat < 4096)
    (h : (c.filled address target isGlobal large).Is c.epoch l) :
    l.page = address >>> 12 ∧ l.target = target ∧ l.isGlobal = isGlobal ∧ l.isLarge = large := by
  have hpage := (h.tags hsmall).1
  obtain ⟨_, heq⟩ := h
  unfold filled at heq hpage
  rw [epochBits, tagPage_or (isPage_of_address address)] at hpage
  injection heq with _ htarget hglobal hlarge
  exact ⟨hpage.symm, htarget.symm, hglobal.symm, hlarge.symm⟩

theorem filled_tags (hsmall : c.epoch.toNat < 4096) :
    tagPage (c.filled address target isGlobal large).tag = address >>> 12 ∧
      tagEpoch (c.filled address target isGlobal large).tag = c.epoch :=
  ⟨tagPage_or (isPage_of_address address), tagEpoch_or (isPage_of_address address) hsmall⟩

/-- The entries after a fill. -/
theorem fill_tables (mem8 : Dword) (c : Core) (user write : Bool) (address : Address)
    (backing : Dword) (large isGlobal : Bool) (k : Fin 4) (i : BitVec 10) :
    k = tableOf user write ∧ i = Table.slotOf (address >>> 12) ∧
        (c.fill mem8 user write address backing large isGlobal).tables k i =
          c.filled address (mem8 + backing) isGlobal large ∨
      (c.fill mem8 user write address backing large isGlobal).tables k i = c.tables k i := by
  unfold fill
  dsimp only
  split
  · next hk =>
    unfold Table.set
    split
    · next hi => exact .inl ⟨hk, hi, rfl⟩
    · exact .inr rfl
  · exact .inr rfl

theorem fill_inv (h : c.Inv) (mem8 : Dword) (user write : Bool) (address : Address) (backing : Dword)
    (large isGlobal : Bool) : (c.fill mem8 user write address backing large isGlobal).Inv where
  pos := h.pos
  small := h.small
  old k i := by
    rcases c.fill_tables mem8 user write address backing large isGlobal k i with
      ⟨_, _, he⟩ | he
    · rw [he, (filled_tags h.small).2]
      exact BitVec.le_refl _
    · rw [he]
      exact h.old k i
  slot k i := by
    rcases c.fill_tables mem8 user write address backing large isGlobal k i with
      ⟨_, hi, he⟩ | he
    · rw [he, (filled_tags h.small).1, hi]
      exact fun _ => rfl
    · rw [he]
      exact h.slot k i
  region k i hepoch hlarge := by
    rcases c.fill_tables mem8 user write address backing large isGlobal k i with
      ⟨_, hi, he⟩ | he
    · rw [he] at hlarge ⊢
      rw [(filled_tags h.small).1, tlbRegionBit_page]
      unfold fill
      dsimp only
      rw [if_pos (show large = true from hlarge), tlbRegionBit_eq]
      exact Filter.has_mark_self _ (Nat.mod_lt _ (by decide))
    · rw [he] at hepoch hlarge ⊢
      have hhas := h.region k i hepoch hlarge
      unfold fill
      dsimp only
      split
      · rw [tlbRegionBit_eq] at hhas ⊢
        exact Filter.has_mark (Nat.mod_lt _ (by decide)) _ hhas
      · exact hhas
  chain := h.chain

theorem fill_holds (h : c.Inv) {mem8 backing : Dword}
    (hl : (c.fill mem8 user write address backing large isGlobal).Holds l) :
    l = ⟨l.core, .access write, user, address >>> 12, mem8 + backing, isGlobal, large⟩ ∨
      c.Holds l := by
  unfold Holds at hl ⊢
  split at hl
  · next write' hkind =>
    obtain ⟨i, hi⟩ := hl
    rcases c.fill_tables mem8 user write address backing large isGlobal (tableOf l.user write') i
      with ⟨hk, _, he⟩ | he
    · rw [he] at hi
      obtain ⟨hpage, htarget, hglobal, hlarge⟩ := filled_is h.small hi
      obtain ⟨huser, hwrite⟩ := tableOf_injective hk
      obtain ⟨core, kind, user', page, target, isGlobal', isLarge⟩ := l
      dsimp only at hkind hpage htarget hglobal hlarge huser
      subst hkind hpage htarget hglobal hlarge huser hwrite
      exact .inl rfl
    · rw [he] at hi
      exact .inr ⟨i, hi⟩
  · exact .inr hl
  · exact .inr hl

/-- The entries after a function is chained. -/
theorem chainFill_chain (c : Core) (user : Bool) (rip : Address) (slot : Dword)
    (isGlobal large : Bool) (u : Bool) (i : BitVec 10) : u = user ∧ i = Table.slotOf (rip >>> 12) ∧
        (c.chainFill user rip slot isGlobal large).chain u i =
          c.filled rip (slot + wasmTableOffset) isGlobal large ∨
      (c.chainFill user rip slot isGlobal large).chain u i = c.chain u i := by
  unfold chainFill
  dsimp only
  split
  · next hu =>
    unfold Table.set
    split
    · next hi => exact .inl ⟨hu, hi, rfl⟩
    · exact .inr rfl
  · exact .inr rfl

theorem chainFill_inv (h : c.Inv) (user : Bool) (rip : Address) (slot : Dword)
    (isGlobal large : Bool) : (c.chainFill user rip slot isGlobal large).Inv where
  pos := h.pos
  small := h.small
  old := h.old
  slot := h.slot
  region := h.region
  chain u i := by
    rcases c.chainFill_chain user rip slot isGlobal large u i with ⟨_, hi, he⟩ | he
    · rw [he, (filled_tags h.small).1, hi]
      exact fun _ => rfl
    · rw [he]
      exact h.chain u i

theorem chainFill_holds (h : c.Inv) {slot : Dword}
    (hl : (c.chainFill user rip slot isGlobal large).Holds l) :
    l = ⟨l.core, .chain, user, rip >>> 12, slot + wasmTableOffset, isGlobal, large⟩ ∨
      c.Holds l := by
  unfold Holds at hl ⊢
  split at hl
  · exact .inr hl
  · next hkind =>
    obtain ⟨i, hi⟩ := hl
    rcases c.chainFill_chain user rip slot isGlobal large l.user i with ⟨huser, _, he⟩ | he
    · rw [he] at hi
      obtain ⟨hpage, htarget, hglobal, hlarge⟩ := filled_is h.small hi
      obtain ⟨core, kind, user', page, target, isGlobal', isLarge⟩ := l
      dsimp only at hkind hpage htarget hglobal hlarge huser
      subst hkind hpage htarget hglobal hlarge huser
      exact .inl rfl
    · rw [he] at hi
      exact .inr ⟨i, hi⟩
  · exact .inr hl

variable {translated : Option (Dword × Bool × Bool)}

theorem codePage_inv (h : c.Inv) (user : Bool) (rip : Address)
    (translated : Option (Dword × Bool × Bool)) : (c.codePage user rip translated).2.Inv := by
  unfold codePage
  split
  · exact h
  · split
    · exact ⟨h.pos, h.small, h.old, h.slot, h.region, h.chain⟩
    · exact h

theorem codePage_holds (hl : (c.codePage user rip translated).2.Holds l) :
    (c.codeHit user rip = none ∧ ∃ page large isGlobal, translated = some (page, large, isGlobal) ∧
      l = ⟨l.core, .code, user, rip >>> 12, page, isGlobal, large⟩) ∨ c.Holds l := by
  unfold codePage at hl
  split at hl
  · exact .inr hl
  next hmiss =>
  split at hl
  · next page large isGlobal =>
    unfold Holds at hl ⊢
    split at hl
    · exact .inr hl
    · exact .inr hl
    · next hkind =>
      injection hl with htag hpage htarget hglobal hlarge
      have hbit := congrArg tagPage htag
      dsimp only [epochBits] at hbit
      rw [BitVec.or_comm, tagPage_or (isPage_userBit user), BitVec.or_comm,
        tagPage_or (isPage_userBit l.user)] at hbit
      have huser := userBit_injective hbit
      obtain ⟨core, kind, user', page', target, isGlobal', isLarge⟩ := l
      dsimp only at hkind hpage htarget hglobal hlarge huser
      subst hkind hpage htarget hglobal hlarge huser
      exact .inl ⟨hmiss, _, _, _, rfl, rfl⟩
  · exact .inr hl

end Core

/-! ## Runs -/

/-- The lines that an event brings in, in the state before it. -/
def CacheEvent.adds (mem8 : Dword) : Machine × CacheEvent → CacheLine → Prop
  | (_, .fill core user write address backing large isGlobal), l =>
    l = ⟨core, .access write, user, address >>> 12, mem8 + backing, isGlobal, large⟩
  | (_, .chainFill core user rip slot isGlobal large), l =>
    l = ⟨core, .chain, user, rip >>> 12, slot + wasmTableOffset, isGlobal, large⟩
  | (m, .codePage core user rip translated), l => (m core).codeHit user rip = none ∧
    ∃ page large isGlobal, translated = some (page, large, isGlobal) ∧
      l = ⟨core, .code, user, rip >>> 12, page, isGlobal, large⟩
  | _, _ => False

/-- The lines that an event retracts. -/
def CacheEvent.kills : Machine × CacheEvent → CacheLine → Prop
  | (_, .flush core), l => l.core = core
  | (_, .flushAll), _ => True
  | (_, .flushNonglobal core), l => l.core = core ∧ l.isGlobal = false
  | (_, .invlpg core address), l => l.core = core ∧ l.Maps address
  | _, _ => False

/-- A flush moves to an epoch that neither a chaining entry nor `CODE_TLB` carries, and so does an
INVLPG that flushes, but for the chaining entries of its page. An INVLPG that does not flush finds no
current chaining entry of another page of the large page of its address. -/
def CacheEvent.Proper (m : Machine) : CacheEvent → Prop
  | .flush core => (m core).NoRevival (fun _ => False) ∧
    tagEpoch (m core).codeTlb.tag ≠ (m core).nextEpoch
  | .flushAll => ∀ core, (m core).NoRevival (fun _ => False) ∧
    tagEpoch (m core).codeTlb.tag ≠ (m core).nextEpoch
  | .invlpg core address => (m core).InvlpgProper address
  | _ => True

namespace Machine

def Inv (m : Machine) : Prop := ∀ k, (m k).Inv

def Holds (m : Machine) (l : CacheLine) : Prop := (m l.core).Holds l

theorem new_dead : tagEpoch 0 ≠ (1 : BitVec 64) := by decide

theorem inv_new : new.Inv := fun _ =>
  { pos := (by decide : (1 : BitVec 64) ≠ 0)
    small := (by decide : (1 : BitVec 64).toNat < 4096)
    old := fun _ _ => tagEpoch_zero_le _
    slot := fun _ _ h => absurd h new_dead
    region := fun _ _ h => absurd h new_dead
    chain := fun _ _ h => absurd tagEpoch_zero h }

theorem holds_new (l : CacheLine) : ¬new.Holds l := by
  intro h
  have hinv := inv_new l.core
  unfold Holds Core.Holds at h
  split at h
  · obtain ⟨i, hi⟩ := h
    exact new_dead (hi.tags hinv.small).2
  · obtain ⟨i, hi⟩ := h
    exact new_dead (hi.tags hinv.small).2
  · exact Core.code_empty hinv.pos hinv.small h

/-- What matches after a step was brought in by it, or is not retracted by it. -/
theorem step_holds (mem8 : Dword) (m : Machine) (e : CacheEvent) (h : m.Inv) (he : e.Proper m) :
    (m.step mem8 e).Inv ∧ ∀ l, (m.step mem8 e).Holds l →
      CacheEvent.adds mem8 (m, e) l ∨ m.Holds l ∧ ¬CacheEvent.kills (m, e) l := by
  cases e with
  | fill core user write address backing large isGlobal =>
    refine ⟨fun k => ?_, fun l hl => ?_⟩
    · unfold step CacheEvent.effect
      dsimp only
      split
      · exact Core.fill_inv (h k) ..
      · exact h k
    · unfold Holds step CacheEvent.effect at hl
      dsimp only at hl
      split at hl
      · next hcore =>
        rcases Core.fill_holds (h _) hl with heq | hl
        · exact .inl (hcore ▸ heq)
        · exact .inr ⟨hl, not_false⟩
      · exact .inr ⟨hl, not_false⟩
  | chainFill core user rip slot isGlobal large =>
    refine ⟨fun k => ?_, fun l hl => ?_⟩
    · unfold step CacheEvent.effect
      dsimp only
      split
      · exact Core.chainFill_inv (h k) ..
      · exact h k
    · unfold Holds step CacheEvent.effect at hl
      dsimp only at hl
      split at hl
      · next hcore =>
        rcases Core.chainFill_holds (h _) hl with heq | hl
        · exact .inl (hcore ▸ heq)
        · exact .inr ⟨hl, not_false⟩
      · exact .inr ⟨hl, not_false⟩
  | codePage core user rip translated =>
    refine ⟨fun k => ?_, fun l hl => ?_⟩
    · unfold step CacheEvent.effect
      dsimp only
      split
      · exact Core.codePage_inv (h k) ..
      · exact h k
    · unfold Holds step CacheEvent.effect at hl
      dsimp only at hl
      split at hl
      · next hcore =>
        rcases Core.codePage_holds hl with hnew | hl
        · exact .inl (hcore ▸ hnew)
        · exact .inr ⟨hl, not_false⟩
      · exact .inr ⟨hl, not_false⟩
  | flush core =>
    refine ⟨fun k => ?_, fun l hl => .inr ?_⟩
    · unfold step CacheEvent.effect
      dsimp only
      split
      · exact (Core.flush_inv (h k)).1
      · exact h k
    · unfold Holds step CacheEvent.effect at hl
      dsimp only at hl
      split at hl
      · next hcore =>
        subst hcore
        exact absurd hl (Core.flush_holds (h _) he.1 he.2)
      · next hcore => exact ⟨hl, fun hk => hcore hk.symm⟩
  | flushAll =>
    exact ⟨fun k => (Core.flush_inv (h k)).1,
      fun l hl => absurd hl (Core.flush_holds (h _) (he l.core).1 (he l.core).2)⟩
  | flushNonglobal core =>
    refine ⟨fun k => ?_, fun l hl => .inr ?_⟩
    · unfold step CacheEvent.effect
      dsimp only
      split
      · exact Core.invalidateNonglobal_inv (h k)
      · exact h k
    · unfold Holds step CacheEvent.effect at hl
      dsimp only at hl
      split at hl
      · obtain ⟨hl, hglobal⟩ := Core.invalidateNonglobal_holds (h _) hl
        exact ⟨hl, fun hk => hglobal hk.2⟩
      · next hcore => exact ⟨hl, fun hk => hcore hk.1.symm⟩
  | invlpg core address =>
    refine ⟨fun k => ?_, fun l hl => .inr ?_⟩
    · unfold step CacheEvent.effect
      dsimp only
      split
      · exact Core.invlpg_inv (h k) _
      · exact h k
    · unfold Holds step CacheEvent.effect at hl
      dsimp only at hl
      split at hl
      · next hcore =>
        subst hcore
        obtain ⟨hl, hmaps⟩ := Core.invlpg_holds (h _) he hl
        exact ⟨hl, fun hk => hmaps hk.2⟩
      · next hcore => exact ⟨hl, fun hk => hcore hk.1.symm⟩

end Machine

/-- Code and data lookups do not outlive an invalidation: an entry that matches a linear page in the
current epoch of its core was filled for that core, privilege and page, and not retracted since. -/
theorem lookups_live (mem8 : Dword) {es : List CacheEvent} {m : Machine}
    (hes : Runs.Each (Machine.step mem8) CacheEvent.Proper Machine.new es)
    (hm : m = after (Machine.step mem8) Machine.new es) (core : Fin 8) (user : Bool)
    (address : Address) : (∀ write i, ((m core).tables (tableOf user write) i).tag =
        address >>> 12 ||| (m core).epochBits → ∃ l, Since (CacheEvent.adds mem8) CacheEvent.kills
          (trace (Machine.step mem8) Machine.new es) l ∧
        l.core = core ∧ l.kind = .access write ∧ l.user = user ∧ l.page = address >>> 12 ∧
        l.target = ((m core).tables (tableOf user write) i).target) ∧
    (∀ i, ((m core).chain user i).tag = address >>> 12 ||| (m core).epochBits →
      ∃ l, Since (CacheEvent.adds mem8) CacheEvent.kills
          (trace (Machine.step mem8) Machine.new es) l ∧
        l.core = core ∧ l.kind = .chain ∧ l.user = user ∧ l.page = address >>> 12 ∧
        l.target = ((m core).chain user i).target) ∧
    ∀ hit, (m core).codeHit user address = some hit →
      ∃ l, Since (CacheEvent.adds mem8) CacheEvent.kills
          (trace (Machine.step mem8) Machine.new es) l ∧
        l.core = core ∧ l.kind = .code ∧ l.user = user ∧ l.page = address >>> 12 ∧
        hit = (l.target, l.isGlobal) := by
  obtain ⟨_, hcovered⟩ := covered_of_trace (Machine.step_holds mem8) Machine.inv_new hes
    Machine.holds_new
  rw [← hm] at hcovered
  have hpage := isPage_of_address address
  refine ⟨fun write i htag => ?_, fun i htag => ?_, fun hit hhit => ?_⟩
  · obtain ⟨target, isGlobal, isLarge, he⟩ : ∃ target isGlobal isLarge,
        (m core).tables (tableOf user write) i =
          ⟨address >>> 12 ||| (m core).epochBits, target, isGlobal, isLarge⟩ :=
      ⟨_, _, _, by rw [← htag]⟩
    exact ⟨⟨core, .access write, user, address >>> 12, target, isGlobal, isLarge⟩,
      hcovered _ ⟨i, hpage, he⟩, rfl, rfl, rfl, rfl, by rw [he]⟩
  · obtain ⟨target, isGlobal, isLarge, he⟩ : ∃ target isGlobal isLarge, (m core).chain user i =
        ⟨address >>> 12 ||| (m core).epochBits, target, isGlobal, isLarge⟩ :=
      ⟨_, _, _, by rw [← htag]⟩
    exact ⟨⟨core, .chain, user, address >>> 12, target, isGlobal, isLarge⟩,
      hcovered _ ⟨i, hpage, he⟩, rfl, rfl, rfl, rfl, by rw [he]⟩
  · unfold Core.codeHit at hhit
    split at hhit
    · next hmatch =>
      cases hhit
      simp only [Bool.and_eq_true, decide_eq_true_eq] at hmatch
      obtain ⟨htag, hlinear⟩ := hmatch
      refine ⟨⟨core, .code, user, address >>> 12, (m core).codeTlb.page, (m core).codeTlb.isGlobal,
        (m core).codeTlb.isLarge⟩, hcovered _ ?_, rfl, rfl, rfl, rfl, rfl⟩
      change (m core).codeTlb = _
      rw [← htag, ← hlinear]
    · cases hhit

/-! ## A run -/

/-- A page of data and of code, MOV CR3, an INVLPG in a large page, and a fill after it. -/
def sampleFills : List CacheEvent :=
  [.fill 0 false true 0x201000 0x5000 true false, .codePage 0 false 0x1000 (some (1, false, true)),
    .chainFill 0 false 0x1000 0 true false, .flushNonglobal 0, .invlpg 0 0x202000, .flush 1,
    .fill 0 false true 0x203000 0x6000 false false]

theorem sampleFills_proper :
    Runs.Each (Machine.step 0) CacheEvent.Proper Machine.new sampleFills := by
  refine ⟨trivial, trivial, trivial, trivial, ?_, ⟨?_, ?_⟩, trivial, trivial⟩
  · unfold CacheEvent.Proper Core.InvlpgProper Core.NoRevival
    decide +kernel
  · unfold Core.NoRevival
    decide +kernel
  · decide +kernel

theorem lookups_live_sample : ∃ l, Since (CacheEvent.adds 0) CacheEvent.kills
        (trace (Machine.step 0) Machine.new sampleFills) l ∧
      l.core = 0 ∧ l.kind = .access true ∧ l.user = false ∧ l.page = 0x203456 >>> 12 ∧
      l.target = ((after (Machine.step 0) Machine.new sampleFills 0).tables
        (tableOf false true) 0x203).target :=
  (lookups_live 0 sampleFills_proper rfl 0 false 0x203456).1 true 0x203 (by decide +kernel)

/-! ## Outside the condition -/

namespace Core

/-- Flushes up to the last epoch keep the chaining tables and `CODE_TLB`. -/
theorem flush_iterate (n : Nat) {c : Core} (h : c.epoch.toNat + n < 4096) :
    (flush^[n] c).epoch = c.epoch + BitVec.ofNat 64 n ∧ (flush^[n] c).chain = c.chain ∧
      (flush^[n] c).codeTlb = c.codeTlb := by
  induction n generalizing c with
  | zero => exact ⟨(BitVec.add_zero _).symm, rfl, rfl⟩
  | succ n ih =>
    obtain ⟨hepoch, hchain, hcode⟩ := c.flush_eq
    have hnext : c.flush.epoch = c.epoch + 1 := by
      rw [hepoch, nextEpoch, if_neg]
      intro hlimit
      have := congrArg BitVec.toNat hlimit
      have hnat : epochLimit.toNat = 4096 := rfl
      bv_omega
    obtain ⟨h1, h2, h3⟩ := ih (c := c.flush) (by rw [hnext]; bv_omega)
    rw [Function.iterate_succ_apply]
    refine ⟨?_, h2.trans hchain, h3.trans hcode⟩
    rw [h1, hnext, ofNat_add, BitVec.add_assoc, BitVec.add_comm 1]
    rfl

end Core

theorem after_flush (mem8 : Dword) (m : Machine) (core : Fin 8) (n : Nat) :
    after (Machine.step mem8) m (List.replicate n (.flush core)) core =
      Core.flush^[n] (m core) := by
  induction n generalizing m with
  | zero => rfl
  | succ n ih =>
    rw [List.replicate_succ, after, List.foldl_cons, ← after, ih, Function.iterate_succ_apply]
    congr 1
    unfold Machine.step CacheEvent.effect
    exact if_pos rfl

/-- A code page and a function chained for it, and as many flushes as return to its epoch. -/
def staleCode : List CacheEvent :=
  [.codePage 0 false 0x1000 (some (1, false, false)), .chainFill 0 false 0x1000 0 false false] ++
    List.replicate 4094 (.flush 0) ++ [.flush 0]

/-- A function chained for a page of a large page, and an INVLPG of the next page. -/
def staleLarge : List CacheEvent := [.chainFill 0 false 0x200000 0 false true] ++ [.invlpg 0 0x201000]

/-- A fact that the last event of a run retracts. -/
theorem not_since_last {mem8 : Dword} (es : List CacheEvent) {e : CacheEvent} {l : CacheLine}
    (hadds : ∀ m, ¬CacheEvent.adds mem8 (m, e) l) (hkills : ∀ m, CacheEvent.kills (m, e) l) :
    ¬Since (CacheEvent.adds mem8) CacheEvent.kills
      (trace (Machine.step mem8) Machine.new (es ++ [e])) l := by
  intro h
  rw [trace_append] at h
  exact h.not_kills (hadds _) (hkills _)

/-- The flush that wraps the epoch leaves the entries of its first value. -/
theorem staleCode_entries (mem8 : Dword) :
    ((after (Machine.step mem8) Machine.new staleCode 0).chain false 1).tag =
        0x1000 >>> 12 ||| (after (Machine.step mem8) Machine.new staleCode 0).epochBits ∧
      (after (Machine.step mem8) Machine.new staleCode 0).codeHit false 0x1000 =
        some (1, false) := by
  obtain ⟨c, hc⟩ : ∃ c, c = after (Machine.step mem8) Machine.new
    [.codePage 0 false 0x1000 (some (1, false, false)),
      .chainFill 0 false 0x1000 0 false false] 0 := ⟨_, rfl⟩
  have hrun : after (Machine.step mem8) Machine.new staleCode 0 = (Core.flush^[4094] c).flush := by
    have hlast : ∀ m, after (Machine.step mem8) m [.flush 0] 0 = (m 0).flush :=
      fun m => after_flush mem8 m 0 1
    rw [staleCode, after_append, after_append, hlast, after_flush, hc]
  have hepoch : c.epoch = 1 := by rw [hc]; rfl
  have hchain : (c.chain false 1).tag = 0x1000 >>> 12 ||| 1 <<< epochShift := by rw [hc]; rfl
  have hcode : c.codeTlb = ⟨1 <<< epochShift ||| Core.userBit false, 0x1000 >>> 12, 1, false, false⟩ := by
    rw [hc]
    rfl
  obtain ⟨h1, h2, h3⟩ := Core.flush_iterate 4094 (c := c) (by rw [hepoch]; decide)
  obtain ⟨hwrap, hchain', hcode'⟩ := (Core.flush^[4094] c).flush_eq
  have hone : (Core.flush^[4094] c).nextEpoch = 1 := by
    rw [Core.nextEpoch, h1, hepoch]
    rfl
  rw [hone] at hwrap
  rw [hrun]
  unfold Core.codeHit Core.epochBits
  rw [hwrap, hchain', hcode', h2, h3, hchain, hcode]
  exact ⟨rfl, rfl⟩

/-- The epoch comes back to that of retired entries, and `invlpg` misses part of a large page. -/
theorem lookups_not_live : (((after (Machine.step 0) Machine.new staleCode 0).chain false 1).tag =
        0x1000 >>> 12 ||| (after (Machine.step 0) Machine.new staleCode 0).epochBits ∧
      (after (Machine.step 0) Machine.new staleCode 0).codeHit false 0x1000 = some (1, false) ∧
      ¬∃ l, Since (CacheEvent.adds 0) CacheEvent.kills
          (trace (Machine.step 0) Machine.new staleCode) l ∧ l.core = 0) ∧
    ((after (Machine.step 0) Machine.new staleLarge 0).chain false 0x200).tag =
        0x200000 >>> 12 ||| (after (Machine.step 0) Machine.new staleLarge 0).epochBits ∧
      ¬∃ l, Since (CacheEvent.adds 0) CacheEvent.kills
          (trace (Machine.step 0) Machine.new staleLarge) l ∧ l.core = 0 := by
  obtain ⟨hchain, hcode⟩ := staleCode_entries 0
  refine ⟨⟨hchain, hcode, ?_⟩, by decide +kernel, ?_⟩
  · rintro ⟨l, hl, hcore⟩
    exact not_since_last _ (e := .flush 0) (fun _ => not_false) (fun _ => hcore) hl
  · rintro ⟨l, hl, hcore⟩
    obtain ⟨⟨m, e⟩, he, hadds⟩ := hl.exists_adds
    rcases List.mem_cons.1 he with heq | he
    · cases heq
      have hmaps : l.Maps 0x201000 := by
        rw [show l = _ from hadds]
        unfold CacheLine.Maps
        decide
      exact not_since_last [.chainFill 0 false 0x200000 0 false true] (e := .invlpg 0 0x201000)
        (fun _ => not_false) (fun _ => ⟨hcore, hmaps⟩) hl
    · rw [List.mem_singleton.1 he] at hadds
      exact hadds.elim

end V86.X64
