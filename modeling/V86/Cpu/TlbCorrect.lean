import V86.Cpu.Tlb

/-!
# The table of translations grants what the page tables do

`leaf` reads what the page tables say of an address, without regard to who accesses it. An entry of
`tlb_data` records the outcome of one access, and is consulted by the next ones of either privilege.
It grants no more than the leaf does (`tlb_grants`), unless a supervisor writes to a read-only page
that user code may read: then the entry lets user code write as well.
-/

namespace V86.Cpu

open History List BitVec

/-! ## Masks -/

variable {mask e e' : BitVec 32}

theorem has_eq_false {x : BitVec 32} : has x mask = false ↔ x &&& mask = 0 := by
  rw [has, bne_eq_false_iff_eq]

/-- Entries that differ in the accessed and dirty bits at most. -/
def stable (entry : BitVec 32) : BitVec 32 := entry &&& ~~~(pageTableAccessed ||| pageTableDirty)

theorem stable_and (h : stable e = stable e')
    (hmask : mask &&& (pageTableAccessed ||| pageTableDirty) = 0) : e &&& mask = e' &&& mask := by
  have hkeep : ∀ x : BitVec 32, stable x &&& mask = x &&& mask := by
    intro x
    have hsub : ~~~(pageTableAccessed ||| pageTableDirty) &&& mask = mask := by
      refine eq_of_getLsbD_eq fun i hi => ?_
      have hbit : (mask &&& (pageTableAccessed ||| pageTableDirty)).getLsbD i = false := by
        rw [hmask]
        exact getLsbD_zero
      rw [getLsbD_and] at hbit
      rw [getLsbD_and, getLsbD_not, decide_eq_true hi, Bool.true_and]
      cases hm : mask.getLsbD i with
      | false => rw [Bool.and_false]
      | true =>
        rw [hm, Bool.true_and] at hbit
        rw [hbit]
        rfl
    rw [stable, BitVec.and_assoc, hsub]
  rw [← hkeep e, h, hkeep e']

theorem stable_has (h : stable e = stable e')
    (hmask : mask &&& (pageTableAccessed ||| pageTableDirty) = 0) : has e mask = has e' mask := by
  rw [has, has, stable_and h hmask]

/-- Page tables that differ in accessed and dirty bits at most. -/
def SameTables (m m' : PageMemory) : Prop := ∀ a, stable (m a) = stable (m' a)

theorem getLsbD_frame (a : BitVec 32) (i : Nat) :
    (frame a).getLsbD i = (a.getLsbD i && decide (12 ≤ i)) := by
  have hmask : (0xFFFFF000 : BitVec 32) = BitVec.allOnes 32 <<< 12 := by decide
  rw [frame, hmask, getLsbD_and, getLsbD_shiftLeft, getLsbD_allOnes]
  rcases Nat.lt_or_ge i 32 with hlt | hge
  · simp only [hlt, decide_true, Bool.true_and, show i - 12 < 32 by omega, Bool.and_true]
    rcases Nat.lt_or_ge i 12 with h | h <;> simp [h]
  · rw [getLsbD_of_ge a i hge, Bool.false_and, Bool.false_and]

theorem frame_shift (a : BitVec 32) {n : Nat} (hn : 12 ≤ n) : frame a >>> n = a >>> n := by
  refine eq_of_getLsbD_eq fun i _ => ?_
  rw [getLsbD_ushiftRight, getLsbD_ushiftRight, getLsbD_frame]
  simp [show 12 ≤ n + i by omega]

theorem frame_and (a : BitVec 32) (hmask : frame mask = mask) : frame a &&& mask = a &&& mask := by
  rw [frame, BitVec.and_assoc, BitVec.and_comm 0xFFFFF000]
  exact congrArg (a &&& ·) hmask

theorem frame_pageOf (a : BitVec 32) : (pageOf a).setWidth 32 <<< 12 = frame a := by
  refine eq_of_getLsbD_eq fun i hi => ?_
  rw [getLsbD_frame, getLsbD_shiftLeft, getLsbD_setWidth, pageOf,
    getLsbD_setWidth, getLsbD_ushiftRight]
  rcases Nat.lt_or_ge i 12 with h | h
  · simp [h]
  · rw [Nat.add_sub_cancel' h]
    simp [hi, h, show i - 12 < 20 by omega, show i - 12 < 32 by omega]

/-! ## Leaves -/

/-- What the page tables say of an address: the entry that maps its page, if paging is enabled, the
physical page, and what is allowed. -/
structure Leaf where
  entry : Option (BitVec 32)
  high : BitVec 32
  writable : Bool
  user : Bool
  isGlobal : Bool

section
variable (c : PageControls) (m : PageMemory)

def leaf (address : BitVec 32) : Option Leaf :=
  if has c.cr0 cr0Pg then
    (c.pageDirAddr address).bind fun dirAddr =>
      let dir := m dirAddr
      let tableAddr := c.pageTableAddr dir address
      let table := m tableAddr
      if !has dir pageTablePresent then none
      else if has dir pageTablePse && has c.cr4 cr4Pse then
        some ⟨some dirAddr, c.largeHigh dir address, has dir pageTableRw, has dir pageTableUser,
          has dir pageTableGlobal⟩
      else if !has table pageTablePresent then none
      else some ⟨some tableAddr, frame table, has dir pageTableRw && has table pageTableRw,
        has dir pageTableUser && has table pageTableUser, has table pageTableGlobal⟩
  else some ⟨none, frame address, true, true, false⟩

/-- Does a leaf permit an access of a privilege? -/
def Leaf.permits (l : Leaf) (write user : Bool) : Bool :=
  (!write || l.writable || (!user && !has c.cr0 cr0Wp)) && (!user || l.user)

/-- A leaf that a supervisor may write by CR0.WP only, and that user code may read. -/
def Leaf.overridden (l : Leaf) : Bool := l.user && !l.writable && !has c.cr0 cr0Wp

def Leaf.physical (l : Leaf) (address : BitVec 32) : BitVec 32 := l.high + (address &&& 0xFFF)

/-- The physical address of an access that the page tables permit. -/
def walked (address : BitVec 32) (write user : Bool) : Option (BitVec 32) :=
  ((leaf c m address).filter fun l => l.permits c write user).map fun l => l.physical address

/-- The entry of a leaf is dirty. -/
def Leaf.Dirty (l : Leaf) : Prop := ∀ a, l.entry = some a → has (m a) pageTableDirty = true

end

variable {c : PageControls} {m m' : PageMemory} {address : BitVec 32} {l : Leaf}
  {write user sideEffects : Bool}

theorem leaf_same (h : SameTables m m') (address : BitVec 32) :
    leaf c m address = leaf c m' address := by
  have hp : ∀ a, has (m a) pageTablePresent = has (m' a) pageTablePresent :=
    fun a => stable_has (h a) rfl
  have hps : ∀ a, has (m a) pageTablePse = has (m' a) pageTablePse := fun a => stable_has (h a) rfl
  have hw : ∀ a, has (m a) pageTableRw = has (m' a) pageTableRw := fun a => stable_has (h a) rfl
  have hu : ∀ a, has (m a) pageTableUser = has (m' a) pageTableUser := fun a => stable_has (h a) rfl
  have hg : ∀ a, has (m a) pageTableGlobal = has (m' a) pageTableGlobal :=
    fun a => stable_has (h a) rfl
  have hf : ∀ a, frame (m a) = frame (m' a) := fun a => stable_and (h a) rfl
  have hf2 : ∀ a, m a &&& 0xFFE00000 = m' a &&& 0xFFE00000 := fun a => stable_and (h a) rfl
  have hf4 : ∀ a, m a &&& 0xFFC00000 = m' a &&& 0xFFC00000 := fun a => stable_and (h a) rfl
  unfold leaf PageControls.largeHigh PageControls.pageTableAddr
  simp only [hp, hps, hw, hu, hg, hf, hf2, hf4]

theorem leaf_frame (c : PageControls) (m : PageMemory) (address : BitVec 32) :
    leaf c m (frame address) = leaf c m address := by
  have hbase : frame (frame address) = frame address := frame_and _ rfl
  have hsmall : frame address &&& 0x1FF000 = address &&& 0x1FF000 := frame_and _ rfl
  have hlarge : frame address &&& 0x3FF000 = address &&& 0x3FF000 := frame_and _ rfl
  unfold leaf PageControls.pageDirAddr PageControls.largeHigh PageControls.pageTableAddr
  simp only [hbase, frame_shift address (show 12 ≤ 30 by decide),
    frame_shift address (show 12 ≤ 21 by decide), frame_shift address (show 12 ≤ 22 by decide),
    frame_shift address (Nat.le_refl 12), hsmall, hlarge]

/-! ## Marking of entries -/

/-- The bits that a mark adds. -/
theorem getLsbD_markBits (entry bits : BitVec 32) (i : Nat) :
    ((((entry ||| bits) ^^^ entry).setWidth 8).setWidth 32).getLsbD i =
      (decide (i < 8) && (bits.getLsbD i && !entry.getLsbD i)) := by
  rw [getLsbD_setWidth, getLsbD_setWidth, getLsbD_xor, getLsbD_or]
  rcases Nat.lt_or_ge i 8 with h | h
  · rw [decide_eq_true h, decide_eq_true (show i < 32 by omega)]
    cases entry.getLsbD i <;> cases bits.getLsbD i <;> rfl
  · rw [decide_eq_false (Nat.not_lt.2 h), Bool.false_and, Bool.false_and, Bool.and_false]

theorem markEntry_cases (m : PageMemory) (sideEffects : Bool) (a entry bits a' : BitVec 32) :
    markEntry m sideEffects a entry bits a' = m a' ∨ a' = a ∧
      markEntry m sideEffects a entry bits a' =
        m a' ||| (((entry ||| bits) ^^^ entry).setWidth 8).setWidth 32 := by
  unfold markEntry PageMemory.setPageEntryBits
  split
  · dsimp only
    split
    · next h => exact .inr ⟨h, rfl⟩
    · exact .inl rfl
  · exact .inl rfl

theorem getLsbD_stable (x : BitVec 32) (i : Nat) : (stable x).getLsbD i =
      (x.getLsbD i && !(pageTableAccessed ||| pageTableDirty).getLsbD i) := by
  rw [stable, getLsbD_and, getLsbD_not]
  rcases Nat.lt_or_ge i 32 with h | h
  · rw [decide_eq_true h, Bool.true_and]
  · rw [getLsbD_of_ge x i h, Bool.false_and, Bool.false_and]

/-- Only accessed and dirty bits are marked. -/
theorem markEntry_same {bits : BitVec 32} (hbits : stable bits = 0) (m : PageMemory)
    (sideEffects : Bool) (a entry : BitVec 32) :
    SameTables m (markEntry m sideEffects a entry bits) := by
  intro a'
  rcases markEntry_cases m sideEffects a entry bits a' with h | ⟨_, h⟩
  · rw [h]
  rw [h]
  refine eq_of_getLsbD_eq fun i _ => ?_
  have hbit : (stable bits).getLsbD i = false := by
    rw [hbits]
    exact getLsbD_zero
  rw [getLsbD_stable] at hbit
  rw [getLsbD_stable, getLsbD_stable, getLsbD_or (x := m a'), getLsbD_markBits]
  cases hb : bits.getLsbD i with
  | false => rw [Bool.false_and, Bool.and_false, Bool.or_false]
  | true =>
    rw [hb, Bool.true_and] at hbit
    rw [hbit, Bool.and_false, Bool.and_false]

theorem has_dirty {x : BitVec 32} : has x pageTableDirty = true ↔ x.getLsbD 6 = true := by
  have h := Bits.and_bit_eq_zero (x := x) (show 6 < 32 by decide)
  rw [← Bool.not_eq_false, ← Bool.not_eq_false, has_eq_false]
  exact not_congr h

/-- A mark clears no dirty bit. -/
theorem markEntry_dirty_mono (m : PageMemory) (sideEffects : Bool) (a entry bits : BitVec 32)
    {a' : BitVec 32} (h : has (m a') pageTableDirty = true) :
    has (markEntry m sideEffects a entry bits a') pageTableDirty = true := by
  rw [has_dirty] at h ⊢
  rcases markEntry_cases m sideEffects a entry bits a' with heq | ⟨_, heq⟩
  · rw [heq, h]
  · rw [heq, getLsbD_or, h, Bool.true_or]

/-- A mark of a leaf that is written sets the dirty bit. -/
theorem markEntry_dirty {m : PageMemory} {a entry : BitVec 32}
    (h : has entry pageTableDirty = true → has (m a) pageTableDirty = true) :
    has (markEntry m true a entry (leafBits true) a) pageTableDirty = true := by
  rw [has_dirty] at h ⊢
  rw [has_dirty] at h
  have hset : (leafBits true).getLsbD 6 = true := rfl
  have hnew : (entry ||| leafBits true).getLsbD 6 = true := by
    rw [getLsbD_or, hset, Bool.or_true]
  unfold markEntry PageMemory.setPageEntryBits
  split
  · dsimp only
    rw [if_pos rfl, getLsbD_or, getLsbD_markBits, hset]
    cases he : entry.getLsbD 6 with
    | false => simp
    | true => rw [h he, Bool.true_or]
  · next hsame =>
    rw [Bool.true_and, Bool.not_eq_true, bne_eq_false_iff_eq] at hsame
    exact h (hsame ▸ hnew)

theorem SameTables.trans {m₁ m₂ m₃ : PageMemory} (h : SameTables m₁ m₂) (h' : SameTables m₂ m₃) :
    SameTables m₁ m₃ := fun a => (h a).trans (h' a)

theorem stable_leafBits (write : Bool) : stable (leafBits write) = 0 := by cases write <;> rfl

/-! ## Walks -/

/-- A walk finds the leaf, if it permits the access, and marks it. -/
structure WalkSpec (c : PageControls) (m : PageMemory) (address : BitVec 32)
    (write user sideEffects : Bool) (r : Except Bool Found × PageMemory) : Prop where
  same : SameTables m r.2
  dirty : ∀ a, has (m a) pageTableDirty = true → has (r.2 a) pageTableDirty = true
  found : ∀ {f}, r.1 = .ok f → ∃ l, leaf c m address = some l ∧ l.permits c write user = true ∧
    f = ⟨l.high, l.user, l.isGlobal⟩ ∧ (sideEffects = true → write = true → l.Dirty r.2)
  refused : ∀ {b}, r.1 = .error b → ∀ l, leaf c m address = some l → l.permits c write user = false

theorem WalkSpec.refuse (b : Bool)
    (h : ∀ l, leaf c m address = some l → l.permits c write user = false) :
    WalkSpec c m address write user sideEffects (.error b, m) :=
  ⟨fun _ => rfl, fun _ ha => ha, nofun, fun _ => h⟩

theorem WalkSpec.find (hleaf : leaf c m address = some l) (hpermits : l.permits c write user = true)
    (hsame : SameTables m m')
    (hdirty : ∀ a, has (m a) pageTableDirty = true → has (m' a) pageTableDirty = true)
    (hset : sideEffects = true → write = true → l.Dirty m') :
    WalkSpec c m address write user sideEffects (.ok ⟨l.high, l.user, l.isGlobal⟩, m') where
  same := hsame
  dirty := hdirty
  found := by
    intro f hf
    cases hf
    exact ⟨l, hleaf, hpermits, rfl, hset⟩
  refused := nofun

/-- The check of a walk. -/
theorem permits_eq (l : Leaf) (c : PageControls) (write user : Bool) : l.permits c write user =
      !((write && !l.writable && !(!user && !has c.cr0 cr0Wp)) || (user && !l.user)) := by
  unfold Leaf.permits
  cases write <;> cases user <;> cases l.writable <;> cases l.user <;> cases has c.cr0 cr0Wp <;> rfl

theorem walkTables_spec (c : PageControls) (m : PageMemory) (address : BitVec 32)
    (write user sideEffects : Bool) : WalkSpec c m address write user sideEffects
      (walkTables c m address write user sideEffects) := by
  unfold walkTables
  cases hpg : has c.cr0 cr0Pg with
  | false =>
    have hleaf : leaf c m address = some ⟨none, frame address, true, true, false⟩ := by
      rw [leaf, hpg]
      rfl
    refine WalkSpec.find hleaf ?_ (fun _ => rfl) (fun _ ha => ha) (fun _ _ _ ha => nomatch ha)
    rw [permits_eq]
    cases write <;> cases user <;> rfl
  | true =>
  rw [Bool.not_true, if_neg Bool.false_ne_true]
  have hleaf := @leaf.eq_def c m address
  rw [hpg, if_pos rfl] at hleaf
  cases hdir : c.pageDirAddr address with
  | none =>
    rw [hdir] at hleaf
    exact .refuse _ fun l hl => nomatch hleaf.symm.trans hl
  | some dirAddr =>
  rw [hdir, Option.bind_some] at hleaf
  dsimp only at hleaf ⊢
  cases hpresent : has (m dirAddr) pageTablePresent with
  | false =>
    rw [hpresent] at hleaf
    exact .refuse _ fun l hl => nomatch hleaf.symm.trans hl
  | true =>
  rw [hpresent, Bool.not_true, if_neg Bool.false_ne_true] at hleaf
  rw [Bool.not_true, if_neg Bool.false_ne_true]
  split
  · next hlarge =>
    rw [if_pos hlarge] at hleaf
    split
    · next hrefused =>
      refine .refuse _ fun l hl => ?_
      cases hleaf.symm.trans hl
      rw [permits_eq, hrefused]
      rfl
    · next hgranted =>
      refine WalkSpec.find hleaf ?_ (markEntry_same (stable_leafBits write) _ _ _ _)
        (fun a ha => markEntry_dirty_mono _ _ _ _ _ ha) ?_
      · rw [permits_eq, eq_false_of_ne_true hgranted]
        rfl
      · rintro rfl rfl a ha
        cases ha
        exact markEntry_dirty id
  · next hsmall =>
    rw [if_neg hsmall] at hleaf
    cases htable : has (m (c.pageTableAddr (m dirAddr) address)) pageTablePresent with
    | false =>
      rw [htable] at hleaf
      exact .refuse _ fun l hl => nomatch hleaf.symm.trans hl
    | true =>
    rw [htable, Bool.not_true, if_neg Bool.false_ne_true] at hleaf
    rw [Bool.not_true, Bool.false_or]
    split
    · next hrefused =>
      refine .refuse _ fun l hl => ?_
      cases hleaf.symm.trans hl
      rw [permits_eq, hrefused]
      rfl
    · next hgranted =>
      refine WalkSpec.find hleaf ?_ (SameTables.trans (markEntry_same rfl _ _ _ _)
        (markEntry_same (stable_leafBits write) _ _ _ _))
        (fun a ha => markEntry_dirty_mono _ _ _ _ _ (markEntry_dirty_mono _ _ _ _ _ ha)) ?_
      · rw [permits_eq, eq_false_of_ne_true hgranted]
        rfl
      · rintro rfl rfl a ha
        cases ha
        exact markEntry_dirty fun h => markEntry_dirty_mono _ _ _ _ _ h

/-! ## The list of pages -/

namespace Tlb

variable {t t' : Tlb} {page : PageNumber}

/-- The entries of `t'` are entries of `t`. -/
def Within (t' t : Tlb) : Prop := ∀ p, t'.data p ≠ 0 → t'.data p = t.data p

/-- Every page with an entry is in the list, which is not too long. -/
structure Listed (t : Tlb) : Prop where
  listed : ∀ p, t.data p ≠ 0 → p ∈ t.valid
  count : t.valid.length ≤ validTlbEntryMax

theorem Within.trans {t₁ t₂ t₃ : Tlb} (h : t₁.Within t₂) (h' : t₂.Within t₃) : t₁.Within t₃ := by
  intro p hp
  rw [h p hp]
  exact h' p (h p hp ▸ hp)

theorem setEntry_self (data : PageNumber → BitVec 32) (page : PageNumber) (entry : BitVec 32) :
    setEntry data page entry page = entry := if_pos rfl

theorem setEntry_ne {data : PageNumber → BitVec 32} {p : PageNumber} (h : p ≠ page)
    (entry : BitVec 32) : setEntry data page entry p = data p := if_neg h

theorem foldl_setEntry (ps : List PageNumber) (data : PageNumber → BitVec 32) (p : PageNumber) :
    ps.foldl (fun data page => setEntry data page 0) data p = if p ∈ ps then 0 else data p := by
  induction ps generalizing data with
  | nil => rfl
  | cons q ps ih =>
    rw [foldl_cons, ih]
    by_cases hq : p = q
    · subst hq
      rw [setEntry_self, ite_self, if_pos mem_cons_self]
    · rw [setEntry_ne hq]
      simp only [mem_cons, hq, false_or]

/-- `full_clear_tlb` leaves no entry. -/
theorem fullClear_data (h : t.Listed) (p : PageNumber) : t.fullClear.data p = 0 := by
  unfold fullClear
  dsimp only
  rw [foldl_setEntry]
  split
  · rfl
  · next hp => exact Decidable.not_not.1 fun hne => hp (h.listed p hne)

theorem clearPage_global (h : has (t.data page) tlbGlobal = true) :
    t.clearPage page = { t with valid := t.valid ++ [page] } := if_pos h

theorem clearPage_other (h : has (t.data page) tlbGlobal = false) :
    t.clearPage page = { t with data := setEntry t.data page 0 } :=
  if_neg (ne_true_of_eq_false h)

/-- What `clear_tlb` does: of the pages that it goes through, those with a global entry are kept. -/
theorem foldl_clearPage (ps : List PageNumber) (t : Tlb) : (∀ p, (ps.foldl clearPage t).data p =
        if p ∈ ps ∧ has (t.data p) tlbGlobal = false then 0 else t.data p) ∧
      (∀ p, p ∈ (ps.foldl clearPage t).valid ↔
        p ∈ t.valid ∨ p ∈ ps ∧ has (t.data p) tlbGlobal = true) ∧
      (ps.foldl clearPage t).valid.length ≤ t.valid.length + ps.length := by
  induction ps generalizing t with
  | nil => exact ⟨fun p => by simp, fun p => by simp, Nat.le_refl _⟩
  | cons q ps ih =>
    rw [foldl_cons]
    obtain ⟨hdata, hvalid, hlen⟩ := ih (t.clearPage q)
    cases hq : has (t.data q) tlbGlobal with
    | true =>
      rw [clearPage_global hq] at hdata hvalid hlen ⊢
      refine ⟨fun p => ?_, fun p => ?_, ?_⟩
      · rw [hdata p]
        by_cases hpq : p = q
        · subst hpq
          simp [hq]
        · simp [hpq]
      · rw [hvalid p]
        by_cases hpq : p = q
        · subst hpq
          simp [hq]
        · simp [hpq]
      · rw [length_append, length_singleton] at hlen
        rw [length_cons]
        omega
    | false =>
      rw [clearPage_other hq] at hdata hvalid hlen ⊢
      have hzero : has 0 tlbGlobal = false := rfl
      refine ⟨fun p => ?_, fun p => ?_, ?_⟩
      · rw [hdata p]
        by_cases hpq : p = q
        · subst hpq
          simp [setEntry_self, hq]
        · simp [setEntry_ne hpq, hpq]
      · rw [hvalid p]
        by_cases hpq : p = q
        · subst hpq
          dsimp only
          rw [setEntry_self, hzero, hq]
          simp
        · simp [setEntry_ne hpq, hpq]
      · dsimp only at hlen
        rw [length_cons]
        omega

/-- `clear_tlb` keeps the global entries and no others, and loses none of their pages. -/
theorem clear_spec (h : t.Listed) :
    (∀ p, t.clear.data p = if has (t.data p) tlbGlobal then t.data p else 0) ∧ t.clear.Listed := by
  obtain ⟨hdata, hvalid, hlen⟩ := foldl_clearPage t.valid ⟨t.data, []⟩
  dsimp only at hdata hvalid hlen
  have hclear : ∀ p, t.clear.data p = if has (t.data p) tlbGlobal then t.data p else 0 := by
    intro p
    rw [clear, hdata p]
    cases hg : has (t.data p) tlbGlobal with
    | true => simp
    | false =>
      by_cases hzero : t.data p = 0
      · simp [hzero]
      · simp [h.listed p hzero]
  refine ⟨hclear, fun p hp => ?_, ?_⟩
  · rw [hclear p] at hp
    split at hp
    · next hg => exact (hvalid p).2 (.inr ⟨h.listed p hp, hg⟩)
    · exact absurd rfl hp
  · rw [length_nil, Nat.zero_add] at hlen
    exact Nat.le_trans hlen h.count

theorem clear_within (h : t.Listed) : t.clear.Within t := by
  intro p hp
  rw [(clear_spec h).1 p] at hp ⊢
  split at hp
  · next hg => rw [if_pos hg]
  · exact absurd rfl hp

theorem fullClear_listed (h : t.Listed) : t.fullClear.Listed :=
  ⟨fun p hp => absurd (fullClear_data h p) hp, Nat.zero_le _⟩

theorem fullClear_within (h : t.Listed) : t.fullClear.Within t :=
  fun p hp => absurd (fullClear_data h p) hp

theorem invlpg_spec (h : t.Listed) (address : BitVec 32) :
    (t.invlpg address).Listed ∧ (t.invlpg address).Within t := by
  have hdata : ∀ p, (t.invlpg address).data p ≠ 0 → (t.invlpg address).data p = t.data p := by
    intro p hp
    unfold invlpg at hp ⊢
    dsimp only at hp ⊢
    by_cases hpage : p = pageOf address
    · rw [hpage, setEntry_self] at hp
      exact absurd rfl hp
    · exact setEntry_ne hpage 0
  exact ⟨⟨fun p hp => h.listed p (hdata p hp ▸ hp), h.count⟩, hdata⟩

/-- There is a place for a page, at the expense of other entries. -/
theorem reserve_spec (h : t.Listed) (page : PageNumber) :
    (t.reserve page).Listed ∧ (t.reserve page).Within t ∧ page ∈ (t.reserve page).valid := by
  -- whatever is left has a free place
  have hroom : ∀ t' : Tlb, t'.Listed → t'.Within t → t'.valid.length < validTlbEntryMax →
      ({ t' with valid := t'.valid ++ [page] } : Tlb).Listed ∧
        ({ t' with valid := t'.valid ++ [page] } : Tlb).Within t ∧
        page ∈ ({ t' with valid := t'.valid ++ [page] } : Tlb).valid := by
    intro t' ht' hwithin hlen
    refine ⟨⟨fun p hp => mem_append_left _ (ht'.listed p hp), ?_⟩, hwithin, by simp⟩
    rw [length_append, length_singleton]
    exact hlen
  unfold reserve
  split
  · dsimp only
    have hmax : validTlbEntryMax = 10000 := rfl
    split
    · split
      · have hclear := (clear_spec h).2
        refine hroom _ (fullClear_listed hclear)
          ((fullClear_within hclear).trans (clear_within h)) ?_
        rw [hmax]
        exact (by decide : 0 < 10000)
      · next hfull =>
        refine hroom _ (clear_spec h).2 (clear_within h) ?_
        rw [hmax] at hfull ⊢
        omega
    · next hlen =>
      exact hroom t h (fun _ _ => rfl) (Nat.lt_of_le_of_ne h.count hlen)
  · next hpage => exact ⟨h, fun _ _ => rfl, h.listed page hpage⟩

end Tlb

/-! ## Entries -/

variable {x y info mask entry : BitVec 32} {s : Mmu}

theorem aligned_iff : x &&& 0xFFF = 0 ↔ x.toNat % 4096 = 0 := by
  have hmask : (0xFFF : BitVec 32).toNat = 2 ^ 12 - 1 := rfl
  rw [← toNat_inj, toNat_and, hmask, Nat.and_two_pow_sub_one_eq_mod]
  rfl

theorem aligned_add (hx : x &&& 0xFFF = 0) (hy : y &&& 0xFFF = 0) : (x + y) &&& 0xFFF = 0 := by
  rw [aligned_iff] at hx hy ⊢
  rw [toNat_add]
  omega

theorem frame_aligned (x : BitVec 32) : frame x &&& 0xFFF = 0 := by
  rw [frame, BitVec.and_assoc]
  exact and_zero

/-- The page of a leaf is a page. -/
theorem leaf_high (h : leaf c m address = some l) : l.high &&& 0xFFF = 0 := by
  have hlarge : ∀ {x y mask mask' : BitVec 32}, mask &&& 0xFFF = 0 → mask' &&& 0xFFF = 0 →
      ((x &&& mask) ||| (y &&& mask')) &&& 0xFFF = 0 := by
    intro x y mask mask' hm hm'
    rw [and_or_distrib_right, BitVec.and_assoc, BitVec.and_assoc, hm, hm']
    simp
  unfold leaf at h
  split at h
  · obtain ⟨a, _, h⟩ := Option.bind_eq_some_iff.1 h
    dsimp only at h
    split at h
    · cases h
    split at h
    · cases h
      unfold PageControls.largeHigh
      dsimp only
      split
      · exact hlarge rfl rfl
      · exact hlarge rfl rfl
    split at h
    · cases h
    · cases h
      exact frame_aligned _
  · cases h
    exact frame_aligned _

/-- The physical page and the flags of an entry do not overlap. -/
theorem or_and_low (hx : x &&& 0xFFF = 0) (hmask : mask &&& 0xFFF = mask) :
    (x ||| info) &&& mask = info &&& mask := by
  rw [← hmask, and_or_distrib_right, BitVec.and_comm mask, ← BitVec.and_assoc, hx]
  simp

theorem or_and_high (hx : x &&& 0xFFF = 0) (hinfo : info &&& ~~~0xFFF = 0) :
    (x ||| info) &&& ~~~0xFFF = x := by
  have hzero : ∀ y : BitVec 32, y ||| 0 = y := fun _ => or_zero
  rw [and_or_distrib_right, hinfo, hzero]
  refine eq_of_getLsbD_eq fun i hi => ?_
  have hbit : (x &&& 0xFFF).getLsbD i = false := by
    rw [hx]
    exact getLsbD_zero
  rw [getLsbD_and] at hbit
  rw [getLsbD_and, getLsbD_not, decide_eq_true hi, Bool.true_and]
  cases hxi : x.getLsbD i with
  | false => rfl
  | true =>
    rw [hxi, Bool.true_and] at hbit
    rw [hbit]
    rfl

theorem xor_aligned (hx : x &&& 0xFFF = 0) (hy : y &&& 0xFFF = 0) : (x ^^^ y) &&& 0xFFF = 0 := by
  refine eq_of_getLsbD_eq fun i _ => ?_
  have hbit : ∀ z : BitVec 32, z &&& 0xFFF = 0 → (z.getLsbD i && (0xFFF : BitVec 32).getLsbD i) = false := by
    intro z hz
    rw [← getLsbD_and, hz]
    exact getLsbD_zero
  have hzero : (0 : BitVec 32).getLsbD i = false := getLsbD_zero
  rw [getLsbD_and, getLsbD_xor, Bool.and_comm, Bool.and_xor_distrib_left,
    Bool.and_comm, hbit x hx, Bool.and_comm, hbit y hy, hzero]
  rfl

/-- An entry without its flags. -/
def physicalPart (entry : BitVec 32) : BitVec 32 := entry &&& ~~~0xFFF

/-- The flags of an entry. -/
theorem tlbEntry_flags (c : PageControls) (f : Found) (hf : f.high &&& 0xFFF = 0)
    (page : PageNumber) (forWriting hasCode : Bool) :
    physicalPart (tlbEntry c f page forWriting hasCode) =
        (f.high + c.mem8) ^^^ page.setWidth 32 <<< 12 ∧
      tlbEntry c f page forWriting hasCode &&& tlbValid = tlbValid ∧
      tlbEntry c f page forWriting hasCode &&& tlbNoUser = tlbFlag (!f.allowUser) tlbNoUser ∧
      tlbEntry c f page forWriting hasCode &&& tlbReadonly = tlbFlag (!forWriting) tlbReadonly := by
  have hpage : page.setWidth 32 <<< 12 &&& 0xFFF = 0 := by
    rw [aligned_iff, toNat_shiftLeft, Nat.shiftLeft_eq]
    omega
  have hx := xor_aligned (aligned_add hf c.mem8_aligned) hpage
  unfold tlbEntry
  dsimp only
  generalize c.inMappedRange f.high = b₁
  generalize (f.isGlobal && has c.cr4 cr4Pge) = b₂
  refine ⟨or_and_high hx ?_, (or_and_low hx rfl).trans ?_, (or_and_low hx rfl).trans ?_,
    (or_and_low hx rfl).trans ?_⟩
  all_goals
    cases forWriting <;> cases f.allowUser <;> cases b₁ <;> cases b₂ <;> cases hasCode <;> rfl

theorem frame_xor (a : BitVec 32) : frame a ^^^ a = a &&& 0xFFF := by
  have hlow : (0xFFF : BitVec 32) = ~~~0xFFFFF000 := by decide
  refine eq_of_getLsbD_eq fun i hi => ?_
  rw [frame, hlow, getLsbD_xor, getLsbD_and, getLsbD_and, getLsbD_not,
    decide_eq_true hi, Bool.true_and]
  cases a.getLsbD i <;> cases (0xFFFFF000 : BitVec 32).getLsbD i <;> rfl

/-- The physical address by an entry of a page. -/
theorem physicalBy_eq {high : BitVec 32} (hhigh : high &&& 0xFFF = 0)
    (h : physicalPart entry = (high + c.mem8) ^^^ frame address) :
    physicalBy c entry address = high + (address &&& 0xFFF) := by
  have hx := aligned_add hhigh c.mem8_aligned
  have hdisjoint : (high + c.mem8) &&& (address &&& 0xFFF) = 0 := by
    rw [BitVec.and_comm address, ← BitVec.and_assoc, hx]
    simp
  have hxor : (high + c.mem8) ^^^ (address &&& 0xFFF) = high + c.mem8 + (address &&& 0xFFF) := by
    rw [add_eq_or_of_and_eq_zero _ _ hdisjoint]
    refine eq_of_getLsbD_eq fun i _ => ?_
    have hbit : ((high + c.mem8) &&& (address &&& 0xFFF)).getLsbD i = false := by
      rw [hdisjoint]
      exact getLsbD_zero
    rw [getLsbD_and] at hbit
    rw [getLsbD_xor, getLsbD_or]
    cases hy : (high + c.mem8).getLsbD i with
    | false => rw [Bool.false_xor, Bool.false_or]
    | true =>
      rw [hy, Bool.true_and] at hbit
      rw [hbit]
      rfl
  unfold physicalPart at h
  rw [physicalBy, h, xor_assoc, frame_xor, hxor, BitVec.add_assoc,
    BitVec.add_comm c.mem8, ← BitVec.add_assoc, BitVec.add_sub_cancel]

/-! ## The invariant -/

/-- An entry grants no more than the leaf of its page. -/
structure EntryOk (c : PageControls) (m : PageMemory) (address entry : BitVec 32) (l : Leaf) : Prop where
  leaf : leaf c m address = some l
  physical : physicalPart entry = (l.high + c.mem8) ^^^ frame address
  user : entry &&& tlbNoUser = 0 → l.user = true
  write : entry &&& tlbReadonly = 0 →
    (l.writable = true ∨ l.user = false ∧ has c.cr0 cr0Wp = false) ∧ l.Dirty m

/-- The table of translations, for page tables that are `m` up to accessed and dirty bits. -/
structure Mmu.Inv (c : PageControls) (m : PageMemory) (s : Mmu) : Prop where
  same : SameTables m s.mem
  listed : s.tlb.Listed
  entry : ∀ address, s.tlb.data (pageOf address) ≠ 0 →
    ∃ l, EntryOk c s.mem address (s.tlb.data (pageOf address)) l

/-- Fewer entries, and more dirty bits. -/
theorem Mmu.Inv.mono {s' : Mmu} (h : s.Inv c m) (hsame : SameTables s.mem s'.mem)
    (hdirty : ∀ a, has (s.mem a) pageTableDirty = true → has (s'.mem a) pageTableDirty = true)
    (hlisted : s'.tlb.Listed) (hwithin : s'.tlb.Within s.tlb) : s'.Inv c m where
  same := h.same.trans hsame
  listed := hlisted
  entry := by
    intro address hne
    have heq := hwithin _ hne
    obtain ⟨l, hok⟩ := h.entry address (heq ▸ hne)
    rw [heq]
    exact ⟨l, (leaf_same hsame address).symm.trans hok.leaf, hok.physical, hok.user,
      fun hw => ⟨(hok.write hw).1, fun a ha => hdirty a ((hok.write hw).2 a ha)⟩⟩

/-- What an access gets: the entry of a leaf that permits it, or a refusal. -/
structure Mmu.Served (c : PageControls) (m : PageMemory) (address : BitVec 32)
    (write user sideEffects : Bool) (r : Except (Option PageFault) (BitVec 32) × Mmu) : Prop where
  inv : r.2.Inv c m
  granted : ∀ {entry}, r.1 = .ok entry → ∃ l, leaf c m address = some l ∧
    l.permits c write user = true ∧ physicalPart entry = (l.high + c.mem8) ^^^ frame address ∧
    (sideEffects = true → write = true → l.Dirty r.2.mem)
  refused : ∀ {fault}, r.1 = .error fault →
    ∀ l, leaf c m address = some l → l.permits c write user = false

/-- An access is not a supervisor's write to a page that only CR0.WP lets it write, and that user
code may read. -/
def Unoverridden (c : PageControls) (m : PageMemory) (address : BitVec 32)
    (write user : Bool) : Prop :=
  write = true → user = false → ∀ l, leaf c m address = some l → l.overridden c = false

/-- A mask in a test of several bits. -/
theorem and_of_and {part value : BitVec 32} (h : entry &&& mask = value)
    (hpart : mask &&& part = part) : entry &&& part = value &&& part := by
  rw [← h, BitVec.and_assoc, hpart]

theorem entry_hit {write user : Bool}
    (h : entry &&& (tlbValid ||| tlbFlag user tlbNoUser ||| tlbFlag write tlbReadonly) = tlbValid) :
    entry ≠ 0 ∧ (user = true → entry &&& tlbNoUser = 0) ∧
      (write = true → entry &&& tlbReadonly = 0) := by
  refine ⟨?_, ?_, ?_⟩
  · rintro rfl
    cases user <;> cases write <;> cases h
  · rintro rfl
    refine (and_of_and h ?_).trans rfl
    cases write <;> rfl
  · rintro rfl
    refine (and_of_and h ?_).trans rfl
    cases user <;> rfl

theorem frame_of_pageOf {a b : BitVec 32} (h : pageOf a = pageOf b) : frame a = frame b := by
  rw [← frame_pageOf, h, frame_pageOf]

theorem EntryOk.same_page {address' : BitVec 32} (h : EntryOk c m address entry l)
    (hpage : pageOf address' = pageOf address) : EntryOk c m address' entry l where
  leaf := by rw [← leaf_frame, frame_of_pageOf hpage, leaf_frame, h.leaf]
  physical := by rw [frame_of_pageOf hpage, h.physical]
  user := h.user
  write := h.write

/-- An entry is put in the table. -/
theorem Mmu.Inv.fill (h : s.Inv c m) (hpage : pageOf address ∈ s.tlb.valid)
    (hok : EntryOk c s.mem address entry l) :
    Mmu.Inv c m ⟨s.mem, { s.tlb with data := Tlb.setEntry s.tlb.data (pageOf address) entry }⟩ where
  same := h.same
  listed := by
    refine ⟨fun p hp => ?_, h.listed.count⟩
    by_cases heq : p = pageOf address
    · rw [heq]
      exact hpage
    · dsimp only at hp
      rw [Tlb.setEntry_ne heq] at hp
      exact h.listed.listed p hp
  entry := by
    intro address' hne
    dsimp only at hne ⊢
    by_cases heq : pageOf address' = pageOf address
    · rw [heq, Tlb.setEntry_self]
      exact ⟨l, hok.same_page heq⟩
    · rw [Tlb.setEntry_ne heq] at hne ⊢
      exact h.entry address' hne

/-- The entry of a leaf that permits an access. -/
theorem tlbEntry_ok (hleaf : leaf c m address = some l)
    (hpermits : l.permits c write user = true) (hdirty : write = true → l.Dirty m)
    (hproper : Unoverridden c m address write user) (hasCode : Bool) : EntryOk c m address
      (tlbEntry c ⟨l.high, l.user, l.isGlobal⟩ (pageOf address) write hasCode) l := by
  obtain ⟨hphysical, _, huser, hwrite⟩ := tlbEntry_flags c ⟨l.high, l.user, l.isGlobal⟩
    (leaf_high hleaf) (pageOf address) write hasCode
  refine ⟨hleaf, by rw [hphysical, frame_pageOf], fun h => ?_, fun h => ?_⟩
  · rw [huser] at h
    cases hl : l.user with
    | true => rfl
    | false =>
      rw [hl] at h
      cases h
  · rw [hwrite] at h
    cases hw : write with
    | false =>
      rw [hw] at h
      cases h
    | true =>
    refine ⟨?_, hdirty hw⟩
    subst hw
    cases user with
    | true =>
      rw [permits_eq] at hpermits
      refine .inl ?_
      cases hl : l.writable with
      | true => rfl
      | false =>
        rw [hl] at hpermits
        cases hpermits
    | false =>
      have hover := hproper rfl rfl l hleaf
      unfold Leaf.overridden at hover
      rw [permits_eq] at hpermits
      cases hl : l.writable <;> cases hu : l.user <;> cases hwp : has c.cr0 cr0Wp <;>
        simp [hl, hu, hwp] at hover hpermits ⊢

/-- A walk fills the table with an entry that grants no more than the leaf. -/
theorem Mmu.doPageWalk_spec (h : s.Inv c m)
    (hproper : sideEffects = true → Unoverridden c m address write user)
    (hasCode : BitVec 32 → Bool) : Mmu.Served c m address write user sideEffects
      (s.doPageWalk c address write user sideEffects hasCode) := by
  have hwalk := walkTables_spec c s.mem address write user sideEffects
  unfold Mmu.doPageWalk
  split
  · next present mem hr =>
    rw [hr] at hwalk
    have hrefused : ∀ l, leaf c m address = some l → l.permits c write user = false :=
      fun l hl => hwalk.refused rfl l ((leaf_same h.same address).symm.trans hl)
    dsimp only
    split
    · obtain ⟨hlisted, hwithin⟩ := Tlb.invlpg_spec h.listed address
      exact ⟨h.mono hwalk.same hwalk.dirty hlisted hwithin, nofun, fun _ => hrefused⟩
    · exact ⟨h.mono hwalk.same hwalk.dirty h.listed (fun _ _ => rfl), nofun, fun _ => hrefused⟩
  · next found mem hr =>
    rw [hr] at hwalk
    obtain ⟨l, hleaf, hpermits, rfl, hdirty⟩ := hwalk.found rfl
    have hleaf' : leaf c m address = some l := (leaf_same h.same address).trans hleaf
    have hleaf'' : leaf c mem address = some l := (leaf_same hwalk.same address).symm.trans hleaf
    have hphysical : ∀ hasCode, physicalPart (tlbEntry c ⟨l.high, l.user, l.isGlobal⟩
        (pageOf address) write hasCode) = (l.high + c.mem8) ^^^ frame address := by
      intro hasCode
      rw [(tlbEntry_flags c ⟨l.high, l.user, l.isGlobal⟩ (leaf_high hleaf) _ write hasCode).1,
        frame_pageOf]
    dsimp only
    cases sideEffects with
    | true =>
      obtain ⟨hlisted, hwithin, hpage⟩ := Tlb.reserve_spec h.listed (pageOf address)
      have hinv : Mmu.Inv c m ⟨mem, s.tlb.reserve (pageOf address)⟩ :=
        h.mono hwalk.same hwalk.dirty hlisted hwithin
      have hproper' : Unoverridden c mem address write user := by
        intro hw hu l' hl'
        exact hproper rfl hw hu l' ((leaf_same hinv.same address).trans hl')
      refine ⟨hinv.fill hpage (tlbEntry_ok hleaf'' hpermits (hdirty rfl) hproper' _), ?_, nofun⟩
      intro entry hentry
      cases hentry
      exact ⟨l, hleaf', hpermits, hphysical _, hdirty⟩
    | false =>
      refine ⟨h.mono hwalk.same hwalk.dirty h.listed (fun _ _ => rfl), ?_, nofun⟩
      intro entry hentry
      cases hentry
      exact ⟨l, hleaf', hpermits, hphysical _, nofun⟩

/-- A hit or a walk. -/
theorem Mmu.entryFor_spec (h : s.Inv c m)
    (hproper : sideEffects = true → Unoverridden c m address write user)
    (hasCode : BitVec 32 → Bool) : Mmu.Served c m address write user sideEffects
      (s.entryFor c address write user sideEffects hasCode) := by
  unfold Mmu.entryFor
  dsimp only
  split
  · exact doPageWalk_spec h hproper hasCode
  · next hhit =>
    rw [Bool.not_eq_true, bne_eq_false_iff_eq] at hhit
    obtain ⟨hne, huser, hwrite⟩ := entry_hit hhit
    obtain ⟨l, hok⟩ := h.entry address hne
    refine ⟨h, ?_, nofun⟩
    intro entry hentry
    cases hentry
    have hleaf : leaf c m address = some l := (leaf_same h.same address).trans hok.leaf
    refine ⟨l, hleaf, ?_, hok.physical, fun _ hw => (hok.write (hwrite hw)).2⟩
    rw [permits_eq]
    cases hw : write with
    | false =>
      cases hu : user with
      | false => rfl
      | true =>
        rw [hok.user (huser hu)]
        rfl
    | true =>
      rcases (hok.write (hwrite hw)).1 with hl | ⟨hl, hwp⟩
      · cases hu : user with
        | false =>
          rw [hl]
          rfl
        | true =>
          rw [hl, hok.user (huser hu)]
          rfl
      · cases hu : user with
        | false =>
          rw [hwp]
          cases l.writable <;> rfl
        | true =>
          rw [hok.user (huser hu)] at hl
          cases hl

/-! ## Runs -/

/-- A table with no entries. -/
theorem Mmu.inv_new (c : PageControls) (m : PageMemory) : Mmu.Inv c m ⟨m, .new⟩ :=
  ⟨fun _ => rfl, ⟨fun _ h => absurd rfl h, Nat.zero_le _⟩, fun _ h => absurd rfl h⟩

/-- What an access answers is what the page tables say, and a write has set the dirty bit. -/
def Mmu.Answers (c : PageControls) (m : PageMemory) (address : BitVec 32)
    (write user sideEffects : Bool) (physical : Option (BitVec 32)) (s : Mmu) : Prop :=
  physical = walked c m address write user ∧
    (physical.isSome = true → sideEffects = true → write = true →
      ∃ l, leaf c m address = some l ∧ l.Dirty s.mem)

theorem Mmu.Served.answers {r : Except (Option PageFault) (BitVec 32) × Mmu}
    (h : Mmu.Served c m address write user sideEffects r) :
    Mmu.Answers c m address write user sideEffects
      ((r.1.map fun entry => physicalBy c entry address).toOption) r.2 := by
  unfold Mmu.Answers walked
  obtain ⟨result, s⟩ := r
  cases result with
  | error fault =>
    refine ⟨?_, fun hsome => nomatch hsome⟩
    have hrefused := h.refused rfl
    cases hleaf : leaf c m address with
    | none => rfl
    | some l =>
      rw [Option.filter_some, hrefused l hleaf]
      rfl
  | ok entry =>
    obtain ⟨l, hleaf, hpermits, hphysical, hdirty⟩ := h.granted rfl
    refine ⟨?_, fun _ hs hw => ⟨l, hleaf, hdirty hs hw⟩⟩
    rw [hleaf, Option.filter_some, if_pos hpermits]
    exact congrArg some (physicalBy_eq (leaf_high hleaf) hphysical)

namespace MmuEvent

/-- A step grants what the page tables do: a call answers what they say, and the other steps leave
the entries that they should. -/
def Grants (c : PageControls) (m : PageMemory) (s : Mmu) : MmuEvent → Prop
  | .translate address write user sideEffects hasCode =>
    Mmu.Answers c m address write user sideEffects
      (s.translateAddress c address write user sideEffects hasCode).1.toOption
      (s.translateAddress c address write user sideEffects hasCode).2
  | .translateWrite address user hasCode =>
    Mmu.Answers c m address true user true
      ((s.translateAddressWriteAndCanSkipDirty c address user hasCode).1.map Prod.fst).toOption
      (s.translateAddressWriteAndCanSkipDirty c address user hasCode).2
  | .invlpg address => (s.tlb.invlpg address).data (pageOf address) = 0
  | .clear => ∀ p, s.tlb.clear.data p = if has (s.tlb.data p) tlbGlobal then s.tlb.data p else 0
  | .fullClear => ∀ p, s.tlb.fullClear.data p = 0

/-- No write of a supervisor, with CR0.WP clear, is to a read-only page that user code may read. -/
def Proper (c : PageControls) (m : PageMemory) : MmuEvent → Prop
  | .translate address write user sideEffects _ =>
    sideEffects = true → Unoverridden c m address write user
  | .translateWrite address user _ => Unoverridden c m address true user
  | _ => True

end MmuEvent

theorem Mmu.step_grants {s : Mmu} (h : s.Inv c m) (e : MmuEvent) (he : e.Proper c m) :
    (s.step c e).Inv c m ∧ e.Grants c m s := by
  cases e with
  | translate address write user sideEffects hasCode =>
    have hserved := Mmu.entryFor_spec h he hasCode
    have hanswers := hserved.answers
    unfold Mmu.step MmuEvent.Grants Mmu.translateAddress
    dsimp only
    split
    all_goals
      next hr =>
      rw [hr] at hserved hanswers
      exact ⟨hserved.inv, hanswers⟩
  | translateWrite address user hasCode =>
    have hserved := Mmu.entryFor_spec h (fun _ : true = true => he) hasCode
    have hanswers := hserved.answers
    unfold Mmu.step MmuEvent.Grants Mmu.translateAddressWriteAndCanSkipDirty
    dsimp only
    split
    all_goals
      next hr =>
      rw [hr] at hserved hanswers
      exact ⟨hserved.inv, hanswers⟩
  | invlpg address =>
    obtain ⟨hlisted, hwithin⟩ := Tlb.invlpg_spec h.listed address
    exact ⟨h.mono (fun _ => rfl) (fun _ ha => ha) hlisted hwithin, Tlb.setEntry_self _ _ _⟩
  | clear =>
    obtain ⟨hdata, hlisted⟩ := Tlb.clear_spec h.listed
    exact ⟨h.mono (fun _ => rfl) (fun _ ha => ha) hlisted (Tlb.clear_within h.listed), hdata⟩
  | fullClear =>
    exact ⟨h.mono (fun _ => rfl) (fun _ ha => ha) (Tlb.fullClear_listed h.listed)
      (Tlb.fullClear_within h.listed), Tlb.fullClear_data h.listed⟩

/-- In every run from a table with no entries, every step grants what the page tables do, the page
tables change in accessed and dirty bits only, and every page with an entry is in the list. -/
theorem tlb_grants (c : PageControls) (m : PageMemory) {es : List MmuEvent}
    (hes : Runs.Each (Mmu.step c) (fun _ e => e.Proper c m) ⟨m, .new⟩ es) :
    Runs.Each (Mmu.step c) (fun s e => e.Grants c m s) ⟨m, .new⟩ es ∧
      SameTables m (after (Mmu.step c) ⟨m, .new⟩ es).mem ∧
      (after (Mmu.step c) ⟨m, .new⟩ es).tlb.Listed := by
  have hstep : ∀ s e, True → Mmu.Inv c m s → e.Proper c m →
      (s.step c e).Inv c m ∧ e.Grants c m s := fun _ e _ h he => Mmu.step_grants h e he
  have hinv := Runs.inv_of hstep (fun _ _ => trivial) (Mmu.inv_new c m) hes
  exact ⟨Runs.each_of hstep (fun _ _ => trivial) (Mmu.inv_new c m) hes, hinv.same, hinv.listed⟩

/-! ## A run -/

/-- 32-bit paging, with CR0.WP clear. -/
def sampleControls : PageControls where
  cr0 := 0x80000001
  cr3 := 0x1000
  cr4 := 0
  pdpte := fun _ => 0
  inMappedRange := fun _ => false
  mem8 := 0x10000
  mem8_aligned := by decide

/-- A read-only page at `0x5000` and a writable one at `0x6000`, both for user code. -/
def sampleTables (address : BitVec 32) : BitVec 32 :=
  if address = 0x1000 then 0x2007
  else if address = 0x2014 then 0x5005
  else if address = 0x2018 then 0x6007
  else 0

/-- A read of both privileges, and a write of both to the writable page. -/
def sampleAccesses : List MmuEvent :=
  [.translate 0x5123 false false true fun _ => false, .translate 0x5123 false true true fun _ => false,
    .translateWrite 0x6000 false fun _ => false, .clear, .translateWrite 0x6000 true fun _ => false]

theorem tlb_grants_sample :
    Runs.Each (Mmu.step sampleControls) (fun s e => e.Grants sampleControls sampleTables s)
      ⟨sampleTables, .new⟩ sampleAccesses := by
  refine (tlb_grants sampleControls sampleTables ?_).1
  refine ⟨nofun, nofun, fun _ _ l hl => ?_, trivial, nofun, trivial⟩
  have hnone : (leaf sampleControls sampleTables 0x6000).all
      (fun l => !l.overridden sampleControls) = true := by decide +kernel
  rw [hl] at hnone
  exact Bool.not_eq_true' _ ▸ hnone

/-- A supervisor's write to the read-only page lets user code write it. -/
theorem tlb_not_grants :
    ¬Runs.Each (Mmu.step sampleControls) (fun s e => e.Grants sampleControls sampleTables s)
      ⟨sampleTables, .new⟩ [.translate 0x5123 true false true fun _ => false,
        .translate 0x5123 true true true fun _ => false] := by
  rintro ⟨_, hgrants, _⟩
  have hwalked : walked sampleControls sampleTables 0x5123 true true = none := by decide +kernel
  have hphysical := hgrants.1
  rw [hwalked] at hphysical
  revert hphysical
  decide +kernel

end V86.Cpu
