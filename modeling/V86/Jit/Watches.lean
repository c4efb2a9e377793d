import V86.Jit.CodePages
import Mathlib.Data.List.Nodup

/-!
# The accounts of watched pages

The counts, the bitmap, the translations' flag and the claims all follow from the slots: `Exact`
says how, and every operation keeps it. Writing a page drains the slots that depend on it, and
only those.
-/

namespace V86.Jit

open List Function

variable {p q page n : Nat}

/-! ## Calls -/

/-- The calls of an instance with the counts `c`: a page is claimed as its count leaves zero and
released as it returns there, and no sum is clamped or cut. -/
inductive Accounted : List Call → (Nat → Nat) → Prop where
  | start : Accounted [] fun _ => 0
  | first {calls c p} (h : Accounted calls c) (hp : c p = 0) :
      Accounted (.claim p :: .counted p 1 :: calls) (Function.update c p 1)
  | another {calls c p} (h : Accounted calls c) (hp : c p ≠ 0) (hlt : c p + 1 < 2 ^ 16) :
      Accounted (.counted p (c p + 1) :: calls) (Function.update c p (c p + 1))
  | last {calls c p} (h : Accounted calls c) (hp : c p = 1) :
      Accounted (.release p :: .counted p 0 :: calls) (Function.update c p 0)
  | fewer {calls c p} (h : Accounted calls c) (hp : 1 < c p) :
      Accounted (.counted p (c p - 1) :: calls) (Function.update c p (c p - 1))
  | cleared {calls c} (h : Accounted calls c) : Accounted (.releaseAll :: calls) fun _ => 0
  | written {calls c p} (h : Accounted calls c) : Accounted (.written p :: calls) c

/-- Whether a page is claimed after the calls, the latest of which is the first. -/
def claimed (page : Nat) : List Call → Bool
  | [] => false
  | .claim p :: calls => p = page || claimed page calls
  | .release p :: calls => p ≠ page && claimed page calls
  | .releaseAll :: _ => false
  | .counted _ _ :: calls => claimed page calls
  | .written _ :: calls => claimed page calls

/-- Pages are claimed when they are not, and released when they are. -/
def Alternate : List Call → Prop
  | [] => True
  | .claim p :: calls => claimed p calls = false ∧ Alternate calls
  | .release p :: calls => claimed p calls = true ∧ Alternate calls
  | .releaseAll :: calls => Alternate calls
  | .counted _ _ :: calls => Alternate calls
  | .written _ :: calls => Alternate calls

variable {calls : List Call} {c : Nat → Nat}

attribute [local simp] claimed

theorem Accounted.claimed (h : Accounted calls c) : claimed q calls = decide (c q ≠ 0) := by
  induction h with
  | start => rfl
  | @first calls c p h hp ih =>
    rw [Jit.claimed, Jit.claimed, ih, update_apply]
    rcases eq_or_ne q p with rfl | hne
    · simp
    · simp [hne, hne.symm]
  | @another calls c p h hp hlt ih =>
    rw [Jit.claimed, ih, update_apply]
    rcases eq_or_ne q p with rfl | hne
    · simp [hp]
    · simp [hne]
  | @last calls c p h hp ih =>
    rw [Jit.claimed, Jit.claimed, ih, update_apply]
    rcases eq_or_ne q p with rfl | hne
    · simp
    · simp [hne, hne.symm]
  | @fewer calls c p h hp ih =>
    rw [Jit.claimed, ih, update_apply]
    rcases eq_or_ne q p with rfl | hne
    · have hpos : c q - 1 ≠ 0 := by omega
      have hne : c q ≠ 0 := by omega
      simp [hpos, hne]
    · simp [hne]
  | cleared => rfl
  | written h ih => exact ih

theorem Accounted.alternate (h : Accounted calls c) : Alternate calls := by
  induction h with
  | start => trivial
  | first h hp ih => exact ⟨by rw [Jit.claimed, h.claimed, hp]; rfl, ih⟩
  | another h hp hlt ih => exact ih
  | last h hp ih => exact ⟨by rw [Jit.claimed, h.claimed, hp]; rfl, ih⟩
  | fewer h hp ih => exact ih
  | cleared h ih => exact ih
  | written h ih => exact ih

theorem Accounted.lt (h : Accounted calls c) : c q < 2 ^ 16 := by
  induction h with
  | start => exact Nat.two_pow_pos 16
  | first h hp ih => 
    rw [update_apply]
    split
    · decide
    · exact ih
  | another h hp hlt ih =>
    rw [update_apply]
    split
    · exact hlt
    · exact ih
  | last h hp ih =>
    rw [update_apply]
    split
    · exact Nat.two_pow_pos 16
    · exact ih
  | @fewer calls c p h hp ih =>
    rw [update_apply]
    split
    case isTrue heq =>
      subst heq
      omega
    · exact ih
  | cleared => exact Nat.two_pow_pos 16
  | written h ih => exact ih

/-- No sum is clamped or cut. -/
theorem Accounted.sum (h : Accounted calls c) {sum : Int} (hsum : .counted q sum ∈ calls) :
    0 ≤ sum ∧ sum < 2 ^ 16 := by
  induction h with
  | start => exact absurd hsum not_mem_nil
  | first h hp ih => 
    simp only [mem_cons, reduceCtorEq, false_or, Call.counted.injEq] at hsum
    rcases hsum with ⟨-, rfl⟩ | hsum
    · omega
    · exact ih hsum
  | another h hp hlt ih =>
    simp only [mem_cons, Call.counted.injEq] at hsum
    rcases hsum with ⟨-, rfl⟩ | hsum
    · omega
    · exact ih hsum
  | last h hp ih =>
    simp only [mem_cons, reduceCtorEq, false_or, Call.counted.injEq] at hsum
    rcases hsum with ⟨-, rfl⟩ | hsum
    · omega
    · exact ih hsum
  | @fewer calls c p h hp ih =>
    simp only [mem_cons, Call.counted.injEq] at hsum
    rcases hsum with ⟨-, rfl⟩ | hsum
    · have hlt := h.lt (q := p)
      omega
    · exact ih hsum
  | cleared h ih | written h ih =>
    simp only [mem_cons, reduceCtorEq, false_or] at hsum
    exact ih hsum

/-! ## The bitmap -/

theorem getD_grow {α : Type _} (l : List α) (n i : Nat) (x : α) :
    (grow l n x).getD i x = l.getD i x := by
  rw [grow, getD_eq_getElem?_getD, getD_eq_getElem?_getD, List.getElem?_append]
  split
  · rfl
  case isFalse hlt =>
    rw [List.getElem?_eq_none (Nat.not_lt.1 hlt), List.getElem?_replicate]
    split <;> rfl

theorem lt_length_grow {α : Type _} (l : List α) (n : Nat) (x : α) :
    n < (grow l (n + 1) x).length := by
  rw [grow, length_append, length_replicate]
  omega

namespace JitState

/-- A bit of the bitmap, which has no bits beyond its end. -/
theorem watchedBit_eq (bits : List (BitVec 64)) (page : Nat) :
    watchedBit bits page = (bits.getD (page / 64) 0).getLsbD (page % 64) := by
  have hword : ∀ w : BitVec 64, ((w >>> (page % 64)) &&& 1#64 != 0) = w.getLsbD (page % 64) := by
    intro w
    have hbit := Bits.and_bit_eq_zero (x := w >>> (page % 64)) (i := 0) (show 0 < 64 by decide)
    rw [BitVec.getLsbD_ushiftRight, Nat.add_zero] at hbit
    have hone : Bits.bit 64 0 = 1#64 := rfl
    rw [hone] at hbit
    cases hw : w.getLsbD (page % 64) with
    | false => rw [hbit.2 hw, bne_self_eq_false]
    | true =>
      rw [bne_iff_ne]
      intro h
      rw [hbit.1 h] at hw
      cases hw
  rw [watchedBit, getD_eq_getElem?_getD]
  cases bits[page / 64]? with
  | none => exact BitVec.getLsbD_zero.symm
  | some w => exact hword w

theorem watchedBit_setWatched (bits : List (BitVec 64)) (page q : Nat) (watched : Bool) :
    watchedBit (setWatched bits page watched) q =
      if q = page then watched else watchedBit bits q := by
  have hmod : page % 64 < 64 := Nat.mod_lt _ (by decide)
  unfold setWatched
  split
  case isTrue h =>
    obtain ⟨hlength, hclear⟩ := h
    have hfalse : watched = false := by simpa using hclear
    split
    case isTrue heq =>
      rw [heq, hfalse, watchedBit, List.getElem?_eq_none hlength]
      rfl
    · rfl
  case isFalse =>
    have hlt := lt_length_grow bits (page / 64) 0
    have hgrow := getD_grow bits (page / 64 + 1) (q / 64) 0
    rw [watchedBit_eq, watchedBit_eq, ← hgrow]
    generalize grow bits (page / 64 + 1) 0 = words at hlt
    rw [getD_eq_getElem?_getD, getD_eq_getElem?_getD, List.getElem?_modify]
    rcases eq_or_ne (page / 64) (q / 64) with hdiv | hdiv
    · rw [← hdiv, List.getElem?_eq_getElem hlt]
      simp only [if_true, Option.map_eq_map, Option.map_some, Option.getD_some]
      rcases eq_or_ne (page % 64) (q % 64) with heq | hne
      · have hq : q = page := by omega
        rw [if_pos hq, ← heq]
        cases watched with
        | false => exact Bits.getLsbD_clear_self
        | true => exact Bits.getLsbD_set_self hmod
      · have hq : q ≠ page := by
          rintro rfl
          exact hne rfl
        rw [if_neg hq]
        cases watched with
        | false => exact Bits.getLsbD_clear_ne hne
        | true => exact Bits.getLsbD_set_ne hne
    · have hq : q ≠ page := by
        rintro rfl
        exact hdiv rfl
      rw [if_neg hq]
      simp only [if_neg hdiv, id_map']

/-! ## Counts -/

variable {s : JitState}

/-- The counts, the bitmap and the calls of a state agree. -/
structure Tracks (s : JitState) (c : Nat → Nat) : Prop where
  count : ∀ p, (s.pageCount p).toNat = c p
  bit : ∀ p, watchedBit s.watched p = decide (c p ≠ 0)
  calls : Accounted s.calls c

theorem toNat_bne_zero (x : BitVec 16) : (x != 0) = decide (x.toNat ≠ 0) := by
  rw [Bool.eq_iff_iff, bne_iff_ne, decide_eq_true_eq, Ne, Ne, ← BitVec.toNat_inj]
  rfl

theorem Tracks.irPageWatched (h : s.Tracks c) (p : Nat) : s.irPageWatched p = decide (c p ≠ 0) := by
  rw [JitState.irPageWatched, toNat_bne_zero, h.count p]

@[simp] theorem irPageCount_freeList (s : JitState) (page : Nat) (delta : Int) :
    (s.irPageCount page delta).freeList = s.freeList := by
  unfold irPageCount
  dsimp only
  split <;> rfl

@[simp] theorem irPageCount_irSlots (s : JitState) (page : Nat) (delta : Int) :
    (s.irPageCount page delta).irSlots = s.irSlots := by
  unfold irPageCount
  dsimp only
  split <;> rfl

@[simp] theorem irPageCount_hasCode (s : JitState) (page : Nat) (delta : Int) :
    (s.irPageCount page delta).hasCode = s.hasCode := by
  unfold irPageCount
  dsimp only
  split <;> rfl

/-- The count of a page changes to a sum that is neither clamped nor cut. -/
theorem Tracks.count_irPageCount (h : s.Tracks c) {delta : Int} (hsum : (c p : Int) + delta = n)
    (hlt : n < 2 ^ 16) :
    (∀ q, ((s.irPageCount p delta).pageCount q).toNat = Function.update c p n q) ∧
      (∀ q, watchedBit (s.irPageCount p delta).watched q = decide (Function.update c p n q ≠ 0)) ∧
      (s.irPageCount p delta).calls =
        (if decide (c p ≠ 0) = decide (n ≠ 0) then [] else if n ≠ 0 then [.claim p]
          else [.release p]) ++ .counted p n :: s.calls := by
  have hsum' : ((s.pageCount p).toNat : Int) + delta = n := by rw [h.count p, hsum]
  have hcount : (BitVec.ofInt 16 (max ((s.pageCount p).toNat + delta) 0)).toNat = n := by
    rw [hsum', Int.max_eq_left (Int.natCast_nonneg n), BitVec.ofInt_natCast, BitVec.toNat_ofNat,
      Nat.mod_eq_of_lt hlt]
  have hafter := toNat_bne_zero (BitVec.ofInt 16 (max ((s.pageCount p).toNat + delta) 0))
  have hbefore := toNat_bne_zero (s.pageCount p)
  rw [hcount] at hafter
  rw [h.count p] at hbefore
  refine ⟨fun q => ?_, fun q => ?_, ?_⟩
  · have hlength := lt_length_grow s.irPageCounts p 0
    have hpage : (s.irPageCount p delta).pageCount q = if q = p then
        BitVec.ofInt 16 (max ((s.pageCount p).toNat + delta) 0) else s.pageCount q := by
      have hcounts : (s.irPageCount p delta).irPageCounts = (grow s.irPageCounts (p + 1) 0).set p
          (BitVec.ofInt 16 (max ((s.pageCount p).toNat + delta) 0)) := by
        unfold JitState.irPageCount
        dsimp only
        split <;> rfl
      rw [pageCount, hcounts, getD_eq_getElem?_getD, List.getElem?_set]
      rcases eq_or_ne q p with rfl | hne
      · rw [if_pos rfl, if_pos rfl, if_pos hlength]
        rfl
      · rw [if_neg hne.symm, if_neg hne, ← getD_eq_getElem?_getD, getD_grow, pageCount]
    rw [hpage, update_apply]
    split
    · exact hcount
    · exact h.count q
  · have hwatched : (s.irPageCount p delta).watched =
        setWatched s.watched p (decide (n ≠ 0)) := by
      unfold JitState.irPageCount
      dsimp only
      rw [hafter]
      split <;> rfl
    rw [hwatched, watchedBit_setWatched, update_apply]
    split
    · rfl
    · exact h.bit q
  · unfold JitState.irPageCount
    dsimp only
    rw [hafter, hbefore, hsum']
    rcases eq_or_ne (decide (c p ≠ 0)) (decide (n ≠ 0)) with heq | hne
    · rw [if_neg (not_not.2 heq), if_pos heq]
      rfl
    · rw [if_pos hne, if_neg hne]
      rcases eq_or_ne n 0 with hn | hn
      · rw [if_neg (by simpa using hn), if_neg (by simpa using hn)]
        rfl
      · rw [if_pos (by simpa using hn), if_pos hn]
        rfl

theorem Tracks.up (h : s.Tracks c) (hlt : c p + 1 < 2 ^ 16) :
    (s.irPageCount p 1).Tracks (Function.update c p (c p + 1)) := by
  have hsum : (c p : Int) + 1 = (c p + 1 : Nat) := rfl
  obtain ⟨hcount, hbit, hcalls⟩ := h.count_irPageCount hsum hlt
  refine ⟨hcount, hbit, ?_⟩
  rw [hcalls]
  rcases eq_or_ne (c p) 0 with hzero | hne
  · rw [hzero]
    exact h.calls.first hzero
  · have heq : decide (c p ≠ 0) = decide (c p + 1 ≠ 0) := by simp [hne]
    rw [if_pos heq]
    exact h.calls.another hne hlt

theorem Tracks.down (h : s.Tracks c) (hpos : 0 < c p) :
    (s.irPageCount p (-1)).Tracks (Function.update c p (c p - 1)) := by
  have hlt : c p < 2 ^ 16 := h.calls.lt
  have hsum : (c p : Int) + -1 = (c p - 1 : Nat) := by omega
  obtain ⟨hcount, hbit, hcalls⟩ := h.count_irPageCount hsum (by omega)
  refine ⟨hcount, hbit, ?_⟩
  rw [hcalls]
  rcases eq_or_ne (c p) 1 with hone | hne
  · rw [hone]
    exact h.calls.last hone
  · have hleft : c p - 1 ≠ 0 := by omega
    have hmore : c p ≠ 0 := by omega
    have heq : decide (c p ≠ 0) = decide (c p - 1 ≠ 0) := by simp [hmore, hleft]
    rw [if_pos heq]
    have hfewer := h.calls.fewer (p := p) (by omega)
    have hcast : ((c p - 1 : Nat) : Int) = (c p : Int) - 1 := by omega
    rw [hcast]
    exact hfewer

/-- Pages are counted once for each time that they occur. -/
theorem Tracks.counted_up (h : s.Tracks c) (pages : List Nat)
    (hlt : ∀ p ∈ pages, c p + pages.count p < 2 ^ 16) :
    (s.irPageCounted pages 1).Tracks fun p => c p + pages.count p := by
  induction pages generalizing s c with
  | nil => exact h
  | cons page pages ih =>
    have hcount : ∀ p, Function.update c page (c page + 1) p + pages.count p =
        c p + (page :: pages).count p := by
      intro p
      rw [update_apply, count_cons]
      rcases eq_or_ne p page with rfl | hne
      · rw [if_pos rfl, beq_self_eq_true, if_pos rfl, Nat.add_right_comm, Nat.add_assoc]
      · rw [if_neg hne, beq_eq_false_iff_ne.2 hne.symm]
        rfl
    have hpage := hlt page mem_cons_self
    rw [count_cons_self] at hpage
    have hup : c page + 1 < 2 ^ 16 := by omega
    have hrest := ih (h.up hup) fun p hp => by
      rw [hcount]
      exact hlt p (mem_cons_of_mem _ hp)
    rw [funext hcount] at hrest
    exact hrest

theorem Tracks.counted_down (h : s.Tracks c) (pages : List Nat) (hle : ∀ p, pages.count p ≤ c p) :
    (s.irPageCounted pages (-1)).Tracks fun p => c p - pages.count p := by
  induction pages generalizing s c with
  | nil => exact h
  | cons page pages ih =>
    have hcount : ∀ p, Function.update c page (c page - 1) p - pages.count p =
        c p - (page :: pages).count p := by
      intro p
      rw [update_apply, count_cons]
      rcases eq_or_ne p page with rfl | hne
      · rw [if_pos rfl, beq_self_eq_true, if_pos rfl, Nat.sub_sub, Nat.add_comm]
      · rw [if_neg hne, beq_eq_false_iff_ne.2 hne.symm]
        rfl
    have hpage := hle page
    rw [count_cons_self] at hpage
    have hdown : 0 < c page := by omega
    have hrest := ih (h.down hdown) fun p => by
      have hp := hle p
      rw [update_apply]
      rw [count_cons] at hp
      split
      case isTrue heq =>
        subst heq
        omega
      · omega
    rw [funext hcount] at hrest
    exact hrest

@[simp] theorem irPageCounted_freeList (s : JitState) (pages : List Nat) (delta : Int) :
    (s.irPageCounted pages delta).freeList = s.freeList := by
  induction pages generalizing s with
  | nil => rfl
  | cons page pages ih => exact (ih _).trans (irPageCount_freeList s page delta)

@[simp] theorem irPageCounted_irSlots (s : JitState) (pages : List Nat) (delta : Int) :
    (s.irPageCounted pages delta).irSlots = s.irSlots := by
  induction pages generalizing s with
  | nil => rfl
  | cons page pages ih => exact (ih _).trans (irPageCount_irSlots s page delta)

@[simp] theorem irPageCounted_hasCode (s : JitState) (pages : List Nat) (delta : Int) :
    (s.irPageCounted pages delta).hasCode = s.hasCode := by
  induction pages generalizing s with
  | nil => rfl
  | cons page pages ih => exact (ih _).trans (irPageCount_hasCode s page delta)

@[simp] theorem tlbSetHasCode_freeList (s : JitState) (pages : List Nat) (hasCode : Nat → Bool) :
    (s.tlbSetHasCode pages hasCode).freeList = s.freeList := rfl

/-! ## Slots -/

/-- How many slots watch a page. -/
def watching (slots : List Slot) (page : Nat) : Nat :=
  slots.countP fun slot => page ∈ slot.pages.1

/-- What the state is in between operations: each index of the table is free or has a slot, and
everything else follows from the slots. -/
structure Exact (s : JitState) : Prop where
  table : (s.freeList ++ s.irSlots.map (·.index)).Perm (List.range' 1 (wasmTableSize - 1))
  tracks : s.Tracks (watching s.irSlots)
  hasCode : ∀ p, (s.hasCode p).getD false = decide (watching s.irSlots p ≠ 0)

theorem Exact.length_le (h : s.Exact) : s.irSlots.length < wasmTableSize := by
  have hlength := h.table.length_eq
  rw [length_append, length_map, length_range'] at hlength
  unfold wasmTableSize at *
  omega

theorem Exact.nodup (h : s.Exact) : (s.freeList ++ s.irSlots.map (·.index)).Nodup :=
  h.table.nodup_iff.2 nodup_range'

variable {slots : List Slot} {pages : List Nat}

theorem watching_eq_zero : watching slots page = 0 ↔ ∀ slot ∈ slots, page ∉ slot.pages.1 := by
  rw [watching, countP_eq_zero]
  simp only [decide_eq_true_eq]

theorem watching_cons (slot : Slot) (slots : List Slot) (page : Nat) :
    watching (slot :: slots) page = watching slots page + if page ∈ slot.pages.1 then 1 else 0 := by
  rw [watching, countP_cons]
  simp only [decide_eq_true_eq]
  rfl

/-- The pages of slots, each as often as a slot has it. -/
theorem count_pages (slots : List Slot) (page : Nat) :
    (slots.flatMap (·.pages.1)).count page = watching slots page := by
  induction slots with
  | nil => rfl
  | cons slot slots ih =>
    rw [flatMap_cons, List.count_append, ih, watching_cons, Nat.add_comm]
    split
    case isTrue hmem => rw [count_eq_one_of_mem slot.pages.2 hmem]
    case isFalse hnot => rw [count_eq_zero_of_not_mem hnot]

theorem watching_append (slots slots' : List Slot) (page : Nat) :
    watching (slots ++ slots') page = watching slots page + watching slots' page :=
  countP_append

theorem exact_initial : Exact initial where
  table := by rw [initial, map_nil, append_nil]
  tracks := ⟨fun _ => rfl, fun _ => rfl, .start⟩
  hasCode _ := rfl

/-! ## Reserving -/

theorem Exact.reserve (h : s.Exact) (id : Nat) (pages : PageSet) :
    (s.irReserveSlot id pages).1.Exact := by
  unfold irReserveSlot
  split
  case h_1 => exact h
  case h_2 index hlast =>
    have hfree : s.freeList = s.freeList.dropLast ++ [index] := by
      rw [List.getLast?_eq_some_iff] at hlast
      obtain ⟨l, hl⟩ := hlast
      rw [hl, dropLast_concat]
    have hindex : index ∉ s.irSlots.map (·.index) := by
      have hnodup := h.nodup
      rw [hfree, nodup_append] at hnodup
      exact fun hmem => hnodup.2.2 index (by simp) index hmem rfl
    have hnew : insertSlot s.irSlots ⟨index, id, pages⟩ = s.irSlots ++ [⟨index, id, pages⟩] := by
      rw [insertSlot, List.filter_eq_self.2]
      intro slot hslot
      rw [decide_eq_true_eq]
      exact fun heq => hindex (List.mem_map.2 ⟨slot, hslot, heq⟩)
    have hcount : ∀ p, watching s.irSlots p + pages.1.count p =
        watching (s.irSlots ++ [⟨index, id, pages⟩]) p := by
      intro p
      rw [watching_append, ← count_pages [_], flatMap_singleton]
    have hpopped : ({ s with freeList := s.freeList.dropLast } : JitState).Tracks
        (watching s.irSlots) := ⟨h.tracks.count, h.tracks.bit, h.tracks.calls⟩
    have htracks := hpopped.counted_up pages.1 fun p _ => by
      have hle : watching s.irSlots p ≤ s.irSlots.length := countP_le_length
      have hone := List.nodup_iff_count_le_one.1 pages.2 p
      have hlength := h.length_le
      unfold wasmTableSize at hlength
      omega
    rw [funext hcount] at htracks
    dsimp only
    have hfree₁ := irPageCounted_freeList { s with freeList := s.freeList.dropLast } pages.1 1
    have hslots₁ := irPageCounted_irSlots { s with freeList := s.freeList.dropLast } pages.1 1
    have hcode₁ := irPageCounted_hasCode { s with freeList := s.freeList.dropLast } pages.1 1
    generalize ({ s with freeList := s.freeList.dropLast } : JitState).irPageCounted pages.1 1 = s₁
      at htracks hfree₁ hslots₁ hcode₁ ⊢
    dsimp only at hfree₁ hslots₁ hcode₁
    rw [hslots₁, hnew]
    refine ⟨?_, ⟨htracks.count, htracks.bit, htracks.calls⟩, fun p => ?_⟩
    · show (s₁.freeList ++ (s.irSlots ++ [Slot.mk index id pages]).map fun slot => slot.index).Perm _
      rw [hfree₁, map_append, map_singleton]
      refine List.Perm.trans ?_ h.table
      conv => rhs; rw [hfree]
      rw [append_assoc]
      exact List.perm_append_comm.append_left _
    · show (if p ∈ pages.1 then some true else s₁.hasCode p).getD false = _
      show _ = decide (watching (s.irSlots ++ [_]) p ≠ 0)
      rw [← hcount, hcode₁]
      split
      case isTrue hmem =>
        have hpos := List.count_pos_iff.2 hmem
        symm
        rw [Option.getD_some, decide_eq_true_eq]
        omega
      case isFalse hnot =>
        rw [count_eq_zero_of_not_mem hnot, Nat.add_zero]
        exact h.hasCode p

/-! ## Releasing -/

theorem perm_cons_filter {slot : Slot} (hnodup : (slots.map (·.index)).Nodup)
    (hslot : slot ∈ slots) : (slot :: slots.filter (·.index ≠ slot.index)).Perm slots := by
  induction slots with
  | nil => exact absurd hslot not_mem_nil
  | cons first slots ih =>
    rw [map_cons, nodup_cons] at hnodup
    rcases List.mem_cons.1 hslot with rfl | hmem
    · have hrest : slots.filter (fun other => other.index ≠ slot.index) = slots := by
        rw [filter_eq_self]
        intro other hother
        rw [decide_eq_true_eq]
        exact fun heq => hnodup.1 (List.mem_map.2 ⟨other, hother, heq⟩)
      rw [filter_cons_of_neg (by simp), hrest]
    · have hne : first.index ≠ slot.index := fun heq =>
        hnodup.1 (List.mem_map.2 ⟨slot, hmem, heq.symm⟩)
      rw [filter_cons_of_pos (by simpa using hne)]
      exact (List.Perm.swap _ _ _).trans ((ih hnodup.2 hmem).cons _)

/-- Slots lose pages, or go: the counts and flags of the pages follow. -/
theorem Exact.unwatched (h : s.Exact) {freeList : List Nat}
    (htable : (freeList ++ slots.map (·.index)).Perm (List.range' 1 (wasmTableSize - 1)))
    (hwatching : ∀ p, watching s.irSlots p = watching slots p + pages.count p) {s₁ : JitState}
    (hs₁ : ({ s with irSlots := slots } : JitState).irPageCounted pages (-1) = s₁) :
    Exact { s₁.tlbSetHasCode pages s₁.irPageWatched with freeList } := by
  have hremoved : ({ s with irSlots := slots } : JitState).Tracks (watching s.irSlots) :=
    ⟨h.tracks.count, h.tracks.bit, h.tracks.calls⟩
  have htracks := hremoved.counted_down pages fun p => by
    rw [hwatching]
    exact Nat.le_add_left _ _
  have hleft : (fun p => watching s.irSlots p - pages.count p) = watching slots := by
    funext p
    rw [hwatching, Nat.add_sub_cancel]
  have hslots₁ := irPageCounted_irSlots { s with irSlots := slots } pages (-1)
  have hcode₁ := irPageCounted_hasCode { s with irSlots := slots } pages (-1)
  rw [hleft, hs₁] at htracks
  rw [hs₁] at hslots₁ hcode₁
  dsimp only at hslots₁ hcode₁
  refine ⟨?_, ?_, fun p => ?_⟩
  · show (freeList ++ s₁.irSlots.map fun slot => slot.index).Perm _
    rw [hslots₁]
    exact htable
  · show Tracks _ (watching s₁.irSlots)
    rw [hslots₁]
    exact ⟨htracks.count, htracks.bit, htracks.calls⟩
  · show (if p ∈ pages then some (s₁.irPageWatched p) else s₁.hasCode p).getD false =
      decide (watching s₁.irSlots p ≠ 0)
    rw [htracks.irPageWatched, hslots₁, hcode₁]
    split
    · rfl
    case isFalse hnot =>
      have hsame := hwatching p
      rw [count_eq_zero_of_not_mem hnot, Nat.add_zero] at hsame
      rw [← hsame]
      exact h.hasCode p

/-- The pages of slots that go. -/
theorem watching_of_perm {gone left : List Slot} (hperm : (gone ++ left).Perm slots) (page : Nat) :
    watching slots page = watching left page + (gone.flatMap (·.pages.1)).count page := by
  rw [watching, ← hperm.countP_eq, countP_append, count_pages, Nat.add_comm]
  rfl

/-- Only the owner of a slot releases it. -/
theorem irReleaseSlot_stale {index id : Nat}
    (hstale : ∀ slot ∈ s.irSlots, ¬(slot.index = index ∧ slot.id = id)) :
    s.irReleaseSlot index id = (s, false) := by
  unfold irReleaseSlot
  split
  · rfl
  case isFalse hrange =>
    have hmod : index % 2 ^ 16 = index := by
      unfold wasmTableSize at hrange
      omega
    rw [hmod]
    split
    · rfl
    case h_2 slot hfind =>
      have hfound := List.find?_some hfind
      have hindex : slot.index = index := by simpa using hfound
      rw [if_pos fun hid => hstale slot (List.mem_of_find?_eq_some hfind) ⟨hindex, hid⟩]

theorem Exact.release (h : s.Exact) (index id : Nat) : (s.irReleaseSlot index id).1.Exact := by
  unfold irReleaseSlot
  split
  · exact h
  split
  · exact h
  case h_2 slot hfind =>
    split
    · exact h
    dsimp only
    generalize index % 2 ^ 16 = index at hfind
    have hmem := List.mem_of_find?_eq_some hfind
    have hfound := List.find?_some hfind
    have hindex : slot.index = index := by simpa using hfound
    have hperm := perm_cons_filter (List.nodup_append.1 h.nodup).2.1 hmem
    rw [hindex] at hperm
    generalize s.irSlots.filter (·.index ≠ index) = slots at hperm ⊢
    have hwatching : ∀ p, watching s.irSlots p = watching slots p + slot.pages.1.count p := by
      intro p
      have hgone : ([slot] ++ slots).Perm s.irSlots := hperm
      rw [watching_of_perm hgone, flatMap_singleton]
    refine h.unwatched ?_ hwatching rfl
    rw [tlbSetHasCode_freeList, irPageCounted_freeList]
    refine List.Perm.trans ?_ h.table
    rw [append_assoc]
    refine List.Perm.append_left _ ?_
    have hindices := hperm.map fun slot => slot.index
    rwa [map_cons, hindex] at hindices

/-! ## Retiring -/

/-- The slots that depend on a page are drained. -/
def drained (slots : List Slot) (page : Nat) : List Slot :=
  slots.map fun slot => if page ∈ slot.pages.1 then drain slot else slot

theorem map_index_drained (slots : List Slot) (page : Nat) :
    (drained slots page).map (·.index) = slots.map (·.index) := by
  rw [drained, List.map_map]
  refine map_congr_left fun slot _ => ?_
  dsimp only [Function.comp]
  split <;> rfl

theorem watching_drained (slots : List Slot) (page p : Nat) :
    watching slots p = watching (drained slots page) p +
      ((slots.filter (page ∈ ·.pages.1)).flatMap (·.pages.1)).count p := by
  rw [count_pages]
  induction slots with
  | nil => rfl
  | cons slot slots ih =>
    rw [drained, map_cons, ← drained, watching_cons, watching_cons, ih]
    rcases Classical.em (page ∈ slot.pages.1) with hmem | hnot
    · have hnone : p ∉ (drain slot).pages.1 := not_mem_nil
      rw [if_pos hmem, filter_cons_of_pos (by simpa using hmem), watching_cons, if_neg hnone,
        Nat.add_zero, Nat.add_assoc]
    · rw [if_neg hnot, filter_cons_of_neg (by simpa using hnot), Nat.add_right_comm]

theorem Exact.retire (h : s.Exact) (page : Nat) : (s.retirePage page).Exact := by
  unfold retirePage
  split
  · exact h
  dsimp only
  rw [← drained]
  have htable : (s.freeList ++ (drained s.irSlots page).map (·.index)).Perm
      (List.range' 1 (wasmTableSize - 1)) := by
    rw [map_index_drained]
    exact h.table
  have hexact := h.unwatched htable (watching_drained s.irSlots page) rfl
  generalize (s.irSlots.filter (page ∈ ·.pages.1)).flatMap (·.pages.1) = pages at hexact ⊢
  have hfree := irPageCounted_freeList { s with irSlots := drained s.irSlots page } pages (-1)
  dsimp only at hfree
  generalize ({ s with irSlots := drained s.irSlots page } : JitState).irPageCounted pages (-1) = s₁
    at hfree hexact ⊢
  rw [← hfree] at hexact
  exact hexact

/-- Nothing changes where no slot depends on the page. -/
theorem Exact.retirePage_irSlots (h : s.Exact) (page : Nat) :
    (s.retirePage page).irSlots = drained s.irSlots page := by
  unfold retirePage
  split
  case isTrue hnot =>
    rw [h.tracks.irPageWatched, Bool.not_eq_true', decide_eq_false_iff_not, not_not,
      watching_eq_zero] at hnot
    symm
    rw [drained, map_congr_left (g := id), List.map_id]
    exact fun slot hslot => if_neg (hnot slot hslot)
  case isFalse => exact irPageCounted_irSlots _ _ _

theorem Exact.call_written (h : s.Exact) (page : Nat) : (s.call (.written page)).Exact :=
  ⟨h.table, ⟨h.tracks.count, h.tracks.bit, h.tracks.calls.written⟩, h.hasCode⟩

theorem Exact.dirtyPage (h : s.Exact) (page : Nat) : (s.jitDirtyPage page).Exact :=
  (h.call_written page).retire page

theorem Exact.jitDirtyPage_irSlots (h : s.Exact) (page : Nat) :
    (s.jitDirtyPage page).irSlots = drained s.irSlots page :=
  (h.call_written page).retirePage_irSlots page

theorem Exact.dirtyPages (h : s.Exact) (pages : List Nat) : (pages.foldl jitDirtyPage s).Exact ∧
      (pages.foldl jitDirtyPage s).irSlots = pages.foldl drained s.irSlots := by
  induction pages generalizing s with
  | nil => exact ⟨h, rfl⟩
  | cons page pages ih =>
    rw [foldl_cons, foldl_cons, ← h.jitDirtyPage_irSlots]
    exact ih (h.dirtyPage page)

/-! ## Clearing -/

theorem watching_map_drain (slots : List Slot) (page : Nat) : watching (slots.map drain) page = 0 := by
  rw [watching_eq_zero]
  intro slot hslot
  obtain ⟨slot, -, rfl⟩ := List.mem_map.1 hslot
  exact not_mem_nil

theorem Exact.clear (h : s.Exact) : s.jitClearCache.Exact where
  table := by
    show (s.freeList ++ (s.irSlots.map drain).map fun slot => slot.index).Perm _
    rw [List.map_map]
    exact h.table
  tracks := by
    show Tracks _ (watching (s.irSlots.map drain))
    rw [funext (watching_map_drain s.irSlots)]
    exact ⟨fun _ => rfl, fun _ => rfl, h.tracks.calls.cleared⟩
  hasCode p := by
    show (if p ∈ s.irSlots.flatMap (·.pages.1) then some false else s.hasCode p).getD false =
      decide (watching (s.irSlots.map drain) p ≠ 0)
    rw [watching_map_drain]
    split
    · rfl
    case isFalse hnot =>
      rw [h.hasCode, ← count_pages, count_eq_zero_of_not_mem hnot]

theorem Exact.rehash (h : s.Exact) (hperm : slots.Perm s.irSlots) :
    Exact { s with irSlots := slots } := by
  have hwatching : watching slots = watching s.irSlots := funext fun p => hperm.countP_eq _
  refine ⟨((hperm.map _).append_left _).trans h.table, ?_, fun p => ?_⟩
  · show Tracks _ (watching slots)
    rw [hwatching]
    exact ⟨h.tracks.count, h.tracks.bit, h.tracks.calls⟩
  · show _ = decide (watching slots p ≠ 0)
    rw [hwatching]
    exact h.hasCode p

theorem Exact.step (h : s.Exact) (e : Event) : (Jit.step s e).Exact := by
  cases e with
  | reserve id pages => exact h.reserve id pages
  | release index id => exact h.release index id
  | dirtyPage page => exact h.dirtyPage page
  | dirtyCache start stop => exact (h.dirtyPages _).1
  | retirePage page => exact h.retire page
  | clearCache => exact h.clear
  | rehash slots =>
    rw [Jit.step]
    split
    case isTrue hperm => exact h.rehash (List.isPerm_iff.1 hperm)
    · exact h

theorem exact_run (events : List Event) : (run events).Exact := by
  suffices h : ∀ s : JitState, s.Exact → (events.foldl Jit.step s).Exact from h _ exact_initial
  induction events with
  | nil => exact fun s hs => hs
  | cons e events ih => exact fun s hs => ih _ (hs.step e)

/-! ## Written pages -/

/-- Writes to pages drain the slots that depend on any of them, and leave the others alone. -/
structure Retired (s s' : JitState) (pages : List Page) : Prop where
  unwatched : ∀ slot ∈ s'.irSlots, ∀ page ∈ pages, page ∉ slot.pages.1
  drained : ∀ slot ∈ s.irSlots, (∃ page ∈ pages, page ∈ slot.pages.1) →
    ∀ slot' ∈ s'.irSlots, slot'.index = slot.index → slot'.pages.1 = []
  kept : ∀ slot ∈ s.irSlots, (∀ page ∈ pages, page ∉ slot.pages.1) → slot ∈ s'.irSlots

theorem foldl_drained (slots : List Slot) (pages : List Nat) : pages.foldl JitState.drained slots =
      slots.map fun slot => if pages.any (· ∈ slot.pages.1) then drain slot else slot := by
  induction pages generalizing slots with
  | nil => exact (map_id' slots).symm
  | cons page pages ih =>
    rw [foldl_cons, ih, JitState.drained, List.map_map]
    refine map_congr_left fun slot _ => ?_
    rw [Function.comp, any_cons]
    rcases Classical.em (page ∈ slot.pages.1) with hmem | hnot
    · rw [if_pos hmem, decide_eq_true hmem, Bool.true_or, if_pos rfl]
      exact ite_self (drain slot)
    · rw [if_neg hnot, decide_eq_false hnot, Bool.false_or]

theorem Exact.retired (h : s.Exact) {s' : JitState}
    (hs' : s'.irSlots = pages.foldl JitState.drained s.irSlots) : Retired s s' pages := by
  rw [foldl_drained] at hs'
  refine ⟨?_, ?_, ?_⟩
  · intro slot' hslot' page hpage hmem
    rw [hs'] at hslot'
    obtain ⟨slot, -, rfl⟩ := List.mem_map.1 hslot'
    split at hmem
    · exact absurd hmem not_mem_nil
    case isFalse hnot =>
      exact hnot (List.any_eq_true.2 ⟨page, hpage, decide_eq_true hmem⟩)
  · intro slot hslot hpages slot' hslot' hindex
    rw [hs'] at hslot'
    obtain ⟨other, hother, rfl⟩ := List.mem_map.1 hslot'
    have hsame : other = slot := by
      refine inj_on_of_nodup_map (List.nodup_append.1 h.nodup).2.1 hother hslot ?_
      rw [← hindex]
      split <;> rfl
    obtain ⟨page, hpage, hmem⟩ := hpages
    rw [hsame, if_pos (List.any_eq_true.2 ⟨page, hpage, decide_eq_true hmem⟩)]
    rfl
  · intro slot hslot hpages
    rw [hs']
    refine List.mem_map.2 ⟨slot, hslot, if_neg fun hany => ?_⟩
    obtain ⟨page, hpage, hmem⟩ := List.any_eq_true.1 hany
    exact hpages page hpage (of_decide_eq_true hmem)

end JitState

open JitState

/-- The accounts of watched pages are exact after every run. -/
theorem watches_exact (events : List Event) :
    let s := run events
    (s.freeList ++ s.irSlots.map (·.index)).Perm (List.range' 1 (wasmTableSize - 1)) ∧
      (∀ p, (s.pageCount p).toNat = watching s.irSlots p) ∧
      (∀ p sum, .counted p sum ∈ s.calls → 0 ≤ sum ∧ sum < 2 ^ 16) ∧
      (∀ p, watchedBit s.watched p = (s.pageCount p != 0)) ∧
      (Alternate s.calls ∧ Accounted s.calls (fun p => (s.pageCount p).toNat) ∧
        ∀ p, claimed p s.calls = (s.pageCount p != 0)) ∧
      (∀ p, (s.hasCode p).getD false = s.irPageWatched p) ∧
      (∀ page, Retired s (s.jitDirtyPage page) [page] ∧ Retired s (s.retirePage page) [page]) ∧
      (∀ start stop, Retired s (s.jitDirtyCache start stop) (dirtyPages start stop)) ∧
      ∀ index id, (∀ slot ∈ s.irSlots, ¬(slot.index = index ∧ slot.id = id)) →
        s.irReleaseSlot index id = (s, false) := by
  intro s
  have h : s.Exact := exact_run events
  have hcounts : (fun p => (s.pageCount p).toNat) = watching s.irSlots := funext h.tracks.count
  have hbits : ∀ p, (s.pageCount p != 0) = decide (watching s.irSlots p ≠ 0) :=
    h.tracks.irPageWatched
  refine ⟨h.table, h.tracks.count, fun p sum => h.tracks.calls.sum, fun p => ?_,
    ⟨h.tracks.calls.alternate, hcounts ▸ h.tracks.calls, fun p => ?_⟩, fun p => ?_,
    fun page => ⟨h.retired (h.jitDirtyPage_irSlots page), h.retired (h.retirePage_irSlots page)⟩,
    fun start stop => h.retired (h.dirtyPages _).2, fun index id => irReleaseSlot_stale⟩
  · rw [hbits, h.tracks.bit]
  · rw [hbits, h.tracks.calls.claimed]
  · rw [h.tracks.irPageWatched, h.hasCode]

/-- Two slots that depend on the second page, of which one depends on the first one as well. -/
def sharedPage : List Event :=
  [.reserve 1 ⟨[0, 1], by decide⟩, .reserve 2 ⟨[1], by decide⟩]

/-- Writing the first page leaves the other slot, and with it the watch of the second page. -/
theorem shared_page_watched :
    ¬∀ (events : List Event) (page : Page), ∀ slot ∈ (run events).irSlots, page ∈ slot.pages.1 →
      ∀ p ∈ slot.pages.1, ∀ slot' ∈ ((run events).jitDirtyPage page).irSlots,
        p ∉ slot'.pages.1 := by
  intro h
  have hslots : (run sharedPage).irSlots =
      [⟨11999, 1, ⟨[0, 1], by decide⟩⟩, ⟨11998, 2, ⟨[1], by decide⟩⟩] := by
    decide +kernel
  have hdirty := (exact_run sharedPage).jitDirtyPage_irSlots 0
  rw [hslots] at hdirty
  refine h sharedPage 0 ⟨11999, 1, ⟨[0, 1], by decide⟩⟩ (by rw [hslots]; decide) (by decide)
    1 (by decide) ⟨11998, 2, ⟨[1], by decide⟩⟩ ?_ (by decide)
  rw [hdirty]
  decide

end V86.Jit
