import Mathlib.Tactic.Ring
import V86.Bus.Memory

/-!
# Bytes of the low bus

`locate` says what is behind a byte of the bus, where it is memory: reads and writes of one byte are
those of the location (`read8_of_locate`, `write8_of_locate`). `getAll` and `putAll` are accesses to a
run of locations, which the wide accesses of the code are in each kind of memory.
-/

namespace V86.Bus

open Bytes

variable {δ : Type} {m : Layout} {d : Devices δ} {s : Store δ} {a n k : Nat}

/-! ## Locations -/

inductive Location where
  | ram (i : Nat)
  /-- reads as ones, and drops what is written -/
  | hole
  | extended (address : Nat)
  | region (i offset : Nat)
  deriving DecidableEq

namespace Store

def get (s : Store δ) : Location → Byte
  | .ram i => s.ram i
  | .hole => 0xFF
  | .extended address => s.extended address
  | .region i offset => s.regions i offset

def put (s : Store δ) (l : Location) (b : Byte) : Store δ :=
  match l with
  | .ram i => { s with ram := Function.update s.ram i b }
  | .hole => s
  | .extended address => { s with extended := Function.update s.extended address b }
  | .region i offset =>
    { s with
      regions := Function.update s.regions i (Function.update (s.regions i) offset b)
      written := Function.update s.written i fun page =>
        decide (page = offset / pageSize) || s.written i page }

/-- The number in a run of locations. -/
def getAll (s : Store δ) (l : Nat → Location) (n : Nat) : Nat :=
  ofLe ((List.range n).map fun k => s.get (l k))

/-- Store a number in a run of locations, the low byte first. -/
def putAll (s : Store δ) (l : Nat → Location) (value : Nat) : Nat → Store δ
  | 0 => s
  | n + 1 => (s.putAll l value n).put (l n) (byteOf value n)

theorem getAll_succ (s : Store δ) (l : Nat → Location) (n : Nat) :
    s.getAll l (n + 1) = (s.get (l 0)).toNat + 256 * s.getAll (fun k => l (k + 1)) n := by
  rw [getAll, List.range_succ_eq_map, List.map_cons, List.map_map, ofLe]
  rfl

theorem getAll_lt (s : Store δ) (l : Nat → Location) (n : Nat) : s.getAll l n < 256 ^ n := by
  induction n generalizing l with
  | zero => exact Nat.one_pos
  | succ n ih =>
    rw [getAll_succ, Nat.pow_succ]
    have hlt := ih fun k => l (k + 1)
    have hbyte := (s.get (l 0)).toNat_lt
    omega

theorem getAll_add (s : Store δ) (l : Nat → Location) (n k : Nat) :
    s.getAll l (n + k) = s.getAll l n + 256 ^ n * s.getAll (fun i => l (n + i)) k := by
  induction n generalizing l with
  | zero => simp [getAll, ofLe]
  | succ n ih =>
    have hshift : (fun i => l (n + 1 + i)) = fun i => l (n + i + 1) := by
      funext i
      rw [Nat.add_right_comm]
    rw [Nat.add_right_comm, getAll_succ, ih, getAll_succ, hshift, Nat.pow_succ]
    ring

theorem getAll_congr {l l' : Nat → Location} (h : ∀ k < n, l k = l' k) :
    s.getAll l n = s.getAll l' n := by
  refine congrArg ofLe (List.map_congr_left fun k hk => ?_)
  rw [h k (List.mem_range.1 hk)]

theorem putAll_congr {l l' : Nat → Location} (h : ∀ k < n, l k = l' k) (value : Nat) :
    s.putAll l value n = s.putAll l' value n := by
  induction n with
  | zero => rfl
  | succ n ih =>
    rw [putAll, putAll, ih fun k hk => h k (Nat.lt_succ_of_lt hk), h n (Nat.lt_succ_self n)]

end Store

theorem or_shift {x : Nat} {i : Nat} (h : x < 2 ^ i) (y : Nat) : x ||| y <<< i = x + 2 ^ i * y := by
  rw [Nat.or_comm, Nat.shiftLeft_eq, Nat.mul_comm, ← Nat.two_pow_add_eq_or_of_lt h, Nat.add_comm]

theorem putWord_succ (memory : Nat → Byte) (n a value : Nat) : putWord memory (n + 1) a value =
      Function.update (putWord memory n a value) (a + n) (byteOf value n) := by
  funext i
  rw [putWord, Function.update_apply, putWord]
  by_cases hi : i = a + n
  · rw [if_pos (by omega), if_pos hi, hi, Nat.add_sub_cancel_left]
  · rw [if_neg hi]
    by_cases hin : a ≤ i ∧ i < a + n
    · rw [if_pos hin, if_pos (by omega)]
    · rw [if_neg hin, if_neg (by omega)]

theorem putWord_zero (memory : Nat → Byte) (a value : Nat) : putWord memory 0 a value = memory := by
  funext i
  rw [putWord, if_neg (by omega)]

/-! ## Runs in one memory -/

theorem load_run (n a : Nat) (s : Store δ) :
    load n a s = (s.getAll (fun k => .ram (a + k)) n, s) := rfl

theorem extendedRead_run (n a : Nat) (s : Store δ) :
    extendedRead a n s = (s.getAll (fun k => .extended (a + k)) n, s) := rfl

theorem readHost_run (n i offset : Nat) (s : Store δ) :
    readHost n (i, offset) s = (s.getAll (fun k => .region i (offset + k)) n, s) := rfl

theorem store_run (n a value : Nat) (s : Store δ) :
    store n a value s = ((), s.putAll (fun k => .ram (a + k)) value n) := by
  induction n with
  | zero =>
    change ((), { s with ram := putWord s.ram 0 a value }) = _
    rw [putWord_zero]
    rfl
  | succ n ih =>
    have hrun : { s with ram := putWord s.ram n a value } =
        s.putAll (fun k => .ram (a + k)) value n := congrArg Prod.snd ih
    change ((), { s with ram := putWord s.ram (n + 1) a value }) = _
    rw [putWord_succ, Store.putAll, ← hrun]
    rfl

theorem extendedWrite_run (n a value : Nat) (s : Store δ) :
    extendedWrite a n value s = ((), s.putAll (fun k => .extended (a + k)) value n) := by
  induction n with
  | zero =>
    change ((), { s with extended := putWord s.extended 0 a value }) = _
    rw [putWord_zero]
    rfl
  | succ n ih =>
    have hrun : { s with extended := putWord s.extended n a value } =
        s.putAll (fun k => .extended (a + k)) value n := congrArg Prod.snd ih
    change ((), { s with extended := putWord s.extended (n + 1) a value }) = _
    rw [putWord_succ, Store.putAll, ← hrun]
    rfl

theorem writeHost_snd (n i offset value : Nat) (s : Store δ) :
    (writeHost n (i, offset) value s).2 =
      { s with
        regions := Function.update s.regions i (putWord (s.regions i) n offset value)
        written := Function.update s.written i fun page =>
          decide (offset / pageSize ≤ page ∧ page ≤ (offset + max n 1 - 1) / pageSize) ||
            s.written i page } := rfl

/-- The pages of the bytes are those that are marked for all of them. -/
theorem writeHost_run (hn : 0 < n) (i offset value : Nat) (s : Store δ) :
    writeHost n (i, offset) value s = ((), s.putAll (fun k => .region i (offset + k)) value n) := by
  induction n with
  | zero => cases hn
  | succ n ih =>
    have hpages (written : Nat → Bool) : (fun page => decide (offset / pageSize ≤ page ∧
          page ≤ (offset + max (n + 1) 1 - 1) / pageSize) || written page) =
        fun page => decide (page = (offset + n) / pageSize) ||
          if 0 < n then decide (offset / pageSize ≤ page ∧
            page ≤ (offset + max n 1 - 1) / pageSize) || written page
          else written page := by
      funext page
      rw [pageSize]
      split
      · rw [← Bool.or_assoc, ← Bool.decide_or]
        congr 2
        exact propext (by omega)
      · congr 2
        exact propext (by omega)
    change ((), ({ s with
      regions := Function.update s.regions i (putWord (s.regions i) (n + 1) offset value)
      written := Function.update s.written i _ } : Store δ)) = _
    rw [hpages, Store.putAll, putWord_succ]
    by_cases hzero : 0 < n
    · have hrun : s.putAll (fun k => .region i (offset + k)) value n =
          (writeHost n (i, offset) value s).2 := (congrArg Prod.snd (ih hzero)).symm
      simp only [if_pos hzero]
      rw [hrun, writeHost_snd]
      simp only [Store.put, Function.update_self, Function.update_idem]
    · have hn : n = 0 := by omega
      subst hn
      rw [putWord_zero]
      rfl

/-! ## The location of a byte -/

/-- What is behind an address, where it is memory. -/
def Layout.locate (m : Layout) (a : Nat) : Option Location :=
  if !m.inMappedRange a then some (.ram a)
  else
    match m.smramRam a 1 false with
    | some ram => some (.ram ram)
    | none =>
      if m.lowRamHole a then some .hole
      else if apertureContains a then
        some (if m.longMode then ((m.apertureGuest a).map .extended).getD .hole else .hole)
      else (m.find a 1).map fun host => .region host.1 host.2

theorem getAll_one (s : Store δ) (l : Location) : s.getAll (fun _ => l) 1 = (s.get l).toNat := by
  rw [Store.getAll_succ]
  rfl

theorem read8_of_locate {l : Location} (h : m.locate a = some l) (s : Store δ) :
    m.read8 d a s = ((s.get l).toNat, s) := by
  rw [Layout.locate] at h
  rw [Layout.read8]
  cases hmapped : m.inMappedRange a with
  | false =>
    rw [hmapped] at h
    cases h
    exact (load_run 1 a s).trans (congrArg (·, s) (getAll_one s _))
  | true =>
    rw [hmapped] at h
    simp only [Bool.not_true, Bool.false_eq_true, if_false] at h
    rw [if_pos rfl, Layout.read8Mapped]
    split at h
    · next ram hram =>
      cases h
      rw [hram]
      exact (load_run 1 ram s).trans (congrArg (·, s) (getAll_one s _))
    · next hram =>
      rw [hram]
      dsimp only
      split at h
      · next hhole =>
        cases h
        rw [if_pos hhole]
        rfl
      · next hhole =>
        rw [if_neg hhole]
        split at h
        · next haperture =>
          rw [if_pos haperture, Layout.apertureRead8]
          cases h
          split
          · cases m.apertureGuest a with
            | none => rfl
            | some guest =>
              exact (extendedRead_run 1 guest s).trans (congrArg (·, s) (getAll_one s _))
          · rfl
        · next haperture =>
          rw [if_neg haperture]
          obtain ⟨host, hfind, hl⟩ := Option.map_eq_some_iff.1 h
          subst hl
          rw [hfind]
          exact (readHost_run 1 host.1 host.2 s).trans (congrArg (·, s) (getAll_one s _))

theorem byteOf_zero (value : Nat) : byteOf value 0 = UInt8.ofNat value := by
  rw [byteOf, Nat.pow_zero, Nat.div_one]

theorem byteOf_shift (value n : Nat) :
    UInt8.ofNat (value >>> (n * 8) % 256) = byteOf value n := by
  rw [byteOf, ← UInt8.toNat_inj, UInt8.toNat_ofNat', UInt8.toNat_ofNat', Nat.mod_mod,
    Nat.shiftRight_eq_div_pow, Nat.mul_comm n 8, Nat.pow_mul]

theorem write8_of_locate {l : Location} (h : m.locate a = some l) (value : Nat) (s : Store δ) :
    m.write8 d a value s = ((), s.put l (UInt8.ofNat value)) := by
  have hmod : UInt8.ofNat (value % 256) = UInt8.ofNat value := by
    rw [← UInt8.toNat_inj, UInt8.toNat_ofNat', UInt8.toNat_ofNat', Nat.mod_mod]
  rw [Layout.locate] at h
  rw [Layout.write8]
  cases hmapped : m.inMappedRange a with
  | false =>
    rw [hmapped] at h
    cases h
    rw [← byteOf_zero]
    exact store_run 1 a value s
  | true =>
    rw [hmapped] at h
    simp only [Bool.not_true, Bool.false_eq_true, if_false] at h
    rw [if_pos rfl, Layout.mmapWrite8, ← hmod, ← byteOf_zero]
    split at h
    · next ram hram =>
      cases h
      rw [hram]
      exact store_run 1 ram _ s
    · next hram =>
      rw [hram]
      dsimp only
      split at h
      · next hhole =>
        cases h
        rw [if_pos hhole]
        rfl
      · next hhole =>
        rw [if_neg hhole]
        split at h
        · next haperture =>
          rw [if_pos haperture, Layout.apertureWrite8]
          cases h
          split
          · cases m.apertureGuest a with
            | none => rfl
            | some guest => exact extendedWrite_run 1 guest _ s
          · rfl
        · next haperture =>
          rw [if_neg haperture]
          obtain ⟨host, hfind, hl⟩ := Option.map_eq_some_iff.1 h
          subst hl
          rw [hfind]
          exact writeHost_run Nat.one_pos host.1 host.2 _ s

/-! ## Accesses byte by byte -/

/-- Reads of some consecutive bytes, as a number. -/
def Layout.readEach (m : Layout) (d : Devices δ) : Nat → Nat → Access δ Nat
  | 0, _ => pure 0
  | n + 1, a => do
    let b ← m.read8 d (wrap a)
    let rest ← m.readEach d n (a + 1)
    return b + 256 * rest

theorem readEach_of_locate {l : Nat → Location}
    (h : ∀ k < n, m.locate (wrap (a + k)) = some (l k)) (s : Store δ) :
    m.readEach d n a s = (s.getAll l n, s) := by
  induction n generalizing a l with
  | zero => rfl
  | succ n ih =>
    have hfirst := read8_of_locate (d := d) (h 0 (Nat.succ_pos n)) s
    have hrest := ih (a := a + 1) (l := fun k => l (k + 1)) fun k hk => by
      rw [Nat.add_right_comm, Nat.add_assoc]
      exact h (k + 1) (Nat.succ_lt_succ hk)
    rw [Nat.add_zero] at hfirst
    rw [Store.getAll_succ]
    change (do
      let b ← m.read8 d (wrap a)
      let rest ← m.readEach d n (a + 1)
      return b + 256 * rest : Access δ Nat) s = _
    simp only [bind, StateT.bind, hfirst, hrest]
    rfl

theorem writeEach_append (a value : Nat) (xs ys : List Nat) (s : Store δ) :
    m.writeEach d a (xs ++ ys) value s =
      m.writeEach d a ys value (m.writeEach d a xs value s).2 := by
  induction xs generalizing s with
  | nil => rfl
  | cons x xs ih => exact ih _

theorem writeEach_of_locate {l : Nat → Location}
    (h : ∀ k < n, m.locate (wrap (a + k)) = some (l k)) (value : Nat) (s : Store δ) :
    m.writeEach d a (List.range n) value s = ((), s.putAll l value n) := by
  induction n with
  | zero => rfl
  | succ n ih =>
    have hlast := write8_of_locate (d := d) (h n (Nat.lt_succ_self n))
      (value >>> (n * 8) % 256) (s.putAll l value n)
    rw [byteOf_shift] at hlast
    rw [List.range_succ, writeEach_append, ih fun k hk => h k (Nat.lt_succ_of_lt hk), Store.putAll,
      ← hlast]
    rfl

end V86.Bus
