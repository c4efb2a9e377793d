import V86.Ir.Frontend.IntegerCorrect

/-!
# Shifts and rotates compute what the interpreter does

What each part of `calculate` builds, in terms of the outcomes of `Cpu/ArithShifts`. With a count of
zero nothing that was computed is selected, so what a part leaves is stated for other counts only.
-/

namespace V86.Ir

open BitVec hiding and_self

open Arith (Backing Outcome writeBit parity opWidths rotateOutcome shiftOutcome effective)

namespace Build

variable {E : Executed} {s : Site} {a b c : Nat} {w : Nat} {x y : BitVec w} {p q : Bool}

/-! ## Operands and counts -/

theorem eq_i32_of_int (hw : w ∈ intWidths) (h : Ty.int w = .i32) (ha : E.Is a x) :
    E.Is a (x.setWidth 32) ∧ E.Is a (x.signExtend 32) := by
  obtain rfl := eq_of_int_eq hw h
  exact ⟨by rwa [setWidth_eq], by rwa [signExtend_eq]⟩

theorem wide_spec (ha : E.Is a x) (has : a < s.size) :
    Yields E (wide a false) s (x.setWidth 32) := by
  refine (sat_ty has).bind fun ty s' _ ⟨ht, hs'⟩ => ?_
  subst hs'
  rw [ht, ha.ty]
  split
  case isTrue h => exact sat_pure ⟨(eq_i32_of_int ha.width h ha).1, has⟩
  case isFalse => exact extend_spec 32 ha (by decide) (by omega)

theorem wideSigned_spec (ha : E.Is a x) (has : a < s.size) :
    Yields E (wide a true) s (x.signExtend 32) := by
  refine (sat_ty has).bind fun ty s' _ ⟨ht, hs'⟩ => ?_
  subst hs'
  rw [ht, ha.ty]
  split
  case isTrue h => exact sat_pure ⟨(eq_i32_of_int ha.width h ha).2, has⟩
  case isFalse => exact signExtend_spec 32 ha (by decide) (by omega)

theorem withConstant_spec (op : Binary) {x : BitVec 32} (c : BitVec 32) (ha : E.Is a x)
    (hop : op.comparison = false) (has : a < s.size) :
    Yields E (withConstant op a c) s (op.apply x c) :=
  (const32_spec c).bind fun (v : Nat) _ _ ⟨hv, _⟩ => binary_spec ha hv hop (by omega) (by omega)

theorem fromConstant_spec (op : Binary) {x : BitVec 32} (c : BitVec 32) (ha : E.Is a x)
    (hop : op.comparison = false) (has : a < s.size) :
    Yields E (fromConstant c op a) s (op.apply c x) :=
  (const32_spec c).bind fun (v : Nat) _ _ ⟨hv, _⟩ => binary_spec hv ha hop (by omega) (by omega)

theorem belowConstant_spec {x : BitVec 32} (c : BitVec 32) (ha : E.Is a x) (has : a < s.size) :
    Yields E (fromConstant c .ult a) s (BitVec.ofBool (c.ult x)) :=
  (const32_spec c).bind fun (v : Nat) _ _ ⟨hv, _⟩ => test_spec hv ha rfl (by omega) (by omega)

theorem combine_spec {x y m n : BitVec 32} {l r : Nat} (ha : E.Is a x) (hl : E.Is l m)
    (hc : E.Is c y) (hr : E.Is r n) (has : a < s.size) (hls : l < s.size)
    (hcs : c < s.size) (hrs : r < s.size) :
    Yields E (combine a l c r) s (x <<< shiftCount 32 m ||| y >>> shiftCount 32 n) := by
  refine (binary_spec ha hl rfl (by omega) (by omega)).bind fun (u : Nat) s₁ g₁ ⟨hu, fu⟩ => ?_
  refine (binary_spec hc hr rfl (by omega) (by omega)).bind fun (v : Nat) s₂ g₂ ⟨hv, fv⟩ => ?_
  exact binary_spec hu hv rfl (by omega) (by omega)

/-- The count that is left of a width. -/
theorem shiftCount_sub {m k : Nat} (hk : k ≤ m) (hm : m - k < 32) (hlt : m < 2 ^ 32) :
    shiftCount 32 (BitVec.ofNat 32 m - BitVec.ofNat 32 k) = m - k := by
  rw [shiftCount, if_neg (by decide), toNat_sub, toNat_ofNat, toNat_ofNat]
  omega

/-- The remainder by 9 or 17, without a division. -/
theorem modulo_spec {k m : Nat} (hk : k < 32) (hm : m = 9 ∨ m = 17) (ha : E.Is a (BitVec.ofNat 32 k))
    (has : a < s.size) : Yields E (modulo a m) s (BitVec.ofNat 32 (k % m)) := by
  -- each round takes the modulus off once, unless the number is below it
  have hround : ∀ (rounds : List Nat) (r : Nat) (v : Nat) (s' : Site), s.size ≤ s'.size → r < 32 →
      r < (rounds.length + 1) * m → E.Is v (BitVec.ofNat 32 r) → v < s'.size →
      Yields E (rounds.foldlM (fun n _ => do
        let c ← number (BitVec.ofNat 32 m)
        let less ← binary .ult n c
        let sub ← binary .sub n c
        select less n sub) v) s' (BitVec.ofNat 32 (r % m)) := by
    intro rounds
    induction rounds with
    | nil =>
      intro r v s' g hr hlt hv fv
      rw [Nat.mod_eq_of_lt (by simpa using hlt)]
      exact sat_pure ⟨hv, fv⟩
    | cons _ rounds ih =>
      intro r v s' g hr hlt hv fv
      rw [List.length_cons, Nat.succ_mul] at hlt
      rw [List.foldlM_cons]
      have hnext : BitVec.ofNat 32 (if r < m then r else r - m) =
          if (BitVec.ofNat 32 r).ult (BitVec.ofNat 32 m) then BitVec.ofNat 32 r
          else BitVec.ofNat 32 r - BitVec.ofNat 32 m := by
        have hult : (BitVec.ofNat 32 r).ult (BitVec.ofNat 32 m) = decide (r < m) := by
          rw [BitVec.ult, toNat_ofNat, toNat_ofNat, Nat.mod_eq_of_lt (by omega),
            Nat.mod_eq_of_lt (by omega)]
        rw [hult]
        by_cases h : r < m
        · simp [h]
        · rw [if_neg h, decide_eq_false h, if_neg (by decide)]
          apply eq_of_toNat_eq
          rw [toNat_sub, toNat_ofNat, toNat_ofNat, toNat_ofNat]
          omega
      have hmod : (if r < m then r else r - m) % m = r % m := by
        split
        · rfl
        · exact (Nat.mod_eq_sub_mod (by omega)).symm
      refine Sat.bind (P := fun (u : Nat) s₁ =>
        E.Is u (BitVec.ofNat 32 (if r < m then r else r - m)) ∧ u < s₁.size) ?_
        fun (u : Nat) s₁ g₁ ⟨hu, fu⟩ => ?_
      · refine (const32_spec _).bind fun (c : Nat) s₁ g₁ ⟨hc, fc⟩ => ?_
        refine (test_spec hv hc rfl (by omega) (by omega)).bind
          fun (less : Nat) s₂ g₂ ⟨hless, fless⟩ => ?_
        refine (binary_spec hv hc rfl (by omega) (by omega)).bind
          fun (sub : Nat) s₃ g₃ ⟨hsub, fsub⟩ => ?_
        exact (select_spec hless hv hsub (by omega) (by omega) (by omega)).congr hnext.symm
      · have hge : m ≤ (rounds.length + 1) * m := Nat.le_mul_of_pos_left m (Nat.succ_pos _)
        rw [← hmod]
        refine ih _ u s₁ (by omega) ?_ ?_ hu fu
        · split <;> omega
        · split <;> omega
  refine hround (List.range (31 / m)) k a s (Nat.le_refl _) hk ?_ ha has
  rcases hm with rfl | rfl <;> simp <;> omega

theorem and_width {k : Nat} (hw : w ∈ opWidths) (hk : k < 32) :
    BitVec.ofNat 32 k &&& (BitVec.ofNat 32 w - 1) = BitVec.ofNat 32 (k % w) := by
  have hmask : (BitVec.ofNat 32 w - 1).toNat = w - 1 ∧ ∃ e, w = 2 ^ e := by
    simp only [opWidths, List.mem_cons, List.not_mem_nil, or_false] at hw
    rcases hw with rfl | rfl | rfl
    · exact ⟨rfl, 3, rfl⟩
    · exact ⟨rfl, 4, rfl⟩
    · exact ⟨rfl, 5, rfl⟩
  obtain ⟨hmask, e, he⟩ := hmask
  apply eq_of_toNat_eq
  rw [toNat_and, hmask, he, Nat.and_two_pow_sub_one_eq_mod, toNat_ofNat,
    toNat_ofNat, ← he, Nat.mod_eq_of_lt (show k < 2 ^ 32 by omega)]
  exact (Nat.mod_eq_of_lt (Nat.lt_of_le_of_lt (Nat.mod_le ..) (by omega))).symm

/-! ## Rotates -/

/-- `p` leaves a result and a carry, these if the count `k` is not zero. -/
def Gives (E : Executed) (p : Build (ValueId × ValueId)) (s : Site) (k : Nat) (raw : BitVec 32)
    (cf : Bool) : Prop :=
  Sat E p s fun (r : Nat × Nat) s' => ∃ (R : BitVec 32) (C : Bool), (E.Is r.1 R ∧ r.1 < s'.size) ∧
    (E.Is r.2 (BitVec.ofBool C) ∧ r.2 < s'.size) ∧ (k ≠ 0 → R = raw ∧ C = cf)

section
variable {group k n previous z carry : Nat} {x : BitVec 32}

/-- Rotates without the carry. -/
theorem roll_spec (hw : w ∈ opWidths) (hk : k < 32) (ha : E.Is a x) (hn : E.Is n (BitVec.ofNat 32 k))
    (has : a < s.size) (hns : n < s.size) :
    Gives E (roll group w a n) s k (Outcome.roll group w x k).raw (Outcome.roll group w x k).cf := by
  have hle := Arith.lt_of_mem_opWidths hw
  have hmod : k % w < w := Nat.mod_lt _ (by omega)
  have hcount : shiftCount 32 (BitVec.ofNat 32 (k % w)) = k % w := shiftCount_ofNat (by omega)
  have hinverse : k ≠ 0 →
      shiftCount 32 (BitVec.ofNat 32 w - BitVec.ofNat 32 (k % w)) = w - k % w := by
    intro h0
    refine shiftCount_sub (by omega) ?_ (by omega)
    by_cases h : w = 32
    · subst h
      omega
    · omega
  unfold roll
  refine ((withConstant_spec .and _ hn rfl (by omega)).congr (and_width hw hk)).bind
    fun (rot : Nat) s₁ g₁ ⟨hrot, frot⟩ => ?_
  refine (fromConstant_spec .sub _ hrot rfl (by omega)).bind
    fun (inv : Nat) s₂ g₂ ⟨hinv, finv⟩ => ?_
  by_cases h0 : group = 0
  · subst h0
    refine (combine_spec ha hrot ha hinv (by omega) (by omega) (by omega) (by omega)).bind
      fun (raw : Nat) s₃ g₃ ⟨hraw, fraw⟩ => ?_
    refine (bit_spec 0 hraw (by omega)).bind fun (cf : Nat) s₄ g₄ ⟨hcf, fcf⟩ => ?_
    refine sat_pure ⟨_, _, ⟨hraw, by omega⟩, ⟨hcf, fcf⟩, fun h => ?_⟩
    simp only [Binary.apply, hcount, hinverse h]
    exact ⟨rfl, rfl⟩
  · simp only [if_neg h0]
    refine (combine_spec ha hinv ha hrot (by omega) (by omega) (by omega) (by omega)).bind
      fun (raw : Nat) s₃ g₃ ⟨hraw, fraw⟩ => ?_
    refine (bit_spec (w - 1) hraw (by omega)).bind fun (cf : Nat) s₄ g₄ ⟨hcf, fcf⟩ => ?_
    refine sat_pure ⟨_, _, ⟨hraw, by omega⟩, ⟨hcf, fcf⟩, fun h => ?_⟩
    simp only [Binary.apply, hcount, hinverse h, Outcome.roll, if_neg h0, and_self]

/-- Rotates of 8 and 16 bits through the carry. -/
theorem through_spec {t : Bool} (hw : w < 32) (hk : k ≤ w) (ha : E.Is a x)
    (hc : E.Is carry (BitVec.ofBool t)) (hn : E.Is n (BitVec.ofNat 32 k))
    (has : a < s.size) (hcs : carry < s.size) (hns : n < s.size) :
    Gives E (through carry group w a n) s k (Outcome.through group w x k t).raw
      (Outcome.through group w x k t).cf := by
  have hcount : shiftCount 32 (BitVec.ofNat 32 k) = k := shiftCount_ofNat (by omega)
  have hinverse : k ≠ 0 →
      shiftCount 32 (BitVec.ofNat 32 w + 1 - BitVec.ofNat 32 k) = w + 1 - k := by
    intro h0
    rw [show BitVec.ofNat 32 w + 1 = BitVec.ofNat 32 (w + 1) from (ofNat_add w 1).symm]
    exact shiftCount_sub (by omega) (by omega) (by omega)
  unfold through
  refine (wide_spec hc (by omega)).bind fun (c₁ : Nat) s₁ g₁ ⟨h₁, f₁⟩ => ?_
  refine (withConstant_spec .shl _ h₁ rfl (by omega)).bind fun (c₂ : Nat) s₂ g₂ ⟨h₂, f₂⟩ => ?_
  refine (binary_spec ha h₂ rfl (by omega) (by omega)).bind fun (p : Nat) s₃ g₃ ⟨hp, fp⟩ => ?_
  refine (fromConstant_spec .sub _ hn rfl (by omega)).bind fun (inv : Nat) s₄ g₄ ⟨hinv, finv⟩ => ?_
  by_cases h2 : group = 2
  · subst h2
    refine (combine_spec hp hn hp hinv (by omega) (by omega) (by omega) (by omega)).bind
      fun (raw : Nat) s₅ g₅ ⟨hraw, fraw⟩ => ?_
    refine (bit_spec w hraw (by omega)).bind fun (cf : Nat) s₆ g₆ ⟨hcf, fcf⟩ => ?_
    refine sat_pure ⟨_, _, ⟨hraw, by omega⟩, ⟨hcf, fcf⟩, fun h => ?_⟩
    simp only [Binary.apply, hcount, hinverse h, shiftCount_ofNat hw]
    exact ⟨rfl, rfl⟩
  · simp only [if_neg h2]
    refine (combine_spec hp hinv hp hn (by omega) (by omega) (by omega) (by omega)).bind
      fun (raw : Nat) s₅ g₅ ⟨hraw, fraw⟩ => ?_
    refine (bit_spec w hraw (by omega)).bind fun (cf : Nat) s₆ g₆ ⟨hcf, fcf⟩ => ?_
    refine sat_pure ⟨_, _, ⟨hraw, by omega⟩, ⟨hcf, fcf⟩, fun h => ?_⟩
    simp only [Binary.apply, hcount, hinverse h, shiftCount_ofNat hw, Outcome.through, if_neg h2]
    exact ⟨rfl, rfl⟩

/-- Rotates of 32 bits through the carry, in up to three parts. -/
theorem through32_spec {t : Bool} (hk : k < 32) (ha : E.Is a x) (hc : E.Is carry (BitVec.ofBool t))
    (hn : E.Is n (BitVec.ofNat 32 k)) (hp : E.Is previous (BitVec.ofNat 32 k - 1))
    (hz : E.Is z (0 : BitVec 32)) (has : a < s.size) (hcs : carry < s.size) (hns : n < s.size)
    (hps : previous < s.size) (hzs : z < s.size) :
    Gives E (through32 carry group a n previous z) s k (Outcome.through32 group x k t).raw
      (Outcome.through32 group x k t).cf := by
  have hcount : shiftCount 32 (BitVec.ofNat 32 k) = k := shiftCount_ofNat hk
  have hprevious : k ≠ 0 → shiftCount 32 (BitVec.ofNat 32 k - 1) = k - 1 := fun h =>
    shiftCount_sub (k := 1) (by omega) (by omega) (by omega)
  have hinverse : k ≠ 0 → shiftCount 32 (32 - BitVec.ofNat 32 k) = 32 - k := fun h =>
    shiftCount_sub (m := 32) (by omega) (by omega) (by omega)
  have hthrough : 1 < k → shiftCount 32 (33 - BitVec.ofNat 32 k) = 33 - k := fun h =>
    shiftCount_sub (m := 33) (by omega) (by omega) (by omega)
  have hmore : (1 : BitVec 32).ult (BitVec.ofNat 32 k) = decide (1 < k) := by
    rw [BitVec.ult, toNat_ofNat, Nat.mod_eq_of_lt (by omega)]
    rfl
  unfold through32
  refine (wide_spec hc (by omega)).bind fun (c₁ : Nat) s₁ g₁ ⟨h₁, f₁⟩ => ?_
  refine (fromConstant_spec .sub _ hn rfl (by omega)).bind fun (inv : Nat) s₂ g₂ ⟨hinv, finv⟩ => ?_
  refine (fromConstant_spec .sub _ hn rfl (by omega)).bind fun (thr : Nat) s₃ g₃ ⟨hthr, fthr⟩ => ?_
  refine ((belowConstant_spec _ hn (by omega)).congr (congrArg _ hmore)).bind
    fun (more : Nat) s₄ g₄ ⟨hmo, fmo⟩ => ?_
  -- the two directions differ in the shifts and in which of `previous` and the inverse comes first
  by_cases h2 : group = 2
  all_goals
    simp only [h2, if_true, if_false]
    refine (binary_spec ha hthr rfl (by omega) (by omega)).bind
      fun (e₁ : Nat) s₅ g₅ ⟨he₁, fe₁⟩ => ?_
    refine (select_spec hmo he₁ hz (by omega) (by omega) (by omega)).bind
      fun (e₂ : Nat) s₆ g₆ ⟨he₂, fe₂⟩ => ?_
    refine (binary_spec ha hn rfl (by omega) (by omega)).bind fun (r₁ : Nat) s₇ g₇ ⟨hr₁, fr₁⟩ => ?_
    first
      | refine (binary_spec h₁ hp rfl (by omega) (by omega)).bind
          fun (c₂ : Nat) s₈ g₈ ⟨h₂, f₂⟩ => ?_
      | refine (binary_spec h₁ hinv rfl (by omega) (by omega)).bind
          fun (c₂ : Nat) s₈ g₈ ⟨h₂, f₂⟩ => ?_
    refine (binary_spec hr₁ h₂ rfl (by omega) (by omega)).bind fun (r₂ : Nat) s₉ g₉ ⟨hr₂, fr₂⟩ => ?_
    refine (binary_spec hr₂ he₂ rfl (by omega) (by omega)).bind
      fun (raw : Nat) s₁₀ g₁₀ ⟨hraw, fraw⟩ => ?_
    first
      | refine (binary_spec ha hinv rfl (by omega) (by omega)).bind
          fun (c₃ : Nat) s₁₁ g₁₁ ⟨h₃, f₃⟩ => ?_
      | refine (binary_spec ha hp rfl (by omega) (by omega)).bind
          fun (c₃ : Nat) s₁₁ g₁₁ ⟨h₃, f₃⟩ => ?_
    refine (bit_spec 0 h₃ (by omega)).bind fun (cf : Nat) s₁₂ g₁₂ ⟨hcf, fcf⟩ => ?_
    refine sat_pure ⟨_, _, ⟨hraw, by omega⟩, ⟨hcf, fcf⟩, fun h => ?_⟩
    simp only [Binary.apply, hcount, hinverse h, hprevious h, Outcome.through32, if_true, h2,
      if_false, and_true]
    by_cases h1 : 1 < k
    · simp only [h1, hthrough h1, decide_true, if_true]
      rfl
    · simp only [h1, decide_false, Bool.false_eq_true, if_false]
      rfl

/-- `p` leaves an outcome, `o` if the count `k` is not zero. -/
def Computes (E : Executed) (p : Build Shifted) (s : Site) (k : Nat) (o : Outcome) : Prop :=
  Sat E p s fun sh s' => ∃ o' : Outcome, E.Has s'.size (some sh.raw) o'.raw ∧
    E.Has s'.size (some sh.cf) (BitVec.ofBool o'.cf) ∧
    E.Has s'.size (some sh.of) (BitVec.ofBool o'.of) ∧ (k ≠ 0 → o' = o)

theorem rotateOverflow_spec {r cf : Nat} {raw : BitVec 32} {t : Bool} (hr : E.Is r raw)
    (hcf : E.Is cf (BitVec.ofBool t)) (hrs : r < s.size) (hcs : cf < s.size) :
    Yields E (rotateOverflow group w r cf) s (BitVec.ofBool
      (raw.getLsbD (w - 1) ^^ if group % 2 = 0 then t else raw.getLsbD (w - 2))) := by
  unfold rotateOverflow
  refine (bit_spec (w - 1) hr (by omega)).bind fun (high : Nat) s₁ g₁ ⟨hh, fh⟩ => ?_
  split
  · exact xorBit_spec hh hcf (by omega) (by omega)
  · exact (bit_spec (w - 2) hr (by omega)).bind
      fun (other : Nat) s₂ g₂ ⟨ho, fo⟩ => xorBit_spec hh ho (by omega) (by omega)

/-- What the four rotates leave. -/
theorem rotate_spec {t : Bool} (hw : w ∈ opWidths) (hk : k < 32) (hwrap : ¬ group < 2 → k ≤ w)
    (ha : E.Is a x) (hc : E.Is carry (BitVec.ofBool t)) (hn : E.Is n (BitVec.ofNat 32 k))
    (hp : E.Is previous (BitVec.ofNat 32 k - 1)) (hz : E.Is z (0 : BitVec 32)) (has : a < s.size)
    (hcs : carry < s.size) (hns : n < s.size) (hps : previous < s.size) (hzs : z < s.size) :
    Computes E (rotate carry group w a n previous z) s k (rotateOutcome group w x k t) := by
  unfold rotate
  have hresults : Gives E (if group < 2 then roll group w a n
      else if w < 32 then through carry group w a n else through32 carry group a n previous z) s k
      (rotateOutcome group w x k t).raw (rotateOutcome group w x k t).cf := by
    unfold rotateOutcome
    split
    · exact roll_spec hw hk ha hn has hns
    · next hgroup =>
      split
      · next hlt => exact through_spec hlt (hwrap hgroup) ha hc hn has hcs hns
      · exact through32_spec hk ha hc hn hp hz has hcs hns hps hzs
  refine hresults.bind fun r s₁ g₁ ⟨R, C, ⟨hR, fR⟩, ⟨hC, fC⟩, hRC⟩ => ?_
  refine (rotateOverflow_spec hR hC fR fC).bind fun (of : Nat) s₂ g₂ ⟨hof, fof⟩ => ?_
  refine sat_pure ⟨⟨R, C, _⟩, (Executed.Has.of_is hR fR).mono g₂,
    (Executed.Has.of_is hC fC).mono g₂, .of_is hof fof, ?_⟩
  intro h
  obtain ⟨rfl, rfl⟩ := hRC h
  unfold rotateOutcome
  split
  · rfl
  · split
    · rfl
    · have : w = 32 := by
        have := Arith.lt_of_mem_opWidths hw
        omega
      subst this
      rfl

/-! ## Double shifts -/

section
variable {source : Nat} {y : BitVec 32} {left : Bool}

/-- The counts of a double shift. -/
theorem double_counts (hw : w = 16 ∨ w = 32) (hk : k < 32) :
    (k ≤ w → k ≠ 0 → shiftCount 32 (BitVec.ofNat 32 w - BitVec.ofNat 32 k) = w - k) ∧
    (k ≠ 0 → shiftCount 32 (BitVec.ofNat 32 k - 1) = k - 1) ∧
    (k ≠ 0 → shiftCount 32 (32 - BitVec.ofNat 32 k) = 32 - k) ∧
    (16 < k → shiftCount 32 (BitVec.ofNat 32 k - 16) = k - 16) ∧
    (16 < k → shiftCount 32 (BitVec.ofNat 32 k - 17) = k - 17) :=
  ⟨fun _ _ => shiftCount_sub (by omega) (by omega) (by omega),
    fun _ => shiftCount_sub (k := 1) (by omega) (by omega) (by omega),
    fun _ => shiftCount_sub (m := 32) (by omega) (by omega) (by omega),
    fun _ => shiftCount_sub (k := 16) (by omega) (by omega) (by omega),
    fun _ => shiftCount_sub (k := 17) (by omega) (by omega) (by omega)⟩

theorem doubleFirst_spec (hw : w = 16 ∨ w = 32) (hk : k < 32) (ha : E.Is a x) (hb : E.Is source y)
    (hn : E.Is n (BitVec.ofNat 32 k)) (hp : E.Is previous (BitVec.ofNat 32 k - 1)) (has : a < s.size)
    (hbs : source < s.size) (hns : n < s.size) (hps : previous < s.size) :
    Sat E (doubleFirst left w a source n previous) s fun (r : Nat × Nat) s' =>
      ∃ (R : BitVec 32) (C : Bool), (E.Is r.1 R ∧ r.1 < s'.size) ∧
        (E.Is r.2 (BitVec.ofBool C) ∧ r.2 < s'.size) ∧ (k ≠ 0 → ¬ (w = 16 ∧ 16 < k) →
          R = (Outcome.double left w x y k).raw ∧ C = (Outcome.double left w x y k).cf) := by
  have hcount : shiftCount 32 (BitVec.ofNat 32 k) = k := shiftCount_ofNat hk
  obtain ⟨hinverse, hprevious, -⟩ := double_counts hw hk
  unfold doubleFirst
  refine (fromConstant_spec .sub _ hn rfl (by omega)).bind fun (inv : Nat) s₁ g₁ ⟨hinv, finv⟩ => ?_
  cases left with
  | true =>
    refine (combine_spec ha hn hb hinv (by omega) (by omega) (by omega) (by omega)).bind
      fun (raw : Nat) s₂ g₂ ⟨hraw, fraw⟩ => ?_
    refine (binary_spec ha hinv rfl (by omega) (by omega)).bind fun (c : Nat) s₃ g₃ ⟨hc, fc⟩ => ?_
    refine (bit_spec 0 hc (by omega)).bind fun (cf : Nat) s₄ g₄ ⟨hcf, fcf⟩ => ?_
    refine sat_pure ⟨_, _, ⟨hraw, by omega⟩, ⟨hcf, fcf⟩, fun h hsmall => ?_⟩
    obtain ⟨h₁, h₂⟩ := Arith.double_small true x y hsmall
    rw [h₁, h₂]
    simp only [Binary.apply, hcount, hinverse (by omega) h, if_true, and_self]
  | false =>
    refine (combine_spec hb hinv ha hn (by omega) (by omega) (by omega) (by omega)).bind
      fun (raw : Nat) s₂ g₂ ⟨hraw, fraw⟩ => ?_
    refine (binary_spec ha hp rfl (by omega) (by omega)).bind fun (c : Nat) s₃ g₃ ⟨hc, fc⟩ => ?_
    refine (bit_spec 0 hc (by omega)).bind fun (cf : Nat) s₄ g₄ ⟨hcf, fcf⟩ => ?_
    refine sat_pure ⟨_, _, ⟨hraw, by omega⟩, ⟨hcf, fcf⟩, fun h hsmall => ?_⟩
    obtain ⟨h₁, h₂⟩ := Arith.double_small false x y hsmall
    rw [h₁, h₂]
    simp only [Binary.apply, hcount, hinverse (by omega) h, hprevious h, Bool.false_eq_true,
      if_false, and_self]

theorem doubleSecond_spec (hk : k < 32) (ha : E.Is a x) (hb : E.Is source y)
    (hn : E.Is n (BitVec.ofNat 32 k)) (has : a < s.size) (hbs : source < s.size) (hns : n < s.size) :
    Sat E (doubleSecond left a source n) s fun (r : Nat × Nat) s' =>
      ∃ (R : BitVec 32) (C : Bool), (E.Is r.1 R ∧ r.1 < s'.size) ∧
        (E.Is r.2 (BitVec.ofBool C) ∧ r.2 < s'.size) ∧ (16 < k →
          R = (Outcome.double left 16 x y k).raw ∧ C = (Outcome.double left 16 x y k).cf) := by
  obtain ⟨-, -, hinverse, hexcess, hcarry⟩ := double_counts (w := 16) (.inl rfl) hk
  unfold doubleSecond
  refine (withConstant_spec .sub _ hn rfl (by omega)).bind fun (ex : Nat) s₁ g₁ ⟨hex, fex⟩ => ?_
  refine (fromConstant_spec .sub _ hn rfl (by omega)).bind fun (inv : Nat) s₂ g₂ ⟨hinv, finv⟩ => ?_
  cases left with
  | true =>
    refine (combine_spec hb hex ha hinv (by omega) (by omega) (by omega) (by omega)).bind
      fun (raw : Nat) s₃ g₃ ⟨hraw, fraw⟩ => ?_
    refine sat_pure_bind ?_
    refine (binary_spec hb hinv rfl (by omega) (by omega)).bind fun (c : Nat) s₄ g₄ ⟨hc, fc⟩ => ?_
    refine (bit_spec 0 hc (by omega)).bind fun (cf : Nat) s₅ g₅ ⟨hcf, fcf⟩ => ?_
    refine sat_pure ⟨_, _, ⟨hraw, by omega⟩, ⟨hcf, fcf⟩, fun h => ?_⟩
    obtain ⟨h₁, h₂⟩ := Arith.double_large true x y h
    rw [h₁, h₂]
    simp only [Binary.apply, hexcess h, hinverse (by omega), if_true, and_self]
  | false =>
    refine (combine_spec ha hinv hb hex (by omega) (by omega) (by omega) (by omega)).bind
      fun (raw : Nat) s₃ g₃ ⟨hraw, fraw⟩ => ?_
    refine (withConstant_spec .sub _ hn rfl (by omega)).bind fun (cc : Nat) s₄ g₄ ⟨hcc, fcc⟩ => ?_
    refine (binary_spec hb hcc rfl (by omega) (by omega)).bind fun (c : Nat) s₅ g₅ ⟨hc, fc⟩ => ?_
    refine (bit_spec 0 hc (by omega)).bind fun (cf : Nat) s₆ g₆ ⟨hcf, fcf⟩ => ?_
    refine sat_pure ⟨_, _, ⟨hraw, by omega⟩, ⟨hcf, fcf⟩, fun h => ?_⟩
    obtain ⟨h₁, h₂⟩ := Arith.double_large false x y h
    rw [h₁, h₂]
    simp only [Binary.apply, hexcess h, hinverse (by omega), hcarry h, Bool.false_eq_true, if_false,
      and_self]

theorem doubleResult_spec (hw : w = 16 ∨ w = 32) (hk : k < 32) (ha : E.Is a x) (hb : E.Is source y)
    (hn : E.Is n (BitVec.ofNat 32 k)) (hp : E.Is previous (BitVec.ofNat 32 k - 1)) (has : a < s.size)
    (hbs : source < s.size) (hns : n < s.size) (hps : previous < s.size) :
    Gives E (doubleResult left w a source n previous) s k (Outcome.double left w x y k).raw
      (Outcome.double left w x y k).cf := by
  unfold doubleResult
  refine (doubleFirst_spec hw hk ha hb hn hp has hbs hns hps).bind
    fun r s₁ g₁ ⟨R, C, ⟨hR, fR⟩, ⟨hC, fC⟩, hfirst⟩ => ?_
  rcases hw with rfl | rfl
  · refine (doubleSecond_spec hk ha hb hn (by omega) (by omega) (by omega)).bind
      fun r' s₂ g₂ ⟨R', C', ⟨hR', fR'⟩, ⟨hC', fC'⟩, hsecond⟩ => ?_
    have hlarge : (16 : BitVec 32).ult (BitVec.ofNat 32 k) = decide (16 < k) := by
      rw [BitVec.ult, toNat_ofNat, Nat.mod_eq_of_lt (by omega)]
      rfl
    refine ((belowConstant_spec 16 hn (by omega)).congr (congrArg _ hlarge)).bind
      fun (large : Nat) s₃ g₃ ⟨hl, fl⟩ => ?_
    refine (select_spec hl hR' hR (by omega) (by omega) (by omega)).bind
      fun (raw : Nat) s₄ g₄ ⟨hraw, fraw⟩ => ?_
    refine (select_spec hl hC' hC (by omega) (by omega) (by omega)).bind
      fun (cf : Nat) s₅ g₅ ⟨hcf, fcf⟩ => ?_
    by_cases h : 16 < k
    · rw [decide_eq_true h] at hraw hcf
      exact sat_pure ⟨R', C', ⟨hraw, by omega⟩, ⟨hcf, fcf⟩, fun _ => hsecond h⟩
    · rw [decide_eq_false h] at hraw hcf
      exact sat_pure ⟨R, C, ⟨hraw, by omega⟩, ⟨hcf, fcf⟩, fun h0 => hfirst h0 fun hk => h hk.2⟩
  · exact sat_pure ⟨R, C, ⟨hR, fR⟩, ⟨hC, fC⟩, fun h0 => hfirst h0 (by omega)⟩

theorem test_ofNat {k j : Nat} (hk : k < 32) (hj : j < 32) :
    Binary.eq.test (BitVec.ofNat 32 k) (BitVec.ofNat 32 j) = decide (k = j) := by
  rw [Binary.test, Bool.eq_iff_iff, beq_iff_eq, decide_eq_true_iff]
  refine ⟨fun h => ?_, congrArg _⟩
  have := congrArg BitVec.toNat h
  rwa [toNat_ofNat, toNat_ofNat, Nat.mod_eq_of_lt (by omega), Nat.mod_eq_of_lt (by omega)] at this

theorem doubleOverflow_spec {r cf : Nat} {raw : BitVec 32} {t : Bool} (hk : k < 32) (ha : E.Is a x)
    (hn : E.Is n (BitVec.ofNat 32 k)) (hr : E.Is r raw) (hcf : E.Is cf (BitVec.ofBool t))
    (has : a < s.size) (hns : n < s.size) (hrs : r < s.size) (hcs : cf < s.size) :
    Yields E (doubleOverflow left w a n r cf) s (BitVec.ofBool
      (if left then (t ^^ raw.getLsbD (w - 1)) && (w ≠ 32 || k = 1)
        else x.getLsbD (w - 1) ^^ raw.getLsbD (w - 1))) := by
  unfold doubleOverflow
  refine (bit_spec (w - 1) hr (by omega)).bind fun (high : Nat) s₁ g₁ ⟨hh, fh⟩ => ?_
  cases left with
  | true =>
    refine (xorBit_spec hcf hh (by omega) (by omega)).bind fun (o : Nat) s₂ g₂ ⟨ho, fo⟩ => ?_
    by_cases h32 : w = 32
    · subst h32
      refine (const32_spec 1).bind fun (one : Nat) s₃ g₃ ⟨hone, fone⟩ => ?_
      refine (test_spec hn hone rfl (by omega) (by omega)).bind fun (is1 : Nat) s₄ g₄ ⟨h1, f1⟩ => ?_
      refine (andBit_spec h1 ho (by omega) (by omega)).congr ?_
      have htest : Binary.eq.test (BitVec.ofNat 32 k) 1 = decide (k = 1) :=
        test_ofNat hk (j := 1) (by decide)
      rw [htest, if_pos rfl, Bool.and_comm]
      simp
    · simp only [if_neg h32]
      exact (show Yields E (pure o) s₂ _ from sat_pure ⟨ho, fo⟩).congr (by simp [h32])
  | false =>
    exact (bit_spec (w - 1) ha (by omega)).bind
      fun (old : Nat) s₂ g₂ ⟨ho, fo⟩ => xorBit_spec ho hh (by omega) (by omega)

/-- What the double shifts leave. -/
theorem doubleShift_spec {v : BitVec w} (hw : w = 16 ∨ w = 32) (hk : k < 32) (ha : E.Is a x)
    (hb : E.Is source v) (hn : E.Is n (BitVec.ofNat 32 k))
    (hp : E.Is previous (BitVec.ofNat 32 k - 1)) (has : a < s.size)
    (hbs : source < s.size) (hns : n < s.size) (hps : previous < s.size) :
    Computes E (doubleShift left w a source n previous) s k
      (Outcome.double left w x (v.setWidth 32) k) := by
  unfold doubleShift
  refine (wide_spec hb (by omega)).bind fun (b : Nat) s₁ g₁ ⟨hb, fb⟩ => ?_
  refine (doubleResult_spec hw hk ha hb hn hp (by omega) fb (by omega) (by omega)).bind
    fun r s₂ g₂ ⟨R, C, ⟨hR, fR⟩, ⟨hC, fC⟩, hRC⟩ => ?_
  refine (doubleOverflow_spec hk ha hn hR hC (by omega) (by omega) fR fC).bind
    fun (of : Nat) s₃ g₃ ⟨hof, fof⟩ => ?_
  refine sat_pure ⟨⟨R, C, _⟩, (Executed.Has.of_is hR fR).mono g₃,
    (Executed.Has.of_is hC fC).mono g₃, .of_is hof fof, fun h => ?_⟩
  obtain ⟨rfl, rfl⟩ := hRC h
  rfl

end

/-! ## Shifts -/

theorem shiftLeft_spec (hk : k < 32) (ha : E.Is a x) (hn : E.Is n (BitVec.ofNat 32 k))
    (has : a < s.size) (hns : n < s.size) :
    Computes E (shiftLeft w a n) s k (Outcome.shl w x k) := by
  have hcount : shiftCount 32 (BitVec.ofNat 32 k) = k := shiftCount_ofNat hk
  have hinverse : k ≠ 0 → shiftCount 32 (32 - BitVec.ofNat 32 k) = 32 - k := fun h =>
    shiftCount_sub (m := 32) (by omega) (by omega) (by omega)
  unfold shiftLeft
  refine (binary_spec ha hn rfl (by omega) (by omega)).bind fun (raw : Nat) s₁ g₁ ⟨hraw, fraw⟩ => ?_
  simp only [Binary.apply, hcount] at hraw
  refine Sat.bind (P := fun (cf : Nat) s' => ∃ C : Bool, (E.Is cf (BitVec.ofBool C) ∧ cf < s'.size) ∧
    (k ≠ 0 → C = (Outcome.shl w x k).cf)) ?_ fun (cf : Nat) s₂ g₂ ⟨C, ⟨hC, fC⟩, hcf⟩ => ?_
  · split
    · next h32 =>
      refine (fromConstant_spec .sub _ hn rfl (by omega)).bind
        fun (inv : Nat) s₂ g₂ ⟨hinv, finv⟩ => ?_
      refine (binary_spec ha hinv rfl (by omega) (by omega)).bind fun (c : Nat) s₃ g₃ ⟨hc, fc⟩ => ?_
      refine (bit_spec 0 hc (by omega)).mono fun v s' h => ⟨_, h, fun h0 => ?_⟩
      simp only [Binary.apply, hinverse h0, Outcome.shl, if_pos h32]
    · next h32 =>
      refine (bit_spec w hraw (by omega)).mono fun v s' h => ⟨_, h, fun h0 => ?_⟩
      simp only [Outcome.shl, if_neg h32]
  refine (bit_spec (w - 1) hraw (by omega)).bind fun (high : Nat) s₃ g₃ hhigh => ?_
  obtain ⟨hh, fh⟩ := hhigh
  refine (xorBit_spec hC hh (by omega) (by omega)).bind fun (of : Nat) s₄ g₄ hof => ?_
  obtain ⟨hof, fof⟩ := hof
  refine sat_pure ⟨⟨_, C, _⟩, (Executed.Has.of_is hraw fraw).mono (by omega),
    (Executed.Has.of_is hC fC).mono (by omega), .of_is hof fof, fun h => ?_⟩
  rw [hcf h]
  rfl

/-- What `shr` and `sar` leave. -/
theorem shiftRight_spec {b : Nat} {v : BitVec w} (hk : k < 32) (hv : E.Is b v)
    (ha : E.Is a (v.setWidth 32)) (hn : E.Is n (BitVec.ofNat 32 k))
    (hp : E.Is previous (BitVec.ofNat 32 k - 1))
    (hbs : b < s.size) (has : a < s.size) (hns : n < s.size) (hps : previous < s.size) :
    Computes E (shiftRight group w b a n previous) s k
      (if group = 7 then .sar (v.signExtend 32) k else .shr w (v.setWidth 32) k) := by
  have hcount : shiftCount 32 (BitVec.ofNat 32 k) = k := shiftCount_ofNat hk
  have hprevious : k ≠ 0 → shiftCount 32 (BitVec.ofNat 32 k - 1) = k - 1 := fun h =>
    shiftCount_sub (k := 1) (by omega) (by omega) (by omega)
  unfold shiftRight
  split
  · refine (wideSigned_spec hv (by omega)).bind fun (sg : Nat) s₁ g₁ ⟨hsg, fsg⟩ => ?_
    refine (binary_spec hsg hn rfl (by omega) (by omega)).bind
      fun (raw : Nat) s₂ g₂ ⟨hraw, fraw⟩ => ?_
    refine (binary_spec hsg hp rfl (by omega) (by omega)).bind fun (c : Nat) s₃ g₃ ⟨hc, fc⟩ => ?_
    refine (bit_spec 0 hc (by omega)).bind fun (cf : Nat) s₄ g₄ ⟨hcf, fcf⟩ => ?_
    refine (constBit_spec false).bind fun (of : Nat) s₅ g₅ ⟨hof, fof⟩ => ?_
    refine sat_pure ⟨⟨_, _, false⟩, (Executed.Has.of_is hraw fraw).mono (by omega),
      (Executed.Has.of_is hcf fcf).mono (by omega), .of_is hof fof, fun h => ?_⟩
    simp only [Binary.apply, hcount, hprevious h]
    rfl
  · refine (binary_spec ha hn rfl (by omega) (by omega)).bind
      fun (raw : Nat) s₂ g₂ ⟨hraw, fraw⟩ => ?_
    refine (binary_spec ha hp rfl (by omega) (by omega)).bind fun (c : Nat) s₃ g₃ ⟨hc, fc⟩ => ?_
    refine (bit_spec 0 hc (by omega)).bind fun (cf : Nat) s₄ g₄ ⟨hcf, fcf⟩ => ?_
    refine (bit_spec (w - 1) ha (by omega)).bind fun (of : Nat) s₅ g₅ ⟨hof, fof⟩ => ?_
    refine sat_pure ⟨⟨_, _, _⟩, (Executed.Has.of_is hraw fraw).mono (by omega),
      (Executed.Has.of_is hcf fcf).mono (by omega), .of_is hof fof, fun h => ?_⟩
    simp only [Binary.apply, hcount, hprevious h]
    rfl

end

/-! ## The instruction -/

section
variable {k n z group previous count : Nat} {old : Backing} {flags : Flags}

theorem effectiveCount_spec {c : BitVec 32} (hw : w ∈ opWidths) (double : Bool)
    (hc : E.Is count c) (hcs : count < s.size) :
    Yields E (effectiveCount double group w count) s (BitVec.ofNat 32
      (if double then c.toNat % 32 else effective group w (c.toNat % 32))) := by
  have hmask : c &&& 31 = BitVec.ofNat 32 (c.toNat % 32) := by
    apply eq_of_toNat_eq
    rw [toNat_and, toNat_ofNat, Nat.mod_eq_of_lt (show c.toNat % 32 < 2 ^ 32 by omega)]
    exact Nat.and_two_pow_sub_one_eq_mod c.toNat 5
  unfold effectiveCount
  refine ((withConstant_spec .and 31 hc rfl (by omega)).congr hmask).bind
    fun (n : Nat) s₁ g₁ ⟨hn, fn⟩ => ?_
  cases double with
  | true => exact sat_pure ⟨hn, fn⟩
  | false =>
    simp only [Bool.not_false, true_and, Bool.false_eq_true, if_false]
    unfold effective
    split
    · next h =>
      refine modulo_spec (by omega) ?_ hn fn
      have hwidths := hw
      simp only [opWidths, List.mem_cons, List.not_mem_nil, or_false] at hw
      omega
    · exact sat_pure ⟨hn, fn⟩

theorem selectAll_spec {u : Nat} {t : Bool} {ids ids' : Vector ValueId 6} {xs ys : Vector Bool 6}
    (hu : E.Is u (BitVec.ofBool t)) (hus : u < s.size)
    (hold : ∀ i : Fin 6, E.Has s.size (some ids[i]) (BitVec.ofBool xs[i]))
    (hnew : ∀ i : Fin 6, E.Has s.size (some ids'[i]) (BitVec.ofBool ys[i])) :
    Sat E (selectAll u ids ids') s fun r s' => ∀ i : Fin 6,
      E.Has s'.size (some r[i]) (BitVec.ofBool (if t then xs[i] else ys[i])) := by
  have hsel : ∀ (i : Fin 6) (s' : Site), s.size ≤ s'.size →
      Yields E (select u ids[i] ids'[i]) s' (BitVec.ofBool (if t then xs[i] else ys[i])) := by
    intro i s' g
    obtain ⟨hx, fx⟩ := (hold i).get
    obtain ⟨hy, fy⟩ := (hnew i).get
    exact (select_spec hu hx hy (by omega) (by omega) (by omega)).congr (by cases t <;> rfl)
  unfold selectAll
  refine (hsel 0 s (Nat.le_refl _)).bind fun (v₀ : Nat) s₁ g₁ ⟨h₀, f₀⟩ => ?_
  refine (hsel 1 s₁ (by omega)).bind fun (v₁ : Nat) s₂ g₂ ⟨h₁, f₁⟩ => ?_
  refine (hsel 2 s₂ (by omega)).bind fun (v₂ : Nat) s₃ g₃ ⟨h₂, f₂⟩ => ?_
  refine (hsel 3 s₃ (by omega)).bind fun (v₃ : Nat) s₄ g₄ ⟨h₃, f₃⟩ => ?_
  refine (hsel 4 s₄ (by omega)).bind fun (v₄ : Nat) s₅ g₅ ⟨h₄, f₄⟩ => ?_
  refine (hsel 5 s₅ (by omega)).bind fun (v₅ : Nat) s₆ g₆ ⟨h₅, f₅⟩ => ?_
  refine sat_pure fun i => ?_
  match i with
  | 0 => exact (Executed.Has.of_is h₀ f₀).mono (by omega)
  | 1 => exact (Executed.Has.of_is h₁ f₁).mono (by omega)
  | 2 => exact (Executed.Has.of_is h₂ f₂).mono (by omega)
  | 3 => exact (Executed.Has.of_is h₃ f₃).mono (by omega)
  | 4 => exact (Executed.Has.of_is h₄ f₄).mono (by omega)
  | 5 => exact .of_is h₅ f₅

theorem shiftFlags_spec {r cf of : Nat} {res : BitVec 32} {C O : Bool}
    (hold : flags.Backs E s.size old) (hr : E.Is r res) (hcf : E.Is cf (BitVec.ofBool C))
    (hof : E.Is of (BitVec.ofBool O)) (hrs : r < s.size) (hcs : cf < s.size) (hos : of < s.size) :
    Sat E (shiftFlags flags r cf of w) s fun flags' s' => Becomes E s'.size flags' old
      #v[C, parity res, (old.lastOp1 ^^^ (res - old.lastOp1) ^^^ res).getLsbD 4, res == 0,
        res.getLsbD (w - 1), O] true := by
  obtain ⟨last, hlast, hl, fl⟩ := hold.lastOp1
  unfold shiftFlags
  rw [hlast, Option.getD_some]
  dsimp only
  refine (binary_spec hr hl rfl (by omega) (by omega)).bind fun (other : Nat) s₁ g₁ ⟨h₁, f₁⟩ => ?_
  refine (binary_spec hl h₁ rfl (by omega) (by omega)).bind fun (x₁ : Nat) s₂ g₂ ⟨h₂, f₂⟩ => ?_
  refine (binary_spec h₂ hr rfl (by omega) (by omega)).bind fun (x₂ : Nat) s₃ g₃ ⟨h₃, f₃⟩ => ?_
  refine (bit_spec 4 h₃ (by omega)).bind fun (af : Nat) s₄ g₄ ⟨haf, faf⟩ => ?_
  refine (const32_spec 0).bind fun (z : Nat) s₅ g₅ ⟨hz, fz⟩ => ?_
  refine (test_spec hr hz rfl (by omega) (by omega)).bind fun (zf : Nat) s₆ g₆ ⟨hzf, fzf⟩ => ?_
  refine (bit_spec (w - 1) hr (by omega)).bind fun (sf : Nat) s₇ g₇ ⟨hsf, fsf⟩ => ?_
  refine (parityFlag_spec hr (by omega)).bind fun pfs s₈ g₈ ⟨⟨hpf, fpf⟩, hone, fone⟩ => ?_
  refine sat_pure ⟨?_, fun i => ?_, .of_is hone fone⟩
  · have hb := hold.mono (show s.size ≤ s₈.size by omega)
    exact ⟨hb.rawFlags, hb.lazyMask, hlast ▸ hb.lastOp1, hb.lastResult, hb.lastOpSize⟩
  · match i with
    | 0 => exact (Executed.Has.of_is hcf hcs).mono (by omega)
    | 1 => exact .of_is hpf fpf
    | 2 => exact (Executed.Has.of_is haf faf).mono (by omega)
    | 3 => exact (Executed.Has.of_is hzf fzf).mono (by omega)
    | 4 => exact (Executed.Has.of_is hsf fsf).mono (by omega)
    | 5 => exact (Executed.Has.of_is hof hos).mono (by omega)

section
variable {u cf of r : Nat} {t : Bool} {o : Outcome} (hold : flags.Backs E s.size old)
  (hu : E.Is u (BitVec.ofBool t)) (hcf : E.Is cf (BitVec.ofBool o.cf))
  (hof : E.Is of (BitVec.ofBool o.of)) (hus : u < s.size) (hcs : cf < s.size) (hos : of < s.size)
include hold hu hcf hof hus hcs hos

/-- The backing after a rotate, which is the old one where the count is zero. -/
theorem preserveRotateBacking_spec : Sat E (preserveRotateBacking flags u cf of) s fun flags' s' =>
      flags'.Backs E s'.size (if t then old else old.afterRotate o) ∧
        flags'.arithmetic = flags.arithmetic ∧ flags'.zeroIsLazy = flags.zeroIsLazy := by
  obtain ⟨raw, hraw, hr, fr⟩ := hold.rawFlags
  obtain ⟨mask, hmask, hm, fm⟩ := hold.lazyMask
  unfold preserveRotateBacking
  rw [hraw, hmask]
  dsimp only
  refine (writeRawFlagBit_spec 0 hr hcf (by decide) (by omega) (by omega)).bind
    fun (r₁ : Nat) s₁ g₁ ⟨h₁, f₁⟩ => ?_
  refine (writeRawFlagBit_spec 11 h₁ hof (by decide) (by omega) (by omega)).bind
    fun (r₂ : Nat) s₂ g₂ ⟨h₂, f₂⟩ => ?_
  refine (const32_spec _).bind fun (clear : Nat) s₃ g₃ ⟨h₃, f₃⟩ => ?_
  refine (binary_spec hm h₃ rfl (by omega) (by omega)).bind fun (m₁ : Nat) s₄ g₄ ⟨h₄, f₄⟩ => ?_
  refine (select_spec hu hr h₂ (by omega) (by omega) (by omega)).bind
    fun (r₃ : Nat) s₅ g₅ ⟨h₅, f₅⟩ => ?_
  refine (select_spec hu hm h₄ (by omega) (by omega) (by omega)).bind
    fun (m₂ : Nat) s₆ g₆ ⟨h₆, f₆⟩ => ?_
  have hbacks := hold.mono (show s.size ≤ s₆.size by omega)
  have hraw' : E.Has s₆.size (some r₃) (if t then old else old.afterRotate o).flags :=
    (Executed.Has.of_is (by cases t <;> exact h₅) f₅).mono g₆
  have hmask' : E.Has s₆.size (some m₂) (if t then old else old.afterRotate o).flagsChanged :=
    .of_is (by cases t <;> exact h₆) f₆
  refine sat_pure ⟨⟨hraw', hmask', ?_, ?_, ?_⟩, rfl, rfl⟩
  · cases t <;> exact hbacks.lastOp1
  · cases t <;> exact hbacks.lastResult
  · cases t <;> exact hbacks.lastOpSize

/-- The backing after a shift, which is the old one where the count is zero. -/
theorem preserveShiftBacking_spec (hr : E.Is r o.raw) (hrs : r < s.size) :
    Sat E (preserveShiftBacking flags u r cf of w) s fun flags' s' =>
      flags'.Backs E s'.size (if t then old else old.afterShift w o) ∧
        flags'.arithmetic = flags.arithmetic ∧ flags'.zeroIsLazy = flags.zeroIsLazy := by
  obtain ⟨raw, hraw, hr₀, fr₀⟩ := hold.rawFlags
  obtain ⟨mask, hmask, hm, fm⟩ := hold.lazyMask
  obtain ⟨last, hlast, hl, fl⟩ := hold.lastResult
  obtain ⟨size, hsize, hz, fz⟩ := hold.lastOpSize
  unfold preserveShiftBacking
  rw [hraw, hmask, hlast, hsize]
  dsimp only
  refine (writeRawFlagBit_spec 0 hr₀ hcf (by decide) (by omega) (by omega)).bind
    fun (r₁ : Nat) s₁ g₁ ⟨h₁, f₁⟩ => ?_
  refine (writeRawFlagBit_spec 11 h₁ hof (by decide) (by omega) (by omega)).bind
    fun (r₂ : Nat) s₂ g₂ ⟨h₂, f₂⟩ => ?_
  refine (const32_spec _).bind fun (m₁ : Nat) s₃ g₃ ⟨h₃, f₃⟩ => ?_
  refine (asI32_spec hr (by omega)).bind fun (l₁ : Nat) s₄ g₄ ⟨h₄, f₄⟩ => ?_
  rw [setWidth_eq] at h₄
  refine (const32_spec _).bind fun (z₁ : Nat) s₅ g₅ ⟨h₅, f₅⟩ => ?_
  refine (select_spec hu hr₀ h₂ (by omega) (by omega) (by omega)).bind
    fun (r₃ : Nat) s₆ g₆ ⟨h₆, f₆⟩ => ?_
  refine (select_spec hu hm h₃ (by omega) (by omega) (by omega)).bind
    fun (m₂ : Nat) s₇ g₇ ⟨h₇, f₇⟩ => ?_
  refine (select_spec hu hl h₄ (by omega) (by omega) (by omega)).bind
    fun (l₂ : Nat) s₈ g₈ ⟨h₈, f₈⟩ => ?_
  refine (select_spec hu hz h₅ (by omega) (by omega) (by omega)).bind
    fun (z₂ : Nat) s₉ g₉ ⟨h₉, f₉⟩ => ?_
  have hbacks := hold.mono (show s.size ≤ s₉.size by omega)
  refine sat_pure ⟨⟨(Executed.Has.of_is ?_ f₆).mono (by omega), (Executed.Has.of_is ?_ f₇).mono (by omega),
    ?_, (Executed.Has.of_is ?_ f₈).mono (by omega), .of_is ?_ f₉⟩, rfl, rfl⟩
  · cases t <;> exact h₆
  · cases t <;> exact h₇
  · cases t <;> exact hbacks.lastOp1
  · cases t <;> exact h₈
  · cases t <;> exact h₉

end

variable {gpr : Vector ValueId 8} {g : Fin 8 → BitVec 32}

/-- A register operand. -/
theorem read_spec (hw : w = 16 ∨ w = 32) (hgpr : E.Registers s.size gpr g) (i : Fin 8) :
    Yields E (read gpr i w) s ((g i).setWidth w) := by
  obtain ⟨hi, fi⟩ := (hgpr i).get
  unfold read
  rcases hw with rfl | rfl
  · exact (extract_spec 16 0 hi (by decide) (by omega)).congr
      (setWidth_eq_extractLsb' (by decide)).symm
  · exact (show Yields E (pure gpr[i]) s _ from sat_pure ⟨hi, fi⟩).congr (setWidth_eq _).symm

theorem shifted_spec {double left : Bool} {value a : Nat} {v : BitVec w} (hw : w ∈ opWidths)
    (hdouble : double = true → w = 16 ∨ w = 32) (hk : k < 32)
    (hwrap : double = false → group = 2 ∨ group = 3 → k ≤ w) (hold : flags.Holds E s.size old)
    (hgpr : E.Registers s.size gpr g) (hv : E.Is value v) (ha : E.Is a (v.setWidth 32))
    (hn : E.Is n (BitVec.ofNat 32 k)) (hp : E.Is previous (BitVec.ofNat 32 k - 1))
    (hz : E.Is z (0 : BitVec 32)) (hvs : value < s.size) (has : a < s.size) (hns : n < s.size)
    (hps : previous < s.size) (hzs : z < s.size) :
    Computes E (shifted flags gpr double left group value a n previous z w) s k
      (if double then .double left w (v.setWidth 32) (((g (Fin.ofNat 8 group)).setWidth w).setWidth 32) k
        else shiftOutcome group w v k old.getcf) := by
  unfold shifted
  cases double with
  | true =>
    refine (read_spec (hdouble rfl) hgpr _).bind fun (source : Nat) s₁ g₁ ⟨hb, fb⟩ => ?_
    exact doubleShift_spec (hdouble rfl) hk ha hb hn hp (by omega) fb (by omega) (by omega)
  | false =>
    simp only [Bool.false_eq_true, if_false]
    unfold shiftOutcome
    split
    · next hrot =>
      obtain ⟨hc, fc⟩ := hold.carry.get
      exact rotate_spec hw hk (fun h => hwrap rfl (by omega)) ha hc hn hp hz has fc hns hps hzs
    · split
      · exact shiftLeft_spec hk ha hn has hns
      · exact shiftRight_spec hk hv ha hn hp hvs has hns hps

/-- What an operation that does something leaves. -/
def outcomeBacking (rotates : Bool) (w : Nat) (old : Backing) (o : Outcome) : Backing :=
  if rotates then old.afterRotate o else old.afterShift w o

/-- Whether the zero flag is lazy then. -/
def outcomeZero (rotates : Bool) (old : Backing) : Bool :=
  if rotates then old.flagsChanged.getLsbD 6 else true

theorem getters_outcome (hw : w ∈ opWidths) (rotates : Bool) (old : Backing) (o : Outcome) :
    (outcomeBacking rotates w old o).getters =
      outcomeFlags rotates w old o ((o.raw.setWidth w).setWidth 32) := by
  cases rotates with
  | true => exact Arith.getters_afterRotate old o
  | false => exact Arith.getters_afterShift hw old o rfl

theorem zero_outcome (rotates : Bool) (w : Nat) (old : Backing) (o : Outcome) :
    (outcomeBacking rotates w old o).flagsChanged.getLsbD 6 = outcomeZero rotates old := by
  cases rotates with
  | true =>
    refine (getLsbD_and ..).trans ?_
    rw [show (~~~(FLAG_CARRY ||| FLAG_OVERFLOW) : BitVec 32).getLsbD 6 = true by decide, Bool.and_true]
    rfl
  | false => exact show (FLAGS_ALL &&& ~~~FLAG_CARRY &&& ~~~FLAG_OVERFLOW).getLsbD 6 = true by decide

section
variable {sh : Shifted} {o : Outcome} {rotates : Bool}

theorem newFlags_spec {r : Nat} {res : BitVec 32} (hold : flags.Holds E s.size old) (hr : E.Is r res)
    (hrs : r < s.size) (hcf : E.Has s.size (some sh.cf) (BitVec.ofBool o.cf))
    (hof : E.Has s.size (some sh.of) (BitVec.ofBool o.of)) :
    Sat E (newFlags flags rotates r sh w) s fun flags' s' => Becomes E s'.size flags' old
      (outcomeFlags rotates w old o res) (outcomeZero rotates old) := by
  unfold newFlags outcomeFlags outcomeZero
  cases rotates with
  | true =>
    refine sat_pure ⟨⟨hold.rawFlags, hold.lazyMask, hold.lastOp1, hold.lastResult, hold.lastOpSize⟩,
      fun i => ?_, hold.zeroIsLazy⟩
    simp only [if_true, Fin.getElem_fin, Vector.getElem_set]
    split
    · exact hof
    · split
      · exact hcf
      · exact hold.arithmetic i
  | false =>
    obtain ⟨hcf, fcf⟩ := hcf.get
    obtain ⟨hof, fof⟩ := hof.get
    exact shiftFlags_spec hold.toBacks hr hcf hof hrs fcf fof

theorem preserveBacking_spec {u : Nat} {t : Bool} (hold : flags.Backs E s.size old)
    (hu : E.Is u (BitVec.ofBool t)) (hus : u < s.size) (hraw : E.Has s.size (some sh.raw) o.raw)
    (hcf : E.Has s.size (some sh.cf) (BitVec.ofBool o.cf))
    (hof : E.Has s.size (some sh.of) (BitVec.ofBool o.of)) :
    Sat E (preserveBacking flags rotates u sh w) s fun flags' s' =>
      flags'.Backs E s'.size (if t then old else outcomeBacking rotates w old o) ∧
        flags'.arithmetic = flags.arithmetic ∧ flags'.zeroIsLazy = flags.zeroIsLazy := by
  obtain ⟨hraw, fraw⟩ := hraw.get
  obtain ⟨hcf, fcf⟩ := hcf.get
  obtain ⟨hof, fof⟩ := hof.get
  unfold preserveBacking outcomeBacking
  cases rotates with
  | true => exact preserveRotateBacking_spec hold hu hcf hof hus fcf fof
  | false => exact preserveShiftBacking_spec hold hu hcf hof hus fcf fof hraw fraw

end

/-! ## Shifts as the interpreter has them -/

/-- The count of a shift instruction that is not zero if it does anything. -/
def shiftTimes (double : Bool) (group w count : Nat) : Nat :=
  if double then count else effective group w count

/-- The outcome of a shift instruction. -/
def operationOutcome (double left : Bool) (group : Nat) (v src : BitVec w) (n : Nat) (carry : Bool) :
    Outcome :=
  if double then .double left w (v.setWidth 32) (src.setWidth 32) n else shiftOutcome group w v n carry

/-- What the interpreter does, by the times that it shifts. -/
theorem shiftOperation_eq {double left : Bool} (hw : w ∈ opWidths)
    (hdouble : double = true → w = 16 ∨ w = 32) (hgroup : group < 8) (v src : BitVec w)
    {c : Nat} (hc : c < 32) (old : Backing) :
    shiftOperation double left group w (v.setWidth 32) (src.setWidth 32) c old =
      let k := shiftTimes double group w c
      let o := operationOutcome double left group v src k old.getcf
      if k = 0 then (v.setWidth 32, old)
      else ((o.raw.setWidth w).setWidth 32, outcomeBacking (!double && group < 4) w old o) := by
  dsimp only
  unfold shiftOperation shiftTimes operationOutcome
  cases double with
  | true =>
    refine (Arith.double_eq left (hdouble rfl) v src c old).trans ?_
    rfl
  | false =>
    simp only [Bool.false_eq_true, if_false]
    split
    · next h => exact Arith.shift_zero hw hgroup _ old h
    · next h =>
      rw [Arith.shift_eq hw hgroup v hc old h]
      unfold Backing.afterGroup outcomeBacking
      simp

theorem shiftTimes_bounds (double : Bool) (group : Nat) {c : Nat} (hw : w ∈ opWidths) (hc : c < 32) :
    shiftTimes double group w c < 32 ∧
      (double = false → group = 2 ∨ group = 3 → shiftTimes double group w c ≤ w) := by
  have hle := Arith.lt_of_mem_opWidths hw
  have hmod : c % (w + 1) ≤ w := Nat.le_of_lt_succ (Nat.mod_lt c (Nat.succ_pos w))
  have hmod' : c % (w + 1) ≤ c := Nat.mod_le ..
  unfold shiftTimes effective
  constructor
  · split
    · exact hc
    · split
      · omega
      · exact hc
  · rintro rfl hgroup
    rw [if_neg Bool.false_ne_true]
    split
    · exact hmod
    · next h =>
      have h32 : ¬ w < 32 := fun hlt => h ⟨hgroup, hlt⟩
      omega

theorem cut_spec {r : Nat} {raw : BitVec 32} (hw : w ∈ opWidths) (hr : E.Is r raw) (hrs : r < s.size) :
    Yields E (if w < 32 then withConstant .and r ((1 : BitVec 32) <<< w - 1) else pure r) s
      ((raw.setWidth w).setWidth 32) := by
  have hmask : w < 32 → raw &&& ((1 : BitVec 32) <<< w - 1) = (raw.setWidth w).setWidth 32 := by
    intro h
    rw [← Arith.and_opsizeToMask hw]
    simp only [opWidths, List.mem_cons, List.not_mem_nil, or_false] at hw
    rcases hw with rfl | rfl | rfl
    · rfl
    · rfl
    · cases Nat.lt_irrefl _ h
  split
  · next h => exact (withConstant_spec .and _ hr rfl (by omega)).congr (hmask h)
  · next h =>
    obtain rfl : w = 32 := by
      have := Arith.lt_of_mem_opWidths hw
      omega
    exact (show Yields E (pure r) s _ from sat_pure ⟨hr, hrs⟩).congr (by simp)

theorem isZero_spec {k n z : Nat} (hk : k < 32) (hn : E.Is n (BitVec.ofNat 32 k))
    (hz : E.Is z (0 : BitVec 32)) (hns : n < s.size) (hzs : z < s.size) :
    Yields E (binary .eq n z) s (BitVec.ofBool (decide (k = 0))) := by
  exact (test_spec hn hz rfl (by omega) (by omega)).congr
    (congrArg _ (test_ofNat hk (j := 0) (by decide)))

theorem widthType_eq (hw : w ∈ opWidths) : widthType w = .int w := by
  revert w
  decide

/-- The result is cut to the width at the end. -/
theorem result_spec {res : Nat} {x : BitVec 32} {flags : Flags} {after : Backing} (hw : w ∈ opWidths)
    (hres : E.Is res x) (hs : res < s.size) (hold : flags.Holds E s.size after) :
    Leaves E (if w = 32 then pure (res, flags) else do
      let res ← node .truncate [res] (widthType w)
      return (res, flags)) s x after w := by
  split
  · next h =>
    subst h
    exact sat_pure ⟨.of_is (by rwa [setWidth_eq]) hs, hold⟩
  · next h =>
    rw [widthType_eq hw]
    refine (truncate_spec w hres (mem_intWidths hw) (by omega)).bind
      fun (v : Nat) s₁ g₁ ⟨hv, fv⟩ => ?_
    exact sat_pure ⟨.of_is hv fv, hold.mono g₁⟩

/-- A shift instruction leaves what the interpreter's function does. -/
theorem calculate_spec {gpr : Vector ValueId 8} {g : Fin 8 → BitVec 32} {opcode : Nat}
    {modrm : BitVec 8} {value : Nat} {v : BitVec w} {c : BitVec 32} (hw : w ∈ opWidths)
    (hdouble : 255 < opcode → w = 16 ∨ w = 32) (hold : flags.Holds E s.size old)
    (hgpr : E.Registers s.size gpr g) (hv : E.Is value v) (hc : E.Is count c)
    (hvs : value < s.size) (hcs : count < s.size) :
    let group := (modrm >>> 3 &&& 7).toNat
    let after := shiftOperation (opcode > 255) (opcode &&& 8 = 0) group w (v.setWidth 32)
      (((g (Fin.ofNat 8 group)).setWidth w).setWidth 32) (c.toNat % 32) old
    Leaves E (calculate flags gpr opcode modrm value count w) s after.1 after.2 w := by
  dsimp only
  have hgroup : (modrm >>> 3 &&& 7).toNat < 8 := by
    rw [toNat_and]
    exact Nat.lt_of_le_of_lt Nat.and_le_right (by decide)
  have hcount : c.toNat % 32 < 32 := Nat.mod_lt _ (by decide)
  rw [shiftOperation_eq hw (fun h => hdouble (of_decide_eq_true h)) hgroup v _ hcount]
  unfold calculate
  generalize (modrm >>> 3 &&& 7).toNat = group at *
  generalize hd : decide (opcode > 255) = double at *
  generalize decide (opcode &&& 8 = 0) = left at *
  obtain ⟨hk, hwrap⟩ := shiftTimes_bounds double group hw hcount
  have hcountSpec : ∀ s', s.size ≤ s'.size → Yields E (effectiveCount double group w count) s'
      (BitVec.ofNat 32 (shiftTimes double group w (c.toNat % 32))) := fun s' g' =>
    effectiveCount_spec hw double hc (by omega)
  generalize shiftTimes double group w (c.toNat % 32) = k at *
  have hsource : double = true → w = 16 ∨ w = 32 := fun h => hdouble (of_decide_eq_true (hd.trans h))
  obtain ⟨zl, hzl, hzlIs, fzl⟩ := hold.zeroIsLazy
  dsimp only
  refine (wide_spec hv (by omega)).bind fun (a : Nat) s₁ g₁ ⟨ha, fa⟩ => ?_
  refine (hcountSpec s₁ g₁).bind fun (n : Nat) s₂ g₂ ⟨hn, fn⟩ => ?_
  refine (const32_spec 0).bind fun (z : Nat) s₃ g₃ ⟨hz, fz⟩ => ?_
  refine (isZero_spec hk hn hz (by omega) fz).bind fun (u : Nat) s₄ g₄ ⟨hu, fu⟩ => ?_
  refine (withConstant_spec .sub 1 hn rfl (by omega)).bind fun (previous : Nat) s₅ g₅ ⟨hp, fp⟩ => ?_
  refine (shifted_spec hw hsource hk hwrap (hold.mono (by omega)) (fun i => (hgpr i).mono (by omega))
    hv ha hn hp hz (by omega) (by omega) (by omega) fp (by omega)).bind
    fun sh s₆ g₆ ⟨o, hraw, hcf, hof, ho⟩ => ?_
  obtain ⟨hrawIs, fraw⟩ := hraw.get
  refine (cut_spec hw hrawIs fraw).bind fun (r : Nat) s₇ g₇ ⟨hr, fr⟩ => ?_
  refine (newFlags_spec (hold.mono (by omega)) hr fr (hcf.mono g₇) (hof.mono g₇)).bind
    fun flags₁ s₈ g₈ hnew => ?_
  refine (selectAll_spec hu (by omega) (fun i => (hold.arithmetic i).mono (by omega))
    hnew.arithmetic).bind fun ids s₉ g₉ hids => ?_
  obtain ⟨zl', hzl', hzlIs', fzl'⟩ := hnew.zeroIsLazy
  rw [hzl, hzl', Option.getD_some, Option.getD_some]
  refine (select_spec hu hzlIs hzlIs' (by omega) (by omega) (by omega)).bind
    fun (lz : Nat) s₁₀ g₁₀ ⟨hlz, flz⟩ => ?_
  have hbacks : Flags.Backs E s₁₀.size { flags₁ with arithmetic := ids, zeroIsLazy := some lz } old :=
    ⟨hnew.backs.rawFlags.mono (by omega), hnew.backs.lazyMask.mono (by omega),
      hnew.backs.lastOp1.mono (by omega), hnew.backs.lastResult.mono (by omega),
      hnew.backs.lastOpSize.mono (by omega)⟩
  refine (preserveBacking_spec hbacks hu (by omega) (hraw.mono (by omega)) (hcf.mono (by omega))
    (hof.mono (by omega))).bind fun flags₂ s₁₁ g₁₁ ⟨hb, harith, hzero⟩ => ?_
  refine (select_spec hu ha hr (by omega) (by omega) (by omega)).bind
    fun (res : Nat) s₁₂ g₁₂ ⟨hres, fres⟩ => ?_
  by_cases h : k = 0
  · rw [if_pos h]
    simp only [decide_eq_true h, if_true] at hres hids hlz hb
    refine result_spec hw hres fres ⟨hb.mono g₁₂, fun i => ?_, ?_⟩
    · rw [harith]
      exact (hids i).mono (by omega)
    · rw [hzero]
      exact .of_is hlz (by omega)
  · rw [if_neg h]
    simp only [decide_eq_false h, Bool.false_eq_true, if_false] at hres hids hlz hb
    obtain rfl := ho h
    refine result_spec hw hres fres ⟨hb.mono g₁₂, fun i => ?_, ?_⟩
    · rw [harith, getters_outcome hw]
      exact (hids i).mono (by omega)
    · rw [hzero, zero_outcome]
      exact .of_is hlz (by omega)

end

end Build

end V86.Ir
