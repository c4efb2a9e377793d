import V86.Ir.Eval
import V86.Ir.Verify

/-!
# Signatures of pure operations

What the verifier's check of a pure operation says about the types (`Op.Sig`), and that the value
of a well-typed pure operation is one of its result type.
-/

namespace V86.Ir

open Exec Verify BitVec

/-- The operand types and the result type of a pure operation. -/
def Op.Sig : Op → List Ty → Ty → Prop
  | .const n, args, ty => args = [] ∧ ∃ w, ty.bits = some w ∧ n.toNat < 2 ^ w
  | .binary op, args, ty => ∃ t w, t.bits = some w ∧ args = [t, t] ∧
      ty = if op.comparison then .i1 else t
  | .select, args, ty => args = [.i1, ty, ty]
  | .extend _, args, ty => ∃ t a w, args = [t] ∧ t.bits = some a ∧ ty.bits = some w ∧ a < w
  | .truncate, args, ty => ∃ t a w, args = [t] ∧ t.bits = some a ∧ ty.bits = some w ∧ w < a
  | .extract lsb, args, ty =>
      ∃ t a w, args = [t] ∧ t.bits = some a ∧ ty.bits = some w ∧ lsb + w ≤ a
  | .insert lsb, args, ty =>
      ∃ t a p, args = [ty, t] ∧ ty.bits = some a ∧ t.bits = some p ∧ lsb + p ≤ a
  | .countLeadingZeros, args, ty | .countTrailingZeros, args, ty | .populationCount, args, ty =>
      (ty = .i32 ∨ ty = .i64) ∧ args = [ty]
  | .linearOffset, args, ty => args = [.linearAddress, .i32] ∧ ty = .linearAddress
  | .vectorBitmask bits, args, ty => bits ∈ [8, 32, 64] ∧ args = [.v128] ∧ ty = .i32
  | .vectorBinary _, args, ty => args = [.v128, .v128] ∧ ty = .v128
  | .vectorShuffle lanes, args, ty =>
      args = [.v128, .v128] ∧ ty = .v128 ∧ ∀ lane ∈ lanes.toList, lane < 32
  | .vectorExtract bits lane, args, ty => bits ∈ [16, 32, 64] ∧ lane * bits < 128 ∧
      args = [.v128] ∧ ty = if bits = 64 then .i64 else .i32
  | .vectorReplace bits lane, args, ty => bits ∈ [16, 32, 64] ∧ lane * bits < 128 ∧
      args = [.v128, if bits = 64 then .i64 else .i32] ∧ ty = .v128
  | _, _, _ => False

variable {op : Op} {tys : List Ty} {ty : Ty}

theorem Op.pure_of_sig (h : op.Sig tys ty) : op.pure = true := by
  cases op <;> first | rfl | exact h.elim

/-- A pure operation whose result is neither a ticket nor an effect token has no such operand. -/
theorem Op.plain_tys (h : op.Sig tys ty)
    (hty : ty ≠ .rmwTicket ∧ ty ≠ .effect) : ∀ t ∈ tys, t ≠ .rmwTicket ∧ t ≠ .effect := by
  have hbits : ∀ {t : Ty} {w : Nat}, t.bits = some w → t ≠ .rmwTicket ∧ t ≠ .effect := by
    rintro t w h
    constructor <;> rintro rfl <;> cases h
  cases op with
  | const n =>
    obtain ⟨rfl, _⟩ := h
    simp
  | binary op =>
    obtain ⟨t, w, hw, rfl, _⟩ := h
    simpa using hbits hw
  | select =>
    obtain rfl : tys = [.i1, ty, ty] := h
    simpa using hty
  | extend _ | truncate | extract _ =>
    obtain ⟨t, a, w, rfl, ha, _⟩ := h
    simpa using hbits ha
  | insert lsb =>
    obtain ⟨t, a, p, rfl, _, hp, _⟩ := h
    simpa using ⟨hty, hbits hp⟩
  | countLeadingZeros | countTrailingZeros | populationCount =>
    obtain ⟨_, rfl⟩ := h
    simpa using hty
  | linearOffset | vectorBinary _ =>
    obtain ⟨rfl, _⟩ := h
    simp
  | vectorShuffle lanes =>
    obtain ⟨rfl, _⟩ := h
    simp
  | vectorBitmask bits =>
    obtain ⟨_, rfl, _⟩ := h
    simp
  | vectorExtract bits lane =>
    obtain ⟨_, _, rfl, _⟩ := h
    simp
  | vectorReplace bits lane =>
    obtain ⟨_, _, rfl, _⟩ := h
    split <;> simp
  | _ => exact h.elim

/-- A pure operation is off the effect chain. -/
theorem Op.not_ordered_of_pure (h : op.pure = true) : op.ordered = false := by
  cases op <;> first | rfl | cases h

/-- A pure operation neither commits nor traps, and has no ticket. -/
theorem Op.plain_of_pure (h : op.pure = true) : commits op = false ∧
    mayTrapAfterFault op = false ∧ isRmwStore op = false ∧ isRmwLoad op = false ∧
    ∀ n, op ≠ .partialStore n := by
  cases op <;> first | exact ⟨rfl, rfl, rfl, rfl, nofun⟩ | cases h

namespace Verify

variable {α : Type} {view : OpView α}

private theorem length_one {l : List Ty} : l.length = 1 ↔ ∃ t, l = [t] :=
  List.length_eq_one_iff

private theorem requireConversion_eq_ok {ok : Nat → Nat → Bool} :
    requireConversion view ok = .ok () ↔ ∃ ty t a w, view.results = [ty] ∧ view.args = [t] ∧
      t.bits = some a ∧ ty.bits = some w ∧ ok a w = true := by
  unfold requireConversion
  simp only [bind_eq_ok, require_eq_ok, okOr_eq_ok, Bool.and_eq_true, decide_eq_true_eq, length_one]
  constructor
  · rintro ⟨_, ⟨⟨t, ht⟩, ty, hty⟩, a, ha, w, hw, h⟩
    rw [ht] at ha
    rw [hty] at hw
    exact ⟨ty, t, a, w, hty, ht, ha, hw, h⟩
  · rintro ⟨ty, t, a, w, hty, ht, ha, hw, h⟩
    exact ⟨(), ⟨⟨t, ht⟩, ty, hty⟩, a, by rw [ht]; exact ha, w, by rw [hty]; exact hw, h⟩

/-- The verifier accepts a pure operation exactly with one result of a matching type. -/
theorem checkOp_pure [DecidableEq α] (hpure : view.op.pure = true) :
    checkOp view = .ok () ↔ ∃ ty, view.results = [ty] ∧ view.op.Sig view.args ty := by
  obtain ⟨op, args, results, argIds, state, commit, unmasked, entry, exits, helpers⟩ := view
  unfold checkOp Op.Sig
  cases op with
  | const n =>
    simp only [bind_eq_ok, require_eq_ok, okOr_eq_ok, Bool.and_eq_true,
      Bool.or_eq_true, decide_eq_true_eq, length_one, List.isEmpty_iff]
    constructor
    · rintro ⟨_, ⟨rfl, ty, rfl⟩, w, hw, h⟩
      refine ⟨ty, rfl, rfl, w, hw, h.elim (fun h => ?_) id⟩
      exact h ▸ n.isLt
    · rintro ⟨ty, rfl, rfl, w, hw, h⟩
      exact ⟨(), ⟨rfl, ty, rfl⟩, w, hw, .inr h⟩
  | binary op =>
    simp only [bind_eq_ok, require_eq_ok, Bool.and_eq_true, Bool.or_eq_true,
      decide_eq_true_eq, length_one]
    constructor
    · rintro ⟨_, ⟨hargs, ty, rfl⟩, _, ⟨hbits, heq⟩, hres⟩
      obtain ⟨t, t', rfl⟩ := List.length_eq_two.1 hargs
      obtain ⟨w, hw⟩ := Option.isSome_iff_exists.1 hbits
      simp only [List.getElem?_cons_zero, List.getElem?_cons_succ, Option.some.injEq] at heq
      subst heq
      refine ⟨ty, rfl, t, w, hw, rfl, ?_⟩
      cases op <;> simpa [Binary.comparison] using hres
    · rintro ⟨ty, rfl, t, w, hw, rfl, rfl⟩
      refine ⟨(), ⟨rfl, _, rfl⟩, (), ⟨by simp [hw], rfl⟩, ?_⟩
      cases op <;> simp [Binary.comparison]
  | countLeadingZeros | countTrailingZeros | populationCount =>
    simp only [require_eq_ok, Bool.and_eq_true, Bool.or_eq_true, decide_eq_true_eq]
    constructor
    · rintro ⟨⟨_, rfl | rfl⟩, rfl⟩
      · exact ⟨.i32, rfl, .inl rfl, rfl⟩
      · exact ⟨.i64, rfl, .inr rfl, rfl⟩
    · rintro ⟨ty, rfl, rfl | rfl, rfl⟩ <;> simp
  | select =>
    simp only [bind_eq_ok, require_eq_ok, Bool.and_eq_true, decide_eq_true_eq, length_one]
    constructor
    · rintro ⟨_, ⟨hargs, ty, rfl⟩, ⟨h1, h2⟩, h3⟩
      obtain ⟨c, x, y, rfl⟩ := List.length_eq_three.1 hargs
      simp only [List.getElem?_cons_zero, List.getElem?_cons_succ, Option.some.injEq] at h1 h2 h3
      exact ⟨ty, rfl, by rw [h1, ← h2, h3]⟩
    · rintro ⟨ty, rfl, rfl⟩
      exact ⟨(), ⟨rfl, ty, rfl⟩, ⟨rfl, rfl⟩, rfl⟩
  | extend _ | truncate | extract _ =>
    simp only [requireConversion_eq_ok, decide_eq_true_eq]
    constructor
    · rintro ⟨ty, t, a, w, h1, h2, h3, h4, h5⟩
      exact ⟨ty, h1, t, a, w, h2, h3, h4, h5⟩
    · rintro ⟨ty, h1, t, a, w, h2, h3, h4, h5⟩
      exact ⟨ty, t, a, w, h1, h2, h3, h4, h5⟩
  | insert lsb =>
    simp only [bind_eq_ok, require_eq_ok, okOr_eq_ok, Bool.and_eq_true,
      decide_eq_true_eq, length_one]
    constructor
    · rintro ⟨_, ⟨hargs, ty, rfl⟩, a, ha, p, hp, heq, h⟩
      obtain ⟨t, t', rfl⟩ := List.length_eq_two.1 hargs
      simp only [List.getElem?_cons_zero, Option.some.injEq] at heq
      subst heq
      exact ⟨ty, rfl, t', a, p, rfl, ha, hp, h⟩
    · rintro ⟨ty, rfl, t, a, p, rfl, ha, hp, h⟩
      exact ⟨(), ⟨rfl, ty, rfl⟩, a, ha, p, hp, rfl, h⟩
  | linearOffset | vectorBinary _ =>
    simp only [require_eq_ok, Bool.and_eq_true, decide_eq_true_eq]
    constructor
    · rintro ⟨h1, h2⟩
      exact ⟨_, h2, h1, rfl⟩
    · rintro ⟨ty, h1, h2, rfl⟩
      exact ⟨h2, h1⟩
  | vectorBitmask bits =>
    simp only [require_eq_ok, Bool.and_eq_true, decide_eq_true_eq, List.contains_eq_mem]
    constructor
    · rintro ⟨⟨h1, h2⟩, h3⟩
      exact ⟨_, h3, h1, h2, rfl⟩
    · rintro ⟨ty, h1, h2, h3, rfl⟩
      exact ⟨⟨h2, h3⟩, h1⟩
  | vectorShuffle lanes =>
    simp only [require_eq_ok, Bool.and_eq_true, decide_eq_true_eq, List.all_eq_true]
    constructor
    · rintro ⟨⟨h1, h2⟩, h3⟩
      exact ⟨_, h2, h1, rfl, h3⟩
    · rintro ⟨ty, h1, h2, rfl, h3⟩
      exact ⟨⟨h2, h1⟩, h3⟩
  | vectorExtract bits lane | vectorReplace bits lane =>
    simp only [require_eq_ok, Bool.and_eq_true, decide_eq_true_eq, List.contains_eq_mem]
    constructor
    · rintro ⟨⟨⟨h1, h2⟩, h3⟩, h4⟩
      exact ⟨_, h4, h1, h2, h3, rfl⟩
    · rintro ⟨ty, h1, h2, h3, h4, rfl⟩
      exact ⟨⟨⟨h2, h3⟩, h4⟩, h1⟩
  | _ => cases hpure

end Verify

/-! ## Values of the result type -/

/-- A value of fewer bits is of every wider type. -/
theorem Ty.fits_of_le {ty : Ty} {w : Nat} (h : w ≤ ty.width) (v : BitVec w) :
    ty.Fits (v.setWidth 128) := by
  unfold Ty.Fits
  refine eq_of_getLsbD_eq fun i hi => ?_
  have := ty.width_le
  simp only [getLsbD_setWidth]
  by_cases hw : i < w
  · simp [hi, hw, Nat.lt_of_lt_of_le hw h]
  · simp [getLsbD_of_ge v i (Nat.not_lt.1 hw)]

theorem Ty.bits_width {ty : Ty} {w : Nat} (h : ty.bits = some w) : ty.width = w :=
  (Ty.width_of_bits h).1

/-- Every value is a vector. -/
theorem Ty.fits_v128 (v : Val) : Ty.Fits .v128 v := by
  simp [Ty.Fits, Ty.width]

/-- An integer operation gives a value of the operand's type, a comparison gives one bit. -/
theorem Binary.eval_fits {op : Binary} {t : Ty} {x y : Val} :
    Ty.Fits (if op.comparison then .i1 else t) (op.eval t.width x y) := by
  cases op <;> exact Ty.fits_setWidth _ _

/-- A well-typed pure operation gives a value of its result type. -/
theorem Op.eval_fits {op : Op} {tys : List Ty} {ty : Ty} {args : List Val} (h : op.Sig tys ty)
    (hargs : List.Forall₂ Ty.Fits tys args) : ty.Fits (op.eval tys ty args) := by
  unfold Op.Sig at h
  unfold Op.eval
  cases op with
  | const n =>
    obtain ⟨rfl, w, hw, hn⟩ := h
    cases hargs
    have hfit : n.setWidth 128 = (n.setWidth ty.width).setWidth 128 := by
      refine eq_of_toNat_eq ?_
      rw [Ty.bits_width hw, toNat_setWidth, toNat_setWidth, toNat_setWidth, Nat.mod_eq_of_lt hn]
    dsimp only
    rw [hfit]
    exact ty.fits_setWidth _
  | binary op =>
    obtain ⟨t, w, _, rfl, rfl⟩ := h
    obtain _ | ⟨_, _ | ⟨_, _ | _⟩⟩ := hargs
    exact Binary.eval_fits
  | select =>
    subst h
    obtain _ | ⟨_, _ | ⟨hx, _ | ⟨hy, _ | _⟩⟩⟩ := hargs
    dsimp only
    split
    · exact hy
    · exact hx
  | extend signed =>
    obtain ⟨t, a, w, rfl, ha, hw, _⟩ := h
    obtain _ | ⟨_, _ | _⟩ := hargs
    cases signed <;> exact ty.fits_setWidth _
  | truncate | extract lsb =>
    obtain ⟨t, a, w, rfl, ha, hw, _⟩ := h
    obtain _ | ⟨_, _ | _⟩ := hargs
    exact ty.fits_setWidth _
  | insert lsb =>
    obtain ⟨t, a, p, rfl, ha, hp, _⟩ := h
    obtain _ | ⟨_, _ | ⟨_, _ | _⟩⟩ := hargs
    exact ty.fits_setWidth _
  | countLeadingZeros | countTrailingZeros | populationCount =>
    obtain ⟨_, rfl⟩ := h
    obtain _ | ⟨_, _ | _⟩ := hargs
    exact ty.fits_setWidth _
  | linearOffset =>
    obtain ⟨rfl, rfl⟩ := h
    obtain _ | ⟨_, _ | ⟨_, _ | _⟩⟩ := hargs
    exact Ty.fits_setWidth .linearAddress _
  | vectorBitmask bits =>
    obtain ⟨_, rfl, rfl⟩ := h
    obtain _ | ⟨_, _ | _⟩ := hargs
    exact Ty.fits_setWidth .i32 _
  | vectorBinary op =>
    obtain ⟨_, rfl⟩ := h
    exact Ty.fits_v128 _
  | vectorShuffle lanes =>
    obtain ⟨_, rfl, _⟩ := h
    exact Ty.fits_v128 _
  | vectorExtract bits lane =>
    obtain ⟨hbits, _, rfl, rfl⟩ := h
    obtain _ | ⟨_, _ | _⟩ := hargs
    refine Ty.fits_of_le ?_ _
    simp only [List.mem_cons, List.not_mem_nil, or_false] at hbits
    rcases hbits with rfl | rfl | rfl <;> decide
  | vectorReplace bits lane =>
    obtain ⟨_, _, _, rfl⟩ := h
    exact Ty.fits_v128 _
  | _ => exact h.elim

end V86.Ir
