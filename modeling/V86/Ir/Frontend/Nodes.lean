import V86.Ir.Frontend.Integer

/-!
# What the nodes of a builder compute

An id `Is` a bit vector if it has the integer type of its width and holds it. One lemma for each
way to append a node says what the new id is.
-/

namespace V86.Ir

open BitVec

section
variable {w : Nat} (h : w ∈ intWidths)
include h

theorem Ty.bits_int : (Ty.int w).bits = some w := by
  revert w
  decide

theorem Ty.width_int : (Ty.int w).width = w := by
  revert w
  decide

theorem le_of_mem_intWidths : 0 < w ∧ w ≤ 32 := by
  revert w
  decide

theorem eq_of_int_eq (hty : Ty.int w = .i32) : w = 32 := by
  revert w
  decide

/-- The mask of `constant` keeps the low bits. -/
theorem and_lowMask (n : BitVec 32) :
    (n &&& if w ≥ 32 then BitVec.allOnes 32 else (1 <<< w) - 1) = (n.setWidth w).setWidth 32 := by
  have key : ∀ k : Nat, k < 32 → n &&& BitVec.ofNat 32 (2 ^ k - 1) = (n.setWidth k).setWidth 32 := by
    intro k hk
    apply eq_of_toNat_eq
    have : 2 ^ k - 1 < 2 ^ 32 := by
      have := Nat.pow_lt_pow_right (a := 2) (by decide) hk
      omega
    rw [toNat_and, toNat_ofNat, Nat.mod_eq_of_lt this,
      Nat.and_two_pow_sub_one_eq_mod, toNat_setWidth, toNat_setWidth]
    exact (Nat.mod_eq_of_lt (Nat.lt_of_le_of_lt (Nat.mod_le ..) n.isLt)).symm
  simp only [intWidths, List.mem_cons, List.not_mem_nil, or_false] at h
  rcases h with rfl | rfl | rfl | rfl
  · exact key 1 (by decide)
  · exact key 8 (by decide)
  · exact key 16 (by decide)
  · rw [if_pos (by decide), and_allOnes, setWidth_eq, setWidth_eq]

end

/-- An operation that is not a comparison. -/
def Binary.apply (op : Binary) {w : Nat} (x y : BitVec w) : BitVec w :=
  match op with
  | .add => x + y
  | .sub => x - y
  | .mul => x * y
  | .and => x &&& y
  | .or => x ||| y
  | .xor => x ^^^ y
  | .shl => x <<< shiftCount w y
  | .shr => x >>> shiftCount w y
  | .sar => x.sshiftRight (shiftCount w y)
  | _ => 0

/-- A comparison. -/
def Binary.test (op : Binary) {w : Nat} (x y : BitVec w) : Bool :=
  match op with
  | .eq => x == y
  | .ult => x.ult y
  | _ => x.slt y

theorem setWidth_setWidth_val {w : Nat} (h : w ∈ intWidths) (x : BitVec w) :
    (x.setWidth 128).setWidth w = x := by
  rw [setWidth_setWidth_of_le _ (by have := le_of_mem_intWidths h; omega), setWidth_eq]

theorem Binary.eval_apply {op : Binary} {w : Nat} (hw : w ∈ intWidths) (hop : op.comparison = false)
    (x y : BitVec w) : op.eval w (x.setWidth 128) (y.setWidth 128) = (op.apply x y).setWidth 128 := by
  cases op <;> first
    | rw [Binary.eval, setWidth_setWidth_val hw, setWidth_setWidth_val hw]; rfl
    | cases hop

theorem Binary.eval_test {op : Binary} {w : Nat} (hw : w ∈ intWidths) (hop : op.comparison = true)
    (x y : BitVec w) :
    op.eval w (x.setWidth 128) (y.setWidth 128) = (BitVec.ofBool (op.test x y)).setWidth 128 := by
  cases op <;> first
    | rw [Binary.eval, setWidth_setWidth_val hw, setWidth_setWidth_val hw]; rfl
    | cases hop

namespace Build

variable {E : Executed} {s : Site} {a b c : Nat} {w : Nat} {x y : BitVec w}

/-- What a program builds is an id of the value `x`. -/
def Yields (E : Executed) (p : Build ValueId) (s : Site) {w : Nat} (x : BitVec w) : Prop :=
  Sat E p s fun (v : Nat) s' => E.Is v x ∧ v < s'.size

theorem node_spec {op : Op} {args : List ValueId} {w : Nat} (x : BitVec w)
    (hop : op.pure = true) (hargs : ∀ a ∈ args, a < s.size) (hw : w ∈ intWidths)
    (hval : op.eval (args.map E.region.ty) (.int w) (args.map E.env) = x.setWidth 128) :
    Yields E (node op args (.int w)) s x :=
  (sat_node hop hargs).mono fun _ _ h => ⟨⟨h.2.1, h.2.2.trans hval, hw⟩, h.1⟩

theorem constant_spec (w : Nat) (n : BitVec 32) (hw : w ∈ intWidths) :
    Yields E (constant n (.int w)) s (n.setWidth w) := by
  rw [constant, Ty.bits_int hw]
  refine node_spec _ rfl nofun hw ?_
  change ((n &&& _).setWidth 64).setWidth 128 = _
  rw [Option.getD_some, and_lowMask hw]
  have hle := le_of_mem_intWidths hw
  rw [setWidth_setWidth (by omega), setWidth_setWidth (by omega)]

theorem binary_spec {op : Binary} (ha : E.Is a x) (hb : E.Is b y)
    (hop : op.comparison = false) (has : a < s.size)
    (hbs : b < s.size) : Yields E (binary op a b) s (op.apply x y) := by
  rw [binary, if_neg (by simp [hop])]
  refine (sat_ty has).bind fun t s' _ ⟨ht, hs'⟩ => ?_
  subst hs'
  rw [ht, ha.ty]
  refine node_spec _ rfl (by simp [has, hbs]) ha.width ?_
  change op.eval (E.region.ty a).width (E.env a) (E.env b) = _
  rw [ha.ty, ha.val, hb.val, Ty.width_int ha.width, Binary.eval_apply ha.width hop]

theorem test_spec {op : Binary} (ha : E.Is a x) (hb : E.Is b y)
    (hop : op.comparison = true) (has : a < s.size) (hbs : b < s.size) :
    Yields E (binary op a b) s (BitVec.ofBool (op.test x y)) := by
  rw [binary, if_pos hop]
  refine node_spec (w := 1) _ rfl (by simp [has, hbs]) (by decide) ?_
  change op.eval (E.region.ty a).width (E.env a) (E.env b) = _
  rw [ha.ty, ha.val, hb.val, Ty.width_int ha.width, Binary.eval_test ha.width hop]

theorem extract_spec (p lsb : Nat) (ha : E.Is a x) (hp : p ∈ intWidths) (has : a < s.size) :
    Yields E (extract a lsb (.int p)) s (x.extractLsb' lsb p) := by
  refine node_spec _ rfl (by simp [has]) hp ?_
  change (((E.env a).setWidth (E.region.ty a).width).extractLsb' lsb (Ty.int p).width).setWidth 128 = _
  rw [ha.ty, ha.val, Ty.width_int ha.width, Ty.width_int hp, setWidth_setWidth_val ha.width]

section
variable (p : Nat) (ha : E.Is a x) (hp : p ∈ intWidths) (has : a < s.size)
include p ha hp has

theorem extend_spec : Yields E (node (.extend false) [a] (.int p)) s (x.setWidth p) := by
  refine node_spec _ rfl (by simp [has]) hp ?_
  change (((E.env a).setWidth (E.region.ty a).width).setWidth (Ty.int p).width).setWidth 128 = _
  rw [ha.ty, ha.val, Ty.width_int ha.width, Ty.width_int hp, setWidth_setWidth_val ha.width]

theorem signExtend_spec : Yields E (node (.extend true) [a] (.int p)) s (x.signExtend p) := by
  refine node_spec _ rfl (by simp [has]) hp ?_
  change (((E.env a).setWidth (E.region.ty a).width).signExtend (Ty.int p).width).setWidth 128 = _
  rw [ha.ty, ha.val, Ty.width_int ha.width, Ty.width_int hp, setWidth_setWidth_val ha.width]

theorem truncate_spec : Yields E (node .truncate [a] (.int p)) s (x.setWidth p) := by
  refine node_spec _ rfl (by simp [has]) hp ?_
  change (((E.env a).setWidth (E.region.ty a).width).setWidth (Ty.int p).width).setWidth 128 = _
  rw [ha.ty, ha.val, Ty.width_int ha.width, Ty.width_int hp, setWidth_setWidth_val ha.width]

end

theorem select_spec {t : Bool} (hc : E.Is c (BitVec.ofBool t)) (ha : E.Is a x) (hb : E.Is b y)
    (hcs : c < s.size) (has : a < s.size) (hbs : b < s.size) :
    Yields E (select c a b) s (if t then x else y) := by
  refine (sat_ty has).bind fun ty s' _ ⟨ht, hs'⟩ => ?_
  subst hs'
  rw [ht, ha.ty]
  refine node_spec _ rfl (by simp [has, hbs, hcs]) ha.width ?_
  change (if E.env c = 0 then E.env b else E.env a) = _
  rw [ha.val, hb.val, hc.val]
  cases t <;> rfl

theorem asI32_spec (ha : E.Is a x) (has : a < s.size) : Yields E (asI32 a) s (x.setWidth 32) := by
  refine (sat_ty has).bind fun ty s' _ ⟨ht, hs'⟩ => ?_
  subst hs'
  rw [ht, ha.ty]
  split
  case isTrue h =>
    refine sat_pure ⟨⟨ha.ty.trans h, ha.val.trans ?_, by decide⟩, has⟩
    obtain rfl : w = 32 := eq_of_int_eq ha.width h
    rw [setWidth_eq]
  case isFalse => exact extend_spec 32 ha (by decide) (by omega)

attribute [local simp] Binary.apply

end Build

end V86.Ir
