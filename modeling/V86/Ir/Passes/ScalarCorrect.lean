import V86.Ir.Passes.Scalar

/-!
# Scalar identities are sound

Every entry of the tables of `Scalar.plan` is about values (`Facts`): an alias may replace its
value, a constant is the value at every reachable state. What `Scalar.identity` finds keeps this
whatever order the candidates are visited in; the order matters only for the visit to reach all of
them, which is the acyclicity of SSA definitions (`WF.exists_rank`) through `Kahn.Queue`.
-/

namespace V86.Ir.Scalar

open Exec Verify List Function
open BitVec hiding not_not or_comm

/-! ## Identities of operations -/

theorem toNat_mask {w : Nat} (h : w ≤ 64) : (mask w).toNat = 2 ^ w - 1 := by
  unfold mask
  split
  · next h => subst h; decide
  · next hne =>
    have hlt : w < 64 := by omega
    have hpow : 2 ^ w < 2 ^ 64 := Nat.pow_lt_pow_right (by omega) hlt
    have hpos : 0 < 2 ^ w := Nat.two_pow_pos w
    rw [toNat_sub, toNat_shiftLeft]
    simp [Nat.shiftLeft_eq]
    omega

theorem setWidth_mask {w : Nat} (h : w ≤ 64) : (mask w).setWidth w = BitVec.allOnes w := by
  apply eq_of_toNat_eq
  rw [toNat_setWidth, toNat_mask h, toNat_allOnes, Nat.mod_eq_of_lt]
  have := Nat.two_pow_pos w
  omega

/-- The rewrites of a binary operation on operands of `w` bits. -/
def BinaryShape (op : Binary) (w : Nat) (a b : ValueId) : Rewrite → Prop
  | .value v => op.comparison = false ∧ (v = a ∨ v = b)
  | .constant n => n.toNat < 2 ^ (if op.comparison then 1 else w)

/-- What a rewrite of a binary operation says about its value. -/
def BinarySound (op : Binary) (w : Nat) (a b : ValueId) (x y : Val) : Rewrite → Prop
  | .value v => v = a ∧ op.eval w x y = x ∨ v = b ∧ op.eval w x y = y
  | .constant n => op.eval w x y = n.setWidth 128

variable {op : Binary} {w : Nat} {a b : ValueId} {x y : Val} {ca cb : Option (BitVec 64)}
  {rewrite : Rewrite}

theorem sameIdentity_shape (h : sameIdentity op a = some rewrite) :
    BinaryShape op w a a rewrite := by
  have hpos : 0 < 2 ^ w := Nat.two_pow_pos w
  cases op <;> simp only [sameIdentity, Option.some.injEq, reduceCtorEq] at h <;> subst h <;>
    simp [BinaryShape, Binary.comparison, hpos]

theorem literalIdentity_shape (hw : w ≤ 64) (h : literalIdentity op w a b ca cb = some rewrite) :
    BinaryShape op w a b rewrite := by
  have hpos : 0 < 2 ^ w := Nat.two_pow_pos w
  have hmask : (mask w).toNat < 2 ^ w := by rw [toNat_mask hw]; omega
  cases op <;> simp only [literalIdentity] at h <;> grind [BinaryShape, Binary.comparison]

theorem sameIdentity_sound (hx : (x.setWidth w).setWidth 128 = x)
    (h : sameIdentity op a = some rewrite) : BinarySound op w a a x x rewrite := by
  cases op <;> simp only [sameIdentity, Option.some.injEq, reduceCtorEq] at h <;> subst h
  · simp [BinarySound, Binary.eval]
  · simp [BinarySound, Binary.eval, hx]
  · simp [BinarySound, Binary.eval, hx]
  · simp [BinarySound, Binary.eval]
  · simp [BinarySound, Binary.eval]
  · simp [BinarySound, Binary.eval, BitVec.ult]
  · simp [BinarySound, Binary.eval, BitVec.slt]

section
variable {c : BitVec 64} (hw : w ≤ 64) (hx : (x.setWidth w).setWidth 128 = x)
  (hc : x = c.setWidth 128)
include hw hx hc

/-- A literal operand of `w` bits. -/
theorem literal_toNat : (x.setWidth w).toNat = c.toNat := by
  have h1 := congrArg BitVec.toNat hx
  rw [toNat_setWidth, Nat.mod_eq_of_lt (Nat.lt_of_lt_of_le (BitVec.isLt _)
    (Nat.pow_le_pow_right (by omega) (by omega)))] at h1
  rw [h1, hc, toNat_setWidth, Nat.mod_eq_of_lt]
  exact Nat.lt_of_lt_of_le c.isLt (Nat.pow_le_pow_right (by omega) (by omega))

theorem literal_eq : x.setWidth w = c.setWidth w := by
  apply eq_of_toNat_eq
  rw [literal_toNat hw hx hc, toNat_setWidth, Nat.mod_eq_of_lt]
  exact literal_toNat hw hx hc ▸ BitVec.isLt _

theorem shiftCount_literal (hz : c &&& (if w = 64 then 63 else 31) = 0) :
    shiftCount w (x.setWidth w) = 0 := by
  rw [shiftCount, literal_toNat hw hx hc]
  have hz := congrArg BitVec.toNat hz
  split at hz
  · next h =>
    rw [if_pos h]
    simpa [Nat.and_two_pow_sub_one_eq_mod c.toNat 6] using hz
  · next h =>
    rw [if_neg h]
    simpa [Nat.and_two_pow_sub_one_eq_mod c.toNat 5] using hz

end

/-- Zero is neutral on the right. -/
theorem eval_zero_right (hop : op = .add ∨ op = .sub ∨ op = .or ∨ op = .xor)
    (hx : (x.setWidth w).setWidth 128 = x) (hzero : y.setWidth w = (0 : BitVec 64).setWidth w) :
    op.eval w x y = x := by
  rcases hop with rfl | rfl | rfl | rfl <;> simp [Binary.eval, hzero, hx]

theorem eval_zero_left (hop : op = .add ∨ op = .or ∨ op = .xor)
    (hy : (y.setWidth w).setWidth 128 = y) (hzero : x.setWidth w = (0 : BitVec 64).setWidth w) :
    op.eval w x y = y := by
  rcases hop with rfl | rfl | rfl <;> simp [Binary.eval, hzero, hy]

/-- Zero absorbs the other operand. -/
theorem eval_absorbs (hop : op = .mul ∨ op = .and) (hzero : x.setWidth w = (0 : BitVec 64).setWidth w ∨
    y.setWidth w = (0 : BitVec 64).setWidth w) : op.eval w x y = (0 : BitVec 64).setWidth 128 := by
  rcases hop with rfl | rfl <;> rcases hzero with hzero | hzero <;> simp [Binary.eval, hzero]

theorem eval_ones (hw : w ≤ 64) (hop : op = .or) (hones : x.setWidth w = (mask w).setWidth w ∨
    y.setWidth w = (mask w).setWidth w) : op.eval w x y = (mask w).setWidth 128 := by
  have hall : (BitVec.allOnes w).setWidth 128 = (mask w).setWidth 128 := by
    apply eq_of_toNat_eq
    simp [toNat_mask hw]
  subst hop
  rcases hones with hones | hones <;> simp [Binary.eval, hones, setWidth_mask hw, hall]

/-- Each rule for a literal is an equation of the operation: it is neutral, or it absorbs. -/
theorem literalIdentity_sound (hw : w ≤ 64) (hx : (x.setWidth w).setWidth 128 = x)
    (hy : (y.setWidth w).setWidth 128 = y) (hca : ∀ c, ca = some c → x = c.setWidth 128)
    (hcb : ∀ c, cb = some c → y = c.setWidth 128)
    (h : literalIdentity op w a b ca cb = some rewrite) : BinarySound op w a b x y rewrite := by
  have hX := fun {c : BitVec 64} (h : ca = some c) => literal_eq hw hx (hca _ h)
  have hY := fun {c : BitVec 64} (h : cb = some c) => literal_eq hw hy (hcb _ h)
  have hone : (1 : BitVec 64).setWidth w = 1#w := by
    apply eq_of_toNat_eq
    simp
  cases op with
  | add | or | xor =>
    simp only [literalIdentity] at h
    split at h
    · next hc =>
      cases h
      exact .inl ⟨rfl, eval_zero_right (by simp) hx (hY hc)⟩
    split at h
    · next hc =>
      cases h
      exact .inr ⟨rfl, eval_zero_left (by simp) hy (hX hc)⟩
    split at h
    · next hc =>
      cases h
      obtain ⟨hop, hc⟩ := Bool.and_eq_true_iff.1 hc
      rw [Bool.or_eq_true, decide_eq_true_eq, decide_eq_true_eq] at hc
      exact eval_ones hw (of_decide_eq_true hop) (hc.imp hX hY)
    · cases h
  | sub =>
    simp only [literalIdentity] at h
    split at h
    · next hc =>
      cases h
      exact .inl ⟨rfl, eval_zero_right (by simp) hx (hY hc)⟩
    · cases h
  | mul =>
    simp only [literalIdentity, Bool.or_eq_true, decide_eq_true_eq] at h
    split at h
    · next hc =>
      cases h
      exact eval_absorbs (by simp) (hc.imp hX hY)
    split at h
    · next hc =>
      cases h
      exact .inl ⟨rfl, by simp only [Binary.eval, hY hc, hone, BitVec.mul_one, hx]⟩
    split at h
    · next hc =>
      cases h
      exact .inr ⟨rfl, by simp only [Binary.eval, hX hc, hone, BitVec.one_mul, hy]⟩
    · cases h
  | and =>
    simp only [literalIdentity, Bool.or_eq_true, decide_eq_true_eq] at h
    split at h
    · next hc =>
      cases h
      exact eval_absorbs (by simp) (hc.imp hX hY)
    split at h
    · next hc =>
      cases h
      exact .inl ⟨rfl, by simp [Binary.eval, hY hc, setWidth_mask hw, hx]⟩
    split at h
    · next hc =>
      cases h
      exact .inr ⟨rfl, by simp [Binary.eval, hX hc, setWidth_mask hw, hy]⟩
    · cases h
  | shl | shr | sar =>
    by_cases hc : (cb.any fun n => n &&& (if w = 64 then 63 else 31) = 0) = true
    · rw [literalIdentity, if_pos hc] at h
      cases h
      obtain ⟨c, rfl⟩ | rfl : (∃ c, cb = some c) ∨ cb = none := by cases cb <;> simp
      · have hcount := shiftCount_literal hw hy (hcb c rfl) (of_decide_eq_true hc)
        exact .inl ⟨rfl, by simp [Binary.eval, hcount, hx]⟩
      · cases hc
    · rw [literalIdentity, if_neg hc] at h
      cases h
  | eq | ult | slt => cases h

theorem setWidth_setWidth_128 {w : Nat} (hw : w ≤ 128) (x : BitVec w) :
    (x.setWidth 128).setWidth w = x := by
  rw [setWidth_setWidth_of_le _ hw, setWidth_eq]

theorem setWidth_signExtend {p a : Nat} (h : p ≤ a) (s : BitVec p) :
    (s.signExtend a).setWidth p = s := by
  ext i hi
  simp [getElem_signExtend, hi, show i < a by omega]

theorem extractLsb'_zero_eq {w : Nat} (p : Nat) (x : BitVec w) :
    x.extractLsb' 0 p = x.setWidth p := by
  ext i hi
  simp

theorem extract_insertBits {w p lsb : Nat} (hw : w ≤ 128) (h : lsb + p ≤ w) (x y : Val) :
    ((insertBits w p lsb x y).setWidth w).extractLsb' lsb p = y.setWidth p := by
  unfold insertBits
  rw [setWidth_setWidth_128 hw]
  ext i hi
  simp [hi, show lsb + i < w by omega, show ¬ lsb + i < lsb by omega]

theorem insertBits_extract {w p lsb : Nat} (hw : w ≤ 128) (h : lsb + p ≤ w) (x : Val)
    (hx : (x.setWidth w).setWidth 128 = x) :
    insertBits w p lsb x (((x.setWidth w).extractLsb' lsb p).setWidth 128) = x := by
  unfold insertBits
  conv_rhs => rw [← hx]
  refine congrArg (BitVec.setWidth 128) ?_
  rw [setWidth_setWidth_128 (by omega)]
  ext i hi
  by_cases h1 : i < lsb
  · simp [h1]
  · by_cases h2 : i - lsb < p
    · simp [hi, h1, h2, show lsb + (i - lsb) = i by omega]
    · simp [h1, h2]

/-- The low bits of an extension are its operand. -/
theorem low_extend {t ty : Ty} (h : t.width ≤ ty.width) (signed : Bool) (x : Val) :
    ((Op.eval (.extend signed) [t] ty [x]).setWidth ty.width).extractLsb' 0 t.width =
      x.setWidth t.width := by
  rw [extractLsb'_zero_eq]
  cases signed with
  | true =>
    simp only [Op.eval, headD_cons]
    rw [setWidth_setWidth_128 ty.width_le, setWidth_signExtend h]
  | false =>
    simp only [Op.eval, headD_cons]
    rw [setWidth_setWidth_128 ty.width_le, setWidth_setWidth_of_le _ h, setWidth_eq]

/-- An inserted part can be extracted. -/
theorem extract_insert {t p ty : Ty} {lsb : Nat} (h : lsb + p.width ≤ t.width) (x y : Val) :
    ((Op.eval (.insert lsb) [t, p] ty [x, y]).setWidth t.width).extractLsb' lsb p.width =
      y.setWidth p.width :=
  extract_insertBits t.width_le h x y

/-- Inserting what was extracted changes nothing. -/
theorem insert_extract {t p ty : Ty} {lsb : Nat} (h : lsb + p.width ≤ t.width) {x : Val}
    (hx : t.Fits x) : Op.eval (.insert lsb) [t, p] ty [x, Op.eval (.extract lsb) [t] p [x]] = x :=
  insertBits_extract t.width_le h x hx

/-! ## Candidates -/

section
variable {r : Region} {b d : BlockId} {blk dblk : Block} {pre post : List InstId} {id : InstId}
  {i inner : Instruction} {v u : ValueId} {aliases : List ValueId}
  {constants : List (Option (BitVec 64))} {e : Env}

/-- A listed candidate with its place and its result. -/
structure Cand (r : Region) (b : BlockId) (blk : Block) (pre post : List InstId) (id : InstId)
    (i : Instruction) (v : ValueId) : Prop where
  block : r.blocks[b]? = some blk
  split : blk.instructions = pre ++ id :: post
  get : r.instructions[id]? = some i
  results : i.results = [v]
  op : scalarOp i.op = true
  state : i.state = none
  bits : (r.ty v).bits.isSome = true

theorem scalarOp_pure {op : Op} (h : scalarOp op = true) : op.pure = true := by
  cases op <;> first | rfl | cases h

theorem Cand.mem (h : Cand r b blk pre post id i v) : id ∈ blk.instructions := by
  simp [h.split]

theorem Cand.pure (h : Cand r b blk pre post id i v) : i.op.pure = true := scalarOp_pure h.op

theorem Cand.sig (hwf : WF r) (h : Cand r b blk pre post id i v) :
    i.op.Sig (i.args.map r.ty) (r.ty v) := by
  obtain ⟨c, c', _, hok⟩ := hwf.instOk h.block h.split h.get
  obtain ⟨w, hw, hsig⟩ := hok.pure_sig h.pure
  cases h.results.symm.trans hw
  exact hsig

theorem Cand.avail (hwf : WF r) (h : Cand r b blk pre post id i v) {a : ValueId}
    (ha : a ∈ i.args) : Avail r b pre a := by
  obtain ⟨c, c', _, hok⟩ := hwf.instOk h.block h.split h.get
  exact hok.args a ha

theorem Cand.prefix_ (h : Cand r b blk pre post id i v) : pre <+: blk.instructions :=
  ⟨_, h.split.symm⟩

variable {pre' post' : List InstId} {data : Value} {c : Option (BitVec 64)} {id' : InstId}
  {lsb : Nat}

/-- The value of a candidate at a reachable state, and its operands. -/
theorem Cand.value (hwf : WF r) (h : Cand r b blk pre post id i v) (hat : r.At d pre' e)
    (hv : Avail r d pre' v) : e v = i.op.eval (i.args.map r.ty) (r.ty v) (i.args.map e) ∧
      ∀ a ∈ i.args, Avail r d pre' a ∧ (r.ty a).Fits (e a) := by
  obtain ⟨⟨dblk, hd, hpre⟩, hsound⟩ := hat.sound hwf
  have hmem : v ∈ i.results := by simp [h.results]
  refine ⟨?_, fun a ha => ?_⟩
  · rw [hsound.pure h.block h.mem h.get h.pure hmem hv, Region.evalInst, h.results]
    rfl
  · have hav := hv.arg hwf hd hpre h.block h.mem h.get hmem ha
    exact ⟨hav, hsound.fits hav⟩

theorem candidate_gives (hwf : WF r) (hb : r.blocks[b]? = some blk)
    (hsplit : blk.instructions = pre ++ id :: post) (hi : r.instructions[id]? = some i) :
    Gives (candidate r i) fun c => c = true → ∃ v, Cand r b blk pre post id i v := by
  unfold candidate
  split
  · exact .ok nofun
  · next hone =>
    obtain ⟨v, hres⟩ := List.length_eq_one_iff.1 (Decidable.not_not.1 hone)
    obtain ⟨inst, hinst, _, hslot⟩ := hwf.inst hb (show id ∈ blk.instructions by simp [hsplit])
    cases hi.symm.trans hinst
    obtain ⟨ty, hslot⟩ := hslot (k := 0) (v := v) (by simp [hres])
    rw [hres, idx_cons_zero, ok_bind, idx_eq_ok.2 hslot]
    refine .ok fun hc => ?_
    simp only [Bool.and_eq_true, Option.isNone_iff_eq_none] at hc
    exact ⟨v, hb, hsplit, hi, hres, hc.2, hc.1.1.1.1.2, by simpa [Region.ty, hslot] using hc.1.1.1.1.1⟩

/-! ## The tables -/

/-- What the tables of the plan say about values. -/
structure Facts (r : Region) (aliases : List ValueId) (constants : List (Option (BitVec 64))) :
    Prop where
  length_aliases : aliases.length = r.values.length
  length_constants : constants.length = r.values.length
  rep : ∀ {v w : ValueId}, aliases[v]? = some w → Replaces r w v
  fix : ∀ {v w : ValueId}, aliases[v]? = some w → (r.ty v).bits = none → w = v
  const : ∀ {v : ValueId} {c : BitVec 64}, constants[v]? = some (some c) →
    ∀ {b : BlockId} {pre : List InstId} {e : Env}, r.At b pre e → Avail r b pre v →
      e v = c.setWidth 128

/-- A rewrite that may be entered for a value. -/
def Rewrite.Ok (r : Region) (v : ValueId) : Rewrite → Prop
  | .value w => Replaces r w v
  | .constant n => Op.Sig (.const n) [] (r.ty v) ∧
      ∀ {b : BlockId} {pre : List InstId} {e : Env}, r.At b pre e → Avail r b pre v →
        e v = n.setWidth 128

/-- An available operand and what stands for it. -/
structure Operand (r : Region) (aliases : List ValueId) (constants : List (Option (BitVec 64)))
    (b : BlockId) (pre : List InstId) (a w : ValueId) (data : Value) (c : Option (BitVec 64)) :
    Prop where
  lookup : aliases[a]? = some w
  rep : Replaces r w a
  avail : Avail r b pre w
  slot : r.values[w]? = some data
  ty : data.ty = r.ty a
  const : constants[w]? = some c

theorem Facts.operand (hwf : WF r) (h : Facts r aliases constants) (hb : r.blocks[b]? = some blk)
    (hpre : pre <+: blk.instructions) {a : ValueId} (ha : Avail r b pre a) :
    ∃ w data c, Operand r aliases constants b pre a w data c := by
  obtain ⟨data₀, hslot₀, _⟩ := ha.slot hwf hb hpre
  have hlt : a < aliases.length := h.length_aliases ▸ (List.getElem?_eq_some_iff.1 hslot₀).1
  have hget := List.getElem?_eq_getElem hlt
  have hrep := h.rep hget
  have hav := hrep.avail hb hpre ha
  obtain ⟨data, hslot, hty⟩ := hav.slot hwf hb hpre
  have hlt' : aliases[a] < constants.length :=
    h.length_constants ▸ (List.getElem?_eq_some_iff.1 hslot).1
  exact ⟨_, data, _, hget, hrep, hav, hslot, hty.trans hrep.ty, List.getElem?_eq_getElem hlt'⟩

/-! ## What `identity` finds -/

/-- The value of an available operand fits its type, and a constant that stands for it is its
value. -/
theorem Operand.value (hwf : WF r) (hf : Facts r aliases constants) {a w : ValueId}
    (h : Operand r aliases constants b pre a w data c) (hat : r.At d pre' e)
    (ha : Avail r d pre' a) : e w = e a ∧ Avail r d pre' w ∧
      ∀ n, c = some n → e a = n.setWidth 128 := by
  obtain ⟨⟨dblk, hd, hpre⟩, _⟩ := hat.sound hwf
  have hav := h.rep.avail hd hpre ha
  refine ⟨h.rep.value hat ha, hav, fun n hn => ?_⟩
  rw [← h.rep.value hat ha]
  exact hf.const (hn ▸ h.const) hat hav

theorem Cand.slot (hwf : WF r) (hc : Cand r b blk pre post id i v) :
    ∃ data, r.values[v]? = some data ∧ data.ty = r.ty v := by
  obtain ⟨inst, hinst, _, hslot⟩ := hwf.inst hc.block hc.mem
  cases hc.get.symm.trans hinst
  obtain ⟨ty, hslot⟩ := hslot (k := 0) (v := v) (by simp [hc.results])
  exact ⟨_, hslot, by simp [Region.ty, hslot]⟩

/-- A candidate whose value is that of an available operand. -/
theorem Cand.replaces {w : ValueId} (hwf : WF r) (hc : Cand r b blk pre post id i v) (hw : Avail r b pre w)
    (hty : r.ty w = r.ty v)
    (h : ∀ {d : BlockId} {pre' : List InstId} {e : Env}, r.At d pre' e → Avail r d pre' v →
      (∀ a ∈ i.args, Avail r d pre' a ∧ (r.ty a).Fits (e a)) →
      e w = i.op.eval (i.args.map r.ty) (r.ty v) (i.args.map e)) : Replaces r w v := by
  refine .of_pure hwf hc.block hc.split hc.get hc.pure (by simp [hc.results]) hty hw
    fun hat hv _ => ?_
  rw [Region.evalInst, hc.results]
  exact h hat hv (hc.value hwf hat hv).2

theorem identity_binary (hwf : WF r) (hf : Facts r aliases constants)
    (hc : Cand r b blk pre post id i v) {op : Binary} (hop : i.op = .binary op) :
    Gives (identity r i aliases constants) fun o => ∀ rewrite, o = some rewrite → rewrite.Ok r v := by
  obtain ⟨dv, hslot, _⟩ := hc.slot hwf
  obtain ⟨t, w, hw, hargs, hty⟩ : Op.Sig (.binary op) (i.args.map r.ty) (r.ty v) := hop ▸ hc.sig hwf
  obtain ⟨a, a', hab, ha, ha'⟩ := map_eq_pair hargs
  obtain ⟨hwidth, hpos, hle⟩ := Ty.width_of_bits hw
  obtain ⟨x, dx, cx, hx⟩ := hf.operand hwf hc.block hc.prefix_ (hc.avail hwf (a := a) (by simp [hab]))
  obtain ⟨y, dy, cy, hy⟩ := hf.operand hwf hc.block hc.prefix_ (hc.avail hwf (a := a') (by simp [hab]))
  have hbits : dx.ty.bits = some w := by rw [hx.ty, ha, hw]
  have hid : identity r i aliases constants = .ok ((if x = y then sameIdentity op x else none) <|>
      literalIdentity op w x y cx cy) := by
    simp [identity, hop, hab, hc.results, idx_eq_ok.2 hslot, idx_eq_ok.2 hx.lookup,
      idx_eq_ok.2 hy.lookup, idx_eq_ok.2 hx.const, idx_eq_ok.2 hy.const, idx_eq_ok.2 hx.slot, hbits]
  refine ⟨_, hid, fun rewrite hrw => ?_⟩
  have hcases : x = y ∧ sameIdentity op x = some rewrite ∨
      literalIdentity op w x y cx cy = some rewrite := by
    rcases (Option.orElse_eq_some _ _ _).1 hrw with hsame | ⟨_, hlit⟩
    · split at hsame
      · next hxy => exact .inl ⟨hxy, hsame⟩
      · cases hsame
    · exact .inr hlit
  have hshape : BinaryShape op w x y rewrite := by
    rcases hcases with ⟨rfl, hsame⟩ | hlit
    · exact sameIdentity_shape hsame
    · exact literalIdentity_shape hle hlit
  -- the identity holds for the values of the operands at every reachable state
  have hsound : ∀ {d : BlockId} {pre' : List InstId} {e : Env}, r.At d pre' e → Avail r d pre' v →
      e v = op.eval w (e x) (e y) ∧ BinarySound op w x y (e x) (e y) rewrite := by
    intro d pre' e hat hv
    obtain ⟨hval, hargs⟩ := hc.value hwf hat hv
    obtain ⟨hava, hfita⟩ := hargs a (by simp [hab])
    obtain ⟨hava', hfita'⟩ := hargs a' (by simp [hab])
    obtain ⟨hex, _, hcx⟩ := hx.value hwf hf hat hava
    obtain ⟨hey, _, hcy⟩ := hy.value hwf hf hat hava'
    rw [ha, Ty.Fits, hwidth, ← hex] at hfita
    rw [ha', Ty.Fits, hwidth, ← hey] at hfita'
    rw [← hex] at hcx
    rw [← hey] at hcy
    refine ⟨?_, ?_⟩
    · rw [hval, hop, hab, hex, hey]
      simp [Op.eval, ha, hwidth]
    · rcases hcases with ⟨rfl, hsame⟩ | hlit
      · exact sameIdentity_sound hfita hsame
      · exact literalIdentity_sound hle hfita hfita' hcx hcy hlit
  have hval : ∀ u, u = x ∨ u = y → op.comparison = false →
      (∀ {d : BlockId} {pre' : List InstId} {e : Env}, r.At d pre' e → Avail r d pre' v →
        e u = e v) → Replaces r u v := by
    intro u hu hcomp heval
    have htv : r.ty v = t := by simpa [hcomp] using hty
    refine hc.replaces hwf ?_ ?_ fun hat hv _ => ?_
    · rcases hu with rfl | rfl
      · exact hx.avail
      · exact hy.avail
    · rcases hu with rfl | rfl
      · rw [hx.rep.ty, ha, htv]
      · rw [hy.rep.ty, ha', htv]
    · rw [heval hat hv, (hc.value hwf hat hv).1]
  cases rewrite with
  | value u =>
    obtain ⟨hcomp, hu⟩ := hshape
    refine hval u hu hcomp fun hat hv => ?_
    obtain ⟨heval, hs⟩ := hsound hat hv
    rcases hs with ⟨rfl, h⟩ | ⟨rfl, h⟩
    · rw [heval, h]
    · rw [heval, h]
  | constant n =>
    refine ⟨⟨rfl, _, ?_, hshape⟩, fun hat hv => ?_⟩
    · rw [hty]
      split
      · rfl
      · exact hw
    · obtain ⟨heval, hs⟩ := hsound hat hv
      rw [heval, hs]

theorem identity_select (hwf : WF r) (hf : Facts r aliases constants)
    (hc : Cand r b blk pre post id i v) (hop : i.op = .select) :
    Gives (identity r i aliases constants) fun o => ∀ rewrite, o = some rewrite → rewrite.Ok r v := by
  obtain ⟨dv, hslot, _⟩ := hc.slot hwf
  have hsig : Op.Sig .select (i.args.map r.ty) (r.ty v) := hop ▸ hc.sig hwf
  obtain ⟨c, l, hcl, _, hl⟩ := List.map_eq_cons_iff.1 hsig
  obtain ⟨a, a', rfl, ha, ha'⟩ := map_eq_pair hl
  obtain ⟨z, dz, cz, hz⟩ := hf.operand hwf hc.block hc.prefix_ (hc.avail hwf (a := c) (by simp [hcl]))
  obtain ⟨x, dx, cx, hx⟩ := hf.operand hwf hc.block hc.prefix_ (hc.avail hwf (a := a) (by simp [hcl]))
  obtain ⟨y, dy, cy, hy⟩ := hf.operand hwf hc.block hc.prefix_ (hc.avail hwf (a := a') (by simp [hcl]))
  have hid : identity r i aliases constants = .ok (if x = y then some (.value x)
      else cz.map fun c => .value (if c ≠ 0 then x else y)) := by
    simp only [identity, hop, hcl, hc.results, idx_eq_ok.2 hslot, idx_eq_ok.2 hx.lookup,
      idx_eq_ok.2 hy.lookup, idx_eq_ok.2 hz.lookup, idx_eq_ok.2 hz.const, ok_bind, idx_cons_zero,
      idx_cons_succ, pure_eq_ok]
    split <;> rfl
  refine ⟨_, hid, fun rewrite hrw => ?_⟩
  -- the chosen operand, and why its value is the result
  have key : ∀ u, u = x ∨ u = y → (∀ {d : BlockId} {pre' : List InstId} {e : Env}, r.At d pre' e →
      Avail r d pre' c → e x = e a → e y = e a' →
      e u = if e c = 0 then e a' else e a) → Replaces r u v := by
    intro u hu heval
    refine hc.replaces hwf ?_ ?_ fun hat hv hargs => ?_
    · rcases hu with rfl | rfl
      · exact hx.avail
      · exact hy.avail
    · rcases hu with rfl | rfl
      · rw [hx.rep.ty, ha]
      · rw [hy.rep.ty, ha']
    · have hex := (hx.value hwf hf hat (hargs a (by simp [hcl])).1).1
      have hey := (hy.value hwf hf hat (hargs a' (by simp [hcl])).1).1
      rw [heval hat (hargs c (by simp [hcl])).1 hex hey, hop, hcl]
      simp [Op.eval]
  split at hrw
  · next hxy =>
    cases hrw
    refine key x (.inl rfl) fun _ _ hex hey => ?_
    split
    · rw [hxy, hey]
    · exact hex
  · obtain ⟨n, hn, hn'⟩ := Option.map_eq_some_iff.1 hrw
    subst hn'
    refine key _ (by split <;> simp) fun hat hcav hex hey => ?_
    have hcn := (hz.value hwf hf hat hcav).2.2 n hn
    have hiff : (n.setWidth 128 = 0) ↔ n = 0 := by
      constructor
      · intro h
        have := congrArg (BitVec.setWidth 64) h
        simpa using this
      · rintro rfl
        simp
    rw [hcn]
    by_cases h0 : n = 0
    · rw [if_pos (hiff.2 h0), if_neg (not_not.2 h0), hey]
    · rw [if_neg (mt hiff.1 h0), if_pos h0, hex]

/-- A value that is the part at `lsb` of another one. -/
def Part (r : Region) (b : BlockId) (pre : List InstId) (u : ValueId) (lsb : Nat) (ty : Ty)
    (rewrite : Rewrite) : Prop :=
  ∃ w, rewrite = .value w ∧ r.ty w = ty ∧ Avail r b pre w ∧
    ∀ {d : BlockId} {pre' : List InstId} {e : Env}, r.At d pre' e → Avail r d pre' u →
      ((e u).setWidth (r.ty u).width).extractLsb' lsb ty.width = (e w).setWidth ty.width ∧
        ty.Fits (e w)

/-- The candidate that defines an available value. -/
theorem Cand.of_definition (hwf : WF r) (hd : r.blocks[d]? = some dblk)
    (hsplit : dblk.instructions = pre' ++ id' :: post') (hinner : r.instructions[id']? = some inner)
    (hu : u ∈ inner.results) :
    Gives (candidate r inner) fun c => c = true → Cand r d dblk pre' post' id' inner u := by
  refine (candidate_gives hwf hd hsplit hinner).mono fun c hc hct => ?_
  obtain ⟨u', hcand⟩ := hc hct
  obtain rfl : u = u' := by simpa [hcand.results] using hu
  exact hcand

section
variable (hwf : WF r) (hf : Facts r aliases constants)
include hwf hf

/-- An operand of the definition of an available value, where the value is available. -/
theorem Facts.operand_of_def (hc : Cand r d dblk pre' post' id' inner u)
    (hb : r.blocks[b]? = some blk) (hpre : pre <+: blk.instructions) (hu : Avail r b pre u)
    {a : ValueId} (ha : a ∈ inner.args) :
    ∃ w data c, Operand r aliases constants b pre a w data c :=
  hf.operand hwf hb hpre (hu.arg hwf hb hpre hc.block hc.mem hc.get (by simp [hc.results]) ha)

theorem extractInsert_gives (hb : r.blocks[b]? = some blk) (hpre : pre <+: blk.instructions)
    (hu : Avail r b pre u) (lsb : Nat) (ty : Ty) : Gives (extractInsert r u lsb ty aliases) fun o =>
      ∀ rewrite, o = some rewrite → Part r b pre u lsb ty rewrite := by
  refine (hu.definition_gives hwf hb hpre).bind fun o ho => ?_
  cases o with
  | none => exact .ok fun _ h => by cases h
  | some inner =>
    obtain ⟨d, dblk, pre', post', id', hd, hsplit, hinner, hres⟩ := ho inner rfl
    refine (Cand.of_definition hwf hd hsplit hinner hres).bind fun c hc => ?_
    split
    · next hcond =>
      simp only [Bool.and_eq_true, decide_eq_true_eq] at hcond
      have hcand := hc hcond.1
      obtain ⟨t, wa, wp, hargs, hwa, hwp, hle⟩ :
          Op.Sig (.insert lsb) (inner.args.map r.ty) (r.ty u) := hcond.2 ▸ hcand.sig hwf
      obtain ⟨base, part, hab, hbase, hpart⟩ := map_eq_pair hargs
      obtain ⟨w, data, cw, hw⟩ := hf.operand_of_def hwf hcand hb hpre hu (a := part) (by simp [hab])
      rw [hab, idx_cons_succ, idx_cons_zero, ok_bind, idx_eq_ok.2 hw.lookup, ok_bind,
        idx_eq_ok.2 hw.slot, ok_bind]
      refine .ok fun rewrite hrw => ?_
      split at hrw
      · next hty =>
        cases hrw
        have htw : r.ty w = ty := by rw [hw.rep.ty, ← hw.ty, hty]
        refine ⟨w, rfl, htw, hw.avail, fun hat hu' => ?_⟩
        obtain ⟨hval, hall⟩ := hcand.value hwf hat hu'
        obtain ⟨hpav, hpfit⟩ := hall part (by simp [hab])
        obtain ⟨hew, _, _⟩ := hw.value hwf hf hat hpav
        obtain rfl : r.ty part = ty := hw.ty.symm.trans hty
        rw [hew]
        refine ⟨?_, hpfit⟩
        rw [hval, hcond.2, hab, map_cons, map_cons, map_nil, map_cons, map_cons, map_nil, hbase]
        refine extract_insert ?_ _ _
        rw [hpart, (Ty.width_of_bits hwp).1, (Ty.width_of_bits hwa).1]
        exact hle
      · cases hrw
    · exact .ok fun _ h => by cases h

theorem extendSource_gives (hb : r.blocks[b]? = some blk) (hpre : pre <+: blk.instructions)
    (hu : Avail r b pre u) (hd : r.blocks[d]? = some dblk)
    (hsplit : dblk.instructions = pre' ++ id' :: post') (hinner : r.instructions[id']? = some inner)
    (hres : u ∈ inner.results) (ty : Ty) : Gives (extendSource r inner ty aliases) fun o =>
      ∀ rewrite, o = some rewrite → Part r b pre u 0 ty rewrite := by
  unfold extendSource
  refine (Cand.of_definition hwf hd hsplit hinner hres).bind fun c hc => ?_
  split
  · next hcond =>
    simp only [Bool.and_eq_true] at hcond
    have hcand := hc hcond.1
    obtain ⟨signed, hop⟩ : ∃ signed, inner.op = .extend signed := by
      have h2 := hcond.2
      unfold isExtend at h2
      split at h2
      · next s hs => exact ⟨s, hs⟩
      · cases h2
    obtain ⟨t, wa, ww, hargs, hwa, hww, hlt⟩ :
        Op.Sig (.extend signed) (inner.args.map r.ty) (r.ty u) := hop ▸ hcand.sig hwf
    obtain ⟨a, hab, ha⟩ := List.map_eq_singleton_iff.1 hargs
    obtain ⟨w, data, cw, hw⟩ := hf.operand_of_def hwf hcand hb hpre hu (a := a) (by simp [hab])
    rw [hab, idx_cons_zero, ok_bind, idx_eq_ok.2 hw.lookup, ok_bind, idx_eq_ok.2 hw.slot, ok_bind]
    refine .ok fun rewrite hrw => ?_
    split at hrw
    · next hty =>
      cases hrw
      have htw : r.ty w = ty := by rw [hw.rep.ty, ← hw.ty, hty]
      refine ⟨w, rfl, htw, hw.avail, fun hat hu' => ?_⟩
      obtain ⟨hval, hall⟩ := hcand.value hwf hat hu'
      obtain ⟨hav, hfit⟩ := hall a (by simp [hab])
      obtain ⟨hew, _, _⟩ := hw.value hwf hf hat hav
      obtain rfl : r.ty a = ty := hw.ty.symm.trans hty
      rw [hew]
      refine ⟨?_, hfit⟩
      rw [hval, hop, hab]
      refine low_extend ?_ signed (_ : Val)
      rw [ha, (Ty.width_of_bits hwa).1, (Ty.width_of_bits hww).1]
      omega
    · cases hrw
  · exact .ok fun _ h => by cases h

/-- A truncation or an extraction of a value with the part. -/
theorem Cand.ok_of_part (hc : Cand r b blk pre post id i v) {a w : ValueId} (hab : i.args = [a])
    (hw : Operand r aliases constants b pre a w data c) {rewrite : Rewrite}
    (heval : ∀ x : Val, i.op.eval [r.ty a] (r.ty v) [x] =
      ((x.setWidth (r.ty a).width).extractLsb' lsb (r.ty v).width).setWidth 128)
    (hpart : Part r b pre w lsb (r.ty v) rewrite) : rewrite.Ok r v := by
  obtain ⟨u, rfl, hty, hav, hvalue⟩ := hpart
  refine hc.replaces hwf hav hty fun hat hv hargs => ?_
  obtain ⟨hew, hwav, _⟩ := hw.value hwf hf hat (hargs a (by simp [hab])).1
  obtain ⟨hbits, hfit⟩ := hvalue hat hwav
  rw [hw.rep.ty] at hbits
  rw [hab, map_cons, map_nil, map_cons, map_nil, heval, ← hew, hbits]
  exact hfit.symm

end

section
variable (hwf : WF r) (hf : Facts r aliases constants) (hc : Cand r b blk pre post id i v)
include hwf hf hc

theorem identity_truncate (hop : i.op = .truncate) :
    Gives (identity r i aliases constants) fun o => ∀ rewrite, o = some rewrite → rewrite.Ok r v := by
  obtain ⟨dv, hslot, hdty⟩ := hc.slot hwf
  obtain ⟨t, wa, ww, hargs, hwa, hww, hlt⟩ :
      Op.Sig .truncate (i.args.map r.ty) (r.ty v) := hop ▸ hc.sig hwf
  obtain ⟨a, hab, ha⟩ := List.map_eq_singleton_iff.1 hargs
  obtain ⟨w, data, c, hw⟩ := hf.operand hwf hc.block hc.prefix_ (hc.avail hwf (a := a) (by simp [hab]))
  simp only [identity, hop, hab, hc.results, idx_eq_ok.2 hslot, idx_eq_ok.2 hw.lookup, ok_bind,
    idx_cons_zero, hdty]
  refine (hw.avail.definition_gives hwf hc.block hc.prefix_).bind fun o ho => ?_
  cases o with
  | none => exact .ok fun _ h => by cases h
  | some inner =>
    obtain ⟨d, dblk, pre', post', id', hd, hsplit, hinner, hres⟩ := ho inner rfl
    refine (extendSource_gives hwf hf hc.block hc.prefix_ hw.avail hd hsplit hinner hres
      (r.ty v)).mono fun o ho rewrite hrw => ?_
    refine hc.ok_of_part hwf hf hab hw (fun x => ?_) (ho rewrite hrw)
    rw [hop, extractLsb'_zero_eq]
    simp [Op.eval]

theorem identity_extract (hop : i.op = .extract lsb) :
    Gives (identity r i aliases constants) fun o => ∀ rewrite, o = some rewrite → rewrite.Ok r v := by
  obtain ⟨dv, hslot, hdty⟩ := hc.slot hwf
  obtain ⟨t, wa, ww, hargs, hwa, hww, hle⟩ :
      Op.Sig (.extract lsb) (i.args.map r.ty) (r.ty v) := hop ▸ hc.sig hwf
  obtain ⟨a, hab, ha⟩ := List.map_eq_singleton_iff.1 hargs
  obtain ⟨w, data, c, hw⟩ := hf.operand hwf hc.block hc.prefix_ (hc.avail hwf (a := a) (by simp [hab]))
  have hpart : ∀ {rewrite : Rewrite}, Part r b pre w lsb (r.ty v) rewrite → rewrite.Ok r v := by
    refine fun hpart => hc.ok_of_part hwf hf hab hw (fun x => ?_) hpart
    rw [hop]
    simp [Op.eval]
  have hinsert := (extractInsert_gives hwf hf hc.block hc.prefix_ hw.avail lsb (r.ty v)).mono
    fun o ho rewrite hrw => hpart (ho rewrite hrw)
  simp only [identity, hop, hab, hc.results, idx_eq_ok.2 hslot, idx_eq_ok.2 hw.lookup, ok_bind,
    idx_cons_zero, hdty]
  split
  · next hlsb =>
    refine (hw.avail.definition_gives hwf hc.block hc.prefix_).bind fun o ho => ?_
    cases o with
    | none => exact .ok fun _ h => by cases h
    | some inner =>
      obtain ⟨d, dblk, pre', post', id', hd, hsplit, hinner, hres⟩ := ho inner rfl
      refine (extendSource_gives hwf hf hc.block hc.prefix_ hw.avail hd hsplit hinner hres
        (r.ty v)).bind fun o ho => ?_
      cases o with
      | none => exact hinsert
      | some rewrite =>
        refine .ok fun rewrite' hrw => ?_
        cases hrw
        exact hpart (hlsb ▸ ho rewrite rfl)
  · exact hinsert

theorem identity_insert (hop : i.op = .insert lsb) :
    Gives (identity r i aliases constants) fun o => ∀ rewrite, o = some rewrite → rewrite.Ok r v := by
  obtain ⟨dv, hslot, hdty⟩ := hc.slot hwf
  obtain ⟨t, wa, wp, hargs, hwa, hwp, hle⟩ :
      Op.Sig (.insert lsb) (i.args.map r.ty) (r.ty v) := hop ▸ hc.sig hwf
  obtain ⟨a, a', hab, ha, ha'⟩ := map_eq_pair hargs
  obtain ⟨x, dx, cx, hx⟩ := hf.operand hwf hc.block hc.prefix_ (hc.avail hwf (a := a) (by simp [hab]))
  obtain ⟨y, dy, cy, hy⟩ := hf.operand hwf hc.block hc.prefix_ (hc.avail hwf (a := a') (by simp [hab]))
  simp only [identity, hop, hab, hc.results, idx_eq_ok.2 hslot, idx_eq_ok.2 hx.lookup,
    idx_eq_ok.2 hy.lookup, ok_bind, idx_cons_zero, idx_cons_succ]
  refine (hy.avail.definition_gives hwf hc.block hc.prefix_).bind fun o ho => ?_
  cases o with
  | none => exact .ok fun _ h => by cases h
  | some part =>
    obtain ⟨d, dblk, pre', post', id', hd, hsplit, hinner, hres⟩ := ho part rfl
    refine (Cand.of_definition hwf hd hsplit hinner hres).bind fun c hcand => ?_
    split
    · next hcond =>
      simp only [Bool.and_eq_true, decide_eq_true_eq] at hcond
      have hcand := hcand hcond.1
      obtain ⟨t', wa', ww', hargs', hwa', hww', hle'⟩ :
          Op.Sig (.extract lsb) (part.args.map r.ty) (r.ty y) := hcond.2 ▸ hcand.sig hwf
      obtain ⟨s, hs, hst⟩ := List.map_eq_singleton_iff.1 hargs'
      obtain ⟨u, du, cu, hu⟩ := hf.operand_of_def hwf hcand hc.block hc.prefix_ hy.avail (a := s)
        (by simp [hs])
      rw [hs, idx_cons_zero, ok_bind, idx_eq_ok.2 hu.lookup, ok_bind]
      refine .ok fun rewrite hrw => ?_
      split at hrw
      · next hux =>
        cases hrw
        refine hc.replaces hwf hx.avail (hx.rep.ty.trans ha) fun hat hv hall => ?_
        obtain ⟨hava, hfita⟩ := hall a (by simp [hab])
        obtain ⟨hava', _⟩ := hall a' (by simp [hab])
        obtain ⟨hex, _, _⟩ := hx.value hwf hf hat hava
        obtain ⟨hey, hyav, _⟩ := hy.value hwf hf hat hava'
        obtain ⟨hyval, hyall⟩ := hcand.value hwf hat hyav
        obtain ⟨hus, _, _⟩ := hu.value hwf hf hat (hyall s (by simp [hs])).1
        -- both instructions read the same base
        have hsa : r.ty s = r.ty a := by rw [← hu.rep.ty, hux, hx.rep.ty]
        have hes : _ = _ := hus.symm.trans (hux ▸ hex)
        rw [hyval, hcond.2, hs, map_cons, map_nil, map_cons, map_nil, hsa, hes, hy.rep.ty] at hey
        rw [hop, hab, map_cons, map_cons, map_nil, map_cons, map_cons, map_nil, ← hey, hex]
        refine (insert_extract ?_ hfita).symm
        rw [ha', ha, (Ty.width_of_bits hwa).1, (Ty.width_of_bits hwp).1]
        exact hle
      · cases hrw
    · exact .ok fun _ h => by cases h

/-- Whatever `identity` finds for a candidate may be entered into the tables. -/
theorem identity_gives : Gives (identity r i aliases constants) fun o =>
      ∀ rewrite, o = some rewrite → rewrite.Ok r v := by
  obtain ⟨dv, hslot, _⟩ := hc.slot hwf
  have hnone : (∀ aliases constants, identity r i aliases constants =
      (do let _ ← idx r.values (← idx i.results 0); pure none)) →
      Gives (identity r i aliases constants) fun o =>
        ∀ rewrite, o = some rewrite → rewrite.Ok r v := by
    intro h
    rw [h, hc.results, idx_cons_zero, ok_bind, idx_eq_ok.2 hslot, ok_bind]
    exact .ok fun _ h => by cases h
  have hop := hc.op
  cases ho : i.op <;> rw [ho] at hop <;> try cases hop
  case const n => exact hnone fun _ _ => by simp [identity, ho]
  case binary op => exact identity_binary hwf hf hc ho
  case select => exact identity_select hwf hf hc ho
  case extend signed => exact hnone fun _ _ => by simp [identity, ho]
  case truncate => exact identity_truncate hwf hf hc ho
  case extract lsb => exact identity_extract hwf hf hc ho
  case insert lsb => exact identity_insert hwf hf hc ho

end

/-! ## The dependencies -/

/-- The entries of a table of candidates are listed candidates. -/
def Marked (r : Region) (active : List Bool) : Prop :=
  active.length = r.instructions.length ∧ ∀ {n : InstId}, active[n]? = some true →
    ∃ b blk pre post i v, Cand r b blk pre post n i v

theorem spend_sat {work n : Nat} : Sat (· = exceeded) (spend exceeded work n) fun _ => True :=
  Sat.spend rfl

theorem markActive_sat (hwf : WF r) (work : Nat) :
    Sat (· = exceeded) (markActive r work) fun s : Nat × List Bool => Marked r s.2 := by
  refine Sat.foldlM (I := fun _ (s : Nat × List Bool) => Marked r s.2) ?_ ?_
  · rintro pre blk post ⟨work, active⟩ hsplit hmarked
    have hb : r.blocks[pre.length]? = some blk := by simp [hsplit]
    refine spend_sat.bind fun work _ _ => Sat.bind (P := Marked r) ?_ fun active _ h => Sat.ok h
    refine Sat.foldlM (I := fun _ active => Marked r active) ?_ hmarked
    intro pre' id post' active hsplit' hmarked
    obtain ⟨i, hi, _⟩ := hwf.inst hb (show id ∈ blk.instructions by simp [hsplit'])
    rw [idx_eq_ok.2 hi, ok_bind]
    refine (candidate_gives hwf hb hsplit' hi).sat.bind fun c _ hc => ?_
    have hlt := (List.getElem?_eq_some_iff.1 hi).1
    refine (Sat.setAt (hmarked.1 ▸ hlt)).mono fun active' _ heq => ?_
    subst heq
    refine ⟨by simpa using hmarked.1, fun {n} hn => ?_⟩
    by_cases hne : n = id
    · subst hne
      rw [List.getElem?_set_self (hmarked.1 ▸ hlt), Option.some.injEq] at hn
      obtain ⟨v, hv⟩ := hc hn
      exact ⟨_, _, _, _, _, v, hv⟩
    · rw [List.getElem?_set_ne (Ne.symm hne)] at hn
      exact hmarked.2 hn
  · refine ⟨by simp, fun {n} hn => ?_⟩
    rw [List.getElem?_replicate] at hn
    split at hn <;> cases hn

variable {active : List Bool}

/-- The candidate that defines a value. -/
def producer (r : Region) (active : List Bool) (a : ValueId) : Option InstId :=
  match (r.values[a]?).map Value.definition with
  | some (.instruction p _) => if active[p]? = some true then some p else none
  | _ => none

/-- The candidates an instruction waits for, with multiplicity. -/
def deps (r : Region) (active : List Bool) (n : InstId) : List InstId :=
  ((r.instructions[n]?).map fun i => i.args.filterMap (producer r active)).getD []

theorem deps_of_get (hi : r.instructions[id]? = some i) :
    deps r active id = i.args.filterMap (producer r active) := by
  simp [deps, hi]

/-- The tables hold the dependencies `D`. -/
structure Recorded (r : Region) (D : InstId → List InstId) (users : List (List InstId))
    (pending : List Nat) : Prop where
  length_users : users.length = r.instructions.length
  length_pending : pending.length = r.instructions.length
  count : ∀ {p : InstId} {us : List InstId}, users[p]? = some us → ∀ m, us.count m = (D m).count p
  pending : ∀ {m : InstId} {c : Nat}, pending[m]? = some c → c = (D m).length

theorem scanArg_gives (hwf : WF r) (hm : Marked r active) (hb : r.blocks[b]? = some blk)
    (hpre : pre <+: blk.instructions) {a : ValueId} (ha : Avail r b pre a) {n : InstId}
    (hn : n < r.instructions.length) {D : InstId → List InstId}
    {s : List (List InstId) × List Nat} (h : Recorded r D s.1 s.2) :
    Gives (scanArg r active n s a) fun s' =>
      Recorded r (Function.update D n (D n ++ (producer r active a).toList)) s'.1 s'.2 := by
  have hsame : producer r active a = none →
      Recorded r (Function.update D n (D n ++ (producer r active a).toList)) s.1 s.2 := by
    intro hnone
    rw [hnone, Option.toList_none, append_nil, update_eq_self]
    exact h
  obtain ⟨d, dblk, hd, hdef⟩ := DefsOk.definedIn_of_avail hb hpre ha
  rcases hdef with hparam | ⟨p, inst, hid, hinst, hres⟩
  · obtain ⟨ty, k, _, hslot⟩ := hwf.param_slot hd hparam
    refine ⟨s, by simp [scanArg, idx_eq_ok.2 hslot], hsame (by simp [producer, hslot])⟩
  · obtain ⟨ty, k, _, hslot⟩ := hwf.result_slot hd hid hinst hres
    have hp := (List.getElem?_eq_some_iff.1 hinst).1
    obtain ⟨marked, hget⟩ := exists_get (hm.1 ▸ hp)
    cases marked with
    | false =>
      exact ⟨s, by simp [scanArg, idx_eq_ok.2 hslot, idx_eq_ok.2 hget],
        hsame (by simp [producer, hslot, hget])⟩
    | true =>
      obtain ⟨us, hpu⟩ := exists_get (h.length_users ▸ hp)
      obtain ⟨c, hnp⟩ := exists_get (h.length_pending ▸ hn)
      have hstep : scanArg r active n s a =
          .ok (s.1.set p (us ++ [n]), s.2.set n (c + 1)) := by
        simp [scanArg, idx_eq_ok.2 hslot, idx_eq_ok.2 hget, idx_eq_ok.2 hpu, idx_eq_ok.2 hnp,
          setAt_eq_ok.2 ⟨h.length_users ▸ hp, rfl⟩, setAt_eq_ok.2 ⟨h.length_pending ▸ hn, rfl⟩]
      refine ⟨_, hstep, ?_⟩
      rw [show producer r active a = some p by simp [producer, hslot, hget]]
      refine ⟨by simpa using h.length_users, by simpa using h.length_pending, fun {q us} hq m => ?_,
        fun {m c} hc => ?_⟩
      · by_cases hqp : q = p
        · subst hqp
          rw [List.getElem?_set_self (h.length_users ▸ hp), Option.some.injEq] at hq
          subst hq
          rw [List.count_append, h.count hpu m]
          by_cases hmn : m = n
          · subst hmn
            simp
          · simp [update_of_ne hmn, Ne.symm hmn]
        · rw [List.getElem?_set_ne (Ne.symm hqp)] at hq
          rw [h.count hq m]
          by_cases hmn : m = n
          · subst hmn
            simp [Ne.symm hqp]
          · simp [update_of_ne hmn]
      · by_cases hmn : m = n
        · subst hmn
          rw [List.getElem?_set_self (h.length_pending ▸ hn), Option.some.injEq] at hc
          subst hc
          simp [h.pending hnp]
        · rw [List.getElem?_set_ne (Ne.symm hmn)] at hc
          simp [update_of_ne hmn, h.pending hc]

/-- The dependencies of the candidates below `k`. -/
def depsBelow (r : Region) (active : List Bool) (k : Nat) (n : InstId) : List InstId :=
  if n < k ∧ active[n]? = some true then deps r active n else []

/-- The graph of the candidates below `k`. -/
structure Scanned (r : Region) (active : List Bool) (k : Nat) (g : Graph) : Prop where
  recorded : Recorded r (depsBelow r active k) g.users g.pending
  ready_nodup : g.ready.Nodup
  mem_ready : ∀ n : Nat, n ∈ g.ready ↔ n < k ∧ active[n]? = some true ∧ deps r active n = []
  expected : g.expected = ((List.range k).filter fun n => active[n]? = some true).length
  facts : Facts r (List.range r.values.length) g.constants

theorem scanArgs_gives (hwf : WF r) (hm : Marked r active) (hc : Cand r b blk pre post id i v)
    (hact : active[id]? = some true) {users : List (List InstId)} {pending : List Nat}
    (h : Recorded r (depsBelow r active id) users pending) :
    Gives (i.args.foldlM (scanArg r active id) (users, pending)) fun s =>
      Recorded r (depsBelow r active (id + 1)) s.1 s.2 := by
  have hn := (List.getElem?_eq_some_iff.1 hc.get).1
  have hself : depsBelow r active id id = [] := by simp [depsBelow]
  have hfold := Gives.foldlM (f := scanArg r active id) (l := i.args) (s := (users, pending))
    (I := fun done s => Recorded r (Function.update (depsBelow r active id) id
      (done.filterMap (producer r active))) s.1 s.2) ?_ ?_
  · refine hfold.mono fun s hs => ?_
    have heq : Function.update (depsBelow r active id) id (i.args.filterMap (producer r active)) =
        depsBelow r active (id + 1) := by
      funext m
      by_cases hmn : m = id
      · subst hmn
        simp [depsBelow, hact, deps_of_get hc.get]
      · have hlt : m < id + 1 ↔ m < id := by
          rw [Nat.lt_succ_iff_lt_or_eq, or_iff_left hmn]
        simp only [update_of_ne hmn, depsBelow, hlt]
    exact heq ▸ hs
  · intro done a rest s hsplit hs
    have ha := hc.avail hwf (a := a) (by simp [hsplit])
    refine (scanArg_gives hwf hm hc.block hc.prefix_ ha hn hs).mono fun s' hs' => ?_
    rw [update_self, update_idem] at hs'
    rw [filterMap_append]
    convert hs' using 3
    cases ha : producer r active a <;> simp [ha]
  · rw [filterMap_nil, ← hself, update_eq_self]
    exact h

/-- The literals among the candidates are constants. -/
theorem Facts.literal (hwf : WF r) (hf : Facts r aliases constants)
    (hc : Cand r b blk pre post id i v) : Gives (scanLiteral i constants) (Facts r aliases) := by
  unfold scanLiteral
  split
  · next value hop =>
    obtain ⟨data, hslot, _⟩ := hc.slot hwf
    have hv : v < constants.length := hf.length_constants ▸ (List.getElem?_eq_some_iff.1 hslot).1
    rw [hc.results, idx_cons_zero, ok_bind]
    refine ⟨_, setAt_eq_ok.2 ⟨hv, rfl⟩, hf.length_aliases, by simpa using hf.length_constants,
      hf.rep, hf.fix, fun {u n} hu _ _ e hat hav => ?_⟩
    by_cases huv : u = v
    · subst huv
      rw [List.getElem?_set_self hv] at hu
      cases hu
      obtain ⟨hargs, _⟩ : Op.Sig (.const value) (i.args.map r.ty) (r.ty u) := hop ▸ hc.sig hwf
      rw [(hc.value hwf hat hav).1, hop, List.map_eq_nil_iff.1 hargs]
      rfl
    · rw [List.getElem?_set_ne (Ne.symm huv)] at hu
      exact hf.const hu hat hav
  · exact .ok hf

theorem scanInst_sat (hwf : WF r) (hm : Marked r active) {g : Graph} {k : Nat}
    (hi : r.instructions[k]? = some i) (h : Scanned r active k g) :
    Sat (· = exceeded) (scanInst r active g (i, k)) (Scanned r active (k + 1)) := by
  have hk := (List.getElem?_eq_some_iff.1 hi).1
  obtain ⟨marked, hget⟩ := exists_get (hm.1 ▸ hk)
  refine spend_sat.bind fun work _ _ => spend_sat.bind fun work _ _ => ?_
  rw [idx_eq_ok.2 hget, ok_bind]
  cases marked with
  | false =>
    have hlt : ∀ n, active[n]? = some true → (n < k + 1 ↔ n < k) := by
      intro n hn
      have hne : n ≠ k := by rintro rfl; cases hget.symm.trans hn
      omega
    have hD : depsBelow r active (k + 1) = depsBelow r active k := by
      funext n
      unfold depsBelow
      by_cases hn : active[n]? = some true
      · simp only [hlt n hn]
      · simp [hn]
    refine Sat.ok ⟨by rw [hD]; exact h.recorded, h.ready_nodup, fun n => ?_, ?_, h.facts⟩
    · rw [h.mem_ready]
      constructor
      · rintro ⟨h1, h2, h3⟩
        exact ⟨(hlt n h2).2 h1, h2, h3⟩
      · rintro ⟨h1, h2, h3⟩
        exact ⟨(hlt n h2).1 h1, h2, h3⟩
    · simp [range_succ, filter_append, hget, h.expected]
  | true =>
    obtain ⟨b, blk, pre, post, i', v, hc⟩ := hm.2 hget
    cases hi.symm.trans hc.get
    simp only [Bool.not_true, Bool.false_eq_true, if_false]
    refine (h.facts.literal hwf hc).sat.bind fun constants _ hfacts => ?_
    refine (scanArgs_gives hwf hm hc hget h.recorded).sat.bind fun s _ hs => ?_
    obtain ⟨c, hpend⟩ := exists_get (hs.length_pending ▸ hk)
    have hcount : c = (deps r active k).length := by
      rw [hs.pending hpend, depsBelow, if_pos ⟨Nat.lt_succ_self k, hget⟩]
    rw [idx_eq_ok.2 hpend, ok_bind]
    refine Sat.ok ⟨hs, ?_, fun n => ?_, ?_, hfacts⟩
    · dsimp only
      split
      · refine List.nodup_cons.2 ⟨fun hmem => ?_, h.ready_nodup⟩
        exact absurd ((h.mem_ready k).1 hmem).1 (Nat.lt_irrefl _)
      · exact h.ready_nodup
    · have hready : n ∈ (if c = 0 then k :: g.ready else g.ready) ↔
          n ∈ g.ready ∨ n = k ∧ c = 0 := by
        split
        · next hz => simp [hz, or_comm]
        · next hz => simp [hz]
      rw [hready, h.mem_ready, hcount, length_eq_zero_iff]
      constructor
      · rintro (⟨h1, h2⟩ | ⟨rfl, h2⟩)
        · exact ⟨by omega, h2⟩
        · exact ⟨by omega, hget, h2⟩
      · rintro ⟨h1, h2, h3⟩
        by_cases hnk : n = k
        · exact .inr ⟨hnk, hnk ▸ h3⟩
        · exact .inl ⟨by omega, h2, h3⟩
    · simp [range_succ, filter_append, hget, h.expected]

theorem Facts.init (r : Region) : Facts r (List.range r.values.length)
    (List.replicate r.values.length none) := by
  have hself : ∀ {v w : ValueId}, (List.range r.values.length)[v]? = some w → w = v := by
    intro v w h
    obtain ⟨_, h⟩ := List.getElem?_eq_some_iff.1 h
    simpa using h.symm
  refine ⟨by simp, by simp, fun h => hself h ▸ .refl r _, fun h _ => hself h, fun h => ?_⟩
  rw [List.getElem?_replicate] at h
  split at h <;> cases h

theorem scan_sat (hwf : WF r) (hm : Marked r active) (work : Nat) :
    Sat (· = exceeded) (scan r active work) (Scanned r active r.instructions.length) := by
  refine (Sat.foldlM (I := fun done => Scanned r active done.length) ?_ ?_).mono
    fun g _ hg => by simpa using hg
  · intro done p rest g hsplit hg
    obtain ⟨hp, hi⟩ := zipIdx_split hsplit
    rw [length_append, length_singleton, ← hp]
    exact scanInst_sat hwf hm hi (hp ▸ hg)
  · have hD : depsBelow r active 0 = fun _ => [] := by
      funext n
      simp [depsBelow]
    refine ⟨⟨by simp, by simp, fun {p us} h m => ?_, fun {m c} h => ?_⟩, nodup_nil, by simp,
      rfl, .init r⟩
    all_goals
      rw [List.getElem?_replicate] at h
      split at h <;> cases h
      simp [hD]

theorem reserve_sat (hwf : WF r) (work : Nat) :
    Sat (· = exceeded) (reserve r work) fun _ => True := by
  refine (Sat.foldlM (I := fun _ _ => True) (fun _ _ _ _ _ _ => spend_sat) trivial).bind
    fun work _ _ => Sat.foldlM (I := fun _ _ => True) ?_ trivial
  intro pre blk post work hsplit _
  obtain ⟨term, hterm⟩ := hwf.cfg.terminated pre.length blk (by simp [hsplit])
  refine spend_sat.bind fun work _ _ => ?_
  rw [unwrap_eq_ok.2 hterm, ok_bind]
  exact Sat.foldlM (I := fun _ _ => True) (fun _ _ _ _ _ _ => spend_sat) trivial

/-! ## The visit -/

/-- The state of the plan after the candidates `visited`. -/
structure Inv (r : Region) (active : List Bool) (visited : List InstId) (s : Plan) : Prop where
  queue : Kahn.Queue (active[·]? = some true) (deps r active) visited s.ready s.pending
  visited : s.visited = visited.length
  facts : Facts r s.aliases s.constants
  edits : ∀ {n : InstId} {c : BitVec 64}, (n, c) ∈ s.edits → ∃ b blk pre post i v,
    Cand r b blk pre post n i v ∧ Rewrite.Ok r v (.constant c)

/-- The parts of the plan that a rewrite is entered into. -/
structure Entered (r : Region) (s s' : Plan) : Prop where
  ready : s'.ready = s.ready
  pending : s'.pending = s.pending
  visited : s'.visited = s.visited
  facts : Facts r s'.aliases s'.constants
  edits : ∀ {n : InstId} {c : BitVec 64}, (n, c) ∈ s'.edits → (n, c) ∈ s.edits ∨
    ∃ b blk pre post i v, Cand r b blk pre post n i v ∧ Rewrite.Ok r v (.constant c)

theorem enter_gives (hwf : WF r) (hc : Cand r b blk pre post id i v) {s : Plan}
    (hf : Facts r s.aliases s.constants) {mode : Mode} {o : Option Rewrite}
    (ho : ∀ rewrite, o = some rewrite → rewrite.Ok r v) :
    Gives (enter r mode id v s o) (Entered r s) := by
  obtain ⟨data, hslot, hty⟩ := hc.slot hwf
  have hlt := (List.getElem?_eq_some_iff.1 hslot).1
  have hsame : Entered r s s := ⟨rfl, rfl, rfl, hf, .inl⟩
  match o with
  | none => exact .ok hsame
  | some (.value w) =>
    have hrep : Replaces r w v := ho _ rfl
    simp only [enter]
    split
    · -- the replacement is available wherever the candidate is, so it has a slot
      have hav : Avail r b (pre ++ [id]) v := .here (by simp) hc.get (by simp [hc.results])
      have hw := hrep.avail hc.block ⟨post, by simp [hc.split]⟩ hav
      obtain ⟨data', hslot', hty'⟩ := hw.slot hwf hc.block ⟨post, by simp [hc.split]⟩
      have hv : v < s.aliases.length := hf.length_aliases ▸ hlt
      rw [idx_eq_ok.2 hslot, idx_eq_ok.2 hslot', ok_bind, ok_bind,
        (require_eq_ok (u := ())).2 (decide_eq_true (by rw [hty, hty', hrep.ty])), ok_bind,
        setAt_eq_ok.2 ⟨hv, rfl⟩, ok_bind]
      refine .ok ⟨rfl, rfl, rfl, ⟨by simpa using hf.length_aliases, hf.length_constants,
        fun {u x} hx => ?_, fun {u x} hx hbits => ?_, hf.const⟩, .inl⟩
      · by_cases huv : u = v
        · subst huv
          rw [List.getElem?_set_self hv, Option.some.injEq] at hx
          exact hx ▸ hrep
        · rw [List.getElem?_set_ne (Ne.symm huv)] at hx
          exact hf.rep hx
      · by_cases huv : u = v
        · have := huv ▸ hc.bits
          rw [hbits] at this
          cases this
        · rw [List.getElem?_set_ne (Ne.symm huv)] at hx
          exact hf.fix hx hbits
    · exact .ok hsame
  | some (.constant c) =>
    have hconst : Rewrite.Ok r v (.constant c) := ho _ rfl
    simp only [enter]
    split
    · have hv : v < s.constants.length := hf.length_constants ▸ hlt
      rw [setAt_eq_ok.2 ⟨hv, rfl⟩, ok_bind]
      refine .ok ⟨rfl, rfl, rfl, ⟨hf.length_aliases, by simpa using hf.length_constants, hf.rep,
        hf.fix, fun {u x} hx _ _ e hat hav => ?_⟩, fun {n x} hx => ?_⟩
      · by_cases huv : u = v
        · subst huv
          rw [List.getElem?_set_self hv, Option.some.injEq, Option.some.injEq] at hx
          exact hx ▸ hconst.2 hat hav
        · rw [List.getElem?_set_ne (Ne.symm huv)] at hx
          exact hf.const hx hat hav
      · rcases List.mem_append.1 hx with hx | hx
        · exact .inl hx
        · cases List.mem_singleton.1 hx
          exact .inr ⟨b, blk, pre, post, i, v, hc, hconst⟩
    · exact .ok hsame

theorem Inv.length_le {visited : List InstId} {s : Plan} (hm : Marked r active)
    (h : Inv r active visited s) : visited.length ≤ r.instructions.length := by
  have hsub : visited ⊆ List.range r.instructions.length := fun n hn => by
    have hlt := (List.getElem?_eq_some_iff.1 (h.queue.active_visited n hn).1).1
    exact List.mem_range.2 (hm.1 ▸ hlt)
  simpa using (subperm_of_subset h.queue.visited_nodup hsub).length_le

/-- Operands of candidates that are defined by candidates are defined earlier. -/
theorem deps_rank (hwf : WF r) (hm : Marked r active) : ∃ rank : InstId → Nat,
    ∀ n, active[n]? = some true → ∀ p ∈ deps r active n, active[p]? = some true ∧
      rank p < rank n := by
  obtain ⟨rank, hrank⟩ := hwf.exists_rank
  refine ⟨rank, fun n hn p hp => ?_⟩
  obtain ⟨b, blk, pre, post, i, v, hc⟩ := hm.2 hn
  rw [deps_of_get hc.get] at hp
  obtain ⟨a, ha, hprod⟩ := List.mem_filterMap.1 hp
  obtain ⟨d, dblk, hd, hdef⟩ := DefsOk.definedIn_of_avail hc.block hc.prefix_ (hc.avail hwf ha)
  rcases hdef with hparam | ⟨p', inst, hid, hinst, hres⟩
  · obtain ⟨ty, k, _, hslot⟩ := hwf.param_slot hd hparam
    simp [producer, hslot] at hprod
  · obtain ⟨ty, k, _, hslot⟩ := hwf.result_slot hd hid hinst hres
    simp only [producer, hslot, Option.map_some] at hprod
    split at hprod
    · next hact =>
      cases hprod
      exact ⟨hact, hrank hc.block hc.mem hc.get hd hid hinst ha hres⟩
    · cases hprod

section
variable {g : Graph} {mode : Mode}

variable {visited : List InstId} {s : Plan}

/-- One turn visits a candidate, or none is left. -/
theorem turn_sat (hwf : WF r) (hm : Marked r active) (hg : Scanned r active r.instructions.length g)
    (h : Inv r active visited s) : Sat (· = exceeded) (turn r mode g.users s) (Sum.elim
      (fun s' => ∃ n, Inv r active (n :: visited) s')
      (fun s' => s'.ready = [] ∧ Inv r active visited s')) := by
  unfold turn
  split
  · next hready => exact Sat.ok ⟨hready, h⟩
  · next n ready hready =>
    have hqueue := hready ▸ h.queue
    obtain ⟨hn, _⟩ := (hqueue.mem_ready n).1 mem_cons_self
    obtain ⟨b, blk, pre, post, i, v, hc⟩ := hm.2 hn
    refine spend_sat.bind fun work _ _ => ?_
    rw [idx_eq_ok.2 hc.get, ok_bind, hc.results, idx_cons_zero, ok_bind]
    refine (identity_gives hwf h.facts hc).sat.bind fun o _ ho => ?_
    refine (enter_gives hwf hc (s := { s with work, ready, visited := s.visited + 1 }) h.facts
      ho).sat.bind fun s' _ hs' => ?_
    have hlt := (List.getElem?_eq_some_iff.1 hc.get).1
    obtain ⟨us, hus⟩ := exists_get (hg.recorded.length_users ▸ hlt)
    -- the users of `n` are the candidates that wait for it
    have hcount := fun m => hg.recorded.count hus m
    have hactive : ∀ m ∈ us, active[m]? = some true := by
      intro m hmem
      have hpos := List.count_pos_iff.2 hmem
      rw [hcount m, depsBelow] at hpos
      split at hpos
      · next hm => exact hm.2
      · simp at hpos
    have husers : ∀ m, active[m]? = some true → us.count m = (deps r active m).count n := by
      intro m hact
      have hlt := (List.getElem?_eq_some_iff.1 hact).1
      rw [hcount m, depsBelow, if_pos ⟨hm.1 ▸ hlt, hact⟩]
    rw [idx_eq_ok.2 hus, ok_bind]
    refine spend_sat.bind fun work' _ _ => ?_
    rw [hs'.pending, hs'.ready]
    refine (hqueue.visit hactive husers).sat.bind fun q _ hq => Sat.ok ⟨n, hq, ?_, hs'.facts, ?_⟩
    · rw [hs'.visited, h.visited, length_cons]
    · exact fun hmem => (hs'.edits hmem).elim h.edits id

theorem Inv.init (hm : Marked r active) (hg : Scanned r active r.instructions.length g)
    (work : Nat) : Inv r active []
      ⟨work, g.ready, g.pending, List.range r.values.length, g.constants, [], 0, ⟨0, 0⟩⟩ := by
  have hwait : ∀ n, Kahn.waiting (deps r active) [] n = deps r active n := by
    intro n
    simp [Kahn.waiting]
  have hlt : ∀ n, active[n]? = some true → n < r.instructions.length := by
    intro n hn
    exact hm.1 ▸ (List.getElem?_eq_some_iff.1 hn).1
  refine ⟨⟨fun n hn => ?_, fun n => ?_, hg.ready_nodup, nofun, nodup_nil⟩, rfl, hg.facts, nofun⟩
  · obtain ⟨c, hc⟩ := exists_get (hg.recorded.length_pending ▸ hlt n hn)
    rw [hc, hg.recorded.pending hc, hwait, depsBelow, if_pos ⟨hlt n hn, hn⟩]
  · rw [hg.mem_ready, hwait]
    constructor
    · rintro ⟨_, h2, h3⟩
      exact ⟨h2, not_mem_nil, h3⟩
    · rintro ⟨h2, _, h3⟩
      exact ⟨hlt n h2, h2, h3⟩

/-- A visit that ends has visited every candidate. -/
theorem Inv.visited_eq (hwf : WF r) (hm : Marked r active)
    (hg : Scanned r active r.instructions.length g) (h : Inv r active visited s)
    (hready : s.ready = []) : s.visited = g.expected := by
  obtain ⟨rank, hrank⟩ := deps_rank hwf hm
  have hall := (hready ▸ h.queue).complete rank hrank
  rw [h.visited, hg.expected]
  refine List.Perm.length_eq ((perm_ext_iff_of_nodup h.queue.visited_nodup
    (List.nodup_range.filter _)).2 fun n => ?_)
  rw [mem_filter, mem_range, decide_eq_true_eq]
  constructor
  · intro hn
    have hact := (h.queue.active_visited n hn).1
    exact ⟨hm.1 ▸ (List.getElem?_eq_some_iff.1 hact).1, hact⟩
  · exact fun hn => hall n hn.2

/-- What the plan knows when it is done. -/
structure Planned (r : Region) (s : Plan) : Prop where
  facts : Facts r s.aliases s.constants
  edits : ∀ {n : InstId} {c : BitVec 64}, (n, c) ∈ s.edits → ∃ b blk pre post i v,
    Cand r b blk pre post n i v ∧ Rewrite.Ok r v (.constant c)

/-- The plan of a well-formed region fails only when the work runs out. -/
theorem plan_sat (hwf : WF r) (audit : Bool) (limit : Nat) (mode : Mode) :
    Sat (· = exceeded) (plan audit r limit mode) (Planned r) := by
  refine spend_sat.bind fun work _ _ => spend_sat.bind fun work _ _ =>
    spend_sat.bind fun work _ _ => spend_sat.bind fun work _ _ => ?_
  rw [(onlyIf_eq_ok (u := ())).2 fun _ => verify_eq_ok.2 hwf, ok_bind]
  refine (markActive_sat hwf work).bind fun p _ hm => ?_
  obtain ⟨work, active⟩ := p
  refine (scan_sat hwf hm work).bind fun g _ hg => (reserve_sat hwf g.work).bind fun work _ _ => ?_
  refine (Sat.loop (I := fun s => ∃ visited, Inv r active visited s)
    (Q := fun s => s.ready = [] ∧ ∃ visited, Inv r active visited s)
    (fun s => r.instructions.length - s.visited) ?_ ⟨[], .init hm hg work⟩
    (Nat.lt_succ_of_le (Nat.sub_le _ _))).bind fun s _ hs => ?_
  · rintro s ⟨visited, hs⟩
    refine (turn_sat hwf hm hg hs).mono fun t _ ht => ?_
    cases t with
    | inl s' =>
      obtain ⟨n, hs'⟩ := ht
      have hle := hs'.length_le hm
      have h1 := hs.visited
      have h2 := hs'.visited
      rw [length_cons] at hle h2
      exact ⟨⟨_, hs'⟩, by omega⟩
    | inr s' => exact ⟨ht.1, visited, ht.2⟩
  · obtain ⟨hready, visited, hs⟩ := hs
    rw [(require_eq_ok (u := ())).2 (decide_eq_true (hs.visited_eq hwf hm hg hready)), ok_bind]
    exact Sat.ok ⟨hs.facts, hs.edits⟩

/-! ## The rewrite -/

/-- The instructions after the edits: each is as before or one of its edits. -/
theorem applyEdits_gives (edits : List (InstId × BitVec 64)) (instructions : List Instruction)
    (h : ∀ {n : InstId} {c : BitVec 64}, (n, c) ∈ edits → n < instructions.length) :
    Gives (applyEdits edits instructions) fun instructions' =>
      ∃ f : InstId → Option (BitVec 64), (∀ {n : InstId} {c : BitVec 64}, f n = some c →
        (n, c) ∈ edits) ∧ instructions' = instructions.mapIdx fun n i =>
          match f n with
          | some c => { i with op := .const c, args := [] }
          | none => i := by
  refine Gives.foldlM (I := fun done instructions' => ∃ f : InstId → Option (BitVec 64),
    (∀ {n : InstId} {c : BitVec 64}, f n = some c → (n, c) ∈ done) ∧
      instructions' = instructions.mapIdx fun n i =>
        match f n with
        | some c => { i with op := .const c, args := [] }
        | none => i) ?_ ?_
  swap
  · exact ⟨fun _ => none, nofun, ext_getElem? (by simp)⟩
  rintro done ⟨n, c⟩ rest instructions' hsplit ⟨f, hf, rfl⟩
  have hlt := h (n := n) (c := c) (by simp [hsplit])
  have hget := List.getElem?_eq_getElem hlt
  refine Gives.bind (P := fun i => ∃ op args, i = { instructions[n] with op, args }) ?_ ?_
  · refine ⟨_, idx_eq_ok.2 (by rw [List.getElem?_mapIdx, hget]; rfl), ?_⟩
    split
    · exact ⟨_, _, rfl⟩
    · exact ⟨_, _, rfl⟩
  · rintro i ⟨op, args, rfl⟩
    refine ⟨_, setAt_eq_ok.2 ⟨by simpa using hlt, rfl⟩, Function.update f n (some c),
      fun {m x} hm => ?_, ?_⟩
    · by_cases hmn : m = n
      · subst hmn
        rw [update_self] at hm
        cases hm
        simp
      · rw [update_of_ne hmn] at hm
        exact mem_append_left _ (hf hm)
    · refine ext_getElem? fun m => ?_
      by_cases hmn : n = m
      · subst hmn
        rw [List.getElem?_set_self (by simpa using hlt)]
        simp [hget]
      · rw [List.getElem?_set_ne hmn, List.getElem?_mapIdx, List.getElem?_mapIdx,
          update_of_ne (Ne.symm hmn)]

/-- The plan as an edit. -/
def edit (aliases : List ValueId) (f : InstId → Option (BitVec 64)) : Edit where
  rep v := aliases.getD v v
  keep _ := true
  kept _ := true
  op n := (f n).map fun c => (.const c, [])

theorem edit_valid (h : Planned r s) {f : InstId → Option (BitVec 64)}
    (hf : ∀ {n : InstId} {c : BitVec 64}, f n = some c → (n, c) ∈ s.edits) :
    (edit s.aliases f).Valid r := by
  have hrep : ∀ v, Replaces r (s.aliases.getD v v) v := by
    intro v
    cases hv : s.aliases[v]? with
    | none => simpa [List.getD, hv] using Replaces.refl r v
    | some w => simpa [List.getD, hv] using h.facts.rep hv
  refine ⟨fun _ _ _ h => (by cases h), fun _ _ _ _ => rfl, fun _ _ => rfl, ?_,
    fun {_ _ v} _ => ⟨rfl, hrep v⟩, fun v hty => ?_⟩
  · intro b blk pre post id inst op args hb hsplit hinst _ hop
    obtain ⟨c, hc, heq⟩ := Option.map_eq_some_iff.1 hop
    cases heq
    obtain ⟨_, _, _, _, i, v, hcand, hsig, hval⟩ := h.edits (hf hc)
    cases hinst.symm.trans hcand.get
    refine ⟨hcand.pure, by simpa [hcand.results] using hsig, nofun, fun {e} hat => ?_⟩
    obtain ⟨e', hat', hav, he'⟩ := hat.pure_result hb hsplit hinst hcand.pure hcand.results
    rw [← he', hval hat' hav]
    rfl
  · -- an aliased value is an integer
    cases hv : s.aliases[v]? with
    | none => simp [edit, List.getD, hv]
    | some w =>
      have hbits : (r.ty v).bits = none := by rcases hty with hty | hty <;> rw [hty] <;> rfl
      simpa [edit, List.getD, hv] using h.facts.fix hv hbits

/-- The rewrite never fails, and it is the edit of the plan. -/
theorem commit_gives (h : Planned r s) : Gives (commit r s) fun r' =>
    ∃ f : InstId → Option (BitVec 64), (∀ {n : InstId} {c : BitVec 64}, f n = some c →
      (n, c) ∈ s.edits) ∧ (edit s.aliases f).Applied r r' := by
  refine (applyEdits_gives s.edits r.instructions ?_).bind ?_
  · intro n c hmem
    obtain ⟨_, _, _, _, i, _, hc, _⟩ := h.edits hmem
    exact (List.getElem?_eq_some_iff.1 hc.get).1
  · rintro instructions ⟨f, hf, rfl⟩
    refine ⟨_, Region.rewriteValues_of fun _ _ => rfl, f, hf, rfl, rfl, rfl, ?_, rfl, ?_⟩
    · simp [Region.mapOperands, edit]
    · intro id inst hinst
      cases hid : f id with
      | none =>
        refine ⟨inst.op, inst.args.map (edit s.aliases f).rep, ?_, fun _ => ⟨rfl, rfl⟩, ?_⟩
        · simp [Region.mapOperands, List.getElem?_mapIdx, hinst, hid, edit]
        · simp [edit, hid]
      | some c =>
        refine ⟨.const c, [], ?_, ?_, ?_⟩
        · simp [Region.mapOperands, List.getElem?_mapIdx, hinst, hid]
        · simp [edit, hid]
        · rintro op args hop
          simp only [edit, hid, Option.map_some, Option.some.injEq, Prod.mk.injEq] at hop
          exact hop

/-- In every mode and with every amount of work the pass keeps a region well formed and its meaning,
or leaves the region as it was because the work ran out: no other error comes from a region that
the verifier accepts. -/
theorem scalar_correct (hr : verify r = .ok ()) (audit : Bool) (limit : Nat) (mode : Mode) :
    (∀ stats, (runMode audit r limit mode).2 = .ok stats →
      verify (runMode audit r limit mode).1 = .ok () ∧
        Region.SameMeaning r (runMode audit r limit mode).1) ∧
    ∀ e, (runMode audit r limit mode).2 = .error e →
      (runMode audit r limit mode).1 = r ∧ e = .error exceeded := by
  have hwf := verify_eq_ok.1 hr
  have hplan := plan_sat hwf audit limit mode
  unfold runMode
  split
  · next e he =>
    rw [he] at hplan
    refine ⟨nofun, fun e' h => ?_⟩
    cases h
    match e, hplan with
    | .error _, rfl => exact ⟨rfl, rfl⟩
  · next s hs =>
    rw [hs] at hplan
    obtain ⟨r', hr', f, hf, happlied⟩ := commit_gives hplan
    rw [hr']
    obtain ⟨hwf', hsame⟩ := happlied.correct (edit_valid hplan hf) hwf
    exact ⟨fun _ _ => ⟨verify_eq_ok.2 hwf', hsame⟩, nofun⟩

end

end

/-- A region that adds zero and takes a difference of equal values. -/
def addZero : Region where
  entries := [0]
  blocks := [⟨none, [], [0, 1, 2, 3, 4], some (.exit 0), 0⟩]
  values := [⟨.i32, .instruction 0 0⟩, ⟨.i1, .instruction 1 0⟩, ⟨.i32, .instruction 2 0⟩,
    ⟨.i32, .instruction 3 0⟩, ⟨.i32, .instruction 4 0⟩]
  instructions := [.simple 0 (.const 5) [] 0, .simple 0 (.const 0) [] 1, .simple 0 (.const 0) [] 2,
    .simple 0 (.binary .add) [0, 2] 3, .simple 0 (.binary .sub) [3, 0] 4]
  states := [.uniform 4 1]
  helpers := []

set_option maxRecDepth 4000 in
theorem scalar_correct_addZero : (runMode true addZero 100 .all).2 = .ok ⟨1, 1⟩ ∧
    verify (runMode true addZero 100 .all).1 = .ok () ∧
    Region.SameMeaning addZero (runMode true addZero 100 .all).1 :=
  ⟨rfl, (scalar_correct (r := addZero) rfl true 100 .all).1 _ rfl⟩

end V86.Ir.Scalar
