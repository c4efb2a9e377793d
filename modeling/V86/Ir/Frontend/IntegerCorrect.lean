import V86.Ir.Frontend.Nodes

/-!
# Integer instructions compute what the interpreter does

The flags of a builder hold a backing of the interpreter (`Holds`): its fields, the six flags that its
getters give, and whether the zero flag is lazy. An arithmetic instruction takes the backing
it holds to the one that the interpreter's function leaves (`arithmetic_spec`).
-/

namespace V86.Ir

open BitVec

open Arith (Backing writeBit parity opWidths)

variable {w size size' : Nat} {E : Executed} {x : BitVec w} {flags : Flags} {s : Backing}

theorem mem_intWidths (h : w ∈ opWidths) : w ∈ intWidths := List.mem_cons_of_mem _ h

theorem Executed.Has.of_is {i : Nat} (h : E.Is i x)
    (hi : i < size) : E.Has size (some i) x := ⟨i, rfl, h, hi⟩

theorem Executed.Has.get {v : Nat} (h : E.Has size (some v) x) : E.Is v x ∧ v < size := by
  obtain ⟨i, hv, hi⟩ := h
  obtain rfl := Option.some.inj hv
  exact hi

theorem Executed.Has.mono {v : Option ValueId} (h : E.Has size v x)
    (hle : size ≤ size') : E.Has size' v x := by
  obtain ⟨i, hv, hi, hlt⟩ := h
  exact ⟨i, hv, hi, Nat.lt_of_lt_of_le hlt hle⟩

theorem Flags.Backs.mono (h : flags.Backs E size s) (hle : size ≤ size') : flags.Backs E size' s :=
  ⟨h.rawFlags.mono hle, h.lazyMask.mono hle, h.lastOp1.mono hle, h.lastResult.mono hle,
    h.lastOpSize.mono hle⟩

theorem Flags.Holds.mono (h : flags.Holds E size s)
    (hle : size ≤ size') : flags.Holds E size' s where
  toBacks := h.toBacks.mono hle
  arithmetic i := (h.arithmetic i).mono hle
  zeroIsLazy := h.zeroIsLazy.mono hle

namespace Build

variable {E : Executed} {s : Site} {a b c : Nat} {w : Nat} {x y : BitVec w} {p q : Bool}

theorem Yields.congr {P : Build ValueId} (h : Yields E P s x) (hxy : x = y) : Yields E P s y :=
  hxy ▸ h

/-! ## Single bits -/

theorem bit_spec (k : Nat) (ha : E.Is a x) (has : a < s.size) :
    Yields E (extract a k .i1) s (BitVec.ofBool (x.getLsbD k)) := by
  refine (extract_spec 1 k ha (by decide) (by omega)).congr ?_
  apply eq_of_getLsbD_eq
  intro i hi
  obtain rfl : i = 0 := by omega
  simp

theorem constBit_spec (t : Bool) :
    Yields E (constant (if t then 1 else 0) .i1) s (BitVec.ofBool t) :=
  (constant_spec 1 _ (by decide)).congr (by cases t <;> rfl)

section
variable (ha : E.Is a (BitVec.ofBool p)) (hb : E.Is b (BitVec.ofBool q)) (has : a < s.size)
  (hbs : b < s.size)
include ha hb has hbs

theorem xorBit_spec : Yields E (binary .xor a b) s (BitVec.ofBool (p ^^ q)) :=
  (binary_spec ha hb rfl (by omega) (by omega)).congr ofBool_xor_ofBool

theorem orBit_spec : Yields E (binary .or a b) s (BitVec.ofBool (p || q)) :=
  (binary_spec ha hb rfl (by omega) (by omega)).congr ofBool_or_ofBool

theorem andBit_spec : Yields E (binary .and a b) s (BitVec.ofBool (p && q)) :=
  (binary_spec ha hb rfl (by omega) (by omega)).congr ofBool_and_ofBool

end

theorem const32_spec (n : BitVec 32) : Yields E (constant n .i32) s n :=
  (constant_spec 32 n (by decide)).congr (setWidth_eq n)

theorem shiftCount_ofNat {k : Nat} (hk : k < 32) : shiftCount 32 (BitVec.ofNat 32 k) = k := by
  rw [shiftCount, toNat_ofNat, if_neg (by decide)]
  omega

/-! ## The backing -/

theorem writeRawFlagBit_spec {r : BitVec 32} (k : Nat) (ha : E.Is a r) (hb : E.Is b (BitVec.ofBool p))
    (hk : k < 32) (has : a < s.size) (hbs : b < s.size) :
    Yields E (writeRawFlagBit a b k) s (writeBit r p k) := by
  unfold writeRawFlagBit
  refine (const32_spec _).bind fun (m : Nat) s₁ g₁ ⟨hm, fm⟩ => ?_
  refine (binary_spec ha hm rfl (by omega) (by omega)).bind fun (v : Nat) s₂ g₂ ⟨hv, fv⟩ => ?_
  refine (extend_spec 32 hb (by decide) (by omega)).bind fun (e : Nat) s₃ g₃ ⟨he, fe⟩ => ?_
  by_cases h0 : k = 0
  · subst h0
    rw [if_pos rfl]
    refine sat_pure_bind ((binary_spec hv he rfl (by omega) (by omega)).congr ?_)
    exact congrArg (_ ||| ·) (shiftLeft_zero (Arith.asI32 p)).symm
  · rw [if_neg h0]
    refine (const32_spec _).bind fun (n : Nat) s₄ g₄ ⟨hn, fn⟩ => ?_
    refine (binary_spec he hn rfl (by omega) (by omega)).bind fun (t : Nat) s₅ g₅ ⟨ht, ft⟩ => ?_
    refine (binary_spec hv ht rfl (by omega) (by omega)).congr ?_
    simp only [Binary.apply, shiftCount_ofNat hk]
    rfl

theorem parityFlag_spec (ha : E.Is a x) (has : a < s.size) :
    Sat E (parityFlag a) s fun (r : Nat × Nat) s' =>
      (E.Is r.1 (BitVec.ofBool (parity x)) ∧ r.1 < s'.size) ∧
        E.Is r.2 (BitVec.ofBool true) ∧ r.2 < s'.size := by
  -- the loop adds up the bits it has seen
  have hloop : ∀ (bits : List Nat) (q : Bool) (v : Nat) (s' : Site), s.size ≤ s'.size →
      E.Is v (BitVec.ofBool q) → v < s'.size →
      Yields E (bits.foldlM (fun parity bit => do
        let v ← extract a bit .i1
        binary .xor parity v) v) s'
        (BitVec.ofBool (bits.foldl (fun parity bit => parity ^^ x.getLsbD bit) q)) := by
    intro bits
    induction bits with
    | nil => exact fun q v s' _ hv fv => sat_pure ⟨hv, fv⟩
    | cons bit bits ih =>
      intro q v s' g hv fv
      rw [List.foldlM_cons]
      refine ((bit_spec bit ha (by omega)).bind
        fun (n : Nat) s₁ g₁ ⟨hn, fn⟩ => xorBit_spec hv hn (by omega) (by omega)).bind
        fun (u : Nat) s₂ g₂ ⟨hu, fu⟩ => ?_
      exact ih _ u s₂ (by omega) hu fu
  unfold parityFlag
  refine (bit_spec 0 ha (by omega)).bind fun (v : Nat) s₁ g₁ ⟨hv, fv⟩ => ?_
  refine (hloop _ _ v s₁ g₁ hv fv).bind fun (u : Nat) s₂ g₂ ⟨hu, fu⟩ => ?_
  refine (constBit_spec true).bind fun (one : Nat) s₃ g₃ ⟨hone, fone⟩ => ?_
  refine (xorBit_spec hu hone (by omega) (by omega)).bind fun (pf : Nat) s₄ g₄ ⟨hpf, fpf⟩ => ?_
  exact sat_pure ⟨⟨hpf, fpf⟩, hone, by omega⟩

/-! ## The flags of a sum or a difference -/

/-- Whether a sum or a difference wraps. -/
def sumCarry (group : Nat) (x y first r : BitVec w) : Bool :=
  let c1 := if subtracts group then x.ult y else first.ult x
  if takesCarry group then c1 || if subtracts group then first.ult r else r.ult first else c1

/-- The carry, adjust and overflow flags. -/
def sumFlags (group : Nat) (x y first r : BitVec w) : Bool × Bool × Bool :=
  if logical group then (false, false, false)
  else (sumCarry group x y first r, (x ^^^ y ^^^ r).getLsbD 4,
    ((x ^^^ r) &&& if subtracts group then x ^^^ y else y ^^^ r).getLsbD (w - 1))

section
variable {group f r : Nat} {first res : BitVec w}

theorem carryFlag_spec (ha : E.Is a x) (hb : E.Is b y) (hf : E.Is f first) (hr : E.Is r res)
    (has : a < s.size) (hbs : b < s.size) (hfs : f < s.size) (hrs : r < s.size) :
    Yields E (carryFlag group a b f r) s (BitVec.ofBool (sumCarry group x y first res)) := by
  unfold carryFlag sumCarry
  cases subtracts group with
  | true =>
    refine (test_spec ha hb rfl (by omega) (by omega)).bind fun (c1 : Nat) s₁ g₁ ⟨h1, f1⟩ => ?_
    cases takesCarry group with
    | true =>
      exact (test_spec hf hr rfl (by omega) (by omega)).bind
        fun (c2 : Nat) s₂ g₂ ⟨h2, f2⟩ => orBit_spec h1 h2 (by omega) (by omega)
    | false => exact sat_pure ⟨h1, f1⟩
  | false =>
    refine (test_spec hf ha rfl (by omega) (by omega)).bind fun (c1 : Nat) s₁ g₁ ⟨h1, f1⟩ => ?_
    cases takesCarry group with
    | true =>
      exact (test_spec hr hf rfl (by omega) (by omega)).bind
        fun (c2 : Nat) s₂ g₂ ⟨h2, f2⟩ => orBit_spec h1 h2 (by omega) (by omega)
    | false => exact sat_pure ⟨h1, f1⟩

theorem arithmeticFlags_spec (ha : E.Is a x) (hb : E.Is b y) (hf : E.Is f first) (hr : E.Is r res)
    (has : a < s.size) (hbs : b < s.size) (hfs : f < s.size) (hrs : r < s.size) :
    Sat E (arithmeticFlags group a b f r w) s fun (v : Nat × Nat × Nat) s' =>
      (E.Is v.1 (BitVec.ofBool (sumFlags group x y first res).1) ∧ v.1 < s'.size) ∧
      (E.Is v.2.1 (BitVec.ofBool (sumFlags group x y first res).2.1) ∧ v.2.1 < s'.size) ∧
      E.Is v.2.2 (BitVec.ofBool (sumFlags group x y first res).2.2) ∧ v.2.2 < s'.size := by
  unfold arithmeticFlags sumFlags
  cases logical group with
  | true =>
    exact (constBit_spec false).bind fun (c : Nat) s₁ g₁ hc => sat_pure ⟨hc, hc, hc⟩
  | false =>
    refine (carryFlag_spec ha hb hf hr has hbs hfs hrs).bind fun (cf : Nat) s₁ g₁ ⟨hcf, fcf⟩ => ?_
    refine (binary_spec ha hb rfl (by omega) (by omega)).bind fun (ab : Nat) s₂ g₂ ⟨hab, fab⟩ => ?_
    refine (binary_spec ha hr rfl (by omega) (by omega)).bind fun (ar : Nat) s₃ g₃ ⟨har, far⟩ => ?_
    refine (binary_spec hab hr rfl (by omega) (by omega)).bind
      fun (bits : Nat) s₄ g₄ ⟨hbits, fbits⟩ => ?_
    refine (bit_spec 4 hbits (by omega)).bind fun (af : Nat) s₅ g₅ ⟨haf, faf⟩ => ?_
    cases subtracts group with
    | true =>
      refine (binary_spec har hab rfl (by omega) (by omega)).bind fun (o : Nat) s₆ g₆ ⟨ho, fo⟩ => ?_
      refine (bit_spec (w - 1) ho (by omega)).bind fun (of : Nat) s₇ g₇ ⟨hof, fof⟩ => ?_
      refine sat_pure ?_
      dsimp only
      exact ⟨⟨hcf, by omega⟩, ⟨haf, by omega⟩, hof, fof⟩
    | false =>
      refine (binary_spec hb hr rfl (by omega) (by omega)).bind
        fun (rhs : Nat) s₆ g₆ ⟨hrhs, frhs⟩ => ?_
      refine (binary_spec har hrhs rfl (by omega) (by omega)).bind
        fun (o : Nat) s₇ g₇ ⟨ho, fo⟩ => ?_
      refine (bit_spec (w - 1) ho (by omega)).bind fun (of : Nat) s₈ g₈ ⟨hof, fof⟩ => ?_
      refine sat_pure ?_
      dsimp only
      exact ⟨⟨hcf, by omega⟩, ⟨haf, by omega⟩, hof, fof⟩

end

/-! ## The backing of a sum or a difference -/

/-- The backing after an arithmetic instruction, from one with its first operand. -/
def aluBacking (group w : Nat) (result : BitVec 32) (flags : Bool × Bool × Bool) (old : Backing) :
    Backing :=
  { old with
    lastResult := result
    lastOpSize := .ofNat 32 (w - 1)
    flags :=
      if logical group then old.flags &&& ~~~(FLAG_CARRY ||| FLAG_ADJUST ||| FLAG_OVERFLOW)
      else if takesCarry group then
        writeBit (writeBit (writeBit old.flags flags.1 0) flags.2.1 4) flags.2.2 11
      else old.flags
    flagsChanged :=
      let written := FLAGS_ALL &&& ~~~FLAG_CARRY &&& ~~~FLAG_ADJUST &&& ~~~FLAG_OVERFLOW
      if logical group then written
      else if takesCarry group then if group = 3 then written ||| FLAG_SUB else written
      else if group = 5 ∨ group = 7 then FLAGS_ALL ||| FLAG_SUB else FLAGS_ALL }

variable {group : Nat} {r : BitVec 32} {t : Bool × Bool × Bool} {old : Backing}

theorem aluBacking_changed {w : Nat} (h : logical group = true ∨ takesCarry group = true) :
    (aluBacking group w r t old).flagsChanged &&& ~~~FLAG_SUB =
      FLAGS_ALL &&& ~~~FLAG_CARRY &&& ~~~FLAG_ADJUST &&& ~~~FLAG_OVERFLOW := by
  simp only [aluBacking]
  split
  · decide
  · next hlog =>
    rw [if_pos (h.resolve_left hlog)]
    split <;> decide

/-- The zero flag is lazy. -/
theorem aluBacking_zero {w : Nat} : (aluBacking group w r t old).flagsChanged.getLsbD 6 = true := by
  simp only [aluBacking]
  split
  · decide
  · split
    · split <;> decide
    · split <;> decide

theorem arithmeticOp_comparison (group : Nat) : (arithmeticOp group).comparison = false := by
  unfold arithmeticOp
  split <;> rfl

theorem group_kind (h : group < 8) : (logical group = true) ∨
    (logical group = false ∧ takesCarry group = false ∧ (group = 0 ∨ group = 5 ∨ group = 7)) ∨
    (logical group = false ∧ takesCarry group = true ∧ ¬ (group = 0 ∨ group = 5 ∨ group = 7)) := by
  revert group
  decide

section
variable {group r : Nat} {res : BitVec w} {flags : Flags} {old : Backing} {t : Bool × Bool × Bool}

theorem updateLazyBacking_spec (hgroup : group < 8) (hold : flags.Backs E s.size old)
    (hr : E.Is r res) (hrs : r < s.size)
    (hcf : E.Has s.size (some flags.arithmetic[0]) (BitVec.ofBool t.1))
    (haf : E.Has s.size (some flags.arithmetic[2]) (BitVec.ofBool t.2.1))
    (hof : E.Has s.size (some flags.arithmetic[5]) (BitVec.ofBool t.2.2)) :
    Sat E (updateLazyBacking flags group r w) s fun flags' s' =>
      flags'.Backs E s'.size (aluBacking group w (res.setWidth 32) t old) ∧
        flags'.arithmetic = flags.arithmetic ∧ flags'.zeroIsLazy = flags.zeroIsLazy := by
  obtain ⟨raw, hraw, hrawIs, fraw⟩ := hold.rawFlags
  unfold updateLazyBacking
  refine (asI32_spec hr (by omega)).bind fun (v : Nat) s₁ g₁ ⟨hv, fv⟩ => ?_
  refine (const32_spec _).bind fun (size : Nat) s₂ g₂ ⟨hsize, fsize⟩ => ?_
  rcases group_kind hgroup with hlog | ⟨hlog, hcarry, hsum⟩ | ⟨hlog, hcarry, hsum⟩
  · simp only [hlog, if_true]
    refine (const32_spec _).bind fun (clear : Nat) s₃ g₃ ⟨hclear, fclear⟩ => ?_
    rw [hraw, Option.getD_some]
    refine (binary_spec hrawIs hclear rfl (by omega) (by omega)).bind
      fun (raw' : Nat) s₄ g₄ ⟨hraw', fraw'⟩ => ?_
    refine (const32_spec _).bind fun (mask : Nat) s₅ g₅ ⟨hmask, fmask⟩ => ?_
    refine sat_pure ⟨⟨.of_is ?_ (by omega), .of_is ?_ fmask, hold.lastOp1.mono (by omega),
      .of_is hv (by omega), .of_is hsize (by omega)⟩, rfl, rfl⟩
    · simp only [aluBacking, hlog, if_true]
      exact hraw'
    · simp only [aluBacking, hlog, if_true]
      exact hmask
  · simp only [hlog, Bool.false_eq_true, if_false, hsum, if_true]
    refine (const32_spec _).bind fun (mask : Nat) s₃ g₃ ⟨hmask, fmask⟩ => ?_
    refine sat_pure ⟨⟨⟨raw, hraw, ?_, by omega⟩, .of_is ?_ fmask, hold.lastOp1.mono (by omega),
      .of_is hv (by omega), .of_is hsize (by omega)⟩, rfl, rfl⟩
    · simp only [aluBacking, hlog, hcarry, Bool.false_eq_true, if_false]
      exact hrawIs
    · simp only [aluBacking, hlog, hcarry, Bool.false_eq_true, if_false]
      exact hmask
  · simp only [hlog, Bool.false_eq_true, if_false, hsum, hcarry, if_true]
    rw [hraw]
    dsimp only
    obtain ⟨hcf, fcf⟩ := hcf.get
    obtain ⟨haf, faf⟩ := haf.get
    obtain ⟨hof, fof⟩ := hof.get
    refine (writeRawFlagBit_spec 0 hrawIs hcf (by decide) (by omega) (by omega)).bind
      fun (raw₁ : Nat) s₃ g₃ ⟨h1, f1⟩ => ?_
    refine (writeRawFlagBit_spec 4 h1 haf (by decide) (by omega) (by omega)).bind
      fun (raw₂ : Nat) s₄ g₄ ⟨h2, f2⟩ => ?_
    refine (writeRawFlagBit_spec 11 h2 hof (by decide) (by omega) (by omega)).bind
      fun (raw₃ : Nat) s₅ g₅ ⟨h3, f3⟩ => ?_
    refine (const32_spec _).bind fun (mask : Nat) s₆ g₆ ⟨hmask, fmask⟩ => ?_
    refine sat_pure ⟨⟨.of_is ?_ (by omega), .of_is ?_ fmask, hold.lastOp1.mono (by omega),
      .of_is hv (by omega), .of_is hsize (by omega)⟩, rfl, rfl⟩
    · simp only [aluBacking, hlog, hcarry, Bool.false_eq_true, if_false, if_true]
      exact h3
    · simp only [aluBacking, hlog, hcarry, Bool.false_eq_true, if_false, if_true]
      exact hmask

end

/-! ## Arithmetic -/

/-- The result of an arithmetic instruction. -/
def aluResult (group : Nat) (x y : BitVec w) (carry : Bool) : BitVec w :=
  let first := (arithmeticOp group).apply x y
  if takesCarry group then (arithmeticOp group).apply first ((BitVec.ofBool carry).setWidth w)
  else first

/-- The carry, adjust and overflow flags of an arithmetic instruction. -/
def aluFlags (group : Nat) (x y : BitVec w) (carry : Bool) : Bool × Bool × Bool :=
  sumFlags group x y ((arithmeticOp group).apply x y) (aluResult group x y carry)

/-- The backing with the first operand. -/
def withOperand (group : Nat) (x : BitVec w) (s : Backing) : Backing :=
  { s with lastOp1 := if logical group then s.lastOp1 else x.setWidth 32 }

/-- What the interpreter leaves. -/
theorem alu_eq (hw : w ∈ opWidths) {group : Nat} (hgroup : group < 8) (x y : BitVec w) (s : Backing) :
    Arith.alu group (x.setWidth 32) (y.setWidth 32) (w - 1) s =
      ((aluResult group x y s.getcf).setWidth 32,
        aluBacking group w ((aluResult group x y s.getcf).setWidth 32) (aluFlags group x y s.getcf)
          (withOperand group x s)) := by
  have hcases := Arith.lt_eight.1 hgroup
  rcases hcases with rfl | rfl | rfl | rfl | rfl | rfl | rfl | rfl
  · exact Arith.add_eq hw x y s
  · rw [Arith.alu, Arith.or, ← setWidth_or, Arith.logic_eq]
    rfl
  · exact Arith.adc_eq hw x y s rfl
  · exact Arith.sbb_eq hw x y s rfl
  · rw [Arith.alu, Arith.and, ← setWidth_and, Arith.logic_eq]
    rfl
  · exact Arith.sub_eq hw x y s
  · rw [Arith.alu, Arith.xor, ← setWidth_xor, Arith.logic_eq]
    rfl
  · exact Arith.sub_eq hw x y s

/-- The six flags of what an arithmetic instruction leaves. -/
theorem getters_alu (hw : w ∈ opWidths) {group : Nat} (hgroup : group < 8) (x y : BitVec w)
    (s : Backing) :
    (aluBacking group w ((aluResult group x y s.getcf).setWidth 32) (aluFlags group x y s.getcf)
      (withOperand group x s)).getters =
      #v[(aluFlags group x y s.getcf).1, parity (aluResult group x y s.getcf),
        (aluFlags group x y s.getcf).2.1, aluResult group x y s.getcf == 0,
        (aluResult group x y s.getcf).getLsbD (w - 1), (aluFlags group x y s.getcf).2.2] := by
  have hcases := Arith.lt_eight.1 hgroup
  have hself := Arith.setWidth_wide hw (aluResult group x y s.getcf)
  rcases hcases with rfl | rfl | rfl | rfl | rfl | rfl | rfl | rfl
  · exact Arith.getters_add hw rfl rfl rfl rfl rfl
  · obtain ⟨hc, ha, ho⟩ := Arith.bits_cleared s.flags
    exact Arith.getters_written hw (aluBacking_changed (by decide)) hself rfl hc ha ho
  · obtain ⟨hc, ha, ho⟩ := Arith.bits_writeBits₃ s.flags (aluFlags 2 x y s.getcf).1
      (aluFlags 2 x y s.getcf).2.1 (aluFlags 2 x y s.getcf).2.2
    exact Arith.getters_written hw (aluBacking_changed (by decide)) hself rfl hc ha ho
  · obtain ⟨hc, ha, ho⟩ := Arith.bits_writeBits₃ s.flags (aluFlags 3 x y s.getcf).1
      (aluFlags 3 x y s.getcf).2.1 (aluFlags 3 x y s.getcf).2.2
    exact Arith.getters_written hw (aluBacking_changed (by decide)) hself rfl hc ha ho
  iterate 2
    · obtain ⟨hc, ha, ho⟩ := Arith.bits_cleared s.flags
      exact Arith.getters_written hw (aluBacking_changed (by decide)) hself rfl hc ha ho
    · exact Arith.getters_sub hw rfl rfl rfl rfl rfl

section
variable {group : Nat} {flags : Flags} {old : Backing}

theorem lastOperand_spec (hold : flags.Holds E s.size old) (ha : E.Is a x) (has : a < s.size) :
    Sat E (lastOperand flags group a) s fun v s' =>
      E.Has s'.size v (withOperand group x old).lastOp1 := by
  unfold lastOperand withOperand
  cases logical group with
  | true => exact sat_pure hold.lastOp1
  | false =>
    exact (asI32_spec ha (by omega)).bind fun (v : Nat) s₁ g₁ ⟨hv, fv⟩ => sat_pure (.of_is hv fv)

theorem withCarry_spec {f : Nat} (hold : flags.Holds E s.size old) (hw : w ∈ intWidths)
    (hf : E.Is f ((arithmeticOp group).apply x y)) (hfs : f < s.size) :
    Yields E (withCarry flags group f (.int w)) s (aluResult group x y old.getcf) := by
  obtain ⟨hcarry, fcarry⟩ := hold.carry.get
  unfold withCarry aluResult
  cases takesCarry group with
  | true =>
    refine (extend_spec w hcarry hw (by omega)).bind fun (c : Nat) s₁ g₁ ⟨hc, fc⟩ => ?_
    exact binary_spec hf hc (arithmeticOp_comparison group) (by omega) (by omega)
  | false => exact sat_pure ⟨hf, hfs⟩

/-- An instruction leaves a result and the flags of `after`. -/
def Leaves (E : Executed) (p : Build (ValueId × Flags)) (s : Site) (result : BitVec 32)
    (after : Backing) (w : Nat) : Prop :=
  Sat E p s fun r s' => E.Has s'.size (some r.1) (result.setWidth w) ∧
    r.2.Holds E s'.size after

/-- An arithmetic instruction leaves what the interpreter's function does. -/
theorem arithmetic_spec (hw : w ∈ opWidths) (hgroup : group < 8)
    (hold : flags.Holds E s.size old) (ha : E.Is a x) (hb : E.Is b y)
    (has : a < s.size) (hbs : b < s.size) : Leaves E (arithmetic flags group a b) s
      (Arith.alu group (x.setWidth 32) (y.setWidth 32) (w - 1) old).1
      (Arith.alu group (x.setWidth 32) (y.setWidth 32) (w - 1) old).2 w := by
  have hwidth := mem_intWidths hw
  rw [alu_eq hw hgroup, Leaves]
  dsimp only
  rw [Arith.setWidth_wide hw]
  unfold arithmetic
  refine (sat_ty has).bind fun ty s' _ ⟨ht, hs'⟩ => ?_
  subst hs'
  rw [ht, ha.ty, Ty.bits_int hwidth, Option.getD_some]
  dsimp only
  refine (lastOperand_spec hold ha has).bind fun lastOp1 s₁ g₁ hlast => ?_
  refine (binary_spec ha hb (arithmeticOp_comparison group) (by omega) (by omega)).bind
    fun (f : Nat) s₂ g₂ ⟨hf, ff⟩ => ?_
  refine (withCarry_spec (hold.mono (by omega)) hwidth hf ff).bind
    fun (r : Nat) s₃ g₃ ⟨hr, fr⟩ => ?_
  refine (constant_spec w 0 hwidth).bind fun (z : Nat) s₄ g₄ ⟨hz, fz⟩ => ?_
  refine (arithmeticFlags_spec ha hb hf hr (by omega) (by omega) (by omega) (by omega)).bind
    fun v s₅ g₅ ⟨⟨hcf, fcf⟩, ⟨haf, faf⟩, hof, fof⟩ => ?_
  refine (test_spec hr hz rfl (by omega) (by omega)).bind fun (zf : Nat) s₆ g₆ ⟨hzf, fzf⟩ => ?_
  refine (bit_spec (w - 1) hr (by omega)).bind fun (sf : Nat) s₇ g₇ ⟨hsf, fsf⟩ => ?_
  refine (parityFlag_spec hr (by omega)).bind fun pfs s₈ g₈ ⟨⟨hpf, fpf⟩, hone, fone⟩ => ?_
  have hcf : E.Has s₈.size (some v.1) (BitVec.ofBool (aluFlags group x y old.getcf).1) :=
    .of_is hcf (by omega)
  have haf : E.Has s₈.size (some v.2.1) (BitVec.ofBool (aluFlags group x y old.getcf).2.1) :=
    .of_is haf (by omega)
  have hof : E.Has s₈.size (some v.2.2) (BitVec.ofBool (aluFlags group x y old.getcf).2.2) :=
    .of_is hof (by omega)
  have hbacks : Flags.Backs E s₈.size { flags with
      arithmetic := #v[v.1, pfs.1, v.2.1, zf, sf, v.2.2], zeroIsLazy := some pfs.2, lastOp1 }
      (withOperand group x old) :=
    ⟨hold.rawFlags.mono (by omega), hold.lazyMask.mono (by omega), hlast.mono (by omega),
      hold.lastResult.mono (by omega), hold.lastOpSize.mono (by omega)⟩
  refine (updateLazyBacking_spec hgroup hbacks hr (by omega) hcf haf hof).bind
    fun flags' s₉ g₉ ⟨hbacks', harith, hzero⟩ => ?_
  have hzf : E.Is zf (BitVec.ofBool (aluResult group x y old.getcf == 0)) := by
    simpa [Binary.test] using hzf
  refine sat_pure ⟨.of_is hr (by omega), hbacks', fun i => ?_, ?_⟩
  · rw [harith, getters_alu hw hgroup]
    match i with
    | 0 => exact hcf.mono g₉
    | 1 => exact (Executed.Has.of_is hpf fpf).mono g₉
    | 2 => exact haf.mono g₉
    | 3 => exact (Executed.Has.of_is hzf fzf).mono (by omega)
    | 4 => exact (Executed.Has.of_is hsf fsf).mono (by omega)
    | 5 => exact hof.mono g₉
  · rw [hzero, aluBacking_zero]
    exact (Executed.Has.of_is hone fone).mono g₉

end

end Build

end V86.Ir
