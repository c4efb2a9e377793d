import V86.Ir.Frontend.ShiftCorrect

/-!
# Straight-line sequences of instructions

A sequence of arithmetic and shift instructions, with other nodes between them, is built with the
flags of each instruction passed to the next one. Executed, it gives the results and the flags that
the interpreter gives, after each of its steps (`straightLine_agrees`).
-/

namespace V86.Ir

open Arith (Backing)

/-- Build a sequence of steps: what each of them gives. -/
def trace (flags : Flags) : List Step → Build (List (ValueId × Flags))
  | [] => pure []
  | step :: steps => do
    let r ← step.build flags
    let rs ← trace r.2 steps
    return r :: rs

/-- What the interpreter computes in each of them. -/
def interpretAll (E : Executed) (old : Backing) : List Step → List (Option (Nat × BitVec 32) × Backing)
  | [] => []
  | step :: steps => step.interpret E old :: interpretAll E (step.interpret E old).2 steps

/-- Every step fits where it is built. -/
def StepsFit (E : Executed) : Site → Flags → List Step → Prop
  | _, _, [] => True
  | s, flags, step :: steps =>
    step.Fits E s.size ∧
      StepsFit E ((step.build flags).run s).2 ((step.build flags).run s).1.2 steps

/-- A step gives what the interpreter computes: the result, and the backing with its six flags. -/
structure Agrees (E : Executed) (size : Nat) (r : ValueId × Flags)
    (i : Option (Nat × BitVec 32) × Backing) : Prop where
  result : ∀ w x, i.1 = some (w, x) → E.Has size (some r.1) (x.setWidth w)
  flags : r.2.Holds E size i.2

theorem Agrees.mono {E : Executed} {size size' : Nat} {r : ValueId × Flags}
    {i : Option (Nat × BitVec 32) × Backing} (h : Agrees E size r i) (hle : size ≤ size') :
    Agrees E size' r i :=
  ⟨fun w x hi => (h.result w x hi).mono hle, h.flags.mono hle⟩

section
variable {E : Executed} {s : Site} {flags : Flags} {old : Backing}

/-- What an id is, is what is read of it. -/
theorem Executed.Is.read {v : ValueId} {w : Nat} {x : BitVec w} (h : E.Is v x) :
    (E.env v).setWidth 32 = x.setWidth 32 := by
  have hle := le_of_mem_intWidths h.width
  rw [h.val, BitVec.setWidth_setWidth (by omega)]

theorem Step.build_spec (step : Step) (hold : flags.Holds E s.size old) (hfit : step.Fits E s.size) :
    Build.Sat E (step.build flags) s fun r s' => Agrees E s'.size r (step.interpret E old) := by
  cases step with
  | node op args ty =>
    obtain ⟨hop, hargs⟩ := hfit
    refine (Build.sat_node hop hargs).bind fun v s₁ g₁ _ => Build.sat_pure ⟨nofun, hold.mono g₁⟩
  | arithmetic group a b =>
    obtain ⟨hgroup, w, hw, ⟨x, hx⟩, y, hy⟩ := hfit
    obtain ⟨ha, fa⟩ := hx.get
    obtain ⟨hb, fb⟩ := hy.get
    have hwidth : (E.region.ty a).width = w := by
      rw [ha.ty, Ty.width_int ha.width]
    refine (Build.arithmetic_spec hw hgroup hold ha hb fa fb).mono fun r s' ⟨hr, hflags⟩ => ?_
    simp only [interpret, hwidth, ha.read, hb.read]
    refine ⟨fun w' x' h => ?_, hflags⟩
    cases h
    exact hr
  | shift opcode modrm gpr value count w =>
    obtain ⟨hw, hdouble, hgpr, ⟨v, hv⟩, c, hc⟩ := hfit
    obtain ⟨hv, fv⟩ := hv.get
    obtain ⟨hc, fc⟩ := hc.get
    have hregs : ∀ i : Fin 8, E.Has s.size (some gpr[i]) ((E.env gpr[i]).setWidth 32) := by
      intro i
      obtain ⟨x, hx⟩ := hgpr i
      obtain ⟨hi, fi⟩ := hx.get
      refine .of_is ?_ fi
      rw [hi.read, BitVec.setWidth_eq]
      exact hi
    refine (Build.calculate_spec hw hdouble hold hregs hv hc fv fc).mono fun r s' ⟨hr, hflags⟩ => ?_
    simp only [interpret, hv.read, hc.read, BitVec.setWidth_eq]
    refine ⟨fun w' x' h => ?_, hflags⟩
    cases h
    exact hr

theorem trace_spec (steps : List Step) (hold : flags.Holds E s.size old)
    (hfit : StepsFit E s flags steps) : Build.Sat E (trace flags steps) s fun rs s' =>
      List.Forall₂ (Agrees E s'.size) rs (interpretAll E old steps) := by
  induction steps generalizing s flags old with
  | nil => exact Build.sat_pure .nil
  | cons step steps ih =>
    obtain ⟨hstep, hrest⟩ := hfit
    refine (Build.Sat.and_run (step.build_spec hold hstep)).bind fun r s₁ g₁ ⟨hrun, hr⟩ => ?_
    rw [hrun] at hrest
    refine (ih hr.flags hrest).bind fun rs s₂ g₂ hrs => ?_
    exact Build.sat_pure (.cons (hr.mono g₂) hrs)

end

/-! ## Executions -/

/-- The execution of nothing, from the state `st`. -/
def Site.start (s : Site) (ω : Oracle) (st : Env × List Event) : Executed :=
  (Site.Grows.refl s).executed ω st

/-- What an id was at the start, it is in the end. -/
theorem Executed.Has.executed {s s' : Site} {ω : Oracle} {st : Env × List Event} {v : Option ValueId}
    {w : Nat} {x : BitVec w} (h : (s.start ω st).Has s.size v x) (hgrows : s.Grows s') :
    (hgrows.executed ω st).Has s.size v x := by
  obtain ⟨i, hi, his, hlt⟩ := h
  refine ⟨i, hi, ⟨(hgrows.within.ty hlt).trans his.ty, ?_, his.width⟩, hlt⟩
  rw [hgrows.executed_env ω st hlt, ← his.val]
  exact ((Site.Grows.refl s).executed_env ω st hlt).symm

theorem Flags.Holds.executed {s s' : Site} {ω : Oracle} {st : Env × List Event} {flags : Flags}
    {old : Backing} (h : flags.Holds (s.start ω st) s.size old) (hgrows : s.Grows s') :
    flags.Holds (hgrows.executed ω st) s.size old where
  rawFlags := h.rawFlags.executed hgrows
  lazyMask := h.lazyMask.executed hgrows
  lastOp1 := h.lastOp1.executed hgrows
  lastResult := h.lastResult.executed hgrows
  lastOpSize := h.lastOpSize.executed hgrows
  arithmetic i := (h.arithmetic i).executed hgrows
  zeroIsLazy := h.zeroIsLazy.executed hgrows

/-- The execution of what a sequence of steps builds. -/
def executeSteps (ω : Oracle) (st : Env × List Event) (s : Site) (flags : Flags) (steps : List Step) :
    Executed :=
  ((trace flags steps).grows s).executed ω st

/-- After each step of a sequence, executed from any state in which the flags are those of a backing,
the result and the flags are those of the interpreter. -/
theorem straightLine_agrees (ω : Oracle) (st : Env × List Event) (s : Site) (flags : Flags)
    (old : Backing) (steps : List Step) (hold : flags.Holds (s.start ω st) s.size old)
    (hfit : StepsFit (executeSteps ω st s flags steps) s flags steps) : List.Forall₂
      (Agrees (executeSteps ω st s flags steps) ((trace flags steps).run s).2.size)
      ((trace flags steps).run s).1 (interpretAll (executeSteps ω st s flags steps) old steps) :=
  trace_spec steps (hold.executed ((trace flags steps).grows s)) hfit (Nat.le_refl _) (.refl _)

/-- Parameters of these types, and nothing built yet. -/
def Site.ofParams (types : List Ty) : Site :=
  ⟨⟨[], [], types.zipIdx.map fun (ty, i) => ⟨ty, .parameter 0 i⟩, [], [], []⟩, 0⟩

/-- An ADD of two bytes and a SHL of its first operand, from a backing of zeros. -/
theorem straightLine_agrees_add_shl :
    let s := Site.ofParams ([.i32, .i32, .i32, .i32, .i32] ++ List.replicate 7 .i1 ++ [.i8, .i8, .i32])
    let env : Env := fun v => [0, 0, 0, 0, 0, 0, 0, 0, 0, 0, 0, 0, 200, 100, 3].getD v 0
    let flags : Flags := ⟨#v[5, 6, 7, 8, 9, 10], 0, some 2, none, some 11, some 0, some 1, some 3, some 4,
      none⟩
    let steps := [.arithmetic 0 12 13, .shift 0xC0 0xE0 (Vector.replicate 8 14) 12 14 8]
    let E := executeSteps (fun _ _ => 0) (env, []) s flags steps
    List.Forall₂ (Agrees E ((trace flags steps).run s).2.size) ((trace flags steps).run s).1
      (interpretAll E ⟨0, 0, 0, 0, 0⟩ steps) := by
  intro s env flags steps E
  have hstart : ∀ (i w : Nat) (x : BitVec w), i < 15 → w ∈ intWidths → s.region.ty i = .int w →
      env i = x.setWidth 128 → (s.start (fun _ _ => 0) (env, [])).Has s.size (some i) x :=
    fun i w x hi hw hty hval => ⟨i, rfl, ⟨hty, hval, hw⟩, hi⟩
  have hat : ∀ (i w : Nat) (x : BitVec w), i < 15 → w ∈ intWidths → s.region.ty i = .int w →
      env i = x.setWidth 128 → E.Has s.size (some i) x :=
    fun i w x hi hw hty hval => (hstart i w x hi hw hty hval).executed _
  have hgrows : s.size ≤ (((Step.arithmetic 0 12 13).build flags).run s).2.size :=
    (((Step.arithmetic 0 12 13).build flags).grows s).within.values.length_le
  refine straightLine_agrees (fun _ _ => 0) (env, []) s flags ⟨0, 0, 0, 0, 0⟩ steps ?_ ?_
  · refine ⟨⟨hstart 0 32 0 ?_ ?_ rfl rfl, hstart 1 32 0 ?_ ?_ rfl rfl, hstart 2 32 0 ?_ ?_ rfl rfl,
      hstart 3 32 0 ?_ ?_ rfl rfl, hstart 4 32 0 ?_ ?_ rfl rfl⟩, ?_, hstart 11 1 0 ?_ ?_ rfl rfl⟩
    case refine_11 =>
      intro i
      match i with
      | 0 => exact hstart 5 1 0 (by decide) (by decide) rfl rfl
      | 1 => exact hstart 6 1 0 (by decide) (by decide) rfl rfl
      | 2 => exact hstart 7 1 0 (by decide) (by decide) rfl rfl
      | 3 => exact hstart 8 1 0 (by decide) (by decide) rfl rfl
      | 4 => exact hstart 9 1 0 (by decide) (by decide) rfl rfl
      | 5 => exact hstart 10 1 0 (by decide) (by decide) rfl rfl
    all_goals decide
  · refine ⟨⟨by decide, 8, by decide, ⟨200, hat 12 8 200 ?_ ?_ rfl rfl⟩, 100,
      hat 13 8 100 ?_ ?_ rfl rfl⟩, ⟨by decide, by decide, fun i => ⟨3, ?_⟩,
      ⟨200, (hat 12 8 200 ?_ ?_ rfl rfl).mono hgrows⟩, 3, (hat 14 32 3 ?_ ?_ rfl rfl).mono hgrows⟩,
      trivial⟩
    case refine_5 =>
      have hi : (Vector.replicate 8 (14 : ValueId))[i] = 14 := by simp
      rw [hi]
      exact (hat 14 32 3 (by decide) (by decide) rfl rfl).mono hgrows
    all_goals decide

end V86.Ir
