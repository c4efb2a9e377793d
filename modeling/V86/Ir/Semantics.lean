import V86.Ir.Eval
import V86.Lib.Simulation

/-!
# Executions of a region

A region runs from one of its entries: it enters a block, executes the block's instructions in
order and leaves through the terminator, which assigns the edge's arguments to the target's
parameters in parallel. Pure instructions compute their result (`Op.eval`); every other
instruction is an event, and its results are chosen by an oracle, the `k`-th result of the `n`-th
event being `ω n k` cut to its type. Quantifying over all oracles covers every value a CPU read, a
load or a helper can return, dependent on everything that happened before.

The trace lists what can be observed: a block entry with a recovery map (`Event.enter`), each
ordered operation and CPU read with its operands, results and recovery maps (`Event.op`), the
recovery map of a pure instruction that carries one (`Event.observe`) and the exit's state
(`Event.exit`). An operation that faults or yields leaves the region at its event, so what a
region does is the set of prefixes of its traces (`Region.Performs`).
-/

namespace V86.Ir

open List

/-- The values of the SSA ids. -/
abbrev Env := ValueId → Val

def Env.set (e : Env) (v : ValueId) (x : Val) : Env := fun w => if w = v then x else e w

/-- Assign a list of values to a list of ids. -/
def Env.setAll (e : Env) (vs : List ValueId) (xs : List Val) : Env :=
  (vs.zip xs).foldl (fun e p => e.set p.1 p.2) e

/-- The values a recovery map holds at run time. -/
abbrev Snapshot := StateMap Val

/-- The choice of values for everything a region does not compute itself. -/
abbrev Oracle := Nat → Nat → Val

/-- What can be observed of an execution. -/
inductive Event
  | enter (recovery : Snapshot)
  | op (op : Op) (args results : List Val) (state commit : Option Snapshot)
      (trapAfterFault unmaskedWordStore : Bool)
  | observe (state : Snapshot)
  | exit (state : Snapshot)
  deriving DecidableEq

namespace Region

variable (r : Region)

/-- The type of a value. -/
def ty (v : ValueId) : Ty := ((r.values[v]?).map (·.ty)).getD .effect

/-- The result of a pure instruction on given operands. -/
def evalInst (inst : Instruction) (args : List Val) : Val :=
  inst.op.eval (inst.args.map r.ty) (r.ty (inst.results.headD 0)) args

def snapshot (e : Env) (s : StateId) : Option Snapshot := (r.states[s]?).map (·.map e)

/-- Values of the right types for a list of ids. -/
def clampAll (vs : List ValueId) (choice : Nat → Val) : List Val :=
  vs.zipIdx.map fun p => (r.ty p.1).clamp (choice p.2)

/-- The values an instruction's results take. -/
def resultVals (inst : Instruction) (e : Env) (choice : Nat → Val) : List Val :=
  if inst.op.pure then [r.evalInst inst (inst.args.map e)] else r.clampAll inst.results choice

/-- The events an instruction adds to the trace. -/
def instEvents (inst : Instruction) (e : Env) (choice : Nat → Val) : List Event :=
  if inst.op.pure then (inst.state.bind (r.snapshot e)).toList.map .observe
  else [.op inst.op (inst.args.map e) (r.clampAll inst.results choice)
    (inst.state.bind (r.snapshot e)) (inst.commit.bind (r.snapshot e))
    inst.trapAfterFault inst.unmaskedWordStore]

/-- Execute one instruction. -/
def execInst (ω : Oracle) (inst : Instruction) (s : Env × List Event) : Env × List Event :=
  (s.1.setAll inst.results (r.resultVals inst s.1 (ω s.2.length)),
    s.2 ++ r.instEvents inst s.1 (ω s.2.length))

/-- Execute a list of instructions. -/
def execInsts (ω : Oracle) (ids : List InstId) (s : Env × List Event) : Env × List Event :=
  ids.foldl (fun s id => match r.instructions[id]? with
    | some inst => r.execInst ω inst s
    | none => s) s

/-- The event of entering a block with a recovery map. A block in `polls` records it as the
budget poll at its head. -/
def enterEvents (polls : BlockId → Bool) (b : BlockId) (blk : Block) (e : Env) : List Event :=
  (blk.entryState.bind (r.snapshot e)).toList.map fun m =>
    if polls b then .op .pollBudget [0] [0] (some m) none false false else .enter m

/-- The parameters of a block. -/
def params (b : BlockId) : List ValueId := ((r.blocks[b]?).map (·.params)).getD []

/-- A state between two blocks: the next block, if any, the values and the trace so far. -/
structure Conf where
  block : Option BlockId
  env : Env
  trace : List Event

/-- Follow an edge: assign its arguments to the target's parameters. -/
def follow (edge : Edge) (s : Env × List Event) : Conf :=
  ⟨some edge.target, s.1.setAll (r.params edge.target) (edge.args.map s.1), s.2⟩

/-- Leave a block through its terminator. -/
def transfer (s : Env × List Event) : Terminator → Conf
  | .branch edge => r.follow edge s
  | .condBranch condition taken notTaken =>
    r.follow (if s.1 condition = 0 then notTaken else taken) s
  | .exit state => ⟨none, s.1, s.2 ++ (r.snapshot s.1 state).toList.map .exit⟩

/-- The state at the end of a block's instructions. -/
def execBlock (polls : BlockId → Bool) (ω : Oracle) (b : BlockId) (blk : Block)
    (s : Env × List Event) : Env × List Event :=
  r.execInsts ω blk.instructions (s.1, s.2 ++ r.enterEvents polls b blk s.1)

/-- Run one block and leave it. A region that has been left stays as it is. -/
def stepBlock (polls : BlockId → Bool) (ω : Oracle) (c : Conf) : Conf :=
  match c.block.bind fun b => (r.blocks[b]?).map fun blk => (b, blk) with
  | none => { c with block := none }
  | some (b, blk) =>
    match blk.terminator with
    | none => ⟨none, c.env, c.trace⟩
    | some term => r.transfer (r.execBlock polls ω b blk (c.env, c.trace)) term

/-- The values at an entry: its parameters are chosen by the caller. -/
def startEnv (b : BlockId) (init : Nat → Val) : Env :=
  Env.setAll (fun _ => 0) (r.params b) (r.clampAll (r.params b) init)

/-- The state before the first block, from the entry number `k`. -/
def start (k : Nat) (init : Nat → Val) : Conf :=
  ⟨r.entries[k]?, r.startEnv (r.entries.getD k 0) init, []⟩

/-- The state after `n` blocks. -/
def run (polls : BlockId → Bool) (ω : Oracle) (k : Nat) (init : Nat → Val) : Nat → Conf
  | 0 => r.start k init
  | n + 1 => r.stepBlock polls ω (run polls ω k init n)

/-- The execution from entry `k` with the given choices performs the events `t`, perhaps among
others. Entering a block in `polls` counts as a budget poll. -/
def PerformsAs (polls : BlockId → Bool) (k : Nat) (ω : Oracle) (init : Nat → Val)
    (t : List Event) : Prop :=
  ∃ n, t <+: (r.run polls ω k init n).trace

/-- The execution from entry `k` with the given choices performs the events `t`. -/
def Performs (k : Nat) (ω : Oracle) (init : Nat → Val) (t : List Event) : Prop :=
  r.PerformsAs (fun _ => false) k ω init t

/-- Two regions have corresponding entries and, from every entry and for every choice of the
values they do not compute, perform the same events. -/
def SameMeaning (r r' : Region) : Prop :=
  r.entries.length = r'.entries.length ∧
    ∀ k ω init t, r.Performs k ω init t ↔ r'.Performs k ω init t

end Region

/-- The edge a terminator takes. -/
def Terminator.taken (e : Env) : Terminator → Option Edge
  | .branch edge => some edge
  | .condBranch condition taken notTaken => some (if e condition = 0 then notTaken else taken)
  | .exit _ => none

/-- The states reachable between two instructions: block `b` has executed the instructions `pre`
and the values are `e`. -/
inductive Region.At (r : Region) : BlockId → List InstId → Env → Prop
  | entry {b : BlockId} {init : Nat → Val} : b ∈ r.entries → r.At b [] (r.startEnv b init)
  | inst {b : BlockId} {pre post : List InstId} {id : InstId} {e : Env} {blk : Block}
      {inst : Instruction} {choice : Nat → Val} :
      r.At b pre e → r.blocks[b]? = some blk → blk.instructions = pre ++ id :: post →
      r.instructions[id]? = some inst →
      r.At b (pre ++ [id]) (e.setAll inst.results (r.resultVals inst e choice))
  | edge {b : BlockId} {e : Env} {blk : Block} {term : Terminator} {edge : Edge} :
      r.At b blk.instructions e → r.blocks[b]? = some blk → blk.terminator = some term →
      term.taken e = some edge →
      r.At edge.target [] (e.setAll (r.params edge.target) (edge.args.map e))

/-! ## Assignments -/

namespace Env

variable {e e' : Env} {v : ValueId} {vs : List ValueId} {xs : List Val}

@[simp] theorem setAll_nil : e.setAll [] xs = e := rfl

theorem setAll_cons {x : Val} : e.setAll (v :: vs) (x :: xs) = (e.set v x).setAll vs xs := rfl

/-- An assignment leaves other ids alone. -/
theorem setAll_of_not_mem (h : v ∉ vs) : e.setAll vs xs v = e v := by
  induction vs generalizing e xs with
  | nil => rfl
  | cons w vs ih =>
    cases xs with
    | nil => rfl
    | cons x xs =>
      rw [setAll_cons, ih fun hv => h (mem_cons_of_mem _ hv), Env.set, if_neg]
      exact fun hv => h (hv ▸ mem_cons_self)

/-- An assignment to distinct ids gives each its value. -/
theorem setAll_getElem {i : Nat} {x : Val} (hnd : vs.Nodup) (hv : vs[i]? = some v)
    (hx : xs[i]? = some x) : e.setAll vs xs v = x := by
  induction vs generalizing e xs i with
  | nil => simp at hv
  | cons w vs ih =>
    cases xs with
    | nil => simp at hx
    | cons y xs =>
      rw [nodup_cons] at hnd
      rw [setAll_cons]
      cases i with
      | zero =>
        simp only [List.getElem?_cons_zero, Option.some.injEq] at hv hx
        subst hv hx
        rw [setAll_of_not_mem hnd.1]
        simp [Env.set]
      | succ i => exact ih hnd.2 (by simpa using hv) (by simpa using hx)

end Env

/-! ## Traces -/

namespace Region

variable {r : Region}

@[simp] theorem length_clampAll (vs : List ValueId) (choice : Nat → Val) :
    (r.clampAll vs choice).length = vs.length := by
  simp [clampAll]

theorem getElem?_clampAll {vs : List ValueId} {choice : Nat → Val} {i : Nat} {v : ValueId}
    (h : vs[i]? = some v) : (r.clampAll vs choice)[i]? = some ((r.ty v).clamp (choice i)) := by
  simp [clampAll, List.getElem?_zipIdx, h]

theorem execInsts_cons {ω : Oracle} {id : InstId} {ids : List InstId} {s : Env × List Event}
    {inst : Instruction} (h : r.instructions[id]? = some inst) :
    r.execInsts ω (id :: ids) s = r.execInsts ω ids (r.execInst ω inst s) := by
  simp [execInsts, h]

theorem trace_execInsts (ω : Oracle) :
    ∀ (ids : List InstId) (s : Env × List Event), s.2 <+: (r.execInsts ω ids s).2
  | [], _ => prefix_rfl
  | id :: ids, s => by
    cases h : r.instructions[id]? with
    | none => simpa [execInsts, h] using trace_execInsts ω ids s
    | some inst =>
      rw [execInsts_cons h]
      exact (prefix_append _ _).trans (trace_execInsts ω ids (r.execInst ω inst s))

theorem trace_transfer (s : Env × List Event) (term : Terminator) :
    s.2 <+: (r.transfer s term).trace := by
  cases term with
  | branch edge => exact prefix_rfl
  | condBranch c t f => exact prefix_rfl
  | exit state => exact prefix_append _ _

/-- Running a block extends the trace. -/
theorem trace_stepBlock (polls : BlockId → Bool) (ω : Oracle) (c : Conf) :
    c.trace <+: (r.stepBlock polls ω c).trace := by
  unfold stepBlock
  split
  · exact prefix_rfl
  · next b blk _ =>
    split
    · exact prefix_rfl
    · have h : c.trace <+: (r.execBlock polls ω b blk (c.env, c.trace)).2 :=
        (prefix_append _ _).trans (trace_execInsts ω blk.instructions (_, _ ++ _))
      exact h.trans (trace_transfer _ _)

theorem run_eq (polls : BlockId → Bool) (ω : Oracle) (k : Nat) (init : Nat → Val) :
    ∀ n, r.run polls ω k init n = (r.stepBlock polls ω)^[n] (r.start k init)
  | 0 => rfl
  | n + 1 => by rw [run, run_eq polls ω k init n, Function.iterate_succ_apply']

/-- What an execution performs, as a system that steps from block to block. -/
theorem performsAs_iff {polls : BlockId → Bool} {k : Nat} {ω : Oracle} {init : Nat → Val}
    {t : List Event} : r.PerformsAs polls k ω init t ↔
      Simulation.Performs (r.stepBlock polls ω) Conf.trace (r.start k init) t := by
  simp only [PerformsAs, run_eq, Simulation.Performs]

theorem SameMeaning.refl (r : Region) : SameMeaning r r := ⟨rfl, fun _ _ _ _ => Iff.rfl⟩

end Region

end V86.Ir
