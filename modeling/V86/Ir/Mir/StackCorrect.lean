import V86.Ir.Mir.Stack

/-!
# Fusion preserves what a region does

A run of a region (`run`) is described by what it shows of its values (`Seen`): what the recovery
maps, instructions and terminators read, and what value programs give. The values come from the
allocation graph and the value programs; what an instruction without a program does with the values
it reads is a parameter. Fusion drops the programs it elides from a run and shows all else as before
(`schedule_correct`), by one lemma about a single fusion (`Fuses.run`).
-/

namespace V86.Ir.Mir.FusionData

open Exec Allocation List Function

/-! ## Runs -/

/-- Wasm values `W` and the rest of the machine `M`: constants, scalar operations, the other steps
of programs given the values they name and the stack, what an instruction gives its definitions
given its uses and its recovery maps, and whether control goes on, and conditions. -/
structure Machine (W M : Type) where
  i32 : BitVec 32 → W
  i64 : BitVec 64 → W
  scalar : Scalar → List W → W
  other : Step → M → List W → List W → Option (M × List W)
  perform : InstId → M → List W → List W → List W × Option M
  holds : W → Bool

variable {W M : Type}

/-- The number of operands of a scalar operation. -/
def arity (op : Scalar) : Nat := op.signature.elim 3 (·.1.length)

/-- A step of a program on the machine and the stack, with its top first. -/
def evalStep (k : Machine W M) (env : ValueId → W) (s : M × List W) : Step → Option (M × List W)
  | .value v => some (s.1, env v :: s.2)
  | .i32 n => some (s.1, k.i32 n :: s.2)
  | .i64 n => some (s.1, k.i64 n :: s.2)
  | .scalar op =>
    if arity op ≤ s.2.length then
      some (s.1, k.scalar op (s.2.take (arity op)) :: s.2.drop (arity op))
    else none
  | step => k.other step s.1 ((expression [step]).map env) s.2

def eval (k : Machine W M) (env : ValueId → W) (steps : List Step) (s : M × List W) :
    Option (M × List W) := steps.foldlM (evalStep k env) s

/-- What a run shows. -/
inductive Seen (W : Type)
  | entered (b : BlockId) (recovery : List W)
  | value (id : InstId) (x : W) (before after : List W)
  | performed (id : InstId) (uses before after : List W)
  | ended (b : BlockId) (values : List W)

variable (data : FusionData)

def elided (id : InstId) : Bool := data.stackElided.getD id false

/-- The recovery values of an instruction. -/
def recovery (id : InstId) : List ValueId := (data.graph.instructions[id]?).elim [] (·.recovery)

/-- Assign values in order. -/
def assign (env : ValueId → W) (vs : List ValueId) (xs : List W) : ValueId → W :=
  (vs.zip xs).foldl (fun env p => Function.update env p.1 p.2) env

/-- The instructions of a block, up to one behind which control does not go on. -/
def body (k : Machine W M) : List InstId → (ValueId → W) → M →
    Option (List (Seen W) × Option ((ValueId → W) × M))
  | [], env, m => some ([], some (env, m))
  | id :: ids, env, m =>
    if data.elided id then body k ids env m
    else
      match planAt data.values id with
      | some p =>
        match eval k env p.steps (m, []) with
        | some (m', [x]) =>
          let env' := Function.update env p.result x
          (body k ids env' m').map fun r =>
            (.value id x ((data.recovery id).map env) ((data.recovery id).map env') :: r.1, r.2)
        | _ => none
      | none =>
        (data.graph.instructions[id]?).bind fun i =>
          let result := k.perform id m (i.uses.map env) (i.recovery.map env)
          let env' := assign env i.definitions result.1
          let seen := .performed id (i.uses.map env) (i.recovery.map env) (i.recovery.map env')
          match result.2 with
          | none => some ([seen], none)
          | some m' => (body k ids env' m').map fun r => (seen :: r.1, r.2)

/-- The edge that control takes. -/
def follow (k : Machine W M) (env : ValueId → W) : Allocation.Terminator → Option Allocation.Edge
  | .exit _ => none
  | .jump e => some e
  | .branch v a b => some (if k.holds (env v) then a else b)

/-- A run through a number of blocks at most. -/
def run (k : Machine W M) : Nat → BlockId → (ValueId → W) → M → Option (List (Seen W))
  | 0, _, _, _ => some []
  | n + 1, b, env, m =>
    (data.graph.blocks[b]?).bind fun blk =>
      (data.body k blk.instructions env m).bind fun r =>
        let seen := .entered b (blk.recovery.map env) :: r.1
        match r.2 with
        | none => some seen
        | some (env', m') =>
          let seen := seen ++ [.ended b (blk.termUses.map env')]
          match follow k env' blk.terminator with
          | none => some seen
          | some e =>
            (data.graph.blocks[e.target]?).bind fun target =>
              (run k n e.target (assign env' target.params (e.arguments.map env')) m').map
                fun rest => seen ++ rest

/-- A value program is kept. -/
def kept : Seen W → Bool
  | .value id .. => !data.elided id
  | _ => true

@[simp] theorem kept_entered (b : BlockId) (xs : List W) : data.kept (.entered b xs) = true := rfl

/-- The values an instruction reads. -/
def usesOf (id : InstId) : List ValueId :=
  if data.elided id then []
  else ((planAt data.values id).elim ((data.graph.instructions[id]?).elim [] (·.uses))
    fun p => expression p.steps) ++ data.recovery id

/-- The values a block reads. -/
def blockReads (b : Allocation.Block) : List ValueId :=
  b.termUses ++ b.recovery ++ b.instructions.flatMap data.usesOf

/-- The values that are read anywhere. -/
def reads : List ValueId := data.graph.blocks.flatMap data.blockReads

/-! ## Programs -/

section
variable {k : Machine W M} {env env' : ValueId → W} {steps : List Step} {s : M × List W}

theorem expression_append (a b : List Step) : expression (a ++ b) = expression a ++ expression b :=
  flatMap_append

theorem expression_cons (a : Step) (b : List Step) :
    expression (a :: b) = expression [a] ++ expression b :=
  expression_append [a] b

theorem eval_append (a b : List Step) :
    eval k env (a ++ b) s = (eval k env a s).bind (eval k env b) := by
  rw [eval, foldlM_append]
  rfl

theorem eval_cons (a : Step) (b : List Step) :
    eval k env (a :: b) s = (evalStep k env s a).bind (eval k env b) := by
  rw [eval, foldlM_cons]
  rfl

theorem evalStep_congr {step : Step} (h : ∀ v ∈ expression [step], env v = env' v) :
    evalStep k env s step = evalStep k env' s step := by
  have hmap : (expression [step]).map env = (expression [step]).map env' :=
    map_congr_left h
  unfold evalStep
  split
  · rw [h _ (List.mem_singleton.2 rfl)]
  · rfl
  · rfl
  · rfl
  · rw [hmap]

/-- A program depends on the values it reads. -/
theorem eval_congr (h : ∀ v ∈ expression steps, env v = env' v) :
    eval k env steps s = eval k env' steps s := by
  induction steps generalizing s with
  | nil => rfl
  | cons step steps ih =>
    rw [expression_cons] at h
    rw [eval_cons, eval_cons, evalStep_congr fun v hv => h v (mem_append_left _ hv)]
    refine congrArg _ (funext fun s' => ?_)
    exact ih fun v hv => h v (mem_append_right _ hv)

/-- Plain steps leave the machine and what is below on the stack. -/
theorem eval_plain {m m' : M} {stack stack' : List W} (hplain : steps.all Stack.Step.plain = true)
    (h : eval k env steps (m, stack) = some (m', stack')) :
    m' = m ∧ ∀ n below, eval k env steps (n, stack ++ below) = some (n, stack' ++ below) := by
  induction steps generalizing stack with
  | nil =>
    cases h
    exact ⟨rfl, fun _ _ => rfl⟩
  | cons step steps ih =>
    rw [all_cons, Bool.and_eq_true] at hplain
    rw [eval_cons] at h
    obtain ⟨⟨m₁, stack₁⟩, hstep, hrest⟩ := Option.bind_eq_some_iff.1 h
    have hone : m₁ = m ∧ ∀ n below,
        evalStep k env (n, stack ++ below) step = some (n, stack₁ ++ below) := by
      unfold evalStep at hstep ⊢
      cases step with
      | value v | i32 n | i64 n => cases hstep; exact ⟨rfl, fun _ _ => rfl⟩
      | scalar op =>
        dsimp only at hstep ⊢
        split at hstep
        · rename_i hle
          cases hstep
          refine ⟨rfl, fun n below => ?_⟩
          rw [if_pos (by rw [length_append]; omega), take_append_of_le_length hle,
            drop_append_of_le_length hle]
          rfl
        · cases hstep
      | read | simd | lane | shuffle | packed => exact absurd hplain.1 Bool.false_ne_true
    obtain ⟨rfl, hbelow⟩ := hone
    obtain ⟨rfl, hall⟩ := ih hplain.2 hrest
    refine ⟨rfl, fun n below => ?_⟩
    rw [eval_cons, hbelow]
    exact hall n below

end

/-- The rewritten program around the only use of the result. -/
theorem rewritten_split {producer consumer : ValuePlan}
    (hone : (expression consumer.steps).count producer.result ≤ 1)
    (hread : .value producer.result ∈ consumer.steps) :
    ∃ pre post, consumer.steps = pre ++ .value producer.result :: post ∧
      (Stack.rewritten producer consumer).steps = pre ++ (producer.steps ++ post) ∧
      producer.result ∉ expression pre ∧ producer.result ∉ expression post := by
  obtain ⟨pre, post, hsplit⟩ := append_of_mem hread
  rw [hsplit, expression_append, expression_cons, List.count_append, List.count_append,
    show expression [.value producer.result] = [producer.result] from rfl,
    count_singleton_self] at hone
  have hpre : producer.result ∉ expression pre := List.count_eq_zero.1 (by omega)
  have hpost : producer.result ∉ expression post := List.count_eq_zero.1 (by omega)
  have hkeep : ∀ {steps : List Step}, producer.result ∉ expression steps →
      (steps.flatMap fun s => if s = .value producer.result then producer.steps else [s]) = steps := by
    intro steps hnot
    induction steps with
    | nil => rfl
    | cons step steps ih =>
      rw [expression_cons, mem_append, not_or] at hnot
      have hne : step ≠ .value producer.result := fun h => hnot.1 (h ▸ List.mem_singleton.2 rfl)
      rw [flatMap_cons, if_neg hne, ih hnot.2]
      rfl
  refine ⟨pre, post, hsplit, ?_, hpre, hpost⟩
  rw [Stack.rewritten, hsplit, flatMap_append, flatMap_cons, if_pos rfl, hkeep hpre, hkeep hpost]

/-- The rewritten program gives what the consumer gives behind the producer. -/
theorem eval_rewritten {k : Machine W M} {env env' : ValueId → W} {m m₁ m₂ : M} {x y : W}
    {producer consumer : ValuePlan} (hplain : producer.steps.all Stack.Step.plain = true)
    (hself : producer.result ∉ expression producer.steps)
    (hone : (expression consumer.steps).count producer.result ≤ 1)
    (hread : .value producer.result ∈ consumer.steps)
    (hagree : ∀ v, v ≠ producer.result → env v = env' v)
    (hproducer : eval k env producer.steps (m, []) = some (m₁, [y]))
    (hconsumer : eval k (Function.update env producer.result y) consumer.steps (m₁, []) =
      some (m₂, [x])) :
    m₁ = m ∧ eval k env' (Stack.rewritten producer consumer).steps (m, []) = some (m₂, [x]) := by
  obtain ⟨pre, post, hsplit, hrewritten, hpre, hpost⟩ := rewritten_split hone hread
  obtain ⟨rfl, hbelow⟩ := eval_plain hplain hproducer
  refine ⟨rfl, ?_⟩
  -- away from the result both environments are the same
  have hsame : ∀ {steps : List Step}, producer.result ∉ expression steps → ∀ s,
      eval k env' steps s = eval k (Function.update env producer.result y) steps s := by
    intro steps hnot s
    refine eval_congr fun v hv => ?_
    have hne : v ≠ producer.result := fun h => hnot (h ▸ hv)
    rw [update_of_ne hne, hagree v hne]
  have hproducer' : ∀ m stack, eval k env' producer.steps (m, stack) = some (m, y :: stack) := by
    intro m stack
    have hown : ∀ v ∈ expression producer.steps,
        Function.update env producer.result y v = env v := by
      intro v hv
      refine update_of_ne (fun h => ?_) ..
      exact hself (h ▸ hv)
    rw [hsame hself, eval_congr hown]
    exact hbelow m stack
  rw [hsplit, eval_append] at hconsumer
  obtain ⟨⟨m₃, stack⟩, hfirst, hrest⟩ := Option.bind_eq_some_iff.1 hconsumer
  rw [eval_cons, evalStep, update_self] at hrest
  rw [hrewritten, eval_append, hsame hpre, hfirst]
  rw [Option.bind_some, eval_append, hproducer', Option.bind_some, hsame hpost]
  exact hrest

/-! ## One fusion -/

/-- An element that occurs once in lists occurs in one of them. -/
theorem count_flatMap_one {α β : Type} [DecidableEq β] {f : α → List β} {l₁ l₂ : List α} {a : α}
    {r : β} (h : ((l₁ ++ a :: l₂).flatMap f).count r ≤ 1) :
    (f a).count r ≤ 1 ∧ (r ∈ f a → ∀ x, x ∈ l₁ ∨ x ∈ l₂ → r ∉ f x) := by
  rw [flatMap_append, flatMap_cons, List.count_append, List.count_append] at h
  refine ⟨by omega, fun hmem x hx hr => ?_⟩
  have hone : 0 < (f a).count r := List.count_pos_iff.2 hmem
  have hother : 0 < (l₁.flatMap f).count r + (l₂.flatMap f).count r := by
    rcases hx with hx | hx
    · exact Nat.add_pos_left (List.count_pos_iff.2 (List.mem_flatMap.2 ⟨x, hx, hr⟩)) _
    · exact Nat.add_pos_right _ (List.count_pos_iff.2 (List.mem_flatMap.2 ⟨x, hx, hr⟩))
  omega

theorem eq_split {α : Type} {l : List α} {i : Nat} {a : α} (hi : l[i]? = some a) :
    l = l.take i ++ a :: l.drop (i + 1) := by
  obtain ⟨hlt, rfl⟩ := List.getElem?_eq_some_iff.1 hi
  rw [← drop_eq_getElem_cons hlt, take_append_drop]

theorem mem_sides {α : Type} {l : List α} {i j : Nat} {c : α} (hj : l[j]? = some c) (hne : j ≠ i) :
    c ∈ l.take i ∨ c ∈ l.drop (i + 1) := by
  rcases Nat.lt_or_gt_of_ne hne with hlt | hgt
  · exact .inl (mem_of_getElem? (i := j) (by rw [List.getElem?_take_of_lt hlt, hj]))
  · refine .inr (mem_of_getElem? (i := j - (i + 1)) ?_)
    rw [List.getElem?_drop, Nat.add_sub_cancel' hgt, hj]

/-- The data after the program of `before` has moved into that of `id`. -/
def fusedWith (before id : InstId) (producer consumer : ValuePlan) : FusionData :=
  { data with
    values := data.values.set id (some (Stack.rewritten producer consumer))
    stackElided := data.stackElided.set before true }

variable {data}

/-- What the search has found when it fuses. -/
structure Fuses (data : FusionData) (b : BlockId) (blk : Allocation.Block)
    (pre mid post : List InstId) (before id : InstId) (producer consumer : ValuePlan) : Prop where
  block : data.graph.blocks[b]? = some blk
  instructions : blk.instructions = pre ++ before :: (mid ++ id :: post)
  between : ∀ i ∈ mid, data.elided i = true
  before_runs : data.elided before = false
  id_runs : data.elided id = false
  before_plan : planAt data.values before = some producer
  id_plan : planAt data.values id = some consumer
  before_lt : before < data.stackElided.length
  plain : producer.steps.all Stack.Step.plain = true
  once : data.reads.count producer.result ≤ 1
  read : .value producer.result ∈ consumer.steps

section
variable {b : BlockId} {blk : Allocation.Block} {pre mid post : List InstId} {before id : InstId}
  {producer consumer : ValuePlan} (h : Fuses data b blk pre mid post before id producer consumer)

theorem mem_expression {v : ValueId} {steps : List Step} (h : .value v ∈ steps) :
    v ∈ expression steps := List.mem_flatMap.2 ⟨_, h, List.mem_singleton.2 rfl⟩

include h

theorem Fuses.mem_uses : producer.result ∈ data.usesOf id := by
  rw [usesOf, h.id_runs, if_neg Bool.false_ne_true, h.id_plan]
  exact mem_append_left _ (mem_expression h.read)

theorem Fuses.mem_block : producer.result ∈ data.blockReads blk := by
  refine mem_append_right _ (List.mem_flatMap.2 ⟨id, ?_, h.mem_uses⟩)
  rw [h.instructions]
  simp

/-- Other blocks do not read the result. -/
theorem Fuses.outside {b' : BlockId} {blk' : Allocation.Block}
    (hb' : data.graph.blocks[b']? = some blk') (hne : b' ≠ b) :
    producer.result ∉ data.blockReads blk' := by
  have honce := h.once
  rw [reads, eq_split h.block] at honce
  exact (count_flatMap_one honce).2 h.mem_block blk' (mem_sides hb' hne)

/-- Within its block, only the consumer reads the result, and once. -/
theorem Fuses.inside : producer.result ∉ blk.termUses ∧ producer.result ∉ blk.recovery ∧
    (data.usesOf id).count producer.result ≤ 1 ∧
    ∀ i, i ∈ pre ∨ i = before ∨ i ∈ mid ∨ i ∈ post → producer.result ∉ data.usesOf i := by
  have honce := h.once
  rw [reads, eq_split h.block] at honce
  have hblock := (count_flatMap_one honce).1
  have hpos : 0 < (blk.instructions.flatMap data.usesOf).count producer.result := by
    refine List.count_pos_iff.2 (List.mem_flatMap.2 ⟨id, ?_, h.mem_uses⟩)
    rw [h.instructions]
    simp
  rw [blockReads, List.count_append, List.count_append] at hblock
  have hsplit : blk.instructions = (pre ++ before :: mid) ++ id :: post := by
    rw [h.instructions, append_assoc]
    rfl
  have hinstructions : ((pre ++ before :: mid ++ id :: post).flatMap data.usesOf).count
      producer.result ≤ 1 := by
    rw [← hsplit]
    omega
  obtain ⟨hid, hothers⟩ := count_flatMap_one hinstructions
  refine ⟨List.count_eq_zero.1 (by omega), List.count_eq_zero.1 (by omega), hid, fun i hi => ?_⟩
  refine hothers h.mem_uses i ?_
  rcases hi with hi | rfl | hi | hi
  · exact .inl (mem_append_left _ hi)
  · exact .inl (by simp)
  · exact .inl (by simp [hi])
  · exact .inr hi

/-- What the consumer reads. -/
theorem Fuses.consumer_reads : (expression consumer.steps).count producer.result ≤ 1 ∧
    producer.result ∉ data.recovery id := by
  have huses := h.inside.2.2.1
  have hmem := List.count_pos_iff.2 (mem_expression h.read)
  rw [usesOf, h.id_runs, if_neg Bool.false_ne_true, h.id_plan, List.count_append] at huses
  exact ⟨Nat.le_trans (Nat.le_add_right _ _) huses, List.count_eq_zero.1 (by
    change (expression consumer.steps).count _ + _ ≤ 1 at huses
    omega)⟩

theorem Fuses.producer_reads : producer.result ∉ expression producer.steps := by
  have hnot := h.inside.2.2.2 before (.inr (.inl rfl))
  rw [usesOf, h.before_runs, if_neg Bool.false_ne_true, h.before_plan] at hnot
  exact fun hmem => hnot (mem_append_left _ hmem)

theorem Fuses.ne : before ≠ id := fun heq =>
  h.inside.2.2.2 before (.inr (.inl rfl)) (heq ▸ h.mem_uses)

end

section
variable {before id : InstId} {producer consumer : ValuePlan}

theorem elided_fusedWith (hlt : before < data.stackElided.length) (i : InstId) :
    (data.fusedWith before id producer consumer).elided i = (data.elided i || decide (i = before)) := by
  rw [elided, elided, fusedWith]
  dsimp only
  rw [getD_eq_getElem?_getD, getD_eq_getElem?_getD, List.getElem?_set]
  by_cases hi : before = i
  · subst hi
    rw [if_pos rfl, if_pos hlt]
    simp
  · rw [if_neg hi, decide_eq_false (fun h => hi h.symm), Bool.or_false]

theorem planAt_fusedWith (hplan : planAt data.values id = some consumer) (i : InstId) :
    planAt (data.fusedWith before id producer consumer).values i =
      if i = id then some (Stack.rewritten producer consumer) else planAt data.values i := by
  have hlt : id < data.values.length := by
    refine Nat.lt_of_not_le fun hle => ?_
    rw [planAt, List.getElem?_eq_none hle] at hplan
    cases hplan
  rw [planAt, planAt, fusedWith]
  dsimp only
  rw [List.getElem?_set]
  by_cases hi : id = i
  · subst hi
    rw [if_pos rfl, if_pos hlt, if_pos rfl]
    rfl
  · rw [if_neg hi, if_neg fun h => hi h.symm]

end

/-! ## Runs of fused data -/

section
variable {k : Machine W M} {env env' : ValueId → W} {r : ValueId} {m : M}

/-- The environments agree on all values but one. -/
def Agree (r : ValueId) (env env' : ValueId → W) : Prop := ∀ v, v ≠ r → env v = env' v

theorem Agree.update (h : Agree r env env') (v : ValueId) (x : W) :
    Agree r (Function.update env v x) (Function.update env' v x) := by
  intro w hw
  rw [update_apply, update_apply, h w hw]

theorem Agree.map (h : Agree r env env') {vs : List ValueId} (hr : r ∉ vs) :
    vs.map env = vs.map env' :=
  map_congr_left fun v hv => h v fun heq => hr (heq ▸ hv)

theorem Agree.assign (h : Agree r env env') (vs : List ValueId) (xs : List W) :
    Agree r (assign env vs xs) (assign env' vs xs) := by
  unfold FusionData.assign
  induction vs.zip xs generalizing env env' with
  | nil => exact h
  | cons p ps ih => exact ih (h.update p.1 p.2)

/-- Ends of blocks that agree. -/
def Same (r : ValueId) : Option ((ValueId → W) × M) → Option ((ValueId → W) × M) → Prop
  | none, none => True
  | some (env, m), some (env', m') => Agree r env env' ∧ m = m'
  | _, _ => False

theorem body_skip {i : InstId} (hi : data.elided i = true) (ids : List InstId) :
    data.body k (i :: ids) env m = data.body k ids env m := by
  rw [body, if_pos hi]

theorem body_skip_all {l : List InstId} (hl : ∀ i ∈ l, data.elided i = true) (ids : List InstId) :
    data.body k (l ++ ids) env m = data.body k ids env m := by
  induction l with
  | nil => rfl
  | cons i l ih =>
    rw [cons_append, body_skip (hl i mem_cons_self), ih fun j hj => hl j (mem_cons_of_mem _ hj)]

/-- A value program runs to one value. -/
theorem body_value {i : InstId} {p : ValuePlan} {ids : List InstId}
    {out : List (Seen W) × Option ((ValueId → W) × M)} (hi : data.elided i = false)
    (hp : planAt data.values i = some p) : data.body k (i :: ids) env m = some out ↔ ∃ m' x seen,
      eval k env p.steps (m, []) = some (m', [x]) ∧
      data.body k ids (Function.update env p.result x) m' = some (seen, out.2) ∧
      out.1 = .value i x ((data.recovery i).map env)
        ((data.recovery i).map (Function.update env p.result x)) :: seen := by
  obtain ⟨events, next⟩ := out
  rw [body, hi, if_neg Bool.false_ne_true, hp]
  dsimp only
  constructor
  · intro h
    split at h
    · rename_i m' x heval
      obtain ⟨⟨seen, next'⟩, hrest, heq⟩ := Option.map_eq_some_iff.1 h
      cases heq
      exact ⟨m', x, seen, heval, hrest, rfl⟩
    · cases h
  · rintro ⟨m', x, seen, heval, hrest, rfl⟩
    rw [heval]
    dsimp only
    rw [hrest]
    rfl

section
variable {b : BlockId} {blk : Allocation.Block} {pre mid post : List InstId} {before id : InstId}
  {producer consumer : ValuePlan}

/-- From environments that agree but for the result, fused data shows the same and ends alike. -/
def Sim (k : Machine W M) (data : FusionData) (before id : InstId) (producer consumer : ValuePlan)
    (ids : List InstId) : Prop :=
  ∀ env env' m seen next, Agree producer.result env env' →
    data.body k ids env m = some (seen, next) →
      ∃ next', (data.fusedWith before id producer consumer).body k ids env' m =
        some (seen.filter (data.fusedWith before id producer consumer).kept, next') ∧
        Same producer.result next next'

theorem Sim.nil : Sim k data before id producer consumer [] := by
  intro env env' m seen next hagree hbody
  cases hbody
  exact ⟨some (env', m), rfl, hagree, rfl⟩

theorem recovery_sub {i : InstId} {v : ValueId} (hi : data.elided i = false)
    (h : v ∉ data.usesOf i) : v ∉ data.recovery i := by
  rw [usesOf, hi, if_neg Bool.false_ne_true] at h
  exact fun hv => h (mem_append_right _ hv)

include k in
section
variable (h : Fuses data b blk pre mid post before id producer consumer)
include h

/-- An instruction that does not read the result. -/
theorem Sim.cons {i : InstId} {ids : List InstId} (hi : producer.result ∉ data.usesOf i)
    (hids : Sim k data before id producer consumer ids) :
    Sim k data before id producer consumer (i :: ids) := by
  intro env env' m seen next hagree hbody
  have hne : i ≠ id := fun heq => hi (heq ▸ h.mem_uses)
  have helided : (data.fusedWith before id producer consumer).elided i =
      (data.elided i || decide (i = before)) := elided_fusedWith h.before_lt i
  have hplan : planAt (data.fusedWith before id producer consumer).values i =
      planAt data.values i := (planAt_fusedWith h.id_plan i).trans (if_neg hne)
  cases hskip : data.elided i with
  | true =>
    rw [hskip, Bool.true_or] at helided
    rw [body_skip hskip] at hbody
    rw [body_skip helided]
    exact hids env env' m seen next hagree hbody
  | false =>
    rw [hskip, Bool.false_or] at helided
    have hrecovery := recovery_sub hskip hi
    by_cases hbefore : i = before
    · -- the producer no longer runs
      subst hbefore
      obtain ⟨m', x, rest, heval, hrest, rfl⟩ := (body_value hskip h.before_plan).1 hbody
      obtain ⟨rfl, -⟩ := eval_plain h.plain heval
      rw [body_skip (by rw [helided]; exact decide_eq_true rfl)]
      obtain ⟨next', hrun, hsame⟩ := hids _ env' m' rest next (fun v hv => by
        rw [update_of_ne hv, hagree v hv]) hrest
      refine ⟨next', ?_, hsame⟩
      rw [hrun, filter_cons, kept, helided, if_neg (by simp)]
    · have helided' : (data.fusedWith before id producer consumer).elided i = false := by
        rw [helided]
        exact decide_eq_false hbefore
      cases hvalue : planAt data.values i with
      | some p =>
        obtain ⟨m', x, rest, heval, hrest, rfl⟩ := (body_value hskip hvalue).1 hbody
        have hreads : producer.result ∉ expression p.steps := by
          rw [usesOf, hskip, if_neg Bool.false_ne_true, hvalue] at hi
          exact fun hv => hi (mem_append_left _ hv)
        have heval' : eval k env' p.steps (m, []) = some (m', [x]) := by
          rw [← heval]
          exact (eval_congr fun v hv => hagree v fun heq => hreads (heq ▸ hv)).symm
        have hnext := hagree.update p.result x
        obtain ⟨next', hrun, hsame⟩ := hids _ _ m' rest next hnext hrest
        refine ⟨next', (body_value helided' (hplan.trans hvalue)).2
          ⟨m', x, _, heval', hrun, ?_⟩, hsame⟩
        rw [filter_cons, kept, helided', Bool.not_false, if_pos rfl, hagree.map hrecovery, hnext.map hrecovery]
        rfl
      | none =>
        rw [body, hskip, if_neg Bool.false_ne_true, hvalue] at hbody
        rw [body, helided', if_neg Bool.false_ne_true, hplan, hvalue]
        dsimp only at hbody ⊢
        obtain ⟨inst, hinst, hbody⟩ := Option.bind_eq_some_iff.1 hbody
        have hrec : data.recovery i = inst.recovery := by rw [recovery, hinst]; rfl
        have huses : producer.result ∉ inst.uses := by
          rw [usesOf, hskip, if_neg Bool.false_ne_true, hvalue, hinst] at hi
          exact fun hv => hi (mem_append_left _ hv)
        rw [hrec] at hrecovery
        have hinst' : (data.fusedWith before id producer consumer).graph.instructions[i]? =
            some inst := hinst
        rw [hinst', Option.bind_some]
        rw [hagree.map huses, hagree.map hrecovery] at hbody
        have hnext := hagree.assign inst.definitions
          (k.perform i m (inst.uses.map env') (inst.recovery.map env')).1
        rw [hnext.map hrecovery] at hbody
        split at hbody
        · rename_i hstop
          cases hbody
          exact ⟨none, rfl, trivial⟩
        · rename_i m' hgo
          obtain ⟨⟨rest, next''⟩, hrest, heq⟩ := Option.map_eq_some_iff.1 hbody
          cases heq
          obtain ⟨next', hrun, hsame⟩ := hids _ _ m' rest next'' hnext hrest
          rw [hrun]
          exact ⟨next', rfl, hsame⟩

theorem Sim.append {l ids : List InstId} (hl : ∀ i ∈ l, producer.result ∉ data.usesOf i)
    (hids : Sim k data before id producer consumer ids) :
    Sim k data before id producer consumer (l ++ ids) := by
  induction l with
  | nil => exact hids
  | cons i l ih =>
    exact Sim.cons h (hl i mem_cons_self) (ih fun j hj => hl j (mem_cons_of_mem _ hj))

/-- The producer and the consumer. -/
theorem Sim.pair (hids : Sim k data before id producer consumer post) :
    Sim k data before id producer consumer (before :: (mid ++ id :: post)) := by
  intro env env' m seen next hagree hbody
  have helided : ∀ i, (data.fusedWith before id producer consumer).elided i =
      (data.elided i || decide (i = before)) := elided_fusedWith h.before_lt
  obtain ⟨hcount, hrecovery⟩ := h.consumer_reads
  obtain ⟨m₁, y, rest, hproducer, hrest, rfl⟩ := (body_value h.before_runs h.before_plan).1 hbody
  rw [body_skip_all h.between] at hrest
  obtain ⟨m₂, x, rest, hconsumer, hrest, rfl⟩ := (body_value h.id_runs h.id_plan).1 hrest
  obtain ⟨rfl, hrewritten⟩ := eval_rewritten h.plain h.producer_reads hcount h.read hagree hproducer
    hconsumer
  have hagree' : Agree producer.result (Function.update env producer.result y) env' := by
    intro v hv
    rw [update_of_ne hv, hagree v hv]
  have hnext := hagree'.update consumer.result x
  obtain ⟨next', hrun, hsame⟩ := hids _ _ m₂ rest next hnext hrest
  refine ⟨next', ?_, hsame⟩
  have hbefore : (data.fusedWith before id producer consumer).elided before = true := by
    rw [helided, decide_eq_true rfl, Bool.or_true]
  have hid : (data.fusedWith before id producer consumer).elided id = false := by
    rw [helided, h.id_runs, decide_eq_false fun heq => h.ne heq.symm]
    rfl
  have hmid : ∀ i ∈ mid, (data.fusedWith before id producer consumer).elided i = true :=
    fun i hi => by rw [helided, h.between i hi, Bool.true_or]
  rw [body_skip hbefore, body_skip_all hmid]
  refine (body_value hid ((planAt_fusedWith h.id_plan id).trans (if_pos rfl))).2
    ⟨m₂, x, _, hrewritten, hrun, ?_⟩
  rw [filter_cons, kept, hbefore, if_neg (by decide), filter_cons, kept, hid, Bool.not_false,
    if_pos rfl, hagree'.map hrecovery, hnext.map hrecovery]
  rfl

/-- Every block is simulated. -/
theorem Fuses.sim {b' : BlockId} {blk' : Allocation.Block}
    (hb' : data.graph.blocks[b']? = some blk') :
    Sim k data before id producer consumer blk'.instructions := by
  by_cases heq : b' = b
  · subst heq
    obtain rfl : blk' = blk := Option.some.inj (hb'.symm.trans h.block)
    have hothers := h.inside.2.2.2
    rw [h.instructions]
    refine Sim.append h (fun i hi => hothers i (.inl hi)) (Sim.pair h ?_)
    rw [← append_nil post]
    exact Sim.append h (fun i hi => hothers i (.inr (.inr (.inr hi)))) .nil
  · rw [← append_nil blk'.instructions]
    refine Sim.append h (fun i hi hv => ?_) .nil
    exact h.outside hb' heq (mem_append_right _ (List.mem_flatMap.2 ⟨i, hi, hv⟩))

end

/-- No block reads the result at its start or at its end. -/
theorem Fuses.ends (h : Fuses data b blk pre mid post before id producer consumer) {b' : BlockId}
    {blk' : Allocation.Block} (hb' : data.graph.blocks[b']? = some blk') :
    producer.result ∉ blk'.termUses ∧ producer.result ∉ blk'.recovery := by
  by_cases heq : b' = b
  · subst heq
    obtain rfl : blk' = blk := Option.some.inj (hb'.symm.trans h.block)
    exact ⟨h.inside.1, h.inside.2.1⟩
  · have hnot := h.outside hb' heq
    rw [blockReads, mem_append, mem_append, not_or, not_or] at hnot
    exact hnot.1

theorem follow_agree {r : ValueId} (hagree : Agree r env env') (h : r ∉ blk.termUses) :
    follow k env blk.terminator = follow k env' blk.terminator := by
  rw [Allocation.Block.termUses, mem_append, mem_append, not_or, not_or] at h
  cases hterm : blk.terminator with
  | exit s => rfl
  | jump e => rfl
  | branch v e e' =>
    have hv : v ≠ r := fun heq => h.1.2 (by rw [hterm, heq]; exact List.mem_singleton.2 rfl)
    rw [follow, follow, hagree v hv]

theorem follow_arguments {e : Allocation.Edge} (h : follow k env blk.terminator = some e) :
    ∀ v ∈ e.arguments, v ∈ blk.termUses := by
  intro v hv
  refine mem_append_right _ (List.mem_flatMap.2 ⟨e, ?_, hv⟩)
  cases hterm : blk.terminator with
  | exit s =>
    rw [hterm] at h
    cases h
  | jump e' =>
    rw [hterm] at h
    cases h
    exact List.mem_singleton.2 rfl
  | branch c a a' =>
    rw [hterm] at h
    have heq := Option.some.inj h
    by_cases hc : k.holds (env c) = true
    · rw [if_pos hc] at heq
      rw [← heq]
      exact mem_cons_self
    · rw [if_neg hc] at heq
      rw [← heq]
      exact mem_cons_of_mem _ (List.mem_singleton.2 rfl)

/-- A run after a fusion shows what the run before it showed, without the producer. -/
theorem Fuses.run (h : Fuses data b blk pre mid post before id producer consumer) (n : Nat)
    {b' : BlockId} {seen : List (Seen W)} (hagree : Agree producer.result env env')
    (hrun : data.run k n b' env m = some seen) :
    (data.fusedWith before id producer consumer).run k n b' env' m =
      some (seen.filter (data.fusedWith before id producer consumer).kept) := by
  induction n generalizing b' env env' m seen with
  | zero =>
    cases hrun
    rfl
  | succ n ih =>
    rw [FusionData.run] at hrun ⊢
    obtain ⟨blk', hb', hrun⟩ := Option.bind_eq_some_iff.1 hrun
    obtain ⟨⟨inner, next⟩, hbody, hrun⟩ := Option.bind_eq_some_iff.1 hrun
    obtain ⟨hterm, hrec⟩ := h.ends hb'
    obtain ⟨next', hbody', hsame⟩ := h.sim hb' env env' m inner next hagree hbody
    have hb'' : (data.fusedWith before id producer consumer).graph.blocks[b']? = some blk' := hb'
    rw [hb'', Option.bind_some, hbody', Option.bind_some]
    dsimp only at hrun ⊢
    match next, next', hsame with
    | none, none, _ =>
      cases hrun
      rw [filter_cons, kept_entered, if_pos rfl, hagree.map hrec]
    | some (env₁, m₁), some (env₂, _), ⟨hagree', rfl⟩ =>
      dsimp only at hrun ⊢
      rw [hagree.map hrec, hagree'.map hterm, follow_agree hagree' hterm] at hrun
      cases hfollow : follow k env₂ blk'.terminator with
      | none =>
        rw [hfollow] at hrun
        cases hrun
        rw [filter_append, filter_cons, kept_entered, if_pos rfl]
        rfl
      | some e =>
        rw [hfollow] at hrun
        dsimp only at hrun ⊢
        obtain ⟨target, htarget, hrun⟩ := Option.bind_eq_some_iff.1 hrun
        obtain ⟨rest, hrest, rfl⟩ := Option.map_eq_some_iff.1 hrun
        have htarget' : (data.fusedWith before id producer consumer).graph.blocks[e.target]? =
            some target := htarget
        have harguments : producer.result ∉ e.arguments := fun hv =>
          hterm (follow_arguments hfollow _ hv)
        rw [hagree'.map harguments] at hrest
        rw [htarget', Option.bind_some, ih (hagree'.assign _ _) hrest, filter_append,
          filter_append, filter_cons, kept_entered, if_pos rfl]
        rfl

/-! ## Counting -/

section
variable (h : Fuses data b blk pre mid post before id producer consumer)
include h

/-- Other instructions read no more than before. -/
theorem Fuses.uses_le {i : InstId} (hi : i ≠ id) (v : ValueId) :
    ((data.fusedWith before id producer consumer).usesOf i).count v ≤ (data.usesOf i).count v := by
  rw [usesOf, usesOf, elided_fusedWith h.before_lt, planAt_fusedWith h.id_plan, if_neg hi]
  by_cases hb : i = before
  · rw [decide_eq_true hb, Bool.or_true, if_pos rfl]
    exact Nat.zero_le _
  · rw [decide_eq_false hb, Bool.or_false]
    exact Nat.le_refl _

theorem Fuses.uses_before : (data.fusedWith before id producer consumer).usesOf before = [] := by
  rw [usesOf, elided_fusedWith h.before_lt, decide_eq_true rfl, Bool.or_true, if_pos rfl]

/-- The consumer takes over what the producer read, in place of its result. -/
theorem Fuses.uses_id (v : ValueId) :
    ((data.fusedWith before id producer consumer).usesOf id).count v ≤
        (data.usesOf before).count v + (data.usesOf id).count v ∧
      producer.result ∉ (data.fusedWith before id producer consumer).usesOf id := by
  obtain ⟨hone, hrecovery⟩ := h.consumer_reads
  obtain ⟨first, last, hsplit, hrewritten, hfirst, hlast⟩ := rewritten_split hone h.read
  have hnew : (data.fusedWith before id producer consumer).usesOf id =
      expression first ++ (expression producer.steps ++ expression last) ++ data.recovery id := by
    rw [usesOf, elided_fusedWith h.before_lt, h.id_runs, decide_eq_false fun heq => h.ne heq.symm,
      Bool.or_false, if_neg Bool.false_ne_true, planAt_fusedWith h.id_plan, if_pos rfl,
      Option.elim_some, hrewritten, expression_append, expression_append]
    rfl
  have hold : data.usesOf id =
      expression first ++ ([producer.result] ++ expression last) ++ data.recovery id := by
    rw [usesOf, h.id_runs, if_neg Bool.false_ne_true, h.id_plan, Option.elim_some, hsplit,
      expression_append, expression_cons]
    rfl
  have hbefore : data.usesOf before = expression producer.steps ++ data.recovery before := by
    rw [usesOf, h.before_runs, if_neg Bool.false_ne_true, h.before_plan]
    rfl
  rw [hnew, hold, hbefore]
  constructor
  · simp only [List.count_append]
    omega
  · simp only [mem_append, not_or]
    exact ⟨⟨hfirst, h.producer_reads, hlast⟩, hrecovery⟩

theorem Fuses.list_le {l : List InstId} (hl : id ∉ l) (v : ValueId) :
    (l.flatMap (data.fusedWith before id producer consumer).usesOf).count v ≤
      (l.flatMap data.usesOf).count v := by
  induction l with
  | nil => exact Nat.le_refl _
  | cons i l ih =>
    rw [mem_cons, not_or] at hl
    rw [flatMap_cons, flatMap_cons, List.count_append, List.count_append]
    exact Nat.add_le_add (h.uses_le (fun heq => hl.1 heq.symm) v) (ih hl.2)

/-- A fusion reads no value more often. -/
theorem Fuses.block_le {b' : BlockId} {blk' : Allocation.Block}
    (hb' : data.graph.blocks[b']? = some blk') (v : ValueId) :
    ((data.fusedWith before id producer consumer).blockReads blk').count v ≤
      (data.blockReads blk').count v := by
  simp only [blockReads, List.count_append]
  refine Nat.add_le_add_left ?_ _
  by_cases heq : b' = b
  · subst heq
    obtain rfl : blk' = blk := Option.some.inj (hb'.symm.trans h.block)
    have hothers := h.inside.2.2.2
    have hpre := h.list_le (l := pre) (fun hi => hothers id (.inl hi) h.mem_uses) v
    have hmid := h.list_le (l := mid) (fun hi => hothers id (.inr (.inr (.inl hi))) h.mem_uses) v
    have hpost := h.list_le (l := post) (fun hi => hothers id (.inr (.inr (.inr hi))) h.mem_uses) v
    have hid := (h.uses_id v).1
    rw [h.instructions]
    simp only [flatMap_append, flatMap_cons, List.count_append, h.uses_before, count_nil]
    omega
  · refine h.list_le (fun hi => ?_) v
    refine h.outside hb' heq ?_
    exact mem_append_right _ (List.mem_flatMap.2 ⟨id, hi, h.mem_uses⟩)

theorem Fuses.reads_le (v : ValueId) :
    (data.fusedWith before id producer consumer).reads.count v ≤ data.reads.count v := by
  have hall : ∀ l : List Allocation.Block, (∀ blk' ∈ l, ∃ b' : BlockId, data.graph.blocks[b']? = some blk') →
      (l.flatMap (data.fusedWith before id producer consumer).blockReads).count v ≤
        (l.flatMap data.blockReads).count v := by
    intro l hl
    induction l with
    | nil => exact Nat.le_refl _
    | cons blk' l ih =>
      obtain ⟨b', hb'⟩ := hl blk' mem_cons_self
      rw [flatMap_cons, flatMap_cons, List.count_append, List.count_append]
      exact Nat.add_le_add (h.block_le hb' v) (ih fun c hc => hl c (mem_cons_of_mem _ hc))
  exact hall data.graph.blocks fun blk' hblk' => mem_iff_getElem?.1 hblk'

/-- The result of the producer is read no more. -/
theorem Fuses.not_read : producer.result ∉ (data.fusedWith before id producer consumer).reads := by
  intro hmem
  obtain ⟨blk', hblk', hread⟩ := List.mem_flatMap.1 hmem
  obtain ⟨b', hb'⟩ := mem_iff_getElem?.1 hblk'
  have hzero : ∀ i, producer.result ∉ data.usesOf i →
      producer.result ∉ (data.fusedWith before id producer consumer).usesOf i := by
    intro i hi
    have hne : i ≠ id := fun heq => hi (heq ▸ h.mem_uses)
    have hle := h.uses_le hne producer.result
    rw [List.count_eq_zero.2 hi] at hle
    exact List.count_eq_zero.1 (Nat.le_zero.1 hle)
  obtain ⟨hterm, hrec⟩ := h.ends hb'
  rw [blockReads, mem_append, mem_append] at hread
  obtain ⟨i, hi, hv⟩ := List.mem_flatMap.1 (hread.resolve_left (not_or.2 ⟨hterm, hrec⟩))
  by_cases heq : i = id
  · exact (h.uses_id producer.result).2 (heq ▸ hv)
  · refine hzero i (fun hread' => ?_) hv
    by_cases hblock : b' = b
    · subst hblock
      obtain rfl : blk' = blk := Option.some.inj (hb'.symm.trans h.block)
      rw [h.instructions, mem_append, mem_cons, mem_append, mem_cons] at hi
      have hothers := h.inside.2.2.2 i
      rcases hi with hi | hi | hi | hi | hi
      · exact hothers (.inl hi) hread'
      · exact hothers (.inr (.inl hi)) hread'
      · exact hothers (.inr (.inr (.inl hi))) hread'
      · exact heq hi
      · exact hothers (.inr (.inr (.inr hi))) hread'
    · exact h.outside hb' hblock (mem_append_right _ (List.mem_flatMap.2 ⟨i, hi, hread'⟩))

end

end

end

/-! ## What fusion keeps -/

/-- Runs of the second data show what runs of the first one show, without the programs that are
elided. -/
def Refines (data data' : FusionData) : Prop :=
  ∀ (W M : Type) (k : Machine W M) (n : Nat) (b : BlockId) (env : ValueId → W) (m : M)
    (seen : List (Seen W)), data.run k n b env m = some seen →
      data'.run k n b env m = some (seen.filter data'.kept)

section
variable {k : Machine W M} {env : ValueId → W} {m : M}

theorem body_kept {ids : List InstId} {seen : List (Seen W)} {next : Option ((ValueId → W) × M)}
    (h : data.body k ids env m = some (seen, next)) : ∀ e ∈ seen, data.kept e = true := by
  induction ids generalizing env m seen next with
  | nil =>
    cases h
    exact fun _ he => absurd he not_mem_nil
  | cons i ids ih =>
    cases hskip : data.elided i with
    | true =>
      rw [body_skip hskip] at h
      exact ih h
    | false =>
      cases hvalue : planAt data.values i with
      | some p =>
        obtain ⟨m', x, rest, -, hrest, rfl⟩ := (body_value hskip hvalue).1 h
        refine List.forall_mem_cons.2 ⟨?_, ih hrest⟩
        rw [kept, hskip]
        rfl
      | none =>
        rw [body, hskip, if_neg Bool.false_ne_true, hvalue] at h
        dsimp only at h
        obtain ⟨inst, -, h⟩ := Option.bind_eq_some_iff.1 h
        split at h
        · cases h
          exact List.forall_mem_cons.2 ⟨rfl, fun _ he => absurd he not_mem_nil⟩
        · obtain ⟨⟨rest, next'⟩, hrest, heq⟩ := Option.map_eq_some_iff.1 h
          cases heq
          exact List.forall_mem_cons.2 ⟨rfl, ih hrest⟩

/-- A run shows nothing of elided programs. -/
theorem run_kept (n : Nat) {b : BlockId} {seen : List (Seen W)}
    (h : data.run k n b env m = some seen) : ∀ e ∈ seen, data.kept e = true := by
  induction n generalizing b env m seen with
  | zero =>
    cases h
    exact fun _ he => absurd he not_mem_nil
  | succ n ih =>
    rw [FusionData.run] at h
    obtain ⟨blk, -, h⟩ := Option.bind_eq_some_iff.1 h
    obtain ⟨⟨inner, next⟩, hbody, h⟩ := Option.bind_eq_some_iff.1 h
    have hinner : ∀ e ∈ Seen.entered b (blk.recovery.map env) :: inner, data.kept e = true :=
      List.forall_mem_cons.2 ⟨rfl, body_kept hbody⟩
    dsimp only at h
    cases next with
    | none =>
      cases h
      exact hinner
    | some end_ =>
      obtain ⟨env', m'⟩ := end_
      have hended : ∀ e ∈ Seen.entered b (blk.recovery.map env) :: inner ++
          [.ended b (blk.termUses.map env')], data.kept e = true :=
        List.forall_mem_append.2 ⟨hinner, List.forall_mem_singleton.2 rfl⟩
      dsimp only at h
      cases hfollow : follow k env' blk.terminator with
      | none =>
        rw [hfollow] at h
        cases h
        exact hended
      | some e =>
        rw [hfollow] at h
        obtain ⟨target, -, h⟩ := Option.bind_eq_some_iff.1 h
        obtain ⟨rest, hrest, rfl⟩ := Option.map_eq_some_iff.1 h
        exact List.forall_mem_append.2 ⟨hended, ih hrest⟩

end

theorem Refines.refl (data : FusionData) : Refines data data := by
  intro W M k n b env m seen h
  rw [h, List.filter_eq_self.2 (run_kept n h)]

theorem Refines.trans {data' data'' : FusionData} (h : Refines data data')
    (h' : Refines data' data'')
    (hmono : ∀ i, data'.elided i = true → data''.elided i = true) : Refines data data'' := by
  intro W M k n b env m seen hrun
  rw [h' W M k n b env m _ (h W M k n b env m seen hrun), filter_filter]
  congr 1
  refine filter_congr fun e _ => ?_
  cases e with
  | value i x before after =>
    rw [kept, kept]
    cases hi : data'.elided i with
    | true =>
      rw [hmono i hi]
      rfl
    | false => exact Bool.and_true _
  | entered => rfl
  | performed => rfl
  | ended => rfl

/-- What the result of the search has in common with the data it started from. -/
structure Fused (data data' : FusionData) : Prop where
  refines : Refines data data'
  mono : ∀ i, data.elided i = true → data'.elided i = true
  results : ∀ i, (planAt data'.values i).map (·.result) = (planAt data.values i).map (·.result)
  reads_le : ∀ v, data'.reads.count v ≤ data.reads.count v
  fresh : ∀ i, data'.elided i = true → data.elided i = true ∨
    ∃ p, planAt data.values i = some p ∧ p.result ∉ data'.reads

theorem Fused.refl (data : FusionData) : Fused data data :=
  ⟨.refl data, fun _ h => h, fun _ => rfl, fun _ => Nat.le_refl _, fun _ h => .inl h⟩

/-- One more fusion. -/
theorem Fused.fuse {data' : FusionData} {b : BlockId} {blk : Allocation.Block}
    {pre mid post : List InstId} {before id : InstId} {producer consumer : ValuePlan}
    (h : Fused data data') (hfuses : Fuses data' b blk pre mid post before id producer consumer) :
    Fused data (data'.fusedWith before id producer consumer) := by
  have hmono : ∀ i, data'.elided i = true →
      (data'.fusedWith before id producer consumer).elided i = true := by
    intro i hi
    rw [elided_fusedWith hfuses.before_lt, hi, Bool.true_or]
  have hrefines : Refines data' (data'.fusedWith before id producer consumer) :=
    fun _ _ _ n _ _ _ _ hrun => hfuses.run n (fun _ _ => rfl) hrun
  refine ⟨h.refines.trans hrefines hmono, fun i hi => hmono i (h.mono i hi), fun i => ?_,
    fun v => ?_, fun i hi => ?_⟩
  · rw [planAt_fusedWith hfuses.id_plan, ← h.results]
    split
    · rename_i hid
      rw [hid, hfuses.id_plan]
      rfl
    · rfl
  · exact Nat.le_trans (hfuses.reads_le v) (h.reads_le v)
  · rw [elided_fusedWith hfuses.before_lt, Bool.or_eq_true] at hi
    rcases hi with hi | hi
    · refine (h.fresh i hi).imp_right fun ⟨p, hp, hread⟩ => ⟨p, hp, fun hmem => hread ?_⟩
      exact List.count_pos_iff.1 (Nat.lt_of_lt_of_le (List.count_pos_iff.2 hmem)
        (hfuses.reads_le _))
    · have hresult := h.results before
      rw [hfuses.before_plan] at hresult
      obtain ⟨p, hp, heq⟩ := Option.map_eq_some_iff.1 hresult.symm
      refine .inr ⟨p, (of_decide_eq_true hi).symm ▸ hp, ?_⟩
      rw [heq]
      exact hfuses.not_read

/-! ## The search -/

/-- The data of a state of the search. -/
def withState (data : FusionData) (s : Stack.State) : FusionData :=
  { data with values := s.values, stackElided := s.elided }

/-- The counts bound the reads. -/
structure Inv (data : FusionData) (s : Stack.State) : Prop where
  fused : Fused data (data.withState s)
  counts : ∀ v n, s.counts[v]? = some n → (data.withState s).reads.count v ≤ n

/-- The last program that runs in a part of a block. -/
def Previous (data : FusionData) (s : Stack.State) (done : List InstId) : Prop :=
  ∀ before, s.previous = some before → (data.withState s).elided before = false ∧
    ∃ pre mid, done = pre ++ before :: mid ∧ ∀ i ∈ mid, (data.withState s).elided i = true

/-- What a turn of the search does. -/
inductive Turned (s : Stack.State) (id : InstId) : Stack.State → Prop
  | skipped (left : Nat) : s.elided[id]? = some true → Turned s id { s with left }
  | passed (left : Nat) : Turned s id { s with left, previous := none }
  | kept (left : Nat) : s.elided[id]? = some false →
      Turned s id { s with left, previous := some id }
  | fused (left : Nat) {before : InstId} {producer consumer : ValuePlan} :
      s.elided[id]? = some false → s.previous = some before →
      s.values[before]? = some (some producer) → s.values[id]? = some (some consumer) →
      s.counts[producer.result]? = some 1 → producer.steps.all Stack.Step.plain = true →
      .value producer.result ∈ consumer.steps → before < s.elided.length →
      Turned s id { s with
        left
        values := s.values.set id (some (Stack.rewritten producer consumer))
        elided := s.elided.set before true
        counts := s.counts.set producer.result 0
        fused := s.fused + 1
        previous := some id }

section
variable {types : List Ty} {s s' : Stack.State} {before id : InstId} {producer consumer : ValuePlan}

theorem fusible_ok {counts : List Nat}
    (h : Stack.fusible types counts producer consumer = .ok true) :
    counts[producer.result]? = some 1 ∧ producer.steps.all Stack.Step.plain = true ∧
      .value producer.result ∈ consumer.steps := by
  unfold Stack.fusible at h
  obtain ⟨n, hn, h⟩ := bind_eq_ok.1 h
  split at h
  · rename_i hone
    obtain ⟨ty, -, h⟩ := bind_eq_ok.1 h
    have hall := Except.ok.inj h
    rw [Bool.and_eq_true, Bool.and_eq_true, any_eq_true] at hall
    obtain ⟨⟨-, hplain⟩, step, hstep, heq⟩ := hall
    refine ⟨?_, hplain, of_decide_eq_true heq ▸ hstep⟩
    rw [idx_eq_ok.1 hn, hone]
  · cases h

theorem fuse_ok (h : Stack.fuse types s before id producer consumer = .ok s') :
    s'.left ≤ s.left ∧ ((∃ left, s' = { s with left }) ∨
      s.counts[producer.result]? = some 1 ∧ producer.steps.all Stack.Step.plain = true ∧
      .value producer.result ∈ consumer.steps ∧ before < s.elided.length ∧
      ∃ left, s' = { s with
        left
        values := s.values.set id (some (Stack.rewritten producer consumer))
        elided := s.elided.set before true
        counts := s.counts.set producer.result 0
        fused := s.fused + 1 }) := by
  unfold Stack.fuse at h
  obtain ⟨ok, hok, h⟩ := bind_eq_ok.1 h
  cases ok with
  | false =>
    cases h
    exact ⟨Nat.le_refl _, .inl ⟨s.left, rfl⟩⟩
  | true =>
    obtain ⟨left, hspend, h⟩ := bind_eq_ok.1 h
    have hleft : left ≤ s.left := (spend_eq_ok.1 hspend).2 ▸ Nat.sub_le _ _
    split at h
    · obtain ⟨-, -, h⟩ := bind_eq_ok.1 h
      obtain ⟨values, hvalues, h⟩ := bind_eq_ok.1 h
      obtain ⟨elided, helided, h⟩ := bind_eq_ok.1 h
      obtain ⟨counts, hcounts, h⟩ := bind_eq_ok.1 h
      obtain ⟨-, rfl⟩ := setAt_eq_ok.1 hvalues
      obtain ⟨hlt, rfl⟩ := setAt_eq_ok.1 helided
      obtain ⟨-, rfl⟩ := setAt_eq_ok.1 hcounts
      cases h
      obtain ⟨hcount, hplain, hread⟩ := fusible_ok hok
      exact ⟨hleft, .inr ⟨hcount, hplain, hread, hlt, left, rfl⟩⟩
    · cases h
      exact ⟨hleft, .inl ⟨left, rfl⟩⟩

/-- Every turn takes work. -/
theorem turn_ok (h : Stack.turn types s id = .ok s') : s'.left < s.left ∧ Turned s id s' := by
  unfold Stack.turn at h
  obtain ⟨left, hspend, h⟩ := bind_eq_ok.1 h
  have hleft : left < s.left := by
    obtain ⟨hle, rfl⟩ := spend_eq_ok.1 hspend
    omega
  obtain ⟨skip, hskip, h⟩ := bind_eq_ok.1 h
  have hskip' : s.elided[id]? = some skip := idx_eq_ok.1 hskip
  cases skip with
  | true =>
    cases h
    exact ⟨hleft, .skipped left hskip'⟩
  | false =>
    rw [if_neg Bool.false_ne_true] at h
    obtain ⟨plan, hplan, h⟩ := bind_eq_ok.1 h
    have hplan' : s.values[id]? = some plan := idx_eq_ok.1 hplan
    cases plan with
    | none =>
      cases h
      exact ⟨hleft, .passed left⟩
    | some consumer =>
      change Stack.consume types { s with left } id consumer = .ok s' at h
      unfold Stack.consume at h
      cases hprevious : s.previous with
      | none =>
        rw [hprevious] at h
        cases h
        exact ⟨hleft, .kept left hskip'⟩
      | some before =>
        rw [hprevious] at h
        obtain ⟨plan, hbefore, h⟩ := bind_eq_ok.1 h
        obtain ⟨producer, hproducer, h⟩ := bind_eq_ok.1 h
        obtain ⟨s₁, hfuse, h⟩ := bind_eq_ok.1 h
        cases h
        have hbefore' : s.values[before]? = some (some producer) :=
          (unwrap_eq_ok.1 hproducer) ▸ idx_eq_ok.1 hbefore
        obtain ⟨hle, hcase⟩ := fuse_ok hfuse
        refine ⟨Nat.lt_of_le_of_lt hle hleft, ?_⟩
        rcases hcase with ⟨left', rfl⟩ | ⟨hcount, hplain, hread, hlt, left', rfl⟩
        · exact .kept left' hskip'
        · exact .fused left' hskip' hprevious hbefore' hplan' hcount hplain hread hlt

/-- The steps of the search. -/
theorem Turned.keeps {b : BlockId} {blk : Allocation.Block} {done post : List InstId}
    (hturn : Turned s id s') (hb : data.graph.blocks[b]? = some blk)
    (hinstructions : blk.instructions = done ++ id :: post) (h : Inv data s)
    (hprevious : Previous data s done) : Inv data s' ∧ Previous data s' (done ++ [id]) := by
  have hruns : ∀ {i skip}, s.elided[i]? = some skip → (data.withState s).elided i = skip := by
    intro i skip hi
    rw [elided, withState, getD_eq_getElem?_getD, hi]
    rfl
  cases hturn with
  | skipped left hskip =>
    refine ⟨⟨h.fused, h.counts⟩, fun before hbefore => ?_⟩
    obtain ⟨hrun, pre, mid, rfl, hmid⟩ := hprevious before hbefore
    refine ⟨hrun, pre, mid ++ [id], by simp, fun i hi => ?_⟩
    rcases List.mem_append.1 hi with hi | hi
    · exact hmid i hi
    · exact List.mem_singleton.1 hi ▸ hruns hskip
  | passed left => exact ⟨⟨h.fused, h.counts⟩, nofun⟩
  | kept left hskip =>
    refine ⟨⟨h.fused, h.counts⟩, fun before hbefore => ?_⟩
    obtain rfl := Option.some.inj hbefore
    exact ⟨hruns hskip, done, [], rfl, fun _ hi => absurd hi not_mem_nil⟩
  | @fused left before producer consumer hskip hbefore hproducer hconsumer hcount hplain hread hlt =>
    obtain ⟨hrun, pre, mid, hdone, hmid⟩ := hprevious before hbefore
    have hfuses : Fuses (data.withState s) b blk pre mid post before id producer consumer :=
      { block := hb
        instructions := by rw [hinstructions, hdone, append_assoc]; rfl
        between := hmid
        before_runs := hrun
        id_runs := hruns hskip
        before_plan := by rw [planAt, withState, hproducer]; rfl
        id_plan := by rw [planAt, withState, hconsumer]; rfl
        before_lt := hlt
        plain := hplain
        once := h.counts _ _ hcount
        read := hread }
    refine ⟨⟨h.fused.fuse hfuses, fun v n hn => ?_⟩, fun before' hbefore' => ?_⟩
    · rw [List.getElem?_set] at hn
      split at hn
      · rename_i heq
        exact heq ▸ Nat.le_trans (Nat.le_of_eq (List.count_eq_zero.2 hfuses.not_read)) (Nat.zero_le n)
      · exact Nat.le_trans (hfuses.reads_le v) (h.counts v n hn)
    · obtain rfl := Option.some.inj hbefore'
      refine ⟨?_, done, [], rfl, fun _ hi => absurd hi not_mem_nil⟩
      exact (elided_fusedWith hfuses.before_lt id).trans (by
        rw [hfuses.id_runs, decide_eq_false fun heq => hfuses.ne heq.symm]
        rfl)

/-- The loop over a block, at whose start there is no program to fuse. -/
theorem scanBlock_ok {b : BlockId} {blk : Allocation.Block} {types : List Ty}
    (hb : data.graph.blocks[b]? = some blk) (h : Inv data s)
    (hscan : Stack.scanBlock types s blk.instructions = .ok s') : Inv data s' := by
  have hstart : Inv data { s with previous := none } ∧ Previous data { s with previous := none } [] :=
    ⟨⟨h.fused, h.counts⟩, fun _ hbefore => nomatch hbefore⟩
  unfold Stack.scanBlock at hscan
  refine (foldlM_ok (I := fun done s => Inv data s ∧ Previous data s done)
    (fun done id post t t' hsplit ht hturn => ?_) hstart hscan).1
  exact (turn_ok hturn).2.keeps hb hsplit ht.1 ht.2

theorem blocks_ok {types : List Ty} (h : Inv data s)
    (hblocks : (data.graph.blocks.map (·.instructions)).foldlM (Stack.scanBlock types) s =
      .ok s') : Inv data s' := by
  refine foldlM_ok (I := fun _ s => Inv data s) (fun pre instructions post t t' hsplit ht hscan => ?_)
    h hblocks
  have hget : (data.graph.blocks.map (·.instructions))[pre.length]? = some instructions := by
    rw [hsplit]
    simp
  rw [List.getElem?_map] at hget
  obtain ⟨blk, hblk, rfl⟩ := Option.map_eq_some_iff.1 hget
  exact scanBlock_ok hblk ht hscan

theorem pass_ok {types : List Ty} {next : Stack.State ⊕ Stack.State} (h : Inv data s)
    (hpass : Stack.pass types (data.graph.blocks.map (·.instructions)) s = .ok next) :
    Sum.elim (Inv data) (Inv data) next := by
  obtain ⟨t, hblocks, hnext⟩ := bind_eq_ok.1 hpass
  have ht := blocks_ok h hblocks
  cases hnext
  split
  · exact ht
  · exact ht

end

/-! ## Counting uses -/

theorem uses_ok {id : InstId} {l : List ValueId} (h : data.uses id = .ok l) :
    l = data.usesOf id := by
  unfold uses at h
  obtain ⟨skip, hskip, h⟩ := bind_eq_ok.1 h
  have hskip' : data.elided id = skip := by
    rw [elided, getD_eq_getElem?_getD, idx_eq_ok.1 hskip]
    rfl
  rw [usesOf, hskip']
  cases skip with
  | true =>
    cases h
    rfl
  | false =>
    rw [if_neg Bool.false_ne_true] at h ⊢
    obtain ⟨i, hi, h⟩ := bind_eq_ok.1 h
    obtain ⟨plan, hplan, h⟩ := bind_eq_ok.1 h
    cases h
    rw [recovery, idx_eq_ok.1 hi, planAt, idx_eq_ok.1 hplan]
    rfl

theorem countUse_ok {counts counts' : List Nat} {v : ValueId}
    (h : countUse counts v = .ok counts') {w n : Nat} (hn : counts'[w]? = some n) :
    ∃ m, counts[w]? = some m ∧ n = m + [v].count w := by
  obtain ⟨m, hm, h⟩ := bind_eq_ok.1 h
  obtain ⟨hlt, rfl⟩ := setAt_eq_ok.1 h
  rw [List.getElem?_set] at hn
  split at hn
  · rename_i heq
    subst heq
    cases hn
    exact ⟨m, idx_eq_ok.1 hm, by rw [count_singleton_self]⟩
  · rename_i hne
    refine ⟨n, hn, ?_⟩
    rw [count_singleton, if_neg (by simpa using hne)]
    rfl

theorem countUses_ok {counts counts' : List Nat} {values : List ValueId}
    (h : values.foldlM countUse counts = .ok counts') {w n : Nat} (hn : counts'[w]? = some n) :
    ∃ m, counts[w]? = some m ∧ n = m + values.count w := by
  refine foldlM_ok (I := fun done counts' => ∀ w n, counts'[w]? = some n →
    ∃ m, counts[w]? = some m ∧ n = m + done.count w)
    (fun done v post t t' _ ht hcount w n hn => ?_) (fun w n hn => ⟨n, hn, rfl⟩) h w n hn
  obtain ⟨m', hm', rfl⟩ := countUse_ok hcount hn
  obtain ⟨m, hm, rfl⟩ := ht w m' hm'
  exact ⟨m, hm, by rw [List.count_append, Nat.add_assoc]⟩

/-- The counts are the number of reads. -/
theorem useCounts_ok {limit left : Nat} {counts : List Nat}
    (h : data.useCounts limit = .ok (counts, left)) {v n : Nat} (hn : counts[v]? = some n) :
    n = data.reads.count v := by
  refine foldlM_ok (I := fun done p => ∀ v n, p.1[v]? = some n →
    n = (done.flatMap data.blockReads).count v)
    (fun done blk post t t' _ ht hstep v n hn => ?_) (fun v n hn => ?_) h v n hn
  · obtain ⟨counts, limit⟩ := t
    obtain ⟨used, hused, hstep⟩ := bind_eq_ok.1 hstep
    obtain ⟨limit', -, hstep⟩ := bind_eq_ok.1 hstep
    obtain ⟨counts', hcounts, hstep⟩ := bind_eq_ok.1 hstep
    cases hstep
    obtain ⟨m, hm, rfl⟩ := countUses_ok hcounts hn
    have hflat : used.flatten = blk.instructions.flatMap data.usesOf := by
      rw [(mapM_ok (fun _ _ _ h => uses_ok h) hused).1, flatMap_def]
    rw [ht v m hm, hflat, flatMap_append, flatMap_singleton, blockReads]
    simp only [List.count_append]
  · rw [List.getElem?_replicate] at hn
    split at hn
    · cases hn
      rfl
    · cases hn

theorem search_ok {limit : Nat} {s : Stack.State} (h : Stack.search data limit = .ok s) :
    Inv data s := by
  obtain ⟨⟨counts, left⟩, hcounts, hloop⟩ := bind_eq_ok.1 h
  have hstart : Inv data ⟨left, counts, data.values, data.stackElided, 0, none⟩ :=
    ⟨.refl data, fun v n hn => Nat.le_of_eq (useCounts_ok hcounts hn).symm⟩
  obtain ⟨t, ht, hpass⟩ := loop_ok (I := Inv data) (fun _ _ ht hpass => pass_ok ht hpass) hstart hloop
  exact pass_ok ht hpass

/-! ## The search ends -/

section
variable {types : List Ty}

theorem fuse_ends (s : Stack.State) (before id : InstId) (producer consumer : ValuePlan) :
    Ends (Stack.fuse types s before id producer consumer) := by
  have hfusible : Ends (Stack.fusible types s.counts producer consumer) := by
    refine (Ends.idx _ _).bind fun n => ?_
    split
    · exact (Ends.idx _ _).bind fun _ => .ok _
    · exact .ok _
  have hrecord : ∀ t, Ends (Stack.record types t before id producer consumer) := by
    intro t
    have hverify : Ends (verifyProgramTypes types (Stack.rewritten producer consumer)) := by
      unfold verifyProgramTypes
      split
      · exact .require _ _
      · exact .fail _
    exact hverify.bind fun _ => (Ends.setAt _ _ _).bind fun _ => (Ends.setAt _ _ _).bind fun _ =>
      (Ends.setAt _ _ _).bind fun _ => .ok _
  refine hfusible.bind fun ok => ?_
  split
  · refine (Ends.spend _ _ _).bind fun left => ?_
    split
    · exact hrecord _
    · exact .ok _
  · exact .ok _

theorem turn_ends (s : Stack.State) (id : InstId) : Ends (Stack.turn types s id) := by
  have hconsume : ∀ (t : Stack.State) (consumer : ValuePlan),
      Ends (Stack.consume types t id consumer) := by
    intro t consumer
    unfold Stack.consume
    split
    · exact .ok _
    · exact (Ends.idx _ _).bind fun _ => (Ends.unwrap _).bind fun _ =>
        (fuse_ends _ _ _ _ _).bind fun _ => .ok _
  refine (Ends.spend _ _ _).bind fun left => (Ends.idx _ _).bind fun skip => ?_
  split
  · exact .ok _
  · refine (Ends.idx _ _).bind fun plan => ?_
    split
    · exact .ok _
    · exact hconsume _ _

theorem pass_ends (blocks : List (List InstId)) (s : Stack.State) :
    Ends (Stack.pass types blocks s) := by
  refine Ends.bind (Ends.foldlM (fun t block => ?_) blocks s) fun _ => .ok _
  exact Ends.foldlM turn_ends block _

theorem useCounts_ends (limit : Nat) : Ends (data.useCounts limit) := by
  have huses : ∀ id, Ends (data.uses id) := by
    intro id
    refine (Ends.idx _ _).bind fun skip => ?_
    split
    · exact .ok _
    · exact (Ends.idx _ _).bind fun _ => (Ends.idx _ _).bind fun _ => .ok _
  have hcount : ∀ (counts : List Nat) (v : ValueId), Ends (countUse counts v) :=
    fun _ _ => (Ends.idx _ _).bind fun _ => .setAt _ _ _
  refine Ends.foldlM (fun p b => (Ends.mapM huses _).bind fun used => ?_) _ _
  exact (Ends.spend _ _ _).bind fun _ => (Ends.foldlM hcount _ _).bind fun _ => .ok _

/-- Work that is taken, or nothing fused. -/
def Lowers (s s' : Stack.State) : Prop := s'.left < s.left ∨ s'.left = s.left ∧ s'.fused = s.fused

theorem Lowers.trans {s s' s'' : Stack.State} (h : Lowers s s') (h' : Lowers s' s'') :
    Lowers s s'' := by
  unfold Lowers at *
  omega

/-- A turn of the outer loop that fuses takes work. -/
theorem pass_lowers {blocks : List (List InstId)} {s s' : Stack.State}
    (h : Stack.pass types blocks s = .ok (.inl s')) : s'.left < s.left := by
  obtain ⟨t, hblocks, hnext⟩ := bind_eq_ok.1 h
  have hscan : ∀ {t t' : Stack.State} {block}, Stack.scanBlock types t block = .ok t' →
      Lowers t t' := by
    intro t t' block hblock
    unfold Stack.scanBlock at hblock
    have hstart : Lowers t { t with previous := none } := .inr ⟨rfl, rfl⟩
    exact foldlM_ok (I := fun _ => Lowers t)
      (fun _ _ _ _ _ _ hu hturn => hu.trans (.inl (turn_ok hturn).1)) hstart hblock
  have hlowers : Lowers s t :=
    foldlM_ok (I := fun _ => Lowers s) (fun _ _ _ _ _ _ ht hblock => ht.trans (hscan hblock))
      (.inr ⟨rfl, rfl⟩) hblocks
  have hnext' := Except.ok.inj hnext
  split at hnext'
  · cases hnext'
  · rename_i hfused
    cases hnext'
    exact hlowers.resolve_right fun heq => hfused heq.2

theorem search_ends (limit : Nat) : Ends (Stack.search data limit) := by
  refine (useCounts_ends limit).bind fun p => ?_
  exact Ends.loop (·.left) (pass_ends _) (fun _ _ => pass_lowers) (Nat.lt_succ_self _)

end

/-! ## The pass -/

/-- Fusion preserves meaning: a run of the result shows what a run of the data it started from shows
of all that is not elided, a value of an elided program is read only if the program was elided and
its value read before, and an error leaves the data. -/
theorem schedule_correct (data : FusionData) (workLimit : Nat) :
    match Stack.schedule data workLimit with
    | (.ok _, data') => data'.graph = data.graph ∧ data'.valueTypes = data.valueTypes ∧
        Refines data data' ∧ (∀ i, data.elided i = true → data'.elided i = true) ∧
        ∀ i p, data'.elided i = true → planAt data'.values i = some p → p.result ∈ data'.reads →
          data.elided i = true ∧ p.result ∈ data.reads
    | (.error e, data') => e ≠ .timeout ∧ data' = data := by
  unfold Stack.schedule
  cases hsearch : Stack.search data workLimit with
  | error e => exact ⟨fun heq => search_ends workLimit (heq ▸ hsearch), rfl⟩
  | ok s =>
    have hfused := (search_ok hsearch).fused
    refine ⟨rfl, rfl, hfused.refines, hfused.mono, fun i p hi hp hread => ?_⟩
    have hbefore : p.result ∈ data.reads :=
      List.count_pos_iff.1 (Nat.lt_of_lt_of_le (List.count_pos_iff.2 hread) (hfused.reads_le _))
    refine ⟨(hfused.fresh i hi).resolve_right ?_, hbefore⟩
    rintro ⟨q, hq, hnot⟩
    have hresult := hfused.results i
    change planAt s.values i = some p at hp
    have hdata : (planAt (data.withState s).values i).map (·.result) = some p.result :=
      congrArg (Option.map (·.result)) hp
    rw [hdata, hq] at hresult
    have heq : p.result = q.result := Option.some.inj hresult
    exact hnot (heq ▸ hread)

end V86.Ir.Mir.FusionData
