import V86.Ir.Semantics

/-!
# Building straight-line code

`Region::append`, and programs that only append instructions to one block (`Build`). What such a
program builds is read off an execution of the finished region: the values `Executed.env` satisfy
the equation of every pure instruction, and since ids are given out in order and never again, an equation
found while building holds at the end. `Build.Sat` states what a program builds in these terms, one
rule for each way of composing programs.
-/

namespace V86.Ir

open List

/-- `Region::append`; the block it appends to has no terminator yet. -/
def Region.append (r : Region) (block : BlockId) (op : Op) (args : List ValueId)
    (types : List Ty) (state : Option StateId) : List ValueId × Region :=
  let id := r.instructions.length
  let results := List.range' r.values.length types.length
  (results, { r with
    values := r.values ++ types.zipIdx.map fun (ty, i) => ⟨ty, .instruction id i⟩
    instructions := r.instructions ++ [⟨block, op, args, results, state, none, false, false⟩]
    blocks := r.blocks.modify block fun b => { b with instructions := b.instructions ++ [id] } })

/-- An instruction to append: what `append` is called with. -/
structure Node where
  op : Op
  args : List ValueId
  types : List Ty
  state : Option StateId

def Region.appendNode (block : BlockId) (r : Region) (n : Node) : Region :=
  (r.append block n.op n.args n.types n.state).2

/-- Where code is being built. -/
structure Site where
  region : Region
  block : BlockId

/-- The number of ids given out. -/
def Site.size (s : Site) : Nat := s.region.values.length

/-- `s'` is `s` with instructions appended to its block. -/
def Site.Grows (s s' : Site) : Prop :=
  s'.block = s.block ∧ ∃ nodes : List Node, s'.region = nodes.foldl (Region.appendNode s.block) s.region

theorem Site.Grows.refl (s : Site) : s.Grows s := ⟨rfl, [], rfl⟩

theorem Site.Grows.trans {s₁ s₂ s₃ : Site} (h : s₁.Grows s₂) (h' : s₂.Grows s₃) : s₁.Grows s₃ := by
  obtain ⟨hb, nodes, hr⟩ := h
  obtain ⟨hb', nodes', hr'⟩ := h'
  refine ⟨hb'.trans hb, nodes ++ nodes', ?_⟩
  rw [foldl_append, ← hr, hr', hb]

/-- A program that builds straight-line code. -/
structure Build (α : Type) where
  run : Site → α × Site
  grows : ∀ s : Site, s.Grows (run s).2

namespace Build

instance : Monad Build where
  pure a := ⟨fun s => (a, s), Site.Grows.refl⟩
  bind x f := ⟨fun s => (f (x.run s).1).run (x.run s).2, fun s =>
    (x.grows s).trans ((f (x.run s).1).grows (x.run s).2)⟩

/-- `IntegerBuilder::node`. -/
def node (op : Op) (args : List ValueId) (ty : Ty) : Build ValueId where
  run s := (s.size, { s with region := (s.region.append s.block op args [ty] none).2 })
  grows _ := ⟨rfl, [⟨op, args, [ty], none⟩], rfl⟩

/-- `IntegerBuilder::ty`. -/
def ty (v : ValueId) : Build Ty := ⟨fun s => (s.region.ty v, s), Site.Grows.refl⟩

end Build

/-! ## Executions -/

/-- The values satisfy the equation of every pure instruction from number `first` on. -/
def Region.Computes (r : Region) (first : Nat) (e : Env) : Prop :=
  ∀ id inst v, first ≤ id → r.instructions[id]? = some inst → inst.op.pure = true →
    inst.results = [v] → (∀ a ∈ inst.args, a < v) → e v = r.evalInst inst (inst.args.map e)

/-- A region, and the values after the execution of its instructions from number `first` on. -/
structure Executed where
  region : Region
  first : Nat
  env : Env
  sound : region.Computes first env

/-- What is in a region is in one that has grown from it. -/
structure Region.Within (r r' : Region) : Prop where
  values : r.values <+: r'.values
  instructions : r.instructions <+: r'.instructions

theorem Region.Within.refl (r : Region) : r.Within r := ⟨prefix_rfl, prefix_rfl⟩

theorem Region.Within.trans {r₁ r₂ r₃ : Region} (h : r₁.Within r₂) (h' : r₂.Within r₃) :
    r₁.Within r₃ :=
  ⟨h.values.trans h'.values, h.instructions.trans h'.instructions⟩

theorem Region.within_append (r : Region) (block : BlockId) (op : Op) (args : List ValueId)
    (types : List Ty) (state : Option StateId) : r.Within (r.append block op args types state).2 :=
  ⟨prefix_append .., prefix_append ..⟩

theorem Region.within_foldl (block : BlockId) (nodes : List Node) (r : Region) :
    r.Within (nodes.foldl (Region.appendNode block) r) := by
  induction nodes generalizing r with
  | nil => exact .refl r
  | cons node nodes ih => exact (r.within_append ..).trans (ih _)

variable {s s' : Site} {r : Region} {first base : Nat}

theorem Site.Grows.within (h : s.Grows s') : s.region.Within s'.region := by
  obtain ⟨-, nodes, hr⟩ := h
  rw [hr]
  exact s.region.within_foldl s.block nodes

/-- An id keeps its type. -/
theorem Region.Within.ty {r' : Region} (h : r.Within r') {v : ValueId} (hv : v < r.values.length) :
    r'.ty v = r.ty v := by
  obtain ⟨rest, hrest⟩ := h.values
  rw [Region.ty, Region.ty, ← hrest, List.getElem?_append_left hv]

/-! ## Executing what was built -/

/-- From the instruction number `first` on, results are ids from `base` on, in order. -/
structure Region.InOrder (r : Region) (first base : Nat) : Prop where
  bounds : ∀ id inst, first ≤ id → r.instructions[id]? = some inst →
    ∀ v : Nat, v ∈ inst.results → base ≤ v ∧ v < r.values.length
  order : ∀ id id' inst inst', first ≤ id → id < id' → r.instructions[id]? = some inst →
    r.instructions[id']? = some inst' → ∀ v v' : Nat, v ∈ inst.results → v' ∈ inst'.results →
      v < v'

theorem Region.InOrder.append (h : r.InOrder first base) (hbase : base ≤ r.values.length)
    (block : BlockId) (n : Node) : (r.appendNode block n).InOrder first base := by
  have hvalues : (r.appendNode block n).values.length = r.values.length + n.types.length := by
    simp [appendNode, Region.append]
  -- an instruction is an old one, or the one appended
  have hinst : ∀ {id inst}, (r.appendNode block n).instructions[id]? = some inst →
      r.instructions[id]? = some inst ∨ id = r.instructions.length ∧
        inst.results = List.range' r.values.length n.types.length := by
    intro id inst hi
    simp only [appendNode, Region.append, List.getElem?_append] at hi
    split at hi
    · exact .inl hi
    · obtain ⟨hid, rfl⟩ := List.getElem?_eq_some_iff.1 hi
      simp only [length_singleton] at hid
      exact .inr ⟨by omega, by simp⟩
  constructor
  · intro id inst hid hi v hv
    rcases hinst hi with hi | ⟨-, hres⟩
    · have := h.bounds id inst hid hi v hv
      omega
    · rw [hres, List.mem_range'_1] at hv
      omega
  · intro id id' inst inst' hid hlt hi hi' v v' hv hv'
    rcases hinst hi' with hi' | ⟨hid', hres'⟩
    · rcases hinst hi with hi | ⟨hid, -⟩
      · exact h.order id id' inst inst' ‹_› hlt hi hi' v v' hv hv'
      · have := (List.getElem?_eq_some_iff.1 hi').1
        omega
    · rcases hinst hi with hi | ⟨hid, -⟩
      · rw [hres', List.mem_range'_1] at hv'
        have := h.bounds id inst ‹_› hi v hv
        omega
      · omega

theorem Region.InOrder.foldl (h : r.InOrder first base) (hbase : base ≤ r.values.length)
    (block : BlockId) (nodes : List Node) :
    (nodes.foldl (Region.appendNode block) r).InOrder first base := by
  induction nodes generalizing r with
  | nil => exact h
  | cons n nodes ih =>
    refine ih (h.append hbase block n) (Nat.le_trans hbase ?_)
    exact (r.within_append ..).values.length_le

/-- What was built at a site is in order. -/
theorem Site.Grows.inOrder (h : s.Grows s') :
    s'.region.InOrder s.region.instructions.length s.size := by
  obtain ⟨-, nodes, hr⟩ := h
  rw [hr]
  refine .foldl ⟨fun id inst hid hi => ?_, fun id _ inst _ hid _ hi => ?_⟩ (Nat.le_refl _) s.block nodes
  all_goals
    have := (List.getElem?_eq_some_iff.1 hi).1
    omega

/-- Executing instructions in order leaves each value as its instruction computes it. -/
theorem Region.InOrder.exec (h : r.InOrder first base) (ω : Oracle) (n i : Nat) (hi : first ≤ i)
    (st : Env × List Event) :
    (∀ v, (∀ id ∈ List.range' i n, ∀ inst, r.instructions[id]? = some inst → v ∉ inst.results) →
      (r.execInsts ω (List.range' i n) st).1 v = st.1 v) ∧
    ∀ id ∈ List.range' i n, ∀ inst v, r.instructions[id]? = some inst → inst.op.pure = true →
      inst.results = [v] → (∀ a ∈ inst.args, a < v) → (r.execInsts ω (List.range' i n) st).1 v =
        r.evalInst inst (inst.args.map (r.execInsts ω (List.range' i n) st).1) := by
  induction n generalizing i st with
  | zero => exact ⟨fun _ _ => rfl, nofun⟩
  | succ n ih =>
    rw [List.range'_succ]
    cases hinst : r.instructions[i]? with
    | none =>
      have hexec : r.execInsts ω (i :: List.range' (i + 1) n) st =
          r.execInsts ω (List.range' (i + 1) n) st := by
        simp [execInsts, hinst]
      obtain ⟨hother, hthis⟩ := ih (i + 1) (by omega) st
      rw [hexec]
      refine ⟨fun v hv => hother v fun id hid => hv id (mem_cons_of_mem _ hid), ?_⟩
      intro id hid inst v hget
      rcases List.mem_cons.1 hid with rfl | hid
      · simp [hinst] at hget
      · exact hthis id hid inst v hget
    | some inst₀ =>
      rw [execInsts_cons hinst]
      obtain ⟨hother, hthis⟩ := ih (i + 1) (by omega) (r.execInst ω inst₀ st)
      -- what comes later has greater ids
      have hlater : ∀ v w : Nat, v ∈ inst₀.results → w ≤ v → ∀ id ∈ List.range' (i + 1) n, ∀ inst,
          r.instructions[id]? = some inst → w ∉ inst.results := by
        intro v w hv hw id hid inst hget hmem
        rw [List.mem_range'_1] at hid
        have := h.order i id inst₀ inst hi (by omega) hinst hget v w hv hmem
        omega
      refine ⟨fun v hv => ?_, fun id hid inst v hget hpure hres hargs => ?_⟩
      · rw [hother v fun id hid => hv id (mem_cons_of_mem _ hid)]
        exact Env.setAll_of_not_mem (hv i mem_cons_self inst₀ hinst)
      · rcases List.mem_cons.1 hid with rfl | hid
        · obtain rfl : inst₀ = inst := by simpa [hinst] using hget
          have hmem : v ∈ inst₀.results := by simp [hres]
          have hval : (r.execInst ω inst₀ st).1 v = r.evalInst inst₀ (inst₀.args.map st.1) := by
            simp [execInst, resultVals, hpure, hres, Env.setAll_cons, Env.set]
          rw [hother v (hlater v v hmem (Nat.le_refl _)), hval]
          congr 1
          refine map_congr_left fun a ha => ?_
          have hav := hargs a ha
          rw [hother a (hlater v a hmem (Nat.le_of_lt hav))]
          refine (Env.setAll_of_not_mem ?_).symm
          simp [hres, Nat.ne_of_lt hav]
        · exact hthis id hid inst v hget hpure hres hargs

/-- The execution of what was built from `s` to `s'`, on from the state `st`. -/
def Site.Grows.executed {s s' : Site} (h : s.Grows s') (ω : Oracle) (st : Env × List Event) :
    Executed where
  region := s'.region
  first := s.region.instructions.length
  env := (s'.region.execInsts ω (List.range' s.region.instructions.length
    (s'.region.instructions.length - s.region.instructions.length)) st).1
  sound id inst v hid hget := by
    refine (h.inOrder.exec ω _ _ (Nat.le_refl _) st).2 id ?_ inst v hget
    have := (List.getElem?_eq_some_iff.1 hget).1
    rw [List.mem_range'_1]
    omega

/-- It leaves the ids there were alone. -/
theorem Site.Grows.executed_env (h : s.Grows s') (ω : Oracle) (st : Env × List Event) {v : Nat}
    (hv : v < s.size) : (h.executed ω st).env v = st.1 v := by
  refine (h.inOrder.exec ω _ _ (Nat.le_refl _) st).1 v fun id hid inst hget hmem => ?_
  rw [List.mem_range'_1] at hid
  have := (h.inOrder.bounds id inst hid.1 hget v hmem).1
  omega

/-! ## What a program builds -/

namespace Build

variable {E : Executed} {s : Site} {α β : Type} {Q : α → Site → Prop}

/-- What `x` builds at `s`, in a region that goes on from it. -/
def Sat (E : Executed) (x : Build α) (s : Site) (Q : α → Site → Prop) : Prop :=
  E.first ≤ s.region.instructions.length → (x.run s).2.region.Within E.region →
    Q (x.run s).1 (x.run s).2

variable {x : Build α} {P : α → Site → Prop} {a : α} {f : α → Build β}

theorem Sat.mono (h : Sat E x s P) (hPQ : ∀ a s', P a s' → Q a s') : Sat E x s Q :=
  fun hfirst hin => hPQ _ _ (h hfirst hin)

theorem Sat.and_run (h : Sat E x s Q) : Sat E x s fun a s' => x.run s = (a, s') ∧ Q a s' :=
  fun hfirst hin => ⟨rfl, h hfirst hin⟩

theorem sat_pure (h : Q a s) : Sat E (pure a) s Q := fun _ _ => h

theorem sat_pure_bind {Q : β → Site → Prop} (h : Sat E (f a) s Q) : Sat E (pure a >>= f) s Q := h

/-- A program after another: the region has grown by the first. -/
theorem Sat.bind {Q : β → Site → Prop} (h : Sat E x s P)
    (hf : ∀ a s', s.size ≤ s'.size → P a s' → Sat E (f a) s' Q) : Sat E (x >>= f) s Q := by
  intro hfirst hin
  have hgrows := (x.grows s).within
  refine hf _ _ hgrows.values.length_le (h hfirst ?_)
    (Nat.le_trans hfirst hgrows.instructions.length_le) hin
  exact ((f (x.run s).1).grows (x.run s).2).within.trans hin

theorem sat_ty {v : ValueId} (hv : v < s.size) :
    Sat E (ty v) s fun t s' => t = E.region.ty v ∧ s' = s :=
  fun _ hin => ⟨(hin.ty hv).symm, rfl⟩

/-- An instruction has the value it computes. -/
theorem sat_node {op : Op} {args : List ValueId} {ty : Ty} (hop : op.pure = true)
    (hargs : ∀ a ∈ args, a < s.size) :
    Sat E (node op args ty) s fun (v : Nat) s' => v < s'.size ∧ E.region.ty v = ty ∧
      E.env v = op.eval (args.map E.region.ty) ty (args.map E.env) := by
  intro hfirst hin
  have hsize : s.size < ((node op args ty).run s).2.size := by
    simp [node, Region.append, Site.size]
  have hty : E.region.ty s.size = ty := by
    rw [hin.ty hsize]
    simp [node, Region.append, Region.ty, Site.size]
  obtain ⟨rest, hrest⟩ := hin.instructions
  refine ⟨hsize, hty, ?_⟩
  have hinst : E.region.instructions[s.region.instructions.length]? =
      some ⟨s.block, op, args, [s.size], none, none, false, false⟩ := by
    rw [← hrest]
    simp [node, Region.append, Site.size]
  rw [show ((node op args ty).run s).1 = s.size from rfl,
    E.sound _ _ s.size hfirst hinst hop rfl hargs, Region.evalInst]
  simp [hty]

end Build

end V86.Ir
