import V86.Ir.Mir.Data
import V86.Lib.Ssa

/-!
# What compiled code does

The plans of a region read and define values (`MirData.uses`, `MirData.defs`; `plan_references` of
`mir/allocation.rs`), which makes it a program in SSA form (`MirData.ssa`); `MirData.Verified` is
what `allocation::verify` asks of it.

`Does` is what the emitter's code for a plan does to the values and to guest RAM when it goes on to
the next instruction: the native path of a scalar access goes through the page translation, and
what another path may do is left open. Segment bases are constant during an activation, since a
helper that continues preserves the segments.
-/

namespace V86.Ir.Mir

open List BitVec

/-! ## Uses and definitions -/

def MemoryPlan.uses (m : MemoryPlan) : List ValueId :=
  m.address :: m.call.values ++
    (match m.native with
      | .scalarLoad .. => []
      | .scalarStore value _ => [value]
      | .vectorLoad _ combine => match combine with
        | .none => []
        | .replaceWord old _ | .shuffle old _ | .binary old _ => [old]
      | .vectorStore value _ mask _ => value :: mask.toList) ++
    match m.result with
    | .rmw _ _ readValue => readValue.values
    | _ => []

def MemoryPlan.defs (m : MemoryPlan) : List ValueId :=
  (match m.native with
    | .scalarLoad result ticket => result :: ticket.toList
    | .vectorLoad result _ => [result]
    | .scalarStore .. | .vectorStore .. => []) ++
  match m.result with
  | .packed result _ => [result]
  | .rmw result ticket _ => [result, ticket]
  | .store .. | .cpuExit => []

def EffectPlan.uses (e : EffectPlan) : List ValueId :=
  e.call.values ++ match e with
    | .address _ _ offset _ _ _ _ => [offset]
    | .rmwCommit _ ticket value _ _ _ => [ticket, value]
    | .division dividend divisor _ _ _ _ => [dividend, divisor]
    | .compareExchange linear _ _ => [linear]
    | .check .. | .zeroState .. | .x87 .. => []

def EffectPlan.defs : EffectPlan → List ValueId
  | .address _ _ _ result _ _ _ => [result]
  | .division _ _ quotient remainder _ _ => [quotient, remainder]
  | .x87 _ _ outputs _ => outputs
  | .rmwCommit .. | .compareExchange .. | .check .. | .zeroState .. => []

def Action.uses : Action → List ValueId
  | .poll _ => []
  | .memory m => m.uses
  | .effect e => e.uses
  | .call c => c.args
  | .value v => expression v.steps

def Action.defs : Action → List ValueId
  | .poll _ => []
  | .memory m => m.defs
  | .effect e => e.defs
  | .call c => c.staged ++ c.reload
  | .value v => [v.result]

namespace MirData

variable (data : MirData)

def uses (id : InstId) : List ValueId := (data.action id).elim [] Action.uses

def defs (id : InstId) : List ValueId := (data.action id).elim [] Action.defs

/-- The instructions of a block. -/
def body (b : BlockId) : List InstId := (data.control.blocks[b]?).elim [] (·.instructions)

/-- The value is a parameter of the block. -/
def Param (b : BlockId) (v : ValueId) : Prop :=
  data.valueBlocks[v]? = some (some b) ∧ data.valueDefinitions[v]? = some none

def flow : Flow BlockId where
  entry b := b ∈ data.control.entries
  edge a b := ∃ block, data.control.blocks[a]? = some block ∧
    ∃ edge ∈ block.terminator.edges, edge.target = b

/-- The region as a program in SSA form. -/
def ssa : Ssa BlockId InstId ValueId where
  flow := data.flow
  body := data.body
  params := data.Param
  defs := data.defs
  uses := data.uses

/-- What `allocation::verify` asks of the plans of a region: an instruction has one plan and one
place, a value one recorded definition, and every use is behind it. -/
structure Verified : Prop where
  reach : ∀ {b : BlockId}, data.body b ≠ [] → data.flow.Reach b
  nodup : ∀ b : BlockId, (data.body b).Nodup
  block : ∀ {b b' : BlockId} {id : InstId}, id ∈ data.body b → id ∈ data.body b' → b = b'
  memory : ∀ {id : InstId} {m : MemoryPlan}, planAt data.memory id = some m →
    data.action id = some (.memory m)
  effect : ∀ {id : InstId} {e : EffectPlan}, planAt data.effects id = some e →
    data.action id = some (.effect e)
  value : ∀ {id : InstId} {v : ValuePlan}, planAt data.values id = some v →
    data.action id = some (.value v)
  definition : ∀ {id : InstId} {v : ValueId}, v ∈ data.defs id →
    data.valueDefinitions[v]? = some (some id)
  owner : ∀ {b : BlockId} {id : InstId} {v : ValueId}, id ∈ data.body b → v ∈ data.defs id →
    data.valueBlocks[v]? = some (some b)
  uses : ∀ {b : BlockId} {pre post : List InstId} {id : InstId} {v : ValueId},
    data.body b = pre ++ id :: post → v ∈ data.uses id → data.ssa.Avail b pre v

variable {data}

theorem Verified.valid (h : data.Verified) : data.ssa.Valid where
  reach := h.reach
  nodup := h.nodup
  block := h.block
  result {b b' id id' v} _ _ hv hv' := by
    have hsame := (h.definition hv).symm.trans (h.definition hv')
    exact Option.some.inj (Option.some.inj hsame)
  param {b b' v} hb hb' := by
    have hsame := hb.1.symm.trans hb'.1
    exact Option.some.inj (Option.some.inj hsame)
  separate {b b' id v} hp _ hv := by
    have hsame := hp.2.symm.trans (h.definition hv)
    cases Option.some.inj hsame
  uses := h.uses

end MirData

/-! ## Guest RAM -/

/-- The page translation of an activation, the segment bases, and what the Wasm operations of value
programs do to the stack. -/
structure Platform where
  frame : BitVec 20 → BitVec 20
  base : BitVec 32 → BitVec 32
  operate : Step → List (BitVec 128) → Option (List (BitVec 128))

/-- A page translation keeps the low 12 address bits. -/
def Platform.physical (p : Platform) (a : BitVec 32) : BitVec 32 :=
  (p.frame (a.extractLsb' 12 20) ++ a.extractLsb' 0 12).cast (by decide)

/-- The values of a region and guest RAM. -/
structure NativeState where
  env : ValueId → BitVec 128
  ram : BitVec 32 → BitVec 8

/-- The bytes at a physical address, the lowest first. -/
def load (ram : BitVec 32 → BitVec 8) (pointer : BitVec 32) : Nat → Nat
  | 0 => 0
  | n + 1 => (ram pointer).toNat + 256 * load ram (pointer + 1) n

/-- Store the low bytes of a value. -/
def store (ram : BitVec 32 → BitVec 8) (pointer : BitVec 32) (value : Nat) :
    Nat → BitVec 32 → BitVec 8
  | 0 => ram
  | n + 1 => Function.update (store ram (pointer + 1) (value / 256) n) pointer (BitVec.ofNat 8 value)

/-- The low 32 bits of a value: an address, or the pointer of a native ticket. -/
def word (x : BitVec 128) : BitVec 32 := x.setWidth 32

section
variable {ram : BitVec 32 → BitVec 8} {a b : BitVec 32} {n k value : Nat}

theorem add_ofNat_succ (a : BitVec 32) (i : Nat) :
    a + BitVec.ofNat 32 (i + 1) = a + 1 + BitVec.ofNat 32 i := by
  rw [BitVec.add_assoc]
  congr 1
  apply eq_of_toNat_eq
  have hone : (1 : BitVec 32).toNat = 1 := rfl
  simp only [toNat_add, toNat_ofNat, hone]
  omega

/-- A byte that differs from all those stored is as before. -/
theorem store_of_ne (h : ∀ i < n, a + BitVec.ofNat 32 i ≠ b) : store ram a value n b = ram b := by
  induction n generalizing a value with
  | zero => rfl
  | succ n ih =>
    have hne : b ≠ a := fun heq => h 0 (Nat.succ_pos n) (by rw [heq]; exact BitVec.add_zero a)
    rw [store, Function.update_of_ne hne]
    refine ih fun i hi => ?_
    rw [← add_ofNat_succ]
    exact h (i + 1) (Nat.succ_lt_succ hi)

/-- Bytes that differ from all those stored are read as before. -/
theorem load_store_of_disjoint
    (h : ∀ i < n, ∀ j < k, a + BitVec.ofNat 32 i ≠ b + BitVec.ofNat 32 j) :
    load (store ram a value n) b k = load ram b k := by
  induction k generalizing b with
  | zero => rfl
  | succ k ih =>
    have hfirst : store ram a value n b = ram b := by
      refine store_of_ne fun i hi heq => h i hi 0 (Nat.succ_pos k) ?_
      rw [heq]
      exact (BitVec.add_zero b).symm
    have hrest : load (store ram a value n) (b + 1) k = load ram (b + 1) k := by
      refine ih fun i hi j hj => ?_
      rw [← add_ofNat_succ]
      exact h i hi (j + 1) (Nat.succ_lt_succ hj)
    rw [load, load, hfirst, hrest]

/-- A store is read back. -/
theorem load_store (hn : n ≤ 2 ^ 32) : load (store ram a value n) a n = value % 256 ^ n := by
  induction n generalizing a value with
  | zero => rw [Nat.pow_zero, Nat.mod_one]; rfl
  | succ n ih =>
    -- the first byte is not among those behind it
    have hrest : load (store ram a value (n + 1)) (a + 1) n =
        load (store ram (a + 1) (value / 256) n) (a + 1) n := by
      change load (store (store ram (a + 1) (value / 256) n) a value 1) (a + 1) n = _
      refine load_store_of_disjoint fun i hi j hj heq => ?_
      obtain rfl : i = 0 := by omega
      have hnat := congrArg BitVec.toNat heq
      have hone : (1 : BitVec 32).toNat = 1 := rfl
      simp only [toNat_add, toNat_ofNat, hone] at hnat
      have ha := a.isLt
      omega
    have hpow : 256 ^ (n + 1) = 256 * 256 ^ n := Nat.pow_succ'
    rw [load, hrest, ih (by omega), store, Function.update_self, toNat_ofNat, hpow, Nat.mod_mul]

end

/-- The value a native scalar load of `bytes` gives. -/
def loaded (p : Platform) (s : NativeState) (address : ValueId) (bytes : Nat) : BitVec 128 :=
  BitVec.ofNat 128 (load s.ram (p.physical (word (s.env address))) bytes)

/-- Assign a value. -/
def NativeState.set (s : NativeState) (v : ValueId) (x : BitVec 128) : NativeState :=
  { s with env := Function.update s.env v x }

/-- The access stays within its page. -/
def inPage (guard : RamGuard) (address : BitVec 32) : Prop :=
  (address.toNat % 4096 : Int) < guard.pageOffsetLimit

/-! ## Running a plan -/

/-- Run a value program on a stack: `reads` is what the CPU state holds. -/
def Platform.eval (p : Platform) (reads : Reading → BitVec 128) (env : ValueId → BitVec 128) :
    List Step → List (BitVec 128) → Option (List (BitVec 128))
  | [], stack => some stack
  | .value v :: rest, stack => p.eval reads env rest (env v :: stack)
  | .i32 n :: rest, stack => p.eval reads env rest (n.setWidth 128 :: stack)
  | .i64 n :: rest, stack => p.eval reads env rest (n.setWidth 128 :: stack)
  | .read cpu _ :: rest, stack => p.eval reads env rest (reads cpu :: stack)
  | .packed destination source plan :: rest, stack =>
    (p.operate (.packed destination source plan) [env destination, env source]).bind fun pushed =>
      p.eval reads env rest (pushed ++ stack)
  | step :: rest, stack => (p.operate step stack).bind fun stack => p.eval reads env rest stack

/-- The plan has no native path of its own in this model: what it does to RAM is left open. -/
def Action.Open : Action → Prop
  | .poll _ | .value _ => False
  | .memory m => match m.native with
    | .scalarLoad _ (some _) => False
    | _ => True
  | .effect e => match e with
    | .address .. | .rmwCommit .. => False
    | _ => True
  | .call _ => True

/-- What an instruction does when control goes on behind it; the flag tells the native paths. -/
inductive Does (p : Platform) : Action → Bool → NativeState → NativeState → Prop
  | poll {q : Poll} {native : Bool} {s : NativeState} : Does p (.poll q) native s s
  | value {plan : ValuePlan} {native : Bool} {s : NativeState} {reads : Reading → BitVec 128}
      {x : BitVec 128} : p.eval reads s.env plan.steps [] = some [x] →
      Does p (.value plan) native s (s.set plan.result x)
  /-- `EffectPlan::Address`: the adapter of the slow path adds the base as well. -/
  | address {nullByte base : BitVec 32} {offset result : ValueId} {before : StateId}
      {call : RuntimeCall} {trap native : Bool} {s : NativeState} :
      Does p (.effect (.address nullByte base offset result before call trap)) native s
        (s.set result ((p.base base + word (s.env offset)).setWidth 128))
  | load {m : MemoryPlan} {result : ValueId} {s : NativeState} :
      m.native = .scalarLoad result none → inPage m.guard (word (s.env m.address)) →
      Does p (.memory m) true s (s.set result (loaded p s m.address m.guard.bytes))
  /-- The ticket of a native read is the pointer it used. -/
  | rmwLoad {m : MemoryPlan} {result ticket : ValueId} {s : NativeState} :
      m.native = .scalarLoad result (some ticket) → inPage m.guard (word (s.env m.address)) →
      Does p (.memory m) true s
        ((s.set result (loaded p s m.address m.guard.bytes)).set ticket
          ((p.physical (word (s.env m.address))).setWidth 128))
  /-- The ticket of a slow read has a tag above its low word. -/
  | rmwSlow {m : MemoryPlan} {result ticket : ValueId} {s s' : NativeState} :
      m.native = .scalarLoad result (some ticket) → (∀ v, v ∉ m.defs → s'.env v = s.env v) →
      2 ^ 32 ≤ (s'.env ticket).toNat → Does p (.memory m) false s s'
  | store {m : MemoryPlan} {value : ValueId} {commit : Option StateId} {s : NativeState} :
      m.native = .scalarStore value commit → inPage m.guard (word (s.env m.address)) →
      Does p (.memory m) true s
        { s with ram := Mir.store s.ram (p.physical (word (s.env m.address)))
                  (s.env value).toNat m.guard.bytes }
  /-- A commit with a tagged ticket leaves the region, and no code is emitted for other widths. -/
  | rmwCommit {bytes : Nat} {ticket value : ValueId} {observe : Observation} {commit : StateId}
      {call : RuntimeCall} {s : NativeState} : (s.env ticket).toNat < 2 ^ 32 →
      bytes = 1 ∨ bytes = 2 ∨ bytes = 4 →
      Does p (.effect (.rmwCommit bytes ticket value observe commit call)) true s
        { s with ram := Mir.store s.ram (word (s.env ticket)) (s.env value).toNat bytes }
  | other {action : Action} {s s' : NativeState} : action.Open →
      (∀ v, v ∉ action.defs → s'.env v = s.env v) → Does p action false s s'

/-- The equation between what a plan uses and defines. -/
def Action.Holds (p : Platform) : Action → (ValueId → BitVec 128) → Prop
  | .value plan, e => ∃ reads, p.eval reads e plan.steps [] = some [e plan.result]
  | .effect (.address _ base offset result _ _ _), e =>
    word (e result) = p.base base + word (e offset)
  | .memory m, e => match m.native with
    | .scalarLoad _ (some ticket) =>
      (e ticket).toNat < 2 ^ 32 → word (e ticket) = p.physical (word (e m.address))
    | _ => True
  | _, _ => True

/-! ## Runs -/

section
variable {p : Platform} {data : MirData} {action : Action} {native : Bool} {s s' : NativeState}
  {v : ValueId} {id : InstId}

@[simp] theorem NativeState.set_ram (s : NativeState) (v : ValueId) (x : BitVec 128) :
    (s.set v x).ram = s.ram := rfl

@[simp] theorem NativeState.set_self (s : NativeState) (v : ValueId) (x : BitVec 128) :
    (s.set v x).env v = x := Function.update_self ..

theorem NativeState.set_of_ne {w : ValueId} (s : NativeState) (x : BitVec 128) (h : w ≠ v) :
    (s.set v x).env w = s.env w := Function.update_of_ne h ..

variable {m : MemoryPlan} {e e' : ValueId → BitVec 128}

theorem MemoryPlan.mem_defs_load {result : ValueId} {ticket : Option ValueId}
    (h : m.native = .scalarLoad result ticket) : result ∈ m.defs ∧ ∀ t ∈ ticket, t ∈ m.defs := by
  unfold MemoryPlan.defs
  rw [h]
  refine ⟨mem_append_left _ mem_cons_self, fun t ht => ?_⟩
  exact mem_append_left _ (mem_cons_of_mem _ (Option.mem_toList.2 ht))

/-- A plan assigns nothing but what it defines. -/
theorem Does.frame (h : Does p action native s s') (hv : v ∉ action.defs) : s'.env v = s.env v := by
  cases h with
  | poll => rfl
  | value _ | address => exact NativeState.set_of_ne _ _ fun heq => hv (List.mem_singleton.2 heq)
  | load hm _ =>
    refine NativeState.set_of_ne _ _ fun heq => hv ?_
    exact heq ▸ (MemoryPlan.mem_defs_load hm).1
  | rmwLoad hm _ =>
    obtain ⟨hresult, hticket⟩ := MemoryPlan.mem_defs_load hm
    have hne : v ≠ _ := fun heq => hv (heq ▸ hticket _ rfl)
    rw [NativeState.set_of_ne _ _ hne]
    exact NativeState.set_of_ne _ _ fun heq => hv (heq ▸ hresult)
  | rmwSlow _ hframe _ => exact hframe v hv
  | store _ _ => rfl
  | rmwCommit _ _ => rfl
  | other _ hframe => exact hframe v hv

/-- A value program computes the same from the same operands. -/
theorem Platform.eval_congr {reads : Reading → BitVec 128} {steps : List Step}
    {stack : List (BitVec 128)} (h : ∀ v ∈ expression steps, e' v = e v) :
    p.eval reads e' steps stack = p.eval reads e steps stack := by
  induction steps generalizing stack with
  | nil => rfl
  | cons step rest ih =>
    rw [expression, flatMap_cons] at h
    have hrest : ∀ v ∈ expression rest, e' v = e v := fun v hv =>
      h v (mem_append_right _ hv)
    cases step with
    | value v =>
      have hv := h v (mem_append_left _ mem_cons_self)
      rw [Platform.eval, Platform.eval, hv, ih hrest]
    | packed destination source plan =>
      have hd := h destination (mem_append_left _ mem_cons_self)
      have hs := h source (mem_append_left _ (mem_cons_of_mem _ mem_cons_self))
      rw [Platform.eval, Platform.eval, hd, hs]
      exact Option.bind_congr fun pushed _ => ih hrest
    | i32 n | i64 n | read cpu standalone => rw [Platform.eval, Platform.eval, ih hrest]
    | scalar | simd | lane | shuffle =>
      unfold Platform.eval
      exact Option.bind_congr fun pushed _ => ih hrest

theorem word_setWidth (a : BitVec 32) : word (a.setWidth 128) = a := by
  unfold word
  exact setWidth_setWidth_of_le a (by decide)

theorem MemoryPlan.address_mem_uses (m : MemoryPlan) : m.address ∈ m.uses := mem_cons_self

/-- The equation of a read with a ticket. -/
theorem Action.holds_memory :
    (Action.memory m).Holds p e ↔ ∀ result ticket, m.native = .scalarLoad result (some ticket) →
      (e ticket).toNat < 2 ^ 32 → word (e ticket) = p.physical (word (e m.address)) := by
  unfold Action.Holds
  dsimp only
  split
  · rename_i result ticket hm
    refine ⟨fun h result' ticket' hm' => ?_, fun h => h result ticket hm⟩
    cases hm.symm.trans hm'
    exact h
  · rename_i hother
    exact ⟨fun _ result ticket hm => absurd hm (hother result ticket), fun _ => trivial⟩

/-- The equation of a plan is about what it uses and defines. -/
theorem Action.Holds.congr (hdefs : ∀ v ∈ action.defs, e' v = e v)
    (huses : ∀ v ∈ action.uses, e' v = e v) (h : action.Holds p e) : action.Holds p e' := by
  cases action with
  | poll q => trivial
  | call c => trivial
  | value plan =>
    obtain ⟨reads, hreads⟩ := h
    refine ⟨reads, ?_⟩
    rw [Platform.eval_congr huses, hdefs _ mem_cons_self]
    exact hreads
  | effect e =>
    cases e with
    | address nullByte base offset result before call trap =>
      have hoffset := huses offset (mem_append_right _ mem_cons_self)
      have hresult := hdefs result mem_cons_self
      change word (e' result) = p.base base + word (e' offset)
      rw [hoffset, hresult]
      exact h
    | _ => trivial
  | memory m =>
    rw [Action.holds_memory] at h ⊢
    intro result ticket hm hlt
    have hticket := hdefs ticket ((MemoryPlan.mem_defs_load hm).2 ticket rfl)
    rw [hticket] at hlt ⊢
    rw [huses m.address m.address_mem_uses]
    exact h result ticket hm hlt

/-- A plan that goes on establishes its equation. -/
theorem Does.holds (h : Does p action native s s')
    (huses : ∀ v ∈ action.uses, s'.env v = s.env v) : action.Holds p s'.env := by
  cases h with
  | poll => trivial
  | @value plan _ _ reads x heval =>
    refine ⟨reads, ?_⟩
    rw [Platform.eval_congr huses, heval, NativeState.set_self]
  | @address nullByte base offset result before call trap _ _ =>
    have hoffset := huses offset (mem_append_right _ mem_cons_self)
    change word _ = p.base base + word _
    rw [hoffset, NativeState.set_self, word_setWidth]
  | load hm _ =>
    rw [Action.holds_memory]
    intro result ticket hm'
    cases hm.symm.trans hm'
  | @rmwLoad m result ticket _ hm _ =>
    rw [Action.holds_memory]
    intro result' ticket' hm' _
    cases hm.symm.trans hm'
    rw [huses m.address m.address_mem_uses, NativeState.set_self, word_setWidth]
  | rmwSlow hm _ htag =>
    rw [Action.holds_memory]
    intro result' ticket' hm' hlt
    cases hm.symm.trans hm'
    exact absurd hlt (Nat.not_lt.2 htag)
  | store hm _ =>
    rw [Action.holds_memory]
    intro result ticket hm'
    cases hm.symm.trans hm'
  | rmwCommit _ _ => trivial
  | other hopen _ =>
    cases action with
    | poll q => trivial
    | call c => trivial
    | value plan => exact hopen.elim
    | effect e =>
      cases e with
      | address => exact hopen.elim
      | _ => trivial
    | memory m =>
      rw [Action.holds_memory]
      intro result ticket hm
      unfold Action.Open at hopen
      dsimp only at hopen
      rw [hm] at hopen
      exact hopen.elim

end

/-- How a region runs: an instruction does what its plan does, on either path, and an edge assigns
the parameters of its target. -/
def MirData.interp (data : MirData) (p : Platform) : data.ssa.Interp NativeState (BitVec 128) where
  env := NativeState.env
  step id s s' := ∃ action native, data.action id = some action ∧ Does p action native s s'
  edge _ t s s' := s'.ram = s.ram ∧ ∀ v, ¬ data.Param t v → s'.env v = s.env v
  step_frame {id s s' v} h hv := by
    obtain ⟨action, native, haction, hdoes⟩ := h
    refine hdoes.frame fun hmem => hv ?_
    change v ∈ data.defs id
    rw [MirData.defs, haction]
    exact hmem
  edge_frame {b t s s' v} h hv := h.2 v hv

/-- The equations of the plans. -/
def MirData.equations (data : MirData) (p : Platform) : (data.interp p).Equation where
  holds id e := (data.action id).elim True fun action => action.Holds p e
  congr {id e e'} hdefs huses h := by
    change ∀ v ∈ data.defs id, _ at hdefs
    change ∀ v ∈ data.uses id, _ at huses
    rw [MirData.defs] at hdefs
    rw [MirData.uses] at huses
    cases haction : data.action id with
    | none => trivial
    | some action =>
      rw [haction] at hdefs huses h
      exact Action.Holds.congr hdefs huses h
  step {id s s'} h huses := by
    obtain ⟨action, native, haction, hdoes⟩ := h
    change ∀ v ∈ data.uses id, _ at huses
    rw [MirData.uses, haction] at huses
    rw [haction]
    exact hdoes.holds huses

/-- Instructions that run one after another on their native paths. -/
inductive NativeRun (p : Platform) (data : MirData) : List InstId → NativeState → NativeState → Prop
  | nil (s : NativeState) : NativeRun p data [] s s
  | cons {id : InstId} {rest : List InstId} {s s' s'' : NativeState} {action : Action} :
      data.action id = some action → Does p action true s s' → NativeRun p data rest s' s'' →
      NativeRun p data (id :: rest) s s''

theorem NativeRun.single {p : Platform} {data : MirData} {id : InstId} {s s' : NativeState}
    (h : NativeRun p data [id] s s') :
    ∃ action, data.action id = some action ∧ Does p action true s s' := by
  cases h with
  | cons haction hdoes hrest =>
    cases hrest
    exact ⟨_, haction, hdoes⟩

/-! ## Runs across blocks -/

/-- What a run does: control enters a block, or an instruction goes on, on its native path or
another. -/
inductive Event
  | enter (b : BlockId)
  | exec (id : InstId) (native : Bool)

/-- A point of a run: the block, its instructions that are done, and the state. -/
structure Point where
  block : BlockId
  done : List InstId
  state : NativeState

/-- One step of a run. -/
inductive Moves (p : Platform) (data : MirData) : Point → Event → Point → Prop
  | exec {b : BlockId} {pre post : List InstId} {id : InstId} {s s' : NativeState}
      {action : Action} {native : Bool} : data.body b = pre ++ id :: post →
      data.action id = some action → Does p action native s s' →
      Moves p data ⟨b, pre, s⟩ (.exec id native) ⟨b, pre ++ [id], s'⟩
  | enter {b t : BlockId} {s s' : NativeState} : data.flow.edge b t →
      (data.interp p).edge b t s s' →
      Moves p data ⟨b, data.body b, s⟩ (.enter t) ⟨t, [], s'⟩

/-- A run with what it does, in order. -/
inductive Travels (p : Platform) (data : MirData) : Point → List Event → Point → Prop
  | nil (x : Point) : Travels p data x [] x
  | cons {x y z : Point} {e : Event} {events : List Event} :
      Moves p data x e y → Travels p data y events z → Travels p data x (e :: events) z

section
variable {p : Platform} {data : MirData} {x y : Point} {e : Event} {events : List Event}

/-- A run of the region reaches the point. -/
def Point.Reached (p : Platform) (data : MirData) (x : Point) : Prop :=
  (data.interp p).At x.block x.done x.state

theorem Moves.reached (h : Moves p data x e y) (hx : x.Reached p data) : y.Reached p data := by
  cases h with
  | exec hsplit haction hdoes => exact .step hx hsplit ⟨_, _, haction, hdoes⟩
  | enter hedge hcopy => exact .edge hx hedge hcopy

theorem Travels.reached (h : Travels p data x events y) (hx : x.Reached p data) :
    y.Reached p data := by
  induction h with
  | nil x => exact hx
  | cons hmove _ ih => exact ih (hmove.reached hx)

/-- What runs has a plan. -/
theorem Travels.action_of_mem {id : InstId} {native : Bool} (h : Travels p data x events y)
    (he : .exec id native ∈ events) : ∃ action, data.action id = some action := by
  induction h with
  | nil x => cases he
  | cons hmove _ ih =>
    rcases List.mem_cons.1 he with rfl | he
    · cases hmove with
      | exec _ haction _ => exact ⟨_, haction⟩
    · exact ih he

end

end V86.Ir.Mir
