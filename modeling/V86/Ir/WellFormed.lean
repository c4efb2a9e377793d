import V86.Ir.CfgCorrect
import V86.Ir.Semantics
import V86.Ir.Verify

/-!
# Well-formed regions

What the verifier accepts, said without its tables: values are defined where their arena slots say,
uses are available (`Avail`: a definition on every path to the use), and every block's instructions
form a chain (`Chained`). `verify_eq_ok` states that the verifier returns exactly for these regions;
the proofs about the passes use `WF` only.
-/

namespace V86.Ir

open Exec Verify List

/-- A value that is defined on every path to the point of block `b` after the instructions `pre`:
a parameter of a dominating block, a result in a strictly dominating block, or a result of an
instruction in `pre`. -/
inductive Avail (r : Region) (b : BlockId) (pre : List InstId) : ValueId → Prop
  | param {d : BlockId} {blk : Block} {v : ValueId} : r.blocks[d]? = some blk → v ∈ blk.params →
      r.flow.Dom d b → Avail r b pre v
  | above {d : BlockId} {blk : Block} {id : InstId} {inst : Instruction} {v : ValueId} :
      r.blocks[d]? = some blk → id ∈ blk.instructions → r.instructions[id]? = some inst →
      v ∈ inst.results → d ≠ b → r.flow.Dom d b → Avail r b pre v
  | here {id : InstId} {inst : Instruction} {v : ValueId} : id ∈ pre →
      r.instructions[id]? = some inst → v ∈ inst.results → Avail r b pre v

/-- The type of a value, as the verifier looks it up. -/
def Region.checkTy (r : Region) (v : ValueId) : Exec Ty :=
  okOr ((r.values[v]?).map (·.ty)) "invalid value"

/-- A recovery map with available operands of the right types. -/
structure StateOk (r : Region) (b : BlockId) (pre : List InstId) (id : StateId)
    (map : StateMap ValueId) : Prop where
  get : r.states[id]? = some map
  avail : ∀ v ∈ map.values, Avail r b pre v
  check : checkState r.checkTy map = .ok ()

/-- The operand types that the signature check sees. -/
def Instruction.sig (inst : Instruction) (tys : List Ty) : List Ty :=
  if inst.op.ordered then tys.dropLast else tys

/-- An instruction that may stand after the instructions `pre` of a block. -/
structure InstOk (r : Region) (b : BlockId) (blk : Block) (pre : List InstId) (inst : Instruction)
    (c c' : Chain) : Prop where
  commits : inst.commit.isSome = commits inst.op
  trap : inst.trapAfterFault = true → mayTrapAfterFault inst.op = true
  unmasked : inst.unmaskedWordStore = true → inst.op = .partialStore 2
  commit : ∀ id, inst.commit = some id → ∃ s before after, StateOk r b pre id after ∧
    inst.state = some s ∧ r.states[s]? = some before ∧ before.countBase = after.countBase ∧
    after.resume = .afterInstruction
  args : ∀ v ∈ inst.args, Avail r b pre v
  ticketArgs : Ty.rmwTicket ∈ inst.args.map r.ty → isRmwStore inst.op = true
  ticketResults : Ty.rmwTicket ∈ inst.results.map r.ty → isRmwLoad inst.op = true
  state : ∀ id, inst.state = some id → ∃ map, StateOk r b pre id map
  ordered : inst.op.ordered = true → (c.rmw.isNone || isRmwStore inst.op) = true ∧
    c.effect.isSome = true ∧ inst.args.getLast? = c.effect ∧
    (inst.args.map r.ty).getLast? = some .effect ∧
    (inst.results.map r.ty).getLast? = some .effect ∧ c'.effect = inst.results.getLast? ∧
    inst.state.isSome = true
  unordered : inst.op.ordered = false → Ty.effect ∉ inst.args.map r.ty ∧
    Ty.effect ∉ inst.results.map r.ty ∧ c'.effect = c.effect
  pending : checkPending r inst c.pending = .ok c'.pending
  op : checkOp (opView r b pre.length blk inst (inst.sig (inst.args.map r.ty))
    (inst.sig (inst.results.map r.ty))) = .ok ()
  rmw : checkRmw inst c.rmw = .ok c'.rmw

/-- The instructions `pre` of a block may follow each other and leave the chain `c`. -/
inductive Chained (r : Region) (b : BlockId) (blk : Block) : List InstId → Chain → Prop
  | nil : Chained r b blk [] ⟨(effects r blk).head?, none, none⟩
  | snoc {pre : List InstId} {id : InstId} {inst : Instruction} {c c' : Chain} :
      Chained r b blk pre c → r.instructions[id]? = some inst → InstOk r b blk pre inst c c' →
      Chained r b blk (pre ++ [id]) c'

/-- An edge whose arguments match the parameters of its target. -/
structure EdgeOk (r : Region) (b : BlockId) (pre : List InstId) (effect : Option ValueId)
    (edge : Edge) (target : Block) : Prop where
  get : r.blocks[edge.target]? = some target
  arity : target.params.length = edge.args.length
  args : ∀ p ∈ edge.args.zip target.params, Avail r b pre p.1 ∧ r.ty p.1 = r.ty p.2 ∧
    (r.ty p.2 = .effect → some p.1 = effect)

/-- A terminator whose uses are available at the end of its block. -/
structure TermOk (r : Region) (b : BlockId) (pre : List InstId) (effect : Option ValueId)
    (term : Terminator) : Prop where
  exit : ∀ id, term = .exit id → ∃ map, StateOk r b pre id map
  cond : ∀ c t f, term = .condBranch c t f → Avail r b pre c ∧ r.ty c = .i1
  edges : ∀ edge ∈ term.edges, ∃ target, EdgeOk r b pre effect edge target

/-- A block whose instructions form a complete chain. -/
structure BlockOk (r : Region) (b : BlockId) (blk : Block) : Prop where
  entryState : ∀ id, blk.entryState = some id → ∃ map, StateOk r b [] id map
  roots : (effects r blk).length ≤ 1
  chain : ∃ effect, Chained r b blk blk.instructions ⟨effect, none, none⟩ ∧
    ∀ term, blk.terminator = some term → TermOk r b blk.instructions effect term

/-- Every value of a live definition is where its arena slot says. -/
structure DefsOk (r : Region) : Prop where
  reach : ∀ b, b < r.blocks.length → r.flow.Reach b
  param : ∀ {b : BlockId} {blk : Block} {i : Nat} {v : ValueId}, r.blocks[b]? = some blk →
    blk.params[i]? = some v → ∃ ty, r.values[v]? = some ⟨ty, .parameter b i⟩ ∧ ty ≠ .rmwTicket
  inst : ∀ {b : BlockId} {blk : Block} {id : InstId}, r.blocks[b]? = some blk →
    id ∈ blk.instructions → ∃ inst, r.instructions[id]? = some inst ∧ inst.block = b ∧
      ∀ {k : Nat} {v : ValueId}, inst.results[k]? = some v →
        ∃ ty, r.values[v]? = some ⟨ty, .instruction id k⟩
  nodup : ∀ {b : BlockId} {blk : Block}, r.blocks[b]? = some blk → blk.instructions.Nodup

/-- What the verifier accepts. -/
structure WF (r : Region) : Prop extends DefsOk r where
  cfg : CfgOk r
  helper : ∀ h ∈ r.helpers, h.validate = .ok ()
  block : ∀ {b : BlockId} {blk : Block}, r.blocks[b]? = some blk → BlockOk r b blk

/-! ## Definitions -/

namespace Verify

variable {r : Region} {cfg : Cfg}

theorem define_eq_ok {definition : Definition} {ok : Ty → Bool} {m₁ m₂ m₃ : String}
    {defined defined' : List Bool} {v : ValueId} :
    define r definition ok m₁ m₂ m₃ defined v = .ok defined' ↔
      (∃ ty, r.values[v]? = some ⟨ty, definition⟩ ∧ ok ty = true) ∧ defined[v]? = some false ∧
        defined' = defined.set v true := by
  unfold define
  simp only [bind_eq_ok, okOr_eq_ok, require_eq_ok, idx_eq_ok, setAt_eq_ok, decide_eq_true_eq,
    Bool.not_eq_true']
  constructor
  · rintro ⟨⟨ty, d⟩, h1, _, rfl, _, h2, old, h3, _, rfl, _, rfl⟩
    exact ⟨⟨ty, h1, h2⟩, h3, rfl⟩
  · rintro ⟨⟨ty, h1, h2⟩, h3, rfl⟩
    exact ⟨_, h1, (), rfl, (), h2, false, h3, (), rfl, (List.getElem?_eq_some_iff.1 h3).1, rfl⟩

private theorem getElem?_set_true {l : List Bool} {a b : Nat} (ha : a < l.length) :
    (l.set a true)[b]? = some true ↔ l[b]? = some true ∨ b = a := by
  rw [List.getElem?_set]
  by_cases h : a = b
  · simp [h ▸ ha, h]
  · rw [if_neg h, or_iff_left fun h' => h h'.symm]

section
variable {l : List ValueId} {mk : Nat → Definition} {ok : Ty → Bool} {m₁ m₂ m₃ : String}
  {defined defined' : List Bool}

/-- Values that their slots say are defined here, and nowhere before, are defined. -/
theorem defineAll_gives (hmk : Function.Injective mk)
    (hdef : ∀ (k : Nat) (v : ValueId), l[k]? = some v →
      ∃ ty, r.values[v]? = some ⟨ty, mk k⟩ ∧ ok ty = true)
    (hlen : defined.length = r.values.length) (hfresh : ∀ v ∈ l, defined[v]? ≠ some true) :
    Gives (l.zipIdx.foldlM (fun defined (v, k) => define r (mk k) ok m₁ m₂ m₃ defined v) defined)
      fun d => d.length = r.values.length ∧
        ∀ v, d[v]? = some true ↔ defined[v]? = some true ∨ v ∈ l := by
  refine (Gives.foldlM (I := fun pre d => d.length = r.values.length ∧
    ∀ v, d[v]? = some true ↔ defined[v]? = some true ∨ v ∈ pre.map (·.1)) ?_
    ⟨hlen, by simp⟩).mono ?_
  · rintro pre ⟨v, k⟩ post d hl ⟨hd, hmem⟩
    obtain ⟨hk, hv⟩ := zipIdx_split hl
    obtain ⟨ty, hty, hok⟩ := hdef k v hv
    have hlt : v < d.length := hd ▸ (List.getElem?_eq_some_iff.1 hty).1
    have hnew : d[v]? = some false := by
      rw [List.getElem?_eq_getElem hlt, Option.some.injEq, ← Bool.not_eq_true]
      intro htrue
      rcases (hmem v).1 (by rw [List.getElem?_eq_getElem hlt, htrue]) with h | h
      · exact hfresh v (mem_of_getElem? hv) h
      · -- an earlier position has the same value, hence the same definition
        obtain ⟨⟨w, j⟩, hw, rfl⟩ := List.mem_map.1 h
        obtain ⟨n, hn, hwn⟩ := List.mem_iff_getElem.1 hw
        have hj : l.zipIdx[n]? = some (w, j) := by
          rw [hl, List.getElem?_append_left hn, List.getElem?_eq_getElem hn, hwn]
        simp only [List.getElem?_zipIdx, Option.map_eq_some_iff, Prod.mk.injEq] at hj
        obtain ⟨_, hj, rfl, rfl⟩ := hj
        obtain ⟨ty', hty', _⟩ := hdef n _ hj
        have hjk : n = k := by
          have := hty.symm.trans hty'
          simp only [Option.some.injEq, Value.mk.injEq] at this
          exact hmk this.2.symm
        have hpre : k = pre.length := hk
        omega
    refine ⟨_, define_eq_ok.2 ⟨⟨ty, hty, hok⟩, hnew, rfl⟩, by simpa using hd, fun w => ?_⟩
    rw [getElem?_set_true hlt, hmem, map_append, mem_append, or_assoc]
    simp
  · rintro d ⟨h1, h2⟩
    exact ⟨h1, by simpa using h2⟩

/-- Defined values are where their slots say. -/
theorem defineAll_ok (h : l.zipIdx.foldlM
      (fun defined (v, k) => define r (mk k) ok m₁ m₂ m₃ defined v) defined = .ok defined') :
    ∀ (k : Nat) (v : ValueId), l[k]? = some v →
      ∃ ty, r.values[v]? = some ⟨ty, mk k⟩ ∧ ok ty = true := by
  have hI := foldlM_ok (I := fun pre _ => ∀ v k, (v, k) ∈ pre →
    ∃ ty, r.values[v]? = some ⟨ty, mk k⟩ ∧ ok ty = true) ?_ (by simp) h
  · intro k v hv
    exact hI v k (mem_iff_getElem?.2 ⟨k, by simp [List.getElem?_zipIdx, hv]⟩)
  · rintro pre ⟨v, k⟩ post s s' _ hpre hs w j hw
    rcases List.mem_append.1 hw with hw | hw
    · exact hpre w j hw
    · rw [mem_singleton] at hw
      cases hw
      exact (define_eq_ok.1 hs).1

end

/-- The value is defined in the block. -/
def DefinedIn (r : Region) (blk : Block) (v : ValueId) : Prop :=
  v ∈ blk.params ∨ ∃ id inst, id ∈ blk.instructions ∧ r.instructions[id]? = some inst ∧
    v ∈ inst.results

/-- The tables after the first blocks list exactly these blocks' definitions. -/
structure Recorded (r : Region) (n : Nat) (s : Definitions) : Prop where
  length_positions : s.positions.length = r.instructions.length
  length_defined : s.defined.length = r.values.length
  position : ∀ (id : InstId) (p : Nat), s.positions[id]? = some (some p) ↔
    ∃ (b : BlockId) (blk : Block), b < n ∧ r.blocks[b]? = some blk ∧ blk.instructions[p]? = some id
  defined : ∀ v : ValueId, s.defined[v]? = some true ↔
    ∃ (b : BlockId) (blk : Block), b < n ∧ r.blocks[b]? = some blk ∧ DefinedIn r blk v

end Verify

/-- The block a definition belongs to. -/
def Region.owner (r : Region) : Definition → Option BlockId
  | .parameter b _ => some b
  | .instruction id _ => (r.instructions[id]?).map (·.block)

namespace DefsOk

variable {r : Region} {b : BlockId} {blk : Block} {v : ValueId} {id : InstId} {inst : Instruction}

section
variable (h : DefsOk r) (hb : r.blocks[b]? = some blk)
include h hb

/-- The slot of a parameter. -/
theorem param_slot (hv : v ∈ blk.params) :
    ∃ ty i, blk.params[i]? = some v ∧ r.values[v]? = some ⟨ty, .parameter b i⟩ := by
  obtain ⟨i, hi⟩ := mem_iff_getElem?.1 hv
  obtain ⟨ty, hty, _⟩ := h.param hb hi
  exact ⟨ty, i, hi, hty⟩

/-- The slot of a result. -/
theorem result_slot (hid : id ∈ blk.instructions) (hinst : r.instructions[id]? = some inst)
    (hv : v ∈ inst.results) :
    ∃ ty k, inst.results[k]? = some v ∧ r.values[v]? = some ⟨ty, .instruction id k⟩ := by
  obtain ⟨inst', h1, _, h2⟩ := h.inst hb hid
  cases hinst.symm.trans h1
  obtain ⟨k, hk⟩ := mem_iff_getElem?.1 hv
  obtain ⟨ty, hty⟩ := h2 hk
  exact ⟨ty, k, hk, hty⟩

theorem inst_block (hid : id ∈ blk.instructions)
    (hinst : r.instructions[id]? = some inst) : inst.block = b := by
  obtain ⟨inst', h1, h2, _⟩ := h.inst hb hid
  cases hinst.symm.trans h1
  exact h2

/-- A value defined in a block belongs to it. -/
theorem owner_eq (hv : DefinedIn r blk v) :
    ∃ val, r.values[v]? = some val ∧ r.owner val.definition = some b := by
  rcases hv with hv | ⟨id, inst, hid, hinst, hv⟩
  · obtain ⟨ty, i, _, hty⟩ := h.param_slot hb hv
    exact ⟨_, hty, rfl⟩
  · obtain ⟨ty, k, _, hty⟩ := h.result_slot hb hid hinst hv
    exact ⟨_, hty, by simp [Region.owner, hinst, h.inst_block hb hid hinst]⟩

end

variable {b' : BlockId} {blk' : Block}

/-- A value is defined in one block only. -/
theorem definedIn_unique (h : DefsOk r) (hb : r.blocks[b]? = some blk)
    (hb' : r.blocks[b']? = some blk') (hv : DefinedIn r blk v)
    (hv' : DefinedIn r blk' v) : b = b' := by
  obtain ⟨val, h1, h2⟩ := h.owner_eq hb hv
  obtain ⟨val', h3, h4⟩ := h.owner_eq hb' hv'
  cases h1.symm.trans h3
  exact Option.some.inj (h2.symm.trans h4)

/-- A result belongs to one instruction only. -/
theorem result_unique (h : DefsOk r) {id' : InstId} {inst' : Instruction}
    (hb : r.blocks[b]? = some blk) (hb' : r.blocks[b']? = some blk') (hid : id ∈ blk.instructions)
    (hid' : id' ∈ blk'.instructions) (hinst : r.instructions[id]? = some inst)
    (hinst' : r.instructions[id']? = some inst') (hv : v ∈ inst.results)
    (hv' : v ∈ inst'.results) : id = id' := by
  obtain ⟨_, _, _, h1⟩ := h.result_slot hb hid hinst hv
  obtain ⟨_, _, _, h2⟩ := h.result_slot hb' hid' hinst' hv'
  cases h1.symm.trans h2
  rfl

/-- A parameter is not a result. -/
theorem param_ne_result (h : DefsOk r) (hb : r.blocks[b]? = some blk)
    (hb' : r.blocks[b']? = some blk') (hv : v ∈ blk.params) (hid : id ∈ blk'.instructions)
    (hinst : r.instructions[id]? = some inst) : v ∉ inst.results := by
  intro hv'
  obtain ⟨_, _, _, h1⟩ := h.param_slot hb hv
  obtain ⟨_, _, _, h2⟩ := h.result_slot hb' hid hinst hv'
  cases h1.symm.trans h2

/-- An available value is defined in a block. -/
theorem definedIn_of_avail (hb : r.blocks[b]? = some blk) {pre : List InstId}
    (hpre : pre <+: blk.instructions) (hv : Avail r b pre v) :
    ∃ (d : BlockId) (dblk : Block), r.blocks[d]? = some dblk ∧ DefinedIn r dblk v := by
  cases hv with
  | param hd hv _ => exact ⟨_, _, hd, .inl hv⟩
  | above hd hid hinst hv _ _ => exact ⟨_, _, hd, .inr ⟨_, _, hid, hinst, hv⟩⟩
  | here hid hinst hv => exact ⟨b, blk, hb, .inr ⟨_, _, hpre.subset hid, hinst, hv⟩⟩

end DefsOk

namespace Region

variable {r : Region} {v : ValueId} {ty : Ty}

/-- The type lookup of the verifier. -/
theorem checkTy_of_get {val : Value} (h : r.values[v]? = some val) : r.checkTy v = .ok (r.ty v) := by
  simp [checkTy, Region.ty, h, okOr]

theorem ty_of_checkTy (h : r.checkTy v = .ok ty) : r.ty v = ty := by
  obtain ⟨val, h1, h2⟩ := Option.map_eq_some_iff.1 (okOr_eq_ok.1 h)
  simp [Region.ty, h1, h2]

theorem checkTy_of_definedIn {b : BlockId} {blk : Block} (h : DefsOk r)
    (hb : r.blocks[b]? = some blk) (hv : DefinedIn r blk v) : r.checkTy v = .ok (r.ty v) := by
  obtain ⟨val, hval, _⟩ := h.owner_eq hb hv
  exact checkTy_of_get hval

theorem checkTy_of_avail {b : BlockId} {blk : Block} {pre : List InstId} (h : DefsOk r)
    (hb : r.blocks[b]? = some blk) (hpre : pre <+: blk.instructions) (hv : Avail r b pre v) :
    r.checkTy v = .ok (r.ty v) := by
  obtain ⟨d, dblk, hd, hin⟩ := DefsOk.definedIn_of_avail hb hpre hv
  exact checkTy_of_definedIn h hd hin

end Region

namespace Verify

variable {r : Region} {cfg : Cfg} {b : BlockId} {blk : Block}

/-- The instructions of a block are recorded after its parameters. -/
private theorem defineInsts_gives (h : DefsOk r) (hb : r.blocks[b]? = some blk) {s₀ : Definitions}
    (h₀ : Recorded r b s₀) {d₀ : List Bool}
    (hd₀ : ∀ v : ValueId, d₀[v]? = some true ↔ s₀.defined[v]? = some true ∨ v ∈ blk.params)
    (hlen₀ : d₀.length = r.values.length) :
    Gives (blk.instructions.zipIdx.foldlM (defineInst r b) ⟨s₀.positions, d₀⟩)
      (Recorded r (b + 1)) := by
  refine (Gives.foldlM (I := fun pre s => s.positions.length = r.instructions.length ∧
    s.defined.length = r.values.length ∧
    (∀ (id : InstId) (p : Nat), s.positions[id]? = some (some p) ↔
      s₀.positions[id]? = some (some p) ∨ (id, p) ∈ pre) ∧
    ∀ v : ValueId, s.defined[v]? = some true ↔ d₀[v]? = some true ∨
      ∃ id inst, id ∈ pre.map (·.1) ∧ r.instructions[id]? = some inst ∧ v ∈ inst.results) ?_
    ⟨h₀.length_positions, hlen₀, by simp, by simp⟩).mono ?_
  · rintro pre ⟨id, p⟩ post s hl ⟨hlp, hld, hpos, hdef⟩
    have hsplit := eq_of_zipIdx_split hl
    have hnodup := h.nodup hb
    have hmem : id ∈ blk.instructions := by simp [hsplit]
    have hpre : ∀ id' ∈ pre.map (·.1), id' ∈ blk.instructions :=
      fun id' hid' => hsplit ▸ mem_append_left _ hid'
    obtain ⟨inst, hinst, howner, hres⟩ := h.inst hb hmem
    have hlt : id < s.positions.length := hlp ▸ (List.getElem?_eq_some_iff.1 hinst).1
    -- the instruction was not listed in an earlier block, nor earlier in this one
    have hfresh : id ∉ pre.map (·.1) := by
      rw [hsplit, nodup_append] at hnodup
      exact fun hid => hnodup.2.2 id hid id (by simp) rfl
    have hother : ∀ (b' : BlockId) (blk' : Block), b' < b → r.blocks[b']? = some blk' →
        id ∉ blk'.instructions := by
      intro b' blk' hlt' hb' hid
      exact absurd ((h.inst_block hb' hid hinst).symm.trans howner) (Nat.ne_of_lt hlt')
    have hnone : s.positions[id]? = some none := by
      cases hq : s.positions[id] with
      | none => rw [List.getElem?_eq_getElem hlt, hq]
      | some q =>
        rcases (hpos id q).1 (by rw [List.getElem?_eq_getElem hlt, hq]) with hq | hq
        · obtain ⟨b', blk', hlt', hb', hid⟩ := (h₀.position id q).1 hq
          exact absurd (mem_of_getElem? hid) (hother b' blk' hlt' hb')
        · exact absurd (mem_map_of_mem hq) hfresh
    have hundefined : ∀ v ∈ inst.results, s.defined[v]? ≠ some true := by
      intro v hv htrue
      rcases (hdef v).1 htrue with hold | ⟨id', inst', hid', hinst', hv'⟩
      · rcases (hd₀ v).1 hold with hold | hparam
        · obtain ⟨b', blk', hlt', hb', hin⟩ := (h₀.defined v).1 hold
          exact absurd (h.definedIn_unique hb' hb hin (.inr ⟨id, inst, hmem, hinst, hv⟩))
            (Nat.ne_of_lt hlt')
        · exact h.param_ne_result hb hb hparam hmem hinst hv
      · have := h.result_unique hb hb hmem (hpre id' hid') hinst hinst' hv hv'
        exact hfresh (this ▸ hid')
    have hdefs : Gives (inst.results.zipIdx.foldlM (fun defined (v, k) =>
        define r (.instruction id k) (fun _ => true) "invalid result" "result definition mismatch"
          "" defined v) s.defined) _ :=
      defineAll_gives (fun _ _ hk => by injection hk)
        (fun k v hv => (hres hv).imp fun _ hty => ⟨hty, rfl⟩) hld hundefined
    obtain ⟨d, hd, hdlen, hdmem⟩ := hdefs
    refine ⟨⟨s.positions.set id (some p), d⟩, ?_, by simpa using hlp, hdlen, fun id' q => ?_,
      fun v => ?_⟩
    · unfold defineInst
      simp only [bind_eq_ok, okOr_eq_ok, require_eq_ok, idx_eq_ok, setAt_eq_ok]
      exact ⟨inst, hinst, (), by simpa using howner, none, hnone, (), rfl, _, ⟨hlt, rfl⟩, d, hd, rfl⟩
    · rw [List.getElem?_set]
      by_cases hid : id = id'
      · subst hid
        simp only [hlt, if_true, Option.some.injEq, mem_append,
          mem_singleton, Prod.mk.injEq, true_and]
        refine ⟨fun hq => .inr (.inr hq.symm), fun hq => ?_⟩
        rcases hq with hq | hq | hq
        · have := (hpos id q).2 (.inl hq)
          rw [hnone] at this
          cases this
        · exact absurd (mem_map_of_mem hq) hfresh
        · exact hq.symm
      · rw [if_neg hid, hpos]
        have hne : id' ≠ id := fun h' => hid h'.symm
        simp [hne]
    · rw [hdmem, hdef, or_assoc]
      refine or_congr_right ⟨?_, ?_⟩
      · rintro (⟨id', inst', hid', hinst', hv⟩ | hv)
        · exact ⟨id', inst', by simp [List.mem_map.1 hid'], hinst', hv⟩
        · exact ⟨id, inst, by simp, hinst, hv⟩
      · rintro ⟨id', inst', hid', hinst', hv⟩
        rw [map_append, mem_append] at hid'
        rcases hid' with hid' | hid'
        · exact .inl ⟨id', inst', hid', hinst', hv⟩
        · simp only [map_cons, map_nil, mem_singleton] at hid'
          subst hid'
          cases hinst.symm.trans hinst'
          exact .inr hv
  · rintro s ⟨hlp, hld, hpos, hdef⟩
    refine ⟨hlp, hld, fun id p => ?_, fun v => ?_⟩
    · rw [hpos, h₀.position]
      constructor
      · rintro (⟨b', blk', hlt, hb', hid⟩ | hid)
        · exact ⟨b', blk', Nat.lt_succ_of_lt hlt, hb', hid⟩
        · exact ⟨b, blk, Nat.lt_succ_self b, hb, List.mem_zipIdx_iff_getElem?.1 hid⟩
      · rintro ⟨b', blk', hlt, hb', hid⟩
        rcases Nat.lt_succ_iff_lt_or_eq.1 hlt with hlt | rfl
        · exact .inl ⟨b', blk', hlt, hb', hid⟩
        · cases hb.symm.trans hb'
          exact .inr (List.mem_zipIdx_iff_getElem?.2 hid)
    · rw [hdef, hd₀, h₀.defined]
      have hmap : blk.instructions.zipIdx.map (·.1) = blk.instructions := by simp
      rw [hmap]
      constructor
      · rintro ((⟨b', blk', hlt, hb', hv⟩ | hv) | ⟨id, inst, hid, hinst, hv⟩)
        · exact ⟨b', blk', Nat.lt_succ_of_lt hlt, hb', hv⟩
        · exact ⟨b, blk, Nat.lt_succ_self b, hb, .inl hv⟩
        · exact ⟨b, blk, Nat.lt_succ_self b, hb, .inr ⟨id, inst, hid, hinst, hv⟩⟩
      · rintro ⟨b', blk', hlt, hb', hv⟩
        rcases Nat.lt_succ_iff_lt_or_eq.1 hlt with hlt | rfl
        · exact .inl (.inl ⟨b', blk', hlt, hb', hv⟩)
        · cases hb.symm.trans hb'
          exact hv.elim (fun hv => .inl (.inr hv)) .inr

/-- Regions with definitions in place have their definitions recorded. -/
theorem definitions_gives (hcfg : cfg.Exact r) (h : DefsOk r) :
    Gives (definitions r cfg) (Recorded r r.blocks.length) := by
  refine (Gives.foldlM (I := fun pre => Recorded r pre.length) ?_ ⟨by simp, by simp, ?_, ?_⟩).mono
    fun s hs => by simpa using hs
  · rintro pre ⟨blk, b⟩ post s hl hs
    obtain ⟨hp, hb⟩ := zipIdx_split hl
    have hlt : b < cfg.reachable.length :=
      hcfg.length_reachable ▸ (List.getElem?_eq_some_iff.1 hb).1
    have hreach : cfg.reachable[b]? = some true := by
      have := (hcfg.reachable b).2 (h.reach b (List.getElem?_eq_some_iff.1 hb).1)
      rw [List.getElem?_eq_getElem hlt]
      simpa [List.getD, List.getElem?_eq_getElem hlt] using this
    have hp : b = pre.length := hp
    have hs' : Recorded r b s := hp ▸ hs
    have hfresh : ∀ v ∈ blk.params, s.defined[v]? ≠ some true := by
      intro v hv htrue
      obtain ⟨b', blk', hlt', hb', hin⟩ := (hs'.defined v).1 htrue
      exact absurd (h.definedIn_unique hb' hb hin (.inl hv)) (Nat.ne_of_lt hlt')
    have hparams : Gives (blk.params.zipIdx.foldlM (fun defined (v, i) =>
        define r (.parameter b i) (· ≠ .rmwTicket) "invalid parameter"
          "parameter definition mismatch" "RMW ticket cannot be a block parameter" defined v)
          s.defined) _ :=
      defineAll_gives (fun _ _ hk => by injection hk)
        (fun k v hv => (h.param hb hv).imp fun _ hty => ⟨hty.1, by simpa using hty.2⟩)
        hs'.length_defined hfresh
    obtain ⟨d, hd, hdlen, hdmem⟩ := hparams
    obtain ⟨s', hs1, hs2⟩ := defineInsts_gives h hb hs' hdmem hdlen
    refine ⟨s', ?_, by simpa [← hp] using hs2⟩
    unfold defineBlock
    simp only [bind_eq_ok, require_eq_ok, idx_eq_ok]
    exact ⟨true, hreach, (), rfl, d, hd, hs1⟩
  · intro id p
    by_cases hid : id < r.instructions.length <;> simp [hid]
  · intro v
    by_cases hv : v < r.values.length <;> simp [hv]

private theorem defineInst_ok {s s' : Definitions} {id : InstId} {p : Nat}
    (h : defineInst r b s (id, p) = .ok s') :
    (∃ inst, r.instructions[id]? = some inst ∧ inst.block = b ∧
      ∀ {k : Nat} {v : ValueId}, inst.results[k]? = some v →
        ∃ ty, r.values[v]? = some ⟨ty, .instruction id k⟩) ∧
    s.positions[id]? = some none ∧ s'.positions = s.positions.set id (some p) := by
  unfold defineInst at h
  simp only [bind_eq_ok, okOr_eq_ok, require_eq_ok, idx_eq_ok, setAt_eq_ok] at h
  obtain ⟨inst, hinst, _, howner, old, hold, _, hnone, _, ⟨hlt, rfl⟩, d, hd, hs⟩ := h
  cases hs
  rw [Option.isNone_iff_eq_none] at hnone
  subst hnone
  exact ⟨⟨inst, hinst, by simpa using howner, fun hv => (defineAll_ok hd _ _ hv).imp
    fun _ hty => hty.1⟩, hold, rfl⟩

/-- The first loop of the verifier returns only if every definition is in place. -/
theorem definitions_ok (hcfg : cfg.Exact r) {s : Definitions} (h : definitions r cfg = .ok s) :
    DefsOk r := by
  have hI := foldlM_ok (I := fun pre (_ : Definitions) => ∀ b blk, (blk, b) ∈ pre →
    cfg.reachable[b]? = some true ∧
    (∀ {i : Nat} {v : ValueId}, blk.params[i]? = some v →
      ∃ ty, r.values[v]? = some ⟨ty, .parameter b i⟩ ∧ ty ≠ .rmwTicket) ∧
    (∀ {id : InstId}, id ∈ blk.instructions → ∃ inst, r.instructions[id]? = some inst ∧
      inst.block = b ∧ ∀ {k : Nat} {v : ValueId}, inst.results[k]? = some v →
        ∃ ty, r.values[v]? = some ⟨ty, .instruction id k⟩) ∧
    blk.instructions.Nodup) ?_ (by simp) h
  · have hmem : ∀ (b : BlockId) (blk : Block), r.blocks[b]? = some blk → (blk, b) ∈ r.blocks.zipIdx :=
      fun b blk hb => List.mem_zipIdx_iff_getElem?.2 hb
    refine ⟨fun b hb => (hcfg.reachable b).1 ?_, fun hb hv => (hI _ _ (hmem _ _ hb)).2.1 hv,
      fun hb hid => (hI _ _ (hmem _ _ hb)).2.2.1 hid, fun hb => (hI _ _ (hmem _ _ hb)).2.2.2⟩
    have := (hI b _ (hmem b _ (List.getElem?_eq_getElem hb))).1
    simp [List.getD, this]
  · rintro pre ⟨blk, b⟩ post s s' hl hpre hs b' blk' hmem
    rcases List.mem_append.1 hmem with hmem | hmem
    · exact hpre b' blk' hmem
    · rw [mem_singleton] at hmem
      cases hmem
      unfold defineBlock at hs
      simp only [bind_eq_ok, require_eq_ok, idx_eq_ok] at hs
      obtain ⟨_, hreach, _, rfl, d, hd, hs⟩ := hs
      have hinsts := foldlM_ok (I := fun pre s => (∀ id ∈ pre.map (·.1),
        (∃ inst, r.instructions[id]? = some inst ∧ inst.block = b ∧
          ∀ {k : Nat} {v : ValueId}, inst.results[k]? = some v →
            ∃ ty, r.values[v]? = some ⟨ty, .instruction id k⟩) ∧
        ∃ p, s.positions[id]? = some (some p)) ∧ (pre.map (·.1)).Nodup) ?_ (by simp) hs
      · simp only [zipIdx_map_fst] at hinsts
        exact ⟨hreach, fun hv => (defineAll_ok hd _ _ hv).imp fun _ hty =>
          ⟨hty.1, by simpa using hty.2⟩, fun hid => (hinsts.1 _ hid).1, hinsts.2⟩
      · rintro pre ⟨id, p⟩ post s s' _ ⟨hpre, hnd⟩ hs
        obtain ⟨hinst, hnone, hset⟩ := defineInst_ok hs
        have hlt : id < s.positions.length := (List.getElem?_eq_some_iff.1 hnone).1
        have hfresh : id ∉ pre.map (·.1) := by
          intro hid
          obtain ⟨p, hp⟩ := (hpre id hid).2
          rw [hnone] at hp
          cases hp
        rw [map_append, map_cons, map_nil, hset]
        refine ⟨fun id' hid' => ?_, List.nodup_append.2 ⟨hnd, by simp, ?_⟩⟩
        · rcases List.mem_append.1 hid' with hid' | hid'
          · obtain ⟨h1, p', hp'⟩ := hpre id' hid'
            refine ⟨h1, p', ?_⟩
            rw [List.getElem?_set_ne (fun h' : id = id' => hfresh (h' ▸ hid')), hp']
          · rw [mem_singleton] at hid'
            subst hid'
            exact ⟨hinst, p, by simp [hlt]⟩
        · intro a ha c hc
          rw [mem_singleton] at hc
          subst hc
          exact fun h' => hfresh (h' ▸ ha)

end Verify

/-! ## Uses -/

namespace Verify

/-- The tables of a context are those of its region. -/
structure Context.Exact (ctx : Context) : Prop where
  cfgOk : CfgOk ctx.r
  cfg : ctx.cfg.Exact ctx.r
  defsOk : DefsOk ctx.r
  recorded : Recorded ctx.r ctx.r.blocks.length ctx.defs

namespace Context.Exact

variable {ctx : Context} {b : BlockId} {blk : Block} {pre : List InstId} {v : ValueId}

/-- The verifier finds a value available exactly where it is. -/
theorem available (h : ctx.Exact) (hb : ctx.r.blocks[b]? = some blk)
    (hpre : pre <+: blk.instructions) :
    ctx.available v b pre.length = .ok () ↔ Avail ctx.r b pre v := by
  have hlt : ∀ {b : BlockId} {blk : Block}, ctx.r.blocks[b]? = some blk → b < ctx.r.blocks.length :=
    fun hb => (List.getElem?_eq_some_iff.1 hb).1
  have hreach : ctx.r.flow.Reach b := h.defsOk.reach b (hlt hb)
  have hdom : ∀ d, ctx.cfg.dominates b d = true ↔ ctx.r.flow.Dom d b :=
    fun d => h.cfg.dominates b d hreach
  have hlisted : ∀ {d : BlockId} {dblk : Block}, ctx.r.blocks[d]? = some dblk →
      DefinedIn ctx.r dblk v → ctx.defs.defined[v]? = some true :=
    fun hd hv => (h.recorded.defined v).2 ⟨_, _, hlt hd, hd, hv⟩
  unfold Context.available
  simp only [bind_eq_ok, okOr_eq_ok, require_eq_ok, idx_eq_ok, onlyIf_eq_ok]
  constructor
  · rintro ⟨data, hdata, _, hdef, _, rfl, ⟨owner, position⟩, howner, _, hdominates, hpos⟩
    obtain ⟨d, dblk, _, hd, hv | ⟨id, inst, hid, hinst, hv⟩⟩ := (h.recorded.defined v).1 hdef
    · obtain ⟨ty, i, _, hslot⟩ := h.defsOk.param_slot hd hv
      cases hdata.symm.trans hslot
      cases howner
      exact .param hd hv ((hdom _).1 hdominates)
    · obtain ⟨ty, k, _, hslot⟩ := h.defsOk.result_slot hd hid hinst hv
      cases hdata.symm.trans hslot
      have hblock := h.defsOk.inst_block hd hid hinst
      simp only [Context.site, bind_eq_ok, okOr_eq_ok, idx_eq_ok] at howner
      obtain ⟨inst', hinst', q, hq, hpair⟩ := howner
      cases hinst.symm.trans hinst'
      cases hpair
      rw [hblock] at hdominates hpos
      by_cases hdb : d = b
      · subst hdb
        obtain ⟨n, hn⟩ := mem_iff_getElem?.1 hid
        have hqn : position = some n := by
          have := (h.recorded.position id n).2 ⟨d, dblk, hlt hd, hd, hn⟩
          exact Option.some.inj (hq.symm.trans this)
        subst hqn
        have hpos : n < pre.length := by simpa using hpos
        cases hb.symm.trans hd
        refine .here ?_ hinst hv
        rw [prefix_iff_getElem?.1 hpre n hpos] at hn
        exact Option.some.inj hn ▸ getElem_mem hpos
      · exact .above hd hid hinst hv hdb ((hdom d).1 hdominates)
  · intro hv
    cases hv with
    | @param d dblk v hd hv hdominates =>
      obtain ⟨ty, i, _, hslot⟩ := h.defsOk.param_slot hd hv
      refine ⟨_, hslot, true, hlisted hd (.inl hv), (), rfl, (d, none), rfl, (),
        (hdom d).2 hdominates, fun _ => rfl⟩
    | @above d dblk id inst v hd hid hinst hv hne hdominates =>
      obtain ⟨ty, k, _, hslot⟩ := h.defsOk.result_slot hd hid hinst hv
      have hblock := h.defsOk.inst_block hd hid hinst
      obtain ⟨n, hn⟩ := mem_iff_getElem?.1 hid
      have hposition := (h.recorded.position id n).2 ⟨d, dblk, hlt hd, hd, hn⟩
      refine ⟨_, hslot, true, hlisted hd (.inr ⟨id, inst, hid, hinst, hv⟩), (), rfl,
        (d, some n), ?_, (), (hdom d).2 hdominates, fun hdb => absurd (of_decide_eq_true hdb) hne⟩
      simp only [Context.site, bind_eq_ok, okOr_eq_ok, idx_eq_ok]
      exact ⟨inst, hinst, some n, hposition, by rw [hblock]; rfl⟩
    | @here id inst v hid hinst hv =>
      have hid' : id ∈ blk.instructions := hpre.subset hid
      obtain ⟨ty, k, _, hslot⟩ := h.defsOk.result_slot hb hid' hinst hv
      have hblock := h.defsOk.inst_block hb hid' hinst
      obtain ⟨n, hn, hget⟩ := List.mem_iff_getElem.1 hid
      have hn' : blk.instructions[n]? = some id := by
        rw [prefix_iff_getElem?.1 hpre n hn, hget]
      have hposition := (h.recorded.position id n).2 ⟨b, blk, hlt hb, hb, hn'⟩
      refine ⟨_, hslot, true, hlisted hb (.inr ⟨id, inst, hid', hinst, hv⟩), (), rfl,
        (b, some n), ?_, (), (hdom b).2 (.refl b), fun _ => by simpa using hn⟩
      simp only [Context.site, bind_eq_ok, okOr_eq_ok, idx_eq_ok]
      exact ⟨inst, hinst, some n, hposition, by rw [hblock]; rfl⟩

/-- The verifier accepts a recovery map exactly if it is well formed at the point. -/
theorem state (h : ctx.Exact) (hb : ctx.r.blocks[b]? = some blk) (hpre : pre <+: blk.instructions)
    {id : StateId} : ctx.state id b pre.length = .ok () ↔ ∃ map, StateOk ctx.r b pre id map := by
  unfold Context.state
  simp only [bind_eq_ok, okOr_eq_ok, foldlM_unit_eq_ok, h.available hb hpre]
  constructor
  · rintro ⟨map, h1, _, h2, h3⟩
    exact ⟨map, h1, h2, h3⟩
  · rintro ⟨map, h1, h2, h3⟩
    exact ⟨map, h1, (), h2, h3⟩

variable {inst : Instruction} {id : InstId} {c c' : Chain}

private theorem not_or_eq_true (p q : Bool) : (!p || q) = true ↔ (p = true → q = true) := by
  cases p <;> simp

/-- The commit map of a store. -/
private theorem checkCommit (h : ctx.Exact) (hb : ctx.r.blocks[b]? = some blk)
    (hpre : pre <+: blk.instructions) : checkCommit ctx b pre.length inst = .ok () ↔
      inst.commit.isSome = commits inst.op ∧
      (inst.trapAfterFault = true → mayTrapAfterFault inst.op = true) ∧
      (inst.unmaskedWordStore = true → inst.op = .partialStore 2) ∧
      ∀ id, inst.commit = some id → ∃ s before after, StateOk ctx.r b pre id after ∧
        inst.state = some s ∧ ctx.r.states[s]? = some before ∧
        before.countBase = after.countBase ∧ after.resume = .afterInstruction := by
  unfold Verify.checkCommit
  simp only [bind_eq_ok, okOr_eq_ok, require_eq_ok, idx_eq_ok, foldlM_unit_eq_ok,
    h.state hb hpre, Option.mem_toList, not_or_eq_true, decide_eq_true_eq]
  constructor
  · rintro ⟨_, h1, _, h2, _, h3, h4⟩
    refine ⟨h1, h2, h3, fun id hid => ?_⟩
    obtain ⟨_, ⟨after, hafter⟩, s, hs, before, hbefore, after', hafter', _, hcount, hresume⟩ :=
      h4 id hid
    cases hafter.get.symm.trans hafter'
    exact ⟨s, before, after, hafter, hs, hbefore, hcount, hresume⟩
  · rintro ⟨h1, h2, h3, h4⟩
    refine ⟨(), h1, (), h2, (), h3, fun id hid => ?_⟩
    obtain ⟨s, before, after, hafter, hs, hbefore, hcount, hresume⟩ := h4 id hid
    exact ⟨(), ⟨after, hafter⟩, s, hs, before, hbefore, after, hafter.get, (), hcount, hresume⟩

/-- The effect token of an instruction. -/
private theorem checkEffect (h : ctx.Exact) (hb : ctx.r.blocks[b]? = some blk)
    (hpre : pre <+: blk.instructions) {args results : List Ty}
    {out : List Ty × List Ty × Option ValueId} :
    checkEffect ctx b pre.length inst c args results = .ok out ↔
      (∀ id, inst.state = some id → ∃ map, StateOk ctx.r b pre id map) ∧
      (inst.op.ordered = true → (c.rmw.isNone || isRmwStore inst.op) = true ∧
        c.effect.isSome = true ∧ inst.args.getLast? = c.effect ∧ args.getLast? = some .effect ∧
        results.getLast? = some .effect ∧ out.2.2 = inst.results.getLast? ∧
        inst.state.isSome = true) ∧
      (inst.op.ordered = false → Ty.effect ∉ args ∧ Ty.effect ∉ results ∧ out.2.2 = c.effect) ∧
      out.1 = inst.sig args ∧ out.2.1 = inst.sig results := by
  unfold Verify.checkEffect Instruction.sig
  obtain ⟨o1, o2, o3⟩ := out
  cases hord : inst.op.ordered with
  | true =>
    simp only [if_true, bind_eq_ok, okOr_eq_ok, require_eq_ok, h.state hb hpre, Bool.and_eq_true,
      decide_eq_true_eq, pure_eq_ok, Except.ok.injEq, Prod.mk.injEq]
    constructor
    · rintro ⟨_, h1, _, ⟨h2, h3⟩, _, ⟨h4, h5⟩, id, hid, _, hmap, rfl, rfl, rfl⟩
      refine ⟨fun id' hid' => ?_, fun _ => ⟨h1, h2, h3, h4, h5, rfl, by simp [hid]⟩, ?_, rfl, rfl⟩
      · cases hid.symm.trans hid'
        exact hmap
      · intro hfalse
        cases hfalse
    · rintro ⟨h1, h2, _, rfl, rfl⟩
      obtain ⟨h3, h4, h5, h6, h7, rfl, h8⟩ := h2 trivial
      obtain ⟨id, hid⟩ := Option.isSome_iff_exists.1 h8
      exact ⟨(), h3, (), ⟨h4, h5⟩, (), ⟨h6, h7⟩, id, hid, (), h1 id hid, rfl, rfl, rfl⟩
  | false =>
    simp only [Bool.false_eq_true, if_false, bind_eq_ok, require_eq_ok, foldlM_unit_eq_ok,
      h.state hb hpre, Option.mem_toList, Bool.and_eq_true, Bool.not_eq_true', pure_eq_ok,
      Except.ok.injEq, Prod.mk.injEq, contains_eq_mem, decide_eq_false_iff_not]
    constructor
    · rintro ⟨_, ⟨h1, h2⟩, _, h3, rfl, rfl, rfl⟩
      refine ⟨h3, fun htrue => ?_, fun _ => ⟨h1, h2, rfl⟩, rfl, rfl⟩
      cases htrue
    · rintro ⟨h1, _, h2, rfl, rfl⟩
      obtain ⟨h3, h4, rfl⟩ := h2 trivial
      exact ⟨(), ⟨h3, h4⟩, (), h1, rfl, rfl, rfl⟩

/-- The verifier accepts an instruction of a block exactly if it may stand there. -/
theorem checkInst (h : ctx.Exact) (hb : ctx.r.blocks[b]? = some blk) {post : List InstId}
    (hsplit : blk.instructions = pre ++ id :: post) :
    checkInst ctx b blk c (id, pre.length) = .ok c' ↔
      ∃ inst, ctx.r.instructions[id]? = some inst ∧ InstOk ctx.r b blk pre inst c c' := by
  have hpre : pre <+: blk.instructions := ⟨id :: post, hsplit.symm⟩
  have hid : id ∈ blk.instructions := by simp [hsplit]
  unfold Verify.checkInst
  simp only [bind_eq_ok, require_eq_ok, idx_eq_ok, foldlM_unit_eq_ok, h.checkCommit hb hpre,
    h.available hb hpre, h.checkEffect hb hpre, not_or_eq_true, contains_eq_mem,
    decide_eq_true_eq, pure_eq_ok, Except.ok.injEq]
  have hargs : ∀ {inst : Instruction}, (∀ v ∈ inst.args, Avail ctx.r b pre v) →
      inst.args.mapM ctx.ty = .ok (inst.args.map ctx.r.ty) :=
    fun hav => mapM_eq_ok fun v hv => Region.checkTy_of_avail h.defsOk hb hpre (hav v hv)
  have hresults : ∀ {inst : Instruction}, ctx.r.instructions[id]? = some inst →
      inst.results.mapM ctx.ty = .ok (inst.results.map ctx.r.ty) :=
    fun hinst => mapM_eq_ok fun v hv => Region.checkTy_of_definedIn h.defsOk hb
      (.inr ⟨id, _, hid, hinst, hv⟩)
  constructor
  · rintro ⟨inst, hinst, _, ⟨h1, h2, h3, h4⟩, _, h5, args, ha, results, hr, _, h6, _, h7,
      ⟨args', results', effect⟩, ⟨h8, h9, h10, rfl, rfl⟩, pending, h11, _, h12, rmw, h13, rfl⟩
    cases (hargs h5).symm.trans ha
    cases (hresults hinst).symm.trans hr
    exact ⟨inst, hinst, h1, h2, h3, h4, h5, h6, h7, h8, h9, h10, h11, h12, h13⟩
  · rintro ⟨inst, hinst, hok⟩
    exact ⟨inst, hinst, (), ⟨hok.commits, hok.trap, hok.unmasked, hok.commit⟩, (), hok.args, _,
      hargs hok.args, _, hresults hinst, (), hok.ticketArgs, (), hok.ticketResults,
      (_, _, c'.effect), ⟨hok.state, hok.ordered, hok.unordered, rfl, rfl⟩, _, hok.pending, (),
      hok.op, _, hok.rmw, rfl⟩

/-- The verifier accepts the instructions of a block exactly if they form a chain. -/
theorem checkInsts (h : ctx.Exact) (hb : ctx.r.blocks[b]? = some blk) :
    blk.instructions.zipIdx.foldlM (Verify.checkInst ctx b blk)
      ⟨(effects ctx.r blk).head?, none, none⟩ = .ok c ↔ Chained ctx.r b blk blk.instructions c := by
  constructor
  · intro hfold
    have hI := foldlM_ok (I := fun pre c => Chained ctx.r b blk (pre.map (·.1)) c) ?_ .nil hfold
    · simpa using hI
    · rintro pre ⟨id, p⟩ post c c' hl hc hstep
      obtain ⟨hp, _⟩ := zipIdx_split hl
      have hsplit := eq_of_zipIdx_split hl
      have hp : p = (pre.map (·.1)).length := by simpa using hp
      subst hp
      obtain ⟨inst, hinst, hok⟩ := (h.checkInst hb hsplit).1 hstep
      rw [map_append]
      exact hc.snoc hinst hok
  · -- the chain of every prefix is what the fold has computed
    intro hchain
    have hI : ∀ {l : List InstId} {c : Chain}, Chained ctx.r b blk l c → l <+: blk.instructions →
        l.zipIdx.foldlM (Verify.checkInst ctx b blk) ⟨(effects ctx.r blk).head?, none, none⟩ =
          .ok c := by
      intro l c hl
      induction hl with
      | nil => exact fun _ => rfl
      | @snoc pre id inst c c' _ hinst hok ih =>
        rintro ⟨post, hpost⟩
        have hsplit : blk.instructions = pre ++ id :: post := by simp [← hpost]
        rw [zipIdx_append, foldlM_append, bind_eq_ok]
        refine ⟨c, ih ⟨_, hsplit.symm⟩, ?_⟩
        simp only [zipIdx_cons, zipIdx_nil, foldlM_cons, foldlM_nil, Nat.zero_add, bind_eq_ok]
        exact ⟨c', (h.checkInst hb hsplit).2 ⟨inst, hinst, hok⟩, rfl⟩
    exact hI hchain prefix_rfl

variable {effect : Option ValueId} {edge : Edge} {term : Terminator}

/-- The verifier accepts an edge exactly if its arguments match the target's parameters. -/
theorem checkEdge (h : ctx.Exact) (hb : ctx.r.blocks[b]? = some blk)
    (hpre : pre <+: blk.instructions) : checkEdge ctx b pre.length effect edge = .ok () ↔
      ∃ target, EdgeOk ctx.r b pre effect edge target := by
  unfold Verify.checkEdge Verify.checkEdgeArg
  simp only [bind_eq_ok, idx_eq_ok, require_eq_ok, foldlM_unit_eq_ok, decide_eq_true_eq,
    onlyIf_eq_ok, h.available hb hpre]
  have hty : ∀ {v : ValueId}, Avail ctx.r b pre v → ctx.ty v = .ok (ctx.r.ty v) :=
    fun hv => Region.checkTy_of_avail h.defsOk hb hpre hv
  constructor
  · rintro ⟨target, htarget, _, harity, hargs⟩
    refine ⟨target, htarget, harity, fun p hp => ?_⟩
    obtain ⟨_, hav, t, ht, t', ht', _, heq, t'', ht'', heff⟩ := hargs p hp
    cases ht'.symm.trans ht''
    rw [Region.ty_of_checkTy ht, Region.ty_of_checkTy ht']
    exact ⟨hav, heq, heff⟩
  · rintro ⟨target, htarget, harity, hargs⟩
    refine ⟨target, htarget, (), harity, fun p hp => ?_⟩
    obtain ⟨hav, heq, heff⟩ := hargs p hp
    have hp2 : ctx.ty p.2 = .ok (ctx.r.ty p.2) :=
      Region.checkTy_of_definedIn h.defsOk htarget (.inl (of_mem_zip hp).2)
    exact ⟨(), hav, _, hty hav, _, hp2, (), heq, _, hp2, heff⟩

/-- The verifier accepts a terminator exactly if its uses are well formed. -/
theorem checkTerminator (h : ctx.Exact) (hb : ctx.r.blocks[b]? = some blk)
    (hterm : blk.terminator = some term) : checkTerminator ctx b blk effect = .ok () ↔
      TermOk ctx.r b blk.instructions effect term := by
  have hpre : blk.instructions <+: blk.instructions := prefix_rfl
  have hexit : checkExit ctx b blk.instructions.length term = .ok () ↔
      (∀ id, term = .exit id → ∃ map, StateOk ctx.r b blk.instructions id map) ∧
      ∀ c t f, term = .condBranch c t f →
        Avail ctx.r b blk.instructions c ∧ ctx.r.ty c = .i1 := by
    cases term with
    | branch edge => simp [checkExit]
    | exit id => simp [checkExit, h.state hb hpre]
    | condBranch c t f =>
      simp only [checkExit, bind_eq_ok, h.available hb hpre, require_eq_ok, decide_eq_true_eq,
        reduceCtorEq, false_implies, implies_true, true_and, Terminator.condBranch.injEq]
      constructor
      · rintro ⟨_, hav, ty, hty, rfl⟩ _ _ _ ⟨rfl, rfl, rfl⟩
        exact ⟨hav, Region.ty_of_checkTy hty⟩
      · intro hc
        obtain ⟨hav, hty⟩ := hc c t f ⟨rfl, rfl, rfl⟩
        exact ⟨(), hav, _, Region.checkTy_of_avail h.defsOk hb hpre hav, hty⟩
  unfold Verify.checkTerminator
  simp only [hterm, unwrap, ok_bind, bind_eq_ok, foldlM_unit_eq_ok, hexit, h.checkEdge hb hpre]
  constructor
  · rintro ⟨_, ⟨h1, h2⟩, h3⟩
    exact ⟨h1, h2, h3⟩
  · rintro ⟨h1, h2, h3⟩
    exact ⟨(), ⟨h1, h2⟩, h3⟩

/-- The verifier accepts a block exactly if it is well formed. -/
theorem checkBlock (h : ctx.Exact) (hb : ctx.r.blocks[b]? = some blk) :
    checkBlock ctx (blk, b) = .ok () ↔ BlockOk ctx.r b blk := by
  obtain ⟨term, hterm⟩ := h.cfgOk.terminated b blk hb
  have hstate : ∀ id, ctx.state id b 0 = .ok () ↔ ∃ map, StateOk ctx.r b [] id map :=
    fun id => h.state hb ( nil_prefix : [] <+: blk.instructions)
  unfold Verify.checkBlock
  simp only [bind_eq_ok, require_eq_ok, foldlM_unit_eq_ok, hstate, Option.mem_toList,
    decide_eq_true_eq, h.checkInsts hb, h.checkTerminator hb hterm, Option.isNone_iff_eq_none]
  constructor
  · rintro ⟨_, h1, _, h2, ⟨effect, rmw, pending⟩, h3, _, rfl, _, rfl, h4⟩
    refine ⟨h1, h2, effect, h3, fun t ht => ?_⟩
    cases hterm.symm.trans ht
    exact h4
  · rintro ⟨h1, h2, effect, h3, h4⟩
    exact ⟨(), h1, (), h2, _, h3, (), rfl, (), rfl, h4 term hterm⟩

end Context.Exact

end Verify

/-- The verifier returns exactly for the well-formed regions. -/
theorem verify_eq_ok {r : Region} : verify r = .ok () ↔ WF r := by
  unfold verify
  simp only [bind_eq_ok, foldlM_unit_eq_ok]
  constructor
  · rintro ⟨cfg, hcfg, defs, hdefs, _, hhelpers, hblocks⟩
    have hexact := Cfg.Exact.of_compute hcfg
    have hdefsOk := definitions_ok hexact hdefs
    obtain ⟨defs', h1, h2⟩ := definitions_gives hexact hdefsOk
    cases hdefs.symm.trans h1
    have hctx : Context.Exact ⟨r, cfg, defs⟩ := ⟨Cfg.compute_ok hcfg, hexact, hdefsOk, h2⟩
    refine ⟨hdefsOk, hctx.cfgOk, hhelpers, fun {b blk} hb => ?_⟩
    exact (hctx.checkBlock hb).1 (hblocks (blk, b) (List.mem_zipIdx_iff_getElem?.2 hb))
  · intro h
    obtain ⟨cfg, hcfg, hexact⟩ := Cfg.compute_gives h.cfg
    obtain ⟨defs, hdefs, hrec⟩ := definitions_gives hexact h.toDefsOk
    have hctx : Context.Exact ⟨r, cfg, defs⟩ := ⟨h.cfg, hexact, h.toDefsOk, hrec⟩
    refine ⟨cfg, hcfg, defs, hdefs, (), h.helper, fun ⟨blk, b⟩ hmem => ?_⟩
    have hb := List.mem_zipIdx_iff_getElem?.1 hmem
    exact (hctx.checkBlock hb).2 (h.block hb)

end V86.Ir
