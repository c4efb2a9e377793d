import V86.Ir.Simulation

/-!
# Replacing values

`Replaces r w v`: every use of `v` may be replaced by `w`. It has the type of `v`, it is available
wherever `v` is, and at every reachable state where `v` is available both have the same value. The
relation is a preorder, so a pass may follow chains of replacements.

The second half is about passes that rewrite a region in place: they keep all blocks and all ids,
drop pure instructions and replace operands (`Rewriting.inPlace`).
-/

namespace V86.Ir

open Verify List

/-- Uses of `v` may be replaced by `w`. -/
structure Replaces (r : Region) (w v : ValueId) : Prop where
  ty : r.ty w = r.ty v
  avail : ∀ {b : BlockId} {blk : Block} {pre : List InstId}, r.blocks[b]? = some blk →
    pre <+: blk.instructions → Avail r b pre v → Avail r b pre w
  value : ∀ {b : BlockId} {pre : List InstId} {e : Env}, r.At b pre e → Avail r b pre v → e w = e v

namespace Replaces

variable {r : Region} {b : BlockId} {blk : Block} {pre post : List InstId} {id : InstId}
  {inst : Instruction} {u v w : ValueId}

theorem refl (r : Region) (v : ValueId) : Replaces r v v :=
  ⟨rfl, fun _ _ h => h, fun _ _ => rfl⟩

theorem trans (hwf : WF r) (h1 : Replaces r w v) (h2 : Replaces r v u) : Replaces r w u := by
  refine ⟨h1.ty.trans h2.ty, fun hb hpre hu => h1.avail hb hpre (h2.avail hb hpre hu),
    fun hat hu => ?_⟩
  obtain ⟨⟨blk, hb, hpre⟩, _⟩ := hat.sound hwf
  rw [h1.value hat (h2.avail hb hpre hu), h2.value hat hu]

/-- A value that is available to a pure instruction and always equal to its result replaces the
result. -/
theorem of_pure (hwf : WF r) (hb : r.blocks[b]? = some blk)
    (hsplit : blk.instructions = pre ++ id :: post) (hinst : r.instructions[id]? = some inst)
    (hpure : inst.op.pure = true) (hv : v ∈ inst.results) (hty : r.ty w = r.ty v)
    (hw : Avail r b pre w)
    (heval : ∀ {b' : BlockId} {pre' : List InstId} {e : Env}, r.At b' pre' e → Avail r b' pre' v →
      Avail r b' pre' w → e w = r.evalInst inst (inst.args.map e)) : Replaces r w v := by
  have hav : ∀ {b' : BlockId} {blk' : Block} {pre' : List InstId}, r.blocks[b']? = some blk' →
      pre' <+: blk'.instructions → Avail r b' pre' v → Avail r b' pre' w :=
    fun hb' hpre' hv' => hv'.of_site hwf hb' hpre' hb hsplit hinst hv hw
  refine ⟨hty, hav, fun hat hv' => ?_⟩
  obtain ⟨⟨blk', hb', hpre'⟩, hsound⟩ := hat.sound hwf
  rw [heval hat hv' (hav hb' hpre' hv'), hsound.pure hb (by simp [hsplit]) hinst hpure hv hv']

/-- The operands of an instruction may be replaced, without a change of its value. -/
theorem evalInst (hwf : WF r) {args : List ValueId} (hb : r.blocks[b]? = some blk)
    (hid : id ∈ blk.instructions) (hinst : r.instructions[id]? = some inst) (hv : v ∈ inst.results)
    (hargs : List.Forall₂ (fun a a' => Replaces r a' a) inst.args args) {b' : BlockId} {pre' : List InstId} {e : Env}
    (hat : r.At b' pre' e) (hav : Avail r b' pre' v) : r.evalInst inst (inst.args.map e) =
      inst.op.eval (args.map r.ty) (r.ty (inst.results.headD 0)) (args.map e) := by
  obtain ⟨⟨blk', hb', hpre'⟩, _⟩ := hat.sound hwf
  have hmem : ∀ a ∈ inst.args, Avail r b' pre' a :=
    fun a ha => hav.arg hwf hb' hpre' hb hid hinst hv ha
  have htys : inst.args.map r.ty = args.map r.ty := by
    rw [← forall₂_eq_eq_eq, forall₂_map_left_iff, forall₂_map_right_iff]
    exact hargs.imp fun _ _ h => h.ty.symm
  have hvals : inst.args.map e = args.map e := by
    rw [← forall₂_eq_eq_eq, forall₂_map_left_iff, forall₂_map_right_iff]
    exact (forall₂_and_left _ _ |>.2 ⟨hmem, hargs⟩).imp fun _ _ h => (h.2.value hat h.1).symm
  rw [Region.evalInst, htys, hvals]

end Replaces

/-- The value `v` is that of an operation on operands that are available at a point. -/
structure Computes (r : Region) (b : BlockId) (pre : List InstId) (op : Op) (args : List ValueId)
    (v : ValueId) : Prop where
  sig : op.Sig (args.map r.ty) (r.ty v)
  avail : ∀ a ∈ args, Avail r b pre a
  value : ∀ {d : BlockId} {pre' : List InstId} {e : Env}, r.At d pre' e → Avail r d pre' v →
    e v = op.eval (args.map r.ty) (r.ty v) (args.map e)

namespace Computes

variable {r : Region} {b d : BlockId} {blk dblk : Block} {pre pre' post : List InstId} {id : InstId}
  {inst : Instruction} {op : Op} {args : List ValueId} {u v w : ValueId} {e : Env}

theorem of_inst (hwf : WF r) (hb : r.blocks[b]? = some blk)
    (hsplit : blk.instructions = pre ++ id :: post) (hinst : r.instructions[id]? = some inst)
    (hpure : inst.op.pure = true) (hres : inst.results = [v]) :
    Computes r b pre inst.op inst.args v := by
  obtain ⟨c, c', _, hok⟩ := hwf.instOk hb hsplit hinst
  obtain ⟨w, hw, hsig⟩ := hok.pure_sig hpure
  cases hres.symm.trans hw
  refine ⟨hsig, hok.args, fun hat hv => ?_⟩
  rw [(hat.sound hwf).2.pure hb (by simp [hsplit]) hinst hpure (by simp [hres]) hv,
    Region.evalInst, hres]
  rfl

section
variable (hwf : WF r) (h : Computes r b pre op args v) (hb : r.blocks[b]? = some blk)
  (hsplit : blk.instructions = pre ++ id :: post) (hinst : r.instructions[id]? = some inst)
include hwf h hb hsplit hinst

/-- The operands are available wherever the value is. -/
theorem arg (hres : v ∈ inst.results) (hd : r.blocks[d]? = some dblk)
    (hpre : pre' <+: dblk.instructions) (hv : Avail r d pre' v)
    (hu : u ∈ args) : Avail r d pre' u :=
  hv.of_site hwf hd hpre hb hsplit hinst hres (h.avail u hu)

theorem replace (hres : v ∈ inst.results) {args' : List ValueId}
    (hargs : List.Forall₂ (fun a a' => Replaces r a' a) args args') :
    Computes r b pre op args' v := by
  have htys : args.map r.ty = args'.map r.ty := by
    rw [← forall₂_eq_eq_eq, forall₂_map_left_iff, forall₂_map_right_iff]
    exact hargs.imp fun _ _ h => h.ty.symm
  refine ⟨htys ▸ h.sig, fun a' ha' => ?_, fun {d pre' e} hat hv => ?_⟩
  · obtain ⟨k, hk, rfl⟩ := List.mem_iff_getElem.1 ha'
    have hlt : k < args.length := by rw [hargs.length_eq]; exact hk
    exact (hargs.get hlt hk).avail hb ⟨_, hsplit.symm⟩ (h.avail _ (getElem_mem hlt))
  · obtain ⟨⟨dblk, hd, hpre⟩, _⟩ := hat.sound hwf
    have hvals : args.map e = args'.map e := by
      rw [← forall₂_eq_eq_eq, forall₂_map_left_iff, forall₂_map_right_iff]
      refine (forall₂_and_left _ _ |>.2 ⟨?_, hargs⟩).imp fun _ _ h => (h.2.value hat h.1).symm
      exact fun a ha => h.arg hwf hb hsplit hinst hres hd hpre hv ha
    rw [h.value hat hv, htys, hvals]

/-- The operation gives the value of the instruction that defines it. -/
theorem eval_eq (hpure : inst.op.pure = true) (hres : inst.results = [v]) (hat : r.At b pre e) :
    op.eval (args.map r.ty) (r.ty v) (args.map e) = r.evalInst inst (inst.args.map e) := by
  have hset : ∀ a, Avail r b pre a →
      e.setAll inst.results (r.resultVals inst e fun _ => 0) a = e a :=
    fun a ha => Env.setAll_of_not_mem (ha.not_mem_results hwf hb hsplit hinst)
  have hstep : r.At b (pre ++ [id]) (e.setAll inst.results (r.resultVals inst e fun _ => 0)) :=
    .inst hat hb hsplit hinst
  have hv := h.value hstep (.here (by simp) hinst (by simp [hres]))
  rw [map_congr_left fun a ha => hset a (h.avail a ha)] at hv
  rw [← hv, Region.resultVals, if_pos hpure, hres]
  simp [Env.setAll, Env.set]

/-- An available value of the same type that is always equal replaces the value. -/
theorem replaces (hres : v ∈ inst.results) (hty : r.ty w = r.ty v) (hw : Avail r b pre w)
    (heval : ∀ {d : BlockId} {pre' : List InstId} {e : Env}, r.At d pre' e → Avail r d pre' v →
      e w = op.eval (args.map r.ty) (r.ty v) (args.map e)) : Replaces r w v := by
  refine ⟨hty, fun hd hpre hv => hv.of_site hwf hd hpre hb hsplit hinst hres hw, fun hat hv => ?_⟩
  rw [heval hat hv, h.value hat hv]

end

end Computes

/-! ## Operands -/

/-- The terminator with its operands replaced. -/
def Terminator.mapValues (f : ValueId → ValueId) : Terminator → Terminator
  | .branch edge => .branch ⟨edge.target, edge.args.map f⟩
  | .condBranch condition taken notTaken =>
    .condBranch (f condition) ⟨taken.target, taken.args.map f⟩ ⟨notTaken.target, notTaken.args.map f⟩
  | .exit state => .exit state

/-- The region with the operands of all instructions, recovery maps and terminators replaced. -/
def Region.mapOperands (r : Region) (f : ValueId → ValueId) : Region :=
  { r with
    instructions := r.instructions.map fun inst => { inst with args := inst.args.map f }
    states := r.states.map (·.map f)
    blocks := r.blocks.map fun blk => { blk with terminator := blk.terminator.map (·.mapValues f) } }

/-- The region with the given instructions left out of its blocks. -/
def Region.retain (r : Region) (keep : InstId → Bool) : Region :=
  { r with blocks := r.blocks.map fun blk =>
      { blk with instructions := blk.instructions.filter keep } }

/-! ## Rewriting in place -/

/-- What a pass that keeps all blocks and all ids does. -/
structure Edit where
  /-- The value that replaces the uses of a value. -/
  rep : ValueId → ValueId
  /-- The instructions that are kept. -/
  keep : InstId → Bool
  /-- The values whose definitions are kept. -/
  kept : ValueId → Bool
  /-- The operations that replace pure ones, with their operands. -/
  op : InstId → Option (Op × List ValueId)

/-- The edit as a rewriting. -/
def Edit.rewriting (d : Edit) (r : Region) : Rewriting where
  live b := b < r.blocks.length
  block := id
  inst := id
  state := id
  value := id
  rep := d.rep
  keep := d.keep
  kept := d.kept
  op := d.op

/-- The edit keeps the meaning of the region. -/
structure Edit.Valid (d : Edit) (r : Region) : Prop where
  dropped : ∀ {b : BlockId} {blk : Block} {id : InstId} {inst : Instruction},
    r.blocks[b]? = some blk → id ∈ blk.instructions → r.instructions[id]? = some inst →
    d.keep id = false → inst.op.pure = true ∧ inst.state = none
  result : ∀ {b : BlockId} {blk : Block} {id : InstId} {inst : Instruction} {v : ValueId},
    r.blocks[b]? = some blk → id ∈ blk.instructions → r.instructions[id]? = some inst →
    v ∈ inst.results → d.kept v = d.keep id
  param : ∀ {b : BlockId} {blk : Block} {v : ValueId}, r.blocks[b]? = some blk → v ∈ blk.params →
    d.kept v = true
  replaced : ∀ {b : BlockId} {blk : Block} {pre post : List InstId} {id : InstId}
    {inst : Instruction} {op : Op} {args : List ValueId}, r.blocks[b]? = some blk →
    blk.instructions = pre ++ id :: post → r.instructions[id]? = some inst → d.keep id = true →
    d.op id = some (op, args) → inst.op.pure = true ∧
      op.Sig (args.map r.ty) (r.ty (inst.results.headD 0)) ∧
      (∀ a ∈ args, d.kept a = true ∧ Avail r b pre a) ∧
      ∀ {e : Env}, r.At b pre e →
        op.eval (args.map r.ty) (r.ty (inst.results.headD 0)) (args.map e) =
          r.evalInst inst (inst.args.map e)
  use : ∀ {b : BlockId} {pre : List InstId} {v : ValueId}, Use r (d.rewriting r) b pre v →
    d.kept (d.rep v) = true ∧ Replaces r (d.rep v) v
  fix : ∀ v, r.ty v = .effect ∨ r.ty v = .rmwTicket → d.rep v = v

/-- The region `r'` is `r` after the edit. -/
structure Edit.Applied (d : Edit) (r r' : Region) : Prop where
  entries : r'.entries = r.entries
  helpers : r'.helpers = r.helpers
  values : r'.values = r.values
  blocks : r'.blocks = r.blocks.map fun blk =>
    { blk with
      instructions := blk.instructions.filter d.keep
      terminator := blk.terminator.map (·.mapValues d.rep) }
  states : r'.states = r.states.map (·.map d.rep)
  inst : ∀ {id : InstId} {inst : Instruction}, r.instructions[id]? = some inst →
    ∃ op args, r'.instructions[id]? = some { inst with op := op, args := args } ∧
      (d.op id = none → op = inst.op ∧ args = inst.args.map d.rep) ∧
      ∀ op' args', d.op id = some (op', args') → op = op' ∧ args = args'

namespace Edit

variable {d : Edit} {r r' : Region}

variable {b : BlockId} {blk : Block} {term : Terminator}

/-- The edges of a well-formed region keep all their arguments. -/
theorem Valid.edge_eq (h : d.Valid r) (hwf : WF r) (hb : r.blocks[b]? = some blk)
    (hterm : blk.terminator = some term) {e : Edge} (he : e ∈ term.edges) :
    (d.rewriting r).edge r e = ⟨e.target, e.args.map d.rep⟩ := by
  obtain ⟨effect, _, hok⟩ := (hwf.block hb).chain
  obtain ⟨target, htarget⟩ := (hok term hterm).edges e he
  have hfilter : ((e.args.zip (r.params e.target)).filter fun p => d.kept p.2) =
      e.args.zip (r.params e.target) := by
    refine List.filter_eq_self.2 fun p hp => ?_
    rw [Region.params_of_get htarget.get] at hp
    exact h.param htarget.get (of_mem_zip hp).2
  have hargs : (e.args.zip (r.params e.target)).map (fun p => d.rep p.1) = e.args.map d.rep := by
    have hfst : (e.args.zip target.params).map Prod.fst = e.args :=
      map_fst_zip (by rw [htarget.arity])
    rw [Region.params_of_get htarget.get]
    conv_rhs => rw [← hfst, List.map_map]
    rfl
  unfold Rewriting.edge Rewriting.use rewriting
  simp only [id]
  rw [hfilter, hargs]

theorem Valid.term_image (h : d.Valid r) (hwf : WF r) (hb : r.blocks[b]? = some blk)
    (hterm : blk.terminator = some term) :
    (d.rewriting r).TermImage r term (term.mapValues d.rep) := by
  have hlive : ∀ e ∈ term.edges, (d.rewriting r).live e.target := by
    intro e he
    refine hwf.cfg.target_lt b e.target ?_
    rw [Region.succs_of_blocks hb, Block.succs, hterm]
    exact mem_map_of_mem he
  have hedge := fun {e : Edge} (he : e ∈ term.edges) => h.edge_eq hwf hb hterm he
  cases term with
  | branch e =>
    rw [Terminator.mapValues, ← hedge (by simp [Terminator.edges])]
    exact .branch (hlive e (by simp [Terminator.edges]))
  | condBranch c t f =>
    rw [Terminator.mapValues, ← hedge (e := t) (by simp [Terminator.edges]),
      ← hedge (e := f) (by simp [Terminator.edges])]
    exact .cond (hlive t (by simp [Terminator.edges])) (hlive f (by simp [Terminator.edges]))
  | exit s => exact .exit

/-- Operands replaced and instructions left out, without new operations. -/
theorem applied_retain (hop : ∀ id, d.op id = none) :
    d.Applied r ((r.mapOperands d.rep).retain d.keep) := by
  refine ⟨rfl, rfl, rfl, ?_, rfl, fun {id inst} hinst => ?_⟩
  · simp [Region.retain, Region.mapOperands]
  · refine ⟨inst.op, inst.args.map d.rep, ?_, fun _ => ⟨rfl, rfl⟩, fun _ _ h => ?_⟩
    · simp [Region.retain, Region.mapOperands, hinst]
    · rw [hop] at h
      cases h

theorem Valid.params_eq (h : d.Valid r)
    (hb : r.blocks[b]? = some blk) : blk.params.filter d.kept = blk.params :=
  List.filter_eq_self.2 fun _ hv => h.param hb hv

section
variable (ha : d.Applied r r')
include ha

theorem Applied.block (hb : r.blocks[b]? = some blk) : r'.blocks[b]? = some
      { blk with
        instructions := blk.instructions.filter d.keep
        terminator := blk.terminator.map (·.mapValues d.rep) } := by
  rw [ha.blocks, List.getElem?_map, hb]
  rfl

theorem Applied.succs (b : BlockId) : r'.succs b = r.succs b := by
  unfold Region.succs
  rw [ha.blocks, List.getElem?_map]
  cases hb : r.blocks[b]? with
  | none => rfl
  | some blk =>
    obtain ⟨_, _, _, term, _⟩ := blk
    cases term with
    | none => rfl
    | some term => cases term <;> rfl

theorem Applied.flow : r'.flow = r.flow := by
  unfold Region.flow
  simp only [ha.entries, ha.succs]

/-- The edited region is an image of the region. -/
theorem Applied.image (h : d.Valid r) (hwf : WF r) : Image (d.rewriting r) r r' := by
  refine {
    helpers := ha.helpers
    entries := by rw [ha.entries]; exact (List.map_id _).symm
    entry_live := hwf.cfg.entry_lt
    block_inj := fun _ _ heq => heq
    value_inj := fun _ _ heq => heq
    inst_inj := fun _ _ _ _ _ _ heq => heq
    onto := fun b hb => ⟨b, by simpa [ha.blocks, rewriting] using hb, rfl⟩
    block := fun b hb => ?_
    reach := fun b hb => ?_
    inst := fun _ hb hid hinst hkeep => ⟨fun v hv => (h.result hb hid hinst hv).trans hkeep, ?_⟩
    replaced := fun _ hb hsplit hinst hkeep hop => ?_
    dropped := fun _ hb hid hinst hkeep => ?_
    states := fun s _ map hmap => ?_
    param := fun _ hb hi => ?_
    result := fun _ hb hid hinst hkeep hk => ?_
    effect_kept := fun _ hb hv _ => h.param hb hv
    rep := fun _ huse => ?_
    rep_fix := h.fix }
  · have hget := List.getElem?_eq_getElem hb
    obtain ⟨term, hterm⟩ := hwf.cfg.terminated b _ hget
    refine ⟨_, _, hget, ha.block hget, by simp [rewriting], ?_, ?_, term, _, hterm, ?_,
      h.term_image hwf hget hterm⟩
    · rw [Rewriting.params]
      exact ((List.map_id _).trans (h.params_eq hget)).symm
    · exact (List.map_id _).symm
    · rw [hterm]
      rfl
  · rw [ha.flow]
    exact hwf.reach b hb
  · obtain ⟨op, args, hget, hsame, hnew⟩ := ha.inst hinst
    have hblock := hwf.inst_block hb hid hinst
    refine ⟨_, hget, hblock, (List.map_id _).symm, ?_, ?_, rfl, rfl, hsame, fun op' args' hop => ?_⟩
    · exact Option.map_id'.symm
    · exact Option.map_id'.symm
    · obtain ⟨rfl, rfl⟩ := hnew op' args' hop
      exact ⟨rfl, (List.map_id _).symm⟩
  · obtain ⟨h1, h2, h3, _⟩ := h.replaced hb hsplit hinst hkeep hop
    exact ⟨h1, h2, h3⟩
  · obtain ⟨h1, h2⟩ := h.dropped hb hid hinst hkeep
    exact ⟨h1, h2, fun v hv => (h.result hb hid hinst hv).trans hkeep⟩
  · change r'.states[s]? = _
    rw [ha.states, List.getElem?_map, hmap]
    rfl
  · change (List.filter d.kept _)[_]? = _ at hi
    rw [h.params_eq hb] at hi
    obtain ⟨ty, hslot, _⟩ := hwf.param hb hi
    simp [rewriting, ha.values, Region.ty, hslot]
  · obtain ⟨inst', h1, _, h2⟩ := hwf.inst hb hid
    cases hinst.symm.trans h1
    obtain ⟨ty, hslot⟩ := h2 hk
    simp [rewriting, ha.values, Region.ty, hslot]
  · obtain ⟨hkept, hrep⟩ := h.use huse
    obtain ⟨blk, hb, hpre⟩ := huse.point
    exact ⟨hkept, hrep.avail hb hpre (hwf.avail_of_use huse), hrep.ty⟩

theorem Applied.values_agree (h : d.Valid r) (hwf : WF r) : Image.Values (d.rewriting r) r r' := by
  refine ⟨fun _ hat huse => ?_, fun _ hat hb hsplit hinst hkeep hop => ?_,
    fun _ _ hb hterm hb' hterm' => ?_, fun _ hb hv => h.param hb hv⟩
  · exact (h.use huse).2.value hat (hwf.avail_of_use huse)
  · exact (h.replaced hb hsplit hinst hkeep hop).2.2.2 hat
  · -- a conditional branch stays one
    change r'.blocks[_]? = _ at hb'
    cases (ha.block hb).symm.trans hb'
    rw [hterm] at hterm'
    cases hterm'

/-- A valid edit of a well-formed region gives a well-formed region with the same meaning. -/
theorem Applied.correct (h : d.Valid r) (hwf : WF r) : WF r' ∧ Region.SameMeaning r r' :=
  ⟨(ha.image h hwf).wf hwf, (ha.image h hwf).sameMeaning hwf (ha.values_agree h hwf)⟩

end

end Edit

end V86.Ir
