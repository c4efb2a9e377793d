import V86.Ir.Rename
import V86.Ir.Ssa

/-!
# Images of regions

Most passes keep a part of a region under new names: they drop pure instructions and block
parameters, replace uses of a value by another one that is available there, give pure instructions
another pure operation, drop edges of conditional branches, and renumber what is left. `Image m r r'` says
that `r'` is such an image of `r`, with everything about the names in the `Rewriting` `m`. The
image of a well-formed region is well formed (`Image.wf`).
-/

namespace V86.Ir

open Exec Verify List

/-- How a pass names what it keeps of a region. -/
structure Rewriting where
  /-- The blocks that are kept. -/
  live : BlockId → Prop
  block : BlockId → BlockId
  inst : InstId → InstId
  state : StateId → StateId
  value : ValueId → ValueId
  /-- The value that replaces the uses of a value. -/
  rep : ValueId → ValueId
  /-- The instructions that are kept. -/
  keep : InstId → Bool
  /-- The values whose definitions are kept. -/
  kept : ValueId → Bool
  /-- The operations that replace pure ones, with their operands. -/
  op : InstId → Option (Op × List ValueId)

namespace Rewriting

variable (m : Rewriting)

/-- The new name of the value that replaces a use. -/
def use (v : ValueId) : ValueId := m.value (m.rep v)

def insts (l : List InstId) : List InstId := (l.filter m.keep).map m.inst

def params (l : List ValueId) : List ValueId := (l.filter m.kept).map m.value

/-- An edge without the arguments of dropped parameters. -/
def edge (r : Region) (e : Edge) : Edge where
  target := m.block e.target
  args := ((e.args.zip (r.params e.target)).filter fun p => m.kept p.2).map fun p => m.use p.1

/-- The terminators a terminator may become. -/
inductive TermImage (r : Region) : Terminator → Terminator → Prop
  | branch {e : Edge} : m.live e.target → TermImage r (.branch e) (.branch (m.edge r e))
  | cond {c : ValueId} {t f : Edge} : m.live t.target → m.live f.target →
      TermImage r (.condBranch c t f) (.condBranch (m.use c) (m.edge r t) (m.edge r f))
  | taken {c : ValueId} {t f : Edge} : m.live t.target →
      TermImage r (.condBranch c t f) (.branch (m.edge r t))
  | notTaken {c : ValueId} {t f : Edge} : m.live f.target →
      TermImage r (.condBranch c t f) (.branch (m.edge r f))
  | exit {s : StateId} : TermImage r (.exit s) (.exit (m.state s))

/-- A block and what is kept of it. -/
structure BlockImage (r : Region) (blk blk' : Block) : Prop where
  entryState : blk'.entryState = blk.entryState.map m.state
  params : blk'.params = m.params blk.params
  instructions : blk'.instructions = m.insts blk.instructions
  terminator : ∃ term term', blk.terminator = some term ∧ blk'.terminator = some term' ∧
    m.TermImage r term term'

/-- An instruction and what it becomes. -/
structure InstImage (b : BlockId) (id : InstId) (inst inst' : Instruction) : Prop where
  block : inst'.block = m.block b
  results : inst'.results = inst.results.map m.value
  state : inst'.state = inst.state.map m.state
  commit : inst'.commit = inst.commit.map m.state
  trap : inst'.trapAfterFault = inst.trapAfterFault
  unmasked : inst'.unmaskedWordStore = inst.unmaskedWordStore
  same : m.op id = none → inst'.op = inst.op ∧ inst'.args = inst.args.map m.use
  new : ∀ op args, m.op id = some (op, args) → inst'.op = op ∧ inst'.args = args.map m.value

end Rewriting

/-- The values used at a point of a region, not counting instructions that are dropped or the
operands of replaced operations. -/
inductive Use (r : Region) (m : Rewriting) : BlockId → List InstId → ValueId → Prop
  | arg {b : BlockId} {blk : Block} {pre post : List InstId} {id : InstId} {inst : Instruction}
      {v : ValueId} : r.blocks[b]? = some blk → blk.instructions = pre ++ id :: post →
      r.instructions[id]? = some inst → m.keep id = true → m.op id = none → v ∈ inst.args →
      Use r m b pre v
  | state {b : BlockId} {blk : Block} {pre post : List InstId} {id : InstId} {inst : Instruction}
      {s : StateId} {map : StateMap ValueId} {v : ValueId} : r.blocks[b]? = some blk →
      blk.instructions = pre ++ id :: post → r.instructions[id]? = some inst → m.keep id = true →
      inst.state = some s ∨ inst.commit = some s → r.states[s]? = some map → v ∈ map.values →
      Use r m b pre v
  | entry {b : BlockId} {blk : Block} {s : StateId} {map : StateMap ValueId} {v : ValueId} :
      r.blocks[b]? = some blk → blk.entryState = some s → r.states[s]? = some map →
      v ∈ map.values → Use r m b [] v
  | exit {b : BlockId} {blk : Block} {s : StateId} {map : StateMap ValueId} {v : ValueId} :
      r.blocks[b]? = some blk → blk.terminator = some (.exit s) → r.states[s]? = some map →
      v ∈ map.values → Use r m b blk.instructions v
  | cond {b : BlockId} {blk : Block} {v : ValueId} {t f : Edge} : r.blocks[b]? = some blk →
      blk.terminator = some (.condBranch v t f) → Use r m b blk.instructions v
  | edge {b : BlockId} {blk : Block} {term : Terminator} {e : Edge} {v : ValueId} :
      r.blocks[b]? = some blk → blk.terminator = some term → e ∈ term.edges → v ∈ e.args →
      Use r m b blk.instructions v

/-- The recovery maps in use in the kept part of a region. -/
inductive StateUse (r : Region) (m : Rewriting) : StateId → Prop
  | inst {b : BlockId} {blk : Block} {id : InstId} {inst : Instruction} {s : StateId} : m.live b →
      r.blocks[b]? = some blk → id ∈ blk.instructions → r.instructions[id]? = some inst →
      m.keep id = true → inst.state = some s ∨ inst.commit = some s → StateUse r m s
  | entry {b : BlockId} {blk : Block} {s : StateId} : m.live b → r.blocks[b]? = some blk →
      blk.entryState = some s → StateUse r m s
  | exit {b : BlockId} {blk : Block} {s : StateId} : m.live b → r.blocks[b]? = some blk →
      blk.terminator = some (.exit s) → StateUse r m s

/-- The region `r'` is what the rewriting `m` keeps of `r`. -/
structure Image (m : Rewriting) (r r' : Region) : Prop where
  helpers : r'.helpers = r.helpers
  entries : r'.entries = r.entries.map m.block
  entry_live : ∀ b ∈ r.entries, m.live b
  block_inj : ∀ {b b' : BlockId}, m.live b → m.live b' → m.block b = m.block b' → b = b'
  value_inj : ∀ {v v' : ValueId}, m.kept v = true → m.kept v' = true → m.value v = m.value v' →
    v = v'
  inst_inj : ∀ {b : BlockId} {blk : Block} {id id' : InstId}, m.live b →
    r.blocks[b]? = some blk → id ∈ blk.instructions → id' ∈ blk.instructions →
    m.keep id = true → m.keep id' = true → m.inst id = m.inst id' → id = id'
  onto : ∀ b', b' < r'.blocks.length → ∃ b, m.live b ∧ m.block b = b'
  block : ∀ b, m.live b → ∃ blk blk', r.blocks[b]? = some blk ∧
    r'.blocks[m.block b]? = some blk' ∧ m.BlockImage r blk blk'
  reach : ∀ b, m.live b → r'.flow.Reach (m.block b)
  inst : ∀ {b : BlockId} {blk : Block} {id : InstId} {inst : Instruction}, m.live b →
    r.blocks[b]? = some blk → id ∈ blk.instructions → r.instructions[id]? = some inst →
    m.keep id = true → (∀ v ∈ inst.results, m.kept v = true) ∧
      ∃ inst', r'.instructions[m.inst id]? = some inst' ∧ m.InstImage b id inst inst'
  replaced : ∀ {b : BlockId} {blk : Block} {pre post : List InstId} {id : InstId}
    {inst : Instruction} {op : Op} {args : List ValueId}, m.live b → r.blocks[b]? = some blk →
    blk.instructions = pre ++ id :: post → r.instructions[id]? = some inst → m.keep id = true →
    m.op id = some (op, args) → inst.op.pure = true ∧
      op.Sig (args.map r.ty) (r.ty (inst.results.headD 0)) ∧
      ∀ a ∈ args, m.kept a = true ∧ Avail r b pre a
  dropped : ∀ {b : BlockId} {blk : Block} {id : InstId} {inst : Instruction}, m.live b →
    r.blocks[b]? = some blk → id ∈ blk.instructions → r.instructions[id]? = some inst →
    m.keep id = false → inst.op.pure = true ∧ inst.state = none ∧
      ∀ v ∈ inst.results, m.kept v = false
  states : ∀ s, StateUse r m s → ∀ map, r.states[s]? = some map →
    r'.states[m.state s]? = some (map.map m.use)
  param : ∀ {b : BlockId} {blk : Block} {i : Nat} {v : ValueId}, m.live b →
    r.blocks[b]? = some blk → (blk.params.filter m.kept)[i]? = some v →
    r'.values[m.value v]? = some ⟨r.ty v, .parameter (m.block b) i⟩
  result : ∀ {b : BlockId} {blk : Block} {id : InstId} {inst : Instruction} {k : Nat} {v : ValueId},
    m.live b → r.blocks[b]? = some blk → id ∈ blk.instructions →
    r.instructions[id]? = some inst → m.keep id = true → inst.results[k]? = some v →
    r'.values[m.value v]? = some ⟨r.ty v, .instruction (m.inst id) k⟩
  effect_kept : ∀ {b : BlockId} {blk : Block} {v : ValueId}, m.live b → r.blocks[b]? = some blk →
    v ∈ blk.params → r.ty v = .effect → m.kept v = true
  rep : ∀ {b : BlockId} {pre : List InstId} {v : ValueId}, m.live b → Use r m b pre v →
    m.kept (m.rep v) = true ∧ Avail r b pre (m.rep v) ∧ r.ty (m.rep v) = r.ty v
  rep_fix : ∀ v, r.ty v = .effect ∨ r.ty v = .rmwTicket → m.rep v = v

/-- A use stands at a point of a block. -/
theorem Use.point {r : Region} {m : Rewriting} {b : BlockId} {pre : List InstId}
    {v : ValueId} (hv : Use r m b pre v) :
    ∃ blk, r.blocks[b]? = some blk ∧ pre <+: blk.instructions := by
  cases hv with
  | arg hb hsplit _ _ _ _ | state hb hsplit _ _ _ _ _ => exact ⟨_, hb, _, hsplit.symm⟩
  | entry hb _ _ _ => exact ⟨_, hb, nil_prefix⟩
  | exit hb _ _ _ | cond hb _ | edge hb _ _ _ => exact ⟨_, hb, prefix_rfl⟩

/-- Every use in a well-formed region is available. -/
theorem WF.avail_of_use {r : Region} {m : Rewriting} {b : BlockId} {pre : List InstId}
    {v : ValueId} (h : WF r) (hv : Use r m b pre v) : Avail r b pre v := by
  have hstate : ∀ {b : BlockId} {pre : List InstId} {s : StateId} {map : StateMap ValueId},
      (∃ map, StateOk r b pre s map) → r.states[s]? = some map → v ∈ map.values →
      Avail r b pre v := by
    rintro b pre s map ⟨map', hok⟩ hs hv
    cases hok.get.symm.trans hs
    exact hok.avail v hv
  cases hv with
  | arg hb hsplit hinst _ _ hv =>
    obtain ⟨c, c', _, hok⟩ := h.instOk hb hsplit hinst
    exact hok.args v hv
  | state hb hsplit hinst _ hs hmap hv =>
    obtain ⟨c, c', _, hok⟩ := h.instOk hb hsplit hinst
    rcases hs with hs | hs
    · exact hstate (hok.state _ hs) hmap hv
    · obtain ⟨_, _, after, hafter, _⟩ := hok.commit _ hs
      exact hstate ⟨after, hafter⟩ hmap hv
  | entry hb hs hmap hv => exact hstate ((h.block hb).entryState _ hs) hmap hv
  | exit hb hterm hmap hv =>
    obtain ⟨effect, _, hok⟩ := (h.block hb).chain
    exact hstate ((hok _ hterm).exit _ rfl) hmap hv
  | cond hb hterm =>
    obtain ⟨effect, _, hok⟩ := (h.block hb).chain
    exact ((hok _ hterm).cond _ _ _ rfl).1
  | edge hb hterm he hv =>
    obtain ⟨effect, _, hok⟩ := (h.block hb).chain
    obtain ⟨target, htarget⟩ := (hok _ hterm).edges _ he
    obtain ⟨k, hk⟩ := mem_iff_getElem?.1 hv
    have hk' : k < target.params.length := htarget.arity ▸ (List.getElem?_eq_some_iff.1 hk).1
    exact (htarget.args (v, target.params[k])
      (mem_iff_getElem?.2 ⟨k, by simp [List.getElem?_zip_eq_some, hk, hk']⟩)).1

namespace Image

variable {m : Rewriting} {r r' : Region} {b d : BlockId} {blk dblk blk' : Block}
  {pre post : List InstId} {id : InstId} {inst : Instruction} {v : ValueId}

/-! ## Paths -/

/-- The image of a live block. -/
theorem block_of_get (h : Image m r r') (hl : m.live b) (hb : r.blocks[b]? = some blk) :
    ∃ blk', r'.blocks[m.block b]? = some blk' ∧ m.BlockImage r blk blk' := by
  obtain ⟨blk₀, blk', h1, h2, h3⟩ := h.block b hl
  cases hb.symm.trans h1
  exact ⟨blk', h2, h3⟩

/-- Every edge of the image is the image of an edge between live blocks. -/
theorem edge_back (h : Image m r r') (hl : m.live b) {t' : BlockId}
    (ht : t' ∈ r'.succs (m.block b)) : ∃ t, t ∈ r.succs b ∧ m.live t ∧ m.block t = t' := by
  obtain ⟨blk, blk', hb, hb', himg⟩ := h.block b hl
  obtain ⟨term, term', hterm, hterm', htimg⟩ := himg.terminator
  rw [Region.succs_of_blocks hb', Block.succs, hterm'] at ht
  rw [Region.succs_of_blocks hb, Block.succs, hterm]
  cases htimg with
  | branch hlive =>
    simp only [Option.map_some, Option.getD_some, Terminator.edges, map_cons, map_nil,
      mem_singleton] at ht ⊢
    exact ⟨_, rfl, hlive, ht.symm⟩
  | cond hlt hlf =>
    simp only [Option.map_some, Option.getD_some, Terminator.edges, map_cons, map_nil,
      mem_cons, not_mem_nil, or_false] at ht ⊢
    rcases ht with ht | ht
    · exact ⟨_, .inl rfl, hlt, ht.symm⟩
    · exact ⟨_, .inr rfl, hlf, ht.symm⟩
  | taken hlive =>
    simp only [Option.map_some, Option.getD_some, Terminator.edges, map_cons, map_nil,
      mem_cons, not_mem_nil, or_false] at ht ⊢
    exact ⟨_, .inl rfl, hlive, ht.symm⟩
  | notTaken hlive =>
    simp only [Option.map_some, Option.getD_some, Terminator.edges, map_cons, map_nil,
      mem_cons, not_mem_nil, or_false] at ht ⊢
    exact ⟨_, .inr rfl, hlive, ht.symm⟩
  | exit => simp [Terminator.edges] at ht

/-- Every path of the image is the image of a path through live blocks. -/
theorem path_back (h : Image m r r') {l' : List BlockId} {b' : BlockId}
    (hp : r'.flow.Path l' b') : ∃ l b, m.live b ∧ m.block b = b' ∧ l' = l.map m.block ∧
      r.flow.Path l b ∧ ∀ d ∈ l, m.live d := by
  induction hp with
  | @entry a ha =>
    have ha : a ∈ r'.entries := ha
    rw [h.entries] at ha
    obtain ⟨b, hb, rfl⟩ := List.mem_map.1 ha
    refine ⟨[b], b, h.entry_live b hb, rfl, rfl, .entry hb, fun d hd => ?_⟩
    rw [mem_singleton] at hd
    exact hd ▸ h.entry_live b hb
  | step _ hedge ih =>
    obtain ⟨l, b, hlive, rfl, rfl, hp, hall⟩ := ih
    obtain ⟨t, ht, htlive, rfl⟩ := h.edge_back hlive hedge
    refine ⟨t :: l, t, htlive, rfl, rfl, .step hp ht, fun d hd => ?_⟩
    rcases List.mem_cons.1 hd with rfl | hd
    · exact htlive
    · exact hall d hd

/-- A dominator of a live block is live, and its image dominates. -/
theorem dom_image (h : Image m r r') (hl : m.live b) (hdom : r.flow.Dom d b) :
    m.live d ∧ r'.flow.Dom (m.block d) (m.block b) := by
  have hback : ∀ l', r'.flow.Path l' (m.block b) →
      ∃ l, l' = l.map m.block ∧ r.flow.Path l b ∧ ∀ d ∈ l, m.live d := by
    intro l' hp
    obtain ⟨l, b', hlive, heq, hmap, hp', hall⟩ := h.path_back hp
    obtain rfl := h.block_inj hlive hl heq
    exact ⟨l, hmap, hp', hall⟩
  constructor
  · obtain ⟨l', hp⟩ := h.reach b hl
    obtain ⟨l, _, hp, hall⟩ := hback l' hp
    exact hall d (hdom l hp)
  · intro l' hp
    obtain ⟨l, rfl, hp, _⟩ := hback l' hp
    exact mem_map_of_mem (hdom l hp)

/-! ## Values -/

theorem keep_of_kept (h : Image m r r') (hl : m.live b) (hb : r.blocks[b]? = some blk)
    (hid : id ∈ blk.instructions) (hinst : r.instructions[id]? = some inst)
    (hv : v ∈ inst.results) (hkept : m.kept v = true) : m.keep id = true := by
  cases hkeep : m.keep id with
  | true => rfl
  | false =>
    have := (h.dropped hl hb hid hinst hkeep).2.2 v hv
    rw [hkept] at this
    cases this

/-- A kept value is available at the image of each point where it was available. -/
theorem avail_image (h : Image m r r') (hl : m.live b) (hb : r.blocks[b]? = some blk)
    (hpre : pre <+: blk.instructions) (hkept : m.kept v = true) (hv : Avail r b pre v) :
    Avail r' (m.block b) (m.insts pre) (m.value v) := by
  cases hv with
  | @param d dblk _ hd hv hdom =>
    obtain ⟨hdl, hdom'⟩ := h.dom_image hl hdom
    obtain ⟨dblk', hd', himg⟩ := h.block_of_get hdl hd
    refine .param hd' ?_ hdom'
    rw [himg.params]
    exact mem_map_of_mem (List.mem_filter.2 ⟨hv, hkept⟩)
  | @above d dblk id inst _ hd hid hinst hv hne hdom =>
    obtain ⟨hdl, hdom'⟩ := h.dom_image hl hdom
    obtain ⟨dblk', hd', himg⟩ := h.block_of_get hdl hd
    have hkeep := h.keep_of_kept hdl hd hid hinst hv hkept
    obtain ⟨_, inst', hinst', hiimg⟩ := h.inst hdl hd hid hinst hkeep
    refine .above hd' ?_ hinst' ?_ (fun heq => hne (h.block_inj hdl hl heq)) hdom'
    · rw [himg.instructions]
      exact mem_map_of_mem (List.mem_filter.2 ⟨hid, hkeep⟩)
    · rw [hiimg.results]
      exact mem_map_of_mem hv
  | @here id inst _ hid hinst hv =>
    have hkeep := h.keep_of_kept hl hb (hpre.subset hid) hinst hv hkept
    obtain ⟨_, inst', hinst', hiimg⟩ := h.inst hl hb (hpre.subset hid) hinst hkeep
    refine .here (mem_map_of_mem (List.mem_filter.2 ⟨hid, hkeep⟩)) hinst' ?_
    rw [hiimg.results]
    exact mem_map_of_mem hv

/-- A kept value of a live block has its type in the image. -/
theorem value_image (h : Image m r r') (hl : m.live d) (hd : r.blocks[d]? = some dblk)
    (hv : DefinedIn r dblk v) (hkept : m.kept v = true) :
    ∃ definition, r'.values[m.value v]? = some ⟨r.ty v, definition⟩ := by
  rcases hv with hv | ⟨id, inst, hid, hinst, hv⟩
  · obtain ⟨i, hi⟩ := mem_iff_getElem?.1 (List.mem_filter.2 ⟨hv, hkept⟩)
    exact ⟨_, h.param hl hd hi⟩
  · obtain ⟨k, hk⟩ := mem_iff_getElem?.1 hv
    exact ⟨_, h.result hl hd hid hinst (h.keep_of_kept hl hd hid hinst hv hkept) hk⟩

theorem ty_image (h : Image m r r') (hl : m.live d) (hd : r.blocks[d]? = some dblk)
    (hv : DefinedIn r dblk v) (hkept : m.kept v = true) : r'.ty (m.value v) = r.ty v := by
  obtain ⟨_, hget⟩ := h.value_image hl hd hv hkept
  simp [Region.ty, hget]

/-- A kept value that is available has its type in the image. -/
theorem checkTy_image (h : Image m r r') (hl : m.live b) (hb : r.blocks[b]? = some blk)
    (hpre : pre <+: blk.instructions) (hkept : m.kept v = true) (hv : Avail r b pre v) :
    r'.checkTy (m.value v) = .ok (r.ty v) := by
  -- it is defined in a dominating block, which is live
  have hget : ∃ definition, r'.values[m.value v]? = some ⟨r.ty v, definition⟩ := by
    cases hv with
    | param hd hv hdom => exact h.value_image (h.dom_image hl hdom).1 hd (.inl hv) hkept
    | above hd hid hinst hv _ hdom =>
      exact h.value_image (h.dom_image hl hdom).1 hd (.inr ⟨_, _, hid, hinst, hv⟩) hkept
    | here hid hinst hv => exact h.value_image hl hb (.inr ⟨_, _, hpre.subset hid, hinst, hv⟩) hkept
  obtain ⟨definition, hget⟩ := hget
  rw [Region.checkTy, hget]
  rfl

/-! ## Uses -/

/-- The replacement of a use is available in the image and has the type of the use. -/
theorem use_image (h : Image m r r') (hl : m.live b) (hv : Use r m b pre v) :
    Avail r' (m.block b) (m.insts pre) (m.use v) ∧ r'.checkTy (m.use v) = .ok (r.ty v) := by
  obtain ⟨blk, hb, hpre⟩ := hv.point
  obtain ⟨hkept, hav, hty⟩ := h.rep hl hv
  rw [Rewriting.use, ← hty]
  exact ⟨h.avail_image hl hb hpre hkept hav, h.checkTy_image hl hb hpre hkept hav⟩

theorem ty_use (h : Image m r r') (hl : m.live b) (hv : Use r m b pre v) :
    r'.ty (m.use v) = r.ty v :=
  Region.ty_of_checkTy (h.use_image hl hv).2

/-- A recovery map in use stays well formed. -/
theorem state_image (h : Image m r r') (hwf : WF r) (hl : m.live b) {s : StateId}
    {map : StateMap ValueId} (hs : StateUse r m s) (hok : StateOk r b pre s map)
    (huse : ∀ v ∈ map.values, Use r m b pre v) :
    StateOk r' (m.block b) (m.insts pre) (m.state s) (map.map m.use) := by
  refine ⟨h.states s hs map hok.get, fun v hv => ?_, checkState_map (fun v hv t ht => ?_) hok.check⟩
  · rw [StateMap.values_map] at hv
    obtain ⟨w, hw, rfl⟩ := List.mem_map.1 hv
    exact (h.use_image hl (huse w hw)).1
  · obtain ⟨blk, hb, hpre⟩ := (huse v hv).point
    have hty := Region.checkTy_of_avail hwf.toDefsOk hb hpre (hok.avail v hv)
    rw [(h.use_image hl (huse v hv)).2, ← hty]
    exact ht

end Image

/-! ## Chains -/

/-- The chain under the new names. -/
def Rewriting.chain (m : Rewriting) (c : Chain) : Chain where
  effect := c.effect.map m.use
  rmw := c.rmw.map fun (v, bytes, order, s) => (m.use v, bytes, order, s.map m.state)
  pending := c.pending.map fun (pc, next, count, base) => (pc, next, count, base.map m.use)

namespace Image

variable {m : Rewriting} {r r' : Region} {b : BlockId} {blk blk' : Block}
  {pre post : List InstId} {id : InstId} {inst inst' : Instruction} {v : ValueId} {c c' : Chain}

/-- A pure instruction passes the chain on. -/
theorem chain_of_pure (hok : InstOk r b blk pre inst c c') (hpure : inst.op.pure = true) :
    c' = c := by
  have hord := Op.not_ordered_of_pure hpure
  obtain ⟨_, _, heffect⟩ := hok.unordered hord
  have hpending := hok.pending
  have hrmw := hok.rmw
  rw [checkPending, if_neg (by simp [hord])] at hpending
  have hrmw' : c'.rmw = c.rmw := by
    unfold checkRmw at hrmw
    split at hrmw
    · next hop => exact absurd (hop ▸ hpure) nofun
    · next hop => exact absurd (hop ▸ hpure) nofun
    · exact (Except.ok.inj hrmw).symm
  obtain ⟨e, w, p⟩ := c
  obtain ⟨e', w', p'⟩ := c'
  simp only at heffect hrmw' hpending
  cases hpending
  subst heffect hrmw'
  rfl

theorem checkSequence_image {op : Op} {map : StateMap ValueId} {commit : Option (StateMap ValueId)}
    {pending pending' : Option Identity} {f : ValueId → ValueId}
    (h : checkSequence op map commit pending = .ok pending') :
    checkSequence op (map.map f) (commit.map (·.map f))
      (pending.map fun (pc, next, count, base) => (pc, next, count, base.map f)) =
      .ok (pending'.map fun (pc, next, count, base) => (pc, next, count, base.map f)) := by
  unfold checkSequence at h ⊢
  cases pending with
  | none =>
    cases h
    rfl
  | some expected =>
    obtain ⟨_, h1, h⟩ := bind_eq_ok.1 h
    obtain ⟨_, h2, h⟩ := bind_eq_ok.1 h
    rw [require_eq_ok, decide_eq_true_eq] at h1
    subst h1
    refine bind_eq_ok.2 ⟨(), require_eq_ok.2 (decide_eq_true rfl), bind_eq_ok.2 ⟨(), h2, ?_⟩⟩
    cases commit with
    | none =>
      cases h
      rfl
    | some commit =>
      obtain ⟨_, h3, h⟩ := bind_eq_ok.1 h
      cases h
      rw [require_eq_ok] at h3
      simp only [Bool.and_eq_true, decide_eq_true_eq] at h3
      obtain ⟨⟨⟨h4, h5⟩, h6⟩, h7⟩ := h3
      refine bind_eq_ok.2 ⟨(), require_eq_ok.2 ?_, rfl⟩
      simp [StateMap.map, h4, h5, h6, h7]

/-- What the kept results of a live instruction look like in the image. -/
theorem results_ty (h : Image m r r') (hl : m.live b) (hb : r.blocks[b]? = some blk)
    (hid : id ∈ blk.instructions) (hinst : r.instructions[id]? = some inst)
    (hkeep : m.keep id = true) : (inst.results.map m.value).map r'.ty = inst.results.map r.ty := by
  rw [List.map_map]
  refine map_congr_left fun v hv => ?_
  exact h.ty_image hl hb (.inr ⟨id, inst, hid, hinst, hv⟩) ((h.inst hl hb hid hinst hkeep).1 v hv)

/-- The ticket of an RMW read is its second result. -/
theorem ticket_ty (hok : InstOk r b blk pre inst c c') {bytes : Nat} {order : RmwOrder}
    (hop : inst.op = .rmwLoad bytes order) (hv : inst.results[1]? = some v) :
    r.ty v = .rmwTicket := by
  have hcheck := hok.op
  unfold checkOp at hcheck
  simp only [opView, hop, require_eq_ok, Bool.and_eq_true, decide_eq_true_eq, Instruction.sig,
    Op.ordered, if_true] at hcheck
  have hget := hcheck.2
  rw [List.getElem?_dropLast] at hget
  split at hget
  · simpa [hv] using hget
  · cases hget

/-- The pending ticket under the new names. -/
theorem checkRmw_image (h : Image m r r') (hok : InstOk r b blk pre inst c c')
    (himg : m.InstImage b id inst inst') (hop : inst'.op = inst.op)
    (hargs : inst'.args = inst.args.map m.use) :
    checkRmw inst' (m.chain c).rmw = .ok (m.chain c').rmw := by
  have hrmw := hok.rmw
  unfold checkRmw at hrmw ⊢
  rw [hop]
  split at hrmw
  · next bytes order hload =>
    obtain ⟨t, ht, h1⟩ := bind_eq_ok.1 hrmw
    rw [idx_eq_ok] at ht
    have huse : m.use t = m.value t := by
      rw [Rewriting.use, h.rep_fix t (.inr (ticket_ty hok hload ht))]
    have h1 : c'.rmw = some (t, bytes, order, inst.state) := (Except.ok.inj h1).symm
    refine bind_eq_ok.2 ⟨m.value t, ?_, ?_⟩
    · rw [idx_eq_ok, himg.results, List.getElem?_map, ht]
      rfl
    · rw [himg.state, Rewriting.chain, h1, ← huse]
      rfl
  · next bytes order hstore =>
    obtain ⟨a, ha, h1⟩ := bind_eq_ok.1 hrmw
    obtain ⟨_, h2, h3⟩ := bind_eq_ok.1 h1
    rw [idx_eq_ok] at ha
    rw [require_eq_ok, decide_eq_true_eq] at h2
    have h3 : c'.rmw = none := (Except.ok.inj h3).symm
    refine bind_eq_ok.2 ⟨m.use a, ?_, bind_eq_ok.2 ⟨(), require_eq_ok.2 (decide_eq_true ?_), ?_⟩⟩
    · rw [idx_eq_ok, hargs, List.getElem?_map, ha]
      rfl
    · rw [Rewriting.chain, h2, himg.state]
      rfl
    · rw [Rewriting.chain, h3]
      rfl
  · rw [Rewriting.chain, Rewriting.chain, Except.ok.inj hrmw]
    rfl

/-- The sequence of partial stores under the new names. -/
theorem checkPending_image (h : Image m r r') (hok : InstOk r b blk pre inst c c')
    (hs : ∀ s, inst.state = some s ∨ inst.commit = some s → StateUse r m s)
    (himg : m.InstImage b id inst inst') (hop : inst'.op = inst.op) :
    checkPending r' inst' (m.chain c).pending = .ok (m.chain c').pending := by
  have hpending := hok.pending
  unfold checkPending at hpending ⊢
  rw [hop]
  by_cases hord : inst.op.ordered = true
  · rw [if_pos hord] at hpending ⊢
    obtain ⟨s, hs', h1⟩ := bind_eq_ok.1 hpending
    obtain ⟨map, hmap, h2⟩ := bind_eq_ok.1 h1
    obtain ⟨pending, h3, h4⟩ := bind_eq_ok.1 h2
    rw [unwrap_eq_ok] at hs'
    rw [idx_eq_ok] at hmap
    have hcommit : inst'.commit.bind (r'.states[·]?) =
        (inst.commit.bind (r.states[·]?)).map (·.map m.use) := by
      rw [himg.commit]
      cases hc : inst.commit with
      | none => rfl
      | some s' =>
        obtain ⟨_, _, after, hafter, _⟩ := hok.commit s' hc
        change r'.states[m.state s']? = (r.states[s']?).map (·.map m.use)
        rw [hafter.get, h.states s' (hs s' (.inr hc)) after hafter.get]
        rfl
    have hseq := checkSequence_image (f := m.use) h3
    have h4 : c'.pending = if isPartialStore inst.op = true then some (identity map)
        else pending := (Except.ok.inj h4).symm
    rw [hcommit]
    refine bind_eq_ok.2 ⟨m.state s, ?_, bind_eq_ok.2 ⟨map.map m.use, ?_,
      bind_eq_ok.2 ⟨_, hseq, ?_⟩⟩⟩
    · rw [unwrap_eq_ok, himg.state, hs']
      rfl
    · rw [idx_eq_ok]
      exact h.states s (hs s (.inl hs')) map hmap
    · rw [Rewriting.chain, h4]
      split <;> rfl
  · rw [if_neg hord] at hpending ⊢
    rw [Rewriting.chain, Rewriting.chain, Except.ok.inj hpending]

/-- What the signature check reads of an instruction, under the new names. -/
theorem opView_image (h : Image m r r') (hl : m.live b) (hok : InstOk r b blk pre inst c c')
    (hs : ∀ s, inst.state = some s ∨ inst.commit = some s → StateUse r m s)
    (himg : m.InstImage b id inst inst') (hop : inst'.op = inst.op)
    (hargs : inst'.args = inst.args.map m.use) (p : Nat) (args results : List Ty) :
    opView r' (m.block b) p blk' inst' args results =
      (opView r b pre.length blk inst args results).rename m.use
        (opView r' (m.block b) p blk' inst' args results).exits := by
  have hstate : ∀ {o : Option StateId}, (∀ s, o = some s → StateUse r m s) →
      (∀ s, o = some s → ∃ map, r.states[s]? = some map) →
      (o.map m.state).bind (r'.states[·]?) = (o.bind (r.states[·]?)).map (·.map m.use) := by
    intro o hs hget
    cases o with
    | none => rfl
    | some s =>
      obtain ⟨map, hmap⟩ := hget s rfl
      change r'.states[m.state s]? = (r.states[s]?).map (·.map m.use)
      rw [hmap, h.states s (hs s rfl) map hmap]
      rfl
  have hentry : r'.entries.contains (m.block b) = r.entries.contains b := by
    rw [Bool.eq_iff_iff, contains_iff_mem, contains_iff_mem, h.entries]
    refine ⟨fun hmem => ?_, fun hmem => mem_map_of_mem hmem⟩
    obtain ⟨b', hb', heq⟩ := List.mem_map.1 hmem
    exact h.block_inj (h.entry_live b' hb') hl heq ▸ hb'
  unfold opView OpView.rename
  rw [hop, hargs, himg.state, himg.commit, himg.unmasked, hentry, h.helpers,
    hstate (fun s hs' => hs s (.inl hs')) (fun s hs' => (hok.state s hs').imp fun _ hok => hok.get),
    hstate (fun s hs' => hs s (.inr hs')) (fun s hs' => ?_)]
  obtain ⟨_, _, after, hafter, _⟩ := hok.commit s hs'
  exact ⟨after, hafter.get⟩

/-- An instruction at the end of an exiting block stays there. -/
theorem exits_image (himg : m.BlockImage r blk blk') (hsplit : blk.instructions = pre ++ id :: post)
    (hkeep : m.keep id = true) (hstate : inst'.state = inst.state.map m.state)
    {args results : List Ty} (h : (opView r b pre.length blk inst args results).exits = true) :
    (opView r' (m.block b) (m.insts pre).length blk' inst' args results).exits = true := by
  simp only [opView, Bool.and_eq_true, decide_eq_true_eq] at h ⊢
  obtain ⟨hlast, hexit⟩ := h
  have hpost : post = [] := by
    rw [hsplit] at hlast
    simpa using hlast
  subst hpost
  refine ⟨by simp [himg.instructions, hsplit, Rewriting.insts, hkeep], ?_⟩
  obtain ⟨term, term', hterm, hterm', htimg⟩ := himg.terminator
  unfold exitsWith at hexit ⊢
  rw [hterm] at hexit
  rw [hterm', hstate]
  cases htimg with
  | exit => simpa using congrArg (Option.map m.state) (of_decide_eq_true hexit)
  | branch => cases hexit
  | cond => cases hexit
  | taken => cases hexit
  | notTaken => cases hexit

section
variable (h : Image m r r') (hwf : WF r) (hl : m.live b) (hb : r.blocks[b]? = some blk)
  (himg : m.BlockImage r blk blk')
include h hwf hl hb himg

/-- A kept instruction may stand at its place in the image. -/
theorem inst_image (hsplit : blk.instructions = pre ++ id :: post)
    (hinst : r.instructions[id]? = some inst) (hkeep : m.keep id = true)
    (hiimg : m.InstImage b id inst inst') (hok : InstOk r b blk pre inst c c') :
    InstOk r' (m.block b) blk' (m.insts pre) inst' (m.chain c) (m.chain c') := by
  have hid : id ∈ blk.instructions := by simp [hsplit]
  have hresults : inst'.results.map r'.ty = inst.results.map r.ty := by
    rw [hiimg.results]
    exact h.results_ty hl hb hid hinst hkeep
  have hs : ∀ s, inst.state = some s ∨ inst.commit = some s → StateUse r m s :=
    fun s hs => .inst hl hb hid hinst hkeep hs
  have hstate : ∀ s map, inst.state = some s ∨ inst.commit = some s → StateOk r b pre s map →
      StateOk r' (m.block b) (m.insts pre) (m.state s) (map.map m.use) := by
    intro s map hs' hmap
    exact h.state_image hwf hl (hs s hs') hmap fun v hv =>
      .state hb hsplit hinst hkeep hs' hmap.get hv
  have hstate' : ∀ s', inst'.state = some s' →
      ∃ map, StateOk r' (m.block b) (m.insts pre) s' map := by
    intro s' hs'
    rw [hiimg.state] at hs'
    obtain ⟨s, hget, rfl⟩ := Option.map_eq_some_iff.1 hs'
    obtain ⟨map, hmap⟩ := hok.state s hget
    exact ⟨_, hstate s map (.inl hget) hmap⟩
  cases hnew : m.op id with
  | none =>
    obtain ⟨hop, hargs⟩ := hiimg.same hnew
    have hargsTy : inst'.args.map r'.ty = inst.args.map r.ty := by
      rw [hargs, List.map_map]
      exact map_congr_left fun v hv => h.ty_use hl (.arg hb hsplit hinst hkeep hnew hv)
    have hsig : ∀ tys, inst'.sig tys = inst.sig tys := fun tys => by rw [Instruction.sig, hop]; rfl
    refine ⟨by rw [hiimg.commit, hop]; simpa using hok.commits, ?_, ?_, fun s' hs' => ?_,
      fun v hv => ?_, ?_, ?_, hstate', fun hord => ?_, fun hord => ?_,
      h.checkPending_image hok hs hiimg hop, ?_, h.checkRmw_image hok hiimg hop hargs⟩
    · rw [hiimg.trap, hop]
      exact hok.trap
    · rw [hiimg.unmasked, hop]
      exact hok.unmasked
    · rw [hiimg.commit] at hs'
      obtain ⟨s, hget, rfl⟩ := Option.map_eq_some_iff.1 hs'
      obtain ⟨s₀, before, after, hafter, hs₀, hbefore, hcount, hresume⟩ := hok.commit s hget
      refine ⟨m.state s₀, before.map m.use, after.map m.use, hstate s after (.inr hget) hafter,
        by rw [hiimg.state, hs₀]; rfl, h.states s₀ (hs s₀ (.inl hs₀)) before hbefore, ?_, hresume⟩
      exact congrArg (Option.map m.use) hcount
    · rw [hargs] at hv
      obtain ⟨w, hw, rfl⟩ := List.mem_map.1 hv
      exact (h.use_image hl (.arg hb hsplit hinst hkeep hnew hw)).1
    · rw [hargsTy, hop]
      exact hok.ticketArgs
    · rw [hresults, hop]
      exact hok.ticketResults
    · rw [hop] at hord ⊢
      obtain ⟨h1, h2, h3, h4, h5, h6, h7⟩ := hok.ordered hord
      rw [hargsTy, hresults, hiimg.state]
      refine ⟨?_, by simpa [Rewriting.chain] using h2, ?_, h4, h5, ?_, by simpa using h7⟩
      · simpa [Rewriting.chain] using h1
      · rw [hargs, List.getLast?_map, h3]
        rfl
      · -- the last result is the new effect token, which no rewriting replaces
        rw [hiimg.results, List.getLast?_map, Rewriting.chain, h6]
        rw [List.getLast?_map, Option.map_eq_some_iff] at h5
        obtain ⟨v, hv, hty⟩ := h5
        rw [hv]
        simp [Rewriting.use, h.rep_fix v (.inl hty)]
    · rw [hop] at hord
      obtain ⟨h1, h2, h3⟩ := hok.unordered hord
      rw [hargsTy, hresults]
      exact ⟨h1, h2, by rw [Rewriting.chain, Rewriting.chain, h3]⟩
    · rw [hargsTy, hresults, hsig, hsig, h.opView_image hl hok hs hiimg hop hargs]
      exact checkOp_rename (fun he => exits_image himg hsplit hkeep hiimg.state he) hok.op
  | some p =>
    -- another pure operation in place of a pure one
    obtain ⟨op, args⟩ := p
    obtain ⟨hpure, hsig, hav⟩ := h.replaced hl hb hsplit hinst hkeep hnew
    obtain ⟨rfl, hargs⟩ := hiimg.new op args hnew
    have hpure' := Op.pure_of_sig hsig
    have hord' := Op.not_ordered_of_pure hpure'
    obtain ⟨hcommits', _, _, hload', _⟩ := Op.plain_of_pure hpure'
    obtain rfl := chain_of_pure hok hpure
    obtain ⟨v, hv, _⟩ := hok.pure_sig hpure
    obtain ⟨_, hresEffect, _⟩ := hok.unordered (Op.not_ordered_of_pure hpure)
    obtain ⟨hcommit, htrap, hunmasked⟩ := hok.pure_plain hpure
    have hsig : inst'.op.Sig (args.map r.ty) (r.ty v) := by simpa [hv] using hsig
    have hpre : pre <+: blk.instructions := ⟨_, hsplit.symm⟩
    have hargsTy : inst'.args.map r'.ty = args.map r.ty := by
      rw [hargs, List.map_map]
      exact map_congr_left fun a ha =>
        Region.ty_of_checkTy (h.checkTy_image hl hb hpre (hav a ha).1 (hav a ha).2)
    have hplain := Op.plain_tys hsig (hok.pure_ty hpure (by simp [hv]))
    have hsigs : ∀ tys, inst'.sig tys = tys := fun tys => by simp [Instruction.sig, hord']
    have hresTy : inst'.results.map r'.ty = [r.ty v] := by rw [hresults, hv]; rfl
    refine ⟨by simp [hiimg.commit, hcommit, hcommits'], by simp [hiimg.trap, htrap],
      by simp [hiimg.unmasked, hunmasked], by simp [hiimg.commit, hcommit], fun a ha => ?_,
      fun hticket => ?_, fun hticket => ?_, hstate', by simp [hord'], fun _ => ⟨?_, ?_, rfl⟩, ?_, ?_, ?_⟩
    · rw [hargs] at ha
      obtain ⟨w, hw, rfl⟩ := List.mem_map.1 ha
      exact h.avail_image hl hb hpre (hav w hw).1 (hav w hw).2
    · exact absurd rfl (hplain _ (hargsTy ▸ hticket)).1
    · rw [hresults] at hticket
      have := hok.ticketResults hticket
      rw [(Op.plain_of_pure hpure).2.2.2.1] at this
      cases this
    · exact fun heffect => (hplain _ (hargsTy ▸ heffect)).2 rfl
    · exact hresults ▸ hresEffect
    · rw [checkPending, if_neg (by simp [hord'])]
    · rw [hsigs, hsigs, hargsTy, hresTy]
      exact (checkOp_pure hpure').2 ⟨r.ty v, rfl, hsig⟩
    · unfold checkRmw
      split
      · next hop => cases (congrArg Op.pure hop).symm.trans hpure'
      · next hop => cases (congrArg Op.pure hop).symm.trans hpure'
      · rfl

/-- The instructions kept of a chain form a chain. -/
theorem chain_image (hroot : (effects r' blk').head? = (effects r blk).head?.map m.use) :
    ∀ {l : List InstId} {c : Chain}, Chained r b blk l c → l <+: blk.instructions →
      Chained r' (m.block b) blk' (m.insts l) (m.chain c) := by
  intro l c hc
  induction hc with
  | nil =>
    intro _
    have heq : m.chain ⟨(effects r blk).head?, none, none⟩ =
        ⟨(effects r' blk').head?, none, none⟩ := by
      rw [hroot]
      rfl
    rw [heq]
    exact .nil
  | @snoc pre id inst c c' hc hinst hok ih =>
    rintro ⟨post, hpost⟩
    have hsplit : blk.instructions = pre ++ id :: post := by simp [← hpost]
    have hid : id ∈ blk.instructions := by simp [hsplit]
    have hchain := ih ⟨id :: post, hsplit.symm⟩
    cases hkeep : m.keep id with
    | true =>
      obtain ⟨_, inst', hinst', hiimg⟩ := h.inst hl hb hid hinst hkeep
      have heq : m.insts (pre ++ [id]) = m.insts pre ++ [m.inst id] := by
        simp [Rewriting.insts, hkeep]
      rw [heq]
      exact hchain.snoc hinst' (h.inst_image hwf hl hb himg hsplit hinst hkeep hiimg hok)
    | false =>
      have heq : m.insts (pre ++ [id]) = m.insts pre := by simp [Rewriting.insts, hkeep]
      obtain rfl := chain_of_pure hok (h.dropped hl hb hid hinst hkeep).1
      rw [heq]
      exact hchain

/-- The effect tokens among the parameters of a block. -/
theorem effects_image : effects r' blk' = (effects r blk).map m.use := by
  have hty : ∀ v ∈ blk.params, ((r.values[v]?).map (·.ty) = some .effect ↔ r.ty v = .effect) := by
    intro v hv
    obtain ⟨ty, i, _, hslot⟩ := hwf.param_slot hb hv
    simp [Region.ty, hslot]
  have hkept : ∀ v ∈ blk.params, m.kept v = true →
      ((r'.values[m.value v]?).map (·.ty) = some .effect ↔ r.ty v = .effect) := by
    intro v hv hkept
    obtain ⟨_, hget⟩ := h.value_image hl hb (.inl hv) hkept
    simp [hget]
  unfold effects
  rw [himg.params, Rewriting.params, filter_map]
  have hfilter : ((blk.params.filter m.kept).filter
      ((fun v => decide ((r'.values[v]?).map (·.ty) = some .effect)) ∘ m.value)) =
      blk.params.filter fun v => decide ((r.values[v]?).map (·.ty) = some .effect) := by
    rw [filter_filter]
    refine filter_congr fun v hv => ?_
    rw [Bool.eq_iff_iff]
    simp only [Function.comp_apply, Bool.and_eq_true, decide_eq_true_eq, hty v hv]
    constructor
    · rintro ⟨h1, h2⟩
      exact (hkept v hv h2).1 h1
    · intro he
      have hk := h.effect_kept hl hb hv he
      exact ⟨(hkept v hv hk).2 he, hk⟩
  rw [hfilter]
  refine map_congr_left fun v hv => ?_
  obtain ⟨hmem, he⟩ := List.mem_filter.1 hv
  rw [Rewriting.use, h.rep_fix v (.inl ((hty v hmem).1 (of_decide_eq_true he)))]

end

/-- An edge to a live block matches the kept parameters of its target. -/
theorem edge_image (h : Image m r r') (hl : m.live b) (hb : r.blocks[b]? = some blk)
    {term : Terminator} (hterm : blk.terminator = some term) {e : Edge} (he : e ∈ term.edges)
    (hlive : m.live e.target) {effect : Option ValueId} {target : Block}
    (hok : EdgeOk r b blk.instructions effect e target) :
    ∃ target', EdgeOk r' (m.block b) (m.insts blk.instructions) (effect.map m.use) (m.edge r e)
      target' := by
  obtain ⟨target', htarget', himg⟩ := h.block_of_get hlive hok.get
  have hparams : target'.params =
      ((e.args.zip target.params).filter fun p => m.kept p.2).map fun p => m.value p.2 := by
    rw [himg.params, Rewriting.params]
    have hsnd : (e.args.zip target.params).map Prod.snd = target.params :=
      map_snd_zip (by rw [hok.arity])
    conv_lhs => rw [← hsnd]
    rw [filter_map, List.map_map]
    rfl
  have hargs : (m.edge r e).args =
      ((e.args.zip target.params).filter fun p => m.kept p.2).map fun p => m.use p.1 := by
    rw [Rewriting.edge, Region.params_of_get hok.get]
  refine ⟨target', htarget', by simp [hparams, hargs], fun p hp => ?_⟩
  rw [hparams, hargs, zip_map'] at hp
  obtain ⟨⟨arg, param⟩, hmem, rfl⟩ := List.mem_map.1 hp
  obtain ⟨hmem, hkept⟩ := List.mem_filter.1 hmem
  obtain ⟨hav, hty, heff⟩ := hok.args _ hmem
  have huse : Use r m b blk.instructions arg :=
    .edge hb hterm he (of_mem_zip hmem).1
  have htyp := h.ty_image hlive hok.get (.inl (of_mem_zip hmem).2) hkept
  refine ⟨(h.use_image hl huse).1, ?_, fun heffect => ?_⟩
  · rw [h.ty_use hl huse, htyp]
    exact hty
  · rw [htyp] at heffect
    rw [← heff heffect]
    rfl

/-! ## The image of a well-formed region -/

/-- Every block of the image is the image of a live block. -/
theorem block_back (h : Image m r r') {b' : BlockId} (hb' : r'.blocks[b']? = some blk') :
    ∃ b blk, m.live b ∧ m.block b = b' ∧ r.blocks[b]? = some blk ∧ m.BlockImage r blk blk' := by
  obtain ⟨b, hl, rfl⟩ := h.onto b' (List.getElem?_eq_some_iff.1 hb').1
  obtain ⟨blk, blk₀, hb, h1, himg⟩ := h.block b hl
  cases hb'.symm.trans h1
  exact ⟨b, blk, hl, rfl, hb, himg⟩

section
variable (h : Image m r r') (hwf : WF r)
include h hwf

theorem defs_image : DefsOk r' := by
  refine ⟨fun b' hb' => ?_, fun {b' blk' i v'} hb' hi => ?_, fun {b' blk' id'} hb' hid' => ?_,
    fun {b' blk'} hb' => ?_⟩
  · obtain ⟨b, hl, rfl⟩ := h.onto b' hb'
    exact h.reach b hl
  · obtain ⟨b, blk, hl, rfl, hb, himg⟩ := h.block_back hb'
    rw [himg.params, Rewriting.params, List.getElem?_map, Option.map_eq_some_iff] at hi
    obtain ⟨v, hv, rfl⟩ := hi
    obtain ⟨hmem, _⟩ := List.mem_filter.1 (mem_of_getElem? hv)
    obtain ⟨j, hj⟩ := mem_iff_getElem?.1 hmem
    obtain ⟨ty, hslot, hne⟩ := hwf.param hb hj
    refine ⟨_, h.param hl hb hv, ?_⟩
    simpa [Region.ty, hslot] using hne
  · obtain ⟨b, blk, hl, rfl, hb, himg⟩ := h.block_back hb'
    rw [himg.instructions] at hid'
    obtain ⟨id, hid, rfl⟩ := List.mem_map.1 hid'
    obtain ⟨hid, hkeep⟩ := List.mem_filter.1 hid
    obtain ⟨inst, hinst, _, _⟩ := hwf.inst hb hid
    obtain ⟨_, inst', hinst', hiimg⟩ := h.inst hl hb hid hinst hkeep
    refine ⟨inst', hinst', hiimg.block, fun {k v'} hv' => ?_⟩
    rw [hiimg.results, List.getElem?_map, Option.map_eq_some_iff] at hv'
    obtain ⟨v, hv, rfl⟩ := hv'
    exact ⟨_, h.result hl hb hid hinst hkeep hv⟩
  · obtain ⟨b, blk, hl, rfl, hb, himg⟩ := h.block_back hb'
    rw [himg.instructions]
    refine List.Nodup.map_on (fun id hid id' hid' heq => ?_) ((hwf.nodup hb).filter _)
    obtain ⟨hid, hkeep⟩ := List.mem_filter.1 hid
    obtain ⟨hid', hkeep'⟩ := List.mem_filter.1 hid'
    exact h.inst_inj hl hb hid hid' hkeep hkeep' heq

theorem cfg_image : CfgOk r' := by
  have hlt : ∀ b, m.live b → m.block b < r'.blocks.length := by
    intro b hl
    obtain ⟨_, _, _, hget, _⟩ := h.block b hl
    exact (List.getElem?_eq_some_iff.1 hget).1
  refine ⟨fun b' blk' hb' => ?_, fun a' b' hedge => ?_, ?_, fun b' hb' => ?_⟩
  · obtain ⟨b, blk, _, _, _, himg⟩ := h.block_back hb'
    obtain ⟨_, term', _, hterm', _⟩ := himg.terminator
    exact ⟨term', hterm'⟩
  · have ha' : ∃ ablk, r'.blocks[a']? = some ablk := by
      cases hget : r'.blocks[a']? with
      | none => simp [Region.succs, hget] at hedge
      | some ablk => exact ⟨ablk, rfl⟩
    obtain ⟨ablk, ha'⟩ := ha'
    obtain ⟨a, _, hl, rfl, _, _⟩ := h.block_back ha'
    obtain ⟨b, _, hbl, rfl⟩ := h.edge_back hl hedge
    exact hlt b hbl
  · rw [h.entries, Ne, map_eq_nil_iff]
    exact hwf.cfg.entries_ne
  · rw [h.entries] at hb'
    obtain ⟨b, hb, rfl⟩ := List.mem_map.1 hb'
    exact hlt b (h.entry_live b hb)

/-- The terminator of a live block may stand at the end of its image. -/
theorem term_image (hl : m.live b) (hb : r.blocks[b]? = some blk) {term term' : Terminator}
    (hterm : blk.terminator = some term) (himg : m.TermImage r term term') {effect : Option ValueId}
    (hok : TermOk r b blk.instructions effect term) :
    TermOk r' (m.block b) (m.insts blk.instructions) (effect.map m.use) term' := by
  have hedge : ∀ e ∈ term.edges, m.live e.target → ∃ target', EdgeOk r' (m.block b)
      (m.insts blk.instructions) (effect.map m.use) (m.edge r e) target' := by
    intro e he hlive
    obtain ⟨target, htarget⟩ := hok.edges e he
    exact h.edge_image hl hb hterm he hlive htarget
  have hbranch : ∀ e ∈ term.edges, m.live e.target → TermOk r' (m.block b)
      (m.insts blk.instructions) (effect.map m.use) (.branch (m.edge r e)) := by
    intro e he hlive
    refine ⟨fun _ h => (by cases h), fun _ _ _ h => (by cases h), fun e' he' => ?_⟩
    cases List.mem_singleton.1 he'
    exact hedge e he hlive
  cases himg with
  | branch hlive => exact hbranch _ (by simp [Terminator.edges]) hlive
  | @cond c t f hlt hlf =>
    refine ⟨fun _ h => (by cases h), fun c' t' f' heq => ?_, fun e' he' => ?_⟩
    · cases heq
      have huse : Use r m b blk.instructions c := .cond hb hterm
      refine ⟨(h.use_image hl huse).1, ?_⟩
      rw [h.ty_use hl huse]
      exact (hok.cond c t f rfl).2
    · simp only [Terminator.edges, mem_cons, not_mem_nil, or_false] at he'
      rcases he' with rfl | rfl
      · exact hedge _ (by simp [Terminator.edges]) hlt
      · exact hedge _ (by simp [Terminator.edges]) hlf
  | taken hlive | notTaken hlive => exact hbranch _ (by simp [Terminator.edges]) hlive
  | @exit s =>
    refine ⟨fun s' hs' => ?_, fun _ _ _ h => (by cases h), fun e' he' => by cases he'⟩
    cases hs'
    obtain ⟨map, hmap⟩ := hok.exit s rfl
    exact ⟨_, h.state_image hwf hl (.exit hl hb hterm) hmap fun v hv =>
      .exit hb hterm hmap.get hv⟩

theorem blockOk_image (hl : m.live b) (hb : r.blocks[b]? = some blk)
    (himg : m.BlockImage r blk blk') : BlockOk r' (m.block b) blk' := by
  have hok := hwf.block hb
  have heffects := h.effects_image hwf hl hb himg
  obtain ⟨effect, hchain, hterm⟩ := hok.chain
  obtain ⟨term, term', hget, hget', htimg⟩ := himg.terminator
  refine ⟨fun s' hs' => ?_, by simpa [heffects] using hok.roots, effect.map m.use, ?_, ?_⟩
  · rw [himg.entryState] at hs'
    obtain ⟨s, hs, rfl⟩ := Option.map_eq_some_iff.1 hs'
    obtain ⟨map, hmap⟩ := hok.entryState s hs
    exact ⟨_, h.state_image hwf hl (.entry hl hb hs) hmap fun v hv => .entry hb hs hmap.get hv⟩
  · rw [himg.instructions]
    exact h.chain_image hwf hl hb himg (by simp [heffects]) hchain prefix_rfl
  · intro term₀ hterm₀
    cases hget'.symm.trans hterm₀
    rw [himg.instructions]
    exact h.term_image hwf hl hb hget htimg (hterm term hget)

/-- The image of a well-formed region is well formed. -/
theorem wf : WF r' := by
  refine { h.defs_image hwf with
    cfg := h.cfg_image hwf
    helper := ?_
    block := fun {b' blk'} hb' => ?_ }
  · rw [h.helpers]
    exact hwf.helper
  · obtain ⟨b, blk, hl, rfl, hb, himg⟩ := h.block_back hb'
    exact h.blockOk_image hwf hl hb himg

end

end Image

end V86.Ir
