import Mathlib.Data.List.Zip
import V86.Ir.Image

/-!
# Images have the same meaning

An image of a region runs in lockstep with it: block by block, with the same values for what is
kept. What a pass has to show besides `Image` is about the values at reachable states only
(`Image.Values`): a replacement has the value of what it replaces, a new operation computes the
value of the old one, and a branch without condition follows the edge that was taken.
-/

namespace V86.Ir

open Verify List

/-! ## Blocks -/

namespace Region

variable {r r' : Region} {b : BlockId} {blk : Block} {e : Env} {ω : Oracle}

theorem stepBlock_of_get {polls : BlockId → Bool} {term : Terminator} {tr : List Event}
    (hb : r.blocks[b]? = some blk) (hterm : blk.terminator = some term) :
    r.stepBlock polls ω ⟨some b, e, tr⟩ = r.transfer (r.execBlock polls ω b blk (e, tr)) term := by
  simp [stepBlock, hb, hterm]

/-- Executing the rest of a block from a reachable state. -/
theorem At.execInsts (h : WF r) (hb : r.blocks[b]? = some blk) :
    ∀ {post pre : List InstId} {s : Env × List Event}, blk.instructions = pre ++ post →
      r.At b pre s.1 → r.At b blk.instructions (r.execInsts ω post s).1
  | [], pre, s, hsplit, hs => by
    rw [append_nil] at hsplit
    exact hsplit ▸ hs
  | id :: post, pre, s, hsplit, hs => by
    obtain ⟨inst, hinst, _, _⟩ := h.inst hb (show id ∈ blk.instructions by simp [hsplit])
    rw [execInsts_cons hinst]
    have hsplit' : blk.instructions = (pre ++ [id]) ++ post := by simp [hsplit]
    exact At.execInsts h hb hsplit' (hs.inst hb hsplit hinst)

/-- States between blocks with the same trace, both left or both at related blocks. -/
structure Conf.Rel (R : BlockId → Env → BlockId → Env → Prop) (c c' : Conf) : Prop where
  trace : c.trace = c'.trace
  block : c.block = none ∧ c'.block = none ∨
    ∃ b b', c.block = some b ∧ c'.block = some b' ∧ R b c.env b' c'.env

/-- Regions perform the same events when each block of the second does what a number of blocks of
the first does. -/
theorem performsAs_of_sim {polls polls' : BlockId → Bool}
    {R : BlockId → Env → BlockId → Env → Prop} (hlen : r.entries.length = r'.entries.length)
    (hstart : ∀ (k : Nat) b b' init, r.entries[k]? = some b → r'.entries[k]? = some b' →
      R b (r.startEnv b init) b' (r'.startEnv b' init))
    (hstep : ∀ b e b' e' ω tr, R b e b' e' → ∃ n, 0 < n ∧
      Conf.Rel R ((r.stepBlock polls ω)^[n] ⟨some b, e, tr⟩)
        (r'.stepBlock polls' ω ⟨some b', e', tr⟩))
    (k : Nat) (ω : Oracle) (init : Nat → Val) (t : List Event) :
    r.PerformsAs polls k ω init t ↔ r'.PerformsAs polls' k ω init t := by
  rw [performsAs_iff, performsAs_iff]
  refine Simulation.performs_iff (R := Conf.Rel R) (trace_stepBlock polls ω)
    (fun c c' h => h.trace) (fun c c' h => ?_) ?_ t
  · obtain ⟨b, e, tr⟩ := c
    obtain ⟨b', e', tr'⟩ := c'
    obtain ⟨htr, hblock⟩ := h
    cases htr
    rcases hblock with ⟨h1, h2⟩ | ⟨b, b', h1, h2, hR⟩
    · cases h1
      cases h2
      exact ⟨1, Nat.zero_lt_one, rfl, .inl ⟨rfl, rfl⟩⟩
    · cases h1
      cases h2
      exact hstep b e b' e' ω tr hR
  · refine ⟨rfl, ?_⟩
    by_cases hk : k < r.entries.length
    · have h1 := List.getElem?_eq_getElem hk
      have h2 := List.getElem?_eq_getElem (hlen ▸ hk)
      refine .inr ⟨_, _, h1, h2, ?_⟩
      have hR := hstart k _ _ init h1 h2
      simpa [start, List.getD, h1, h2] using hR
    · refine .inl ⟨List.getElem?_eq_none (by omega), List.getElem?_eq_none (by omega)⟩

end Region

/-! ## Values -/

/-- What the values at reachable states have to satisfy for an image to compute the same. -/
structure Image.Values (m : Rewriting) (r r' : Region) : Prop where
  rep : ∀ {b : BlockId} {pre : List InstId} {e : Env} {v : ValueId}, m.live b → r.At b pre e →
    Use r m b pre v → e (m.rep v) = e v
  op : ∀ {b : BlockId} {blk : Block} {pre post : List InstId} {id : InstId} {inst : Instruction}
    {op : Op} {args : List ValueId} {e : Env}, m.live b → r.At b pre e → r.blocks[b]? = some blk →
    blk.instructions = pre ++ id :: post → r.instructions[id]? = some inst → m.keep id = true →
    m.op id = some (op, args) →
    op.eval (args.map r.ty) (r.ty (inst.results.headD 0)) (args.map e) =
      r.evalInst inst (inst.args.map e)
  branch : ∀ {b : BlockId} {blk blk' : Block} {e : Env} {c : ValueId} {t f edge : Edge}, m.live b →
    r.At b blk.instructions e → r.blocks[b]? = some blk →
    blk.terminator = some (.condBranch c t f) → r'.blocks[m.block b]? = some blk' →
    blk'.terminator = some (.branch edge) →
    m.live (if e c = 0 then f else t).target ∧ edge = m.edge r (if e c = 0 then f else t)
  entry : ∀ {b : BlockId} {blk : Block} {v : ValueId}, b ∈ r.entries → r.blocks[b]? = some blk →
    v ∈ blk.params → m.kept v = true

/-- The kept values that are available at a point agree. -/
def Rewriting.Agree (m : Rewriting) (r : Region) (b : BlockId) (pre : List InstId) (e e' : Env) :
    Prop :=
  ∀ v, m.kept v = true → Avail r b pre v → e' (m.value v) = e v

namespace Image

variable {m : Rewriting} {r r' : Region} {b : BlockId} {blk blk' : Block}
  {pre post : List InstId} {id : InstId} {inst inst' : Instruction} {v : ValueId} {e e' : Env}

/-- A use has the value of its replacement. -/
theorem use_agree (h : Image m r r') (hv : Image.Values m r r') (hl : m.live b) (hat : r.At b pre e)
    (hagree : m.Agree r b pre e e') (huse : Use r m b pre v) : e' (m.use v) = e v := by
  obtain ⟨hkept, hav, _⟩ := h.rep hl huse
  rw [Rewriting.use, hagree _ hkept hav, hv.rep hl hat huse]

/-- A recovery map in use has the same values. -/
theorem snapshot_agree (h : Image m r r') (hv : Image.Values m r r') (hl : m.live b)
    (hat : r.At b pre e) (hagree : m.Agree r b pre e e') {s : StateId} (hs : StateUse r m s)
    (hget : ∃ map, r.states[s]? = some map)
    (huse : ∀ map, r.states[s]? = some map → ∀ v ∈ map.values, Use r m b pre v) :
    r'.snapshot e' (m.state s) = r.snapshot e s := by
  obtain ⟨map, hmap⟩ := hget
  rw [Region.snapshot, Region.snapshot, hmap, h.states s hs map hmap, Option.map_some,
    Option.map_some, StateMap.map_map]
  exact congrArg some (StateMap.map_congr fun v hmem =>
    h.use_agree hv hl hat hagree (huse map hmap v hmem))

variable {vs : List ValueId} {xs : List Val}

/-- Assignments to a list of ids and to the images of the kept ones among them. -/
theorem setAll_agree (h : Image m r r') (hnd : vs.Nodup) (hlen : vs.length = xs.length)
    (hkept : m.kept v = true) (hout : v ∉ vs → e' (m.value v) = e v) :
    e'.setAll (((vs.zip xs).filter fun p => m.kept p.1).map fun p => m.value p.1)
      (((vs.zip xs).filter fun p => m.kept p.1).map fun p => p.2) (m.value v) = e.setAll vs xs v := by
  induction vs generalizing e e' xs with
  | nil => simpa using hout
  | cons w vs ih =>
    cases xs with
    | nil => cases hlen
    | cons x xs =>
      rw [nodup_cons] at hnd
      rw [zip_cons_cons, Env.setAll_cons]
      by_cases hw : m.kept w = true
      · rw [filter_cons_of_pos (by exact hw), map_cons, map_cons, Env.setAll_cons]
        refine ih hnd.2 (by simpa using hlen) fun hv => ?_
        by_cases hvw : v = w
        · simp [Env.set, hvw]
        · have hne : m.value v ≠ m.value w := fun heq => hvw (h.value_inj hkept hw heq)
          rw [Env.set, Env.set, if_neg hne, if_neg hvw]
          exact hout (by simp [hvw, hv])
      · rw [filter_cons_of_neg (by simpa using hw)]
        refine ih hnd.2 (by simpa using hlen) fun hv => ?_
        have hvw : v ≠ w := fun heq => hw (heq ▸ hkept)
        rw [Env.set, if_neg hvw]
        exact hout (by simp [hvw, hv])

/-- Assignments to kept ids and to their images. -/
theorem setAll_agree_map (h : Image m r r') (hnd : vs.Nodup) (hlen : vs.length = xs.length)
    (hall : ∀ w ∈ vs, m.kept w = true) (hkept : m.kept v = true)
    (hout : v ∉ vs → e' (m.value v) = e v) :
    e'.setAll (vs.map m.value) xs (m.value v) = e.setAll vs xs v := by
  have hfilter : (vs.zip xs).filter (fun p => m.kept p.1) = vs.zip xs :=
    List.filter_eq_self.2 fun p hp => hall p.1 (of_mem_zip hp).1
  have key := h.setAll_agree hnd hlen hkept hout
  rw [hfilter] at key
  have h1 : (vs.zip xs).map (fun p => m.value p.1) = vs.map m.value := by
    have hfst : (vs.zip xs).map Prod.fst = vs := map_fst_zip (by omega)
    conv_rhs => rw [← hfst, List.map_map]
    rfl
  have h2 : (vs.zip xs).map (fun p => p.2) = xs := map_snd_zip (by omega)
  rwa [h1, h2] at key

/-! ## Instructions -/

/-- A kept instruction about to be executed in a region and in its image. -/
structure Step (m : Rewriting) (r : Region) (b : BlockId) (blk : Block) (pre post : List InstId)
    (id : InstId) (inst inst' : Instruction) (e e' : Env) : Prop where
  live : m.live b
  block : r.blocks[b]? = some blk
  split : blk.instructions = pre ++ id :: post
  get : r.instructions[id]? = some inst
  keep : m.keep id = true
  image : m.InstImage b id inst inst'
  at_ : r.At b pre e
  agree : m.Agree r b pre e e'

theorem Step.mem (hs : Step m r b blk pre post id inst inst' e e') : id ∈ blk.instructions := by
  simp [hs.split]

theorem states_agree (h : Image m r r') (hwf : WF r) (hv : Image.Values m r r')
    (hs : Step m r b blk pre post id inst inst' e e') {o : Option StateId}
    (ho : ∀ s, o = some s → inst.state = some s ∨ inst.commit = some s) :
    (o.map m.state).bind (r'.snapshot e') = o.bind (r.snapshot e) := by
  cases o with
  | none => rfl
  | some s =>
    obtain ⟨c, c', _, hok⟩ := hwf.instOk hs.block hs.split hs.get
    have hs' := ho s rfl
    refine h.snapshot_agree hv hs.live hs.at_ hs.agree
      (.inst hs.live hs.block hs.mem hs.get hs.keep hs') ?_
      fun map hmap v hmem => .state hs.block hs.split hs.get hs.keep hs' hmap hmem
    rcases hs' with hs' | hs'
    · exact (hok.state s hs').imp fun _ hmap => hmap.get
    · obtain ⟨_, _, after, hafter, _⟩ := hok.commit s hs'
      exact ⟨after, hafter.get⟩

theorem clampAll_agree (h : Image m r r') (hs : Step m r b blk pre post id inst inst' e e')
    (choice : Nat → Val) : r'.clampAll inst'.results choice = r.clampAll inst.results choice := by
  have hkept := (h.inst hs.live hs.block hs.mem hs.get hs.keep).1
  rw [hs.image.results]
  unfold Region.clampAll
  rw [zipIdx_map, List.map_map]
  refine map_congr_left fun p hp => ?_
  have hmem : p.1 ∈ inst.results := fst_mem_of_mem_zipIdx hp
  simp [h.ty_image hs.live hs.block (.inr ⟨id, inst, hs.mem, hs.get, hmem⟩) (hkept _ hmem)]

theorem args_agree (h : Image m r r') (hv : Image.Values m r r')
    (hs : Step m r b blk pre post id inst inst' e e') (hop : m.op id = none) :
    inst'.args.map e' = inst.args.map e := by
  rw [(hs.image.same hop).2, List.map_map]
  exact map_congr_left fun a ha =>
    h.use_agree hv hs.live hs.at_ hs.agree (.arg hs.block hs.split hs.get hs.keep hop ha)

theorem pure_agree (h : Image m r r') (hs : Step m r b blk pre post id inst inst' e e') :
    inst'.op.pure = inst.op.pure := by
  cases hop : m.op id with
  | none => rw [(hs.image.same hop).1]
  | some p =>
    obtain ⟨op, args⟩ := p
    obtain ⟨hpure, hsig, _⟩ := h.replaced hs.live hs.block hs.split hs.get hs.keep hop
    rw [(hs.image.new op args hop).1, hpure, Op.pure_of_sig hsig]

section
variable (h : Image m r r') (hwf : WF r) (hv : Image.Values m r r')
  (hs : Step m r b blk pre post id inst inst' e e')
include h hwf hv hs

/-- A kept pure instruction computes the same value. -/
theorem evalInst_agree (hpure : inst.op.pure = true) :
    r'.evalInst inst' (inst'.args.map e') = r.evalInst inst (inst.args.map e) := by
  obtain ⟨c, c', _, hok⟩ := hwf.instOk hs.block hs.split hs.get
  obtain ⟨v, hres, _⟩ := hok.pure_sig hpure
  have hty : r'.ty (inst'.results.headD 0) = r.ty (inst.results.headD 0) := by
    rw [hs.image.results, hres]
    exact h.ty_image hs.live hs.block (.inr ⟨id, inst, hs.mem, hs.get, by simp [hres]⟩)
      ((h.inst hs.live hs.block hs.mem hs.get hs.keep).1 v (by simp [hres]))
  cases hop : m.op id with
  | none =>
    have hargs : inst'.args.map r'.ty = inst.args.map r.ty := by
      rw [(hs.image.same hop).2, List.map_map]
      exact map_congr_left fun a ha =>
        h.ty_use hs.live (.arg hs.block hs.split hs.get hs.keep hop ha)
    rw [h.args_agree hv hs hop, Region.evalInst, Region.evalInst, (hs.image.same hop).1, hargs, hty]
  | some p =>
    obtain ⟨op, args⟩ := p
    obtain ⟨_, _, hav⟩ := h.replaced hs.live hs.block hs.split hs.get hs.keep hop
    obtain ⟨hop', hargs'⟩ := hs.image.new op args hop
    have hpre : pre <+: blk.instructions := ⟨_, hs.split.symm⟩
    have hargsTy : inst'.args.map r'.ty = args.map r.ty := by
      rw [hargs', List.map_map]
      exact map_congr_left fun a ha =>
        Region.ty_of_checkTy (h.checkTy_image hs.live hs.block hpre (hav a ha).1 (hav a ha).2)
    have hargsVal : inst'.args.map e' = args.map e := by
      rw [hargs', List.map_map]
      exact map_congr_left fun a ha => hs.agree a (hav a ha).1 (hav a ha).2
    rw [Region.evalInst, hop', hargsTy, hargsVal, hty]
    exact hv.op hs.live hs.at_ hs.block hs.split hs.get hs.keep hop

/-- A kept instruction gives its results the same values. -/
theorem resultVals_agree (choice : Nat → Val) :
    r'.resultVals inst' e' choice = r.resultVals inst e choice := by
  unfold Region.resultVals
  rw [h.pure_agree hs, h.clampAll_agree hs]
  split
  · next hpure => rw [h.evalInst_agree hwf hv hs hpure]
  · rfl

/-- A kept instruction adds the same events. -/
theorem instEvents_agree (choice : Nat → Val) :
    r'.instEvents inst' e' choice = r.instEvents inst e choice := by
  unfold Region.instEvents
  rw [h.pure_agree hs, h.clampAll_agree hs, hs.image.state, hs.image.commit, hs.image.trap,
    hs.image.unmasked, h.states_agree hwf hv hs fun s hs => .inl hs,
    h.states_agree hwf hv hs fun s hs => .inr hs]
  split
  · rfl
  · next hpure =>
    have hop : m.op id = none := by
      cases hop : m.op id with
      | none => rfl
      | some p =>
        obtain ⟨hpure', _⟩ := h.replaced hs.live hs.block hs.split hs.get hs.keep hop
        exact absurd hpure' hpure
    rw [(hs.image.same hop).1, h.args_agree hv hs hop]

/-- The kept values agree after a kept instruction. -/
theorem agree_step (choice : Nat → Val) :
    m.Agree r b (pre ++ [id]) (e.setAll inst.results (r.resultVals inst e choice))
      (e'.setAll inst'.results (r'.resultVals inst' e' choice)) := by
  intro v hkept hav
  obtain ⟨c, c', _, hok⟩ := hwf.instOk hs.block hs.split hs.get
  rw [h.resultVals_agree hwf hv hs, hs.image.results]
  refine h.setAll_agree_map (hwf.results_nodup hs.block hs.mem hs.get)
    (Region.resultVals_length hok choice).symm (h.inst hs.live hs.block hs.mem hs.get hs.keep).1
    hkept fun hnot => ?_
  exact hs.agree v hkept ((hav.of_snoc hs.get).resolve_right hnot)

end

/-- The kept values agree after a dropped instruction. -/
theorem agree_drop (h : Image m r r') (hl : m.live b) (hb : r.blocks[b]? = some blk)
    (hsplit : blk.instructions = pre ++ id :: post) (hinst : r.instructions[id]? = some inst)
    (hkeep : m.keep id = false) (hagree : m.Agree r b pre e e') (xs : List Val) :
    m.Agree r b (pre ++ [id]) (e.setAll inst.results xs) e' := by
  intro v hkept hav
  have hdrop := (h.dropped hl hb (by simp [hsplit]) hinst hkeep).2.2
  have hnot : v ∉ inst.results := fun hmem => by
    have := hdrop v hmem
    rw [hkept] at this
    cases this
  rw [Env.setAll_of_not_mem hnot]
  exact hagree v hkept ((hav.of_snoc hinst).resolve_right hnot)

/-- The rest of a block, executed in a region and in its image. -/
theorem execInsts_agree (h : Image m r r') (hwf : WF r) (hv : Image.Values m r r') (hl : m.live b)
    (hb : r.blocks[b]? = some blk) (ω : Oracle) :
    ∀ {post pre : List InstId} {e e' : Env} (tr : List Event), blk.instructions = pre ++ post →
      r.At b pre e → m.Agree r b pre e e' →
      m.Agree r b blk.instructions (r.execInsts ω post (e, tr)).1
          (r'.execInsts ω (m.insts post) (e', tr)).1 ∧
        (r'.execInsts ω (m.insts post) (e', tr)).2 = (r.execInsts ω post (e, tr)).2
  | [], pre, e, e', tr, hsplit, _, hagree => by
    rw [append_nil] at hsplit
    exact ⟨hsplit ▸ hagree, rfl⟩
  | id :: post, pre, e, e', tr, hsplit, hat, hagree => by
    have hid : id ∈ blk.instructions := by simp [hsplit]
    obtain ⟨inst, hinst, _, _⟩ := hwf.inst hb hid
    have hnext : blk.instructions = (pre ++ [id]) ++ post := by simp [hsplit]
    rw [Region.execInsts_cons hinst]
    cases hkeep : m.keep id with
    | true =>
      obtain ⟨_, inst', hinst', hiimg⟩ := h.inst hl hb hid hinst hkeep
      have hs : Step m r b blk pre post id inst inst' e e' :=
        ⟨hl, hb, hsplit, hinst, hkeep, hiimg, hat, hagree⟩
      have hcons : m.insts (id :: post) = m.inst id :: m.insts post := by
        simp [Rewriting.insts, hkeep]
      rw [hcons, Region.execInsts_cons hinst', Region.execInst, Region.execInst,
        h.instEvents_agree hwf hv hs]
      exact execInsts_agree h hwf hv hl hb ω _ hnext (hat.inst hb hsplit hinst)
        (h.agree_step hwf hv hs _)
    | false =>
      obtain ⟨hpure, hstate, _⟩ := h.dropped hl hb hid hinst hkeep
      have hcons : m.insts (id :: post) = m.insts post := by simp [Rewriting.insts, hkeep]
      have hevents : r.instEvents inst e (ω tr.length) = [] := by
        simp [Region.instEvents, hpure, hstate]
      rw [hcons, Region.execInst, hevents, append_nil]
      exact execInsts_agree h hwf hv hl hb ω _ hnext (hat.inst hb hsplit hinst)
        (h.agree_drop hl hb hsplit hinst hkeep hagree _)

/-! ## Edges -/

/-- The kept values agree after an edge. -/
theorem agree_edge (h : Image m r r') (hwf : WF r) (hv : Image.Values m r r') (hl : m.live b)
    (hb : r.blocks[b]? = some blk) {term : Terminator} {edge : Edge}
    (hterm : blk.terminator = some term) (hedge : edge ∈ term.edges) (hlive : m.live edge.target)
    (hat : r.At b blk.instructions e) (hagree : m.Agree r b blk.instructions e e') :
    m.Agree r edge.target [] (e.setAll (r.params edge.target) (edge.args.map e))
      (e'.setAll (r'.params (m.edge r edge).target) ((m.edge r edge).args.map e')) := by
  intro v hkept hav
  obtain ⟨effect, _, hok⟩ := (hwf.block hb).chain
  obtain ⟨target, htarget⟩ := (hok term hterm).edges edge hedge
  obtain ⟨target', htarget', himg⟩ := h.block_of_get hlive htarget.get
  have hsucc : edge.target ∈ r.succs b := by
    rw [Region.succs_of_blocks hb, Block.succs, hterm]
    exact mem_map_of_mem hedge
  -- both assignments in terms of the pairs of a parameter and its value
  let pairs := target.params.zip (edge.args.map e)
  have hparams : r'.params (m.edge r edge).target =
      (pairs.filter fun p => m.kept p.1).map fun p => m.value p.1 := by
    rw [Rewriting.edge, Region.params_of_get htarget', himg.params, Rewriting.params]
    have hfst : pairs.map Prod.fst = target.params := map_fst_zip (by simp [htarget.arity])
    conv_lhs => rw [← hfst]
    rw [filter_map, List.map_map]
    rfl
  have hargs : (m.edge r edge).args.map e' =
      (pairs.filter fun p => m.kept p.1).map fun p => p.2 := by
    have hpairs : pairs = (edge.args.zip target.params).map fun p => (p.2, e p.1) := by
      change target.params.zip (edge.args.map e) = _
      rw [zip_map_right, ← zip_swap, List.map_map]
      rfl
    rw [hpairs, filter_map, List.map_map, Rewriting.edge, List.map_map,
      Region.params_of_get htarget.get]
    refine map_congr_left fun p hp => ?_
    have hmem := (of_mem_zip (List.mem_filter.1 hp).1).1
    exact h.use_agree hv hl hat hagree (.edge hb hterm hedge hmem)
  rw [hparams, hargs, Region.params_of_get htarget.get]
  refine h.setAll_agree (hwf.params_nodup htarget.get) (by simp [htarget.arity]) hkept fun hnot => ?_
  exact hagree v hkept (hav.of_edge hb htarget.get hsucc hnot)

/-- The kept values agree at an entry. -/
theorem agree_entry (h : Image m r r') (hv : Image.Values m r r') (hentry : b ∈ r.entries)
    (hwf : WF r) (init : Nat → Val) :
    m.Agree r b [] (r.startEnv b init) (r'.startEnv (m.block b) init) := by
  intro v hkept hav
  have hl := h.entry_live b hentry
  obtain ⟨blk, blk', hb, hb', himg⟩ := h.block b hl
  have hall := fun {w : ValueId} (hw : w ∈ blk.params) => hv.entry hentry hb hw
  have hparams : blk'.params = blk.params.map m.value := by
    rw [himg.params, Rewriting.params, List.filter_eq_self.2 fun w hw => hall hw]
  have hvals : r'.clampAll (blk.params.map m.value) init = r.clampAll blk.params init := by
    unfold Region.clampAll
    rw [zipIdx_map, List.map_map]
    refine map_congr_left fun p hp => ?_
    have hmem : p.1 ∈ blk.params := fst_mem_of_mem_zipIdx hp
    simp [h.ty_image hl hb (.inl hmem) (hall hmem)]
  rw [Region.startEnv, Region.startEnv, Region.params_of_get hb', Region.params_of_get hb, hparams,
    hvals]
  exact h.setAll_agree_map (hwf.params_nodup hb) (by simp) (fun w hw => hall hw) hkept
    fun hnot => absurd (hav.of_entry hb hentry) hnot

/-! ## Regions -/

/-- One block of a region and of its image. -/
theorem stepBlock_agree (h : Image m r r') (hwf : WF r) (hv : Image.Values m r r') (hl : m.live b)
    (hat : r.At b [] e) (hagree : m.Agree r b [] e e') (ω : Oracle) (tr : List Event) :
    Region.Conf.Rel (fun b e b' e' => r.At b [] e ∧ m.live b ∧ b' = m.block b ∧ m.Agree r b [] e e')
      (r.stepBlock (fun _ => false) ω ⟨some b, e, tr⟩)
      (r'.stepBlock (fun _ => false) ω ⟨some (m.block b), e', tr⟩) := by
  obtain ⟨blk, blk', hb, hb', himg⟩ := h.block b hl
  obtain ⟨term, term', hterm, hterm', htimg⟩ := himg.terminator
  have henter : r'.enterEvents (fun _ => false) (m.block b) blk' e' =
      r.enterEvents (fun _ => false) b blk e := by
    have hs : blk'.entryState.bind (r'.snapshot e') = blk.entryState.bind (r.snapshot e) := by
      rw [himg.entryState]
      cases hs : blk.entryState with
      | none => rfl
      | some s =>
        exact h.snapshot_agree hv hl hat hagree (.entry hl hb hs)
          (((hwf.block hb).entryState s hs).imp fun _ hmap => hmap.get)
          fun map hmap v hmem => .entry hb hs hmap hmem
    rw [Region.enterEvents, Region.enterEvents, hs]
  -- the states at the end of the block
  obtain ⟨hagree₁, htrace⟩ := h.execInsts_agree hwf hv hl hb ω
    (tr ++ r.enterEvents (fun _ => false) b blk e) (nil_append _).symm hat hagree
  have hat₁ : r.At b blk.instructions (r.execBlock (fun _ => false) ω b blk (e, tr)).1 :=
    Region.At.execInsts hwf hb (nil_append _).symm hat
  have hexec : r'.execBlock (fun _ => false) ω (m.block b) blk' (e', tr) =
      r'.execInsts ω (m.insts blk.instructions) (e', tr ++ r.enterEvents (fun _ => false) b blk e) := by
    rw [Region.execBlock, himg.instructions, henter]
  have hfollow : ∀ edge ∈ term.edges, m.live edge.target →
      term.taken (r.execBlock (fun _ => false) ω b blk (e, tr)).1 = some edge →
      Region.Conf.Rel
        (fun b e b' e' => r.At b [] e ∧ m.live b ∧ b' = m.block b ∧ m.Agree r b [] e e')
        (r.follow edge (r.execBlock (fun _ => false) ω b blk (e, tr)))
        (r'.follow (m.edge r edge) (r'.execBlock (fun _ => false) ω (m.block b) blk' (e', tr))) := by
    intro edge hedge hlive htaken
    rw [hexec]
    exact ⟨htrace.symm, .inr ⟨_, _, rfl, rfl, hat₁.edge hb hterm htaken, hlive, rfl,
      h.agree_edge hwf hv hl hb hterm hedge hlive hat₁ hagree₁⟩⟩
  rw [Region.stepBlock_of_get hb hterm, Region.stepBlock_of_get hb' hterm']
  cases htimg with
  | branch hlive => exact hfollow _ (by simp [Terminator.edges]) hlive rfl
  | @cond c t f hlt hlf =>
    have hc : (r'.execBlock (fun _ => false) ω (m.block b) blk' (e', tr)).1 (m.use c) =
        (r.execBlock (fun _ => false) ω b blk (e, tr)).1 c := by
      rw [hexec]
      exact h.use_agree hv hl hat₁ hagree₁ (.cond hb hterm)
    rw [Region.transfer, Region.transfer, hc, ← apply_ite (m.edge r)]
    refine hfollow _ ?_ ?_ rfl
    · split <;> simp [Terminator.edges]
    · split
      · exact hlf
      · exact hlt
  | @taken c t f _ | @notTaken c t f _ =>
    obtain ⟨hlive, hedge⟩ := hv.branch hl hat₁ hb hterm hb' hterm'
    rw [hedge]
    refine hfollow _ ?_ hlive rfl
    split <;> simp [Terminator.edges]
  | @exit s =>
    obtain ⟨effect, _, hok⟩ := (hwf.block hb).chain
    have hsnap := h.snapshot_agree hv hl hat₁ hagree₁ (.exit hl hb hterm)
      (((hok _ hterm).exit s rfl).imp fun _ hmap => hmap.get)
      fun map hmap v hmem => .exit hb hterm hmap hmem
    refine ⟨?_, .inl ⟨rfl, rfl⟩⟩
    rw [Region.transfer, Region.transfer, hexec, hsnap, htrace]
    rfl

/-- An image whose values satisfy `Image.Values` has the same meaning. -/
theorem sameMeaning (h : Image m r r') (hwf : WF r) (hv : Image.Values m r r') :
    Region.SameMeaning r r' := by
  refine ⟨by simp [h.entries], Region.performsAs_of_sim (by simp [h.entries])
    (R := fun b e b' e' => r.At b [] e ∧ m.live b ∧ b' = m.block b ∧ m.Agree r b [] e e') ?_ ?_⟩
  · intro k b b' init hk hk'
    have hmem := mem_of_getElem? hk
    rw [h.entries, List.getElem?_map, hk] at hk'
    cases hk'
    exact ⟨.entry hmem, h.entry_live b hmem, rfl, h.agree_entry hv hmem hwf init⟩
  · rintro b e b' e' ω tr ⟨hat, hl, rfl, hagree⟩
    exact ⟨1, Nat.zero_lt_one, h.stepBlock_agree hwf hv hl hat hagree ω tr⟩

end Image

end V86.Ir
