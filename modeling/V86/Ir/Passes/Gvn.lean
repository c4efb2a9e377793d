import Mathlib.Data.List.Sort
import V86.Ir.Passes.Rewrite

/-!
# Global value numbering

`passes/gvn.rs`: a pure instruction whose operation, operands and type were seen in a dominating
block, or before it in its own block, is removed, and its result is replaced by the earlier one.
Blocks are visited by their number of dominators, so every block comes after its strict dominators.

The invariant of the visit (`Gvn.Inv`) is about values, not about the order of the visit: an entry
of the table holds the value of its key wherever it is available, and an alias may replace
(`Replaces`) the result it stands for.
-/

namespace V86.Ir.Gvn

open Exec Verify List

/-- `gvn::eligible`. -/
def eligible : Op → Bool
  | .const _ | .binary _ | .select | .extend _ | .truncate | .extract _ | .insert _
  | .countLeadingZeros | .countTrailingZeros | .populationCount | .linearOffset
  | .vectorBitmask _ | .vectorBinary _ | .vectorShuffle _ | .vectorExtract .. | .vectorReplace .. =>
    true
  | _ => false

/-- What identifies an expression: the operation, the operands and the type of the result. -/
abbrev Key := Op × List ValueId × Ty

/-- A definition of an expression and the block it stands in. -/
structure Entry where
  key : Key
  owner : BlockId
  value : ValueId

/-- The state of the visit. The table `known` of the source maps a key to the stack of its
definitions; here all definitions are on one stack, the last one first. -/
structure State where
  instructions : List Instruction
  known : List Entry
  aliases : List (Option ValueId)
  removed : List InstId
  stats : PassStats

/-- The value an operand stands for. -/
def resolve (aliases : List (Option ValueId)) (v : ValueId) : Exec ValueId := do
  let value ← idx aliases v
  pure (value.getD v)

/-- The visit of one instruction of block `b`. -/
def visit (r : Region) (cfg : Cfg) (b : BlockId) (s : State) (id : InstId) : Exec State := do
  let inst ← idx s.instructions id
  let args ← inst.args.mapM (resolve s.aliases)
  let s := { s with instructions := s.instructions.set id { inst with args } }
  if !eligible inst.op || inst.results.length ≠ 1 || inst.state.isSome then pure s
  else do
    let result ← idx inst.results 0
    let data ← idx r.values result
    let key : Key := (inst.op, args, data.ty)
    match s.known.find? fun entry => entry.key = key && cfg.dominates b entry.owner with
    | some previous =>
      let aliases ← setAt s.aliases result (some previous.value)
      pure { s with
        aliases
        removed := id :: s.removed
        stats := { s.stats with
          commoned := s.stats.commoned + 1
          crossCommoned := s.stats.crossCommoned + if previous.owner ≠ b then 1 else 0 } }
    | none => pure { s with known := ⟨key, b, result⟩ :: s.known }

/-- The visit of all instructions of block `b`. -/
def visitBlock (r : Region) (cfg : Cfg) (s : State) (b : BlockId) : Exec State := do
  let block ← idx r.blocks b
  block.instructions.foldlM (visit r cfg b) s

/-- The blocks by their number of dominators. -/
def order (r : Region) (cfg : Cfg) : List BlockId :=
  (List.range r.blocks.length).insertionSort fun a b =>
    cfg.dominatorCount a ≤ cfg.dominatorCount b

/-- `gvn::run`. -/
def run (r : Region) (stats : PassStats) : Exec (Region × PassStats) := do
  require (r.blocks.length ≤ maxBlocks && r.instructions.length ≤ maxInstructions &&
    r.values.length ≤ maxValues) "GVN region budget exceeded"
  let cfg ← Cfg.compute r
  let s ← (order r cfg).foldlM (visitBlock r cfg)
    ⟨r.instructions, [], List.replicate r.values.length none, [], stats⟩
  let r ← { r with instructions := s.instructions }.rewriteValues (resolve s.aliases)
  pure (r.retain fun id => !s.removed.contains id, s.stats)

/-! ## The visit -/

variable {r : Region} {cfg : Cfg} {done : List (BlockId × InstId)} {s s' : State} {b : BlockId}
  {blk : Block} {pre post : List InstId} {id : InstId} {inst : Instruction} {v p : ValueId}

/-- The value is the result of an instruction that was visited. -/
def Seen (r : Region) (done : List (BlockId × InstId)) (v : ValueId) : Prop :=
  ∃ b blk id inst, (b, id) ∈ done ∧ r.blocks[b]? = some blk ∧ id ∈ blk.instructions ∧
    r.instructions[id]? = some inst ∧ inst.results = [v]

/-- An operand, and what it became in the visit. -/
def Arg (aliases : List (Option ValueId)) (a a' : ValueId) : Prop :=
  a' = a ∨ aliasOf aliases a = some a'

/-- The value of the entry is the value of its key. -/
structure Entry.Ok (r : Region) (done : List (BlockId × InstId)) (entry : Entry) : Prop where
  site : ∃ blk id inst, (entry.owner, id) ∈ done ∧ r.blocks[entry.owner]? = some blk ∧
    id ∈ blk.instructions ∧ r.instructions[id]? = some inst ∧ inst.results = [entry.value]
  ty : r.ty entry.value = entry.key.2.2
  value : ∀ {b : BlockId} {pre : List InstId} {e : Env}, r.At b pre e → Avail r b pre entry.value →
    e entry.value =
      entry.key.1.eval (entry.key.2.1.map r.ty) entry.key.2.2 (entry.key.2.1.map e)

/-- What holds during the visit, after the instructions `done`. -/
structure Inv (r : Region) (done : List (BlockId × InstId)) (s : State) : Prop where
  length : s.aliases.length = r.values.length
  insts : List.Forall₂ (fun inst inst' => ∃ args, inst' = { inst with args := args } ∧
    List.Forall₂ (Arg s.aliases) inst.args args) r.instructions s.instructions
  target : ∀ {v p : ValueId}, aliasOf s.aliases v = some p → Replaces r p v ∧ aliasOf s.aliases p = none ∧ Seen r done p
  known : ∀ entry ∈ s.known, entry.Ok r done ∧ aliasOf s.aliases entry.value = none
  removed : ∀ id ∈ s.removed, ∃ b blk inst v p, (b, id) ∈ done ∧ r.blocks[b]? = some blk ∧
    id ∈ blk.instructions ∧ r.instructions[id]? = some inst ∧ inst.op.pure = true ∧
    inst.state = none ∧ inst.results = [v] ∧ aliasOf s.aliases v = some p
  aliased : ∀ {v p : ValueId}, aliasOf s.aliases v = some p → ∃ b blk id inst, (b, id) ∈ done ∧
    r.blocks[b]? = some blk ∧ id ∈ blk.instructions ∧ r.instructions[id]? = some inst ∧
    inst.results = [v] ∧ id ∈ s.removed

theorem eligible_pure {op : Op} (h : eligible op = true) : op.pure = true := by
  cases op <;> first | rfl | cases h

theorem Seen.mono {done' : List (BlockId × InstId)} (h : Seen r done v) (hsub : done ⊆ done') :
    Seen r done' v := by
  obtain ⟨b, blk, id, inst, h1, h2⟩ := h
  exact ⟨b, blk, id, inst, hsub h1, h2⟩

theorem Entry.Ok.mono {done' : List (BlockId × InstId)} {entry : Entry} (h : entry.Ok r done)
    (hsub : done ⊆ done') : entry.Ok r done' := by
  obtain ⟨blk, id, inst, h1, h2⟩ := h.site
  exact ⟨⟨blk, id, inst, hsub h1, h2⟩, h.ty, h.value⟩

theorem Entry.Ok.seen {entry : Entry} (h : entry.Ok r done) : Seen r done entry.value := by
  obtain ⟨blk, id, inst, h1⟩ := h.site
  exact ⟨_, blk, id, inst, h1⟩

/-- A result of an instruction that was not visited was not seen. -/
theorem Seen.ne (hwf : WF r) (h : Seen r done p) (hb : r.blocks[b]? = some blk)
    (hid : id ∈ blk.instructions) (hinst : r.instructions[id]? = some inst)
    (hres : inst.results = [v]) (hnew : (b, id) ∉ done) : p ≠ v := by
  rintro rfl
  obtain ⟨d, dblk, id', inst', hmem, hd, hid', hinst', hres'⟩ := h
  obtain rfl : id' = id := hwf.result_unique (v := p) hd hb hid' hid hinst' hinst
    (by simp [hres']) (by simp [hres])
  cases hinst.symm.trans hinst'
  obtain rfl : d = b := (hwf.inst_block hd hid' hinst).symm.trans (hwf.inst_block hb hid hinst)
  exact hnew hmem

theorem resolve_eq_ok {aliases : List (Option ValueId)} {w : ValueId} :
    resolve aliases v = .ok w ↔ v < aliases.length ∧ w = (aliases.getD v none).getD v := by
  unfold resolve
  simp only [bind_eq_ok, idx_eq_ok, pure_eq_ok, Except.ok.injEq]
  constructor
  · rintro ⟨o, ho, rfl⟩
    obtain ⟨hlt, rfl⟩ := List.getElem?_eq_some_iff.1 ho
    exact ⟨hlt, by simp [hlt]⟩
  · rintro ⟨hlt, rfl⟩
    exact ⟨aliases[v], List.getElem?_eq_getElem hlt, by simp [hlt]⟩

/-- What an operand became may replace it, and stays when it is resolved again. -/
theorem Inv.arg (h : Inv r done s) {a a' : ValueId} (ha : Arg s.aliases a a') :
    Replaces r a' a ∧ Arg s.aliases a (aliasRep s.aliases a') ∧ aliasRep s.aliases a' = aliasRep s.aliases a := by
  rcases ha with rfl | ha
  · refine ⟨.refl r a', ?_, rfl⟩
    cases hp : aliasOf s.aliases a' with
    | none => exact .inl (by rw [aliasRep, hp]; rfl)
    | some p => exact .inr (by rw [aliasRep, hp]; rfl)
  · obtain ⟨hrep, hnone, _⟩ := h.target ha
    have hfix : aliasRep s.aliases a' = a' := by rw [aliasRep, hnone]; rfl
    have hrep' : aliasRep s.aliases a = a' := by rw [aliasRep, ha]; rfl
    exact ⟨hrep, .inr (by rw [hfix, ha]), hfix.trans hrep'.symm⟩

/-- The invariant when only the table grows: the instruction was visited, and its operands were
resolved. -/
theorem Inv.operands (h : Inv r done s) (hinst : r.instructions[id]? = some inst)
    {args : List ValueId} (hargs : List.Forall₂ (Arg s.aliases) inst.args args) :
    Inv r (done ++ [(b, id)])
      { s with instructions := s.instructions.set id { inst with args := args } } := by
  have hsub : done ⊆ done ++ [(b, id)] := subset_append_left _ _
  refine ⟨h.length, ?_, fun hv => ?_, fun entry hentry => ?_, fun id' hid' => ?_, fun hv => ?_⟩
  · rw [forall₂_iff_get]
    refine ⟨by simpa using h.insts.length_eq, fun i hi hi' => ?_⟩
    have hget := h.insts.get hi (by simpa using hi')
    by_cases heq : i = id
    · subst heq
      obtain ⟨_, rfl⟩ := List.getElem?_eq_some_iff.1 hinst
      exact ⟨args, by simp, hargs⟩
    · simpa [getElem_set, Ne.symm heq] using hget
  · obtain ⟨h1, h2, h3⟩ := h.target hv
    exact ⟨h1, h2, h3.mono hsub⟩
  · obtain ⟨h1, h2⟩ := h.known entry hentry
    exact ⟨h1.mono hsub, h2⟩
  · obtain ⟨d, blk, inst, v, p, h1, h2⟩ := h.removed id' hid'
    exact ⟨d, blk, inst, v, p, hsub h1, h2⟩
  · obtain ⟨d, blk, id', inst, h1, h2⟩ := h.aliased hv
    exact ⟨d, blk, id', inst, hsub h1, h2⟩

/-- The result of an instruction that was not visited has no alias. -/
theorem Inv.fresh (h : Inv r done s) (hwf : WF r) (hb : r.blocks[b]? = some blk)
    (hid : id ∈ blk.instructions) (hinst : r.instructions[id]? = some inst)
    (hres : inst.results = [v]) (hnew : (b, id) ∉ done) : aliasOf s.aliases v = none := by
  cases hv : aliasOf s.aliases v with
  | none => rfl
  | some p =>
    obtain ⟨d, dblk, id', inst', h1, h2, h3, h4, h5, _⟩ := h.aliased hv
    exact absurd rfl (Seen.ne hwf ⟨d, dblk, id', inst', h1, h2, h3, h4, h5⟩ hb hid hinst hres hnew)

/-- The invariant when the result gets an alias. -/
theorem Inv.common (h : Inv r done s) (hwf : WF r) (hb : r.blocks[b]? = some blk)
    (hid : id ∈ blk.instructions) (hinst : r.instructions[id]? = some inst)
    (hres : inst.results = [v]) (hpure : inst.op.pure = true) (hstate : inst.state = none)
    (hnew : (b, id) ∉ done) (hlt : v < r.values.length) (hp : Replaces r p v) (hseen : Seen r done p)
    (hnone : aliasOf s.aliases p = none) {args : List ValueId} (hargs : List.Forall₂ (Arg s.aliases) inst.args args)
    (stats : PassStats) :
    Inv r (done ++ [(b, id)])
      { s with
        instructions := s.instructions.set id { inst with args := args }
        aliases := s.aliases.set v (some p)
        removed := id :: s.removed
        stats := stats } := by
  have hstep := h.operands (b := b) hinst hargs
  have hsub : done ⊆ done ++ [(b, id)] := subset_append_left _ _
  have hfresh := h.fresh hwf hb hid hinst hres hnew
  have hlt' : v < s.aliases.length := h.length ▸ hlt
  have halias : ∀ w, aliasOf (s.aliases.set v (some p)) w =
      if w = v then some p else aliasOf s.aliases w := fun w => aliasOf_set hlt'
  have hne : ∀ {q : ValueId}, Seen r done q → q ≠ v :=
    fun hq => hq.ne hwf hb hid hinst hres hnew
  have hkeep : ∀ {w q : ValueId}, aliasOf s.aliases w = some q →
      aliasOf (s.aliases.set v (some p)) w = some q := by
    intro w q hw
    rw [halias, if_neg, hw]
    rintro rfl
    rw [hfresh] at hw
    cases hw
  refine ⟨by simpa using h.length, ?_, fun {w q} hw => ?_, fun entry hentry => ?_, fun id' hid' => ?_,
    fun {w q} hw => ?_⟩
  · refine hstep.insts.imp fun inst inst' hinst => ?_
    obtain ⟨args', heq, hargs'⟩ := hinst
    exact ⟨args', heq, hargs'.imp fun a a' ha => ha.imp_right hkeep⟩
  · rw [halias] at hw ⊢
    by_cases hwv : w = v
    · rw [if_pos hwv, Option.some.injEq] at hw
      subst hw hwv
      exact ⟨hp, by rw [if_neg (hne hseen), hnone], hseen.mono hsub⟩
    · rw [if_neg hwv] at hw
      obtain ⟨h1, h2, h3⟩ := h.target hw
      exact ⟨h1, by rw [if_neg (hne h3), h2], h3.mono hsub⟩
  · obtain ⟨h1, h2⟩ := hstep.known entry hentry
    obtain ⟨h1', _⟩ := h.known entry hentry
    refine ⟨h1, ?_⟩
    rw [halias, if_neg (hne h1'.seen)]
    exact h2
  · rcases List.mem_cons.1 hid' with rfl | hid'
    · exact ⟨b, blk, inst, v, p, by simp, hb, hid, hinst, hpure, hstate, hres,
        (halias v).trans (if_pos rfl)⟩
    · obtain ⟨d, dblk, inst', w, q, h1, h2, h3, h4, h5, h6, h7, h8⟩ := hstep.removed id' hid'
      exact ⟨d, dblk, inst', w, q, h1, h2, h3, h4, h5, h6, h7, hkeep h8⟩
  · rw [halias] at hw
    by_cases hwv : w = v
    · subst hwv
      exact ⟨b, blk, id, inst, by simp, hb, hid, hinst, hres, by simp⟩
    · rw [if_neg hwv] at hw
      obtain ⟨d, dblk, id', inst', h1, h2, h3, h4, h5, h6⟩ := hstep.aliased hw
      exact ⟨d, dblk, id', inst', h1, h2, h3, h4, h5, by simp [h6]⟩

/-- The visit of an instruction keeps the invariant. -/
theorem visit_inv (hwf : WF r) (hcfg : Cfg.Exact r cfg) (hb : r.blocks[b]? = some blk)
    (hsplit : blk.instructions = pre ++ id :: post) (hdone : ∀ i, (b, i) ∈ done → i ∈ pre)
    (h : Inv r done s) (hvisit : visit r cfg b s id = .ok s') : Inv r (done ++ [(b, id)]) s' := by
  have hid : id ∈ blk.instructions := by simp [hsplit]
  have hnew : (b, id) ∉ done := fun hmem => hwf.not_mem_pre hb hsplit (hdone id hmem)
  obtain ⟨inst, hinst, _, _⟩ := hwf.inst hb hid
  unfold visit at hvisit
  obtain ⟨inst', hget, hvisit⟩ := bind_eq_ok.1 hvisit
  obtain ⟨args, hargs, hvisit⟩ := bind_eq_ok.1 hvisit
  -- the instruction of the arena is the one of the region, up to resolved operands
  have hlen := h.insts.length_eq
  rw [idx_eq_ok] at hget
  obtain ⟨hlt, rfl⟩ := List.getElem?_eq_some_iff.1 hget
  obtain ⟨args₀, heq, hargs₀⟩ : ∃ args₀, s.instructions[id] = { inst with args := args₀ } ∧
      List.Forall₂ (Arg s.aliases) inst.args args₀ := by
    have := h.insts.get (hlen ▸ hlt) hlt
    obtain ⟨_, rfl⟩ := List.getElem?_eq_some_iff.1 hinst
    simpa using this
  rw [heq] at hargs hvisit
  obtain ⟨rfl, _⟩ := mapM_ok (g := aliasRep s.aliases)
    (fun a _ w hw => (resolve_eq_ok.1 hw).2) hargs
  have hargs : List.Forall₂ (Arg s.aliases) inst.args (args₀.map (aliasRep s.aliases)) := by
    rw [forall₂_map_right_iff]
    exact hargs₀.imp fun a a' ha => (h.arg ha).2.1
  split at hvisit
  · cases hvisit
    exact h.operands hinst hargs
  · next hcond =>
    simp only [Bool.or_eq_true, Bool.not_eq_true', decide_eq_true_eq, not_or, Bool.not_eq_false,
      Bool.not_eq_true, ne_eq, Decidable.not_not, Option.isSome_eq_false_iff, Option.isNone_iff_eq_none]
      at hcond
    obtain ⟨⟨helig, hone⟩, hstate⟩ := hcond
    obtain ⟨v, hres⟩ := List.length_eq_one_iff.1 hone
    obtain ⟨result, hresult, hvisit⟩ := bind_eq_ok.1 hvisit
    obtain ⟨data, hdata, hvisit⟩ := bind_eq_ok.1 hvisit
    rw [idx_eq_ok] at hresult hdata
    simp only [hres, List.getElem?_cons_zero, Option.some.injEq] at hresult
    subst hresult
    dsimp only at hvisit
    have hpure := eligible_pure helig
    have hty : r.ty v = data.ty := by simp [Region.ty, hdata]
    have hreps : List.Forall₂ (fun a a' => Replaces r a' a) inst.args
        (args₀.map (aliasRep s.aliases)) := hargs.imp fun a a' ha => (h.arg ha).1
    have heval : ∀ {b' : BlockId} {pre' : List InstId} {e : Env}, r.At b' pre' e →
        Avail r b' pre' v → r.evalInst inst (inst.args.map e) =
          inst.op.eval ((args₀.map (aliasRep s.aliases)).map r.ty) data.ty
            ((args₀.map (aliasRep s.aliases)).map e) := by
      intro b' pre' e hat hav
      rw [Replaces.evalInst hwf hb hid hinst (by simp [hres]) hreps hat hav, hres]
      exact congrArg (fun ty => inst.op.eval _ ty _) hty
    split at hvisit
    · -- the result of an earlier instruction with the same key replaces the result
      next previous hfind =>
      obtain ⟨aliases, haliases, hvisit⟩ := bind_eq_ok.1 hvisit
      rw [setAt_eq_ok] at haliases
      obtain ⟨hvlt, rfl⟩ := haliases
      cases hvisit
      have hfound := List.find?_some hfind
      simp only [Bool.and_eq_true, decide_eq_true_eq] at hfound
      obtain ⟨hkey, hdom⟩ := hfound
      obtain ⟨hok, hnone⟩ := h.known previous (List.mem_of_find?_eq_some hfind)
      have hdom' := (hcfg.dominates _ _ (hwf.reach_of_get hb)).1 hdom
      have hav : Avail r b pre previous.value := by
        obtain ⟨dblk, id', inst', hmem, hd, hid', hinst', hres'⟩ := hok.site
        by_cases hdb : previous.owner = b
        · rw [hdb] at hmem
          exact .here (hdone id' hmem) hinst' (by simp [hres'])
        · exact .above hd hid' hinst' (by simp [hres']) hdb hdom'
      have hrep : Replaces r previous.value v := by
        refine .of_pure hwf hb hsplit hinst hpure (by simp [hres]) ?_ hav fun hat hv' hp' => ?_
        · rw [hok.ty, hkey, hty]
        · rw [hok.value hat hp', heval hat hv', hkey]
      exact h.common hwf hb hid hinst hres hpure hstate hnew (h.length ▸ hvlt) hrep hok.seen hnone
        hargs _
    · -- a new entry
      cases hvisit
      have hstep := h.operands (b := b) hinst hargs
      refine ⟨hstep.length, hstep.insts, hstep.target, fun entry hentry => ?_, hstep.removed,
        hstep.aliased⟩
      rcases List.mem_cons.1 hentry with rfl | hentry
      · refine ⟨⟨⟨blk, id, inst, by simp, hb, hid, hinst, hres⟩, hty, fun hat hav => ?_⟩,
          h.fresh hwf hb hid hinst hres hnew⟩
        obtain ⟨_, hsound⟩ := hat.sound hwf
        rw [← heval hat hav]
        exact hsound.pure hb hid hinst hpure (by simp [hres]) hav
      · exact hstep.known entry hentry

/-- The instructions of a list of blocks. -/
def sites (r : Region) (bs : List BlockId) : List (BlockId × InstId) :=
  bs.flatMap fun b => (((r.blocks[b]?).map (·.instructions)).getD []).map fun id => (b, id)

theorem mem_sites {bs : List BlockId} (h : (b, id) ∈ sites r bs) : b ∈ bs := by
  obtain ⟨d, hd, hmem⟩ := List.mem_flatMap.1 h
  obtain ⟨_, _, heq⟩ := List.mem_map.1 hmem
  cases heq
  exact hd

/-- The visit of a block keeps the invariant. -/
theorem visitBlock_inv (hwf : WF r) (hcfg : Cfg.Exact r cfg) {bs : List BlockId} (hnew : b ∉ bs)
    (h : Inv r (sites r bs) s) (hvisit : visitBlock r cfg s b = .ok s') :
    Inv r (sites r (bs ++ [b])) s' := by
  obtain ⟨blk, hb, hvisit⟩ := bind_eq_ok.1 hvisit
  rw [idx_eq_ok] at hb
  have hsites : sites r (bs ++ [b]) = sites r bs ++ blk.instructions.map fun id => (b, id) := by
    simp [sites, hb]
  rw [hsites]
  refine foldlM_ok (I := fun pre s => Inv r (sites r bs ++ pre.map fun id => (b, id)) s) ?_
    (by simpa using h) hvisit
  intro pre id post s s' hsplit hinv hstep
  rw [map_append, ← append_assoc]
  refine visit_inv hwf hcfg hb hsplit (fun i hi => ?_) hinv hstep
  rcases List.mem_append.1 hi with hi | hi
  · exact absurd (mem_sites hi) hnew
  · obtain ⟨_, hmem, heq⟩ := List.mem_map.1 hi
    cases heq
    exact hmem

theorem Inv.init (r : Region) (stats : PassStats) :
    Inv r [] ⟨r.instructions, [], List.replicate r.values.length none, [], stats⟩ := by
  refine ⟨by simp, ?_, fun hv => by simp at hv, by simp, by simp, fun hv => by simp at hv⟩
  rw [forall₂_same]
  exact fun inst _ => ⟨inst.args, rfl, List.forall₂_same.2 fun a _ => .inl rfl⟩

/-! ## The rewritten region -/

/-- What the pass does, in terms of the final table. -/
def edit (s : State) : Edit where
  rep := aliasRep s.aliases
  keep id := !s.removed.contains id
  kept v := (aliasOf s.aliases v).isNone
  op _ := none

theorem edit_valid (hwf : WF r) (h : Inv r done s) : (edit s).Valid r := by
  have hresult : ∀ {b : BlockId} {blk : Block} {id : InstId} {inst : Instruction} {v p : ValueId},
      r.blocks[b]? = some blk → id ∈ blk.instructions → r.instructions[id]? = some inst →
      v ∈ inst.results → aliasOf s.aliases v = some p → id ∈ s.removed := by
    intro b blk id inst v p hb hid hinst hv hp
    obtain ⟨d, dblk, id', inst', _, hd, hid', hinst', hres, hmem⟩ := h.aliased hp
    have heq := hwf.result_unique hb hd hid hid' hinst hinst' hv (by simp [hres])
    exact heq ▸ hmem
  refine ⟨fun hb hid hinst hkeep => ?_, fun {b blk id inst v} hb hid hinst hv => ?_,
    fun {b blk v} hb hv => ?_, fun _ _ _ _ hop => (nomatch hop), fun {b pre v} _ => ?_,
    fun v hty => ?_⟩
  · obtain ⟨_, _, inst', _, _, _, _, _, hinst', hpure, hstate, _⟩ :=
      h.removed _ (by simpa [edit] using hkeep)
    cases hinst.symm.trans hinst'
    exact ⟨hpure, hstate⟩
  · by_cases hmem : id ∈ s.removed
    · obtain ⟨_, _, inst', w, p, _, _, _, hinst', _, _, hres, hp⟩ := h.removed id hmem
      cases hinst.symm.trans hinst'
      obtain rfl : v = w := by simpa [hres] using hv
      simp [edit, hp, hmem]
    · cases hp : aliasOf s.aliases v with
      | none => simp [edit, hp, hmem]
      | some p => exact absurd (hresult hb hid hinst hv hp) hmem
  · cases hp : aliasOf s.aliases v with
    | none => simp [edit, hp]
    | some p =>
      obtain ⟨d, dblk, id, inst, _, hd, hid, hinst, hres, _⟩ := h.aliased hp
      exact absurd (by simp [hres]) (hwf.param_ne_result hb hd hv hid hinst)
  · cases hp : aliasOf s.aliases v with
    | none => simpa [edit, aliasRep, hp] using Replaces.refl r v
    | some p =>
      obtain ⟨h1, h2, _⟩ := h.target hp
      simpa [edit, aliasRep, hp, h2] using h1
  · cases hp : aliasOf s.aliases v with
    | none => simp [edit, aliasRep, hp]
    | some p =>
      -- the result of a pure instruction is neither a token nor a ticket
      obtain ⟨b, blk, id, inst, _, hb, hid, hinst, hres, hmem⟩ := h.aliased hp
      obtain ⟨_, _, inst', _, _, _, _, _, hinst', hpure, _⟩ := h.removed id hmem
      cases hinst.symm.trans hinst'
      obtain ⟨inst', _, _, _, _, hinst', _, hok⟩ := hwf.listed hb hid
      cases hinst.symm.trans hinst'
      obtain ⟨hticket, heffect⟩ := hok.pure_ty hpure (v := v) (by simp [hres])
      exact hty.elim (absurd · heffect) (absurd · hticket)

/-- What the pass returns, in terms of the final table. -/
theorem run_eq {stats stats' : PassStats} {r' : Region} (hwf : WF r)
    (h : run r stats = .ok (r', stats')) : ∃ done s, Inv r done s ∧
      r' = (r.mapOperands (edit s).rep).retain (edit s).keep := by
  obtain ⟨_, _, h⟩ := bind_eq_ok.1 h
  obtain ⟨cfg, hcfg, h⟩ := bind_eq_ok.1 h
  obtain ⟨s, hvisit, h⟩ := bind_eq_ok.1 h
  obtain ⟨r₁, hrewrite, h⟩ := bind_eq_ok.1 h
  cases h
  have hperm : (order r cfg).Perm (List.range r.blocks.length) := perm_insertionSort _ _
  have hnodup : (order r cfg).Nodup := hperm.nodup_iff.2 nodup_range
  have hinv : Inv r (sites r (order r cfg)) s := by
    refine foldlM_ok (I := fun bs s => Inv r (sites r bs) s) ?_ (Inv.init r stats) hvisit
    intro pre b post s s' hsplit hinv hstep
    refine visitBlock_inv hwf (.of_compute hcfg) (fun hmem => ?_) hinv hstep
    rw [hsplit, nodup_append] at hnodup
    exact hnodup.2.2 b hmem b (by simp) rfl
  refine ⟨_, s, hinv, ?_⟩
  obtain ⟨_, rfl⟩ := Region.rewriteValues_eq_ok.1 hrewrite
  have hrep : (fun v => (resolve s.aliases v).toOption.getD v) = aliasRep s.aliases := by
    funext v
    by_cases hv : v < s.aliases.length
    · rw [resolve_eq_ok.2 ⟨hv, rfl⟩]
      rfl
    · simp [resolve, idx, aliasRep, aliasOf, List.getElem?_eq_none (Nat.not_lt.1 hv),
        Except.toOption, List.getD]
  -- the operands resolved in the visit are resolved again
  have hinsts :
      s.instructions.map (fun inst => { inst with args := inst.args.map (aliasRep s.aliases) }) =
      r.instructions.map fun inst => { inst with args := inst.args.map (aliasRep s.aliases) } := by
    rw [eq_comm, ← forall₂_eq_eq_eq, forall₂_map_left_iff, forall₂_map_right_iff]
    refine hinv.insts.imp fun inst inst' hinst => ?_
    obtain ⟨args, rfl, hargs⟩ := hinst
    have heq : inst.args.map (aliasRep s.aliases) = args.map (aliasRep s.aliases) := by
      rw [← forall₂_eq_eq_eq, forall₂_map_left_iff, forall₂_map_right_iff]
      exact hargs.imp fun a a' ha => (hinv.arg ha).2.2.symm
    simp [heq]
  rw [hrep]
  simp only [Region.mapOperands, Region.retain, edit, hinsts]

/-- Value numbering keeps a region well formed and its meaning; the result of a removed instruction
is replaced everywhere by a kept result that is available and equal wherever it is used. -/
theorem gvn_correct {stats stats' : PassStats} {r' : Region} (hr : verify r = .ok ())
    (h : run r stats = .ok (r', stats')) : verify r' = .ok () ∧ Region.SameMeaning r r' ∧
      ∃ rep keep, r' = (r.mapOperands rep).retain keep ∧ (∀ v, Replaces r (rep v) v) ∧
        ∀ (b : BlockId) (blk : Block) (id : InstId) (inst : Instruction) (v : ValueId),
          r.blocks[b]? = some blk → id ∈ blk.instructions → r.instructions[id]? = some inst →
          keep id = false → v ∈ inst.results →
          ∃ (d : BlockId) (dblk : Block) (id' : InstId) (inst' : Instruction),
            r.blocks[d]? = some dblk ∧ id' ∈ dblk.instructions ∧ r.instructions[id']? = some inst' ∧
            keep id' = true ∧ rep v ∈ inst'.results := by
  have hwf := verify_eq_ok.1 hr
  obtain ⟨done, s, hinv, rfl⟩ := run_eq hwf h
  have hvalid := edit_valid hwf hinv
  obtain ⟨hwf', hsame⟩ := (Edit.applied_retain (d := edit s) fun _ => rfl).correct hvalid hwf
  refine ⟨verify_eq_ok.2 hwf', hsame, _, _, rfl, fun v => ?_, fun b blk id inst v hb hid hinst hkeep
    hv => ?_⟩
  · cases hp : aliasOf s.aliases v with
    | none => simpa [edit, aliasRep, hp] using Replaces.refl r v
    | some p => simpa [edit, aliasRep, hp] using (hinv.target hp).1
  · obtain ⟨_, _, inst', w, p, _, _, _, hinst', _, _, hres, hp⟩ :=
      hinv.removed id (by simpa [edit] using hkeep)
    cases hinst.symm.trans hinst'
    obtain rfl : v = w := by simpa [hres] using hv
    obtain ⟨_, hnone, d, dblk, id', inst', _, hd, hid', hinst', hres'⟩ := hinv.target hp
    have hp' : (edit s).rep v = p := by simp [edit, aliasRep, hp]
    refine ⟨d, dblk, id', inst', hd, hid', hinst', ?_, by rw [hp', hres']; simp⟩
    rw [← hvalid.result hd hid' hinst' (v := p) (by simp [hres'])]
    simp [edit, hnone]

/-- A region that defines the same constant twice. -/
def twice : Region where
  entries := [0]
  blocks := [⟨none, [], [0, 1, 2], some (.exit 0), 0⟩]
  values := [⟨.i32, .instruction 0 0⟩, ⟨.i1, .instruction 1 0⟩, ⟨.i32, .instruction 2 0⟩]
  instructions := [.simple 0 (.const 0) [] 0, .simple 0 (.const 0) [] 1, .simple 0 (.const 0) [] 2]
  states := [.uniform 2 1]
  helpers := []

set_option maxRecDepth 4000 in
theorem gvn_correct_twice : ∃ r' stats', run twice default = .ok (r', stats') ∧
    stats'.commoned = 1 ∧ verify r' = .ok () ∧ Region.SameMeaning twice r' :=
  have h := gvn_correct (r := twice) rfl (rfl : run twice default = .ok _)
  ⟨_, _, rfl, rfl, h.1, h.2.1⟩

end V86.Ir.Gvn
