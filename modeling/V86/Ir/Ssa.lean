import V86.Ir.Signature
import V86.Ir.WellFormed

/-!
# Available values

How `Avail` moves through a well-formed region: along dominance, from an instruction to its
operands, and backwards over an edge. The last section turns this into what is true of the values
at every reachable state (`Region.At`): an available value has its type, and an available result
of a pure instruction is the instruction's value on the current operands.
-/

namespace V86.Ir

open Exec Verify List

/-- Every instruction of a chain may stand after the instructions before it. -/
theorem Chained.inst {r : Region} {b : BlockId} {blk : Block} {l : List InstId} {c : Chain}
    (h : Chained r b blk l c) : ∀ {pre post : List InstId} {id : InstId}, l = pre ++ id :: post →
      ∃ inst c₀ c₁, r.instructions[id]? = some inst ∧ Chained r b blk pre c₀ ∧
        InstOk r b blk pre inst c₀ c₁ := by
  induction h with
  | nil =>
    intro pre post id hl
    simp at hl
  | @snoc l last inst c c' hc hinst hok ih =>
    intro pre post id hl
    rcases eq_nil_or_concat post with rfl | ⟨post', x, rfl⟩
    · obtain ⟨rfl, hid⟩ := append_inj' hl rfl
      cases hid
      exact ⟨inst, c, c', hinst, hc, hok⟩
    · have hl' : l ++ [last] = (pre ++ id :: post') ++ [x] := by simpa using hl
      exact ih (append_inj' hl' rfl).1

namespace WF

variable {r : Region} {b d t : BlockId} {blk dblk tblk : Block} {pre post : List InstId}
  {id : InstId} {inst : Instruction} {v a : ValueId}

theorem blocks_lt (hb : r.blocks[b]? = some blk) : b < r.blocks.length :=
  (List.getElem?_eq_some_iff.1 hb).1

section
variable (h : WF r) (hb : r.blocks[b]? = some blk)
include h hb

theorem reach_of_get : r.flow.Reach b :=
  h.reach b (blocks_lt hb)

/-- The checks of a listed instruction. -/
theorem instOk (hsplit : blk.instructions = pre ++ id :: post)
    (hinst : r.instructions[id]? = some inst) :
    ∃ c c', Chained r b blk pre c ∧ InstOk r b blk pre inst c c' := by
  obtain ⟨_, hchain, _⟩ := (h.block hb).chain
  obtain ⟨inst', c, c', h1, h2, h3⟩ := hchain.inst hsplit
  cases hinst.symm.trans h1
  exact ⟨c, c', h2, h3⟩

/-- A listed instruction exists, stands at a position and passes its checks. -/
theorem listed (hid : id ∈ blk.instructions) :
    ∃ inst pre post c c', r.instructions[id]? = some inst ∧ blk.instructions = pre ++ id :: post ∧
      InstOk r b blk pre inst c c' := by
  obtain ⟨pre, post, hsplit⟩ := append_of_mem hid
  obtain ⟨inst, hinst, _, _⟩ := h.inst hb hid
  obtain ⟨c, c', _, hok⟩ := h.instOk hb hsplit hinst
  exact ⟨inst, pre, post, c, c', hinst, hsplit, hok⟩

/-- The instruction at a position of a block is not one of those before it. -/
theorem not_mem_pre (hsplit : blk.instructions = pre ++ id :: post) : id ∉ pre := by
  intro hid
  have hnd := h.nodup hb
  rw [hsplit, nodup_append] at hnd
  exact hnd.2.2 id hid id (by simp) rfl

end

end WF

namespace Avail

variable {r : Region} {b d t : BlockId} {blk dblk tblk : Block} {pre pre' post : List InstId}
  {id : InstId} {inst : Instruction} {v a : ValueId}

theorem mono (hv : Avail r b pre v) (hsub : pre ⊆ pre') : Avail r b pre' v := by
  cases hv with
  | param hd hv hdom => exact .param hd hv hdom
  | above hd hid hinst hv hne hdom => exact .above hd hid hinst hv hne hdom
  | here hid hinst hv => exact .here (hsub hid) hinst hv

/-- An available value has a slot. -/
theorem slot (h : WF r) (hb : r.blocks[b]? = some blk) (hpre : pre <+: blk.instructions)
    (hv : Avail r b pre v) : ∃ data, r.values[v]? = some data ∧ data.ty = r.ty v := by
  have hty := Region.checkTy_of_avail h.toDefsOk hb hpre hv
  rwa [Region.checkTy, Exec.okOr_eq_ok, Option.map_eq_some_iff] at hty

/-- After one more instruction, what is available was so before or is a result of it. -/
theorem of_snoc (hv : Avail r b (pre ++ [id]) v) (hinst : r.instructions[id]? = some inst) :
    Avail r b pre v ∨ v ∈ inst.results := by
  cases hv with
  | param hd hv hdom => exact .inl (.param hd hv hdom)
  | above hd hid hinst hv hne hdom => exact .inl (.above hd hid hinst hv hne hdom)
  | @here id' inst' _ hid' hinst' hv =>
    rcases List.mem_append.1 hid' with hid' | hid'
    · exact .inl (.here hid' hinst' hv)
    · rw [mem_singleton] at hid'
      subst hid'
      cases hinst.symm.trans hinst'
      exact .inr hv

/-- What is available in a strict dominator is available below it. -/
theorem down (h : WF r) (hd : r.blocks[d]? = some dblk) (hpre : pre ⊆ dblk.instructions)
    (hne : d ≠ b) (hdom : r.flow.Dom d b) (hv : Avail r d pre v) : Avail r b pre' v := by
  cases hv with
  | param hd' hv hdom' => exact .param hd' hv (hdom'.trans hdom)
  | @above d' _ _ _ _ hd' hid hinst hv hne' hdom' =>
    refine .above hd' hid hinst hv (fun hb => ?_) (hdom'.trans hdom)
    subst hb
    exact hne' (hdom'.antisymm (h.reach_of_get hd') hdom)
  | here hid hinst hv => exact .above hd (hpre hid) hinst hv hne hdom

/-- Where a parameter is available, its block dominates. -/
theorem dom_of_param (h : WF r) (hb : r.blocks[b]? = some blk) (hpre : pre ⊆ blk.instructions)
    (ht : r.blocks[t]? = some tblk) (hv : Avail r b pre v) (hparam : v ∈ tblk.params) :
    r.flow.Dom t b := by
  cases hv with
  | @param d _ _ hd hv hdom =>
    have hdt : d = t := h.definedIn_unique hd ht (.inl hv) (.inl hparam)
    exact hdt ▸ hdom
  | above hd hid hinst hv _ _ => exact absurd hv (h.param_ne_result ht hd hparam hid hinst)
  | here hid hinst hv => exact absurd hv (h.param_ne_result ht hb hparam (hpre hid) hinst)

/-- Where a result is available, its block dominates strictly or the instruction is done. -/
theorem of_result (h : WF r) (hb : r.blocks[b]? = some blk) (hpre : pre ⊆ blk.instructions)
    (hd : r.blocks[d]? = some dblk) (hid : id ∈ dblk.instructions)
    (hinst : r.instructions[id]? = some inst) (hres : v ∈ inst.results) (hv : Avail r b pre v) :
    d ≠ b ∧ r.flow.Dom d b ∨ d = b ∧ id ∈ pre := by
  cases hv with
  | param hd' hv _ => exact absurd hres (h.param_ne_result hd' hd hv hid hinst)
  | @above d' _ _ _ _ hd' hid' hinst' hv hne hdom =>
    have hdd : d' = d := h.definedIn_unique hd' hd (.inr ⟨_, _, hid', hinst', hv⟩)
      (.inr ⟨_, _, hid, hinst, hres⟩)
    exact .inl ⟨hdd ▸ hne, hdd ▸ hdom⟩
  | @here id' _ _ hid' hinst' hv =>
    have hii : id' = id := h.result_unique hb hd (hpre hid') hid hinst' hinst hv hres
    have hdb : d = b := (h.inst_block hd hid hinst).symm.trans
      (h.inst_block hb (hii ▸ hpre hid') hinst)
    exact .inr ⟨hdb, hii ▸ hid'⟩

/-- What is available to an instruction is available where its results are. -/
theorem of_site {pre₀ post₀ : List InstId} (h : WF r) (hb : r.blocks[b]? = some blk)
    (hpre : pre <+: blk.instructions) (hd : r.blocks[d]? = some dblk)
    (hsplit : dblk.instructions = pre₀ ++ id :: post₀) (hinst : r.instructions[id]? = some inst)
    (hres : v ∈ inst.results) (hv : Avail r b pre v) (ha : Avail r d pre₀ a) : Avail r b pre a := by
  have hid : id ∈ dblk.instructions := by simp [hsplit]
  rcases hv.of_result h hb hpre.subset hd hid hinst hres with ⟨hne, hdom⟩ | ⟨rfl, hid'⟩
  · exact ha.down h hd (hsplit ▸ subset_append_left _ _) hne hdom
  · -- the instruction is among those done, so are all before it
    cases hb.symm.trans hd
    obtain ⟨pre₁, post₁, rfl⟩ := append_of_mem hid'
    obtain ⟨rest, hrest⟩ := hpre
    have hnd := h.nodup hb
    have heq : pre₀ = pre₁ := by
      have hsame : pre₀ ++ id :: post₀ = pre₁ ++ id :: (post₁ ++ rest) := by
        rw [← hsplit, ← hrest]
        simp
      have hnot := h.not_mem_pre hb hsplit
      have hnot' : id ∉ post₀ := by
        rw [hsplit, nodup_append, nodup_cons] at hnd
        exact hnd.2.1.1
      exact ((append_cons_inj_of_notMem hnot hnot').1 hsame).1
    exact ha.mono (heq ▸ subset_append_left _ _)

/-- The operands of an available result are available. -/
theorem arg (h : WF r) (hb : r.blocks[b]? = some blk) (hpre : pre <+: blk.instructions)
    (hd : r.blocks[d]? = some dblk) (hid : id ∈ dblk.instructions)
    (hinst : r.instructions[id]? = some inst) (hres : v ∈ inst.results) (hv : Avail r b pre v)
    (ha : a ∈ inst.args) : Avail r b pre a := by
  obtain ⟨inst', pre₀, post₀, c, c', hinst', hsplit, hok⟩ := h.listed hd hid
  cases hinst.symm.trans hinst'
  exact hv.of_site h hb hpre hd hsplit hinst hres (hok.args a ha)

/-- An available value is not a result of the instruction that comes next. -/
theorem not_mem_results (h : WF r) (hb : r.blocks[b]? = some blk)
    (hsplit : blk.instructions = pre ++ id :: post) (hinst : r.instructions[id]? = some inst)
    (hv : Avail r b pre v) : v ∉ inst.results := by
  intro hres
  have hsub : pre ⊆ blk.instructions := hsplit ▸ subset_append_left _ _
  rcases hv.of_result h hb hsub hb (by simp [hsplit]) hinst hres with ⟨hne, _⟩ | ⟨_, hid⟩
  · exact hne rfl
  · exact h.not_mem_pre hb hsplit hid

/-- At an entry, only the parameters are available. -/
theorem of_entry (hb : r.blocks[b]? = some blk) (hentry : b ∈ r.entries)
    (hv : Avail r b [] v) : v ∈ blk.params := by
  cases hv with
  | param hd hv hdom =>
    cases hdom.of_entry hentry
    cases hb.symm.trans hd
    exact hv
  | above _ _ _ _ hne hdom => exact absurd (hdom.of_entry hentry) hne
  | here hid _ _ => cases hid

/-- What is available at the start of a block and no parameter of it is available at the end of
each predecessor. -/
theorem of_edge (hb : r.blocks[b]? = some blk) (ht : r.blocks[t]? = some tblk)
    (hedge : t ∈ r.succs b) (hparam : v ∉ tblk.params) (hv : Avail r t [] v) :
    Avail r b blk.instructions v := by
  cases hv with
  | @param d _ _ hd hv hdom =>
    refine .param hd hv (hdom.step hedge fun hdt => ?_)
    subst hdt
    cases hd.symm.trans ht
    exact hparam hv
  | @above d _ _ _ _ hd hid hinst hv hne hdom =>
    have hdom' := hdom.step hedge hne
    by_cases hdb : d = b
    · subst hdb
      cases hb.symm.trans hd
      exact .here hid hinst hv
    · exact .above hd hid hinst hv hdb hdom'
  | here hid _ _ => cases hid

/-- The operands of a result that is available at the start of a block are no parameters of the
block. -/
theorem arg_not_param (h : WF r) (ht : r.blocks[t]? = some tblk) (hd : r.blocks[d]? = some dblk)
    (hid : id ∈ dblk.instructions) (hinst : r.instructions[id]? = some inst)
    (hres : v ∈ inst.results) (hv : Avail r t [] v) (ha : a ∈ inst.args) : a ∉ tblk.params := by
  intro hparam
  obtain ⟨inst', pre₀, post₀, c, c', hinst', hsplit, hok⟩ := h.listed hd hid
  cases hinst.symm.trans hinst'
  rcases hv.of_result h ht (by simp) hd hid hinst hres with ⟨hne, hdom⟩ | ⟨_, hid'⟩
  · have hback := (hok.args a ha).dom_of_param h hd (hsplit ▸ subset_append_left _ _) ht hparam
    exact hne (hdom.antisymm (h.reach_of_get hd) hback)
  · cases hid'

end Avail

/-- Instructions have ranks that are smaller at the definitions of their operands. -/
theorem WF.exists_rank {r : Region} (h : WF r) : ∃ rank : InstId → Nat,
    ∀ {b d : BlockId} {blk dblk : Block} {id id' : InstId} {inst inst' : Instruction} {v : ValueId},
      r.blocks[b]? = some blk → id ∈ blk.instructions → r.instructions[id]? = some inst →
      r.blocks[d]? = some dblk → id' ∈ dblk.instructions → r.instructions[id']? = some inst' →
      v ∈ inst.args → v ∈ inst'.results → rank id' < rank id := by
  obtain ⟨depth, hdepth⟩ := r.flow.exists_depth
  -- the depth of the block, then the position in it
  let n := r.instructions.length
  let position (id : InstId) (b : BlockId) : Nat := (((r.blocks[b]?).map (·.instructions)).getD []).idxOf id
  refine ⟨fun id => ((r.instructions[id]?).map fun inst =>
    depth inst.block * (n + 1) + position id inst.block).getD 0, ?_⟩
  intro b d blk dblk id id' inst inst' v hb hid hinst hd hid' hinst' hv hv'
  obtain ⟨inst₀, pre, post, c, c', hinst₀, hsplit, hok⟩ := h.listed hb hid
  cases hinst.symm.trans hinst₀
  have hav := hok.args v hv
  have hpos : ∀ {b : BlockId} {blk : Block} {id : InstId}, r.blocks[b]? = some blk →
      position id b = blk.instructions.idxOf id := by
    intro b blk id hb
    simp [position, hb]
  simp only [hinst, hinst', Option.map_some, Option.getD_some, h.inst_block hb hid hinst,
    h.inst_block hd hid' hinst', hpos hb, hpos hd]
  rcases hav.of_result h hb (hsplit ▸ subset_append_left _ _) hd hid' hinst' hv' with
    ⟨hne, hdom⟩ | ⟨rfl, hmem⟩
  · have hlt := hdepth d b (h.reach_of_get hb) hdom hne
    have hle : dblk.instructions.idxOf id' ≤ n := by
      have h1 := idxOf_lt_length_of_mem hid'
      have h2 : dblk.instructions.length ≤ n := by
        have hsub : dblk.instructions ⊆ List.range n := fun i hi => by
          obtain ⟨inst, hi, _⟩ := h.inst hd hi
          exact List.mem_range.2 (List.getElem?_eq_some_iff.1 hi).1
        simpa using (subperm_of_subset (h.nodup hd) hsub).length_le
      omega
    have hmul : (depth d + 1) * (n + 1) ≤ depth b * (n + 1) := Nat.mul_le_mul_right _ hlt
    rw [Nat.add_mul] at hmul
    omega
  · cases hb.symm.trans hd
    rw [hsplit, idxOf_append_of_mem hmem, idxOf_append_of_notMem (h.not_mem_pre hb hsplit)]
    have := idxOf_lt_length_of_mem hmem
    omega

/-! ## Reachable states -/

section
variable {r : Region} {b d t : BlockId} {blk dblk tblk : Block} {pre post : List InstId}
  {id : InstId} {inst : Instruction} {v : ValueId} {c c' : Chain} {e : Env}

section
variable (hok : InstOk r b blk pre inst c c') (hpure : inst.op.pure = true)
include hok hpure

/-- A pure instruction has one result, of a type that matches the operands. -/
theorem InstOk.pure_sig : ∃ v, inst.results = [v] ∧ inst.op.Sig (inst.args.map r.ty) (r.ty v) := by
  have hord := Op.not_ordered_of_pure hpure
  obtain ⟨ty, hres, hsig⟩ := (checkOp_pure hpure).1 hok.op
  have hsig' : inst.op.Sig (inst.sig (inst.args.map r.ty)) ty := hsig
  have hres' : inst.sig (inst.results.map r.ty) = [ty] := hres
  simp only [Instruction.sig, hord, Bool.false_eq_true, if_false] at hsig' hres'
  obtain ⟨v, hv, rfl⟩ := List.map_eq_singleton_iff.1 hres'
  exact ⟨v, hv, hsig'⟩

/-- A pure instruction has no commit map and no fault policies. -/
theorem InstOk.pure_plain :
    inst.commit = none ∧ inst.trapAfterFault = false ∧ inst.unmaskedWordStore = false := by
  obtain ⟨h1, h2, _, _, h3⟩ := Op.plain_of_pure hpure
  refine ⟨?_, ?_, ?_⟩
  · have := hok.commits
    rwa [h1, ← Bool.not_eq_true, Option.not_isSome_iff_eq_none] at this
  · rw [← Bool.not_eq_true]
    exact fun ht => absurd (hok.trap ht) (by simp [h2])
  · rw [← Bool.not_eq_true]
    exact fun hu => h3 2 (hok.unmasked hu)

/-- The result of a pure instruction is neither a ticket nor an effect token. -/
theorem InstOk.pure_ty (hv : v ∈ inst.results) : r.ty v ≠ .rmwTicket ∧ r.ty v ≠ .effect := by
  obtain ⟨_, hresults, _⟩ := hok.unordered (Op.not_ordered_of_pure hpure)
  refine ⟨fun hty => ?_, fun hty => hresults (List.mem_map.2 ⟨v, hv, hty⟩)⟩
  have hload := hok.ticketResults (List.mem_map.2 ⟨v, hv, hty⟩)
  rw [(Op.plain_of_pure hpure).2.2.2.1] at hload
  cases hload

end

/-- What is true of the values at a point: an available value has its type, and an available
result of a pure instruction is the value of the instruction on the current operands. -/
structure Region.Sound (r : Region) (b : BlockId) (pre : List InstId) (e : Env) : Prop where
  fits : ∀ {v : ValueId}, Avail r b pre v → (r.ty v).Fits (e v)
  pure : ∀ {d : BlockId} {dblk : Block} {id : InstId} {inst : Instruction} {v : ValueId},
    r.blocks[d]? = some dblk → id ∈ dblk.instructions → r.instructions[id]? = some inst →
    inst.op.pure = true → v ∈ inst.results → Avail r b pre v →
    e v = r.evalInst inst (inst.args.map e)

/-- The values of the operands of an instruction that may come next have their types. -/
theorem Region.Sound.args_fit (hs : r.Sound b pre e) (hok : InstOk r b blk pre inst c c') :
    List.Forall₂ Ty.Fits (inst.args.map r.ty) (inst.args.map e) := by
  rw [forall₂_map_left_iff, forall₂_map_right_iff, forall₂_same]
  exact fun v hv => hs.fits (hok.args v hv)

theorem Region.resultVals_length (hok : InstOk r b blk pre inst c c') (choice : Nat → Val) :
    (r.resultVals inst e choice).length = inst.results.length := by
  unfold Region.resultVals
  split
  · next hpure =>
    obtain ⟨v, hv, _⟩ := hok.pure_sig hpure
    simp [hv]
  · simp

theorem DefsOk.results_nodup (h : DefsOk r) (hb : r.blocks[b]? = some blk)
    (hid : id ∈ blk.instructions) (hinst : r.instructions[id]? = some inst) :
    inst.results.Nodup := by
  obtain ⟨inst', hinst', _, hres⟩ := h.inst hb hid
  cases hinst.symm.trans hinst'
  refine List.nodup_iff_getElem?_ne_getElem?.2 fun i j hij hj heq => ?_
  obtain ⟨ty, h1⟩ := hres (List.getElem?_eq_getElem hj)
  rw [List.getElem?_eq_getElem hj] at heq
  obtain ⟨ty', h2⟩ := hres heq
  cases h1.symm.trans h2
  omega

theorem DefsOk.params_nodup (h : DefsOk r) (hb : r.blocks[b]? = some blk) : blk.params.Nodup := by
  refine List.nodup_iff_getElem?_ne_getElem?.2 fun i j hij hj heq => ?_
  obtain ⟨ty, h1, _⟩ := h.param hb (List.getElem?_eq_getElem hj)
  rw [List.getElem?_eq_getElem hj] at heq
  obtain ⟨ty', h2, _⟩ := h.param hb heq
  cases h1.symm.trans h2
  omega

/-- The value an instruction gives to one of its results has the result's type. -/
theorem Region.Sound.result_fits (hs : r.Sound b pre e) (h : WF r)
    (hb : r.blocks[b]? = some blk) (hsplit : blk.instructions = pre ++ id :: post)
    (hinst : r.instructions[id]? = some inst) (hv : v ∈ inst.results) (choice : Nat → Val) :
    (r.ty v).Fits (e.setAll inst.results (r.resultVals inst e choice) v) := by
  obtain ⟨c, c', _, hok⟩ := h.instOk hb hsplit hinst
  have hnd := h.results_nodup hb (by simp [hsplit]) hinst
  obtain ⟨k, hk⟩ := mem_iff_getElem?.1 hv
  by_cases hpure : inst.op.pure = true
  · obtain ⟨w, hw, hsig⟩ := hok.pure_sig hpure
    have hvw : v = w := by simpa [hw] using hv
    subst hvw
    rw [Env.setAll_getElem (i := 0) hnd (by simp [hw])
      (by rw [Region.resultVals, if_pos hpure]; rfl), Region.evalInst, hw]
    exact Op.eval_fits hsig (hs.args_fit hok)
  · rw [Env.setAll_getElem hnd hk (by
      rw [Region.resultVals, if_neg hpure]
      exact Region.getElem?_clampAll hk)]
    exact Ty.fits_clamp _ _

theorem Region.params_of_get (hb : r.blocks[b]? = some blk) : r.params b = blk.params := by
  simp [Region.params, hb]

/-- The invariant at an entry. -/
theorem Region.Sound.entry (h : WF r) (hb : r.blocks[b]? = some blk) (hentry : b ∈ r.entries)
    (init : Nat → Val) : r.Sound b [] (r.startEnv b init) := by
  refine ⟨fun {v} hv => ?_, fun {d dblk id inst v} hd hid hinst _ hres hv => ?_⟩
  · have hmem := hv.of_entry hb hentry
    obtain ⟨k, hk⟩ := mem_iff_getElem?.1 hmem
    rw [Region.startEnv, Region.params_of_get hb, Env.setAll_getElem (h.params_nodup hb) hk
      (Region.getElem?_clampAll hk)]
    exact Ty.fits_clamp _ _
  · exact absurd hres (h.param_ne_result hb hd (hv.of_entry hb hentry) hid hinst)

/-- The invariant after one more instruction. -/
theorem Region.Sound.step (hs : r.Sound b pre e) (h : WF r) (hb : r.blocks[b]? = some blk)
    (hsplit : blk.instructions = pre ++ id :: post) (hinst : r.instructions[id]? = some inst)
    (choice : Nat → Val) :
    r.Sound b (pre ++ [id]) (e.setAll inst.results (r.resultVals inst e choice)) := by
  have hid : id ∈ blk.instructions := by simp [hsplit]
  have hpre : pre <+: blk.instructions := ⟨id :: post, hsplit.symm⟩
  have hpre' : pre ++ [id] <+: blk.instructions := ⟨post, by simp [hsplit]⟩
  have hframe : ∀ v, Avail r b pre v →
      e.setAll inst.results (r.resultVals inst e choice) v = e v :=
    fun v hv => Env.setAll_of_not_mem (hv.not_mem_results h hb hsplit hinst)
  obtain ⟨c, c', _, hok⟩ := h.instOk hb hsplit hinst
  refine ⟨fun {v} hv => ?_, fun {d dblk id' inst' v} hd hid' hinst' hpure hres hv => ?_⟩
  · rcases hv.of_snoc hinst with hv | hv
    · rw [hframe v hv]
      exact hs.fits hv
    · exact hs.result_fits h hb hsplit hinst hv choice
  · rcases hv.of_snoc hinst with hv | hv
    · -- an older result: neither it nor its operands are assigned
      have hargs : inst'.args.map (e.setAll inst.results (r.resultVals inst e choice)) =
          inst'.args.map e :=
        map_congr_left fun a ha => hframe a (hv.arg h hb hpre hd hid' hinst' hres ha)
      rw [hframe v hv, hargs]
      exact hs.pure hd hid' hinst' hpure hres hv
    · -- a new result: the instruction is this one, and its operands are older
      obtain rfl := h.result_unique hb hd hid hid' hinst hinst' hv hres
      cases hinst.symm.trans hinst'
      obtain ⟨w, hw, _⟩ := hok.pure_sig hpure
      have hvw : v = w := by simpa [hw] using hv
      subst hvw
      have hargs : inst.args.map (e.setAll inst.results (r.resultVals inst e choice)) =
          inst.args.map e := map_congr_left fun a ha => hframe a (hok.args a ha)
      rw [hargs, Env.setAll_getElem (i := 0) (h.results_nodup hb hid hinst) (by simp [hw])
        (by rw [Region.resultVals, if_pos hpure]; rfl)]

/-- The invariant at the target of an edge. -/
theorem Region.Sound.edge (hs : r.Sound b blk.instructions e) (h : WF r)
    (hb : r.blocks[b]? = some blk) {term : Terminator} (hterm : blk.terminator = some term)
    {edge : Edge} (hedge : edge ∈ term.edges) :
    r.Sound edge.target [] (e.setAll (r.params edge.target) (edge.args.map e)) := by
  obtain ⟨effect, _, hterm'⟩ := (h.block hb).chain
  obtain ⟨target, htarget⟩ := (hterm' term hterm).edges edge hedge
  have hsucc : edge.target ∈ r.succs b := by
    rw [Region.succs_of_blocks hb, Block.succs, hterm]
    exact mem_map_of_mem hedge
  have hframe : ∀ v, Avail r edge.target [] v → v ∉ target.params →
      Avail r b blk.instructions v ∧ e.setAll (r.params edge.target) (edge.args.map e) v = e v := by
    intro v hv hparam
    refine ⟨hv.of_edge hb htarget.get hsucc hparam, Env.setAll_of_not_mem ?_⟩
    rwa [Region.params_of_get htarget.get]
  refine ⟨fun {v} hv => ?_, fun {d dblk id inst v} hd hid hinst hpure hres hv => ?_⟩
  · by_cases hparam : v ∈ target.params
    · obtain ⟨k, hk⟩ := mem_iff_getElem?.1 hparam
      have hlt : k < edge.args.length :=
        htarget.arity ▸ (List.getElem?_eq_some_iff.1 hk).1
      have harg := List.getElem?_eq_getElem hlt
      obtain ⟨hav, hty, _⟩ := htarget.args (edge.args[k], v)
        (mem_iff_getElem?.2 ⟨k, by simp [List.getElem?_zip_eq_some, harg, hk]⟩)
      rw [Region.params_of_get htarget.get, Env.setAll_getElem (h.params_nodup htarget.get) hk
        (by rw [List.getElem?_map, harg]; rfl), ← hty]
      exact hs.fits hav
    · obtain ⟨hav, heq⟩ := hframe v hv hparam
      rw [heq]
      exact hs.fits hav
  · have hparam : v ∉ target.params :=
      fun hp => h.param_ne_result htarget.get hd hp hid hinst hres
    obtain ⟨hav, heq⟩ := hframe v hv hparam
    have hargs : inst.args.map (e.setAll (r.params edge.target) (edge.args.map e)) =
        inst.args.map e := by
      refine map_congr_left fun a ha => (hframe a ?_ ?_).2
      · exact hv.arg h htarget.get nil_prefix hd hid hinst hres ha
      · exact hv.arg_not_param h htarget.get hd hid hinst hres ha
    rw [heq, hargs]
    exact hs.pure hd hid hinst hpure hres hav

/-- The edge a terminator takes is one of its edges. -/
theorem Terminator.mem_edges_of_taken {term : Terminator} {edge : Edge}
    (h : term.taken e = some edge) : edge ∈ term.edges := by
  cases term with
  | branch _ =>
    cases h
    exact mem_singleton_self _
  | condBranch c t f =>
    simp only [Terminator.taken, Option.some.injEq] at h
    subst h
    change (if e c = 0 then f else t) ∈ [t, f]
    split
    · exact mem_cons_of_mem _ mem_cons_self
    · exact mem_cons_self
  | exit _ => cases h

/-- Every reachable state is at a point of a block and satisfies the invariant. -/
theorem Region.At.sound (h : WF r) (hat : r.At b pre e) :
    (∃ blk, r.blocks[b]? = some blk ∧ pre <+: blk.instructions) ∧ r.Sound b pre e := by
  induction hat with
  | @entry b init hentry =>
    have hb := List.getElem?_eq_getElem (h.cfg.entry_lt b hentry)
    exact ⟨⟨_, hb, nil_prefix⟩, .entry h hb hentry init⟩
  | @inst b pre post id e blk inst choice _ hb hsplit hinst ih =>
    exact ⟨⟨blk, hb, post, by simp [hsplit]⟩, ih.2.step h hb hsplit hinst choice⟩
  | @edge b e blk term edge _ hb hterm htaken ih =>
    have hedge := Terminator.mem_edges_of_taken htaken
    obtain ⟨effect, _, hterm'⟩ := (h.block hb).chain
    obtain ⟨target, htarget⟩ := (hterm' term hterm).edges edge hedge
    exact ⟨⟨target, htarget.get, nil_prefix⟩, ih.2.edge h hb hterm hedge⟩

/-- The state after a pure instruction. -/
theorem Region.At.pure_result (hat : r.At b pre e) (hb : r.blocks[b]? = some blk)
    (hsplit : blk.instructions = pre ++ id :: post) (hinst : r.instructions[id]? = some inst)
    (hpure : inst.op.pure = true) (hres : inst.results = [v]) :
    ∃ e', r.At b (pre ++ [id]) e' ∧ Avail r b (pre ++ [id]) v ∧
      e' v = r.evalInst inst (inst.args.map e) := by
  have hstep : r.At b (pre ++ [id]) (e.setAll inst.results (r.resultVals inst e fun _ => 0)) :=
    .inst hat hb hsplit hinst
  refine ⟨_, hstep, .here (by simp) hinst (by simp [hres]), ?_⟩
  rw [Region.resultVals, if_pos hpure, hres]
  simp [Env.setAll, Env.set]

end

end V86.Ir
