import V86.Ir.Passes.Simd

/-!
# Vector identities are sound

The draft computes what the region computes: each of its pure instructions has an operation and
available operands that give the value of the original one (`Computes`). What `Simd.identity` and
`Simd.shuffle` find is read off the draft and holds of the values of the region; it does not depend
on the order of the visit.
-/

namespace V86.Ir.Simd

open Exec Verify BitVec

/-! ## Identities of operations -/

section
variable {op : PackedOp} {x y : Val}

variable {w bits i : Nat} {f : BitVec w → BitVec w → BitVec w} {mask : Vector Nat 16}

theorem lanewise_self (hw : 0 < w) (h : ∀ x, f x x = x) : lanewise w f x x = x :=
  ofLanes_eq_self hw fun _ => h _

theorem lanewise_zero (h : ∀ x, f x x = 0) : lanewise w f x x = 0 :=
  ofLanes_zero fun _ => h _

theorem lanewise_right (hw : 0 < w) (h : ∀ x, f x 0 = x) : lanewise w f x 0 = x :=
  ofLanes_eq_self hw fun i => by rw [lane_zero]; exact h _

theorem lanewise_left (hw : 0 < w) (h : ∀ x, f 0 x = x) : lanewise w f 0 x = x :=
  ofLanes_eq_self hw fun i => by rw [lane_zero]; exact h _

theorem average_self (x : BitVec w) : BitVec.ofNat w ((x.toNat + x.toNat + 1) / 2) = x := by
  apply eq_of_toNat_eq
  rw [toNat_ofNat, show (x.toNat + x.toNat + 1) / 2 = x.toNat by omega,
    Nat.mod_eq_of_lt x.isLt]

attribute [local simp] PackedOp.apply

theorem apply_idempotent (h : idempotent op = true) : op.apply x x = x := by
  simp only [idempotent, List.mem_cons, List.not_mem_nil, or_false, decide_eq_true_eq] at h
  rcases h with rfl | rfl | rfl | rfl | rfl | rfl | rfl | rfl <;> simp only [PackedOp.apply]
  · exact BitVec.and_self
  · exact BitVec.or_self
  iterate 4 exact lanewise_self (by decide) fun _ => ite_self _
  all_goals exact lanewise_self (by decide) average_self

theorem apply_cancels (h : cancels (.vectorBinary op) = true) : op.apply x x = 0 := by
  simp only [cancels, List.mem_cons, List.not_mem_nil, or_false, decide_eq_true_eq] at h
  rcases h with rfl | rfl | rfl | rfl | rfl | rfl <;> simp only [PackedOp.apply]
  · exact BitVec.xor_self
  · rw [BitVec.and_comm, BitVec.and_not_self]
  all_goals exact lanewise_zero fun _ => BitVec.sub_self _

theorem apply_rightNeutral (h : rightNeutral op = true) : op.apply x 0 = x := by
  simp only [rightNeutral, List.mem_cons, List.not_mem_nil, or_false, decide_eq_true_eq] at h
  rcases h with rfl | rfl | rfl | rfl | rfl | rfl | rfl | rfl | rfl | rfl <;> simp only [PackedOp.apply]
  · exact or_zero
  · exact xor_zero
  iterate 4 exact lanewise_right (by decide) fun _ => BitVec.add_zero _
  all_goals exact lanewise_right (by decide) fun _ => BitVec.sub_zero _

theorem apply_leftNeutral (h : leftNeutral op = true) : op.apply 0 y = y := by
  simp only [leftNeutral, List.mem_cons, List.not_mem_nil, or_false, decide_eq_true_eq] at h
  rcases h with rfl | rfl | rfl | rfl | rfl | rfl <;> simp only [PackedOp.apply]
  · exact zero_or
  · exact BitVec.zero_xor
  all_goals exact lanewise_left (by decide) fun _ => BitVec.zero_add _

theorem not_zero_and (y : BitVec w) : ~~~(0 : BitVec w) &&& y = y := by
  ext i
  simp

theorem apply_andNot_zero : PackedOp.apply .andNot 0 y = y := by
  simp only [PackedOp.apply]
  exact not_zero_and y

/-- Writing a lane back changes nothing. -/
theorem replaceLane_extractLane (hpos : 0 < bits) (hle : bits ≤ 128) :
    replaceLane bits i x (extractLane bits i x) = x := by
  refine ofLanes_eq_self hpos fun j => ?_
  split
  · next h => rw [h, extractLane, setWidth_setWidth_of_le _ hle, setWidth_eq]
  · rfl

/-- A lane that was written can be read. -/
theorem extractLane_replaceLane (h : (i + 1) * bits ≤ 128) :
    extractLane bits i (replaceLane bits i x y) = (y.setWidth bits).setWidth 128 := by
  rw [extractLane, replaceLane, lane_ofLanes h, if_pos rfl]

/-- The bytes of a shuffle. -/
theorem lane_shuffleBytes {s : Nat} (hs : mask.toList[i]? = some s) :
    lane 8 (shuffleBytes mask x y) i = lane 8 (if s / 16 = 0 then x else y) (s % 16) := by
  have hi := (List.getElem?_eq_some_iff.1 hs).1
  rw [Vector.length_toList] at hi
  rw [shuffleBytes, lane_ofLanes (by omega), List.getD_eq_getElem?_getD, hs]
  rfl

/-- A vector with the bytes of a shuffle is the shuffle. -/
theorem eq_shuffleBytes {z : Val} (h : ∀ i s, mask.toList[i]? = some s →
      lane 8 z i = lane 8 (if s / 16 = 0 then x else y) (s % 16)) : z = shuffleBytes mask x y := by
  rw [← ofLanes_lane (w := 8) (by decide) z]
  refine ofLanes_congr fun i hi => ?_
  obtain ⟨s, hs⟩ := exists_get (l := mask.toList) (i := i) (by rw [Vector.length_toList]; omega)
  rw [h i s hs, List.getD_eq_getElem?_getD, hs]
  rfl

end

/-! ## Chains of aliases -/

section
variable {r : Region} {aliases : List ValueId} {u v w : ValueId}

/-- The aliases of a value lead to another one. -/
def Leads (aliases : List ValueId) : ValueId → ValueId → Prop :=
  Relation.ReflTransGen fun x y => aliases[x]? = some y

/-- A table of aliases that may be followed. -/
structure Aliases (r : Region) (aliases : List ValueId) : Prop where
  length : aliases.length = r.values.length
  lt : ∀ {v w : ValueId}, aliases[v]? = some w → w < r.values.length
  rep : ∀ {v w : ValueId}, aliases[v]? = some w → Replaces r w v

theorem Aliases.replaces (hwf : WF r) (h : Aliases r aliases) (hl : Leads aliases v w) :
    Replaces r w v := by
  induction hl with
  | refl => exact .refl r v
  | tail _ hstep ih => exact (h.rep hstep).trans hwf ih

theorem Aliases.get (h : Aliases r aliases) (hv : v < r.values.length) :
    ∃ w, aliases[v]? = some w := exists_get (h.length ▸ hv)

theorem spend_sat {work n : Nat} :
    Sat (· = exceeded) (spend exceeded work n) fun w => n ≤ work ∧ w = work - n :=
  (Sat.spend (E := (· = exceeded)) rfl).mono fun _ h _ => spend_eq_ok.1 h

theorem resolve_sat (h : Aliases r aliases) (hv : v < r.values.length) (work : Nat) :
    Sat (· = exceeded) (resolve v aliases work) fun p =>
      Leads aliases v p.1 ∧ aliases[p.1]? = some p.1 := by
  refine Sat.loop (I := fun s : ValueId × Nat => s.1 < r.values.length ∧ Leads aliases v s.1)
    (fun s => s.2) (fun s ⟨hlt, hs⟩ => ?_) ⟨hv, Relation.ReflTransGen.refl⟩ (Nat.lt_succ_self _)
  obtain ⟨next, hnext⟩ := h.get hlt
  refine spend_sat.bind fun work _ hwork => ?_
  rw [idx_eq_ok.2 hnext, ok_bind]
  by_cases heq : next = s.1
  · rw [if_pos heq]
    exact Sat.ok ⟨hs, by rw [hnext, heq]⟩
  · rw [if_neg heq]
    exact Sat.ok ⟨⟨h.lt hnext, hs.tail hnext⟩, by dsimp only; omega⟩

theorem resolveArgs_sat (h : Aliases r aliases) : ∀ {args : List ValueId} (work : Nat),
    (∀ a ∈ args, a < r.values.length) → Sat (· = exceeded) (resolveArgs aliases args work) fun p =>
      List.Forall₂ (Leads aliases) args p.1
  | [], _, _ => Sat.ok .nil
  | a :: args, work, hlt => by
    refine (resolve_sat h (hlt a (by simp)) work).bind fun p _ hp => ?_
    refine (resolveArgs_sat h p.2 fun a ha => hlt a (by simp [ha])).bind fun q _ hq => ?_
    exact Sat.ok (.cons hp.1 hq)

/-- A chain stays when a value without an alias gets one. -/
theorem Leads.set (hl : Leads aliases v w) (hu : aliases[u]? = some u) (x : ValueId) :
    Leads (aliases.set u x) v w := by
  induction hl with
  | refl => exact .refl
  | @tail y z _ hstep ih =>
    by_cases hy : u = y
    · subst hy
      cases hu.symm.trans hstep
      exact ih
    · exact ih.tail (by rwa [List.getElem?_set_ne hy])

end

/-! ## The draft -/

section
variable {r : Region} {aliases : List ValueId} {insts : List Instruction} {b d : BlockId}
  {blk dblk : Block} {pre pre' post : List InstId} {id : InstId} {inst inst' : Instruction}
  {u v w : ValueId} {e : Env}

/-- A listed instruction at its place. -/
structure Site (r : Region) (b : BlockId) (blk : Block) (pre post : List InstId) (id : InstId)
    (inst : Instruction) : Prop where
  block : r.blocks[b]? = some blk
  split : blk.instructions = pre ++ id :: post
  get : r.instructions[id]? = some inst

theorem Site.mem (h : Site r b blk pre post id inst) : id ∈ blk.instructions := by simp [h.split]

theorem Site.prefix_ (h : Site r b blk pre post id inst) : pre <+: blk.instructions :=
  ⟨_, h.split.symm⟩

/-- The instructions of the draft compute what those of the region compute. -/
structure Draft (r : Region) (aliases : List ValueId) (insts : List Instruction) : Prop where
  length : insts.length = r.instructions.length
  inst : ∀ {id : InstId} {inst : Instruction}, r.instructions[id]? = some inst →
    ∃ op args, insts[id]? = some { inst with op := op, args := args } ∧
      (op = inst.op ∧ List.Forall₂ (Leads aliases) inst.args args ∨
        inst.op.pure = true ∧ ∃ v, inst.results = [v] ∧
          ∀ {b : BlockId} {blk : Block} {pre post : List InstId}, Site r b blk pre post id inst →
            Computes r b pre op args v)

/-- A pure instruction of the region is one of the draft that computes its value. -/
theorem Draft.computes_of_pure (hwf : WF r) (ha : Aliases r aliases) (h : Draft r aliases insts)
    (hs : Site r b blk pre post id inst) (hget : insts[id]? = some inst')
    (hpure : inst.op.pure = true) (hres : inst.results = [v]) :
    Computes r b pre inst'.op inst'.args v := by
  obtain ⟨op, args, hget', hcase⟩ := h.inst hs.get
  cases hget.symm.trans hget'
  rcases hcase with ⟨rfl, hargs⟩ | ⟨_, v', hres', hc⟩
  · exact (Computes.of_inst hwf hs.block hs.split hs.get hpure hres).replace hwf hs.block hs.split
      hs.get (by simp [hres]) (hargs.imp fun _ _ hl => ha.replaces hwf hl)
  · cases hres.symm.trans hres'
    exact hc hs

theorem Draft.original_pure (h : Draft r aliases insts) (hinst : r.instructions[id]? = some inst)
    (hget : insts[id]? = some inst') (hpure : inst'.op.pure = true) : inst.op.pure = true := by
  obtain ⟨op, args, hget', hcase⟩ := h.inst hinst
  cases hget.symm.trans hget'
  exact hcase.elim (fun hop => hop.1 ▸ hpure) fun hc => hc.1

theorem Draft.computes (hwf : WF r) (ha : Aliases r aliases) (h : Draft r aliases insts)
    (hs : Site r b blk pre post id inst) (hget : insts[id]? = some inst')
    (hpure : inst'.op.pure = true) (hres : inst'.results = [v]) :
    Computes r b pre inst'.op inst'.args v := by
  obtain ⟨op, args, hget', _⟩ := h.inst hs.get
  have hres' : inst.results = [v] := by
    cases hget.symm.trans hget'
    exact hres
  exact h.computes_of_pure hwf ha hs hget (h.original_pure hs.get hget hpure) hres'

/-- The definition of an available value in the draft. -/
theorem Draft.definition_gives (hwf : WF r) (h : Draft r aliases insts)
    (hb : r.blocks[b]? = some blk) (hpre : pre <+: blk.instructions) (hu : Avail r b pre u) :
    Gives (Region.definition { r with instructions := insts } u) fun o => ∀ inner, o = some inner →
      ∃ (d : BlockId) (dblk : Block) (pre' post' : List InstId) (id' : InstId) (inst : Instruction),
        Site r d dblk pre' post' id' inst ∧ insts[id']? = some inner ∧
        inner.results = inst.results ∧ u ∈ inst.results := by
  obtain ⟨d, dblk, hd, hdef⟩ := DefsOk.definedIn_of_avail hb hpre hu
  rcases hdef with hparam | ⟨id, inst, hid, hinst, hres⟩
  · obtain ⟨ty, k, _, hslot⟩ := hwf.param_slot hd hparam
    exact ⟨none, by simp [Region.definition, idx_eq_ok.2 hslot], fun _ h => by cases h⟩
  · obtain ⟨ty, k, _, hslot⟩ := hwf.result_slot hd hid hinst hres
    obtain ⟨pre', post', hsplit⟩ := List.append_of_mem hid
    obtain ⟨op, args, hget, _⟩ := h.inst hinst
    refine ⟨some _, by simp [Region.definition, idx_eq_ok.2 hslot, idx_eq_ok.2 hget]; rfl, ?_⟩
    rintro inner ⟨⟩
    exact ⟨d, dblk, pre', post', id, inst, ⟨hd, hsplit, hinst⟩, hget, rfl, hres⟩

/-- The instruction that defines an available value in the draft, with what it computes. -/
structure Defines (r : Region) (b : BlockId) (pre : List InstId) (u : ValueId) (op : Op)
    (args : List ValueId) : Prop where
  sig : op.Sig (args.map r.ty) (r.ty u)
  avail : ∀ a ∈ args, Avail r b pre a
  value : ∀ {d : BlockId} {pre' : List InstId} {e : Env}, r.At d pre' e → Avail r d pre' u →
    e u = op.eval (args.map r.ty) (r.ty u) (args.map e) ∧ ∀ a ∈ args, Avail r d pre' a

theorem plain_results (h : plain inst = true) : inst.results.length = 1 := by
  simp only [plain, Bool.and_eq_true, decide_eq_true_eq] at h
  exact h.1.1.1.1

/-- Every test of `Simd` for the operation of a definition holds of the definition's value. -/
theorem Draft.defines_gives (hwf : WF r) (ha : Aliases r aliases) (h : Draft r aliases insts)
    (hb : r.blocks[b]? = some blk) (hpre : pre <+: blk.instructions) (hu : Avail r b pre u) :
    Gives (Region.definition { r with instructions := insts } u) fun o => ∀ inner, o = some inner →
      plain inner = true → inner.op.pure = true → Defines r b pre u inner.op inner.args := by
  refine (h.definition_gives hwf hb hpre hu).mono fun o ho inner hinner hplain hpure => ?_
  obtain ⟨d, dblk, pre', post', id', inst, hs, hget, hres, hmem⟩ := ho inner hinner
  obtain ⟨x, hx⟩ := List.length_eq_one_iff.1 (plain_results hplain)
  obtain rfl : u = x := by simpa [← hres, hx] using hmem
  have hc := h.computes hwf ha hs hget hpure hx
  refine ⟨hc.sig, fun a harg => ?_, fun {d' pre'' e} hat hav => ⟨hc.value hat hav, fun a harg => ?_⟩⟩
  · exact hc.arg hwf hs.block hs.split hs.get hmem hb hpre hu harg
  · obtain ⟨⟨dblk', hd', hpre'⟩, _⟩ := hat.sound hwf
    exact hc.arg hwf hs.block hs.split hs.get hmem hd' hpre' hav harg

theorem zero_gives (hwf : WF r) (ha : Aliases r aliases) (h : Draft r aliases insts)
    (hb : r.blocks[b]? = some blk) (hpre : pre <+: blk.instructions) (hu : Avail r b pre u) :
    Gives (zero { r with instructions := insts } u) fun z => z = true →
      ∀ {d : BlockId} {pre' : List InstId} {e : Env}, r.At d pre' e → Avail r d pre' u →
        e u = 0 := by
  refine (h.defines_gives hwf ha hb hpre hu).bind fun o ho => ?_
  cases o with
  | none => exact .ok nofun
  | some inner =>
    dsimp only
    split
    · next hcond =>
      simp only [Bool.and_eq_true, decide_eq_true_eq] at hcond
      obtain ⟨a, a', haa⟩ := List.length_eq_two.1 hcond.2
      rw [haa, idx_cons_zero, ok_bind, idx_cons_succ, idx_cons_zero, ok_bind]
      refine .ok fun hz d pre' e hat hav => ?_
      simp only [Bool.and_eq_true, decide_eq_true_eq] at hz
      obtain ⟨rfl, hop⟩ := hz
      match hbin : inner.op, hop with
      | .vectorBinary op, hop =>
        have hd := ho inner rfl hcond.1 (by rw [hbin]; rfl)
        rw [(hd.value hat hav).1, hbin, haa]
        exact apply_cancels hop
    · exact .ok nofun

/-- What may replace the value of an instruction. -/
def Found (r : Region) (b : BlockId) (pre : List InstId) (v : ValueId) (o : Option ValueId) : Prop :=
  ∀ w, o = some w → Replaces r w v ∧ Avail r b pre w

theorem Found.none : Found r b pre v none := fun _ h => by cases h

theorem Found.some (h : Replaces r w v) (hw : Avail r b pre w) : Found r b pre v (some w) := by
  rintro _ ⟨⟩
  exact ⟨h, hw⟩

variable {x y : ValueId} {mask next : Vector Nat 16} {args table : List ValueId}
  {done : List (BlockId × InstId)} {s : State} {n : Nat}

theorem identityBinary_gives (hwf : WF r) (ha : Aliases r aliases) (h : Draft r aliases insts)
    (hs : Site r b blk pre post id inst) (hres : v ∈ inst.results) {op : PackedOp}
    (hc : Computes r b pre (.vectorBinary op) [x, y] v) :
    Gives (identityBinary { r with instructions := insts } op x y) (Found r b pre v) := by
  obtain ⟨htys, hty⟩ := hc.sig
  simp only [List.map_cons, List.map_nil, List.cons.injEq, and_true] at htys
  have hx := hc.avail x (by simp)
  have hy := hc.avail y (by simp)
  have hargs : ∀ {d : BlockId} {pre' : List InstId} {e : Env}, r.At d pre' e → Avail r d pre' v →
      Avail r d pre' x ∧ Avail r d pre' y := by
    intro d pre' e hat hv
    obtain ⟨⟨dblk, hd, hpre'⟩, _⟩ := hat.sound hwf
    exact ⟨hc.arg hwf hs.block hs.split hs.get hres hd hpre' hv (by simp),
      hc.arg hwf hs.block hs.split hs.get hres hd hpre' hv (by simp)⟩
  -- an operand that is always equal to the result
  have hleft : (∀ {d : BlockId} {pre' : List InstId} {e : Env}, r.At d pre' e → Avail r d pre' v →
      e x = op.apply (e x) (e y)) → Found r b pre v (some x) := fun heq =>
    .some (hc.replaces hwf hs.block hs.split hs.get hres (htys.1.trans hty.symm) hx heq) hx
  have hright : (∀ {d : BlockId} {pre' : List InstId} {e : Env}, r.At d pre' e → Avail r d pre' v →
      e y = op.apply (e x) (e y)) → Found r b pre v (some y) := fun heq =>
    .some (hc.replaces hwf hs.block hs.split hs.get hres (htys.2.trans hty.symm) hy heq) hy
  unfold identityBinary
  split
  · next hcond =>
    simp only [Bool.and_eq_true, decide_eq_true_eq] at hcond
    obtain ⟨rfl, hop⟩ := hcond
    exact .ok (hleft fun _ _ => (apply_idempotent hop).symm)
  refine (zero_gives hwf ha h hs.block hs.prefix_ hy).bind fun zb hzb => ?_
  split
  · next hcond =>
    simp only [Bool.and_eq_true] at hcond
    refine .ok (hleft fun hat hv => ?_)
    rw [hzb hcond.1 hat (hargs hat hv).2, apply_rightNeutral hcond.2]
  refine (zero_gives hwf ha h hs.block hs.prefix_ hx).bind fun za hza => ?_
  split
  · next hcond =>
    simp only [Bool.and_eq_true] at hcond
    refine .ok (hright fun hat hv => ?_)
    rw [hza hcond.1 hat (hargs hat hv).1, apply_leftNeutral hcond.2]
  split
  · next hcond =>
    simp only [Bool.and_eq_true, Bool.or_eq_true, decide_eq_true_eq] at hcond
    obtain ⟨rfl, hz⟩ := hcond
    refine .ok (hright fun hat hv => ?_)
    rcases hz with hz | hz
    · rw [hza hz hat (hargs hat hv).1]
      exact apply_andNot_zero.symm
    · rw [hzb hz hat (hargs hat hv).2]
      simp [PackedOp.apply]
  split
  · next hcond =>
    simp only [Bool.and_eq_true, decide_eq_true_eq] at hcond
    obtain ⟨rfl, hz⟩ := hcond
    refine .ok (hleft fun hat hv => ?_)
    rw [hza hz hat (hargs hat hv).1]
    simp [PackedOp.apply]
  split
  · next hcond =>
    simp only [Bool.and_eq_true, decide_eq_true_eq] at hcond
    obtain ⟨rfl, hz⟩ := hcond
    refine .ok (hright fun hat hv => ?_)
    rw [hzb hz hat (hargs hat hv).2]
    simp [PackedOp.apply]
  · exact .ok .none

section
variable (hwf : WF r) (ha : Aliases r aliases) (h : Draft r aliases insts)
  (hs : Site r b blk pre post id inst) (hget : insts[id]? = some inst')
  (hres : inst'.results = [v]) (hmem : v ∈ inst.results)
include hwf ha h hs hget hres hmem

/-- Where the result is available, so are the operands. -/
theorem Draft.args_avail (hpure : inst'.op.pure = true) {d : BlockId} {pre' : List InstId} {e : Env}
    (hat : r.At d pre' e) (hv : Avail r d pre' v) : ∀ a ∈ inst'.args, Avail r d pre' a := by
  intro a harg
  obtain ⟨⟨dblk, hd, hpre'⟩, _⟩ := hat.sound hwf
  exact (h.computes hwf ha hs hget hpure hres).arg hwf hs.block hs.split hs.get hmem hd hpre' hv harg

/-- A lane that is replaced by itself. -/
theorem identity_replace {bits lane : Nat} (hop : inst'.op = .vectorReplace bits lane) :
    Gives (identity { r with instructions := insts } inst') (Found r b pre v) := by
  have hpure : inst'.op.pure = true := by rw [hop]; rfl
  have hc := h.computes hwf ha hs hget hpure hres
  have hargs := fun {d pre' e} (hat : r.At d pre' e) =>
    h.args_avail hwf ha hs hget hres hmem hpure hat
  rw [hop] at hc
  obtain ⟨hbits, _, htys, hty⟩ := hc.sig
  obtain ⟨x, y, hxy, hx, hy⟩ := map_eq_pair htys
  rw [hxy] at hc hargs
  rw [identity, hop]
  dsimp only
  rw [hxy, idx_cons_succ, idx_cons_zero, ok_bind]
  refine (h.defines_gives hwf ha hs.block hs.prefix_ (hc.avail y (by simp))).bind fun o ho => ?_
  cases o with
  | none => exact .ok .none
  | some scalar =>
    dsimp only
    split
    · next hcond =>
      simp only [Bool.and_eq_true, decide_eq_true_eq] at hcond
      have hd := ho scalar rfl hcond.1 (by rw [hcond.2]; rfl)
      rw [hcond.2] at hd
      obtain ⟨z, hz, _⟩ := List.map_eq_singleton_iff.1 hd.sig.2.2.1
      rw [hz] at hd
      rw [idx_cons_zero, ok_bind, hz, idx_cons_zero, ok_bind]
      refine .ok ?_
      split
      · next hzx =>
        subst hzx
        refine .some (hc.replaces hwf hs.block hs.split hs.get hmem (hx.trans hty.symm)
          (hc.avail z (by simp)) fun {d pre' e} hat hv => ?_) (hc.avail z (by simp))
        have hyv := (hd.value hat (hargs hat hv y (by simp))).1
        change e z = replaceLane bits lane (e z) (e y)
        rw [hyv]
        have hb : 0 < bits ∧ bits ≤ 128 := by
          simp only [List.mem_cons, List.not_mem_nil, or_false] at hbits
          omega
        exact (replaceLane_extractLane hb.1 hb.2).symm
      · exact .none
    · exact .ok .none

/-- A lane that was put there just before. -/
theorem identity_extract {bits lane : Nat} (hop : inst'.op = .vectorExtract bits lane) :
    Gives (identity { r with instructions := insts } inst') (Found r b pre v) := by
  have hpure : inst'.op.pure = true := by rw [hop]; rfl
  have hc := h.computes hwf ha hs hget hpure hres
  have hargs := fun {d pre' e} (hat : r.At d pre' e) =>
    h.args_avail hwf ha hs hget hres hmem hpure hat
  rw [hop] at hc
  obtain ⟨_, hlane, htys, hty⟩ := hc.sig
  obtain ⟨x, hx, _⟩ := List.map_eq_singleton_iff.1 htys
  rw [hx] at hc hargs
  rw [identity, hop]
  dsimp only
  split
  · next hbits =>
    rw [hx, idx_cons_zero, ok_bind]
    refine (h.defines_gives hwf ha hs.block hs.prefix_ (hc.avail x (by simp))).bind fun o ho => ?_
    cases o with
    | none => exact .ok .none
    | some vector =>
      dsimp only
      split
      · next hcond =>
        simp only [Bool.and_eq_true, decide_eq_true_eq] at hcond
        have hd := ho vector rfl hcond.1 (by rw [hcond.2]; rfl)
        rw [hcond.2] at hd
        obtain ⟨y, z, hyz, _, hz⟩ := map_eq_pair hd.sig.2.2.1
        rw [hyz] at hd
        rw [hyz, idx_cons_succ, idx_cons_zero, ok_bind]
        have hav := hd.avail z (by simp)
        refine .ok (.some (hc.replaces hwf hs.block hs.split hs.get hmem (hz.trans hty.symm) hav
          fun {d pre' e} hat hv => ?_) hav)
        obtain ⟨hxv, hzav⟩ := hd.value hat (hargs hat hv x (by simp))
        have hfits := (hat.sound hwf).2.fits (hzav z (by simp))
        change e z = extractLane bits lane (e x)
        rw [hxv]
        change e z = extractLane bits lane (replaceLane bits lane (e y) (e z))
        rw [hz] at hfits
        simp only [Bool.or_eq_true, decide_eq_true_eq] at hbits
        rcases hbits with rfl | rfl
        · rw [extractLane_replaceLane (by omega)]
          exact hfits.symm
        · rw [extractLane_replaceLane (by omega)]
          exact hfits.symm
      · exact .ok .none
  · exact .ok .none

/-- What `identity` finds has the value of the result. -/
theorem identity_gives : Gives (identity { r with instructions := insts } inst') (Found r b pre v) := by
  cases hop : inst'.op with
  | vectorBinary op =>
    have hc := h.computes hwf ha hs hget (by rw [hop]; rfl) hres
    rw [hop] at hc
    obtain ⟨x, y, hxy, _, _⟩ := map_eq_pair hc.sig.1
    rw [hxy] at hc
    rw [identity, hop, hxy]
    exact identityBinary_gives hwf ha h hs hmem hc
  | vectorReplace bits lane => exact identity_replace hwf ha h hs hget hres hmem hop
  | vectorExtract bits lane => exact identity_extract hwf ha h hs hget hres hmem hop
  | _ =>
    rw [identity, hop]
    exact .ok .none

end

/-! ## Shuffles -/

/-- The byte `offset` of `w` is the byte `from` of `u`, wherever `u` is available. -/
structure SameByte (r : Region) (b : BlockId) (pre : List InstId) (u : ValueId) (i : Nat)
    (w : ValueId) (offset : Nat) : Prop where
  avail : Avail r b pre w
  ty : r.ty w = .v128
  lt : offset < 16
  byte : ∀ {d : BlockId} {pre' : List InstId} {e : Env}, r.At d pre' e → Avail r d pre' u →
    lane 8 (e w) offset = lane 8 (e u) i

theorem leaf_gives (hwf : WF r) (ha : Aliases r aliases) (h : Draft r aliases insts)
    (hb : r.blocks[b]? = some blk) (hpre : pre <+: blk.instructions) (hu : Avail r b pre u)
    (hty : r.ty u = .v128) {i : Nat} (hi : i < 16) :
    Gives (leaf { r with instructions := insts } u i) fun p => SameByte r b pre u i p.1 p.2 := by
  have hself : SameByte r b pre u i u i := ⟨hu, hty, hi, fun _ _ => rfl⟩
  refine (h.defines_gives hwf ha hb hpre hu).bind fun o ho => ?_
  cases o with
  | none => exact .ok hself
  | some inner =>
    dsimp only
    split
    · next hplain =>
      split
      · next lanes hop =>
        have hd := ho inner rfl hplain (by rw [hop]; rfl)
        rw [hop] at hd
        obtain ⟨htys, _, hlanes⟩ := hd.sig
        obtain ⟨x, y, hxy, hx, hy⟩ := map_eq_pair htys
        rw [hxy] at hd
        obtain ⟨s, hs⟩ := exists_get (l := lanes.toList) (i := i) (by rw [Vector.length_toList]; exact hi)
        have hlt := hlanes s (List.mem_of_getElem? hs)
        rw [idx_eq_ok.2 hs, ok_bind, hxy]
        have hbyte : ∀ {d : BlockId} {pre' : List InstId} {e : Env}, r.At d pre' e →
            Avail r d pre' u →
            lane 8 (e u) i = lane 8 (if s / 16 = 0 then e x else e y) (s % 16) := by
          intro d pre' e hat hav
          rw [(hd.value hat hav).1]
          exact lane_shuffleBytes hs
        by_cases hz : s / 16 = 0
        · rw [hz, idx_cons_zero, ok_bind]
          refine .ok ⟨hd.avail x (by simp), hx, Nat.mod_lt _ (by decide), fun hat hav => ?_⟩
          rw [hbyte hat hav, if_pos hz]
        · rw [show s / 16 = 0 + 1 by omega, idx_cons_succ, idx_cons_zero, ok_bind]
          refine .ok ⟨hd.avail y (by simp), hy, Nat.mod_lt _ (by decide), fun hat hav => ?_⟩
          rw [hbyte hat hav, if_neg hz]
      · exact .ok hself
    · exact .ok hself

/-- The leaves and the bytes for a part of a mask. -/
structure Leaves (r : Region) (b : BlockId) (pre : List InstId) (x y : ValueId) (done : List Nat)
    (leaves : List ValueId) (output : List Nat) : Prop where
  length : output.length = done.length
  short : leaves.length ≤ 2
  nonempty : done ≠ [] → leaves ≠ []
  leaf : ∀ l ∈ leaves, Avail r b pre l ∧ r.ty l = .v128
  byte : ∀ {i s : Nat}, done[i]? = some s → ∃ p offset w, output[i]? = some (p * 16 + offset) ∧
    leaves[p]? = some w ∧ SameByte r b pre (if s / 16 = 0 then x else y) (s % 16) w offset

theorem shuffleFrom_gives (hwf : WF r) (ha : Aliases r aliases) (h : Draft r aliases insts)
    (hb : r.blocks[b]? = some blk) (hpre : pre <+: blk.instructions) {x y : ValueId}
    (hargs : inst'.args = [x, y]) (hx : Avail r b pre x ∧ r.ty x = .v128)
    (hy : Avail r b pre y ∧ r.ty y = .v128) :
    ∀ {mask : List Nat} (done : List Nat) {leaves : List ValueId} {output : List Nat}, (∀ s ∈ mask, s < 32) →
      Leaves r b pre x y done leaves output →
      Gives (shuffleFrom { r with instructions := insts } inst' mask leaves output) fun o =>
        ∀ p, o = some p → Leaves r b pre x y (done ++ mask) p.1 p.2
  | [], done, leaves, output, _, hl => by
    refine .ok fun p hp => ?_
    cases hp
    rwa [List.append_nil]
  | s :: mask, done, leaves, output, hmask, hl => by
    have hlt := hmask s (by simp)
    have hsource : idx inst'.args (s / 16) = .ok (if s / 16 = 0 then x else y) := by
      rw [hargs]
      by_cases hz : s / 16 = 0
      · rw [hz, if_pos rfl]
        rfl
      · rw [if_neg hz, show s / 16 = 1 by omega]
        rfl
    have hav : Avail r b pre (if s / 16 = 0 then x else y) ∧
        r.ty (if s / 16 = 0 then x else y) = .v128 := by
      split
      · exact hx
      · exact hy
    rw [shuffleFrom, hsource, ok_bind]
    refine (leaf_gives hwf ha h hb hpre hav.1 hav.2 (Nat.mod_lt s (by decide))).bind fun q hq => ?_
    obtain ⟨w, offset⟩ := q
    dsimp only at hq ⊢
    -- the leaves with `w` among them
    generalize hleaves : (if w ∈ leaves then leaves else leaves ++ [w]) = leaves'
    have hmem : w ∈ leaves' := by
      rw [← hleaves]
      split
      · assumption
      · simp
    have hkeep : ∀ {p : Nat} {l : ValueId}, leaves[p]? = some l → leaves'[p]? = some l := by
      intro p l hp
      rw [← hleaves]
      split
      · exact hp
      · rw [List.getElem?_append_left (List.getElem?_eq_some_iff.1 hp).1]
        exact hp
    have hget : leaves'[leaves'.idxOf w]? = some w := by
      rw [List.getElem?_eq_getElem (List.idxOf_lt_length_of_mem hmem), List.getElem_idxOf]
    split
    · exact .ok fun _ h => by cases h
    · next hpos =>
      refine (shuffleFrom_gives hwf ha h hb hpre hargs hx hy (done ++ [s])
        (fun t ht => hmask t (by simp [ht])) ⟨by simp [hl.length], ?_, fun _ hnil => ?_, ?_, ?_⟩).mono
        fun o ho p hp => by simpa using ho p hp
      · by_contra hlong
        have hnew : w ∉ leaves := by
          intro hw
          rw [if_pos hw] at hleaves
          exact hlong (hleaves ▸ hl.short)
        rw [if_neg hnew] at hleaves
        subst hleaves
        rw [List.length_append, List.length_singleton] at hlong
        rw [List.idxOf_append_of_notMem hnew, List.idxOf_cons_self] at hpos
        omega
      · rw [hnil] at hmem
        cases hmem
      · intro l hlmem
        rw [← hleaves] at hlmem
        split at hlmem
        · exact hl.leaf l hlmem
        · rcases List.mem_append.1 hlmem with hlmem | hlmem
          · exact hl.leaf l hlmem
          · cases List.mem_singleton.1 hlmem
            exact ⟨hq.avail, hq.ty⟩
      · intro i t hi
        rcases Nat.lt_or_ge i done.length with hlt | hge
        · rw [List.getElem?_append_left hlt] at hi
          obtain ⟨p, off, l, h1, h2, h3⟩ := hl.byte hi
          refine ⟨p, off, l, ?_, hkeep h2, h3⟩
          rw [List.getElem?_append_left (by rw [hl.length]; exact hlt)]
          exact h1
        · rw [List.getElem?_append_right hge] at hi
          obtain ⟨hzero, rfl⟩ : i - done.length = 0 ∧ s = t := by
            obtain ⟨h1, h2⟩ := List.getElem?_eq_some_iff.1 hi
            simp only [List.length_singleton] at h1
            exact ⟨by omega, by simpa using h2⟩
          refine ⟨leaves'.idxOf w, offset, w, ?_, hget, hq⟩
          rw [List.getElem?_append_right (by rw [hl.length]; exact hge), hl.length, hzero]
          rfl

/-- The operands and the mask that `shuffle` finds give the value of the shuffle. -/
structure Composed (r : Region) (b : BlockId) (pre : List InstId) (mask : Vector Nat 16)
    (x y : ValueId) (args : List ValueId) (next : Vector Nat 16) : Prop where
  args : ∃ x' y', args = [x', y'] ∧ (Avail r b pre x' ∧ r.ty x' = .v128) ∧
    (Avail r b pre y' ∧ r.ty y' = .v128) ∧
    ∀ {i s : Nat}, mask.toList[i]? = some s → ∃ t, next.toList[i]? = some t ∧ t < 32 ∧
      SameByte r b pre (if s / 16 = 0 then x else y) (s % 16) (if t / 16 = 0 then x' else y') (t % 16)

theorem shuffle_gives (hwf : WF r) (ha : Aliases r aliases) (h : Draft r aliases insts)
    (hb : r.blocks[b]? = some blk) (hpre : pre <+: blk.instructions) (hargs : inst'.args = [x, y])
    (hx : Avail r b pre x ∧ r.ty x = .v128) (hy : Avail r b pre y ∧ r.ty y = .v128)
    (hmask : ∀ s ∈ mask.toList, s < 32) :
    Gives (shuffle { r with instructions := insts } inst' mask) fun o =>
      ∀ p, o = some p → Composed r b pre mask x y p.1 p.2 := by
  refine (shuffleFrom_gives hwf ha h hb hpre hargs hx hy [] hmask
    ⟨rfl, Nat.zero_le _, fun h => absurd rfl h, by simp, fun h => by cases h⟩).bind fun o ho => ?_
  cases o with
  | none => exact .ok fun _ h => by cases h
  | some p =>
    obtain ⟨leaves, output⟩ := p
    have hl := ho _ rfl
    rw [List.nil_append] at hl
    dsimp only at hl ⊢
    have hlen : output.length = 16 := by rw [hl.length, Vector.length_toList]
    have hnext : ∀ {i t : Nat}, output[i]? = some t →
        (Vector.ofFn (n := 16) fun n => output.getD n 0).toList[i]? = some t := by
      intro i t hi
      have hlt := (List.getElem?_eq_some_iff.1 hi).1
      rw [hlen] at hlt
      simp [hlt, hi]
    have hne : leaves ≠ [] := hl.nonempty (by
      intro hnil
      have := congrArg List.length hnil
      simp at this)
    -- one leaf or two
    match leaves, hne, hl.short with
    | [l], _, _ =>
      refine .ok fun p hp => ?_
      cases hp
      refine ⟨l, l, rfl, hl.leaf l (by simp), hl.leaf l (by simp), fun {i s} hs => ?_⟩
      obtain ⟨p, off, w, h1, h2, h3⟩ := hl.byte hs
      have hlt := h3.lt
      obtain ⟨hp, rfl⟩ : p = 0 ∧ l = w := by
        obtain ⟨h4, h5⟩ := List.getElem?_eq_some_iff.1 h2
        simp only [List.length_singleton] at h4
        exact ⟨by omega, by simpa using h5⟩
      subst hp
      refine ⟨_, hnext h1, by omega, ?_⟩
      rw [ite_self, show (0 * 16 + off) % 16 = off by omega]
      exact h3
    | [l, l'], _, _ =>
      refine .ok fun p hp => ?_
      cases hp
      refine ⟨l, l', rfl, hl.leaf l (by simp), hl.leaf l' (by simp), fun {i s} hs => ?_⟩
      obtain ⟨p, off, w, h1, h2, h3⟩ := hl.byte hs
      have hlt := h3.lt
      match p, h2 with
      | 0, h2 =>
        cases h2
        refine ⟨_, hnext h1, by omega, ?_⟩
        rw [if_pos (show (0 * 16 + off) / 16 = 0 by omega), show (0 * 16 + off) % 16 = off by omega]
        exact h3
      | 1, h2 =>
        cases h2
        refine ⟨_, hnext h1, by omega, ?_⟩
        rw [if_neg (show ¬ (1 * 16 + off) / 16 = 0 by omega),
          show (1 * 16 + off) % 16 = off by omega]
        exact h3

/-- The composed shuffle computes the value. -/
theorem Composed.computes (hwf : WF r) (hs : Site r b blk pre post id inst)
    (hres : v ∈ inst.results) (hc : Computes r b pre (.vectorShuffle mask) [x, y] v)
    (h : Composed r b pre mask x y args next) : Computes r b pre (.vectorShuffle next) args v := by
  obtain ⟨x', y', rfl, hx, hy, hbyte⟩ := h.args
  have hv : r.ty v = .v128 := hc.sig.2.1
  refine ⟨⟨by simp [hx.2, hy.2], hv, fun t ht => ?_⟩, ?_, fun {d pre' e} hat hav => ?_⟩
  · obtain ⟨i, hi⟩ := List.mem_iff_getElem?.1 ht
    have hlt := (List.getElem?_eq_some_iff.1 hi).1
    rw [Vector.length_toList] at hlt
    obtain ⟨s, hs⟩ := exists_get (l := mask.toList) (i := i) (by rw [Vector.length_toList]; exact hlt)
    obtain ⟨t', ht', hlt', _⟩ := hbyte hs
    cases hi.symm.trans ht'
    exact hlt'
  · simpa using ⟨hx.1, hy.1⟩
  · obtain ⟨⟨dblk, hd, hpre'⟩, _⟩ := hat.sound hwf
    rw [hc.value hat hav]
    refine eq_shuffleBytes fun i t ht => ?_
    have hlt := (List.getElem?_eq_some_iff.1 ht).1
    rw [Vector.length_toList] at hlt
    obtain ⟨s, hs'⟩ := exists_get (l := mask.toList) (i := i) (by rw [Vector.length_toList]; exact hlt)
    obtain ⟨t', ht', _, hsame⟩ := hbyte hs'
    cases ht.symm.trans ht'
    have hav' : Avail r d pre' (if s / 16 = 0 then x else y) := by
      refine hc.arg hwf hs.block hs.split hs.get hres hd hpre' hav ?_
      split <;> simp
    have hlane := hsame.byte hat hav'
    rw [apply_ite e, apply_ite e] at hlane
    exact (lane_shuffleBytes hs').trans hlane.symm

/-- A composed shuffle that selects the bytes in order is its first operand. -/
theorem Composed.found (hwf : WF r) (hs : Site r b blk pre post id inst) (hres : v ∈ inst.results)
    {a : ValueId} (hc : Computes r b pre (.vectorShuffle mask) [x, y] v)
    (h : Composed r b pre mask x y args next)
    (hid : (next.toList.zipIdx.all fun p => decide (p.1 = p.2)) = true) (ha : args[0]? = some a) :
    Found r b pre v (some a) := by
  have hc' := h.computes hwf hs hres hc
  obtain ⟨x', y', rfl, hx, hy, _⟩ := h.args
  cases ha
  refine .some (hc'.replaces hwf hs.block hs.split hs.get hres (hx.2.trans hc.sig.2.1.symm) hx.1
    fun {d pre' e} hat hav => ?_) hx.1
  refine eq_shuffleBytes fun i t ht => ?_
  have hlt := (List.getElem?_eq_some_iff.1 ht).1
  rw [Vector.length_toList] at hlt
  obtain rfl : t = i := by
    rw [List.all_eq_true] at hid
    have := hid (t, i) (List.mem_iff_getElem?.2 ⟨i, by simp [ht]⟩)
    simpa using this
  rw [if_pos (by omega), Nat.mod_eq_of_lt hlt]

/-! ## The visit -/

theorem Draft.args_lt (hwf : WF r) (ha : Aliases r aliases) (h : Draft r aliases insts)
    (hs : Site r b blk pre post id inst) (hget : insts[id]? = some inst') :
    ∀ a ∈ inst'.args, a < r.values.length := by
  have hav : ∀ {a : ValueId}, Avail r b pre a → a < r.values.length := by
    intro a hav
    obtain ⟨data, hslot, _⟩ := hav.slot hwf hs.block hs.prefix_
    exact (List.getElem?_eq_some_iff.1 hslot).1
  obtain ⟨op, args, hget', hcase⟩ := h.inst hs.get
  cases hget.symm.trans hget'
  rcases hcase with ⟨rfl, hargs⟩ | ⟨_, v, _, hc⟩
  · intro a' ha'
    obtain ⟨k, hk, rfl⟩ := List.mem_iff_getElem.1 ha'
    have hlt : k < inst.args.length := by rw [hargs.length_eq]; exact hk
    obtain ⟨c, c', _, hok⟩ := hwf.instOk hs.block hs.split hs.get
    exact hav ((ha.replaces hwf (hargs.get hlt hk)).avail hs.block hs.prefix_
      (hok.args _ (List.getElem_mem hlt)))
  · exact fun a ha => hav ((hc hs).avail a ha)

/-- An instruction of the draft with its operands resolved. -/
theorem Draft.resolve (hwf : WF r) (ha : Aliases r aliases) (h : Draft r aliases insts)
    (hinst : r.instructions[id]? = some inst) (hget : insts[id]? = some inst')
    (hargs : List.Forall₂ (Leads aliases) inst'.args args) :
    Draft r aliases (insts.set id { inst' with args := args }) := by
  refine ⟨by simpa using h.length, fun {id₁ inst₁} hinst₁ => ?_⟩
  by_cases hid : id = id₁
  · subst hid
    cases hinst.symm.trans hinst₁
    obtain ⟨op, args', hget', hcase⟩ := h.inst hinst
    cases hget.symm.trans hget'
    refine ⟨op, args, List.getElem?_set_self (List.getElem?_eq_some_iff.1 hget).1, ?_⟩
    refine hcase.imp (fun ⟨hop, hargs'⟩ => ⟨hop, ?_⟩) fun ⟨hpure, v, hres, hc⟩ =>
      ⟨hpure, v, hres, fun hs => ?_⟩
    · rw [List.forall₂_iff_get] at hargs hargs' ⊢
      exact ⟨hargs'.1.trans hargs.1, fun i h1 h2 =>
        (hargs'.2 i h1 (hargs'.1 ▸ h1)).trans (hargs.2 i (hargs'.1 ▸ h1) h2)⟩
    · exact (hc hs).replace hwf hs.block hs.split hs.get (by simp [hres])
        (hargs.imp fun _ _ hl => ha.replaces hwf hl)
  · obtain ⟨op, args', hget', hcase⟩ := h.inst hinst₁
    exact ⟨op, args', by rw [List.getElem?_set_ne hid]; exact hget', hcase⟩

/-- An instruction of the draft with another operation that computes its value. -/
theorem Draft.replace (h : Draft r aliases insts) (hs : Site r b blk pre post id inst) (hwf : WF r)
    (hget : insts[id]? = some inst') (hpure : inst.op.pure = true) (hres : inst.results = [v])
    {op : Op} (hc : Computes r b pre op args v) :
    Draft r aliases (insts.set id { inst' with op := op, args := args }) := by
  refine ⟨by simpa using h.length, fun {id₁ inst₁} hinst₁ => ?_⟩
  by_cases hid : id = id₁
  · subst hid
    cases hs.get.symm.trans hinst₁
    obtain ⟨op', args', hget', _⟩ := h.inst hs.get
    cases hget.symm.trans hget'
    refine ⟨op, args, List.getElem?_set_self (List.getElem?_eq_some_iff.1 hget).1,
      .inr ⟨hpure, v, hres, fun {b₁ blk₁ pre₁ post₁} hs₁ => ?_⟩⟩
    -- an instruction stands at one place only
    obtain rfl : b = b₁ := (hwf.inst_block hs.block hs.mem hs.get).symm.trans
      (hwf.inst_block hs₁.block hs₁.mem hs.get)
    cases hs.block.symm.trans hs₁.block
    have hsplit := hs.split.symm.trans hs₁.split
    have hnd := hwf.nodup hs.block
    have hnot : id ∉ post₁ := by
      rw [hs₁.split, List.nodup_append, List.nodup_cons] at hnd
      exact hnd.2.1.1
    obtain ⟨rfl, _⟩ := (List.append_cons_inj_of_notMem (hwf.not_mem_pre hs₁.block hs₁.split)
      hnot).1 hsplit.symm
    exact hc
  · obtain ⟨op', args', hget', hcase⟩ := h.inst hinst₁
    exact ⟨op', args', by rw [List.getElem?_set_ne hid]; exact hget', hcase⟩

/-- What holds during the visit, after the instructions `done`. -/
structure Inv (r : Region) (done : List (BlockId × InstId)) (s : State) : Prop where
  aliases : Aliases r s.aliases
  draft : Draft r s.aliases s.instructions
  length_removed : s.removed.length = r.instructions.length
  removed : ∀ {id : InstId}, s.removed[id]? = some true → ∃ b blk pre post inst v w,
    (b, id) ∈ done ∧ Site r b blk pre post id inst ∧ inst.op.pure = true ∧ inst.state = none ∧
    inst.results = [v] ∧ s.aliases[v]? = some w ∧ w ≠ v
  aliased : ∀ {v w : ValueId}, s.aliases[v]? = some w → w ≠ v → ∃ b blk pre post id inst,
    (b, id) ∈ done ∧ Site r b blk pre post id inst ∧ inst.results = [v] ∧
    s.removed[id]? = some true

theorem identity_impure {i : Instruction} (h : i.op.pure = false) : identity r i = .ok none := by
  unfold identity
  split
  iterate 3
    · next hop => rw [hop] at h; cases h
  · rfl

/-- The state with new instructions and other work and statistics. -/
theorem Inv.instructions {done' : List (BlockId × InstId)} {s' : State} (h : Inv r done s)
    (hsub : done ⊆ done') (ha : s'.aliases = s.aliases) (hr : s'.removed = s.removed)
    (hd : Draft r s.aliases s'.instructions) : Inv r done' s' := by
  refine ⟨ha ▸ h.aliases, ha ▸ hd, hr ▸ h.length_removed, fun hid => ?_, fun hv hne => ?_⟩
  · obtain ⟨b, blk, pre, post, inst, v, w, h1, h2⟩ := h.removed (hr ▸ hid)
    exact ⟨b, blk, pre, post, inst, v, w, hsub h1, ha ▸ h2⟩
  · obtain ⟨b, blk, pre, post, id, inst, h1, h2⟩ := h.aliased (ha ▸ hv) hne
    exact ⟨b, blk, pre, post, id, inst, hsub h1, hr ▸ h2⟩

/-- What `replacement` finds and what it leaves. -/
structure Replaced (r : Region) (b : BlockId) (pre : List InstId) (id : InstId) (inst : Instruction)
    (v : ValueId) (s : State) (p : Option ValueId × State) : Prop where
  found : Found r b pre v p.1
  original : p.1 ≠ none → inst.op.pure = true
  aliases : p.2.aliases = s.aliases
  removed : p.2.removed = s.removed
  draft : Draft r s.aliases p.2.instructions

theorem compose_sat (hwf : WF r) (ha : Aliases r s.aliases) (hd : Draft r s.aliases s.instructions)
    (hs : Site r b blk pre post id inst) (hget : s.instructions[id]? = some inst')
    (hop : inst'.op = .vectorShuffle mask) (hres : inst'.results = [v])
    (hres' : inst.results = [v]) :
    Sat (· = exceeded) (compose r id inst' mask s) (Replaced r b pre id inst v s) := by
  have hmem : v ∈ inst.results := by simp [hres']
  have hc := hd.computes hwf ha hs hget (by rw [hop]; rfl) hres
  have hpure := hd.original_pure hs.get hget (by rw [hop]; rfl)
  rw [hop] at hc
  obtain ⟨x, y, hxy, hx, hy⟩ := map_eq_pair hc.sig.1
  rw [hxy] at hc
  have hsame : ∀ {work : Nat}, Replaced r b pre id inst v s (none, { s with work }) :=
    ⟨.none, fun h => absurd rfl h, rfl, rfl, hd⟩
  refine spend_sat.bind fun work _ _ => ?_
  refine (shuffle_gives hwf ha hd hs.block hs.prefix_ hxy ⟨hc.avail x (by simp), hx⟩
    ⟨hc.avail y (by simp), hy⟩ hc.sig.2.2).sat.bind fun o _ ho => ?_
  cases o with
  | none => exact Sat.ok hsame
  | some p =>
    obtain ⟨args, next⟩ := p
    have hcomp := ho _ rfl
    dsimp only at hcomp ⊢
    split
    · next hid =>
      obtain ⟨x', y', hargs, _⟩ := hcomp.args
      rw [hargs, idx_cons_zero, ok_bind]
      refine Sat.ok ⟨?_, fun _ => hpure, rfl, rfl, hd⟩
      exact hcomp.found hwf hs hmem hc hid (by rw [hargs]; rfl)
    · split
      · rw [setAt_eq_ok.2 ⟨(List.getElem?_eq_some_iff.1 hget).1, rfl⟩, ok_bind]
        refine Sat.ok ⟨.none, fun h => absurd rfl h, rfl, rfl, ?_⟩
        exact hd.replace hs hwf hget hpure hres' (hcomp.computes hwf hs hmem hc)
      · exact Sat.ok hsame

theorem replacement_sat (hwf : WF r) (ha : Aliases r s.aliases)
    (hd : Draft r s.aliases s.instructions) (hs : Site r b blk pre post id inst)
    (hget : s.instructions[id]? = some inst') (hres : inst'.results = [v])
    (hres' : inst.results = [v]) :
    Sat (· = exceeded) (replacement r id inst' s) (Replaced r b pre id inst v s) := by
  have hid : Gives (identity { r with instructions := s.instructions } inst') fun o =>
      Found r b pre v o ∧ (o ≠ none → inst.op.pure = true) := by
    cases hpure : inst'.op.pure with
    | false =>
      rw [identity_impure hpure]
      exact .ok ⟨.none, fun h => absurd rfl h⟩
    | true =>
      refine (identity_gives hwf ha hd hs hget hres (by simp [hres'])).mono fun o ho => ⟨ho, fun _ => ?_⟩
      exact hd.original_pure hs.get hget hpure
  refine hid.sat.bind fun o _ ho => ?_
  split
  · next mask hop => exact compose_sat hwf ha hd hs hget hop hres hres'
  · exact Sat.ok ⟨ho.1, ho.2, rfl, rfl, hd⟩

/-- A result that has no alias gets one. -/
theorem eliminate_sat (hwf : WF r) (h : Inv r done s) (hs : Site r b blk pre post id inst)
    (hnew : (b, id) ∉ done) (hpure : inst.op.pure = true) (hstate : inst.state = none)
    (hres : inst.results = [v]) (hres' : inst'.results = [v]) (hrep : Replaces r w v)
    (hw : Avail r b pre w) :
    Sat (· = exceeded) (eliminate id inst' w s) (Inv r (done ++ [(b, id)])) := by
  obtain ⟨data, hslot, _⟩ := hw.slot hwf hs.block hs.prefix_
  obtain ⟨_, _, _, hslotv⟩ := hwf.result_slot hs.block hs.mem hs.get (v := v) (by simp [hres])
  have hv := (List.getElem?_eq_some_iff.1 hslotv).1
  refine (resolve_sat h.aliases (List.getElem?_eq_some_iff.1 hslot).1 s.work).bind
    fun p _ ⟨hleads, hfix⟩ => ?_
  obtain ⟨x, work⟩ := p
  dsimp only at hleads hfix ⊢
  have hx := h.aliases.replaces hwf hleads
  have hxv := hx.trans hwf hrep
  -- the alias is available at the instruction, its result is not
  have hne : x ≠ v := by
    rintro rfl
    exact (hx.avail hs.block hs.prefix_ hw).not_mem_results hwf hs.block hs.split hs.get
      (by simp [hres])
  have hfresh : s.aliases[v]? = some v := by
    obtain ⟨u, hu⟩ := h.aliases.get hv
    by_cases huv : u = v
    · rw [hu, huv]
    · obtain ⟨d, dblk, pre', post', id', inst₁, hmem, hs₁, hres₁, _⟩ := h.aliased hu huv
      have hid := hwf.result_unique (v := v) hs₁.block hs.block hs₁.mem hs.mem hs₁.get hs.get
        (by simp [hres₁]) (by simp [hres])
      subst hid
      cases hs.get.symm.trans hs₁.get
      have hdb := (hwf.inst_block hs₁.block hs₁.mem hs.get).symm.trans
        (hwf.inst_block hs.block hs.mem hs.get)
      exact absurd (hdb ▸ hmem) hnew
  have hlt : v < s.aliases.length := h.aliases.length ▸ hv
  have hidlt : id < s.removed.length :=
    h.length_removed ▸ (List.getElem?_eq_some_iff.1 hs.get).1
  rw [hres', idx_cons_zero, ok_bind, setAt_eq_ok.2 ⟨hlt, rfl⟩, ok_bind,
    setAt_eq_ok.2 ⟨hidlt, rfl⟩, ok_bind]
  have hget : ∀ {u y : ValueId}, (s.aliases.set v x)[u]? = some y →
      u = v ∧ y = x ∨ u ≠ v ∧ s.aliases[u]? = some y := by
    intro u y hu
    by_cases huv : v = u
    · subst huv
      rw [List.getElem?_set_self hlt] at hu
      exact .inl ⟨rfl, (Option.some.inj hu).symm⟩
    · rw [List.getElem?_set_ne huv] at hu
      exact .inr ⟨Ne.symm huv, hu⟩
  refine Sat.ok ⟨⟨by simpa using h.aliases.length, fun hu => ?_, fun hu => ?_⟩,
    ⟨h.draft.length, fun hinst => ?_⟩, by simpa using h.length_removed, fun {id₁} hid => ?_,
    fun {u y} hu huy => ?_⟩
  · rcases hget hu with ⟨rfl, rfl⟩ | ⟨_, hu⟩
    · exact h.aliases.length ▸ (List.getElem?_eq_some_iff.1 hfix).1
    · exact h.aliases.lt hu
  · rcases hget hu with ⟨rfl, rfl⟩ | ⟨_, hu⟩
    · exact hxv
    · exact h.aliases.rep hu
  · obtain ⟨op, args, hget', hcase⟩ := h.draft.inst hinst
    exact ⟨op, args, hget', hcase.imp (fun ⟨hop, hargs⟩ =>
      ⟨hop, hargs.imp fun _ _ hl => hl.set hfresh x⟩) (fun h => h)⟩
  · by_cases heq : id = id₁
    · subst heq
      exact ⟨b, blk, pre, post, inst, v, x, by simp, hs, hpure, hstate, hres,
        List.getElem?_set_self hlt, hne⟩
    · rw [List.getElem?_set_ne heq] at hid
      obtain ⟨d, dblk, pre', post', inst₁, u, y, h1, h2, h3, h4, h5, h6, h7⟩ := h.removed hid
      refine ⟨d, dblk, pre', post', inst₁, u, y, by simp [h1], h2, h3, h4, h5, ?_, h7⟩
      have huv : v ≠ u := by
        rintro rfl
        exact h7 (Option.some.inj (h6.symm.trans hfresh))
      rw [List.getElem?_set_ne huv]
      exact h6
  · rcases hget hu with ⟨rfl, rfl⟩ | ⟨_, hu⟩
    · exact ⟨b, blk, pre, post, id, inst, by simp, hs, hres, List.getElem?_set_self hidlt⟩
    · obtain ⟨d, dblk, pre', post', id', inst₁, h1, h2, h3, h4⟩ := h.aliased hu huy
      refine ⟨d, dblk, pre', post', id', inst₁, by simp [h1], h2, h3, ?_⟩
      by_cases heq : id = id'
      · subst heq
        exact List.getElem?_set_self hidlt
      · rw [List.getElem?_set_ne heq]
        exact h4

theorem visit_sat (hwf : WF r) (hs : Site r b blk pre post id inst)
    (hdone : ∀ i, (b, i) ∈ done → i ∈ pre)
    (h : Inv r done s) : Sat (· = exceeded) (visit r b s id) (Inv r (done ++ [(b, id)])) := by
  have hnew : (b, id) ∉ done := fun hmem => hwf.not_mem_pre hs.block hs.split (hdone id hmem)
  have hsub : done ⊆ done ++ [(b, id)] := List.subset_append_left _ _
  obtain ⟨op, args, hget, hcase⟩ := h.draft.inst hs.get
  have hlt := (List.getElem?_eq_some_iff.1 hget).1
  refine spend_sat.bind fun work _ _ => ?_
  rw [idx_eq_ok.2 hget, ok_bind]
  refine (resolveArgs_sat h.aliases work (h.draft.args_lt hwf h.aliases hs hget)).bind
    fun p _ hargs => ?_
  obtain ⟨args', work'⟩ := p
  dsimp only at hargs ⊢
  have hdraft := h.draft.resolve hwf h.aliases hs.get hget hargs
  rw [setAt_eq_ok.2 ⟨hlt, rfl⟩, ok_bind]
  split
  · exact Sat.ok (h.instructions hsub rfl rfl hdraft)
  · next hplain =>
    have hplain : plain { inst with op := op, args := args' } = true := by simpa using hplain
    obtain ⟨v, hres⟩ := List.length_eq_one_iff.1 (plain_results hplain)
    have hstate : inst.state = none := by
      simp only [plain, Bool.and_eq_true, Option.isNone_iff_eq_none] at hplain
      exact hplain.1.1.1.2
    refine (replacement_sat hwf (s := { s with instructions := _, work := work' }) h.aliases hdraft hs
      (List.getElem?_set_self hlt) hres hres).bind fun q _ hq => ?_
    obtain ⟨o, s'⟩ := q
    have hinv : ∀ {done' : List (BlockId × InstId)}, done ⊆ done' → Inv r done' s' :=
      fun hsub => h.instructions hsub hq.aliases hq.removed hq.draft
    cases o with
    | none => exact Sat.ok (hinv hsub)
    | some w =>
      obtain ⟨hrep, hw⟩ := hq.found w rfl
      exact eliminate_sat hwf (hinv (List.Subset.refl _)) hs hnew (hq.original nofun) hstate hres
        hres hrep hw

theorem Inv.init (r : Region) (work : Nat) : Inv r [] ⟨r.instructions, work,
    List.range r.values.length, List.replicate r.instructions.length false, ⟨0, 0⟩⟩ := by
  have hself : ∀ {v w : ValueId}, (List.range r.values.length)[v]? = some w → w = v := by
    intro v w h
    obtain ⟨_, h⟩ := List.getElem?_eq_some_iff.1 h
    simpa using h.symm
  refine ⟨⟨by simp, fun {v w} h => ?_, fun h => hself h ▸ .refl r _⟩, ⟨rfl, fun {id inst} hinst => ?_⟩,
    by simp, fun h => ?_, fun h hne => absurd (hself h) hne⟩
  · have hlt := (List.getElem?_eq_some_iff.1 h).1
    rw [List.length_range] at hlt
    exact hself h ▸ hlt
  · exact ⟨inst.op, inst.args, hinst, .inl ⟨rfl, List.forall₂_same.2 fun a _ => .refl⟩⟩
  · rw [List.getElem?_replicate] at h
    split at h <;> cases h

/-! ## The rewrite -/

/-- Where the chain of a value ends. -/
def Ends (aliases : List ValueId) (v w : ValueId) : Prop :=
  Leads aliases v w ∧ aliases[w]? = some w

theorem Leads.eq_of_fixed (hl : Leads aliases v w) (hv : aliases[v]? = some v) : w = v := by
  induction hl with
  | refl => rfl
  | tail _ hstep ih =>
    rw [ih, hv] at hstep
    exact (Option.some.inj hstep).symm

/-- The values of a chain end where it ends. -/
theorem Ends.of_leads (h : Ends aliases v w) (hl : Leads aliases v u) : Ends aliases u w := by
  refine ⟨?_, h.2⟩
  have hdet : Relator.RightUnique fun x y : ValueId => aliases[x]? = some y :=
    fun x y z hy hz => Option.some.inj (hy.symm.trans hz)
  rcases Relation.ReflTransGen.total_of_right_unique hdet h.1 hl with hl' | hl'
  · rw [Leads.eq_of_fixed hl' h.2]
    exact .refl
  · exact hl'

theorem Ends.unique (h : Ends aliases v w) (h' : Ends aliases v u) : w = u :=
  Leads.eq_of_fixed (h'.of_leads h.1).1 h.2 |>.symm

/-- The table after the first `n` chains were compressed. -/
structure Compressed (aliases : List ValueId) (n : Nat) (table : List ValueId) : Prop where
  length : table.length = aliases.length
  ends : ∀ {v w : ValueId}, v < n → table[v]? = some w → Ends aliases v w
  same : ∀ {v : ValueId}, n ≤ v → table[v]? = aliases[v]?

theorem Compressed.leads (h : Compressed aliases n table)
    (hl : Leads table v w) : Leads aliases v w := by
  induction hl with
  | refl => exact .refl
  | @tail x y _ hstep ih =>
    by_cases hx : x < n
    · exact ih.trans (h.ends hx hstep).1
    · exact ih.tail (h.same (Nat.le_of_not_lt hx) ▸ hstep)

theorem Compressed.fixed (h : Compressed aliases n table)
    (hv : table[v]? = some v) : aliases[v]? = some v := by
  by_cases hlt : v < n
  · exact (h.ends hlt hv).2
  · exact h.same (Nat.le_of_not_lt hlt) ▸ hv

theorem Compressed.table_aliases (hwf : WF r) (ha : Aliases r aliases)
    (h : Compressed aliases n table) : Aliases r table := by
  have hleads : ∀ {v w : ValueId}, table[v]? = some w → Leads aliases v w :=
    fun hv => h.leads (.single hv)
  refine ⟨h.length.trans ha.length, fun {v w} hv => ?_, fun hv => ha.replaces hwf (hleads hv)⟩
  by_cases hlt : v < n
  · exact ha.length ▸ (List.getElem?_eq_some_iff.1 (h.ends hlt hv).2).1
  · exact ha.lt (h.same (Nat.le_of_not_lt hlt) ▸ hv)

theorem compress_sat (hwf : WF r) (ha : Aliases r aliases) (work : Nat) :
    Sat (· = exceeded) (compress aliases work) fun p => Compressed aliases aliases.length p.1 := by
  refine (Sat.foldlM (I := fun done (p : List ValueId × Nat) =>
    Compressed aliases done.length p.1) ?_ ⟨rfl, fun h => absurd h (Nat.not_lt_zero _),
      fun _ => rfl⟩).mono fun p _ hp => by simpa using hp
  rintro done n rest ⟨table, work⟩ hsplit h
  obtain ⟨rfl, hn⟩ : n = done.length ∧ n < aliases.length := by
    have hlt : done.length < (List.range aliases.length).length := by simp [hsplit]
    have hget : (List.range aliases.length)[done.length] = n := by simp [hsplit]
    rw [List.getElem_range] at hget
    rw [List.length_range] at hlt
    exact ⟨hget.symm, hget ▸ hlt⟩
  dsimp only at h ⊢
  have ht := h.table_aliases hwf ha
  obtain ⟨x, hx⟩ := exists_get (h.length ▸ hn : done.length < table.length)
  rw [idx_eq_ok.2 hx, ok_bind]
  refine (resolve_sat ht (ht.lt hx) work).bind fun p _ ⟨hl, hfix⟩ => ?_
  obtain ⟨y, work⟩ := p
  dsimp only at hl hfix ⊢
  have hlt := (List.getElem?_eq_some_iff.1 hx).1
  rw [setAt_eq_ok.2 ⟨hlt, rfl⟩, ok_bind]
  refine Sat.ok ⟨by simpa using h.length, fun {v w} hv hget => ?_, fun {v} hv => ?_⟩
  · by_cases heq : done.length = v
    · subst heq
      rw [List.getElem?_set_self hlt] at hget
      cases hget
      exact ⟨h.leads (.head hx hl), h.fixed hfix⟩
    · rw [List.getElem?_set_ne heq] at hget
      have hv' : v < done.length := by
        simp only [List.length_append, List.length_singleton] at hv
        exact Nat.lt_of_le_of_ne (Nat.lt_succ_iff.1 hv) (Ne.symm heq)
      exact h.ends hv' hget
  · have hlt' : done.length < v := by simpa [Nat.succ_le_iff] using hv
    rw [List.getElem?_set_ne (Nat.ne_of_lt hlt')]
    exact h.same (Nat.le_of_lt hlt')

/-- What the pass does, in terms of the state after the visit and the compressed table. -/
def edit (r : Region) (s : State) (table : List ValueId) : Edit where
  rep v := table.getD v v
  keep id := !s.removed.getD id false
  kept v := s.aliases.getD v v = v
  op id :=
    if (r.instructions[id]?.any (·.op.pure)) = true then
      s.instructions[id]?.map fun i => (i.op, i.args.map fun v => table.getD v v)
    else none

section
variable {s : State} {table : List ValueId} {done : List (BlockId × InstId)}

theorem edit_rep (ht : Compressed s.aliases s.aliases.length table) (v : ValueId) :
    Ends s.aliases v (table.getD v v) ∨ table.getD v v = v ∧ s.aliases[v]? = none := by
  cases hv : table[v]? with
  | none =>
    have hle := List.getElem?_eq_none_iff.1 hv
    exact .inr ⟨by simp [List.getD, hv], List.getElem?_eq_none (ht.length ▸ hle)⟩
  | some w =>
    have hlt := (List.getElem?_eq_some_iff.1 hv).1
    rw [List.getD_eq_getElem?_getD, hv]
    exact .inl (ht.ends (ht.length ▸ hlt) hv)

theorem edit_kept (ht : Compressed s.aliases s.aliases.length table) (v : ValueId) :
    (edit r s table).kept ((edit r s table).rep v) = true := by
  change decide (s.aliases.getD (table.getD v v) (table.getD v v) = table.getD v v) = true
  rw [decide_eq_true_eq, List.getD_eq_getElem?_getD]
  rcases edit_rep ht v with ⟨_, hfix⟩ | ⟨heq, hnone⟩
  · rw [hfix, Option.getD_some]
  · rw [heq, hnone, Option.getD_none]

theorem edit_replaces (hwf : WF r) (h : Inv r done s)
    (ht : Compressed s.aliases s.aliases.length table) (v : ValueId) :
    Replaces r ((edit r s table).rep v) v := by
  rcases edit_rep ht v with hends | ⟨heq, _⟩
  · exact h.aliases.replaces hwf hends.1
  · rw [show (edit r s table).rep v = v from heq]
    exact .refl r v

/-- A value and those its aliases lead to have the same representative. -/
theorem edit_rep_leads (ht : Compressed s.aliases s.aliases.length table)
    (hl : Leads s.aliases v w) : (edit r s table).rep w = (edit r s table).rep v := by
  rcases edit_rep ht v with hv | ⟨hv, hnone⟩
  · rcases edit_rep ht w with hw | ⟨_, hnone⟩
    · exact hw.unique (hv.of_leads hl)
    · cases Relation.ReflTransGen.cases_head (hv.of_leads hl).1 with
      | inl heq => rw [heq, (hv).2] at hnone; cases hnone
      | inr hstep =>
        obtain ⟨_, hstep, _⟩ := hstep
        rw [hnone] at hstep
        cases hstep
  · cases Relation.ReflTransGen.cases_head hl with
    | inl heq => rw [heq]
    | inr hstep =>
      obtain ⟨_, hstep, _⟩ := hstep
      rw [hnone] at hstep
      cases hstep

theorem removed_of_keep (hkeep : (edit r s table).keep id = false) : s.removed[id]? = some true := by
  cases hid : s.removed[id]? with
  | none => simp [edit, List.getD, hid] at hkeep
  | some b => simpa [edit, List.getD, hid] using hkeep

theorem keep_of_removed (hid : s.removed[id]? = some true) : (edit r s table).keep id = false := by
  simp [edit, List.getD, hid]

theorem aliased_of_kept (hkept : (edit r s table).kept v = false) :
    ∃ w, s.aliases[v]? = some w ∧ w ≠ v := by
  cases hv : s.aliases[v]? with
  | none => simp [edit, List.getD, hv] at hkept
  | some w => exact ⟨w, rfl, by simpa [edit, List.getD, hv] using hkept⟩

theorem edit_valid (hwf : WF r) (h : Inv r done s)
    (ht : Compressed s.aliases s.aliases.length table) : (edit r s table).Valid r := by
  refine ⟨fun hb hid hinst hkeep => ?_, fun {b blk id inst v} hb hid hinst hv => ?_,
    fun {b blk v} hb hv => ?_, ?_, fun {_ _ v} _ => ⟨edit_kept ht v, edit_replaces hwf h ht v⟩,
    fun v hty => ?_⟩
  · obtain ⟨_, _, _, _, inst', _, _, _, hs, hpure, hstate, _⟩ := h.removed (removed_of_keep hkeep)
    cases hinst.symm.trans hs.get
    exact ⟨hpure, hstate⟩
  · cases hkeep : (edit r s table).keep id with
    | false =>
      obtain ⟨_, _, _, _, inst', u, w, _, hs, _, _, hres, hu, hne⟩ :=
        h.removed (removed_of_keep hkeep)
      cases hinst.symm.trans hs.get
      obtain rfl : v = u := by simpa [hres] using hv
      simpa [edit, List.getD, hu] using hne
    | true =>
      cases hkept : (edit r s table).kept v with
      | true => rfl
      | false =>
        obtain ⟨w, hw, hne⟩ := aliased_of_kept hkept
        obtain ⟨_, _, _, _, id', inst', _, hs, hres, hrem⟩ := h.aliased hw hne
        have heq := hwf.result_unique hb hs.block hid hs.mem hinst hs.get hv (by simp [hres])
        rw [heq, keep_of_removed hrem] at hkeep
        cases hkeep
  · cases hkept : (edit r s table).kept v with
    | true => rfl
    | false =>
      obtain ⟨w, hw, hne⟩ := aliased_of_kept hkept
      obtain ⟨_, _, _, _, id', inst', _, hs, hres, _⟩ := h.aliased hw hne
      exact absurd (by simp [hres]) (hwf.param_ne_result hb hs.block hv hs.mem hs.get)
  · intro b blk pre post id inst op args hb hsplit hinst _ hop
    have hs : Site r b blk pre post id inst := ⟨hb, hsplit, hinst⟩
    obtain ⟨op', args', hget, _⟩ := h.draft.inst hinst
    simp only [edit, hinst, Option.any_some, hget, Option.map_some] at hop
    split at hop
    · next hpure =>
      cases hop
      obtain ⟨c, c', _, hok⟩ := hwf.instOk hb hsplit hinst
      obtain ⟨v, hres, _⟩ := hok.pure_sig hpure
      have hargs : List.Forall₂ (fun a a' => Replaces r a' a) args'
          (args'.map (edit r s table).rep) := by
        rw [List.forall₂_map_right_iff, List.forall₂_same]
        exact fun a _ => edit_replaces hwf h ht a
      have hc := (h.draft.computes_of_pure hwf h.aliases hs hget hpure hres).replace hwf hb hsplit hinst
        (by simp [hres]) hargs
      rw [hres]
      refine ⟨hpure, hc.sig, fun a ha => ⟨?_, hc.avail a ha⟩, fun hat =>
        hc.eval_eq hwf hb hsplit hinst hpure hres hat⟩
      obtain ⟨a', _, rfl⟩ := List.mem_map.1 ha
      exact edit_kept ht a'
    · cases hop
  · rcases edit_rep ht v with hends | ⟨heq, _⟩
    · cases hends.1.cases_head with
      | inl heq => exact heq.symm
      | inr hstep =>
        obtain ⟨w, hw, hl⟩ := hstep
        by_cases hne : w = v
        · exact (Leads.eq_of_fixed hends.1 (hne ▸ hw))
        · -- the result of a pure instruction is neither a token nor a ticket
          obtain ⟨_, _, _, _, id', inst, _, hs, hres, hrem⟩ := h.aliased hw hne
          obtain ⟨_, _, _, _, inst', _, _, _, hs', hpure, _⟩ := h.removed hrem
          cases hs.get.symm.trans hs'.get
          obtain ⟨_, _, _, _, _, hinst', _, hok⟩ := hwf.listed hs.block hs.mem
          cases hs.get.symm.trans hinst'
          obtain ⟨hticket, heffect⟩ := hok.pure_ty hpure (v := v) (by simp [hres])
          exact hty.elim (absurd · heffect) (absurd · hticket)
    · exact heq

theorem edit_applied (h : Inv r done s) (ht : Compressed s.aliases s.aliases.length table) :
    (edit r s table).Applied r ((({ r with instructions := s.instructions } : Region).mapOperands
      (edit r s table).rep).retain (edit r s table).keep) := by
  refine ⟨rfl, rfl, rfl, by simp [Region.retain, Region.mapOperands], rfl, fun {id inst} hinst => ?_⟩
  obtain ⟨op, args, hget, hcase⟩ := h.draft.inst hinst
  refine ⟨op, args.map (edit r s table).rep, ?_, fun hop => ?_, fun op' args' hop => ?_⟩
  · simp [Region.retain, Region.mapOperands, hget]
  · have hpure : inst.op.pure = false := by
      cases hp : inst.op.pure with
      | false => rfl
      | true => simp [edit, hinst, hp, hget] at hop
    rcases hcase with ⟨rfl, hargs⟩ | ⟨hp, _⟩
    · refine ⟨rfl, ?_⟩
      rw [eq_comm, ← List.forall₂_eq_eq_eq, List.forall₂_map_left_iff, List.forall₂_map_right_iff]
      exact hargs.imp fun a a' hl => (edit_rep_leads ht hl).symm
    · rw [hp] at hpure
      cases hpure
  · simp only [edit, hinst, Option.any_some, hget, Option.map_some] at hop
    split at hop
    · cases hop
      exact ⟨rfl, rfl⟩
    · cases hop

/-- A draft that was verified has the meaning of the region. -/
theorem draft_correct (hwf : WF r) (h : Inv r done s) {d : Region}
    (hd : draft r s = .ok (some d)) : verify d = .ok () ∧ Region.SameMeaning r d := by
  unfold draft at hd
  split at hd
  · cases hd
  obtain ⟨⟨table, work⟩, hcompress, hd⟩ := bind_eq_ok.1 hd
  have ht := (compress_sat hwf h.aliases s.work).of_ok hcompress
  obtain ⟨_, _, hd⟩ := bind_eq_ok.1 hd
  obtain ⟨d', hrewrite, hd⟩ := bind_eq_ok.1 hd
  obtain ⟨_, hverify, hd⟩ := bind_eq_ok.1 hd
  cases hd
  obtain ⟨_, rfl⟩ := Region.rewriteValues_eq_ok.1 hrewrite
  have hrep : (fun v => (idx table v).toOption.getD v) = (edit r s table).rep := by
    funext v
    cases hv : table[v]? with
    | none | some w => simp [idx, edit, List.getD, hv, Except.toOption]
  rw [hrep] at hverify ⊢
  exact ⟨hverify, ((edit_applied h ht).correct (edit_valid hwf h ht) hwf).2⟩

end

end

section
variable {r : Region}

theorem order_perm (cfg : Cfg) : (order r cfg).Perm (List.range r.blocks.length) :=
  List.perm_insertionSort _ _

theorem attempt_correct (hwf : WF r) {audit : Bool} {limit : Nat} {d : Region} {stats : Stats}
    (h : attempt audit r limit = .ok (some d, stats)) :
    verify d = .ok () ∧ Region.SameMeaning r d := by
  obtain ⟨_, _, h⟩ := bind_eq_ok.1 h
  obtain ⟨work, _, h⟩ := bind_eq_ok.1 h
  obtain ⟨_, _, h⟩ := bind_eq_ok.1 h
  obtain ⟨found, _, h⟩ := bind_eq_ok.1 h
  split at h
  · cases h
  obtain ⟨cfg, _, h⟩ := bind_eq_ok.1 h
  obtain ⟨s, hvisit, h⟩ := bind_eq_ok.1 h
  obtain ⟨d', hdraft, h⟩ := bind_eq_ok.1 h
  cases h
  have hinv := Region.visit_sat (E := (· = exceeded)) (I := Inv r) (f := visit r)
    ((order_perm (r := r) cfg).nodup_iff.2 List.nodup_range)
    (fun b hb => List.mem_range.1 ((order_perm cfg).mem_iff.1 hb))
    (fun {done b blk pre id post s} hb hsplit hdone hI => by
      obtain ⟨inst, hinst, _⟩ := hwf.inst hb (show id ∈ blk.instructions by simp [hsplit])
      exact visit_sat hwf ⟨hb, hsplit, hinst⟩ hdone hI) (Inv.init r work)
  obtain ⟨done, hinv⟩ := hinv.of_ok hvisit
  exact draft_correct hwf hinv hdraft

/-- With every amount of work the pass keeps a region well formed and its meaning, or it fails and
leaves the region as it was. -/
theorem simd_correct (hr : verify r = .ok ()) (audit : Bool) (limit : Nat) :
    (∀ stats, (run audit r limit).2 = .ok stats →
      verify (run audit r limit).1 = .ok () ∧ Region.SameMeaning r (run audit r limit).1) ∧
    ∀ e, (run audit r limit).2 = .error e → (run audit r limit).1 = r := by
  unfold run
  cases h : attempt audit r limit with
  | error e => exact ⟨nofun, fun _ _ => rfl⟩
  | ok p =>
    obtain ⟨o, stats⟩ := p
    refine ⟨fun _ _ => ?_, nofun⟩
    cases o with
    | none => exact ⟨hr, .refl r⟩
    | some d => exact attempt_correct (verify_eq_ok.1 hr) h

end

/-- A region that reverses the bytes of a register twice. -/
def reversed : Region where
  entries := [0]
  blocks := [⟨none, [], [0, 1, 2, 3, 4], some (.exit 0), 0⟩]
  values := [⟨.i32, .instruction 0 0⟩, ⟨.i1, .instruction 1 0⟩, ⟨.v128, .instruction 2 0⟩,
    ⟨.v128, .instruction 3 0⟩, ⟨.v128, .instruction 4 0⟩]
  instructions := [.simple 0 (.const 5) [] 0, .simple 0 (.const 0) [] 1, .simple 0 (.readXmm 0) [] 2,
    .simple 0 (.vectorShuffle (Vector.ofFn fun i => 15 - i)) [2, 2] 3,
    .simple 0 (.vectorShuffle (Vector.ofFn fun i => 15 - i)) [3, 3] 4]
  states := [{ StateMap.uniform 0 1 with xmm := List.replicate 8 4 }]
  helpers := []

theorem simd_correct_reversed : (run true reversed 1000).2 = .ok ⟨1, 0⟩ ∧
    verify (run true reversed 1000).1 = .ok () ∧
    Region.SameMeaning reversed (run true reversed 1000).1 :=
  have h : (run true reversed 1000).2 = .ok ⟨1, 0⟩ := by decide +kernel
  ⟨h, (simd_correct (r := reversed) rfl true 1000).1 ⟨1, 0⟩ h⟩

end V86.Ir.Simd
