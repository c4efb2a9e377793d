import V86.Ir.Replace

/-!
# Parts that the passes share

`passes/mod.rs`: the statistics, the arena caps and `rewrite_values`, which replaces every operand
of a region: of all instructions and recovery maps in the arenas, used or not, and of all
terminators.
-/

namespace V86.Ir

open Exec Verify

/-- `PassStats`, without the counters of the passes over MIR. -/
structure PassStats where
  branches : Nat
  unreachable : Nat
  crossCommoned : Nat
  merged : Nat
  phis : Nat
  copied : Nat
  folded : Nat
  commoned : Nat
  removed : Nat
  simdEliminated : Nat
  simdShuffled : Nat
  scalarAliases : Nat
  scalarConstants : Nat
  sccpConstants : Nat
  sccpParameters : Nat
  deriving DecidableEq

instance : Inhabited PassStats := ⟨⟨0, 0, 0, 0, 0, 0, 0, 0, 0, 0, 0, 0, 0, 0, 0⟩⟩

/-- `MAX_BLOCKS`. -/
def maxBlocks : Nat := 1024

/-- `MAX_INSTRUCTIONS`. -/
def maxInstructions : Nat := 65536

/-- `MAX_VALUES`. -/
def maxValues : Nat := 131072

/-- `MAX_STATES`. -/
def maxStates : Nat := 65536

/-- The operands of a terminator. -/
def Terminator.operands : Terminator → List ValueId
  | .branch edge => edge.args
  | .condBranch condition taken notTaken => condition :: taken.args ++ notTaken.args
  | .exit _ => []

/-- The operands that `rewrite_values` visits. -/
def Region.operands (r : Region) : List ValueId :=
  r.instructions.flatMap (·.args) ++ r.states.flatMap (·.values) ++
    r.blocks.flatMap fun blk => blk.terminator.toList.flatMap (·.operands)

/-- `rewrite_values`: replace every operand. The replacement may panic. -/
def Region.rewriteValues (r : Region) (replace : ValueId → Exec ValueId) : Exec Region := do
  r.operands.foldlM (fun _ v => do
    let _ ← replace v
    pure ()) ()
  pure (r.mapOperands fun v => (replace v).toOption.getD v)

variable {f g : ValueId → ValueId} {r : Region} {replace : ValueId → Exec ValueId}

theorem Terminator.mapValues_congr {term : Terminator}
    (h : ∀ v ∈ term.operands, f v = g v) : term.mapValues f = term.mapValues g := by
  cases term with
  | branch edge =>
    have hargs : ∀ v ∈ edge.args, f v = g v := h
    rw [mapValues, mapValues, List.map_congr_left hargs]
  | condBranch c t e =>
    simp only [operands, List.cons_append, List.mem_cons, List.mem_append] at h
    rw [mapValues, mapValues, h c (.inl rfl), List.map_congr_left fun v hv => h v (.inr (.inl hv)),
      List.map_congr_left fun v hv => h v (.inr (.inr hv))]
  | exit s => rfl

/-- Only the values of the operands matter. -/
theorem Region.mapOperands_congr
    (h : ∀ v ∈ r.operands, f v = g v) : r.mapOperands f = r.mapOperands g := by
  simp only [operands, List.mem_append, List.mem_flatMap] at h
  unfold mapOperands
  congr 1
  · refine List.map_congr_left fun blk hblk => ?_
    cases hterm : blk.terminator with
    | none => rfl
    | some term =>
      rw [Option.map_some, Option.map_some, Terminator.mapValues_congr fun v hv =>
        h v (.inr ⟨blk, hblk, term, by simp [hterm], hv⟩)]
  · refine List.map_congr_left fun inst hinst => ?_
    rw [List.map_congr_left fun v hv => h v (.inl (.inl ⟨inst, hinst, hv⟩))]
  · exact List.map_congr_left fun map hmap =>
      StateMap.map_congr fun v hv => h v (.inl (.inr ⟨map, hmap, hv⟩))

/-- The rewrite returns exactly when the replacement does on every operand. -/
theorem Region.rewriteValues_eq_ok {r' : Region} :
    r.rewriteValues replace = .ok r' ↔ (∀ v ∈ r.operands, ∃ w, replace v = .ok w) ∧
      r' = r.mapOperands fun v => (replace v).toOption.getD v := by
  unfold rewriteValues
  simp only [bind_eq_ok, foldlM_unit_eq_ok, pure_eq_ok, Except.ok.injEq, exists_and_left]
  constructor
  · rintro ⟨h, _, rfl⟩
    exact ⟨fun v hv => (h v hv).imp fun _ h => h.1, rfl⟩
  · rintro ⟨h, rfl⟩
    exact ⟨fun v hv => (h v hv).imp fun _ h => ⟨h, trivial⟩, (), rfl⟩

/-- A rewrite with a replacement that returns `f`. -/
theorem Region.rewriteValues_of (h : ∀ v ∈ r.operands, replace v = .ok (f v)) :
    r.rewriteValues replace = .ok (r.mapOperands f) := by
  refine rewriteValues_eq_ok.2 ⟨fun v hv => ⟨f v, h v hv⟩, mapOperands_congr fun v hv => ?_⟩
  rw [h v hv]
  rfl

/-! ## Alias tables -/

/-- The alias of a value in a table. -/
def aliasOf (aliases : List (Option ValueId)) (v : ValueId) : Option ValueId := aliases.getD v none

/-- The value that stands for a value in a table of resolved aliases. -/
def aliasRep (aliases : List (Option ValueId)) (v : ValueId) : ValueId := (aliasOf aliases v).getD v

theorem aliasOf_set {aliases : List (Option ValueId)} {v w : ValueId} {o : Option ValueId}
    (hv : v < aliases.length) :
    aliasOf (aliases.set v o) w = if w = v then o else aliasOf aliases w := by
  unfold aliasOf
  by_cases hw : w = v
  · subst hw
    simp [hv]
  · simp [List.getD, List.getElem?_set_ne (Ne.symm hw), hw]

@[simp] theorem aliasOf_replicate (n : Nat) (v : ValueId) :
    aliasOf (List.replicate n none) v = none := by
  unfold aliasOf
  rw [List.getD_eq_getElem?_getD, List.getElem?_replicate]
  split <;> rfl

/-! ## Definitions -/

/-- `definition` of `scalar.rs` and of `simd.rs`: the instruction that defines a value. -/
def Region.definition (r : Region) (v : ValueId) : Exec (Option Instruction) := do
  match (← idx r.values v).definition with
  | .instruction id _ => do pure (some (← idx r.instructions id))
  | .parameter .. => pure none

theorem map_eq_pair {l : List ValueId} {f : ValueId → Ty} {t u : Ty} (h : l.map f = [t, u]) :
    ∃ a a', l = [a, a'] ∧ f a = t ∧ f a' = u := by
  obtain ⟨a, l', rfl, ha, h'⟩ := List.map_eq_cons_iff.1 h
  obtain ⟨a', rfl, ha'⟩ := List.map_eq_singleton_iff.1 h'
  exact ⟨a, a', rfl, ha, ha'⟩

section
variable {r : Region} {b : BlockId} {blk : Block} {pre : List InstId} {u : ValueId}

/-- The instruction that defines an available value is listed. -/
theorem Avail.definition_gives (hwf : WF r) (hb : r.blocks[b]? = some blk)
    (hpre : pre <+: blk.instructions) (hu : Avail r b pre u) :
    Gives (r.definition u) fun o => ∀ inner, o = some inner →
      ∃ (d : BlockId) (dblk : Block) (pre' post' : List InstId) (id' : InstId),
      r.blocks[d]? = some dblk ∧ dblk.instructions = pre' ++ id' :: post' ∧
      r.instructions[id']? = some inner ∧ u ∈ inner.results := by
  obtain ⟨d, dblk, hd, hdef⟩ := DefsOk.definedIn_of_avail hb hpre hu
  rcases hdef with hparam | ⟨id, inst, hid, hinst, hres⟩
  · obtain ⟨ty, k, _, hslot⟩ := hwf.param_slot hd hparam
    exact ⟨none, by simp [Region.definition, idx_eq_ok.2 hslot], fun _ h => by cases h⟩
  · obtain ⟨ty, k, _, hslot⟩ := hwf.result_slot hd hid hinst hres
    obtain ⟨pre', post', hsplit⟩ := List.append_of_mem hid
    refine ⟨some inst, by simp [Region.definition, idx_eq_ok.2 hslot, idx_eq_ok.2 hinst], ?_⟩
    rintro inner ⟨⟩
    exact ⟨d, dblk, pre', post', id, hd, hsplit, hinst, hres⟩

end

/-! ## Visits -/

/-- A visit of the instructions of some blocks, in any order of the blocks, keeps what every step
keeps. The invariant speaks of the instructions visited so far. -/
theorem Region.visit_sat {σ : Type} {E : String → Prop} {r : Region}
    {f : BlockId → σ → InstId → Exec σ} {I : List (BlockId × InstId) → σ → Prop}
    {order : List BlockId} {s : σ} (hnd : order.Nodup) (hlt : ∀ b ∈ order, b < r.blocks.length)
    (hstep : ∀ {done b blk pre id post s}, r.blocks[b]? = some blk →
      blk.instructions = pre ++ id :: post → (∀ i, (b, i) ∈ done → i ∈ pre) → I done s →
      Sat E (f b s id) (I (done ++ [(b, id)])))
    (h0 : I [] s) :
    Sat E (order.foldlM (fun s b => do (← idx r.blocks b).instructions.foldlM (f b) s) s)
      fun s => ∃ done, I done s := by
  refine (Sat.foldlM (I := fun bs s => ∃ done, (∀ p ∈ done, p.1 ∈ bs) ∧ I done s) ?_
    ⟨[], nofun, h0⟩).mono fun s _ ⟨done, _, h⟩ => ⟨done, h⟩
  rintro bs b rest s hsplit ⟨done, hdone, hI⟩
  have hnew : b ∉ bs := by
    intro hmem
    rw [hsplit, List.nodup_append] at hnd
    exact hnd.2.2 b hmem b (by simp) rfl
  obtain ⟨blk, hb⟩ := exists_get (hlt b (by simp [hsplit]))
  rw [idx_eq_ok.2 hb, ok_bind]
  refine (Sat.foldlM (I := fun pre s => I (done ++ pre.map fun id => (b, id)) s) ?_
    (by simpa using hI)).mono fun s _ h => ⟨_, fun p hp => ?_, h⟩
  · intro pre id post s hsplit' hI
    rw [List.map_append, ← List.append_assoc]
    refine hstep hb hsplit' (fun i hi => ?_) hI
    rcases List.mem_append.1 hi with hi | hi
    · exact absurd (hdone _ hi) hnew
    · obtain ⟨_, hmem, heq⟩ := List.mem_map.1 hi
      cases heq
      exact hmem
  · rcases List.mem_append.1 hp with hp | hp
    · exact List.mem_append_left _ (hdone p hp)
    · obtain ⟨_, _, rfl⟩ := List.mem_map.1 hp
      simp

/-! ## Small regions -/

/-- An instruction with one result and no recovery maps. -/
def Instruction.simple (b : BlockId) (op : Op) (args : List ValueId) (result : ValueId) :
    Instruction :=
  ⟨b, op, args, [result], none, none, false, false⟩

/-- A recovery map that holds one value in all registers and one in all flags. -/
def StateMap.uniform (reg flag : ValueId) : StateMap ValueId where
  instructionPc := 0
  nextPc := 1
  nextValue := none
  resume := .beforeInstruction
  gpr := Vector.replicate 8 reg
  flags := ⟨Vector.replicate 6 flag, reg, none, none, none, none, none, none, none, none⟩
  xmm := []
  x87 := []
  committedInstructions := 0
  countBase := none
  repProgress := none

end V86.Ir
