import V86.Ir.Passes.TrivialPhis

/-!
# Removing trivial parameters is sound

A value that every argument for a parameter is equal to, apart from the parameter itself, is equal
to the parameter and dominates its block (`Replaces.of_param`): where the block is entered for the
first time, the argument cannot be the parameter. The aliases are entered one at a time, each to a
value that has none yet, so their chains end (`Chain`).
-/

namespace V86.Ir

open Exec Verify List

/-- The value `a` is an argument for the `k`-th parameter of block `b`. -/
def Region.Arrives (r : Region) (b : BlockId) (k : Nat) (a : ValueId) : Prop :=
  ∃ (c : BlockId) (cblk : Block) (term : Terminator) (edge : Edge), r.blocks[c]? = some cblk ∧
    cblk.terminator = some term ∧ edge ∈ term.edges ∧ edge.target = b ∧ edge.args[k]? = some a

/-! ## A value in place of a parameter -/

section
variable {r : Region} {b c : BlockId} {blk cblk : Block} {term : Terminator} {edge : Edge}
  {k : Nat} {v w : ValueId}

/-- The argument of an edge for a parameter. -/
theorem WF.arg_of_edge (hwf : WF r) (hb : r.blocks[b]? = some blk) (hk : blk.params[k]? = some v)
    (hc : r.blocks[c]? = some cblk) (hterm : cblk.terminator = some term) (he : edge ∈ term.edges)
    (ht : edge.target = b) : ∃ a, edge.args[k]? = some a ∧ Avail r c cblk.instructions a ∧
      r.ty a = r.ty v := by
  obtain ⟨effect, _, hok⟩ := (hwf.block hc).chain
  obtain ⟨target, htarget⟩ := (hok term hterm).edges edge he
  cases hb.symm.trans (ht ▸ htarget.get)
  have hlt : k < edge.args.length := htarget.arity ▸ (List.getElem?_eq_some_iff.1 hk).1
  have harg := List.getElem?_eq_getElem hlt
  obtain ⟨hav, hty, _⟩ := htarget.args (edge.args[k], v)
    (mem_iff_getElem?.2 ⟨k, by simp [List.getElem?_zip_eq_some, harg, hk]⟩)
  exact ⟨_, harg, hav, hty⟩

theorem Region.exists_edge (h : b ∈ r.succs c) : ∃ cblk term edge, r.blocks[c]? = some cblk ∧
    cblk.terminator = some term ∧ edge ∈ term.edges ∧ edge.target = b := by
  obtain ⟨cblk, hc⟩ := exists_get (Region.lt_of_mem_succs h)
  rw [Region.succs_of_blocks hc, Block.succs] at h
  cases hterm : cblk.terminator with
  | none => simp [hterm] at h
  | some term =>
    obtain ⟨edge, he, ht⟩ := List.mem_map.1 (by simpa [hterm] using h)
    exact ⟨_, term, edge, hc, hterm, he, ht⟩

/-- Where the block is entered for the first time, the other value is available. -/
theorem WF.avail_of_first (hwf : WF r) (hb : r.blocks[b]? = some blk)
    (hk : blk.params[k]? = some v) (hin : ∀ a, r.Arrives b k a → Replaces r w a ∨ Replaces r v a)
    (hedge : b ∈ r.succs c) (hfirst : ¬ r.flow.Dom b c) :
    ∃ cblk, r.blocks[c]? = some cblk ∧ Avail r c cblk.instructions w ∧ r.ty w = r.ty v := by
  obtain ⟨cblk, term, edge, hc, hterm, he, ht⟩ := Region.exists_edge hedge
  obtain ⟨a, ha, hav, hty⟩ := hwf.arg_of_edge hb hk hc hterm he ht
  refine ⟨cblk, hc, ?_⟩
  rcases hin a ⟨c, cblk, term, edge, hc, hterm, he, ht, ha⟩ with hw | hv
  · exact ⟨hw.avail hc prefix_rfl hav, hw.ty.trans hty⟩
  · have hdom := (hv.avail hc prefix_rfl hav).dom_of_param hwf hc (List.Subset.refl _) hb
      (mem_of_getElem? hk)
    exact absurd hdom hfirst

/-- The other value is available in the block, and no parameter of it. -/
theorem WF.avail_of_incoming (hwf : WF r) (hb : r.blocks[b]? = some blk) (hentry : b ∉ r.entries)
    (hk : blk.params[k]? = some v) (hin : ∀ a, r.Arrives b k a → Replaces r w a ∨ Replaces r v a) :
    Avail r b [] w ∧ w ∉ blk.params ∧ r.ty w = r.ty v := by
  obtain ⟨c, hedge, hfirst⟩ := (hwf.reach_of_get hb).first_edge hentry
  obtain ⟨cblk, hc, hav, hty⟩ := hwf.avail_of_first hb hk hin hedge hfirst
  have hparam : w ∉ blk.params := fun hp =>
    hfirst (hav.dom_of_param hwf hc (List.Subset.refl _) hb hp)
  refine ⟨?_, hparam, hty⟩
  obtain ⟨d, dblk, hd, hdef⟩ := DefsOk.definedIn_of_avail hc prefix_rfl hav
  rcases hdef with hp | ⟨id, inst, hid, hinst, hres⟩
  · refine .param hd hp (.of_first_edges hentry fun c hedge hfirst => ?_)
    obtain ⟨cblk, hc, hav, _⟩ := hwf.avail_of_first hb hk hin hedge hfirst
    exact hav.dom_of_param hwf hc (List.Subset.refl _) hd hp
  · have hdom : ∀ c, b ∈ r.succs c → ¬ r.flow.Dom b c → r.flow.Dom d c := by
      intro c hedge hfirst
      obtain ⟨cblk, hc, hav, _⟩ := hwf.avail_of_first hb hk hin hedge hfirst
      rcases hav.of_result hwf hc (List.Subset.refl _) hd hid hinst hres with ⟨_, h⟩ | ⟨rfl, _⟩
      · exact h
      · exact .refl _
    have hne : d ≠ b := by
      rintro rfl
      exact hfirst (hdom c hedge hfirst)
    exact .above hd hid hinst hres hne (.of_first_edges hentry hdom)

/-- A value that all other arguments for a parameter may be replaced by replaces the parameter. -/
theorem Replaces.of_param (hwf : WF r) (hb : r.blocks[b]? = some blk) (hentry : b ∉ r.entries)
    (hk : blk.params[k]? = some v) (hin : ∀ a, r.Arrives b k a → Replaces r w a ∨ Replaces r v a) :
    Replaces r w v := by
  obtain ⟨hw, hparam, hty⟩ := hwf.avail_of_incoming hb hentry hk hin
  have hmem : v ∈ blk.params := mem_of_getElem? hk
  have hav : ∀ {c : BlockId} {cblk : Block} {pre : List InstId}, r.blocks[c]? = some cblk →
      pre <+: cblk.instructions → Avail r c pre v → Avail r c pre w := by
    intro c cblk pre hc hpre hv
    by_cases hcb : b = c
    · subst hcb
      exact hw.mono (nil_subset _)
    · exact hw.down hwf hb (nil_subset _) hcb (hv.dom_of_param hwf hc hpre.subset hb hmem)
  refine ⟨hty, hav, fun {c pre e} hat hv => ?_⟩
  induction hat with
  | @entry c init hc =>
    have hget := List.getElem?_eq_getElem (hwf.cfg.entry_lt c hc)
    have hdom := hv.dom_of_param hwf hget (nil_subset _) hb hmem
    exact absurd (hdom.of_entry hc ▸ hc) hentry
  | @inst c pre post id e cblk inst choice hat hc hsplit hinst ih =>
    have hv' : Avail r c pre v := by
      rcases hv.of_snoc hinst with hv | hres
      · exact hv
      · exact absurd hres (hwf.param_ne_result hb hc hmem (by simp [hsplit]) hinst)
    have hw' := hav hc ⟨_, hsplit.symm⟩ hv'
    rw [Env.setAll_of_not_mem (hv'.not_mem_results hwf hc hsplit hinst),
      Env.setAll_of_not_mem (hw'.not_mem_results hwf hc hsplit hinst)]
    exact ih hv'
  | @edge c e cblk term edge hat hc hterm htaken ih =>
    have he := Terminator.mem_edges_of_taken htaken
    have hsucc : edge.target ∈ r.succs c := by
      rw [Region.succs_of_blocks hc, Block.succs, hterm]
      exact mem_map_of_mem he
    by_cases hcb : edge.target = b
    · -- the parameter is assigned its argument, which is equal to one of the two values
      obtain ⟨a, ha, hava, _⟩ := hwf.arg_of_edge hb hk hc hterm he hcb
      rw [hcb, Region.params_of_get hb, Env.setAll_of_not_mem hparam,
        Env.setAll_getElem (hwf.params_nodup hb) hk (x := e a) (by simp [ha])]
      rcases hin a ⟨c, cblk, term, edge, hc, hterm, he, hcb, ha⟩ with hwa | hva
      · exact hwa.value hat hava
      · rw [ih (hva.avail hc prefix_rfl hava), hva.value hat hava]
    · obtain ⟨tblk, ht⟩ := exists_get (hwf.cfg.target_lt c edge.target hsucc)
      have hvt : v ∉ tblk.params := fun h =>
        hcb (hwf.definedIn_unique ht hb (.inl h) (.inl hmem))
      have hdom := hv.dom_of_param hwf ht (nil_subset _) hb hmem
      have hwt : w ∉ tblk.params := fun h =>
        hcb ((hw.dom_of_param hwf hb (nil_subset _) ht h).antisymm (hwf.reach_of_get ht) hdom)
      rw [Region.params_of_get ht, Env.setAll_of_not_mem hvt, Env.setAll_of_not_mem hwt]
      exact ih (hv.of_edge hc ht hsucc hvt)

end

namespace TrivialPhis

/-! ## Chains of aliases -/

/-- The aliases of a value end in another one after so many steps. -/
inductive Chain (aliases : List (Option ValueId)) : Nat → ValueId → ValueId → Prop
  | done {v : ValueId} : aliases[v]? = some none → Chain aliases 0 v v
  | step {n : Nat} {v u w : ValueId} : aliases[v]? = some (some u) → Chain aliases n u w →
      Chain aliases (n + 1) v w

namespace Chain

variable {aliases : List (Option ValueId)} {n : Nat} {u v w p : ValueId}

theorem last (h : Chain aliases n v w) : aliases[w]? = some none := by
  induction h with
  | done h => exact h
  | step _ _ ih => exact ih

theorem loop_eq (h : Chain aliases n v w) {fuel : Nat} (hf : n < fuel) :
    loop (follow aliases) fuel v = .ok w := by
  induction h generalizing fuel with
  | done h =>
    obtain ⟨fuel, rfl⟩ := Nat.exists_eq_add_one_of_ne_zero (Nat.ne_zero_of_lt hf)
    simp [loop, follow, idx_eq_ok.2 h]
  | step h _ ih =>
    obtain ⟨fuel, rfl⟩ := Nat.exists_eq_add_one_of_ne_zero (Nat.ne_zero_of_lt hf)
    simpa [loop, follow, idx_eq_ok.2 h] using ih (by omega)

/-- A new alias does not change the chains that end elsewhere. -/
theorem set_of_ne (h : Chain aliases n v w) (hp : aliases[p]? = some none) (hw : w ≠ p) :
    Chain (aliases.set p (some u)) n v w := by
  induction h with
  | done h => exact .done (by rw [List.getElem?_set_ne (Ne.symm hw)]; exact h)
  | @step n v x w h _ ih =>
    have hvp : p ≠ v := by rintro rfl; cases hp.symm.trans h
    exact .step (by rw [List.getElem?_set_ne hvp]; exact h) (ih hw)

/-- A new alias makes the chains that end in it one step longer. -/
theorem set_of_eq (h : Chain aliases n v p) (hu : aliases[u]? = some none) (hup : u ≠ p) :
    Chain (aliases.set p (some u)) (n + 1) v u := by
  have hp := h.last
  generalize hq : p = q at h
  induction h with
  | done h =>
    subst hq
    refine .step (List.getElem?_set_self (List.getElem?_eq_some_iff.1 hp).1) (.done ?_)
    rw [List.getElem?_set_ne (Ne.symm hup)]
    exact hu
  | @step n v x w h _ ih =>
    subst hq
    have hvp : p ≠ v := by rintro rfl; cases hp.symm.trans h
    exact .step (by rw [List.getElem?_set_ne hvp]; exact h) (ih rfl)

end Chain

/-! ## The search -/

section
variable {r : Region} {b : BlockId} {blk : Block} {k : Nat} {v w : ValueId}

/-- What is known of the aliases. -/
structure Aliases (r : Region) (aliases : List (Option ValueId)) (count : Nat) : Prop where
  length : aliases.length = r.values.length
  counted : aliases.countP Option.isSome = count
  chain : ∀ {v : ValueId}, v < r.values.length →
    ∃ n w, n ≤ count ∧ Chain aliases n v w ∧ Replaces r w v
  param : ∀ {v w : ValueId}, aliases[v]? = some (some w) → ∃ b blk, r.blocks[b]? = some blk ∧
    v ∈ blk.params ∧ b ∉ r.entries ∧ r.ty v ≠ .effect

variable {aliases : List (Option ValueId)} {count : Nat}

theorem Aliases.count_le (h : Aliases r aliases count) : count ≤ r.values.length := by
  rw [← h.counted, ← h.length]
  exact countP_le_length

theorem Aliases.resolve_gives (h : Aliases r aliases count) (hv : v < r.values.length) :
    Gives (resolve aliases v) fun w => aliases[w]? = some none ∧ Replaces r w v := by
  obtain ⟨n, w, hn, hchain, hrep⟩ := h.chain hv
  refine ⟨w, hchain.loop_eq ?_, hchain.last, hrep⟩
  have := h.count_le
  have := h.length
  omega

/-- Outside the table there is nothing to resolve. -/
theorem resolve_out (hv : ¬ v < aliases.length) : resolve aliases v = .error .panic := by
  simp [resolve, loop, follow, idx, List.getElem?_eq_none (Nat.not_lt.1 hv)]

/-- Enter the alias of a parameter. -/
theorem Aliases.set (hwf : WF r) (h : Aliases r aliases count) (hb : r.blocks[b]? = some blk)
    (hentry : b ∉ r.entries) (hv : v ∈ blk.params) (hty : r.ty v ≠ .effect)
    (hnone : aliases[v]? = some none) (hw : aliases[w]? = some none) (hne : w ≠ v)
    (hrep : Replaces r w v) : Aliases r (aliases.set v (some w)) (count + 1) := by
  have hlt := (List.getElem?_eq_some_iff.1 hnone).1
  refine ⟨by simpa using h.length, ?_, fun {u} hu => ?_, fun {u x} hu => ?_⟩
  · rw [countP_set hlt, h.counted, (List.getElem?_eq_some_iff.1 hnone).2]
    simp
  · obtain ⟨n, x, hn, hchain, hx⟩ := h.chain hu
    by_cases hxv : x = v
    · subst hxv
      exact ⟨n + 1, w, by omega, hchain.set_of_eq hw hne, hrep.trans hwf hx⟩
    · exact ⟨n, x, by omega, hchain.set_of_ne hnone hxv, hx⟩
  · by_cases huv : u = v
    · subst huv
      exact ⟨b, blk, hb, hv, hentry, hty⟩
    · rw [List.getElem?_set_ne (Ne.symm huv)] at hu
      exact h.param hu

/-! ### Incoming edges -/

/-- The edges that the table lists for a block. -/
def Listed (r : Region) (n : Nat) (b : BlockId) (e : BlockId × Nat) : Prop :=
  ∃ cblk term edge, e.1 < n ∧ r.blocks[e.1]? = some cblk ∧ cblk.terminator = some term ∧
    term.edges[e.2]? = some edge ∧ edge.target = b

/-- A table of incoming edges. -/
def Table (r : Region) (table : List (List (BlockId × Nat))) : Prop :=
  table.length = r.blocks.length ∧
    ∀ b l, table[b]? = some l → ∀ e, e ∈ l ↔ Listed r r.blocks.length b e

variable {table : List (List (BlockId × Nat))}

theorem incoming_gives (hwf : WF r) : Gives (incoming r) (Table r) := by
  refine (Gives.foldlM (I := fun done table => table.length = r.blocks.length ∧
    ∀ b l, table[b]? = some l → ∀ e, e ∈ l ↔ Listed r done.length b e) ?_ ?_).mono
    fun table h => by simpa [Table] using h
  · rintro done ⟨cblk, c⟩ rest table hsplit ⟨hlen, hmem⟩
    obtain ⟨hcn, hc⟩ := zipIdx_split hsplit
    obtain ⟨term, hterm⟩ := hwf.cfg.terminated c cblk hc
    dsimp only at hcn hc ⊢
    rw [unwrap_eq_ok.2 hterm, ok_bind, length_append, length_singleton, ← hcn]
    rw [← hcn] at hmem
    refine (Gives.foldlM (I := fun seen table => table.length = r.blocks.length ∧
      ∀ b l, table[b]? = some l → ∀ e, e ∈ l ↔ Listed r c b e ∨
        e.1 = c ∧ e.2 < seen.length ∧ ∃ edge, term.edges[e.2]? = some edge ∧ edge.target = b)
      ?_ ?_).mono fun table ⟨hlen, hmem⟩ => ⟨hlen, fun b l hl e => ?_⟩
    · rintro seen ⟨edge, j⟩ rest' table hsplit' ⟨hlen, hmem⟩
      obtain ⟨hj, hedge⟩ := zipIdx_split hsplit'
      dsimp only at hj hedge ⊢
      have hlt : edge.target < table.length := by
        rw [hlen]
        refine hwf.cfg.target_lt c edge.target ?_
        rw [Region.succs_of_blocks hc, Block.succs, hterm]
        exact mem_map_of_mem (mem_of_getElem? hedge)
      obtain ⟨old, hold⟩ := exists_get hlt
      rw [idx_eq_ok.2 hold, ok_bind]
      refine ⟨_, setAt_eq_ok.2 ⟨hlt, rfl⟩, by simpa using hlen, fun b l hl e => ?_⟩
      rw [length_append, length_singleton, ← hj]
      rw [← hj] at hmem
      by_cases hb : b = edge.target
      · subst hb
        rw [List.getElem?_set_self hlt] at hl
        cases hl
        rw [mem_append, hmem _ _ hold, mem_singleton, or_assoc]
        refine or_congr_right ⟨?_, ?_⟩
        · rintro (⟨h1, h2, h3⟩ | rfl)
          · exact ⟨h1, by omega, h3⟩
          · exact ⟨rfl, Nat.lt_succ_self _, edge, hedge, rfl⟩
        · rintro ⟨h1, h2, h3⟩
          rcases Nat.lt_succ_iff_lt_or_eq.1 h2 with h2 | h2
          · exact .inl ⟨h1, h2, h3⟩
          · exact .inr (Prod.ext h1 h2)
      · rw [List.getElem?_set_ne (Ne.symm hb)] at hl
        rw [hmem _ _ hl]
        refine or_congr_right (and_congr_right fun _ => ⟨?_, ?_⟩)
        · rintro ⟨h2, h3⟩
          exact ⟨by omega, h3⟩
        · rintro ⟨h2, edge', h3, h4⟩
          refine ⟨(Nat.lt_succ_iff_lt_or_eq.1 h2).resolve_right fun h2 => ?_, edge', h3, h4⟩
          rw [h2, hedge] at h3
          cases h3
          exact hb h4.symm
    · exact ⟨hlen, fun b l hl e => by simp [hmem b l hl e]⟩
    · rw [hmem b l hl]
      constructor
      · rintro (⟨x, t, g, h1, h2⟩ | ⟨h1, _, edge, h3, h4⟩)
        · exact ⟨x, t, g, Nat.lt_succ_of_lt h1, h2⟩
        · exact ⟨cblk, term, edge, h1 ▸ Nat.lt_succ_self _, h1 ▸ hc, hterm, h3, h4⟩
      · rintro ⟨x, t, g, h1, h2, h3, h4, h5⟩
        rcases Nat.lt_succ_iff_lt_or_eq.1 h1 with h1 | h1
        · exact .inl ⟨x, t, g, h1, h2, h3, h4, h5⟩
        · rw [h1, hc] at h2
          cases h2
          cases hterm.symm.trans h3
          refine .inr ⟨h1, ?_, g, h4, h5⟩
          simpa using (List.getElem?_eq_some_iff.1 h4).1
  · refine ⟨by simp, fun b l hl e => ?_⟩
    rw [List.getElem?_replicate] at hl
    split at hl <;> cases hl
    simp [Listed]

variable {e : BlockId × Nat} {cblk : Block} {a : ValueId} {s s' : State} {P Q : Prop}
  {kept : ValueId → Bool}

theorem arg_eq {term : Terminator} {edge : Edge} (hc : r.blocks[e.1]? = some cblk)
    (hterm : cblk.terminator = some term)
    (hedge : term.edges[e.2]? = some edge) : arg r e k = idx edge.args k := by
  rw [arg, idx_eq_ok.2 hc, ok_bind, unwrap_eq_ok.2 hterm, ok_bind]
  obtain ⟨c, j⟩ := e
  match term, j, hedge with
  | .branch _, 0, h => cases h; rfl
  | .condBranch _ _ _, 0, h => cases h; rfl
  | .condBranch _ _ _, 1, h => cases h; rfl

theorem Listed.arrives (hwf : WF r) (hb : r.blocks[b]? = some blk) (hk : blk.params[k]? = some v)
    {n : Nat} (he : Listed r n b e) : ∃ a, arg r e k = .ok a ∧ r.Arrives b k a := by
  obtain ⟨cblk, term, edge, _, hc, hterm, hedge, ht⟩ := he
  have hmem := mem_of_getElem? hedge
  obtain ⟨a, ha, _, _⟩ := hwf.arg_of_edge hb hk hc hterm hmem ht
  exact ⟨a, (arg_eq hc hterm hedge).trans (idx_eq_ok.2 ha), e.1, cblk, term, edge, hc, hterm, hmem,
    ht, ha⟩

theorem listed_of_arrives (ha : r.Arrives b k a) :
    ∃ e, Listed r r.blocks.length b e ∧ arg r e k = .ok a := by
  obtain ⟨c, cblk, term, edge, hc, hterm, hmem, ht, ha⟩ := ha
  obtain ⟨j, hj⟩ := mem_iff_getElem?.1 hmem
  exact ⟨(c, j), ⟨cblk, term, edge, (List.getElem?_eq_some_iff.1 hc).1, hc, hterm, hj, ht⟩,
    (arg_eq hc hterm hj).trans (idx_eq_ok.2 ha)⟩

/-! ### Candidates -/

/-- Apart from `v` the values `P` are `w` alone. -/
def Only (P : ValueId → Prop) (v w : ValueId) : Prop := w ≠ v ∧ P w ∧ ∀ x, P x → x = v ∨ x = w

/-- What the argument of an edge resolves to. -/
def Resolves (r : Region) (aliases : List (Option ValueId)) (k : Nat) (e : BlockId × Nat)
    (w : ValueId) : Prop :=
  ∃ a, arg r e k = .ok a ∧ resolve aliases a = .ok w

theorem candidate_gives {l : List (BlockId × Nat)} (found : Option ValueId)
    (h : ∀ e ∈ l, ∃ w, Resolves r aliases k e w) (hfound : ∀ w, found = some w → w ≠ v) :
    Gives (candidate r aliases v k found l) fun o => ∀ w, o = some w ↔
      Only (fun x => found = some x ∨ ∃ e ∈ l, Resolves r aliases k e x) v w := by
  induction l generalizing found with
  | nil =>
    refine .ok fun w => ⟨fun hw => ⟨hfound w hw, .inl hw, ?_⟩, ?_⟩
    · rintro x (hx | ⟨_, h, _⟩)
      · exact .inr (Option.some.inj (hx.symm.trans hw))
      · cases h
    · rintro ⟨_, hw | ⟨_, h, _⟩, _⟩
      · exact hw
      · cases h
  | cons e l ih =>
    obtain ⟨y, a, ha, hy⟩ := h e (by simp)
    have hres : ∀ x, Resolves r aliases k e x ↔ x = y := by
      refine fun x => ⟨?_, fun hx => ⟨a, ha, hx ▸ hy⟩⟩
      rintro ⟨a', ha', hx⟩
      cases ha.symm.trans ha'
      exact (Except.ok.inj (hy.symm.trans hx)).symm
    have ih := fun found => ih found fun e he => h e (by simp [he])
    simp only [candidate, ha, hy, ok_bind, exists_mem_cons_iff, hres]
    split
    · next hyv =>
      -- the parameter itself
      subst hyv
      refine (ih found hfound).mono fun o ho w => (ho w).trans ?_
      constructor
      · rintro ⟨hne, hw, hall⟩
        refine ⟨hne, hw.imp id .inr, ?_⟩
        rintro x (hx | hx | hx)
        · exact hall x (.inl hx)
        · exact .inl hx
        · exact hall x (.inr hx)
      · rintro ⟨hne, hw, hall⟩
        refine ⟨hne, hw.imp id (Or.resolve_left · hne), fun x hx => hall x (hx.imp id .inr)⟩
    · next hyv =>
      split
      · next hdiff =>
        -- two different values
        obtain ⟨z, hz⟩ := Option.isSome_iff_exists.1 hdiff.1
        refine .ok fun w => ⟨nofun, ?_⟩
        rintro ⟨hne, _, hall⟩
        have h1 := (hall z (.inl hz)).resolve_left (hfound z hz)
        have h2 := (hall y (.inr (.inl rfl))).resolve_left hyv
        exact absurd (by rw [hz, h1, h2]) hdiff.2
      · next hsame =>
        have hfy : ∀ x, found = some x → x = y := by
          intro x hx
          by_contra hne
          exact hsame ⟨by simp [hx], by simpa [hx] using hne⟩
        refine (ih (some y) (by simpa using hyv)).mono fun o ho w => (ho w).trans ?_
        have hiff : ∀ x, (some y = some x ∨ ∃ e ∈ l, Resolves r aliases k e x) ↔
            (found = some x ∨ x = y ∨ ∃ e ∈ l, Resolves r aliases k e x) := by
          intro x
          constructor
          · rintro (hx | hx)
            · exact .inr (.inl (Option.some.inj hx).symm)
            · exact .inr (.inr hx)
          · rintro (hx | hx | hx)
            · exact .inl (by rw [hfy x hx])
            · exact .inl (by rw [hx])
            · exact .inr hx
        simp only [Only, hiff]

/-! ### One visit -/

/-- A parameter that is trivial in the region itself. -/
def Trivial (r : Region) (b : BlockId) (k : Nat) : Prop :=
  ∃ (blk : Block) (v w : ValueId), r.blocks[b]? = some blk ∧ blk.params[k]? = some v ∧
    b ∉ r.entries ∧ r.ty v ≠ .effect ∧ Only (r.Arrives b k) v w

/-- What is known of the state of the search. -/
structure Search (r : Region) (s : State) : Prop where
  aliases : Aliases r s.aliases s.count
  removed : ∀ {b : BlockId} {blk : Block}, r.blocks[b]? = some blk →
    s.removed[b]? = some (blk.params.map fun v => (aliasOf s.aliases v).isSome)
  found : s.count = 0 ∨ ∃ b k, Trivial r b k

theorem lt_of_arrives (hwf : WF r) (hb : r.blocks[b]? = some blk) (hk : blk.params[k]? = some v)
    (ha : r.Arrives b k a) : a < r.values.length := by
  obtain ⟨c, cblk, term, edge, hc, hterm, he, ht, ha⟩ := ha
  obtain ⟨a', ha', hav, _⟩ := hwf.arg_of_edge hb hk hc hterm he ht
  cases ha.symm.trans ha'
  obtain ⟨data, hslot, _⟩ := hav.slot hwf hc prefix_rfl
  exact (List.getElem?_eq_some_iff.1 hslot).1

/-- What the arguments of the listed edges resolve to. -/
theorem Aliases.resolves (hwf : WF r) (h : Aliases r aliases count) (hb : r.blocks[b]? = some blk)
    (hk : blk.params[k]? = some v) {l : List (BlockId × Nat)}
    (hl : ∀ e, e ∈ l ↔ Listed r r.blocks.length b e) : (∀ e ∈ l, ∃ w, Resolves r aliases k e w) ∧
    ∀ w, (∃ e ∈ l, Resolves r aliases k e w) ↔ ∃ a, r.Arrives b k a ∧ resolve aliases a = .ok w := by
  refine ⟨fun e he => ?_, fun w => ⟨?_, ?_⟩⟩
  · obtain ⟨a, ha, harr⟩ := ((hl e).1 he).arrives hwf hb hk
    obtain ⟨w, hw, _⟩ := h.resolve_gives (lt_of_arrives hwf hb hk harr)
    exact ⟨w, a, ha, hw⟩
  · rintro ⟨e, he, a, ha, hw⟩
    obtain ⟨a', ha', harr⟩ := ((hl e).1 he).arrives hwf hb hk
    cases ha.symm.trans ha'
    exact ⟨a, harr, hw⟩
  · rintro ⟨a, harr, hw⟩
    obtain ⟨e, he, ha⟩ := listed_of_arrives harr
    exact ⟨e, (hl e).2 he, a, ha, hw⟩

/-- Without aliases every value resolves to itself. -/
theorem Aliases.resolve_zero (h : Aliases r aliases 0) (hv : v < r.values.length) :
    resolve aliases v = .ok v := by
  obtain ⟨n, w, hn, hchain, _⟩ := h.chain hv
  cases Nat.le_zero.1 hn
  cases hchain with
  | done _ => exact Chain.loop_eq (.done ‹_›) (Nat.succ_pos _)

theorem Aliases.only_zero (hwf : WF r) (h : Aliases r aliases 0) (hb : r.blocks[b]? = some blk)
    (hk : blk.params[k]? = some v) :
    Only (fun w => ∃ a, r.Arrives b k a ∧ resolve aliases a = .ok w) v w ↔
      Only (r.Arrives b k) v w := by
  have hiff : ∀ w, (∃ a, r.Arrives b k a ∧ resolve aliases a = .ok w) ↔ r.Arrives b k w := by
    intro w
    constructor
    · rintro ⟨a, ha, hw⟩
      rw [h.resolve_zero (lt_of_arrives hwf hb hk ha)] at hw
      cases hw
      exact ha
    · exact fun hw => ⟨w, hw, h.resolve_zero (lt_of_arrives hwf hb hk hw)⟩
  simp only [Only, hiff]

/-- The flags of the removed parameters after one more alias. -/
theorem removed_set (hwf : WF r) (hb : r.blocks[b]? = some blk) (hk : blk.params[k]? = some v)
    (hlt : v < aliases.length) {removed : List (List Bool)}
    (h : ∀ {c : BlockId} {cblk : Block}, r.blocks[c]? = some cblk →
      removed[c]? = some (cblk.params.map fun v => (aliasOf aliases v).isSome)) {c : BlockId}
    (hc : r.blocks[c]? = some cblk) :
    (removed.set b ((blk.params.map fun v => (aliasOf aliases v).isSome).set k true))[c]? =
      some (cblk.params.map fun u => (aliasOf (aliases.set v (some w)) u).isSome) := by
  have hset : ∀ u, (aliasOf (aliases.set v (some w)) u).isSome =
      if u = v then true else (aliasOf aliases u).isSome := by
    intro u
    rw [aliasOf_set hlt]
    split <;> rfl
  simp only [hset]
  by_cases hcb : c = b
  · subst hcb
    cases hb.symm.trans hc
    rw [List.getElem?_set_self (List.getElem?_eq_some_iff.1 (h hb)).1, Option.some.injEq]
    refine ext_getElem? fun j => ?_
    by_cases hjk : k = j
    · subst hjk
      have hlt := (List.getElem?_eq_some_iff.1 hk).1
      rw [List.getElem?_set_self (by simpa using hlt), List.getElem?_map, hk]
      simp
    · rw [List.getElem?_set_ne hjk, List.getElem?_map, List.getElem?_map]
      cases hj : blk.params[j]? with
      | none => rfl
      | some u =>
        have hne : u ≠ v := by
          rintro rfl
          obtain ⟨h1, h2⟩ := List.getElem?_eq_some_iff.1 hj
          obtain ⟨h3, h4⟩ := List.getElem?_eq_some_iff.1 hk
          exact hjk ((hwf.params_nodup hb).getElem_inj_iff.1 (h4.trans h2.symm))
        simp [hne]
  · rw [List.getElem?_set_ne (Ne.symm hcb), h hc, Option.some.injEq]
    refine map_congr_left fun u hu => ?_
    rw [if_neg]
    rintro rfl
    exact hcb (hwf.definedIn_unique hc hb (.inl hu) (.inl (mem_of_getElem? hk)))

/-- What one visit does to the state. -/
structure Visited (r : Region) (P : Prop) (s s' : State) : Prop where
  search : Search r s'
  count_le : s.count ≤ s'.count
  changed : s'.changed = true → s.changed = true ∨ s.count < s'.count
  none : s'.count = 0 → P

theorem visitParam_gives (hwf : WF r) (htable : Table r table) (hb : r.blocks[b]? = some blk)
    (hentry : b ∉ r.entries) (hk : k < blk.params.length) (h : Search r s) :
    Gives (visitParam r table b s k) (Visited r (¬ Trivial r b k) s) := by
  obtain ⟨v, hk⟩ := exists_get hk
  have hsame : (s.count = 0 → ¬ Trivial r b k) → Visited r (¬ Trivial r b k) s s :=
    fun hnot => ⟨h, Nat.le_refl _, .inl, hnot⟩
  obtain ⟨ty, hslot, _⟩ := hwf.param hb hk
  have hty : ty = r.ty v := by simp [Region.ty, hslot]
  have hlt : v < s.aliases.length := h.aliases.length ▸ (List.getElem?_eq_some_iff.1 hslot).1
  obtain ⟨l, hl⟩ := exists_get (htable.1 ▸ (List.getElem?_eq_some_iff.1 hb).1)
  have hflag : (blk.params.map fun v => (aliasOf s.aliases v).isSome)[k]? =
      some (aliasOf s.aliases v).isSome := by simp [hk]
  unfold visitParam
  rw [idx_eq_ok.2 (h.removed hb), ok_bind, idx_eq_ok.2 hflag, ok_bind]
  obtain ⟨o, hva⟩ := exists_get hlt
  have hoa : aliasOf s.aliases v = o := by simp [aliasOf, List.getD, hva]
  rw [hoa]
  cases o with
  | some w =>
    refine .ok (hsame fun h0 => ?_)
    have hpos := h.aliases.counted
    rw [h0, countP_eq_zero] at hpos
    exact absurd rfl (hpos _ (mem_of_getElem? hva))
  | none =>
    rw [if_neg (by simp), idx_eq_ok.2 hb, ok_bind, idx_eq_ok.2 hk, ok_bind, idx_eq_ok.2 hslot, ok_bind]
    dsimp only
    split
    · next heff =>
      refine .ok (hsame fun _ => ?_)
      rintro ⟨blk', v', w, hb', hk', _, hne, _⟩
      cases hb.symm.trans hb'
      cases hk.symm.trans hk'
      exact hne (hty ▸ heff)
    · next heff =>
      rw [idx_eq_ok.2 hl, ok_bind]
      obtain ⟨hres, hiff⟩ := h.aliases.resolves hwf hb hk (htable.2 b l hl)
      refine (candidate_gives (v := v) none hres fun _ h => (by cases h)).bind fun o ho => ?_
      simp only [reduceCtorEq, false_or, hiff] at ho
      cases o with
      | none =>
        refine .ok (hsame fun h0 => ?_)
        rintro ⟨blk', v', w, hb', hk', _, _, honly⟩
        cases hb.symm.trans hb'
        cases hk.symm.trans hk'
        have := (ho w).2 (((h0 ▸ h.aliases).only_zero hwf hb hk).2 honly)
        cases this
      | some w =>
        obtain ⟨hne, ⟨a, harr, hw⟩, hall⟩ := (ho w).1 rfl
        have halt := lt_of_arrives hwf hb hk harr
        have hwnone : s.aliases[w]? = some none := by
          obtain ⟨w', hw', hnone, _⟩ := h.aliases.resolve_gives halt
          cases hw.symm.trans hw'
          exact hnone
        have hrep : Replaces r w v := by
          refine .of_param hwf hb hentry hk fun x hx => ?_
          obtain ⟨y, hy, _, hyx⟩ := h.aliases.resolve_gives (lt_of_arrives hwf hb hk hx)
          rcases hall y ⟨x, hx, hy⟩ with rfl | rfl
          · exact .inr hyx
          · exact .inl hyx
        dsimp only
        rw [setAt_eq_ok.2 ⟨hlt, rfl⟩, ok_bind, ok_bind,
          setAt_eq_ok.2 ⟨by simpa using (List.getElem?_eq_some_iff.1 hk).1, rfl⟩, ok_bind,
          setAt_eq_ok.2 ⟨(List.getElem?_eq_some_iff.1 (h.removed hb)).1, rfl⟩, ok_bind]
        refine .ok ⟨⟨?_, fun hc => ?_, .inr ?_⟩, Nat.le_succ _, fun _ => .inr (Nat.lt_succ_self _),
          fun h0 => absurd h0 (Nat.succ_ne_zero _)⟩
        · exact h.aliases.set hwf hb hentry (mem_of_getElem? hk) (hty ▸ heff) hva hwnone hne hrep
        · exact removed_set hwf hb hk hlt h.removed hc
        · refine h.found.elim (fun h0 => ?_) id
          exact ⟨b, k, blk, v, w, hb, hk, hentry, hty ▸ heff,
            ((h0 ▸ h.aliases).only_zero hwf hb hk).1 ⟨hne, ⟨a, harr, hw⟩, hall⟩⟩

theorem Visited.refl (h : Search r s) (hP : P) : Visited r P s s :=
  ⟨h, Nat.le_refl _, .inl, fun _ => hP⟩

theorem Visited.trans {s'' : State} (h : Visited r P s s')
    (h' : Visited r Q s' s'') : Visited r (P ∧ Q) s s'' := by
  refine ⟨h'.search, Nat.le_trans h.count_le h'.count_le, fun hc => ?_, fun h0 => ?_⟩
  · have := h.count_le
    have := h'.count_le
    rcases h'.changed hc with hc | hc
    · exact (h.changed hc).imp id (by omega)
    · exact .inr (by omega)
  · have := h'.count_le
    exact ⟨h.none (by omega), h'.none h0⟩

theorem Visited.imp (h : Visited r P s s') (hPQ : P → Q) : Visited r Q s s' :=
  ⟨h.search, h.count_le, h.changed, fun h0 => hPQ (h.none h0)⟩

theorem visitBlock_gives (hwf : WF r) (htable : Table r table) (hb : r.blocks[b]? = some blk)
    (h : Search r s) : Gives (visitBlock r table s b) (Visited r (∀ k, ¬ Trivial r b k) s) := by
  unfold visitBlock
  split
  · next hentry =>
    refine .ok (.refl h fun k => ?_)
    rintro ⟨_, _, _, _, _, hnot, _⟩
    exact hnot hentry
  · next hentry =>
    rw [idx_eq_ok.2 hb, ok_bind]
    refine (Gives.foldlM (I := fun done s' => Visited r (∀ k ∈ done, ¬ Trivial r b k) s s') ?_
      (.refl h nofun)).mono fun s' hs' => hs'.imp fun hall k => ?_
    · intro done k rest s' hsplit hs'
      have hk : k < blk.params.length := by
        rw [← mem_range, hsplit]
        simp
      refine (visitParam_gives hwf htable hb hentry hk hs'.search).mono fun s'' hs'' =>
        (hs'.trans hs'').imp ?_
      rintro ⟨h1, h2⟩ j hj
      rcases List.mem_append.1 hj with hj | hj
      · exact h1 j hj
      · cases List.mem_singleton.1 hj
        exact h2
    · by_cases hk : k < blk.params.length
      · exact hall k (List.mem_range.2 hk)
      · rintro ⟨blk', v, w, hb', hk', _⟩
        cases hb.symm.trans hb'
        exact hk (List.getElem?_eq_some_iff.1 hk').1

theorem sweep_gives (hwf : WF r) (htable : Table r table) (h : Search r s) :
    Gives (sweep r table s) (Sum.elim (fun s' => Search r s' ∧ s.count < s'.count)
      (fun s' => Search r s' ∧ (s'.count = 0 ↔ ∀ b k, ¬ Trivial r b k))) := by
  have h₀ : Search r { s with changed := false } := ⟨h.aliases, h.removed, h.found⟩
  refine (Gives.foldlM (I := fun done s' => Visited r (∀ b ∈ done, ∀ k, ¬ Trivial r b k)
    { s with changed := false } s') ?_ (.refl h₀ nofun)).bind fun s' hs' => ?_
  · intro done b rest s' hsplit hs'
    have hb : b < r.blocks.length := by
      rw [← mem_range, hsplit]
      simp
    obtain ⟨blk, hb⟩ := exists_get hb
    refine (visitBlock_gives hwf htable hb hs'.search).mono fun s'' hs'' =>
      (hs'.trans hs'').imp ?_
    rintro ⟨h1, h2⟩ j hj
    rcases List.mem_append.1 hj with hj | hj
    · exact h1 j hj
    · cases List.mem_singleton.1 hj
      exact h2
  · cases hc : s'.changed with
    | true => exact .ok ⟨hs'.search, (hs'.changed hc).resolve_left nofun⟩
    | false =>
      refine .ok ⟨hs'.search, fun h0 b k htriv => ?_, fun hall => ?_⟩
      · obtain ⟨blk, v, w, hb, _⟩ := id htriv
        exact hs'.none h0 b (List.mem_range.2 (List.getElem?_eq_some_iff.1 hb).1) k htriv
      · rcases hs'.search.found with h0 | ⟨b, k, htriv⟩
        · exact h0
        · exact absurd htriv (hall b k)

/-- The search ends: the aliases are sound, and some are found exactly when a parameter is
trivial. -/
theorem find_gives (hwf : WF r) : Gives (find r) fun s =>
    Search r s ∧ (s.count = 0 ↔ ∀ b k, ¬ Trivial r b k) := by
  refine (incoming_gives hwf).bind fun table htable => ?_
  refine Gives.loop (I := Search r) (fun s => r.values.length - s.count) (fun s hs => ?_)
    ⟨⟨by simp, ?_, fun {v} hv => ?_, fun h => ?_⟩, fun hb => ?_, .inl rfl⟩
    (Nat.lt_succ_of_le (Nat.sub_le _ _))
  · refine (sweep_gives hwf htable hs).mono fun t ht => ?_
    cases t with
    | inl s' =>
      have := ht.1.aliases.count_le
      exact ⟨ht.1, by have := ht.2; omega⟩
    | inr s' => exact ht
  · simp [countP_replicate]
  · exact ⟨0, v, Nat.le_refl _, .done (by simp [hv]), .refl r v⟩
  · rw [List.getElem?_replicate] at h
    split at h <;> cases h
  · simp [hb]

/-! ## The rewrite -/

/-- The value that the rewrite puts in the place of a value. -/
def root (aliases : List (Option ValueId)) (v : ValueId) : ValueId :=
  (resolve aliases v).toOption.getD v

/-- The search as a rewriting. -/
def rewriting (r : Region) (aliases : List (Option ValueId)) : Rewriting where
  live b := b < r.blocks.length
  block := id
  inst := id
  state := id
  value := id
  rep := root aliases
  keep _ := true
  kept v := (aliasOf aliases v).isNone
  op _ := none

theorem retain_eq {α : Type} {kept : ValueId → Bool} :
    ∀ {l : List α} {ps : List ValueId}, ps.length = l.length →
      retain (ps.map fun v => !kept v) l = .ok (((l.zip ps).filter fun p => kept p.2).map (·.1))
  | [], [], _ => rfl
  | a :: l, v :: ps, h => by
    rw [map_cons, retain, retain_eq (by simpa using h), ok_bind, zip_cons_cons]
    cases hv : kept v <;> simp [hv]

/-- The arguments of all parameters are kept where none is removed. -/
theorem filter_zip_eq {α : Type} {l : List α} {ps : List ValueId} (hlen : ps.length = l.length)
    (h : (ps.map fun v => !kept v).any id = false) :
    ((l.zip ps).filter fun p => kept p.2).map (·.1) = l := by
  rw [any_map, any_eq_false] at h
  rw [List.filter_eq_self.2 fun p hp => by simpa using h p.2 (of_mem_zip hp).2,
    map_fst_zip (by rw [hlen])]

theorem filter_zip_self (ps : List ValueId) :
    ((ps.zip ps).filter fun p => kept p.2).map (·.1) = ps.filter kept := by
  induction ps with
  | nil => rfl
  | cons v ps ih => cases hv : kept v <;> simp [hv, ih]

/-- The terminator without the arguments of removed parameters. -/
def dropped (m : Rewriting) (r : Region) : Terminator → Terminator
  | .branch e => .branch (m.edge r e)
  | .condBranch c t f => .condBranch (m.use c) (m.edge r t) (m.edge r f)
  | .exit s => .exit s

section
variable {s : State}

theorem dropArgs_eq (h : Search r s) {edge : Edge} (ht : r.blocks[edge.target]? = some blk)
    (hlen : blk.params.length = edge.args.length) :
    dropArgs s.removed ⟨edge.target, edge.args.map (root s.aliases)⟩ =
      .ok ((rewriting r s.aliases).edge r edge) := by
  have hflags : (fun v => (aliasOf s.aliases v).isSome) =
      fun v => !(rewriting r s.aliases).kept v := by
    funext v
    simp [rewriting]
  have hedge : (rewriting r s.aliases).edge r edge = ⟨edge.target,
      (((edge.args.map (root s.aliases)).zip blk.params).filter fun p =>
        (rewriting r s.aliases).kept p.2).map (·.1)⟩ := by
    rw [Rewriting.edge, Region.params_of_get ht, zip_map_left, filter_map, List.map_map]
    rfl
  rw [dropArgs, idx_eq_ok.2 (h.removed ht), ok_bind, hflags]
  dsimp only
  split
  · rw [retain_eq (by simpa using hlen), hedge]
    rfl
  · next hany =>
    rw [hedge, filter_zip_eq (by simpa using hlen) (by simpa using hany)]
    rfl

theorem dropTerm_eq (hwf : WF r) (h : Search r s) (hb : r.blocks[b]? = some blk)
    {term : Terminator} (hterm : blk.terminator = some term) :
    dropTerm s.removed (term.mapValues (root s.aliases)) =
      .ok (dropped (rewriting r s.aliases) r term) := by
  obtain ⟨effect, _, hok⟩ := (hwf.block hb).chain
  have hedge : ∀ e ∈ term.edges, dropArgs s.removed ⟨e.target, e.args.map (root s.aliases)⟩ =
      .ok ((rewriting r s.aliases).edge r e) := by
    intro e he
    obtain ⟨target, htarget⟩ := (hok term hterm).edges e he
    exact dropArgs_eq h htarget.get htarget.arity
  cases term with
  | branch e =>
    rw [Terminator.mapValues, dropTerm, hedge e (by simp [Terminator.edges])]
    rfl
  | condBranch c t f =>
    rw [Terminator.mapValues, dropTerm, hedge t (by simp [Terminator.edges]),
      hedge f (by simp [Terminator.edges])]
    rfl
  | exit _ => rfl

/-- The blocks after the arguments are dropped. -/
def cut (r : Region) (aliases : List (Option ValueId)) (blk : Block) : Block :=
  { blk with terminator := blk.terminator.map (dropped (rewriting r aliases) r) }

theorem dropBlocks_eq (hwf : WF r) (h : Search r s) :
    (r.mapOperands (root s.aliases)).blocks.mapM (dropBlock s.removed) =
      .ok (r.blocks.map (cut r s.aliases)) := by
  have hone : ∀ blk ∈ r.blocks, dropBlock s.removed { blk with
      terminator := blk.terminator.map (·.mapValues (root s.aliases)) } =
        .ok (cut r s.aliases blk) := by
    intro blk hmem
    obtain ⟨b, hb⟩ := mem_iff_getElem?.1 hmem
    obtain ⟨term, hterm⟩ := hwf.cfg.terminated b blk hb
    simp only [dropBlock, hterm, Option.map_some, dropTerm_eq hwf h hb hterm, cut]
    rfl
  rw [Region.mapOperands, mapM_map]
  exact mapM_eq_ok hone

/-- The arena of values after the parameters of the blocks below `n` are numbered again. -/
structure Renumbered (r : Region) (kept : ValueId → Bool) (n : Nat) (values : List Value) :
    Prop where
  length : values.length = r.values.length
  same : ∀ {v : ValueId}, (∀ (b : BlockId) (blk : Block), b < n → r.blocks[b]? = some blk →
    v ∉ blk.params) → values[v]? = r.values[v]?
  ty : ∀ {v : ValueId}, (values[v]?).map (·.ty) = (r.values[v]?).map (·.ty)
  param : ∀ {b : BlockId} {blk : Block} {i : Nat} {v : ValueId}, b < n →
    r.blocks[b]? = some blk → (blk.params.filter kept)[i]? = some v →
    values[v]? = some ⟨r.ty v, .parameter b i⟩

variable {kept : ValueId → Bool} {values : List Value}

theorem Renumbered.slot (hwf : WF r) (h : Renumbered r kept b values)
    (hb : r.blocks[b]? = some blk) (hk : blk.params[k]? = some v) :
    values[v]? = some ⟨r.ty v, .parameter b k⟩ := by
  obtain ⟨ty, hslot, _⟩ := hwf.param hb hk
  have hty : r.ty v = ty := by simp [Region.ty, hslot]
  rw [h.same, hslot, hty]
  intro c cblk hlt hc hv
  exact absurd (hwf.definedIn_unique hc hb (.inl hv) (.inl (mem_of_getElem? hk)))
    (Nat.ne_of_lt hlt)

theorem renumber_gives (hwf : WF r) (h : Renumbered r kept b values)
    (hb : r.blocks[b]? = some blk) :
    Gives (renumber b (blk.params.filter kept) values) (Renumbered r kept (b + 1)) := by
  have hnd : (blk.params.filter kept).Nodup := (hwf.params_nodup hb).filter _
  have hslot : ∀ v ∈ blk.params.filter kept, ∃ d, values[v]? = some ⟨r.ty v, d⟩ := by
    intro v hv
    obtain ⟨k, hk⟩ := mem_iff_getElem?.1 (List.mem_filter.1 hv).1
    exact ⟨_, h.slot hwf hb hk⟩
  refine (Gives.foldlM (I := fun done (values' : List Value) => values'.length = values.length ∧
    (∀ v, v ∉ blk.params.filter kept → values'[v]? = values[v]?) ∧
    (∀ v : ValueId, (values'[v]?).map (·.ty) = (values[v]?).map (·.ty)) ∧
    ∀ i v, i < done.length → (blk.params.filter kept)[i]? = some v →
      values'[v]? = some ⟨r.ty v, .parameter b i⟩) ?_ ?_).mono ?_
  · rintro done ⟨v, i⟩ rest values' hsplit ⟨hlen, hsame, htys, hparam⟩
    obtain ⟨hi, hv⟩ := zipIdx_split hsplit
    dsimp only at hi hv ⊢
    obtain ⟨d, hd⟩ := hslot v (mem_of_getElem? hv)
    obtain ⟨⟨ty, d'⟩, hd', hty⟩ : ∃ data, values'[v]? = some data ∧ data.ty = r.ty v := by
      have := htys v
      rw [hd] at this
      simpa using this
    change ty = r.ty v at hty
    subst hty
    have hlt := (List.getElem?_eq_some_iff.1 hd').1
    rw [idx_eq_ok.2 hd', ok_bind]
    refine ⟨_, setAt_eq_ok.2 ⟨hlt, rfl⟩, by simpa using hlen, fun u hu => ?_, fun u => ?_,
      fun j u hj hu => ?_⟩
    · have huv : v ≠ u := by
        rintro rfl
        exact hu (mem_of_getElem? hv)
      rw [List.getElem?_set_ne huv]
      exact hsame u hu
    · by_cases huv : v = u
      · subst huv
        rw [← htys, List.getElem?_set_self hlt, hd']
        rfl
      · rw [List.getElem?_set_ne huv]
        exact htys u
    · rw [length_append, length_singleton, ← hi] at hj
      rcases Nat.lt_succ_iff_lt_or_eq.1 hj with hj | rfl
      · have huv : v ≠ u := by
          rintro rfl
          obtain ⟨h1, h2⟩ := List.getElem?_eq_some_iff.1 hu
          obtain ⟨h3, h4⟩ := List.getElem?_eq_some_iff.1 hv
          exact absurd (hnd.getElem_inj_iff.1 (h2.trans h4.symm)) (Nat.ne_of_lt hj)
        rw [List.getElem?_set_ne huv]
        exact hparam j u (hi ▸ hj) hu
      · cases hu.symm.trans hv
        rw [List.getElem?_set_self hlt]
  · exact ⟨rfl, fun _ _ => rfl, fun _ => rfl, fun i v hi => absurd hi (Nat.not_lt_zero _)⟩
  · rintro values' ⟨hlen, hsame, htys, hparam⟩
    refine ⟨hlen.trans h.length, fun {v} hv => ?_, fun {v} => (htys v).trans h.ty,
      fun {c cblk i v} hcb hc hi => ?_⟩
    · rw [hsame v fun hmem => hv b blk (Nat.lt_succ_self _) hb (List.mem_filter.1 hmem).1]
      exact h.same fun c cblk hcb hc => hv c cblk (Nat.lt_succ_of_lt hcb) hc
    · rcases Nat.lt_succ_iff_lt_or_eq.1 hcb with hcb | rfl
      · rw [hsame v, h.param hcb hc hi]
        intro hmem
        have hv := (List.mem_filter.1 (mem_of_getElem? hi)).1
        exact absurd (hwf.definedIn_unique hc hb (.inl hv) (.inl (List.mem_filter.1 hmem).1))
          (Nat.ne_of_lt hcb)
      · cases hb.symm.trans hc
        exact hparam i v (by simpa using (List.getElem?_eq_some_iff.1 hi).1) hi

/-- The region after the parameters of the blocks below `n` are dropped. -/
structure Dropped (r : Region) (aliases : List (Option ValueId)) (n : Nat) (r' : Region) : Prop where
  entries : r'.entries = r.entries
  helpers : r'.helpers = r.helpers
  instructions : r'.instructions = (r.mapOperands (root aliases)).instructions
  states : r'.states = (r.mapOperands (root aliases)).states
  length : r'.blocks.length = r.blocks.length
  block : ∀ {b : BlockId} {blk : Block}, r.blocks[b]? = some blk → r'.blocks[b]? = some
    { cut r aliases blk with
      params := if b < n then blk.params.filter (rewriting r aliases).kept else blk.params }
  values : Renumbered r (rewriting r aliases).kept n r'.values

theorem dropParams_gives (hwf : WF r) (h : Search r s) (hb : r.blocks[b]? = some blk) {r' : Region}
    (hr' : Dropped r s.aliases b r') :
    Gives (dropParams s.removed r' b) (Dropped r s.aliases (b + 1)) := by
  have hflags : (fun v => (aliasOf s.aliases v).isSome) =
      fun v => !(rewriting r s.aliases).kept v := by
    funext v
    simp [rewriting]
  have hblock : r'.blocks[b]? = some { cut r s.aliases blk with params := blk.params } := by
    simpa using hr'.block hb
  -- the blocks other than `b` stay as they are
  have hrest : ∀ {c : BlockId} {cblk : Block}, r.blocks[c]? = some cblk → c ≠ b →
      r'.blocks[c]? = some
        { cut r s.aliases cblk with
          params := if c < b + 1 then cblk.params.filter (rewriting r s.aliases).kept
            else cblk.params } := by
    intro c cblk hc hne
    have hlt : c < b + 1 ↔ c < b := by rw [Nat.lt_succ_iff_lt_or_eq, or_iff_left hne]
    simpa only [hlt] using hr'.block hc
  unfold dropParams
  rw [idx_eq_ok.2 (h.removed hb), ok_bind, hflags]
  split
  · next hany =>
    have hall : blk.params.filter (rewriting r s.aliases).kept = blk.params := by
      rw [← filter_zip_self, filter_zip_eq rfl (by simpa using hany)]
    refine .ok ⟨hr'.entries, hr'.helpers, hr'.instructions, hr'.states, hr'.length,
      fun {c cblk} hc => ?_, hr'.values.length, fun hv => ?_, hr'.values.ty,
      fun {c cblk i v} hcb hc hi => ?_⟩
    · by_cases hcb : c = b
      · subst hcb
        cases hb.symm.trans hc
        rw [hblock, if_pos (Nat.lt_succ_self _), hall]
      · exact hrest hc hcb
    · exact hr'.values.same fun c cblk hcb hc => hv c cblk (Nat.lt_succ_of_lt hcb) hc
    · rcases Nat.lt_succ_iff_lt_or_eq.1 hcb with hcb | rfl
      · exact hr'.values.param hcb hc hi
      · cases hb.symm.trans hc
        rw [hall] at hi
        exact hr'.values.slot hwf hb hi
  · have hlt := (List.getElem?_eq_some_iff.1 hblock).1
    rw [idx_eq_ok.2 hblock, ok_bind]
    dsimp only
    rw [retain_eq rfl, ok_bind, filter_zip_self, setAt_eq_ok.2 ⟨hlt, rfl⟩, ok_bind]
    refine (renumber_gives hwf hr'.values hb).bind fun values hvalues => ?_
    refine .ok ⟨hr'.entries, hr'.helpers, hr'.instructions, hr'.states, by simpa using hr'.length,
      fun {c cblk} hc => ?_, hvalues⟩
    by_cases hcb : c = b
    · subst hcb
      cases hb.symm.trans hc
      rw [List.getElem?_set_self hlt, if_pos (Nat.lt_succ_self _)]
    · rw [List.getElem?_set_ne (Ne.symm hcb)]
      exact hrest hc hcb

/-! ## The result -/

theorem Search.root_eq (h : Search r s) (hv : v < r.values.length) :
    aliasOf s.aliases (root s.aliases v) = none ∧ Replaces r (root s.aliases v) v := by
  obtain ⟨w, hw, hnone, hrep⟩ := h.aliases.resolve_gives hv
  have hroot : root s.aliases v = w := by
    rw [root, hw]
    rfl
  rw [hroot]
  exact ⟨by simp [aliasOf, List.getD, hnone], hrep⟩

theorem Search.replaces (h : Search r s) (v : ValueId) : Replaces r (root s.aliases v) v := by
  by_cases hv : v < r.values.length
  · exact (h.root_eq hv).2
  · rw [root, resolve_out (h.aliases.length ▸ hv)]
    exact .refl r v

/-- A removed value is a parameter of a block that is no entry, and it is no effect token. -/
theorem Search.removed_param (h : Search r s) (hv : (rewriting r s.aliases).kept v = false) :
    ∃ b blk, r.blocks[b]? = some blk ∧ v ∈ blk.params ∧ b ∉ r.entries ∧ r.ty v ≠ .effect := by
  cases ho : s.aliases[v]? with
  | none => simp [rewriting, aliasOf, List.getD, ho] at hv
  | some o =>
    cases o with
    | none => simp [rewriting, aliasOf, List.getD, ho] at hv
    | some w => exact h.aliases.param ho

theorem Search.root_fix (hwf : WF r) (h : Search r s) (hty : r.ty v = .effect ∨ r.ty v = .rmwTicket) :
    root s.aliases v = v := by
  by_cases hv : v < r.values.length
  · obtain ⟨o, ho⟩ := exists_get (h.aliases.length ▸ hv)
    cases o with
    | none =>
      rw [root, resolve, Chain.loop_eq (.done ho) (Nat.succ_pos _)]
      rfl
    | some w =>
      obtain ⟨b, blk, hb, hp, _, hne⟩ := h.aliases.param ho
      obtain ⟨k, hk⟩ := mem_iff_getElem?.1 hp
      obtain ⟨ty, hslot, hticket⟩ := hwf.param hb hk
      have hty' : r.ty v = ty := by simp [Region.ty, hslot]
      exact hty.elim (absurd · hne) fun h => absurd (hty'.symm.trans h) hticket
  · rw [root, resolve_out (h.aliases.length ▸ hv)]
    rfl

theorem term_image (hwf : WF r) (aliases : List (Option ValueId)) (hb : r.blocks[b]? = some blk)
    {term : Terminator} (hterm : blk.terminator = some term) :
    (rewriting r aliases).TermImage r term (dropped (rewriting r aliases) r term) := by
  have hlive : ∀ e ∈ term.edges, (rewriting r aliases).live e.target := by
    intro e he
    refine hwf.cfg.target_lt b e.target ?_
    rw [Region.succs_of_blocks hb, Block.succs, hterm]
    exact mem_map_of_mem he
  cases term with
  | branch e => exact .branch (hlive e (by simp [Terminator.edges]))
  | condBranch c t f =>
    exact .cond (hlive t (by simp [Terminator.edges])) (hlive f (by simp [Terminator.edges]))
  | exit _ => exact .exit

theorem dropped_succs (m : Rewriting) (hm : m.block = id) (term : Terminator) :
    (dropped m r term).edges.map (·.target) = term.edges.map (·.target) := by
  cases term <;> simp [dropped, Terminator.edges, Rewriting.edge, hm]

variable {r' : Region}

theorem Dropped.flow (h : Dropped r s.aliases r.blocks.length r') : r'.flow = r.flow := by
  have hsuccs : ∀ b, r'.succs b = r.succs b := by
    intro b
    by_cases hb : b < r.blocks.length
    · obtain ⟨blk, hb⟩ := exists_get hb
      rw [Region.succs_of_blocks hb, Region.succs_of_blocks (h.block hb), Block.succs, Block.succs]
      cases hterm : blk.terminator with
      | none => simp [cut, hterm]
      | some term => simpa [cut, hterm] using dropped_succs _ rfl term
    · rw [Region.succs, Region.succs, List.getElem?_eq_none (Nat.not_lt.1 hb),
        List.getElem?_eq_none (by rw [h.length]; exact Nat.not_lt.1 hb)]
  unfold Region.flow
  simp only [h.entries, hsuccs]

theorem Dropped.image (hwf : WF r) (hs : Search r s) (h : Dropped r s.aliases r.blocks.length r') :
    Image (rewriting r s.aliases) r r' := by
  have hres : ∀ {b : BlockId} {blk : Block} {id : InstId} {inst : Instruction} {v : ValueId},
      r.blocks[b]? = some blk → id ∈ blk.instructions → r.instructions[id]? = some inst →
      v ∈ inst.results → (rewriting r s.aliases).kept v = true := by
    intro b blk id inst v hb hid hinst hv
    cases hkept : (rewriting r s.aliases).kept v with
    | true => rfl
    | false =>
      obtain ⟨c, cblk, hc, hp, _⟩ := hs.removed_param hkept
      exact absurd hv (hwf.param_ne_result hc hb hp hid hinst)
  refine {
    helpers := h.helpers
    entries := by rw [h.entries]; exact (List.map_id _).symm
    entry_live := hwf.cfg.entry_lt
    block_inj := fun _ _ heq => heq
    value_inj := fun _ _ heq => heq
    inst_inj := fun _ _ _ _ _ _ heq => heq
    onto := fun b hb => ⟨b, by simpa [h.length, rewriting] using hb, rfl⟩
    block := fun b hb => ?_
    reach := fun b hb => by rw [h.flow]; exact hwf.reach b hb
    inst := fun {_ _ id inst} _ hb hid hinst _ => ⟨fun v hv => hres hb hid hinst hv, ?_⟩
    replaced := fun _ _ _ _ _ hop => by cases hop
    dropped := fun _ _ _ _ hkeep => by cases hkeep
    states := fun id _ map hmap => ?_
    param := fun hb hget hi => h.values.param hb hget hi
    result := fun {_ _ _ _ _ v} _ hb hid hinst _ hk => ?_
    effect_kept := fun _ hb hv hty => ?_
    rep := fun _ huse => ?_
    rep_fix := fun v => hs.root_fix hwf }
  · obtain ⟨blk, hget⟩ := exists_get hb
    obtain ⟨term, hterm⟩ := hwf.cfg.terminated b _ hget
    refine ⟨_, _, hget, h.block hget, by simp [cut, rewriting], ?_, ?_, term, _, hterm, ?_,
      term_image hwf s.aliases hget hterm⟩
    · change (if b < r.blocks.length then _ else _) = _
      rw [if_pos (show b < r.blocks.length from hb), Rewriting.params]
      exact (List.map_id _).symm
    · simp [cut, rewriting, Rewriting.insts]
    · simp [cut, hterm]
  · have hblock := hwf.inst_block hb hid hinst
    refine ⟨{ inst with args := inst.args.map (root s.aliases) }, ?_, hblock, (List.map_id _).symm,
      Option.map_id'.symm, Option.map_id'.symm, rfl, rfl, fun _ => ⟨rfl, rfl⟩,
      fun _ _ hop => by cases hop⟩
    rw [h.instructions, Region.mapOperands, List.getElem?_map]
    change Option.map _ r.instructions[id]? = _
    rw [hinst]
    rfl
  · change r'.states[id]? = _
    rw [h.states, Region.mapOperands, List.getElem?_map, hmap]
    rfl
  · obtain ⟨inst', h1, _, h2⟩ := hwf.inst hb hid
    cases hinst.symm.trans h1
    obtain ⟨ty, hslot⟩ := h2 hk
    have hty : r.ty v = ty := by simp [Region.ty, hslot]
    change r'.values[v]? = _
    rw [h.values.same, hslot, hty]
    · rfl
    · intro c cblk _ hc hp
      exact hwf.param_ne_result hc hb hp hid hinst (mem_of_getElem? hk)
  · cases hkept : (rewriting r s.aliases).kept _ with
    | true => rfl
    | false =>
      obtain ⟨_, _, _, _, _, hne⟩ := hs.removed_param hkept
      exact absurd hty hne
  · obtain ⟨blk, hb, hpre⟩ := huse.point
    have hav := hwf.avail_of_use huse
    obtain ⟨data, hslot, _⟩ := hav.slot hwf hb hpre
    obtain ⟨hnone, hrep⟩ := hs.root_eq (List.getElem?_eq_some_iff.1 hslot).1
    exact ⟨by simp [rewriting, hnone], hrep.avail hb hpre hav, hrep.ty⟩

theorem Dropped.agree (hwf : WF r) (hs : Search r s) (h : Dropped r s.aliases r.blocks.length r') :
    Image.Values (rewriting r s.aliases) r r' := by
  refine ⟨fun _ hat huse => ?_, fun _ _ _ _ _ _ hop => (by cases hop),
    fun _ _ hb hterm hb' hterm' => ?_, fun hentry hb hv => ?_⟩
  · exact (hs.replaces _).value hat (hwf.avail_of_use huse)
  · -- a conditional branch stays one
    change r'.blocks[_]? = _ at hb'
    cases (h.block hb).symm.trans hb'
    simp [cut, hterm, dropped] at hterm'
  · cases hkept : (rewriting r s.aliases).kept _ with
    | true => rfl
    | false =>
      obtain ⟨c, cblk, hc, hp, hnot, _⟩ := hs.removed_param hkept
      exact absurd (hwf.definedIn_unique hb hc (.inl hv) (.inl hp) ▸ hentry) hnot

/-- The rewrite returns exactly when all operands are in range. -/
theorem rewrite_eq_ok (hs : Search r s) {r₁ : Region} :
    r.rewriteValues (resolve s.aliases) = .ok r₁ ↔
      (∀ v ∈ r.operands, v < r.values.length) ∧ r₁ = r.mapOperands (root s.aliases) := by
  rw [Region.rewriteValues_eq_ok]
  refine and_congr_left fun _ => ⟨fun h v hv => ?_, fun h v hv => ?_⟩
  · obtain ⟨w, hw⟩ := h v hv
    by_contra hlt
    rw [resolve_out (hs.aliases.length ▸ hlt)] at hw
    cases hw
  · exact (hs.aliases.resolve_gives (h v hv)).imp fun _ h => h.1

/-- The pass on a region with aliases. -/
theorem drop_gives (hwf : WF r) (hs : Search r s) :
    Gives ((List.range (r.blocks.map (cut r s.aliases)).length).foldlM (dropParams s.removed)
      { r.mapOperands (root s.aliases) with blocks := r.blocks.map (cut r s.aliases) })
      (Dropped r s.aliases r.blocks.length) := by
  rw [length_map]
  refine (Gives.foldlM (I := fun done => Dropped r s.aliases done.length) ?_ ?_).mono
    fun r' h => by simpa using h
  · intro done b rest r' hsplit hr'
    have hlen : b = done.length := by
      have h1 : (List.range r.blocks.length)[done.length]? = some b := by simp [hsplit]
      obtain ⟨_, h2⟩ := List.getElem?_eq_some_iff.1 h1
      simpa using h2.symm
    have hlt : b < r.blocks.length := by
      rw [← mem_range, hsplit]
      simp
    obtain ⟨blk, hb⟩ := exists_get hlt
    rw [length_append, length_singleton, ← hlen]
    exact dropParams_gives hwf hs hb (hlen ▸ hr')
  · refine ⟨rfl, rfl, rfl, rfl, by simp, fun {b blk} hb => ?_, rfl, fun _ => rfl, rfl,
      fun h => absurd h (Nat.not_lt_zero _)⟩
    simp [hb, cut]

/-- What the pass promises: it returns, the region stays well formed and keeps its meaning, and
every removed parameter may be replaced everywhere by a value that stays; parameters of entries and
effect parameters stay. -/
def Sound (r : Region) (x : Exec (Region × PassStats)) : Prop :=
  Gives x fun (r', _) => verify r' = .ok () ∧ Region.SameMeaning r r' ∧
    ∃ (rep : ValueId → ValueId) (kept : ValueId → Bool), (∀ v, Replaces r (rep v) v) ∧
      r'.instructions = (r.mapOperands rep).instructions ∧ r'.states = (r.mapOperands rep).states ∧
      ∀ (b : BlockId) (blk : Block), r.blocks[b]? = some blk → ∃ blk', r'.blocks[b]? = some blk' ∧
        blk'.params = blk.params.filter kept ∧ ∀ v ∈ blk.params, kept v = false →
          b ∉ r.entries ∧ r.ty v ≠ .effect ∧ kept (rep v) = true

theorem Sound.refl (hr : verify r = .ok ()) (stats : PassStats) : Sound r (.ok (r, stats)) := by
  refine .ok ⟨hr, .refl r, id, fun _ => true, fun v => .refl r v, ?_, ?_,
    fun b blk hb => ⟨blk, hb, by simp, nofun⟩⟩
  · simp [Region.mapOperands]
  · simp [Region.mapOperands]

theorem Dropped.sound (hwf : WF r) (hs : Search r s)
    (h : Dropped r s.aliases r.blocks.length r') (stats : PassStats) : Sound r (.ok (r', stats)) := by
  have himg := h.image hwf hs
  refine .ok ⟨verify_eq_ok.2 (himg.wf hwf), himg.sameMeaning hwf (h.agree hwf hs), root s.aliases,
    (rewriting r s.aliases).kept, hs.replaces, h.instructions, h.states, fun b blk hb =>
    ⟨_, h.block hb, if_pos (List.getElem?_eq_some_iff.1 hb).1, fun v hv hkept => ?_⟩⟩
  obtain ⟨c, cblk, hc, hp, hentry, hty⟩ := hs.removed_param hkept
  obtain rfl := hwf.definedIn_unique hb hc (.inl hv) (.inl hp)
  obtain ⟨_, k, _, hslot⟩ := hwf.param_slot hb hv
  have hnone := (hs.root_eq (List.getElem?_eq_some_iff.1 hslot).1).1
  exact ⟨hentry, hty, by simp [rewriting, hnone]⟩

/-- On a region that the verifier accepts the pass does what it promises exactly when no parameter
is trivial, so that it has nothing to do, or every operand in the arenas is in range. -/
theorem trivialPhis_correct (hr : verify r = .ok ()) (stats : PassStats) : Sound r (run r stats) ↔
      (∀ b k, ¬ Trivial r b k) ∨ ∀ v ∈ r.operands, v < r.values.length := by
  have hwf := verify_eq_ok.1 hr
  obtain ⟨s, hs, hsearch, hcount⟩ := find_gives hwf
  by_cases h0 : s.count = 0
  · rw [run, hs, ok_bind, if_pos h0]
    exact ⟨fun _ => .inl (hcount.1 h0), fun _ => .refl hr stats⟩
  · rw [run, hs, ok_bind, if_neg h0, or_iff_right (mt hcount.2 h0)]
    constructor
    · rintro ⟨p, hp, _⟩
      obtain ⟨r₁, hr₁, _⟩ := bind_eq_ok.1 hp
      exact ((rewrite_eq_ok hsearch).1 hr₁).1
    · intro hrange
      obtain ⟨r', hr', hdropped⟩ := drop_gives hwf hsearch
      rw [(rewrite_eq_ok hsearch).2 ⟨hrange, rfl⟩, ok_bind, dropBlocks_eq hwf hsearch, ok_bind,
        hr', ok_bind]
      exact hdropped.sound hwf hsearch _

end

end

/-- A region that passes a constant to a block, with further instructions in the arena that no block
lists. -/
def forward (unlisted : List Instruction) : Region where
  entries := [0]
  blocks := [⟨none, [], [0, 1], some (.branch ⟨1, [0]⟩), 0⟩, ⟨none, [2], [], some (.exit 0), 0⟩]
  values := [⟨.i32, .instruction 0 0⟩, ⟨.i1, .instruction 1 0⟩, ⟨.i32, .parameter 1 0⟩]
  instructions := [.simple 0 (.const 0) [] 0, .simple 0 (.const 0) [] 1] ++ unlisted
  states := [.uniform 2 1]
  helpers := []

set_option maxRecDepth 4000 in
theorem trivialPhis_correct_forward : verify (forward []) = .ok () ∧
    Sound (forward []) (run (forward []) default) :=
  ⟨rfl, (trivialPhis_correct rfl default).2 (.inr (by decide))⟩

set_option maxRecDepth 4000 in
/-- An operand out of range in an instruction that no block lists: the region is accepted, and the
pass panics. -/
theorem forward_stale_panics : verify (forward [.simple 0 (.binary .add) [9, 9] 9]) = .ok () ∧
      run (forward [.simple 0 (.binary .add) [9, 9] 9]) default = .error .panic ∧
      ¬ Sound (forward [.simple 0 (.binary .add) [9, 9] 9])
        (run (forward [.simple 0 (.binary .add) [9, 9] 9]) default) := by
  have hrun : run (forward [.simple 0 (.binary .add) [9, 9] 9]) default = .error .panic := rfl
  refine ⟨rfl, hrun, ?_⟩
  rw [hrun]
  rintro ⟨_, h, _⟩
  cases h

end TrivialPhis

end V86.Ir
