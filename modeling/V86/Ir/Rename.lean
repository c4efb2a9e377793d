import V86.Ir.WellFormed

/-!
# The verifier's checks under a renaming of values

The checks of recovery maps, of signatures and of the effect chain only compare value ids, so a
renaming that keeps the types keeps their outcome.
-/

namespace V86.Ir

open Exec Verify

namespace Verify

section
variable {α β : Type} {f : α → β}

theorem requireType_eq_ok {ty : α → Exec Ty} {t : Ty} {msg : String} {l : List α} :
    requireType ty t msg l = .ok () ↔ ∀ v ∈ l, ty v = .ok t := by
  unfold requireType
  rw [foldlM_unit_eq_ok]
  refine forall₂_congr fun v _ => ?_
  simp only [bind_eq_ok, require_eq_ok, decide_eq_true_eq]
  constructor
  · rintro ⟨_, h1, rfl⟩
    exact h1
  · exact fun h => ⟨t, h, rfl⟩

/-- A recovery map stays well typed under a renaming that keeps the types of its operands. -/
theorem checkState_map [DecidableEq α] [DecidableEq β] {ty : α → Exec Ty} {ty' : β → Exec Ty} {map : StateMap α}
    (hty : ∀ v ∈ map.values, ∀ t, ty v = .ok t → ty' (f v) = .ok t)
    (h : checkState ty map = .ok ()) : checkState ty' (map.map f) = .ok () := by
  have hreq : ∀ {t : Ty} {msg : String} {l : List α}, l ⊆ map.values →
      requireType ty t msg l = .ok () → requireType ty' t msg (l.map f) = .ok () := by
    intro t msg l hl hok
    rw [requireType_eq_ok] at hok ⊢
    intro v hv
    obtain ⟨w, hw, rfl⟩ := List.mem_map.1 hv
    exact hty w (hl hw) t (hok w hw)
  unfold checkState at h ⊢
  simp only [bind_eq_ok, require_eq_ok, decide_eq_true_eq, foldlM_unit_eq_ok] at h
  obtain ⟨_, hcount, _, hnext, _, hgpr, _, harith, _, hsys, _, hlast, _, hraw, _, hback, _, hvalid,
    _, hlazy, _, hzero, _, hbacking, _, hbv, _, hxmmLen, _, hxmm, _, hx87, hrep⟩ := h
  have hnext' : ∀ v ∈ (map.nextValue.map f).toList, ∃ t, ty' v = .ok t ∧
      (decide (t = Ty.i32) && decide (map.resume = .afterInstruction)) = true := by
    intro v hv
    rw [Option.toList_map] at hv
    obtain ⟨w, hw, rfl⟩ := List.mem_map.1 hv
    obtain ⟨t, ht, hok⟩ := hnext w hw
    exact ⟨t, hty w (by simp [StateMap.values, hw]) t ht, hok⟩
  have hbacking' : [map.flags.rawFlags.map f, map.flags.lazyMask.map f, map.flags.lastResult.map f,
      map.flags.lastOpSize.map f] = [map.flags.rawFlags, map.flags.lazyMask, map.flags.lastResult,
        map.flags.lastOpSize].map (Option.map f) := rfl
  have hopt : ∀ {t : Ty} {msg : String} {o : Option α}, o.toList ⊆ map.values →
      requireType ty t msg o.toList = .ok () → requireType ty' t msg (o.map f).toList = .ok () := by
    intro t msg o ho hok
    rw [Option.toList_map]
    exact hreq ho hok
  have hflat : ∀ l : List (Option α),
      (l.map (Option.map f)).flatMap Option.toList = (l.flatMap Option.toList).map f := by
    intro l
    simp [List.flatMap_map, List.map_flatMap, Option.toList_map]
  simp only [bind_eq_ok, require_eq_ok, foldlM_unit_eq_ok, StateMap.map, FlagState.map,
    Vector.toList_map, hbacking', hflat]
  refine ⟨(), hopt (fun v hv => ?_) hcount, (), hnext', (), hreq (fun v hv => ?_) hgpr, (),
    hreq (fun v hv => ?_) harith, (), hreq (l := [map.flags.system]) (fun v hv => ?_) hsys, (),
    hopt (fun v hv => ?_) hlast, (), by simpa using hraw, (), ?_, (), by simpa using hvalid, (),
    hopt (fun v hv => ?_) hlazy, (), hopt (fun v hv => ?_) hzero, (),
    hreq (fun v hv => ?_) hbacking, (), hopt (fun v hv => ?_) hbv, (), by simpa using hxmmLen, (),
    hreq (fun v hv => ?_) hxmm, (), hreq (fun v hv => ?_) hx87, ?_⟩
  case refine_6 => simpa [List.all_map, Function.comp_def] using hback
  case refine_13 =>
    cases hprogress : map.repProgress with
    | none =>
      rw [hprogress] at hrep
      exact hrep
    | some rep =>
      obtain ⟨ecx, esi, edi⟩ := rep
      simp only [hprogress, bind_eq_ok, require_eq_ok, Bool.and_eq_true, decide_eq_true_eq] at hrep
      obtain ⟨_, h1, _, h2, h3, h4⟩ := hrep
      have hmem : [ecx, esi, edi] ⊆ map.values := by
        intro v hv
        simp [StateMap.values, hprogress, hv]
      simp only [Option.map_some, bind_eq_ok, require_eq_ok, Bool.and_eq_true]
      refine ⟨(), hreq (l := [ecx, esi, edi]) hmem h1, (), decide_eq_true h2, ?_, by simpa using h4⟩
      simp only [Prod.mk.injEq] at h3
      obtain ⟨rfl, rfl, rfl⟩ := h3
      simp
  case refine_9 =>
    simp only [List.flatMap_cons, List.flatMap_nil, List.append_nil, List.mem_append] at hv
    simp only [StateMap.values, List.mem_append]
    rcases hv with hv | hv | hv | hv <;> simp only [hv, or_true, true_or]
  all_goals
    simp only [StateMap.values, List.mem_append]
    simp only [hv, or_true, true_or]

/-- The view of an instruction whose values are renamed. It may have become the last one of a block
that exits with its state. -/
def OpView.rename (f : α → β) (exits : Bool) (view : OpView α) : OpView β where
  op := view.op
  args := view.args
  results := view.results
  argIds := view.argIds.map f
  state := view.state.map (·.map f)
  commit := view.commit.map (·.map f)
  unmaskedWordStore := view.unmaskedWordStore
  entry := view.entry
  exits := exits
  helpers := view.helpers

variable {view : OpView α} {exits : Bool}

theorem requireXmm_rename [DecidableEq α] [DecidableEq β] {regs : List (Nat × Nat)} {m₁ m₂ : String} {map : StateMap α}
    (h : requireXmm view regs m₁ m₂ = .ok map) :
    requireXmm (view.rename f exits) regs m₁ m₂ = .ok (map.map f) := by
  unfold requireXmm OpView.map at h ⊢
  simp only [bind_eq_ok, unwrap_eq_ok, require_eq_ok, decide_eq_true_eq, List.all_eq_true,
    pure_eq_ok, Except.ok.injEq] at h ⊢
  obtain ⟨map', h1, _, h2, _, h3, rfl⟩ := h
  refine ⟨map'.map f, by simp [OpView.rename, h1], (), by simpa [StateMap.map] using h2, (),
    fun p hp => ?_, rfl⟩
  have := h3 p hp
  simp [OpView.rename, StateMap.map, this]

theorem requireExit_rename {resume : ResumeKind} {m : String}
    (hexits : view.exits = true → exits = true) (h : requireExit view resume m = .ok ()) :
    requireExit (view.rename f exits) resume m = .ok () := by
  unfold requireExit OpView.map at h ⊢
  simp only [bind_eq_ok, unwrap_eq_ok, require_eq_ok, decide_eq_true_eq] at h ⊢
  obtain ⟨_, h1, map, h2, h3⟩ := h
  exact ⟨(), hexits h1, map.map f, by simp [OpView.rename, h2], h3⟩

theorem commitsXmm_rename [DecidableEq α] [DecidableEq β] {map commit : StateMap α} (h : commitsXmm map commit = true) :
    commitsXmm (map.map f) (commit.map f) = true := by
  unfold commitsXmm at h ⊢
  simp only [Bool.and_eq_true, decide_eq_true_eq] at h ⊢
  obtain ⟨⟨⟨⟨⟨⟨h1, h2⟩, h3⟩, h4⟩, h5⟩, h6⟩, h7⟩ := h
  simp [StateMap.map, h1, h2, h3, h4, h5, h6, h7]

/-- An operation keeps its signature under a renaming. -/
theorem checkOp_rename [DecidableEq α] [DecidableEq β]
    (hexits : view.exits = true → exits = true) (h : checkOp view = .ok ()) : checkOp (view.rename f exits) = .ok () := by
  have hxmm : ∀ {regs : List (Nat × Nat)} {m₁ m₂ : String} {map : StateMap α},
      requireXmm view regs m₁ m₂ = .ok map →
      requireXmm (view.rename f exits) regs m₁ m₂ = .ok (map.map f) :=
    fun h => requireXmm_rename h
  have hexit : ∀ {resume : ResumeKind} {m : String}, requireExit view resume m = .ok () →
      requireExit (view.rename f exits) resume m = .ok () := fun h => requireExit_rename hexits h
  have hget : ∀ {o : Option (StateMap α)} {map : StateMap α}, unwrap o = .ok map →
      unwrap (o.map (·.map f)) = .ok (map.map f) := by
    intro o map ho
    rw [unwrap_eq_ok] at ho ⊢
    rw [ho]
    rfl
  have hcommit : ∀ {after : StateMap α}, unwrap view.commit = .ok after →
      unwrap (view.rename f exits).commit = .ok (after.map f) := fun h => hget h
  have hstate : ∀ {map : StateMap α}, view.map = .ok map →
      (view.rename f exits).map = .ok (map.map f) := fun h => hget h
  obtain ⟨op, args, results, argIds, state, commit, unmasked, entry, exits', helpers⟩ := view
  unfold checkOp at h ⊢
  cases op with
  | xmmBinary =>
    obtain ⟨_, h1, h⟩ := bind_eq_ok.1 h
    obtain ⟨_, h2, h⟩ := bind_eq_ok.1 h
    obtain ⟨map, h3, _⟩ := bind_eq_ok.1 h
    exact bind_eq_ok.2 ⟨_, h1, bind_eq_ok.2 ⟨_, h2, bind_eq_ok.2 ⟨_, hxmm h3, rfl⟩⟩⟩
  | xmmShuffle | xmmTransferLoad | xmmInsertWord | xmmLoad =>
    obtain ⟨_, h1, h⟩ := bind_eq_ok.1 h
    obtain ⟨map, h2, _⟩ := bind_eq_ok.1 h
    exact bind_eq_ok.2 ⟨_, h1, bind_eq_ok.2 ⟨_, hxmm h2, rfl⟩⟩
  | xmmMaskedStore source mask =>
    obtain ⟨_, h1, h⟩ := bind_eq_ok.1 h
    obtain ⟨map, h2, h⟩ := bind_eq_ok.1 h
    obtain ⟨after, h3, h4⟩ := bind_eq_ok.1 h
    exact bind_eq_ok.2 ⟨_, h1, bind_eq_ok.2 ⟨_, hxmm h2, bind_eq_ok.2
      ⟨after.map f, hcommit h3, require_eq_ok.2 (commitsXmm_rename (require_eq_ok.1 h4))⟩⟩⟩
  | xmmStore lane bytes register =>
    obtain ⟨_, h0, h⟩ := bind_eq_ok.1 h
    obtain ⟨_, h1, h⟩ := bind_eq_ok.1 h
    obtain ⟨map, h2, h⟩ := bind_eq_ok.1 h
    obtain ⟨after, h3, h4⟩ := bind_eq_ok.1 h
    exact bind_eq_ok.2 ⟨_, h0, bind_eq_ok.2 ⟨_, h1, bind_eq_ok.2 ⟨_, hxmm h2, bind_eq_ok.2
      ⟨after.map f, hcommit h3, require_eq_ok.2 (commitsXmm_rename (require_eq_ok.1 h4))⟩⟩⟩⟩
  | callHelper helper =>
    obtain ⟨descriptor, h1, h⟩ := bind_eq_ok.1 h
    obtain ⟨_, h2, h⟩ := bind_eq_ok.1 h
    obtain ⟨_, h3, h⟩ := bind_eq_ok.1 h
    obtain ⟨_, h4, h5⟩ := bind_eq_ok.1 h
    refine bind_eq_ok.2 ⟨descriptor, h1, bind_eq_ok.2 ⟨(), onlyIf_eq_ok.2 fun hc => ?_,
      bind_eq_ok.2 ⟨_, h3, bind_eq_ok.2 ⟨_, h4, onlyIf_eq_ok.2 fun hc => ?_⟩⟩⟩⟩
    · exact hexit (onlyIf_eq_ok.1 h2 hc)
    · obtain ⟨map, h6, h7⟩ := bind_eq_ok.1 (onlyIf_eq_ok.1 h5 hc)
      exact bind_eq_ok.2 ⟨map.map f, hstate h6, h7⟩
  | compareExchange8B order =>
    obtain ⟨_, h1, h2⟩ := bind_eq_ok.1 h
    exact bind_eq_ok.2 ⟨_, h1, hexit h2⟩
  | _ => exact h

end

end Verify

end V86.Ir
