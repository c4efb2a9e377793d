import Mathlib.Data.List.Nodup
import Mathlib.Data.List.Perm.Subperm
import V86.Ir.Hir

/-!
# Parallel-copy schedules

The edge of a lowered control-flow graph assigns the parameters of its target all at once, and the
backend emits one copy after another. `schedule` orders the copies: an assignment to a local that no
other one still reads is emitted at once, and where every pending destination is still read it
saves one source in a scratch slot, which breaks a cycle.

A turn of its loop (`Work.turn`) keeps the use counts, the types and the distinct destinations
(`Work.Ready`), finishes one assignment or redirects at least one to scratch, and leaves what the
pending assignments make of the locals as it was (`Turn`). A schedule so performs the parallel
assignment (`schedule_parallel`).
-/

namespace V86.Ir.Mir

open List Function

/-- `Source`: where a move reads. -/
inductive Source
  | ofLocal (i : Nat)
  | ofScratch (i : Nat)
  deriving DecidableEq, Repr

/-- `Copy`: one step of a schedule. -/
inductive Copy
  | save (i scratch : Nat)
  | move (source : Source) (destination : Nat)
  deriving DecidableEq, Repr

/-- `Edge`. -/
structure Edge where
  target : Nat
  scratch : List Ty
  copies : List Copy
  deriving DecidableEq

/-- A pending assignment: where its value is, and its destination. -/
abbrev Pending := List (Source × Nat)

/-- What the loop of `schedule` works on. -/
structure Work where
  pending : Pending
  uses : List Nat
  edge : Edge

/-- `uses[local] -= 1`, where the source is a local. -/
def release (uses : List Nat) : Source → Option (List Nat)
  | .ofScratch _ => some uses
  | .ofLocal i => match uses[i]? with
    | some (n + 1) => some (uses.set i n)
    | _ => none

/-- The uses of an old source read its scratch slot from now on. -/
def redirect (i scratch : Nat) (pending : Pending) : Pending :=
  pending.map fun p => if p.1 = .ofLocal i then (.ofScratch scratch, p.2) else p

/-- One turn of the loop of `schedule`: a sink is written, or a source is saved. -/
def Work.turn (types : List Ty) (w : Work) : Option Work :=
  match w.pending.findIdx? fun p => w.uses[p.2]? = some 0 with
  | some index => match w.pending[index]? with
    | none => none
    | some (source, destination) => (release w.uses source).map fun uses =>
      { pending := w.pending.eraseIdx index
        uses := uses
        edge := { w.edge with copies := w.edge.copies ++ [.move source destination] } }
  | none => match w.pending with
    | (.ofLocal i, _) :: _ => types[i]?.map fun ty =>
      { pending := redirect i w.edge.scratch.length w.pending
        uses := w.uses.set i 0
        edge := { w.edge with
          scratch := w.edge.scratch ++ [ty]
          copies := w.edge.copies ++ [.save i w.edge.scratch.length] } }
    | _ => none

/-- The source is a local. -/
def Source.isLocal : Source → Bool
  | .ofLocal _ => true
  | .ofScratch _ => false

/-- The assignments that are left, those from a local counted twice. -/
def Work.size (w : Work) : Nat := w.pending.length + w.pending.countP fun p => p.1.isLocal

theorem countP_redirect_le (i scratch : Nat) (pending : Pending) :
    (redirect i scratch pending).countP (fun p => p.1.isLocal) ≤
      pending.countP fun p => p.1.isLocal := by
  rw [redirect, countP_map]
  refine countP_mono_left fun p _ h => ?_
  dsimp only [Function.comp] at h
  split at h
  · cases h
  · exact h

theorem Work.turn_size {types : List Ty} {w w' : Work} (h : w.turn types = some w') :
    w'.size < w.size := by
  unfold Work.turn at h
  split at h
  · rename_i index hindex
    split at h
    · cases h
    · rename_i source destination hget
      obtain ⟨uses, -, rfl⟩ := Option.map_eq_some_iff.1 h
      have hlt : index < w.pending.length := (List.getElem?_eq_some_iff.1 hget).1
      have hlen := length_eraseIdx_of_lt hlt
      have hcount := (eraseIdx_sublist w.pending index).countP_le (p := fun p => p.1.isLocal)
      dsimp only [Work.size]
      omega
  · split at h
    · rename_i i destination rest hpending
      obtain ⟨ty, -, rfl⟩ := Option.map_eq_some_iff.1 h
      have hle := countP_redirect_le i w.edge.scratch.length rest
      have hcount : w.pending.countP (fun p => p.1.isLocal) =
          rest.countP (fun p => p.1.isLocal) + 1 := by
        rw [hpending]
        exact countP_cons_of_pos rfl
      have hcount' : (redirect i w.edge.scratch.length w.pending).countP (fun p => p.1.isLocal) =
          (redirect i w.edge.scratch.length rest).countP (fun p => p.1.isLocal) := by
        rw [hpending, redirect, map_cons, if_pos rfl]
        exact countP_cons_of_neg nofun
      have hlen : (redirect i w.edge.scratch.length w.pending).length = w.pending.length :=
        length_map _
      dsimp only [Work.size]
      omega
    · cases h

/-- The loop of `schedule`. -/
def Work.run (types : List Ty) (w : Work) : Option Edge :=
  if w.pending = [] then some w.edge
  else match _h : w.turn types with
    | none => none
    | some w' => w'.run types
termination_by w.size
decreasing_by exact Work.turn_size ‹_›

/-- The checks of `schedule` and the assignments it is left with, no pair onto itself among them:
`destinations` are those seen. -/
def check (types : List Ty) : List (Nat × Nat) → List Nat → Pending → List Nat →
    Option (Pending × List Nat)
  | [], _, pending, uses => some (pending, uses)
  | (source, destination) :: pairs, destinations, pending, uses =>
    match types[source]? with
    | none => none
    | some ty =>
      if types[destination]? ≠ some ty ∨ ty = .effect ∨ destination ∈ destinations then none
      else if source = destination then
        check types pairs (destination :: destinations) pending uses
      else
        check types pairs (destination :: destinations)
          (pending ++ [(.ofLocal source, destination)]) (uses.modify source (· + 1))

/-- `schedule`: `none` is its error. -/
def schedule (target : Nat) (pairs : List (Nat × Nat)) (types : List Ty) : Option Edge :=
  (check types pairs [] [] (List.replicate types.length 0)).bind fun (pending, uses) =>
    Work.run types ⟨pending, uses, ⟨target, [], []⟩⟩

/-! ## Executing a schedule -/

/-- The locals of a frame, and the scratch slots written so far. -/
structure Frame (α : Type) where
  locals : Nat → α
  scratch : Nat → Option α

variable {α : Type}

/-- The value of a source; a scratch slot must have been written. -/
def Frame.read (m : Frame α) : Source → Option α
  | .ofLocal i => some (m.locals i)
  | .ofScratch k => m.scratch k

/-- Execute one copy. -/
def Copy.exec (m : Frame α) : Copy → Option (Frame α)
  | .save i k => some { m with scratch := Function.update m.scratch k (some (m.locals i)) }
  | .move source destination => (m.read source).map fun v =>
    { m with locals := Function.update m.locals destination v }

/-- Execute the copies of a schedule, left to right. -/
def execAll (m : Frame α) (copies : List Copy) : Option (Frame α) := copies.foldlM Copy.exec m

/-- What the pending assignments, made at once, leave in a local. -/
def Frame.assigned (m : Frame α) (pending : Pending) (i : Nat) : Option α :=
  match pending.find? fun p => p.2 = i with
  | some p => m.read p.1
  | none => some (m.locals i)

/-- Every scratch slot that is still to be read has been written. -/
def Frame.Written (m : Frame α) (pending : Pending) : Prop := ∀ p ∈ pending, (m.read p.1).isSome

/-! ## The invariant of the loop -/

/-- The type of a source. -/
def Source.ty? (types scratch : List Ty) : Source → Option Ty
  | .ofLocal i => types[i]?
  | .ofScratch k => scratch[k]?

/-- A save and its slot, a move and its destination, are of one type. -/
def Copy.Typed (types scratch : List Ty) : Copy → Prop
  | .save i k => ∃ ty, types[i]? = some ty ∧ scratch[k]? = some ty
  | .move source destination =>
    ∃ ty, source.ty? types scratch = some ty ∧ types[destination]? = some ty

/-- How many pending assignments read a local. -/
def count (pending : Pending) (i : Nat) : Nat := pending.countP fun p => p.1 = .ofLocal i

/-- The invariant of the loop of `schedule`. -/
structure Work.Ready (types : List Ty) (w : Work) : Prop where
  uses : ∀ i < types.length, w.uses[i]? = some (count w.pending i)
  nodup : (w.pending.map Prod.snd).Nodup
  pending : ∀ p ∈ w.pending, ∃ ty, p.1.ty? types w.edge.scratch = some ty ∧ types[p.2]? = some ty
  copies : ∀ c ∈ w.edge.copies, c.Typed types w.edge.scratch

section
variable {types : List Ty} {w : Work}

/-- Of distinct destinations that are all still read, each is read once and nothing else is. -/
theorem isLocal_of_no_sink (hnodup : (w.pending.map Prod.snd).Nodup)
    (hread : ∀ p ∈ w.pending, count w.pending p.2 ≠ 0) : ∀ p ∈ w.pending, p.1.isLocal := by
  let sources := w.pending.filterMap fun p => match p.1 with
    | .ofLocal i => some i
    | .ofScratch _ => none
  have hsub : w.pending.map Prod.snd ⊆ sources := by
    intro d hd
    obtain ⟨p, hp, rfl⟩ := List.mem_map.1 hd
    obtain ⟨q, hq, hsource⟩ := List.countP_pos_iff.1 (Nat.pos_of_ne_zero (hread p hp))
    refine List.mem_filterMap.2 ⟨q, hq, ?_⟩
    rw [of_decide_eq_true hsource]
  have hle : w.pending.length ≤ sources.length := by
    have hlength : (w.pending.map Prod.snd).length = w.pending.length := length_map _
    rw [← hlength]
    exact (subperm_of_subset hnodup hsub).length_le
  have hall := List.filterMap_length_eq_length.1
    (Nat.le_antisymm (length_filterMap_le _ _) hle)
  intro p hp
  have hsome := hall p hp
  unfold Source.isLocal
  split at hsome
  · rfl
  · cases hsome

variable {p : Source × Nat} {m : Frame α} {pending front back : Pending} {i d k : Nat} {v : α}
  {source : Source} {uses : List Nat} {scratch : List Ty} {ty : Ty} {pairs : List (Nat × Nat)}

theorem Work.Ready.in_range (h : w.Ready types) (hp : p ∈ w.pending) : p.2 < types.length := by
  obtain ⟨ty, -, hty⟩ := h.pending p hp
  exact (List.getElem?_eq_some_iff.1 hty).1

/-! ## What is assigned -/

theorem assigned_of_mem (hnodup : (pending.map Prod.snd).Nodup) (hp : p ∈ pending) :
    m.assigned pending p.2 = m.read p.1 := by
  have hfind : pending.find? (fun q => q.2 = p.2) = some p := by
    induction pending with
    | nil => cases hp
    | cons q pending ih =>
      rw [map_cons, nodup_cons] at hnodup
      obtain rfl | hp := List.mem_cons.1 hp
      · exact List.find?_cons_of_pos (decide_eq_true rfl)
      · have hne : q.2 ≠ p.2 := fun h => hnodup.1 (h ▸ mem_map_of_mem hp)
        rw [List.find?_cons_of_neg (by simpa using hne), ih hnodup.2 hp]
  rw [Frame.assigned, hfind]

theorem assigned_of_not_mem
    (h : i ∉ pending.map Prod.snd) : m.assigned pending i = some (m.locals i) := by
  have hfind : pending.find? (fun q => q.2 = i) = none := by
    refine List.find?_eq_none.2 fun q hq hqi => h ?_
    rw [← of_decide_eq_true hqi]
    exact mem_map_of_mem hq
  rw [Frame.assigned, hfind]

/-- The value of a source that a move does not write. -/
theorem read_update_locals (h : source ≠ .ofLocal d) :
    Frame.read { m with locals := Function.update m.locals d v } source = m.read source := by
  cases source with
  | ofLocal i =>
    have hne : i ≠ d := fun hid => h (hid ▸ rfl)
    exact congrArg some (update_of_ne hne v m.locals)
  | ofScratch k => rfl

/-- A move to a local that nothing pending reads makes its assignment. -/
theorem assigned_move (hnodup : ((front ++ (source, d) :: back).map Prod.snd).Nodup)
    (hunread : ∀ p ∈ front ++ back, p.1 ≠ .ofLocal d) (hv : m.read source = some v) (i : Nat) :
    Frame.assigned { m with locals := Function.update m.locals d v } (front ++ back) i =
      m.assigned (front ++ (source, d) :: back) i := by
  have hperm : (front ++ (source, d) :: back).map Prod.snd |>.Perm
      (d :: (front ++ back).map Prod.snd) :=
    List.perm_middle.map Prod.snd
  have hnodup' := List.nodup_cons.1 (hperm.nodup_iff.1 hnodup)
  by_cases hid : i = d
  · subst hid
    rw [assigned_of_not_mem hnodup'.1,
      assigned_of_mem hnodup (p := (source, i)) (mem_append_right _ mem_cons_self), hv]
    exact congrArg some (update_self i v m.locals)
  · by_cases hi : i ∈ (front ++ back).map Prod.snd
    · obtain ⟨p, hp, rfl⟩ := List.mem_map.1 hi
      have hp' : p ∈ front ++ (source, d) :: back := by
        rw [mem_append] at hp ⊢
        exact hp.imp_right (mem_cons_of_mem _)
      rw [assigned_of_mem hnodup'.2 hp, assigned_of_mem hnodup hp',
        read_update_locals (hunread p hp)]
    · have hi' : i ∉ (front ++ (source, d) :: back).map Prod.snd := fun hmem =>
        (List.mem_cons.1 (hperm.mem_iff.1 hmem)).elim hid hi
      rw [assigned_of_not_mem hi, assigned_of_not_mem hi']
      exact congrArg some (update_of_ne hid v m.locals)

/-- The value of a redirected source, once its local is saved. -/
theorem read_redirected (h : source ≠ .ofScratch k) :
    Frame.read { m with scratch := Function.update m.scratch k (some (m.locals i)) }
      (if source = .ofLocal i then .ofScratch k else source) = m.read source := by
  split
  · rename_i hi
    subst hi
    exact update_self k _ m.scratch
  · cases source with
    | ofLocal j => rfl
    | ofScratch l =>
      have hne : l ≠ k := fun hlk => h (hlk ▸ rfl)
      exact update_of_ne hne _ m.scratch

theorem redirect_eq (i k : Nat) (pending : Pending) : redirect i k pending =
    pending.map fun p => (if p.1 = .ofLocal i then .ofScratch k else p.1, p.2) := by
  refine map_congr_left fun p _ => ?_
  split <;> rfl

theorem redirect_snd (i k : Nat) (pending : Pending) :
    (redirect i k pending).map Prod.snd = pending.map Prod.snd := by
  rw [redirect_eq, List.map_map]
  rfl

/-- Redirecting the uses of a saved local changes no assignment. -/
theorem assigned_save (hfresh : ∀ p ∈ pending, p.1 ≠ .ofScratch k)
    (hnodup : (pending.map Prod.snd).Nodup) (j : Nat) :
    Frame.assigned { m with scratch := Function.update m.scratch k (some (m.locals i)) }
      (redirect i k pending) j = m.assigned pending j := by
  by_cases hj : j ∈ pending.map Prod.snd
  · obtain ⟨p, hp, rfl⟩ := List.mem_map.1 hj
    have hp' : (if p.1 = .ofLocal i then .ofScratch k else p.1, p.2) ∈ redirect i k pending := by
      rw [redirect_eq]
      exact mem_map_of_mem (f := fun p : Source × Nat => (_, p.2)) hp
    have hnodup' := hnodup
    rw [← redirect_snd i k] at hnodup'
    rw [assigned_of_mem hnodup' hp', assigned_of_mem hnodup hp, read_redirected (hfresh p hp)]
  · have hj' := hj
    rw [← redirect_snd i k] at hj'
    rw [assigned_of_not_mem hj, assigned_of_not_mem hj']

/-! ## One turn of the loop -/

theorem count_eq_zero : count pending i = 0 ↔ ∀ p ∈ pending, p.1 ≠ .ofLocal i := by
  simp [count, countP_eq_zero]

theorem count_middle (front back : Pending) (p : Source × Nat) (i : Nat) :
    count (front ++ p :: back) i = count (front ++ back) i + if p.1 = .ofLocal i then 1 else 0 := by
  simp only [count, countP_append, countP_cons, decide_eq_true_eq]
  omega

theorem count_redirect (pending : Pending) (i k j : Nat) :
    count (redirect i k pending) j = if i = j then 0 else count pending j := by
  rw [redirect_eq, count, countP_map]
  split
  · rename_i hij
    subst hij
    refine List.countP_eq_zero.2 fun p _ h => ?_
    have h := of_decide_eq_true h
    dsimp only at h
    split at h
    · cases h
    · contradiction
  · rename_i hij
    refine countP_congr fun p _ => ?_
    dsimp only [Function.comp]
    rw [decide_eq_true_iff, decide_eq_true_iff]
    split
    · rename_i hp
      rw [hp]
      exact ⟨nofun, fun h => absurd (Source.ofLocal.inj h) hij⟩
    · exact Iff.rfl

/-- Releasing the source of a pending assignment gives the use counts without it. -/
theorem release_spec {n : Nat} (huses : ∀ i < n, uses[i]? = some (count (front ++ p :: back) i))
    (hrange : ∀ i, p.1 = .ofLocal i → i < n) : ∃ uses', release uses p.1 = some uses' ∧
      ∀ i < n, uses'[i]? = some (count (front ++ back) i) := by
  cases hsource : p.1 with
  | ofScratch k =>
    refine ⟨uses, rfl, fun i hi => ?_⟩
    rw [huses i hi, count_middle, hsource, if_neg nofun, Nat.add_zero]
  | ofLocal j =>
    have hj := huses j (hrange j hsource)
    rw [count_middle, hsource, if_pos rfl] at hj
    refine ⟨uses.set j (count (front ++ back) j), by rw [release, hj], fun i hi => ?_⟩
    have hlen : j < uses.length := (List.getElem?_eq_some_iff.1 hj).1
    by_cases hij : j = i
    · subst hij
      exact List.getElem?_set_self hlen
    · have hne : ¬(Source.ofLocal j = Source.ofLocal i) := fun h => hij (Source.ofLocal.inj h)
      rw [List.getElem?_set_ne hij, huses i hi, count_middle, hsource, if_neg hne, Nat.add_zero]

/-- The types of copies and sources stay when scratch slots are added. -/
theorem Source.ty?_append (h : source.ty? types scratch = some ty) (more : List Ty) :
    source.ty? types (scratch ++ more) = some ty := by
  cases source with
  | ofLocal i => exact h
  | ofScratch k =>
    exact (List.getElem?_append_left (List.getElem?_eq_some_iff.1 h).1).trans h

theorem Copy.Typed.append {c : Copy} (h : c.Typed types scratch)
    (more : List Ty) : c.Typed types (scratch ++ more) := by
  cases c with
  | save i k =>
    obtain ⟨ty, hi, hk⟩ := h
    exact ⟨ty, hi, (List.getElem?_append_left (List.getElem?_eq_some_iff.1 hk).1).trans hk⟩
  | move source d =>
    obtain ⟨ty, hsource, hd⟩ := h
    exact ⟨ty, Source.ty?_append hsource more, hd⟩

/-- What a turn does: it emits a copy whose execution leaves the pending assignments to make the
same of the locals. -/
structure Turn (types : List Ty) (w w' : Work) (c : Copy) : Prop where
  turn : w.turn types = some w'
  ready : w'.Ready types
  target : w'.edge.target = w.edge.target
  copies : w'.edge.copies = w.edge.copies ++ [c]
  exec : ∀ {α : Type} (m : Frame α), m.Written w.pending → ∃ m', c.exec m = some m' ∧
    m'.Written w'.pending ∧ ∀ i, m'.assigned w'.pending i = m.assigned w.pending i

/-- A sink is written. -/
theorem Work.Ready.sink (h : w.Ready types) {index : Nat}
    (hindex : w.pending.findIdx? (fun p => w.uses[p.2]? = some 0) = some index) :
    ∃ w' c, Turn types w w' c := by
  obtain ⟨hlt, hsink, -⟩ := List.findIdx?_eq_some_iff_getElem.1 hindex
  have hget : w.pending[index]? = some w.pending[index] := List.getElem?_eq_getElem hlt
  generalize hp : w.pending[index] = p at hget hsink
  obtain ⟨source, d⟩ := p
  have hmem : (source, d) ∈ w.pending := hp ▸ getElem_mem hlt
  have hsplit : w.pending = w.pending.take index ++ (source, d) :: w.pending.drop (index + 1) := by
    rw [← hp, ← drop_eq_getElem_cons hlt, take_append_drop]
  have herase := eraseIdx_eq_take_drop_succ w.pending index
  generalize w.pending.take index = front at hsplit herase
  generalize w.pending.drop (index + 1) = back at hsplit herase
  have huses := h.uses
  have hnodup := h.nodup
  rw [hsplit] at huses hnodup
  have hrange : ∀ i, source = .ofLocal i → i < types.length := by
    rintro i rfl
    obtain ⟨ty, hty, -⟩ := h.pending _ hmem
    exact (List.getElem?_eq_some_iff.1 hty).1
  obtain ⟨uses, hrelease, huses'⟩ := release_spec huses hrange
  have hcount : count (front ++ (source, d) :: back) d = 0 := by
    have := huses d (h.in_range hmem)
    rw [of_decide_eq_true hsink] at this
    exact (Option.some.inj this).symm
  have hunread := count_eq_zero.1 hcount
  have hsub : ∀ p ∈ front ++ back, p ∈ w.pending := fun p hp => by
    rw [hsplit]
    exact ((sublist_cons_self (source, d) back).append_left front).subset hp
  have hunread' : ∀ p ∈ front ++ back, p.1 ≠ .ofLocal d := fun p hp =>
    hunread p (hsplit ▸ hsub p hp)
  refine ⟨{ pending := w.pending.eraseIdx index, uses := uses, edge :=
    { w.edge with copies := w.edge.copies ++ [.move source d] } }, .move source d, ?_, ?_, rfl, rfl,
    ?_⟩
  · unfold Work.turn
    rw [hindex]
    simp only [hget, hrelease, Option.map_some]
  · refine ⟨?_, ?_, ?_, ?_⟩
    · intro i hi
      dsimp only
      rw [herase]
      exact huses' i hi
    · exact ((eraseIdx_sublist w.pending index).map Prod.snd).nodup h.nodup
    · exact fun p hp => h.pending p ((eraseIdx_sublist w.pending index).subset hp)
    · intro c hc
      obtain hc | hc := List.mem_append.1 hc
      · exact h.copies c hc
      · rw [List.mem_singleton.1 hc]
        exact h.pending _ hmem
  · intro α m hwritten
    obtain ⟨v, hv⟩ := Option.isSome_iff_exists.1 (hwritten _ hmem)
    refine ⟨{ m with locals := Function.update m.locals d v }, ?_, ?_, ?_⟩
    · rw [Copy.exec, hv, Option.map_some]
    · intro p hp
      dsimp only at hp
      rw [herase] at hp
      rw [read_update_locals (hunread' p hp)]
      exact hwritten p (hsub p hp)
    · intro i
      dsimp only
      rw [herase, assigned_move hnodup hunread' hv, hsplit]

/-- A source of the pending assignments is saved where there is no sink. -/
theorem Work.Ready.save (h : w.Ready types) (hpending : w.pending ≠ [])
    (hindex : w.pending.findIdx? (fun p => w.uses[p.2]? = some 0) = none) :
    ∃ w' c, Turn types w w' c := by
  have hread : ∀ p ∈ w.pending, count w.pending p.2 ≠ 0 := by
    intro p hp hzero
    have hfalse := List.findIdx?_eq_none_iff.1 hindex p hp
    rw [h.uses p.2 (h.in_range hp), hzero] at hfalse
    cases hfalse
  have hlocal := isLocal_of_no_sink h.nodup hread
  obtain ⟨⟨source, d⟩, rest, hcons⟩ := exists_cons_of_ne_nil hpending
  have hmem : (source, d) ∈ w.pending := hcons ▸ mem_cons_self
  cases source with
  | ofScratch k => exact absurd (hlocal _ hmem) nofun
  | ofLocal i =>
    obtain ⟨ty, hty, -⟩ := h.pending _ hmem
    have hfresh : ∀ p ∈ w.pending, p.1 ≠ .ofScratch w.edge.scratch.length := fun p hp hk => by
      have := hlocal p hp
      rw [hk] at this
      cases this
    have hslot : (w.edge.scratch ++ [ty])[w.edge.scratch.length]? = some ty := by
      rw [List.getElem?_append_right (Nat.le_refl _), Nat.sub_self]
      rfl
    refine ⟨{ pending := redirect i w.edge.scratch.length w.pending
              uses := w.uses.set i 0
              edge := { w.edge with
                scratch := w.edge.scratch ++ [ty]
                copies := w.edge.copies ++ [.save i w.edge.scratch.length] } },
      .save i w.edge.scratch.length, ?_, ?_, rfl, rfl, ?_⟩
    · have hty' : types[i]? = some ty := hty
      unfold Work.turn
      rw [hindex]
      simp only [hcons, hty', Option.map_some]
    · refine ⟨?_, ?_, ?_, ?_⟩
      · intro j hj
        dsimp only
        rw [count_redirect, List.getElem?_set, h.uses j hj]
        have hlen : i < w.uses.length := (List.getElem?_eq_some_iff.1
          (h.uses i (List.getElem?_eq_some_iff.1 hty).1)).1
        by_cases hij : i = j
        · rw [if_pos hij, if_pos hij, if_pos hlen]
        · rw [if_neg hij, if_neg hij]
      · dsimp only
        rw [redirect_snd]
        exact h.nodup
      · intro p hp
        dsimp only at hp ⊢
        rw [redirect_eq] at hp
        obtain ⟨q, hq, rfl⟩ := List.mem_map.1 hp
        obtain ⟨ty', hsource, hd⟩ := h.pending q hq
        refine ⟨ty', ?_, hd⟩
        dsimp only
        split
        · rename_i hqi
          rw [hqi] at hsource
          exact hslot.trans (hty.symm.trans hsource)
        · exact Source.ty?_append hsource [ty]
      · intro c hc
        obtain hc | hc := List.mem_append.1 hc
        · exact (h.copies c hc).append [ty]
        · rw [List.mem_singleton.1 hc]
          exact ⟨ty, hty, hslot⟩
    · intro α m hwritten
      refine ⟨{ m with scratch :=
        Function.update m.scratch w.edge.scratch.length (some (m.locals i)) }, rfl, ?_,
        fun j => assigned_save hfresh h.nodup j⟩
      intro p hp
      dsimp only at hp
      rw [redirect_eq] at hp
      obtain ⟨q, hq, rfl⟩ := List.mem_map.1 hp
      rw [read_redirected (hfresh q hq)]
      exact hwritten q hq

/-- Every turn of the loop succeeds. -/
theorem Work.Ready.turn (h : w.Ready types) (hpending : w.pending ≠ []) :
    ∃ w' c, Turn types w w' c := by
  cases hindex : w.pending.findIdx? fun p => w.uses[p.2]? = some 0 with
  | some index => exact h.sink hindex
  | none => exact h.save hpending hindex

/-- The loop ends, and executing what it emits makes the pending assignments. -/
theorem Work.Ready.run (h : w.Ready types) : ∃ edge cs, w.run types = some edge ∧
    edge.target = w.edge.target ∧ (∀ c ∈ edge.copies, c.Typed types edge.scratch) ∧
    edge.copies = w.edge.copies ++ cs ∧ ∀ {α : Type} (m : Frame α), m.Written w.pending →
      ∃ m', execAll m cs = some m' ∧ ∀ i, m.assigned w.pending i = some (m'.locals i) := by
  induction hsize : w.size using Nat.strongRecOn generalizing w with
  | ind n ih =>
    rw [Work.run]
    split
    · rename_i hpending
      refine ⟨w.edge, [], rfl, rfl, h.copies, (append_nil _).symm, fun m _ => ⟨m, rfl, ?_⟩⟩
      intro i
      rw [hpending]
      rfl
    · rename_i hpending
      obtain ⟨w', c, hturn⟩ := h.turn hpending
      obtain ⟨edge, cs, hrun, htarget, htyped, hcopies, hexec⟩ :=
        ih w'.size (hsize ▸ Work.turn_size hturn.turn) hturn.ready rfl
      refine ⟨edge, c :: cs, ?_, htarget.trans hturn.target, htyped, ?_, ?_⟩
      · split
        · rename_i hnone
          rw [hturn.turn] at hnone
          cases hnone
        · rename_i w'' hsome
          rw [hturn.turn] at hsome
          rw [← Option.some.inj hsome, hrun]
      · rw [hcopies, hturn.copies, append_assoc, singleton_append]
      · intro α m hwritten
        obtain ⟨m₁, hc, hwritten₁, hassigned₁⟩ := hturn.exec m hwritten
        obtain ⟨m₂, hcs, hassigned₂⟩ := hexec m₁ hwritten₁
        refine ⟨m₂, ?_, fun i => (hassigned₁ i).symm.trans (hassigned₂ i)⟩
        rw [execAll, foldlM_cons, hc]
        exact hcs

/-! ## The checks -/

/-- An assignment between locals of one type, which is not `Effect`. -/
def PairTyped (types : List Ty) (p : Nat × Nat) : Prop :=
  ∃ ty, types[p.1]? = some ty ∧ types[p.2]? = some ty ∧ ty ≠ .effect

/-- The assignments an edge can make: both locals of each pair are there and of one type other than
`Effect`, and no destination occurs twice. -/
structure Valid (types : List Ty) (pairs : List (Nat × Nat)) : Prop where
  typed : ∀ p ∈ pairs, PairTyped types p
  nodup : (pairs.map Prod.snd).Nodup

/-- The pairs that move something. -/
def moved (pairs : List (Nat × Nat)) : Pending :=
  (pairs.filter fun p => p.1 ≠ p.2).map fun p => (.ofLocal p.1, p.2)

theorem count_append (pending pending' : Pending) (i : Nat) :
    count (pending ++ pending') i = count pending i + count pending' i :=
  countP_append

theorem Valid.cons_iff {p : Nat × Nat} {destinations : List Nat} :
    (Valid types (p :: pairs) ∧ ∀ q ∈ p :: pairs, q.2 ∉ destinations) ↔
      (PairTyped types p ∧ p.2 ∉ destinations) ∧
        Valid types pairs ∧ ∀ q ∈ pairs, q.2 ∉ p.2 :: destinations := by
  constructor
  · rintro ⟨⟨htyped, hnodup⟩, hnew⟩
    rw [map_cons, nodup_cons] at hnodup
    refine ⟨⟨htyped p mem_cons_self, hnew p mem_cons_self⟩,
      ⟨fun q hq => htyped q (mem_cons_of_mem _ hq), hnodup.2⟩, fun q hq hmem => ?_⟩
    obtain hqp | hmem := List.mem_cons.1 hmem
    · exact hnodup.1 (hqp ▸ mem_map_of_mem hq)
    · exact hnew q (mem_cons_of_mem _ hq) hmem
  · rintro ⟨⟨hp, hnew⟩, ⟨htyped, hnodup⟩, hrest⟩
    refine ⟨⟨List.forall_mem_cons.2 ⟨hp, htyped⟩, ?_⟩,
      List.forall_mem_cons.2 ⟨hnew, fun q hq hmem => hrest q hq (mem_cons_of_mem _ hmem)⟩⟩
    rw [map_cons, nodup_cons]
    refine ⟨fun hmem => ?_, hnodup⟩
    obtain ⟨q, hq, hqp⟩ := List.mem_map.1 hmem
    exact hrest q hq (hqp ▸ mem_cons_self)

/-- What the check of a pair asks. -/
theorem pair_checked {source : Nat} (destination : Nat) (destinations : List Nat)
    (hty : types[source]? = some ty) :
    ¬(types[destination]? ≠ some ty ∨ ty = .effect ∨ destination ∈ destinations) ↔
      PairTyped types (source, destination) ∧ destination ∉ destinations := by
  rw [not_or, not_or, not_not]
  constructor
  · rintro ⟨hd, heffect, hnew⟩
    exact ⟨⟨ty, hty, hd, heffect⟩, hnew⟩
  · rintro ⟨⟨ty', hs, hd, heffect⟩, hnew⟩
    obtain rfl := Option.some.inj (hty.symm.trans hs)
    exact ⟨hd, heffect, hnew⟩

/-- The check passes exactly on the assignments an edge can make, and leaves those that move
something, with their use counts. -/
theorem check_spec (pairs : List (Nat × Nat)) (destinations : List Nat)
    (huses : ∀ i < types.length, uses[i]? = some (count pending i)) :
    (Valid types pairs ∧ ∀ p ∈ pairs, p.2 ∉ destinations) ∧
        (∃ uses', check types pairs destinations pending uses =
            some (pending ++ moved pairs, uses') ∧
          ∀ i < types.length, uses'[i]? = some (count (pending ++ moved pairs) i)) ∨
      ¬(Valid types pairs ∧ ∀ p ∈ pairs, p.2 ∉ destinations) ∧
        check types pairs destinations pending uses = none := by
  induction pairs generalizing destinations pending uses with
  | nil =>
    refine .inl ⟨⟨⟨nofun, nodup_nil⟩, nofun⟩, uses, ?_⟩
    rw [moved, filter_nil, map_nil, append_nil]
    exact ⟨rfl, huses⟩
  | cons p pairs ih =>
    obtain ⟨source, destination⟩ := p
    rw [Valid.cons_iff, check]
    cases hty : types[source]? with
    | none =>
      refine .inr ⟨fun h => ?_, rfl⟩
      obtain ⟨ty, hs, -⟩ := h.1.1
      exact absurd (hty.symm.trans hs) nofun
    | some ty =>
      have hchecked := pair_checked destination destinations hty
      dsimp only
      split
      · rename_i hbad
        exact .inr ⟨fun h => hchecked.2 h.1 hbad, rfl⟩
      · rename_i hgood
        have hpair := hchecked.1 hgood
        have hiff : ((PairTyped types (source, destination) ∧ destination ∉ destinations) ∧
            Valid types pairs ∧ ∀ q ∈ pairs, q.2 ∉ destination :: destinations) ↔
            Valid types pairs ∧ ∀ q ∈ pairs, q.2 ∉ destination :: destinations :=
          and_iff_right hpair
        rw [hiff]
        split
        · rename_i heq
          have hmoved : moved ((source, destination) :: pairs) = moved pairs := by
            rw [moved, filter_cons_of_neg (by simpa using heq)]
            rfl
          rw [hmoved]
          exact ih _ huses
        · rename_i hne
          have hmoved : pending ++ moved ((source, destination) :: pairs) =
              pending ++ [(.ofLocal source, destination)] ++ moved pairs := by
            rw [moved, filter_cons_of_pos (by simpa using hne), append_assoc]
            rfl
          rw [hmoved]
          refine ih _ fun i hi => ?_
          rw [List.getElem?_modify, huses i hi, count_append]
          split
          · rename_i hi
            subst hi
            simp [count]
          · rename_i hi
            simp [count, hi]

theorem schedule_ready (target : Nat) (hvalid : Valid types pairs)
    (huses : ∀ i < types.length, uses[i]? = some (count (moved pairs) i)) :
    Work.Ready types ⟨moved pairs, uses, ⟨target, [], []⟩⟩ := by
  refine ⟨huses, ?_, fun p hp => ?_, nofun⟩
  · have hmap : (moved pairs).map Prod.snd = (pairs.filter fun p => p.1 ≠ p.2).map Prod.snd := by
      rw [moved, List.map_map]
      rfl
    dsimp only
    rw [hmap]
    exact (List.filter_sublist.map Prod.snd).nodup hvalid.nodup
  · obtain ⟨q, hq, rfl⟩ := List.mem_map.1 hp
    obtain ⟨ty, hs, hd, -⟩ := hvalid.typed q (mem_of_mem_filter hq)
    exact ⟨ty, hs, hd⟩

/-- Executed from any locals, with no scratch slot written, the copies give each destination the
value that its source had, and leave every other local. -/
def Edge.Assigns (edge : Edge) (pairs : List (Nat × Nat)) : Prop :=
  ∀ {α : Type} (locals : Nat → α), ∃ m, execAll ⟨locals, fun _ => none⟩ edge.copies = some m ∧
    (∀ p ∈ pairs, m.locals p.2 = locals p.1) ∧
    ∀ i, i ∉ pairs.map Prod.snd → m.locals i = locals i

theorem assigned_moved (hnodup : (pairs.map Prod.snd).Nodup)
    (m : Frame α) : (∀ p ∈ pairs, m.assigned (moved pairs) p.2 = some (m.locals p.1)) ∧
      ∀ i, i ∉ pairs.map Prod.snd → m.assigned (moved pairs) i = some (m.locals i) := by
  have hmoved : ((moved pairs).map Prod.snd).Sublist (pairs.map Prod.snd) := by
    rw [moved, List.map_map]
    exact List.filter_sublist.map Prod.snd
  have hnodup' := hmoved.nodup hnodup
  refine ⟨fun p hp => ?_, fun i hi => assigned_of_not_mem fun h => hi (hmoved.subset h)⟩
  by_cases hself : p.1 = p.2
  · have hnot : p.2 ∉ (moved pairs).map Prod.snd := by
      intro hmem
      rw [moved, List.map_map] at hmem
      obtain ⟨q, hq, hqp⟩ := List.mem_map.1 hmem
      obtain ⟨hq, hne⟩ := List.mem_filter.1 hq
      have : q = p := inj_on_of_nodup_map hnodup hq hp hqp
      subst this
      exact of_decide_eq_true hne hself
    rw [assigned_of_not_mem hnot, hself]
  · have hmem : (Source.ofLocal p.1, p.2) ∈ moved pairs :=
      mem_map_of_mem (f := fun p : Nat × Nat => (Source.ofLocal p.1, p.2))
        (List.mem_filter.2 ⟨hp, decide_eq_true hself⟩)
    exact assigned_of_mem hnodup' hmem

/-- `schedule` fails exactly on assignments an edge cannot make; any others it performs at once,
with each scratch slot written before it is read and of the type of the local saved in it. -/
theorem schedule_parallel (target : Nat) (pairs : List (Nat × Nat)) (types : List Ty) :
    (schedule target pairs types = none ↔ ¬Valid types pairs) ∧
      ∀ edge ∈ schedule target pairs types, edge.target = target ∧ edge.Assigns pairs ∧
        ∀ c ∈ edge.copies, c.Typed types edge.scratch := by
  have huses : ∀ i < types.length,
      (List.replicate types.length 0)[i]? = some (count [] i) := fun i hi =>
    List.getElem?_replicate_of_lt hi
  have hnew : (Valid types pairs ∧ ∀ p ∈ pairs, p.2 ∉ ([] : List Nat)) ↔ Valid types pairs :=
    and_iff_left fun _ _ => not_mem_nil
  obtain ⟨hvalid, uses, hcheck, huses⟩ | ⟨hvalid, hcheck⟩ :=
    check_spec pairs [] huses
  · rw [hnew] at hvalid
    rw [nil_append] at hcheck huses
    obtain ⟨edge, cs, hrun, htarget, htyped, hcopies, hexec⟩ :=
      (schedule_ready target hvalid huses).run
    have hschedule : schedule target pairs types = some edge := by
      rw [schedule, hcheck]
      exact hrun
    rw [hschedule]
    refine ⟨⟨nofun, fun h => absurd hvalid h⟩, ?_⟩
    rintro edge' ⟨⟩
    refine ⟨htarget, ?_, htyped⟩
    intro α locals
    have hwritten : Frame.Written ⟨locals, fun _ => none⟩ (moved pairs) := by
      intro p hp
      obtain ⟨q, hq, rfl⟩ := List.mem_map.1 hp
      rfl
    obtain ⟨m, hcs, hassigned⟩ := hexec _ hwritten
    obtain ⟨hpairs, hrest⟩ := assigned_moved hvalid.nodup (⟨locals, fun _ => none⟩ : Frame α)
    refine ⟨m, hcopies ▸ hcs, fun p hp => ?_, fun i hi => ?_⟩
    · exact Option.some.inj ((hassigned p.2).symm.trans (hpairs p hp))
    · exact Option.some.inj ((hassigned i).symm.trans (hrest i hi))
  · rw [hnew] at hvalid
    have hschedule : schedule target pairs types = none := by
      rw [schedule, hcheck]
      rfl
    rw [hschedule]
    exact ⟨⟨fun _ => hvalid, fun _ => rfl⟩, nofun⟩

/-- Two locals are swapped through one scratch slot. -/
theorem schedule_parallel_swap : schedule 7 [(0, 1), (1, 0)] [.i32, .i32] =
      some ⟨7, [.i32], [.save 0 0, .move (.ofLocal 1) 0, .move (.ofScratch 0) 1]⟩ ∧
    Edge.Assigns ⟨7, [.i32], [.save 0 0, .move (.ofLocal 1) 0, .move (.ofScratch 0) 1]⟩
      [(0, 1), (1, 0)] := by
  have hrun : schedule 7 [(0, 1), (1, 0)] [.i32, .i32] =
      some ⟨7, [.i32], [.save 0 0, .move (.ofLocal 1) 0, .move (.ofScratch 0) 1]⟩ := by
    decide +kernel
  exact ⟨hrun, ((schedule_parallel 7 [(0, 1), (1, 0)] [.i32, .i32]).2 _ hrun).2.1⟩

end

end V86.Ir.Mir
