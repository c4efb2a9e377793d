import Mathlib.Data.Fintype.Card

/-!
# Trees of named edges with a way back

Nodes hold edges under labels. Two labels are set apart: under `self` a directory holds itself and
under `up` the directory that names it. The other labels name children, and a leaf may be named any
number of times. What makes the directories a tree is `NamedTree.Tree`: each of them but the root is
named at most once, its `up` edge leads back to the directory that names it, and every directory
named at all is reached from the root. A tree changes by taking one directory off, with all that is
below it (`Tree.detach`), and by putting it under a linked directory (`Off.attach`); one that holds
nothing may stay off (`Off.prune`).
-/

namespace V86.NamedTree

/-- The root, and the labels every directory holds itself and its parent under. -/
structure Marks (ι ν : Type*) where
  root : ι
  self : ν
  up : ν
  distinct : self ≠ up

variable {ι ν : Type*} (M : Marks ι ν)

namespace Marks

/-- `p` holds `c` under a label that names a child. -/
def Names (e : ι → ν → Option ι) (p : ι) (n : ν) (c : ι) : Prop :=
  e p n = some c ∧ n ≠ M.self ∧ n ≠ M.up

/-- The directories reached from the root by names, each with its depth. -/
inductive Linked (e : ι → ν → Option ι) (dir : ι → Prop) : ℕ → ι → Prop
  | root : Linked e dir 0 M.root
  | child {k : ℕ} {p : ι} {n : ν} {c : ι} (hp : Linked e dir k p) (hn : M.Names e p n c)
      (hc : dir c) : Linked e dir (k + 1) c

/-- The directories that are `d` or reached from it by names. -/
def Below (e : ι → ν → Option ι) (dir : ι → Prop) : ι → ι → Prop :=
  Relation.ReflTransGen fun a b => dir b ∧ ∃ n, M.Names e a n b

/-- What holds of the edges between directories whether or not one of them is taken off. -/
structure Upward (e : ι → ν → Option ι) (dir : ι → Prop) (ok : ν → Prop) : Prop where
  rootDir : dir M.root
  rootUp : e M.root M.up = some M.root
  rootUnnamed : ∀ p n, ¬ M.Names e p n M.root
  upEntry : ∀ p n c, M.Names e p n c → dir c → e c M.up = some p
  upNames : ∀ c p, e c M.up = some p → dir p → dir c ∧ (c = M.root ∨ ∃ n, M.Names e p n c)
  nameUnique : ∀ p n n' c, M.Names e p n c → M.Names e p n' c → dir c → n = n'
  nameOk : ∀ p n c, M.Names e p n c → dir c → ok n

/-- Every named directory is reached from the root. -/
structure Tree (e : ι → ν → Option ι) (dir : ι → Prop) (ok : ν → Prop) : Prop
    extends M.Upward e dir ok where
  selfEntry : ∀ d, dir d → e d M.self = some d
  linked : ∀ p n c, M.Names e p n c → dir c → ∃ k, M.Linked e dir k c

/-- The directory `d` is taken off: no name leads to it, and what is not reached from the root is
below it. -/
structure Off (e : ι → ν → Option ι) (dir : ι → Prop) (ok : ν → Prop) (d : ι) : Prop
    extends M.Upward e dir ok where
  isDir : dir d
  ne_root : d ≠ M.root
  unnamed : ∀ p n, ¬ M.Names e p n d
  upGone : e d M.up = none
  selfEntry : ∀ c, dir c → c ≠ d → e c M.self = some c
  linked : ∀ p n c, M.Names e p n c → dir c → (∃ k, M.Linked e dir k c) ∨ M.Below e dir d c

end Marks

open Marks

section linked

variable {M} {e : ι → ν → Option ι} {dir : ι → Prop} {ok : ν → Prop}

variable {k : ℕ} {d p c : ι} {n : ν}

/-- More names link more. -/
theorem Marks.Linked.mono {e' : ι → ν → Option ι} {dir' : ι → Prop}
    (he : ∀ p n c, M.Names e p n c → dir c → M.Names e' p n c ∧ dir' c)
    (h : M.Linked e dir k d) : M.Linked e' dir' k d := by
  induction h with
  | root => exact .root
  | child _ hn hc ih => exact .child ih (he _ _ _ hn hc).1 (he _ _ _ hn hc).2

theorem Marks.Linked.isDir (hr : dir M.root) {k : ℕ} {d : ι} (h : M.Linked e dir k d) : dir d := by
  cases h with
  | root => exact hr
  | child _ _ hc => exact hc

/-- A directory is named by one entry at most. -/
theorem Marks.Upward.name_unique (h : M.Upward e dir ok) {p' : ι} {n' : ν} (hn : M.Names e p n c)
    (hn' : M.Names e p' n' c) (hc : dir c) : p = p' ∧ n = n' := by
  have hp : p = p' := by
    have := h.upEntry p n c hn hc
    rw [h.upEntry p' n' c hn' hc] at this
    exact (Option.some.inj this).symm
  subst hp
  exact ⟨rfl, h.nameUnique p n n' c hn hn' hc⟩

/-- A linked directory has one depth. -/
theorem Marks.Upward.depth_unique (h : M.Upward e dir ok) {k' : ℕ} (hk : M.Linked e dir k d)
    (hk' : M.Linked e dir k' d) : k = k' := by
  induction hk generalizing k' with
  | root =>
    cases hk' with
    | root => rfl
    | child _ hn _ => exact absurd hn (h.rootUnnamed _ _)
  | child hp hn hc ih =>
    cases hk' with
    | root => exact absurd hn (h.rootUnnamed _ _)
    | child hp' hn' _ =>
      obtain ⟨rfl, -⟩ := h.name_unique hn hn' hc
      rw [ih hp']

/-- The directory that names a linked directory is linked, one step above it. -/
theorem Marks.Upward.linked_of_names (h : M.Upward e dir ok) (hk : M.Linked e dir k c)
    (hn : M.Names e p n c) : ∃ j, k = j + 1 ∧ M.Linked e dir j p := by
  cases hk with
  | root => exact absurd hn (h.rootUnnamed _ _)
  | child hp hn' hc =>
    obtain ⟨rfl, -⟩ := h.name_unique hn hn' hc
    exact ⟨_, rfl, hp⟩

/-- What holds a named directory is itself linked. -/
theorem Marks.Tree.linked_holder (h : M.Tree e dir ok) (hn : M.Names e p n c)
    (hc : dir c) : ∃ k, M.Linked e dir k p := by
  obtain ⟨k, hk⟩ := h.linked p n c hn hc
  obtain ⟨j, -, hj⟩ := h.toUpward.linked_of_names hk hn
  exact ⟨j, hj⟩

/-- A linked directory holds the way back. -/
theorem Marks.Upward.up_of_linked (h : M.Upward e dir ok) (hk : M.Linked e dir k d) :
    ∃ p, e d M.up = some p := by
  cases hk with
  | root => exact ⟨_, h.rootUp⟩
  | child _ hn hc => exact ⟨_, h.upEntry _ _ _ hn hc⟩

/-- A chain of distinct nodes, one for each depth up to that of `d`. -/
theorem Marks.Upward.exists_chain (h : M.Upward e dir ok) (hk : M.Linked e dir k d) :
    ∃ l : List ι, l.length = k + 1 ∧ l.Nodup ∧ ∀ x ∈ l, ∃ j ≤ k, M.Linked e dir j x := by
  induction hk with
  | root =>
    refine ⟨[M.root], rfl, List.nodup_singleton _, fun x hx => ⟨0, le_rfl, ?_⟩⟩
    exact List.mem_singleton.1 hx ▸ .root
  | @child k p n c hp hn hc ih =>
    obtain ⟨l, hl, hnd, hx⟩ := ih
    have hc' : M.Linked e dir (k + 1) c := .child hp hn hc
    refine ⟨c :: l, by rw [List.length_cons, hl], List.nodup_cons.2 ⟨fun hm => ?_, hnd⟩, ?_⟩
    · obtain ⟨j, hj, hjc⟩ := hx c hm
      have := h.depth_unique hjc hc'
      omega
    · intro x hm
      rcases List.mem_cons.1 hm with rfl | hm
      · exact ⟨k + 1, le_rfl, hc'⟩
      · obtain ⟨j, hj, hjx⟩ := hx x hm
        exact ⟨j, by omega, hjx⟩

/-- No directory is deeper than there are nodes. -/
theorem Marks.Upward.depth_lt (h : M.Upward e dir ok) {size : ℕ} (f : ι → ℕ)
    (hinj : ∀ a b, f a = f b → a = b) (hf : ∀ j x, M.Linked e dir j x → f x < size)
    (hk : M.Linked e dir k d) : k < size := by
  obtain ⟨l, hl, hnd, hx⟩ := h.exists_chain hk
  have hsub : (l.map f) ⊆ List.range size := by
    intro y hy
    obtain ⟨x, hm, rfl⟩ := List.mem_map.1 hy
    obtain ⟨j, -, hj⟩ := hx x hm
    exact List.mem_range.2 (hf j x hj)
  have hnd' : (l.map f).Nodup := hnd.map fun a b => hinj a b
  have := (hnd'.subperm hsub).length_le
  rw [List.length_map, List.length_range] at this
  omega

/-- Nothing is below a directory that holds no directory but itself. -/
theorem eq_of_below (hempty : ∀ n b, ¬ M.Names e d n b) (h : M.Below e dir d c) : c = d := by
  rcases Relation.ReflTransGen.cases_head h with h | ⟨b, ⟨-, n, hb⟩, -⟩
  · exact h.symm
  · exact absurd hb (hempty n b)

/-- A directory that holds nothing may stay off. -/
theorem Marks.Off.prune (h : M.Off e dir ok d) (hself : e d M.self = some d)
    (hempty : ∀ n b, ¬ M.Names e d n b) : M.Tree e dir ok where
  toUpward := h.toUpward
  selfEntry c hc := by
    by_cases hcd : c = d
    · exact hcd ▸ hself
    · exact h.selfEntry c hc hcd
  linked a x c hx hc := by
    refine (h.linked a x c hx hc).resolve_right fun hb => ?_
    exact h.unnamed a x (eq_of_below hempty hb ▸ hx)

/-- A new directory is off at first. -/
theorem Marks.Tree.fresh (h : M.Tree e dir ok) (hroot : d ≠ M.root) (hin : ∀ p n, e p n ≠ some d)
    (hout : ∀ n, e d n = none) : M.Off e (fun c => dir c ∨ c = d) ok d := by
  have hdir : ∀ {p n c}, M.Names e p n c → (dir c ∨ c = d) → dir c := fun hn hc =>
    hc.resolve_right fun hcd => hin _ _ (hcd ▸ hn.1)
  constructor
  · constructor
    · exact .inl h.rootDir
    · exact h.rootUp
    · exact h.rootUnnamed
    · exact fun p n c hn hc => h.upEntry p n c hn (hdir hn hc)
    · intro c p hc hp
      have hp' : dir p := hp.resolve_right fun hpd => hin c M.up (hpd ▸ hc)
      obtain ⟨hdc, hor⟩ := h.upNames c p hc hp'
      exact ⟨.inl hdc, hor⟩
    · exact fun p n n' c hn hn' hc => h.nameUnique p n n' c hn hn' (hdir hn hc)
    · exact fun p n c hn hc => h.nameOk p n c hn (hdir hn hc)
  · exact .inr rfl
  · exact hroot
  · exact fun p n hn => hin p n hn.1
  · exact hout M.up
  · exact fun c hc hcd => h.selfEntry c (hc.resolve_right hcd)
  · intro p n c hn hc
    obtain ⟨k, hk⟩ := h.linked p n c hn (hdir hn hc)
    exact .inl ⟨k, hk.mono fun a x b hx hb => ⟨hx, .inl hb⟩⟩

end linked

section edges

variable [DecidableEq ι] [DecidableEq ν]

/-- The edges with the one of `p` under `n` replaced. -/
def setEdge (e : ι → ν → Option ι) (p : ι) (n : ν) (v : Option ι) : ι → ν → Option ι :=
  fun p' n' => if p' = p ∧ n' = n then v else e p' n'

@[simp] theorem setEdge_self (e : ι → ν → Option ι) (p : ι) (n : ν) (v : Option ι) :
    setEdge e p n v p n = v := by
  simp [setEdge]

theorem setEdge_of_ne (e : ι → ν → Option ι) {p p' : ι} {n n' : ν} (v : Option ι)
    (h : ¬ (p' = p ∧ n' = n)) : setEdge e p n v p' n' = e p' n' :=
  if_neg h

namespace Marks

/-- The edges after `d` is put under `p`. -/
def attachDir (e : ι → ν → Option ι) (p : ι) (n : ν) (d : ι) : ι → ν → Option ι :=
  setEdge (setEdge (setEdge e p n (some d)) d M.self (some d)) d M.up (some p)

/-- The edges after `d` is taken from `p`. -/
def detachDir (e : ι → ν → Option ι) (p : ι) (n : ν) (d : ι) : ι → ν → Option ι :=
  setEdge (setEdge e p n none) d M.up none

end Marks

variable {M} {e : ι → ν → Option ι} {dir : ι → Prop} {ok : ν → Prop}

variable {p a c d q : ι} {n x : ν} {v : Option ι} {k : ℕ}

/-- An edge under `self` or `up` names no child. -/
theorem names_setEdge_mark (hn : n = M.self ∨ n = M.up) :
    M.Names (setEdge e p n v) a x c ↔ M.Names e a x c := by
  have hne : x ≠ M.self ∧ x ≠ M.up → ¬ (a = p ∧ x = n) := by
    rintro ⟨h1, h2⟩ ⟨-, rfl⟩
    exact hn.elim h1 h2
  constructor
  · rintro ⟨h, hx⟩
    exact ⟨setEdge_of_ne e v (hne hx) ▸ h, hx⟩
  · rintro ⟨h, hx⟩
    exact ⟨(setEdge_of_ne e v (hne hx)).trans h, hx⟩

/-- A fresh edge to `d` under a label for children. -/
theorem names_setEdge_some (hp : n ≠ M.self ∧ n ≠ M.up) (hf : e p n = none) :
    M.Names (setEdge e p n (some d)) a x c ↔ (a = p ∧ x = n ∧ c = d) ∨ M.Names e a x c := by
  by_cases h : a = p ∧ x = n
  · obtain ⟨rfl, rfl⟩ := h
    simp [Names, hf, hp, eq_comm]
  · rw [Names, Names, setEdge_of_ne e _ h]
    constructor
    · exact .inr
    · rintro (⟨h1, h2, -⟩ | h')
      · exact absurd ⟨h1, h2⟩ h
      · exact h'

theorem names_setEdge_none :
    M.Names (setEdge e p n none) a x c ↔ ¬ (a = p ∧ x = n) ∧ M.Names e a x c := by
  by_cases h : a = p ∧ x = n
  · obtain ⟨rfl, rfl⟩ := h
    simp [Names]
  · rw [Names, Names, setEdge_of_ne e _ h]
    simp [h]

section
variable (hp : n ≠ M.self ∧ n ≠ M.up)
include hp

theorem names_attachDir (hf : e p n = none) :
    M.Names (M.attachDir e p n d) a x c ↔ (a = p ∧ x = n ∧ c = d) ∨ M.Names e a x c := by
  rw [attachDir, names_setEdge_mark (.inr rfl), names_setEdge_mark (.inl rfl),
    names_setEdge_some hp hf]

theorem attachDir_up : M.attachDir e p n d c M.up = if c = d then some p else e c M.up := by
  have h1 : M.up ≠ M.self := fun h => M.distinct h.symm
  have h2 : M.up ≠ n := fun h => hp.2 h.symm
  by_cases hc : c = d <;> simp [attachDir, setEdge, hc, h1, h2]

theorem attachDir_self : M.attachDir e p n d c M.self = if c = d then some d else e c M.self := by
  have h2 : M.self ≠ n := fun h => hp.1 h.symm
  by_cases hc : c = d <;> simp [attachDir, setEdge, hc, M.distinct, h2]

theorem detachDir_up : M.detachDir e p n d c M.up = if c = d then none else e c M.up := by
  have h2 : M.up ≠ n := fun h => hp.2 h.symm
  by_cases hc : c = d <;> simp [detachDir, setEdge, hc, h2]

theorem detachDir_self : M.detachDir e p n d c M.self = e c M.self := by
  have h2 : M.self ≠ n := fun h => hp.1 h.symm
  simp [detachDir, setEdge, M.distinct, h2]

end

/-- Taking a directory off, everything below it comes off with it. -/
theorem Marks.Tree.detach (h : M.Tree e dir ok) (hn : M.Names e p n d)
    (hd : dir d) : M.Off (M.detachDir e p n d) dir ok d := by
  have hroot : d ≠ M.root := fun he => h.rootUnnamed p n (he ▸ hn)
  have hnames : ∀ a x c, M.Names (M.detachDir e p n d) a x c ↔ M.Names e a x c ∧ c ≠ d := by
    intro a x c
    rw [detachDir, names_setEdge_mark (.inr rfl), names_setEdge_none]
    constructor
    · rintro ⟨hax, hc⟩
      refine ⟨hc, fun hcd => hax ?_⟩
      exact h.toUpward.name_unique (hcd ▸ hc) hn hd
    · rintro ⟨hc, hcd⟩
      refine ⟨fun hax => hcd ?_, hc⟩
      rw [hax.1, hax.2] at hc
      exact Option.some.inj (hc.1.symm.trans hn.1)
  have hup : ∀ c, M.detachDir e p n d c M.up = if c = d then none else e c M.up :=
    fun c => detachDir_up hn.2
  have hbelow : ∀ k c, M.Linked e dir k c →
      (∃ j, M.Linked (M.detachDir e p n d) dir j c) ∨ M.Below (M.detachDir e p n d) dir d c := by
    intro k c hk
    induction hk with
    | root => exact .inl ⟨0, .root⟩
    | @child k a x c _ hx hc ih =>
      by_cases hcd : c = d
      · exact .inr (hcd ▸ .refl)
      · have hx' := (hnames a x c).2 ⟨hx, hcd⟩
        rcases ih with ⟨j, hj⟩ | hb
        · exact .inl ⟨j + 1, .child hj hx' hc⟩
        · exact .inr (hb.tail ⟨hc, x, hx'⟩)
  constructor
  · constructor
    · exact h.rootDir
    · rw [hup, if_neg (Ne.symm hroot), h.rootUp]
    · exact fun a x hx => h.rootUnnamed a x ((hnames a x _).1 hx).1
    · intro a x c hx hc
      obtain ⟨hx, hcd⟩ := (hnames a x c).1 hx
      rw [hup, if_neg hcd, h.upEntry a x c hx hc]
    · intro c a hc ha
      rw [hup] at hc
      split at hc <;> rename_i hcd
      · cases hc
      · obtain ⟨hdc, hor⟩ := h.upNames c a hc ha
        exact ⟨hdc, hor.imp_right fun ⟨x, hx⟩ => ⟨x, (hnames a x c).2 ⟨hx, hcd⟩⟩⟩
    · exact fun a x x' c hx hx' hc =>
        h.nameUnique a x x' c ((hnames a x c).1 hx).1 ((hnames a x' c).1 hx').1 hc
    · exact fun a x c hx hc => h.nameOk a x c ((hnames a x c).1 hx).1 hc
  · exact hd
  · exact hroot
  · exact fun a x hx => ((hnames a x d).1 hx).2 rfl
  · rw [hup, if_pos rfl]
  · exact fun c hc _ => (detachDir_self hn.2).trans (h.selfEntry c hc)
  · intro a x c hx hc
    obtain ⟨k, hk⟩ := h.linked a x c ((hnames a x c).1 hx).1 hc
    exact hbelow k c hk

/-- A linked directory that is not below the one taken off stays linked. -/
theorem linked_detachDir (hn : M.Names e p n d) (hk : M.Linked e dir k q)
    (hb : ¬ M.Below e dir d q) : M.Linked (M.detachDir e p n d) dir k q := by
  induction hk with
  | root => exact .root
  | @child k a x c _ hx hc ih =>
    have hx' : M.Names (M.detachDir e p n d) a x c := ?_
    · exact .child (ih fun h => hb (h.tail ⟨hc, x, hx⟩)) hx' hc
    rw [detachDir, names_setEdge_mark (.inr rfl), names_setEdge_none]
    refine ⟨fun hax => hb ?_, hx⟩
    rw [hax.1, hax.2] at hx
    rw [Option.some.inj (hx.1.symm.trans hn.1)]
    exact .refl

/-- A directory that was taken off is put under a linked directory. -/
theorem Marks.Off.attach {m : ν} (h : M.Off e dir ok d) (hq : M.Linked e dir k q)
    (hm : m ≠ M.self ∧ m ≠ M.up) (hfree : e q m = none) (hok : ok m) :
    M.Tree (M.attachDir e q m d) dir ok := by
  have hnames : ∀ a x c, M.Names (M.attachDir e q m d) a x c ↔
      (a = q ∧ x = m ∧ c = d) ∨ M.Names e a x c := fun a x c => names_attachDir hm hfree
  have hup : ∀ c, M.attachDir e q m d c M.up = if c = d then some q else e c M.up :=
    fun c => attachDir_up hm
  have hmono : ∀ {j c}, M.Linked e dir j c → M.Linked (M.attachDir e q m d) dir j c :=
    fun hj => hj.mono fun a x c hx hc => ⟨(hnames a x c).2 (.inr hx), hc⟩
  have hd : M.Linked (M.attachDir e q m d) dir (k + 1) d :=
    .child (hmono hq) ((hnames q m d).2 (.inl ⟨rfl, rfl, rfl⟩)) h.isDir
  have hbelow : ∀ c, M.Below e dir d c → ∃ j, M.Linked (M.attachDir e q m d) dir j c := by
    intro c hc
    induction hc with
    | refl => exact ⟨_, hd⟩
    | @tail a c _ hac ih =>
      obtain ⟨j, hj⟩ := ih
      obtain ⟨hdc, x, hx⟩ := hac
      exact ⟨j + 1, .child hj ((hnames a x c).2 (.inr hx)) hdc⟩
  constructor
  · constructor
    · exact h.rootDir
    · rw [hup, if_neg (Ne.symm h.ne_root), h.rootUp]
    · intro a x hx
      rcases (hnames a x _).1 hx with ⟨-, -, hr⟩ | hx
      · exact h.ne_root hr.symm
      · exact h.rootUnnamed a x hx
    · intro a x c hx hc
      rw [hup]
      rcases (hnames a x c).1 hx with ⟨rfl, -, rfl⟩ | hx
      · exact if_pos rfl
      · have hcd : c ≠ d := fun hcd => h.unnamed a x (hcd ▸ hx)
        rw [if_neg hcd]
        exact h.upEntry a x c hx hc
    · intro c a hc ha
      rw [hup] at hc
      split at hc <;> rename_i hcd
      · obtain rfl := Option.some.inj hc
        exact ⟨hcd ▸ h.isDir, .inr ⟨m, (hnames q m c).2 (.inl ⟨rfl, rfl, hcd⟩)⟩⟩
      · obtain ⟨hdc, hor⟩ := h.upNames c a hc ha
        exact ⟨hdc, hor.imp_right fun ⟨x, hx⟩ => ⟨x, (hnames a x c).2 (.inr hx)⟩⟩
    · intro a x x' c hx hx' hc
      rcases (hnames a x c).1 hx with ⟨-, rfl, rfl⟩ | hx <;>
        rcases (hnames a x' _).1 hx' with ⟨-, hx₂, hc₂⟩ | hx'
      · exact hx₂.symm
      · exact absurd hx' (h.unnamed a x')
      · exact absurd (hc₂ ▸ hx) (h.unnamed a x)
      · exact h.nameUnique a x x' c hx hx' hc
    · intro a x c hx hc
      rcases (hnames a x c).1 hx with ⟨-, rfl, -⟩ | hx
      · exact hok
      · exact h.nameOk a x c hx hc
  · intro c hc
    rw [attachDir_self hm]
    split <;> rename_i hcd
    · rw [hcd]
    · exact h.selfEntry c hc hcd
  · intro a x c hx hc
    rcases (hnames a x c).1 hx with ⟨-, -, rfl⟩ | hx
    · exact ⟨_, hd⟩
    · rcases h.linked a x c hx hc with ⟨j, hj⟩ | hb
      · exact ⟨j, hmono hj⟩
      · exact hbelow c hb

/-- An edge to a leaf, fresh or cut, leaves the directories as they are. -/
theorem Marks.Tree.setEdge_leaf (h : M.Tree e dir ok) (hold : ∀ c, e p n = some c → ¬ dir c)
    (hnew : ∀ c, v = some c → ¬ dir c) : M.Tree (setEdge e p n v) dir ok := by
  have hsome : ∀ a x c, dir c → (setEdge e p n v a x = some c ↔ e a x = some c) := by
    intro a x c hc
    by_cases hax : a = p ∧ x = n
    · obtain ⟨rfl, rfl⟩ := hax
      rw [setEdge_self]
      exact ⟨fun hv => absurd hc (hnew c hv), fun he => absurd hc (hold c he)⟩
    · rw [setEdge_of_ne e v hax]
  have hnames : ∀ a x c, dir c → (M.Names (setEdge e p n v) a x c ↔ M.Names e a x c) :=
    fun a x c hc => and_congr_left fun _ => hsome a x c hc
  constructor
  · constructor
    · exact h.rootDir
    · exact (hsome _ _ _ h.rootDir).2 h.rootUp
    · exact fun a x hx => h.rootUnnamed a x ((hnames a x _ h.rootDir).1 hx)
    · intro a x c hx hc
      have hx := (hnames a x c hc).1 hx
      by_cases ha : dir a
      · exact (hsome c M.up a ha).2 (h.upEntry a x c hx hc)
      · obtain ⟨k, hk⟩ := h.linked_holder hx hc
        exact absurd (hk.isDir h.rootDir) ha
    · intro c a hc ha
      obtain ⟨hdc, hor⟩ := h.upNames c a ((hsome c M.up a ha).1 hc) ha
      exact ⟨hdc, hor.imp_right fun ⟨x, hx⟩ => ⟨x, (hnames a x c hdc).2 hx⟩⟩
    · exact fun a x x' c hx hx' hc =>
        h.nameUnique a x x' c ((hnames a x c hc).1 hx) ((hnames a x' c hc).1 hx') hc
    · exact fun a x c hx hc => h.nameOk a x c ((hnames a x c hc).1 hx) hc
  · exact fun d hd => (hsome d M.self d hd).2 (h.selfEntry d hd)
  · intro a x c hx hc
    obtain ⟨k, hk⟩ := h.linked a x c ((hnames a x c hc).1 hx) hc
    exact ⟨k, hk.mono fun b y c' hy hc' => ⟨(hnames b y c' hc').2 hy, hc'⟩⟩

end edges

end V86.NamedTree
