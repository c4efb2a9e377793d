import V86.Fs.Links

/-!
# Link counts and the directory tree

A filesystem is `Consistent` when its directories are a tree (`V86.NamedTree.Marks.Tree`), its
entries refer to inodes that exist and every link count is the number of entries that refer to the
inode.
-/

namespace V86.Fs

open NamedTree

/-- A name that `SearchPath` can find: a component of a path. -/
def Plain (n : Name) : Prop := n ≠ [] ∧ '/' ∉ n

namespace FS

variable {s s' : FS}

structure Consistent (s : FS) : Prop where
  tree : marks.Tree s.search (s.isDirectory · = true) Plain
  targets : ∀ p n c, s.search p n = some c → c < s.inodes.length
  counts : ∀ q, s.balance q = 0

variable {e : Nat → Name → Option Nat} {p size d : Nat} {n : Name}

/-- Links that are only moved around keep the counts. -/
theorem Consistent.of_rewired (h : s.Consistent) (hr : Rewired s s' e)
    (ht : marks.Tree e (s.isDirectory · = true) Plain)
    (htargets : ∀ p n c, e p n = some c → c < s.inodes.length) : s'.Consistent where
  tree := by rw [hr.search, hr.isDirectory]; exact ht
  targets := by rw [hr.search, hr.length]; exact htargets
  counts q := by rw [hr.balance, h.counts]

/-- Setting an edge to an inode that exists, or cutting one, keeps the targets. -/
theorem targets_setEdge {v : Option Nat} (h : ∀ p n c, e p n = some c → c < size)
    (hv : ∀ c, v = some c → c < size) : ∀ q m c, setEdge e p n v q m = some c → c < size := by
  intro q m c hc
  by_cases hq : q = p ∧ m = n
  · obtain ⟨rfl, rfl⟩ := hq
    exact hv c (by rwa [setEdge_self] at hc)
  · exact h q m c (by rwa [setEdge_of_ne _ _ hq] at hc)

theorem targets_attachDir (h : ∀ p n c, e p n = some c → c < size) (hp : p < size) (hd : d < size) :
    ∀ q m c, marks.attachDir e p n d q m = some c → c < size := by
  refine targets_setEdge (targets_setEdge (targets_setEdge h ?_) ?_) ?_ <;>
    rintro c hc <;> obtain rfl := Option.some.inj hc <;> assumption

theorem targets_detachDir (h : ∀ p n c, e p n = some c → c < size) :
    ∀ q m c, marks.detachDir e p n d q m = some c → c < size :=
  targets_setEdge (targets_setEdge h nofun) nofun

/-- An empty directory names nothing. -/
theorem names_of_isEmpty (hd : s.isEmpty d = true) : ∀ n c, ¬ marks.Names s.search d n c := by
  rintro n c ⟨hn, hself, hup⟩
  obtain ⟨x, hx, hg⟩ := exists_inode hn
  rw [isEmpty, hx] at hd
  have hk : n ∈ x.direntries.keys :=
    List.mem_map_of_mem (f := Prod.fst) (x.direntries.get?_eq_some.1 hg)
  have := of_decide_eq_true (List.all_eq_true.1 hd n hk)
  exact this.elim hself hup

/-- What `Unlink` has removed: a file, or a directory that named nothing. -/
structure Removed (s s' : FS) (p : Nat) (n : Name) (c : Nat) : Prop where
  proper : n ≠ dot ∧ n ≠ dotdot
  found : s.search p n = some c
  rewired : Rewired s s' s'.search
  edges : s.isDirectory c = false ∧ s'.search = setEdge s.search p n none ∨
    s.isDirectory c = true ∧ (∀ m b, ¬ marks.Names s.search c m b) ∧
      s'.search = marks.detachDir s.search p n c

/-- A call has failed: it threw, or gave a negative number. -/
def Failed : Outcome → Prop
  | .value ret => ret < 0
  | .undefined => False
  | .threw => True

/-- `Unlink` removes what it found, or fails and leaves the filesystem alone. -/
theorem Consistent.unlink (h : s.Consistent) (p : Nat) (n : Name) :
    (∃ outcome, s.unlink p n = (s, outcome) ∧ Failed outcome) ∨
      ∃ s' c, s.unlink p n = (s', .value 0) ∧ Removed s s' p n c := by
  rw [FS.unlink]
  by_cases hn : n = dot ∨ n = dotdot
  · exact .inl ⟨_, if_pos hn, show -EPERM < 0 by decide⟩
  rw [if_neg hn]
  rw [not_or] at hn
  cases hc : s.search p n with
  | none => exact .inl ⟨_, rfl, trivial⟩
  | some c =>
    have hlt := h.targets p n c hc
    dsimp only
    rw [List.getElem?_eq_getElem hlt]
    dsimp only
    by_cases hfull : s.isDirectory c = true ∧ ¬ s.isEmpty c = true
    · exact .inl ⟨_, if_pos hfull, show -ENOTEMPTY < 0 by decide⟩
    rw [if_neg hfull]
    have hstatus := rewired_modifyInode (s.unlinkFromDir p n) c
      (f := fun inode => if inode.nlinks = 0 then { inode with status := .unlinked } else inode)
      (fun x => by split <;> rfl) (fun x => by split <;> rfl) fun x => by split <;> rfl
    have hof : ∀ {e}, Rewired s (s.unlinkFromDir p n) e →
        Rewired s ((s.unlinkFromDir p n).modifyInode c _) e :=
      fun hr => hr.search ▸ hr.trans hstatus
    refine .inr ⟨_, c, rfl, ?_⟩
    cases hd : s.isDirectory c with
    | false =>
      have hr := hof (unlinkFromDir_leaf hlt hd hc)
      exact ⟨hn, hc, hr.search.symm ▸ hr, .inl ⟨hd, hr.search⟩⟩
    | true =>
      have hempty : s.isEmpty c = true := not_not.1 fun he => hfull ⟨hd, he⟩
      have hr := hof (unlinkFromDir_dir hd hc hn.2 (h.tree.upEntry p n c ⟨hc, hn⟩ hd))
      exact ⟨hn, hc, hr.search.symm ▸ hr, .inr ⟨hd, names_of_isEmpty hempty, hr.search⟩⟩

namespace Removed

variable {p c : Nat} {n : Name}

variable {a b : Nat} {x : Name}

/-- No name comes up. -/
theorem names (h : Removed s s' p n c)
    (hx : marks.Names s'.search a x b) : marks.Names s.search a x b := by
  rcases h.edges with ⟨-, he⟩ | ⟨-, -, he⟩
  · rw [he, names_setEdge_none] at hx
    exact hx.2
  · rw [he, Marks.detachDir, names_setEdge_mark (.inr rfl), names_setEdge_none] at hx
    exact hx.2

/-- The name is free. -/
theorem free (h : Removed s s' p n c) : s'.search p n = none := by
  rcases h.edges with ⟨-, he⟩ | ⟨-, -, he⟩
  · rw [he, setEdge_self]
  · rw [he, Marks.detachDir]
    by_cases hx : p = c ∧ n = marks.up
    · rw [← hx.1, ← hx.2, setEdge_self]
    · rw [setEdge_of_ne _ _ hx, setEdge_self]

/-- Every other entry stands, but for the way back of a directory that was removed. -/
theorem kept (h : Removed s s' p n c) (hx : s.search a x = some b) (hne : ¬ (a = p ∧ x = n))
    (hup : ¬ (s.isDirectory c = true ∧ a = c ∧ x = dotdot)) : s'.search a x = some b := by
  rcases h.edges with ⟨-, he⟩ | ⟨hd, -, he⟩
  · rw [he, setEdge_of_ne _ _ hne, hx]
  · have hne' : ¬ (a = c ∧ x = marks.up) := fun h => hup ⟨hd, h⟩
    rw [he, Marks.detachDir, setEdge_of_ne _ _ hne', setEdge_of_ne _ _ hne, hx]

/-- What is linked stays linked, but for what was removed. -/
theorem linked (h : Removed s s' p n c) {k q : Nat} (hq : q ≠ c)
    (hk : marks.Linked s.search (s.isDirectory · = true) k q) :
    marks.Linked s'.search (s'.isDirectory · = true) k q := by
  rw [h.rewired.isDirectory]
  rcases h.edges with ⟨hd, he⟩ | ⟨hd, hempty, he⟩
  · refine hk.mono fun a x b hx hb => ⟨⟨h.kept hx.1 ?_ ?_, hx.2⟩, hb⟩
    · rintro ⟨rfl, rfl⟩
      have hcb : some c = some b := h.found.symm.trans hx.1
      rw [← Option.some.inj hcb, hd] at hb
      cases hb
    · simp [hd]
  · rw [he]
    exact linked_detachDir ⟨h.found, h.proper⟩ hk fun hb => hq (eq_of_below hempty hb)

/-- Nothing comes to be below a directory. -/
theorem below (h : Removed s s' p n c) (hb : marks.Below s'.search (s'.isDirectory · = true) a b) :
    marks.Below s.search (s.isDirectory · = true) a b := by
  rw [h.rewired.isDirectory] at hb
  refine Relation.ReflTransGen.mono ?_ _ _ hb
  rintro x y ⟨hy, m, hm⟩
  exact ⟨hy, m, h.names hm⟩

theorem consistent (h : Removed s s' p n c) (hs : s.Consistent) : s'.Consistent := by
  rcases h.edges with ⟨hd, he⟩ | ⟨hd, hempty, he⟩
  · refine hs.of_rewired h.rewired ?_ ?_
    · rw [he]
      refine hs.tree.setEdge_leaf (fun b hb => ?_) nofun
      rw [h.found] at hb
      rw [← Option.some.inj hb, hd]
      exact nofun
    · rw [he]
      exact targets_setEdge hs.targets nofun
  · refine hs.of_rewired h.rewired ?_ ?_
    · rw [he]
      refine (hs.tree.detach ⟨h.found, h.proper⟩ hd).prune ?_ ?_
      · exact (detachDir_self h.proper).trans (hs.tree.selfEntry c hd)
      · rw [← he]
        exact fun m b hm => hempty m b (h.names hm)
    · rw [he]
      exact targets_detachDir hs.targets

end Removed

/-- `Unlink` keeps a filesystem consistent. -/
theorem Consistent.unlink_fst (h : s.Consistent) (p : Nat) (n : Name) :
    (s.unlink p n).1.Consistent := by
  rcases h.unlink p n with ⟨_, he, -⟩ | ⟨s', c, he, hr⟩
  · rw [he]
    exact h
  · rw [he]
    exact hr.consistent h

theorem Consistent.unlinkAll : ∀ {s : FS}, s.Consistent → ∀ list, (s.unlinkAll list).1.Consistent
  | _, h, [] => h
  | s, h, (p, n) :: rest => by
    have hu := h.unlink_fst p n
    rw [FS.unlinkAll]
    split
    · rename_i he
      rw [he] at hu
      exact hu
    · rename_i he
      rw [he] at hu
      exact Consistent.unlinkAll hu rest

theorem Consistent.recursiveDelete (h : s.Consistent) (path : Name) :
    (s.recursiveDelete path).1.Consistent := by
  rw [FS.recursiveDelete]
  repeat' split
  · exact h
  · exact h
  · exact h
  · exact h.unlinkAll _

theorem Consistent.unlinkFound (h : s.Consistent) (ids : PathInfo) :
    (s.unlinkFound ids).1.Consistent := by
  rw [FS.unlinkFound]
  split
  · rename_i p n _ _
    have hu := h.unlink_fst p n
    split <;> rename_i he <;> rw [he] at hu <;> exact hu
  · exact h

theorem Consistent.deleteNode (h : s.Consistent) (path : Name) :
    (s.deleteNode path).1.Consistent := by
  have hr := h.recursiveDelete path
  rw [FS.deleteNode]
  repeat' split
  · exact h
  · exact h
  · exact h
  · exact h.unlinkFound _
  · rename_i he
    rw [he] at hr
    exact hr
  · rename_i he
    rw [he] at hr
    exact hr.unlinkFound _
  · exact h

/-! ### Linking -/

/-- The root, or a directory that some entry names. -/
def Stands (s : FS) (p : Nat) : Prop :=
  p = 0 ∨ s.isDirectory p = true ∧ ∃ q n, marks.Names s.search q n p

theorem Consistent.linked (h : s.Consistent) {p : Nat} (hp : s.Stands p) :
    ∃ k, marks.Linked s.search (s.isDirectory · = true) k p := by
  rcases hp with rfl | ⟨hd, q, n, hn⟩
  · exact ⟨0, .root⟩
  · exact h.tree.linked q n p hn hd

/-- A name that is free in a linked directory is neither `.` nor `..`. -/
theorem proper_of_free {dir : Nat → Prop} {e : Nat → Name → Option Nat} (ht : marks.Tree e dir Plain)
    {k p : Nat} {n : Name} (hp : marks.Linked e dir k p) (hn : e p n = none) :
    n ≠ dot ∧ n ≠ dotdot := by
  constructor
  · rintro rfl
    have := ht.selfEntry p (hp.isDir ht.rootDir)
    rw [show marks.self = dot from rfl, hn] at this
    cases this
  · rintro rfl
    obtain ⟨q, hq⟩ := ht.toUpward.up_of_linked hp
    rw [show marks.up = dotdot from rfl, hn] at hq
    cases hq

/-- A file is linked under a free name. -/
theorem Consistent.link_leaf (h : s.Consistent) {p idx : Nat} {n : Name}
    (hp : p < s.inodes.length) (hi : idx < s.inodes.length) (hd : s.isDirectory idx = false)
    (hn : s.search p n = none) : (s.linkUnderDir p idx n).Consistent := by
  refine h.of_rewired (linkUnderDir_leaf hp hi hd hn) ?_ ?_
  · refine h.tree.setEdge_leaf (fun c hc => ?_) fun c hc => ?_
    · rw [hn] at hc
      cases hc
    · rw [← Option.some.inj hc, hd]
      exact nofun
  · exact targets_setEdge h.targets fun c hc => Option.some.inj hc ▸ hi

/-- The filesystem with an inode pushed that is not linked yet. -/
def push (s : FS) (x : Inode) : FS := { s with inodes := s.inodes ++ [x] }

section push

variable {x : Inode}

theorem search_push (hx : x.direntries = .empty) : (s.push x).search = s.search := by
  funext p n
  rw [search, search, push, List.getElem?_append]
  by_cases hp : p < s.inodes.length
  · rw [if_pos hp]
  · rw [if_neg hp, List.getElem?_eq_none (Nat.le_of_not_lt hp), List.getElem?_singleton]
    split <;> simp [hx]

theorem isDirectory_push (p : Nat) : (s.push x).isDirectory p =
      if p = s.inodes.length then decide (x.mode &&& S_IFMT = S_IFDIR) else s.isDirectory p := by
  rw [isDirectory, isDirectory, push, List.getElem?_append]
  by_cases hp : p < s.inodes.length
  · rw [if_pos hp, if_neg (Nat.ne_of_lt hp)]
  · rw [if_neg hp, List.getElem?_eq_none (Nat.le_of_not_lt hp)]
    by_cases he : p = s.inodes.length
    · simp [he]
    · rw [if_neg he, List.getElem?_eq_none]
      rw [List.length_singleton]
      omega

theorem balance_push (hx : x.direntries = .empty) (hl : x.nlinks = 0) (h : s.Consistent) (q : Nat) :
    (s.push x).balance q = 0 := by
  have hr : (s.push x).references q = s.references q := by
    simp [references, push, hx]
  have hn : (s.push x).nlinks q = s.nlinks q := by
    rw [nlinks, nlinks, push, List.getElem?_append]
    by_cases hq : q < s.inodes.length
    · rw [if_pos hq]
    · rw [if_neg hq, List.getElem?_eq_none (Nat.le_of_not_lt hq), List.getElem?_singleton]
      split <;> simp [hl]
  rw [balance, hr, hn]
  exact h.counts q

theorem targets_push (hx : x.direntries = .empty) (h : s.Consistent) :
    ∀ p n c, (s.push x).search p n = some c → c < (s.push x).inodes.length := by
  intro p n c hc
  rw [search_push hx] at hc
  have := h.targets p n c hc
  rw [push, List.length_append]
  omega

/-- A new file. -/
theorem Consistent.push_leaf (h : s.Consistent) (hx : x.direntries = .empty) (hl : x.nlinks = 0)
    (hm : x.mode &&& S_IFMT ≠ S_IFDIR) : (s.push x).Consistent where
  tree := by
    have hd : ∀ p, (s.push x).isDirectory p = true ↔ s.isDirectory p = true := by
      intro p
      rw [isDirectory_push]
      split <;> rename_i hp
      · simp only [hm, decide_false, Bool.false_eq_true, false_iff]
        exact fun hd => Nat.lt_irrefl _ (hp ▸ lt_of_isDirectory hd)
      · rfl
    rw [search_push hx, funext fun p => propext (hd p)]
    exact h.tree
  targets := targets_push hx h
  counts := balance_push hx hl h

/-- A new directory under a linked one. -/
theorem Consistent.push_dir (h : s.Consistent) (hx : x.direntries = .empty) (hl : x.nlinks = 0)
    (hm : x.mode &&& S_IFMT = S_IFDIR) {p : Nat} {n : Name} (hp : s.Stands p) (hok : Plain n)
    (hn : s.search p n = none) : ((s.push x).linkUnderDir p s.inodes.length n).Consistent := by
  obtain ⟨k, hk⟩ := h.linked hp
  have hlt : p < s.inodes.length := lt_of_isDirectory (hk.isDir h.tree.rootDir)
  have hproper := proper_of_free h.tree hk hn
  have hd : ∀ q, ((s.push x).isDirectory q = true) = (s.isDirectory q = true ∨ q = s.inodes.length) := by
    intro q
    rw [isDirectory_push]
    by_cases hq : q = s.inodes.length <;> simp [hq, hm]
  have hout : ∀ m, s.search s.inodes.length m = none := fun m => by
    rw [search, List.getElem?_eq_none le_rfl]
    rfl
  have hnew : (s.push x).isDirectory s.inodes.length = true := by rw [hd]; exact .inr rfl
  have hoff : marks.Off (s.push x).search ((s.push x).isDirectory · = true) Plain s.inodes.length := by
    rw [search_push hx, funext hd]
    refine h.tree.fresh ?_ (fun q m hq => Nat.lt_irrefl _ (h.targets q m _ hq)) hout
    exact fun h0 => by
      have : 0 < s.inodes.length := lt_of_isDirectory h.tree.rootDir
      exact Nat.lt_irrefl _ (h0 ▸ this)
  have hk' : marks.Linked (s.push x).search ((s.push x).isDirectory · = true) k p := by
    rw [search_push hx, funext hd]
    exact hk.mono fun a y b hy hb => ⟨hy, .inl hb⟩
  have hlen : (s.push x).inodes.length = s.inodes.length + 1 := by
    rw [push, List.length_append, List.length_singleton]
  have hfree : (s.push x).search p n = none := by rw [search_push hx, hn]
  have hr := linkUnderDir_dir (s := s.push x) (p := p) (n := n) (by omega) hnew hfree hproper
    (.inl (by rw [search_push hx, hout])) (by rw [search_push hx, hout])
  constructor
  · rw [hr.search, hr.isDirectory]
    exact hoff.attach hk' hproper hfree hok
  · rw [hr.search, hr.length]
    exact targets_attachDir (targets_push hx h) (by omega) (by omega)
  · intro q
    rw [hr.balance]
    exact balance_push hx hl h q

end push

section move

variable {olddirid oldid newdirid : Nat} {oldname newname : Name}

/-- A file is moved to a free name. -/
theorem Consistent.move_leaf (h : s.Consistent) (hold : s.search olddirid oldname = some oldid)
    (hd : s.isDirectory oldid = false) (hnew : newdirid < s.inodes.length)
    (hfree : s.search newdirid newname = none) :
    ((s.unlinkFromDir olddirid oldname).linkUnderDir newdirid oldid newname).Consistent := by
  have hi := h.targets _ _ _ hold
  have hr := unlinkFromDir_leaf hi hd hold
  have hs : (s.unlinkFromDir olddirid oldname).Consistent := by
    refine h.of_rewired hr (h.tree.setEdge_leaf (fun c hc => ?_) nofun)
      (targets_setEdge h.targets nofun)
    rw [hold] at hc
    rw [← Option.some.inj hc, hd]
    exact nofun
  refine hs.link_leaf (by rwa [hr.length]) (by rwa [hr.length]) (by rwa [hr.isDirectory]) ?_
  rw [hr.search]
  by_cases hn : newdirid = olddirid ∧ newname = oldname
  · rw [hn.1, hn.2, setEdge_self]
  · rw [setEdge_of_ne _ _ hn, hfree]

/-- A directory is moved to a free name under a linked directory that is not below it. -/
theorem Consistent.move_dir (h : s.Consistent) (hold : s.search olddirid oldname = some oldid)
    (hd : s.isDirectory oldid = true) (hproper : oldname ≠ dot ∧ oldname ≠ dotdot)
    (hfree : s.search newdirid newname = none) (hok : Plain newname) {k : Nat}
    (hnew : marks.Linked s.search (s.isDirectory · = true) k newdirid)
    (hbelow : ¬ marks.Below s.search (s.isDirectory · = true) oldid newdirid) :
    ((s.unlinkFromDir olddirid oldname).linkUnderDir newdirid oldid newname).Consistent := by
  have hname : marks.Names s.search olddirid oldname oldid := ⟨hold, hproper⟩
  have hproper' := proper_of_free h.tree hnew hfree
  have hlt : newdirid < s.inodes.length := lt_of_isDirectory (hnew.isDir h.tree.rootDir)
  have hr := unlinkFromDir_dir hd hold hproper.2 (h.tree.upEntry _ _ _ hname hd)
  obtain ⟨s₁, hs₁⟩ : ∃ s₁, s₁ = s.unlinkFromDir olddirid oldname := ⟨_, rfl⟩
  rw [← hs₁] at hr ⊢
  have hoff : marks.Off s₁.search (s₁.isDirectory · = true) Plain oldid := by
    rw [hr.search, hr.isDirectory]
    exact h.tree.detach hname hd
  have hk : marks.Linked s₁.search (s₁.isDirectory · = true) k newdirid := by
    rw [hr.search, hr.isDirectory]
    exact linked_detachDir hname hnew hbelow
  have hfree₁ : s₁.search newdirid newname = none := by
    rw [hr.search, Marks.detachDir]
    by_cases h1 : newdirid = oldid ∧ newname = marks.up
    · rw [h1.1, h1.2, setEdge_self]
    · rw [setEdge_of_ne _ _ h1]
      by_cases h2 : newdirid = olddirid ∧ newname = oldname
      · rw [h2.1, h2.2, setEdge_self]
      · rw [setEdge_of_ne _ _ h2, hfree]
  have hself : s₁.search oldid dot = some oldid := by
    rw [hr.search]
    exact (detachDir_self hproper).trans (h.tree.selfEntry oldid hd)
  have hi : oldid < s.inodes.length := lt_of_isDirectory hd
  have hr₁ := linkUnderDir_dir (s := s₁) (p := newdirid) (n := newname)
    (by rwa [hr.length]) hoff.isDir hfree₁ hproper' (.inr hself) hoff.upGone
  refine h.of_rewired (hr.trans hr₁) ?_ ?_
  · have := hoff.attach hk hproper' hfree₁ hok
    rwa [hr.isDirectory] at this
  · refine targets_attachDir ?_ hlt hi
    rw [hr.search]
    exact targets_detachDir h.targets

end move

/-- What `Rename` of a directory needs. -/
structure Movable (s : FS) (oldid : Nat) (oldname : Name) (newdirid : Nat) (newname : Name) :
    Prop where
  proper : oldname ≠ dot ∧ oldname ≠ dotdot
  plain : Plain newname
  stands : s.Stands newdirid
  notBelow : ¬ marks.Below s.search (s.isDirectory · = true) oldid newdirid

variable {oldid newdirid c olddirid : Nat} {oldname newname : Name}

/-- What is to be moved is still there after the target was removed, and may still be moved. -/
theorem Movable.of_removed (h : s.Consistent) (hr : Removed s s' newdirid newname c)
    (hm : s.Movable oldid oldname newdirid newname) :
    ∃ k, marks.Linked s'.search (s'.isDirectory · = true) k newdirid := by
  obtain ⟨k, hk⟩ := h.linked hm.stands
  refine ⟨k, hr.linked (fun hc => ?_) hk⟩
  have hn : marks.Names s.search newdirid newname newdirid := ⟨hc ▸ hr.found, hr.proper⟩
  obtain ⟨j, hj, hk'⟩ := h.tree.toUpward.linked_of_names hk hn
  have := h.tree.toUpward.depth_unique hk hk'
  omega

theorem Consistent.found_of_removed (h : s.Consistent) (hr : Removed s s' newdirid newname c)
    (hold : s.search olddirid oldname = some oldid)
    (hsame : ¬ (olddirid = newdirid ∧ oldname = newname))
    (hm : s.isDirectory oldid = true → oldname ≠ dotdot) :
    s'.search olddirid oldname = some oldid := by
  refine hr.kept hold hsame ?_
  rintro ⟨hd, rfl, rfl⟩
  -- the way back from what was removed leads to a directory
  have hn : marks.Names s.search newdirid newname olddirid := ⟨hr.found, hr.proper⟩
  have hup := h.tree.upEntry _ _ _ hn hd
  obtain rfl : oldid = newdirid := Option.some.inj (hold.symm.trans hup)
  obtain ⟨k, hk⟩ := h.tree.linked_holder hn hd
  exact hm (hk.isDir h.tree.rootDir) rfl

/-- The two steps of a move, and the new version of what was moved. -/
theorem Consistent.move (h : s.Consistent) (hold : s.search olddirid oldname = some oldid)
    (hnew : newdirid < s.inodes.length) (hfree : s.search newdirid newname = none)
    (hm : s.isDirectory oldid = true → (oldname ≠ dot ∧ oldname ≠ dotdot) ∧ Plain newname ∧
      (∃ k, marks.Linked s.search (s.isDirectory · = true) k newdirid) ∧
      ¬ marks.Below s.search (s.isDirectory · = true) oldid newdirid) :
    (((s.unlinkFromDir olddirid oldname).linkUnderDir newdirid oldid newname).modifyInode oldid
      fun inode => { inode with qidVersion := inode.qidVersion + 1 }).Consistent := by
  have hc : ((s.unlinkFromDir olddirid oldname).linkUnderDir newdirid oldid newname).Consistent := by
    cases hd : s.isDirectory oldid with
    | false => exact h.move_leaf hold hd hnew hfree
    | true =>
      obtain ⟨hproper, hok, ⟨k, hk⟩, hb⟩ := hm hd
      exact h.move_dir hold hd hproper hfree hok hk hb
  exact hc.of_rewired
    (rewired_modifyInode _ oldid (fun _ => rfl) (fun _ => rfl) fun _ => rfl) hc.tree hc.targets

theorem Consistent.rename (h : s.Consistent) (olddirid : Nat) (oldname : Name) (newdirid : Nat)
    (newname : Name) (hm : ∀ d, s.search olddirid oldname = some d → s.isDirectory d = true →
      s.Movable d oldname newdirid newname) :
    (s.rename olddirid oldname newdirid newname).1.Consistent := by
  rw [FS.rename]
  split
  · exact h
  rename_i hsame
  split
  · exact h
  rename_i olddir holddir
  split
  · exact h
  rename_i oldid hentry
  have hold : s.search olddirid oldname = some oldid := by rw [search, holddir]; exact hentry
  split
  · rename_i newdir _ hnewdir
    have hnew : newdirid < s.inodes.length := (List.getElem?_eq_some_iff.1 hnewdir).1
    have hs : s.search newdirid newname = newdir.direntries.get? newname := by
      rw [search, hnewdir, Option.bind_some]
    by_cases htaken : (newdir.direntries.get? newname).isSome
    · rw [if_pos htaken]
      rcases h.unlink newdirid newname with ⟨outcome, he, hf⟩ | ⟨s', c, he, hr⟩
      · -- the target stays, and nothing is moved
        rw [he]
        cases outcome with
        | value ret =>
          have hneg : ret < 0 := hf
          dsimp only
          rw [if_pos hneg]
          exact h
        | undefined => exact h
        | threw => exact h
      · rw [he]
        dsimp only
        rw [if_neg (by decide)]
        refine (hr.consistent h).move (h.found_of_removed hr hold hsame fun hd =>
          (hm oldid hold hd).proper.2) (by rwa [hr.rewired.length]) hr.free fun hd => ?_
        rw [hr.rewired.isDirectory] at hd
        have hmov := hm oldid hold hd
        exact ⟨hmov.proper, hmov.plain, hmov.of_removed h hr, fun hb => hmov.notBelow (hr.below hb)⟩
    · rw [if_neg htaken]
      dsimp only
      rw [if_neg (by decide)]
      refine h.move hold hnew ?_ fun hd => ?_
      · rw [hs]
        exact Option.not_isSome_iff_eq_none.1 htaken
      · have hmov := hm oldid hold hd
        exact ⟨hmov.proper, hmov.plain, h.linked hmov.stands, hmov.notBelow⟩
  · exact h

end FS

end V86.Fs
