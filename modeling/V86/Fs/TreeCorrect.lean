import V86.Fs.Paths
import V86.Lib.Runs

/-!
# Runs of calls on a filesystem

The calls that create, link, unlink, rename and delete, in any order. A call may not reuse a taken
name, but where `Rename` removes what has it, and `Rename` may not move a directory below itself.
That is not enough: `Rename` takes `.` and `..` for names of the directories they lead to, and a
directory may be put under one that was removed, or under a name that is no component of a path.
Runs in which none of these happens keep every filesystem consistent (`tree_consistent`).
-/

namespace V86.Fs

open NamedTree

/-- A call on a filesystem. -/
inductive Call where
  | createDirectory (name : Name) (parentid : Option Nat)
  | createFile (filename : Name) (parentid : Nat)
  | createNode (filename : Name) (parentid major minor : Nat)
  | createSymlink (filename : Name) (parentid : Nat) (symlink : Name)
  | link (parentid targetid : Nat) (name : Name)
  | unlink (parentid : Nat) (name : Name)
  | rename (olddirid : Nat) (oldname : Name) (newdirid : Nat) (newname : Name)
  | recursiveDelete (path : Name)
  | deleteNode (path : Name)

namespace Call

/-- The filesystem after a call, and what the call gives. -/
def apply (s : FS) : Call → FS × Outcome
  | createDirectory name parentid => s.createDirectory name parentid
  | createFile filename parentid => s.createFile filename parentid
  | createNode filename parentid major minor => s.createNode filename parentid major minor
  | createSymlink filename parentid symlink => s.createSymlink filename parentid symlink
  | link parentid targetid name => s.link parentid targetid name
  | unlink parentid name => s.unlink parentid name
  | rename olddirid oldname newdirid newname => s.rename olddirid oldname newdirid newname
  | recursiveDelete path => s.recursiveDelete path
  | deleteNode path => s.deleteNode path

/-- The filesystem after a call. -/
def step (s : FS) (c : Call) : FS := (c.apply s).1

/-- No taken name is reused but where `Rename` removes what has it, and no directory is moved below
itself. -/
def Allowed (s : FS) : Call → Prop
  | createDirectory name (some parentid) => s.search parentid name = none
  | createFile name parentid | createNode name parentid _ _ | createSymlink name parentid _
  | link parentid _ name => s.search parentid name = none
  | rename olddirid oldname newdirid _ => ∀ d, s.search olddirid oldname = some d →
      s.isDirectory d = true → ¬ marks.Below s.search (s.isDirectory · = true) d newdirid
  | _ => True

/-- A directory is named, anew or again, only under a linked directory and by a component of a path,
and what is renamed is not `.` or `..` of a directory. -/
def Placed (s : FS) : Call → Prop
  | createDirectory name (some parentid) =>
    parentid < s.inodes.length → s.Stands parentid ∧ Plain name
  | rename olddirid oldname newdirid newname => ¬ (olddirid = newdirid ∧ oldname = newname) →
      ∀ d, s.search olddirid oldname = some d → s.isDirectory d = true →
        (oldname ≠ dot ∧ oldname ≠ dotdot) ∧ s.Stands newdirid ∧ Plain newname
  | _ => True

/-- A call that gives a negative number leaves all inodes unchanged. -/
def FailsUnchanged (s : FS) (c : Call) : Prop :=
  ∀ ret, (c.apply s).2 = .value ret → ret < 0 → (c.apply s).1.inodes = s.inodes

end Call

namespace FS

variable {s : FS}

/-- Link counts are the numbers of entries, and the directories are a tree that paths lead through:
each directory that is named is named once, `..` in it leads to where its name is, and from the
linked directories `..` leads to the root and a full path leads back. -/
structure WellLinked (s : FS) : Prop where
  counts : ∀ idx < s.inodes.length, s.nlinks idx = s.references idx
  named : ∀ p n d, s.isDirectory d = true → marks.Names s.search p n d →
    (∀ q m, marks.Names s.search q m d → q = p ∧ m = n) ∧ s.search d dotdot = some p
  reaches : ∀ d, s.Stands d →
    Relation.ReflTransGen (fun a b => s.search a dotdot = some b) d 0
  found : ∀ d, s.Stands d → ∃ path ids,
    s.getFullPath d = some path ∧ s.searchPath path = some ids ∧ ids.id = some d

theorem Consistent.wellLinked (h : s.Consistent) : s.WellLinked where
  counts idx _ := by
    have := h.counts idx
    rw [balance] at this
    omega
  named p n d hd hn := ⟨fun _ _ hm => h.tree.toUpward.name_unique hm hn hd,
    h.tree.upEntry p n d hn hd⟩
  reaches _ hd := h.reaches_root hd
  found _ hd := h.searchPath_getFullPath hd

/-! ### Creating -/

/-- The counter of inode numbers is no part of the tree. -/
theorem Consistent.createInode (h : s.Consistent) : s.createInode.1.Consistent :=
  ⟨h.tree, h.targets, h.counts⟩

variable {name : Name} {parentid : Nat}

theorem Consistent.create (h : s.Consistent) {fill : Inode → Inode → Inode}
    (hn : s.search parentid name = none)
    (he : ∀ parent x, (fill parent x).direntries = x.direntries)
    (hl : ∀ parent x, (fill parent x).nlinks = x.nlinks)
    (hm : ∀ parent x, (fill parent x).mode &&& S_IFMT ≠ S_IFDIR) :
    (s.create fill name parentid).1.Consistent := by
  rw [FS.create]
  split
  · exact h
  rename_i parent hp
  have hlt := (List.getElem?_eq_some_iff.1 hp).1
  obtain ⟨x, hx⟩ : ∃ x : Inode, x = { fill parent { s.createInode.2 with
    uid := parent.uid, gid := parent.gid } with fid := s.inodes.length } := ⟨_, rfl⟩
  have hxe : x.direntries = .empty := by rw [hx]; exact he parent _
  have hpush := h.createInode.push_leaf (x := x) hxe (by rw [hx]; exact hl parent _)
    (by rw [hx]; exact hm parent _)
  have hlen : (s.createInode.1.push x).inodes.length = s.inodes.length + 1 := by
    rw [push, List.length_append, List.length_singleton]
    rfl
  have hleaf : (s.createInode.1.push x).isDirectory s.inodes.length = false := by
    rw [isDirectory_push, hx]
    exact (if_pos rfl).trans (decide_eq_false (hm parent _))
  have := hpush.link_leaf (p := parentid) (n := name) (by omega) (by omega)
    hleaf (by rw [search_push hxe]; exact hn)
  rw [hx] at this
  exact this

theorem Consistent.createDirectory (h : s.Consistent) {parentid : Option Nat}
    (hn : ∀ p, parentid = some p → s.search p name = none ∧
      (p < s.inodes.length → s.Stands p ∧ Plain name)) :
    (s.createDirectory name parentid).1.Consistent := by
  have hlen : s.inodes.length ≠ 0 := by
    have : 0 < s.inodes.length := lt_of_isDirectory h.tree.rootDir
    omega
  cases parentid with
  | none =>
    have hs : (s.createDirectory name none).1 = s.createInode.1 := if_neg hlen
    rw [hs]
    exact h.createInode
  | some p =>
    obtain ⟨hfree, hplaced⟩ := hn p rfl
    cases hp : s.inodes[p]? with
    | none =>
      have hs : (s.createDirectory name (some p)).1 = s := by
        simp only [FS.createDirectory, Option.bind_some, hp]
      rw [hs]
      exact h
    | some parent =>
      simp only [FS.createDirectory, Option.bind_some, hp]
      have hlt := (List.getElem?_eq_some_iff.1 hp).1
      obtain ⟨hstands, hok⟩ := hplaced hlt
      have hm : ((parent.mode &&& 0x1FF) ||| S_IFDIR) &&& S_IFMT = S_IFDIR := by
        rw [Nat.and_or_distrib_right, Nat.and_assoc]
        simp [S_IFDIR, S_IFMT]
      exact h.createInode.push_dir (x := { s.createInode.2 with
        fid := s.inodes.length, uid := parent.uid, gid := parent.gid
        mode := (parent.mode &&& 0x1FF) ||| S_IFDIR, qidType := S_IFDIR >>> 8 }) rfl rfl hm hstands
        hok hfree

theorem Consistent.link (h : s.Consistent) {targetid : Nat}
    (hn : s.search parentid name = none) : (s.link parentid targetid name).1.Consistent := by
  rw [FS.link]
  split
  · exact h
  rename_i x hx
  split
  · exact h
  rename_i hd
  split
  · exact h
  rename_i parent hp
  exact h.link_leaf (List.getElem?_eq_some_iff.1 hp).1 (List.getElem?_eq_some_iff.1 hx).1
    (by rwa [Bool.not_eq_true] at hd) hn

end FS

theorem fileMode_ne (mode : Nat) : ((mode &&& 0x1B6) ||| S_IFREG) &&& S_IFMT ≠ S_IFDIR := by
  rw [Nat.and_or_distrib_right, Nat.and_assoc]
  simp [S_IFREG, S_IFMT, S_IFDIR]

theorem nodeMode_ne (mode : Nat) : (mode &&& 0x1B6) &&& S_IFMT ≠ S_IFDIR := by
  rw [Nat.and_assoc]
  simp [S_IFMT, S_IFDIR]

namespace FS

variable {s : FS}

variable {filename : Name} {parentid : Nat}

theorem Consistent.createFile (h : s.Consistent) (hn : s.search parentid filename = none) :
    (s.createFile filename parentid).1.Consistent := by
  rw [FS.createFile]
  exact h.create hn (fun _ _ => rfl) (fun _ _ => rfl) fun parent _ => fileMode_ne parent.mode

theorem Consistent.createNode (h : s.Consistent) (major minor : Nat)
    (hn : s.search parentid filename = none) :
    (s.createNode filename parentid major minor).1.Consistent := by
  rw [FS.createNode]
  exact h.create hn (fun _ _ => rfl) (fun _ _ => rfl) fun parent _ => nodeMode_ne parent.mode

theorem Consistent.createSymlink (h : s.Consistent) (symlink : Name)
    (hn : s.search parentid filename = none) :
    (s.createSymlink filename parentid symlink).1.Consistent := by
  rw [FS.createSymlink]
  exact h.create hn (fun _ _ => rfl) (fun _ _ => rfl) fun _ _ =>
    show S_IFLNK &&& S_IFMT ≠ S_IFDIR by decide

end FS

/-- A call that may be made, and puts directories where they belong, keeps a filesystem
consistent. -/
theorem Call.step_consistent {s : FS} {c : Call} (h : s.Consistent) (ha : c.Allowed s)
    (hp : c.Placed s) : (c.step s).Consistent := by
  cases c with
  | createDirectory name parentid =>
    refine h.createDirectory fun p hpar => ?_
    subst hpar
    exact ⟨ha, hp⟩
  | createFile name parentid => exact h.createFile ha
  | createNode name parentid major minor => exact h.createNode major minor ha
  | createSymlink name parentid symlink => exact h.createSymlink symlink ha
  | link parentid targetid name => exact h.link ha
  | unlink parentid name => exact h.unlink_fst parentid name
  | rename olddirid oldname newdirid newname =>
    by_cases hsame : olddirid = newdirid ∧ oldname = newname
    · have : step s (.rename olddirid oldname newdirid newname) = s :=
        congrArg Prod.fst (if_pos hsame : s.rename olddirid oldname newdirid newname = _)
      rw [this]
      exact h
    · refine h.rename olddirid oldname newdirid newname fun d hd hdir => ?_
      obtain ⟨hproper, hstands, hok⟩ := hp hsame d hd hdir
      exact ⟨hproper, hok, hstands, ha d hd hdir⟩
  | recursiveDelete path => exact h.recursiveDelete path
  | deleteNode path => exact h.deleteNode path

/-! ### Calls that fail -/

namespace FS

variable {s : FS}

theorem length_linkUnderDir (s : FS) (p idx : Nat) (n : Name) :
    (s.linkUnderDir p idx n).inodes.length = s.inodes.length := by
  rw [linkUnderDir]
  dsimp only
  split
  · split <;> simp [length_modifyInode]
  · simp [length_modifyInode]

theorem pushInode_pos (s : FS) (x : Inode) (parentid : Option Nat) (n : Name) :
    0 < (s.pushInode x parentid n).inodes.length := by
  cases parentid with
  | none =>
    rw [pushInode]
    split <;> rename_i h
    · simp
    · omega
  | some p =>
    rw [pushInode, length_linkUnderDir, List.length_append, List.length_singleton]
    omega

/-- A call leaves the filesystem alone or gives no negative number. -/
def Unharmed (s : FS) (result : FS × Outcome) : Prop :=
  result.1 = s ∨ ∀ ret, result.2 = .value ret → 0 ≤ ret

theorem unharmed_unlink (p : Nat) (n : Name) : s.Unharmed (s.unlink p n) := by
  rw [unlink]
  iterate 4
    split
    · exact .inl rfl
  · refine .inr fun ret h => ?_
    injection h with h
    omega

theorem unharmed_link (parentid targetid : Nat) (name : Name) :
    s.Unharmed (s.link parentid targetid name) := by
  rw [link]
  split
  · exact .inl rfl
  split
  · exact .inl rfl
  split
  · exact .inl rfl
  · refine .inr fun ret h => ?_
    injection h with h
    omega

theorem unharmed_create (fill : Inode → Inode → Inode) (name : Name) (parentid : Nat) :
    s.Unharmed (s.create fill name parentid) := by
  rw [create]
  split
  · exact .inl rfl
  · refine .inr fun ret h => ?_
    injection h with h
    subst h
    exact Int.sub_nonneg_of_le (Int.ofNat_le.2 (pushInode_pos _ _ _ _))

theorem unharmed_createFile (filename : Name) (parentid : Nat) :
    s.Unharmed (s.createFile filename parentid) := by
  rw [createFile]
  exact unharmed_create _ filename parentid

theorem unharmed_createNode (filename : Name) (parentid major minor : Nat) :
    s.Unharmed (s.createNode filename parentid major minor) := by
  rw [createNode]
  exact unharmed_create _ filename parentid

theorem unharmed_createSymlink (filename : Name) (parentid : Nat) (symlink : Name) :
    s.Unharmed (s.createSymlink filename parentid symlink) := by
  rw [createSymlink]
  exact unharmed_create _ filename parentid

theorem unharmed_createDirectory (name : Name) (parentid : Option Nat) :
    s.Unharmed (s.createDirectory name parentid) := by
  unfold createDirectory
  split
  · exact .inl rfl
  · refine .inr fun ret h => ?_
    injection h with h
    subst h
    exact Int.sub_nonneg_of_le (Int.ofNat_le.2 (pushInode_pos _ _ _ _))

theorem unharmed_rename (olddirid : Nat) (oldname : Name) (newdirid : Nat) (newname : Name) :
    s.Unharmed (s.rename olddirid oldname newdirid newname) := by
  have hu := s.unharmed_unlink newdirid newname
  rw [rename]
  split
  · exact .inl rfl
  split
  · exact .inl rfl
  split
  · exact .inl rfl
  split
  · split <;> rename_i he
    · split <;> rename_i hneg
      · -- a negative number comes from `Unlink` only
        split at he
        · rw [he] at hu
          exact hu.imp_right fun h => absurd (h _ rfl) (by omega)
        · cases he
          exact .inl rfl
      · refine .inr fun ret h => ?_
        injection h with h
        omega
    · rename_i hvalue
      exact .inr fun ret h => absurd h (hvalue ret)
  · exact .inl rfl

theorem unlinkAll_ne_value : ∀ (s : FS) (list : List (Nat × Name)) (ret : Int),
    (s.unlinkAll list).2 ≠ .value ret
  | _, [], _ => Outcome.noConfusion
  | s, (p, n) :: rest, ret => by
    rw [unlinkAll]
    split
    · exact Outcome.noConfusion
    · exact unlinkAll_ne_value _ rest ret

theorem recursiveDelete_ne_value (path : Name) (ret : Int) :
    (s.recursiveDelete path).2 ≠ .value ret := by
  rw [recursiveDelete]
  iterate 3
    split
    · exact Outcome.noConfusion
  · exact unlinkAll_ne_value s _ ret

theorem unlinkFound_ne_value (s : FS) (ids : PathInfo) (ret : Int) :
    (s.unlinkFound ids).2 ≠ .value ret := by
  rw [unlinkFound]
  split
  · split <;> exact Outcome.noConfusion
  · exact Outcome.noConfusion

theorem deleteNode_ne_value (path : Name) (ret : Int) : (s.deleteNode path).2 ≠ .value ret := by
  rw [deleteNode]
  iterate 3
    split
    · exact Outcome.noConfusion
  split
  · exact unlinkFound_ne_value s _ ret
  split
  · split
    · exact Outcome.noConfusion
    · exact unlinkFound_ne_value _ _ ret
  · exact Outcome.noConfusion

end FS

/-- A call that gives a negative number has changed nothing, whatever filesystem it is made on. -/
theorem Call.failsUnchanged (s : FS) (c : Call) : c.FailsUnchanged s := by
  intro ret hret hneg
  have hu : s.Unharmed (c.apply s) := by
    cases c with
    | createDirectory name parentid => exact FS.unharmed_createDirectory name parentid
    | createFile name parentid => exact FS.unharmed_createFile name parentid
    | createNode name parentid major minor => exact FS.unharmed_createNode name parentid major minor
    | createSymlink name parentid symlink =>
      exact FS.unharmed_createSymlink name parentid symlink
    | link parentid targetid name => exact FS.unharmed_link parentid targetid name
    | unlink parentid name => exact FS.unharmed_unlink parentid name
    | rename olddirid oldname newdirid newname =>
      exact FS.unharmed_rename olddirid oldname newdirid newname
    | recursiveDelete path => exact absurd hret (FS.recursiveDelete_ne_value path ret)
    | deleteNode path => exact absurd hret (FS.deleteNode_ne_value path ret)
  rcases hu with he | hpos
  · rw [he]
  · exact absurd (hpos ret hret) (by omega)

/-! ### Runs -/

/-- The filesystem `FS` makes is consistent. -/
theorem new_consistent : FS.new.Consistent := by
  have hentries : FS.new.inodes.map (·.direntries.entries) = [[(dot, 0), (dotdot, 0)]] := by decide
  have hsearch : ∀ p n c, FS.new.search p n = some c → p = 0 ∧ (n = dot ∨ n = dotdot) ∧ c = 0 := by
    intro p n c h
    obtain ⟨x, hx, hg⟩ := FS.exists_inode h
    have hm := congrArg (fun l => l[p]?) hentries
    simp only [List.getElem?_map, hx, Option.map_some, List.getElem?_singleton] at hm
    split at hm <;> rename_i hp
    · rw [OrderedMap.get?_eq_some, Option.some.inj hm] at hg
      simp only [List.mem_cons, Prod.mk.injEq, List.not_mem_nil, or_false] at hg
      exact ⟨hp, hg.imp And.left And.left, hg.elim And.right And.right⟩
    · cases hm
  have hunnamed : ∀ p n c, ¬ marks.Names FS.new.search p n c := by
    rintro p n c ⟨hn, hself, hup⟩
    obtain ⟨-, hor, -⟩ := hsearch p n c hn
    exact hor.elim hself hup
  have hdir : ∀ d, FS.new.isDirectory d = true → d = 0 := fun d hd =>
    Nat.lt_one_iff.1 (FS.lt_of_isDirectory hd)
  constructor
  · constructor
    · constructor
      · exact (by decide : FS.new.isDirectory 0 = true)
      · exact (by decide : FS.new.search 0 dotdot = some 0)
      · exact fun p n => hunnamed p n _
      · exact fun p n c hn => absurd hn (hunnamed p n c)
      · intro c p hc _
        obtain ⟨rfl, -⟩ := hsearch c _ p hc
        exact ⟨by decide, .inl rfl⟩
      · exact fun p n n' c hn => absurd hn (hunnamed p n c)
      · exact fun p n c hn => absurd hn (hunnamed p n c)
    · intro d hd
      rw [hdir d hd]
      exact (by decide : FS.new.search 0 dot = some 0)
    · exact fun p n c hn => absurd hn (hunnamed p n c)
  · intro p n c hc
    rw [(hsearch p n c hc).2.2]
    decide
  · intro q
    rcases Nat.eq_zero_or_pos q with rfl | hq
    · decide
    · have hn : FS.new.nlinks q = 0 := by
        rw [FS.nlinks, List.getElem?_eq_none (by exact hq)]
        rfl
      have hr : FS.new.references q = 0 := FS.references_eq_zero fun p n h => by
        have := (hsearch p n q h).2.2
        omega
      rw [FS.balance, hn, hr]
      rfl

/-- A run from a consistent filesystem, such as the new one, keeps it consistent and well linked,
and the calls in it that fail change nothing, as long as directories are put where they belong. -/
theorem tree_consistent (s : FS) (calls : List Call) : FS.new.Consistent ∧ (s.Consistent →
      Runs.Each Call.step (fun s c => c.Allowed s) s calls →
      Runs.Each Call.step (fun s c => c.Placed s) s calls →
      s.WellLinked ∧ Runs.Each Call.step (fun s c => (c.step s).Consistent ∧
        (c.step s).WellLinked ∧ c.FailsUnchanged s) s calls) := by
  refine ⟨new_consistent, fun hs ha hp => ⟨hs.wellLinked, ?_⟩⟩
  refine Runs.each_of (A := fun _ => True) (I := FS.Consistent) (fun s c _ hs hc => ?_)
    (fun _ _ => trivial) hs (ha.and hp)
  have := Call.step_consistent hs hc.1 hc.2
  exact ⟨this, this, this.wellLinked, c.failsUnchanged s⟩

/-- A directory is created in another and moved next to it, and gets a file. -/
def movedUp : List Call :=
  [.createDirectory ['d'] (some 0), .createDirectory ['e'] (some 1), .rename 1 ['e'] 0 ['h'],
    .createFile ['f'] 2]

theorem tree_consistent_movedUp :
    FS.new.WellLinked ∧ Runs.Each Call.step (fun s c => (c.step s).Consistent ∧
      (c.step s).WellLinked ∧ c.FailsUnchanged s) FS.new movedUp := by
  have hd : ∀ d, ((movedUp.take 2).foldl Call.step FS.new).search 1 ['e'] = some d → d = 2 := by
    intro d hd
    have : ((movedUp.take 2).foldl Call.step FS.new).search 1 ['e'] = some 2 := by decide
    exact Option.some.inj (hd.symm.trans this)
  refine (tree_consistent FS.new movedUp).2 (tree_consistent FS.new []).1 ?_ ?_
  · refine ⟨show FS.new.search 0 ['d'] = none by decide,
      show ((movedUp.take 1).foldl Call.step FS.new).search 1 ['e'] = none by decide +kernel,
      fun d he _ => ?_,
      show ((movedUp.take 3).foldl Call.step FS.new).search 2 ['f'] = none by decide +kernel,
      trivial⟩
    rw [hd d he]
    intro hb
    have hempty : ((movedUp.take 2).foldl Call.step FS.new).isEmpty 2 = true := by decide +kernel
    have := eq_of_below (FS.names_of_isEmpty hempty) hb
    omega
  · refine ⟨fun _ => ⟨.inl rfl, by decide, by decide⟩, fun _ => ⟨.inr ⟨by decide, 0, ['d'], ?_⟩,
      by decide, by decide⟩, fun _ d he _ => ⟨by decide, .inl rfl, by decide, by decide⟩, trivial,
      trivial⟩
    exact ⟨by decide +kernel, by decide⟩

/-- A directory is renamed by the name `.` that it has in itself. -/
def movedDot : List Call :=
  [.createDirectory ['d'] (some 0), .rename 1 dot 0 ['x']]

/-- The directory has two names then, and a link less than there are entries. -/
theorem tree_inconsistent : Runs.Each Call.step (fun s c => c.Allowed s) FS.new movedDot ∧
      (movedDot.foldl Call.step FS.new).search 0 ['d'] = some 1 ∧
      (movedDot.foldl Call.step FS.new).search 0 ['x'] = some 1 ∧
      (movedDot.foldl Call.step FS.new).nlinks 1 = 2 ∧
      (movedDot.foldl Call.step FS.new).references 1 = 3 ∧
      ¬ (movedDot.foldl Call.step FS.new).WellLinked := by
  have hcounts : (movedDot.foldl Call.step FS.new).nlinks 1 = 2 ∧
      (movedDot.foldl Call.step FS.new).references 1 = 3 := by decide +kernel
  refine ⟨⟨show FS.new.search 0 ['d'] = none by decide, fun d he _ hb => ?_, trivial⟩, by decide +kernel, by decide +kernel,
    hcounts.1, hcounts.2, fun h => ?_⟩
  · have hdot : ((movedDot.take 1).foldl Call.step FS.new).search 1 dot = some 1 := by
      decide +kernel
    obtain rfl : 1 = d := Option.some.inj (hdot.symm.trans he)
    have hempty : ((movedDot.take 1).foldl Call.step FS.new).isEmpty 1 = true := by decide +kernel
    have := eq_of_below (FS.names_of_isEmpty hempty) hb
    omega
  · have := h.counts 1 (by decide +kernel)
    omega

end V86.Fs
