import V86.Fs.Tree
import V86.Lib.NamedTree
import Mathlib.Algebra.BigOperators.Group.List.Basic

/-!
# What linking and unlinking change

The entries of all directories are one function, `FS.search`, and what an operation does to it is a
few edges set or cut (`V86.NamedTree`). How far the link count of an inode is from the number of
entries that refer to it is its `balance`. An operation that only moves links around is described by
`Rewired`: the new entries are given, the directories are the old ones, and no balance moves.
-/

namespace V86.Fs

open NamedTree List

/-- The root directory, `.` and `..`. -/
def marks : Marks Nat Name := ⟨0, dot, dotdot, by decide⟩

namespace FS

/-- The link count of an inode. -/
def nlinks (s : FS) (idx : Nat) : Int := (s.inodes[idx]?.map (·.nlinks)).getD 0

/-- The number of entries that refer to an inode. -/
def references (s : FS) (idx : Nat) : Nat := (s.inodes.map (·.direntries.count idx)).sum

/-- How many links are counted beyond the entries there are. -/
def balance (s : FS) (idx : Nat) : Int := s.nlinks idx - s.references idx

/-- An entry is set. -/
def setEntry (s : FS) (p : Nat) (n : Name) (c : Nat) : FS :=
  s.modifyInode p fun inode => { inode with direntries := inode.direntries.set n c }

/-- An entry is deleted. -/
def deleteEntry (s : FS) (p : Nat) (n : Name) : FS :=
  s.modifyInode p fun inode => { inode with direntries := inode.direntries.delete n }

/-- Links are counted. -/
def countLinks (s : FS) (idx : Nat) (k : Int) : FS :=
  s.modifyInode idx fun inode => { inode with nlinks := inode.nlinks + k }

variable {s : FS}

theorem length_modifyInode (s : FS) (p : Nat) (f : Inode → Inode) :
    (s.modifyInode p f).inodes.length = s.inodes.length := by
  rw [modifyInode, length_modify]

theorem getElem?_modifyInode (s : FS) (p q : Nat) (f : Inode → Inode) :
    (s.modifyInode p f).inodes[q]? = if p = q then s.inodes[q]?.map f else s.inodes[q]? := by
  rw [modifyInode, List.getElem?_modify]
  by_cases h : p = q <;> cases s.inodes[q]? <;> simp [h]

variable {f : Inode → Inode} {p c : Nat} {n : Name}

theorem isDirectory_modifyInode (s : FS) (p : Nat)
    (hf : ∀ x, (f x).mode = x.mode) : (s.modifyInode p f).isDirectory = s.isDirectory := by
  funext q
  rw [isDirectory, isDirectory, getElem?_modifyInode]
  by_cases h : p = q <;> cases hq : s.inodes[q]? <;> simp [h, hf]

theorem search_modifyInode (s : FS) (p : Nat)
    (hf : ∀ x, (f x).direntries = x.direntries) : (s.modifyInode p f).search = s.search := by
  funext q n
  rw [search, search, getElem?_modifyInode]
  by_cases h : p = q <;> cases hq : s.inodes[q]? <;> simp [h, hf]

theorem nlinks_modifyInode (s : FS) (p : Nat) (hf : ∀ x, (f x).nlinks = x.nlinks)
    (q : Nat) : (s.modifyInode p f).nlinks q = s.nlinks q := by
  rw [nlinks, nlinks, getElem?_modifyInode]
  by_cases h : p = q <;> cases hq : s.inodes[q]? <;> simp [h, hf]

theorem sum_map_modify {α : Type*} (g : α → Nat) (f : α → α) {x : α} :
    ∀ {l : List α} {p : Nat}, l[p]? = some x →
      ((l.modify p f).map g).sum + g x = (l.map g).sum + g (f x)
  | [], _, h => by simp at h
  | a :: l, 0, h => by
    obtain rfl : a = x := by simpa using h
    simp only [modify_zero_cons, map_cons, sum_cons]
    omega
  | a :: l, p + 1, h => by
    have := sum_map_modify g f (l := l) (p := p) (by simpa using h)
    simp only [modify_succ_cons, map_cons, sum_cons]
    omega

theorem references_modifyInode {x : Inode} (hx : s.inodes[p]? = some x) (f : Inode → Inode)
    (q : Nat) : (s.modifyInode p f).references q + x.direntries.count q =
      s.references q + (f x).direntries.count q :=
  sum_map_modify (fun y : Inode => y.direntries.count q) f hx

theorem references_of_direntries (s : FS) (p : Nat) (hf : ∀ x, (f x).direntries = x.direntries)
    (q : Nat) : (s.modifyInode p f).references q = s.references q := by
  cases hp : s.inodes[p]? with
  | none =>
    rw [modifyInode, modify_eq_self]
    exact List.getElem?_eq_none_iff.1 hp
  | some x =>
    have := references_modifyInode hp f q
    rw [hf] at this
    omega

/-- An entry is found in an inode. -/
theorem exists_inode (h : s.search p n = some c) :
    ∃ x, s.inodes[p]? = some x ∧ x.direntries.get? n = some c :=
  Option.bind_eq_some_iff.1 h

/-- An inode that no entry leads to is not referred to. -/
theorem references_eq_zero {q : Nat} (h : ∀ p n, s.search p n ≠ some q) : s.references q = 0 := by
  refine sum_eq_zero fun k hk => ?_
  obtain ⟨x, hx, rfl⟩ := List.mem_map.1 hk
  obtain ⟨p, hp⟩ := mem_iff_getElem?.1 hx
  refine List.countP_eq_zero.2 fun e he hq => h p e.1 ?_
  rw [search, hp, Option.bind_some, OrderedMap.get?_eq_some, ← of_decide_eq_true hq]
  exact he

theorem lt_of_search (h : s.search p n = some c) : p < s.inodes.length := by
  obtain ⟨x, hx, -⟩ := exists_inode h
  exact (List.getElem?_eq_some_iff.1 hx).1

theorem lt_of_isDirectory (h : s.isDirectory p = true) : p < s.inodes.length := by
  by_contra hp
  rw [isDirectory, List.getElem?_eq_none (Nat.le_of_not_lt hp)] at h
  cases h

theorem search_setEntry (hp : p < s.inodes.length) :
    (s.setEntry p n c).search = setEdge s.search p n (some c) := by
  funext q m
  rw [search, setEntry, getElem?_modifyInode, setEdge, search]
  by_cases hq : p = q
  · subst hq
    rw [if_pos rfl, List.getElem?_eq_getElem hp]
    simp only [Option.map_some, Option.bind_some, OrderedMap.get?_set, true_and]
  · rw [if_neg hq, if_neg fun h => hq h.1.symm]

theorem search_deleteEntry : (s.deleteEntry p n).search = setEdge s.search p n none := by
  funext q m
  rw [search, deleteEntry, getElem?_modifyInode, setEdge, search]
  by_cases hq : p = q
  · subst hq
    rw [if_pos rfl]
    cases s.inodes[p]? with
    | none => simp
    | some x => simp only [Option.map_some, Option.bind_some, OrderedMap.get?_delete, true_and]
  · rw [if_neg hq, if_neg fun h => hq h.1.symm]

theorem nlinks_countLinks (hp : p < s.inodes.length) (k : Int) (q : Nat) :
    (s.countLinks p k).nlinks q = s.nlinks q + if q = p then k else 0 := by
  rw [nlinks, countLinks, getElem?_modifyInode, nlinks]
  by_cases hq : p = q
  · subst hq
    simp [List.getElem?_eq_getElem hp]
  · rw [if_neg hq, if_neg fun h => hq h.symm, Int.add_zero]

theorem references_setEntry (hp : p < s.inodes.length) (hn : s.search p n = none) (q : Nat) :
    (s.setEntry p n c).references q = s.references q + if c = q then 1 else 0 := by
  have hx := List.getElem?_eq_getElem hp
  have hn' : s.inodes[p].direntries.get? n = none := by
    rw [search, hx] at hn
    exact hn
  have := references_modifyInode hx (fun y => { y with direntries := y.direntries.set n c }) q
  rw [OrderedMap.count_set _ c q hn'] at this
  rw [setEntry]
  omega

theorem references_deleteEntry (hn : s.search p n = some c) (q : Nat) :
    s.references q = (s.deleteEntry p n).references q + if c = q then 1 else 0 := by
  obtain ⟨x, hx, hn'⟩ := exists_inode hn
  have := references_modifyInode hx (fun y => { y with direntries := y.direntries.delete n }) q
  rw [x.direntries.count_delete q hn'] at this
  dsimp only at this
  rw [deleteEntry]
  omega

/-- An entry set again where it stands changes nothing. -/
theorem setEntry_eq_self (hn : s.search p n = some c) : s.setEntry p n c = s := by
  obtain ⟨x, hx, hn'⟩ := exists_inode hn
  have : s.inodes.modify p (fun y => { y with direntries := y.direntries.set n c }) = s.inodes := by
    refine ext_getElem? fun q => ?_
    rw [List.getElem?_modify]
    by_cases hq : p = q
    · subst hq
      simp [hx, x.direntries.set_eq_self hn']
    · cases s.inodes[q]? <;> simp [hq]
  rw [setEntry, modifyInode, this]

@[simp] theorem search_countLinks (p : Nat) (k : Int) : (s.countLinks p k).search = s.search :=
  search_modifyInode s p fun _ => rfl

@[simp] theorem isDirectory_setEntry (p : Nat) (n : Name) (c : Nat) :
    (s.setEntry p n c).isDirectory = s.isDirectory :=
  isDirectory_modifyInode s p fun _ => rfl

@[simp] theorem isDirectory_deleteEntry (p : Nat) (n : Name) :
    (s.deleteEntry p n).isDirectory = s.isDirectory :=
  isDirectory_modifyInode s p fun _ => rfl

@[simp] theorem isDirectory_countLinks (p : Nat) (k : Int) :
    (s.countLinks p k).isDirectory = s.isDirectory :=
  isDirectory_modifyInode s p fun _ => rfl

@[simp] theorem length_setEntry (p : Nat) (n : Name) (c : Nat) :
    (s.setEntry p n c).inodes.length = s.inodes.length :=
  length_modifyInode s p _

@[simp] theorem length_deleteEntry (p : Nat) (n : Name) :
    (s.deleteEntry p n).inodes.length = s.inodes.length :=
  length_modifyInode s p _

@[simp] theorem length_countLinks (p : Nat) (k : Int) :
    (s.countLinks p k).inodes.length = s.inodes.length :=
  length_modifyInode s p _

@[simp] theorem nlinks_setEntry (p : Nat) (n : Name) (c q : Nat) :
    (s.setEntry p n c).nlinks q = s.nlinks q :=
  nlinks_modifyInode s p (by exact fun _ => rfl) q

@[simp] theorem nlinks_deleteEntry (p : Nat) (n : Name) (q : Nat) :
    (s.deleteEntry p n).nlinks q = s.nlinks q :=
  nlinks_modifyInode s p (by exact fun _ => rfl) q

@[simp] theorem references_countLinks (p : Nat) (k : Int) (q : Nat) :
    (s.countLinks p k).references q = s.references q :=
  references_of_direntries s p (by exact fun _ => rfl) q

theorem balance_setEntry (hp : p < s.inodes.length) (hn : s.search p n = none) (q : Nat) :
    (s.setEntry p n c).balance q = s.balance q - if q = c then 1 else 0 := by
  rw [balance, balance, references_setEntry hp hn, nlinks_setEntry]
  by_cases hq : q = c
  · subst hq; simp; omega
  · simp [hq, Ne.symm hq]

theorem balance_deleteEntry (hn : s.search p n = some c) (q : Nat) :
    (s.deleteEntry p n).balance q = s.balance q + if q = c then 1 else 0 := by
  rw [balance, balance, references_deleteEntry hn q, nlinks_deleteEntry]
  by_cases hq : q = c
  · subst hq; simp; omega
  · simp [hq, Ne.symm hq]

theorem balance_countLinks (hp : p < s.inodes.length) (k : Int) (q : Nat) :
    (s.countLinks p k).balance q = s.balance q + if q = p then k else 0 := by
  rw [balance, balance, nlinks_countLinks hp, references_countLinks]
  omega

/-- The entries are now `e`, and nothing else of what the tree is made of has changed. -/
structure Rewired (s s' : FS) (e : Nat → Name → Option Nat) : Prop where
  search : s'.search = e
  isDirectory : s'.isDirectory = s.isDirectory
  length : s'.inodes.length = s.inodes.length
  balance : ∀ q, s'.balance q = s.balance q

theorem Rewired.refl (s : FS) : Rewired s s s.search := ⟨rfl, rfl, rfl, fun _ => rfl⟩

theorem Rewired.trans {s₁ s₂ s₃ : FS} {e₁ e₂ : Nat → Name → Option Nat} (h : Rewired s₁ s₂ e₁)
    (h' : Rewired s₂ s₃ e₂) : Rewired s₁ s₃ e₂ :=
  ⟨h'.search, h'.isDirectory.trans h.isDirectory, h'.length.trans h.length,
    fun q => (h'.balance q).trans (h.balance q)⟩

/-- A field that is neither the entries nor the mode nor the link count. -/
theorem rewired_modifyInode (s : FS) (p : Nat) (he : ∀ x, (f x).direntries = x.direntries)
    (hm : ∀ x, (f x).mode = x.mode)
    (hl : ∀ x, (f x).nlinks = x.nlinks) : Rewired s (s.modifyInode p f) s.search where
  search := search_modifyInode s p he
  isDirectory := isDirectory_modifyInode s p hm
  length := length_modifyInode s p f
  balance q := by
    rw [balance, balance, nlinks_modifyInode s p hl, references_of_direntries s p he]

section link

variable {p idx : Nat} {n : Name}

/-- Linking a file sets one entry. -/
theorem linkUnderDir_leaf (hp : p < s.inodes.length) (hi : idx < s.inodes.length)
    (hd : s.isDirectory idx = false) (hn : s.search p n = none) :
    Rewired s (s.linkUnderDir p idx n) (setEdge s.search p n (some idx)) := by
  have hs : s.linkUnderDir p idx n = (s.setEntry p n idx).countLinks idx 1 := by
    have : ((s.setEntry p n idx).countLinks idx 1).isDirectory idx = false := by simp [hd]
    exact if_neg (by rw [Bool.not_eq_true]; exact this)
  rw [hs]
  constructor
  · rw [search_countLinks, search_setEntry hp]
  · simp
  · simp
  · intro q
    rw [balance_countLinks (by simpa using hi), balance_setEntry hp hn]
    omega

/-- Linking a directory sets its name, and in it `.` and `..`. -/
theorem linkUnderDir_dir (hp : p < s.inodes.length) (hd : s.isDirectory idx = true)
    (hn : s.search p n = none) (hpn : n ≠ dot ∧ n ≠ dotdot)
    (hself : s.search idx dot = none ∨ s.search idx dot = some idx)
    (hup : s.search idx dotdot = none) :
    Rewired s (s.linkUnderDir p idx n) (marks.attachDir s.search p n idx) := by
  have hi := lt_of_isDirectory hd
  have hdots : dotdot ≠ dot := by decide
  obtain ⟨s₁, hs₁⟩ : ∃ s₁, s₁ = (s.setEntry p n idx).countLinks idx 1 := ⟨_, rfl⟩
  have hlen₁ : s₁.inodes.length = s.inodes.length := by simp [hs₁]
  have hsearch₁ : s₁.search = setEdge s.search p n (some idx) := by
    rw [hs₁, search_countLinks, search_setEntry hp]
  have hbal₁ : ∀ q, s₁.balance q = s.balance q := by
    intro q
    rw [hs₁, balance_countLinks (by simpa using hi), balance_setEntry hp hn]
    omega
  -- `.` is counted exactly where it was missing
  obtain ⟨s₂, hs₂⟩ : ∃ s₂, s₂ = (if (s₁.search idx dot).isSome then s₁
    else s₁.countLinks idx 1).setEntry idx dot idx := ⟨_, rfl⟩
  have hdot : s₁.search idx dot = s.search idx dot := by
    rw [hsearch₁]
    exact setEdge_of_ne _ _ fun h => hpn.1 h.2.symm
  have hspec₂ : Rewired s₁ s₂ (setEdge s₁.search idx dot (some idx)) := by
    rcases hself with hself | hself
    · rw [hs₂, if_neg (by simp [hdot, hself])]
      constructor
      · rw [search_setEntry (by simpa [hlen₁] using hi), search_countLinks]
      · simp
      · simp
      · intro q
        rw [balance_setEntry (by simpa [hlen₁] using hi) (by simp [hdot, hself]),
          balance_countLinks (by simpa [hlen₁] using hi)]
        omega
    · rw [hs₂, if_pos (by simp [hdot, hself]), setEntry_eq_self (hdot.trans hself)]
      have : setEdge s₁.search idx dot (some idx) = s₁.search := by
        funext a x
        by_cases hax : a = idx ∧ x = dot
        · rw [hax.1, hax.2, setEdge_self, hdot, hself]
        · exact setEdge_of_ne _ _ hax
      rw [this]
      exact Rewired.refl s₁
  have hup₂ : s₂.search idx dotdot = none := by
    rw [hspec₂.search, setEdge_of_ne _ _ fun h => hdots h.2, hsearch₁,
      setEdge_of_ne _ _ fun h => hpn.2 h.2.symm, hup]
  have hi₂ : idx < s₂.inodes.length := by rw [hspec₂.length, hlen₁]; exact hi
  have hs : s.linkUnderDir p idx n = (s₂.setEntry idx dotdot p).countLinks p 1 := by
    have : ((s.setEntry p n idx).countLinks idx 1).isDirectory idx = true := by simp [hd]
    rw [hs₂, hs₁]
    exact if_pos this
  rw [hs]
  constructor
  · rw [search_countLinks, search_setEntry hi₂, hspec₂.search, hsearch₁]
    rfl
  · rw [isDirectory_countLinks, isDirectory_setEntry, hspec₂.isDirectory, hs₁]
    simp
  · rw [length_countLinks, length_setEntry, hspec₂.length, hlen₁]
  · intro q
    have hp₂ : p < (s₂.setEntry idx dotdot p).inodes.length := by
      rw [length_setEntry, hspec₂.length, hlen₁]
      exact hp
    rw [balance_countLinks hp₂, balance_setEntry hi₂ hup₂, hspec₂.balance, hbal₁]
    omega

/-- Unlinking a file cuts one entry. -/
theorem unlinkFromDir_leaf (hi : idx < s.inodes.length) (hd : s.isDirectory idx = false)
    (hn : s.search p n = some idx) :
    Rewired s (s.unlinkFromDir p n) (setEdge s.search p n none) := by
  have hs : s.unlinkFromDir p n = (s.deleteEntry p n).countLinks idx (-1) := by
    have : ((s.deleteEntry p n).countLinks idx (-1)).isDirectory idx = false := by simp [hd]
    rw [unlinkFromDir, hn]
    exact if_neg (by rw [Bool.not_eq_true]; exact this)
  rw [hs]
  constructor
  · rw [search_countLinks, search_deleteEntry]
  · simp
  · simp
  · intro q
    rw [balance_countLinks (by simpa using hi), balance_deleteEntry hn]
    split <;> omega

/-- Unlinking a directory cuts its name, and in it `..`. -/
theorem unlinkFromDir_dir (hd : s.isDirectory idx = true) (hn : s.search p n = some idx)
    (hpn : n ≠ dotdot) (hup : s.search idx dotdot = some p) :
    Rewired s (s.unlinkFromDir p n) (marks.detachDir s.search p n idx) := by
  have hi := lt_of_isDirectory hd
  have hp := lt_of_search hn
  obtain ⟨s₁, hs₁⟩ : ∃ s₁, s₁ = (s.deleteEntry p n).countLinks idx (-1) := ⟨_, rfl⟩
  have hlen₁ : s₁.inodes.length = s.inodes.length := by simp [hs₁]
  have hup₁ : s₁.search idx dotdot = some p := by
    rw [hs₁, search_countLinks, search_deleteEntry, setEdge_of_ne _ _ fun h => hpn h.2.symm, hup]
  have hs : s.unlinkFromDir p n = (s₁.deleteEntry idx dotdot).countLinks p (-1) := by
    have : ((s.deleteEntry p n).countLinks idx (-1)).isDirectory idx = true := by simp [hd]
    rw [unlinkFromDir, hn, hs₁]
    exact if_pos this
  rw [hs]
  constructor
  · rw [search_countLinks, search_deleteEntry, hs₁, search_countLinks, search_deleteEntry]
    rfl
  · simp [hs₁]
  · simp [hlen₁]
  · intro q
    rw [balance_countLinks (by simpa [hlen₁] using hp), balance_deleteEntry hup₁, hs₁,
      balance_countLinks (by simpa using hi), balance_deleteEntry hn]
    split <;> split <;> omega

end link

end FS

end V86.Fs
