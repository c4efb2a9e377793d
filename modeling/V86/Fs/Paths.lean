import V86.Fs.Consistent

/-!
# Full paths and their search

`GetFullPath` climbs from a directory to the root and `SearchPath` walks back. In a consistent
filesystem both follow the one chain of names from the root to a linked directory, whose length is
the directory's depth: the climb ends, and the walk over its result ends in the directory.
-/

namespace V86.Fs

open NamedTree List

/-- The names with a slash before each. -/
def slashed (names : List Name) (rest : Name) : Name :=
  names.foldr (fun n path => '/' :: n ++ path) rest

theorem slashed_snoc (names : List Name) (n rest : Name) :
    slashed (names ++ [n]) rest = slashed names ('/' :: n ++ rest) := by
  rw [slashed, foldr_append]
  rfl

theorem replaceFirst_plain {n : Name} (hn : '/' ∉ n) (rest : Name) :
    FS.replaceFirst (n ++ rest) = n ++ FS.replaceFirst rest := by
  induction n with
  | nil => rfl
  | cons c n ih =>
    rw [mem_cons, not_or] at hn
    rw [cons_append, cons_append, ← ih hn.2]
    exact FS.replaceFirst.eq_2 c (n ++ rest) fun _ h => absurd h.symm hn.1

/-- A path of plain names holds no `//`. -/
theorem replaceFirst_slashed {names : List Name} (hn : ∀ n ∈ names, Plain n) :
    FS.replaceFirst (slashed names []) = slashed names [] := by
  induction names with
  | nil => rfl
  | cons n names ih =>
    obtain ⟨hne, hslash⟩ := hn n mem_cons_self
    obtain ⟨c, n', rfl⟩ := exists_cons_of_ne_nil hne
    have hc : c ≠ '/' := fun h => hslash (h ▸ mem_cons_self)
    have hs : slashed ((c :: n') :: names) [] = '/' :: ((c :: n') ++ slashed names []) := rfl
    rw [hs, FS.replaceFirst.eq_2 '/' _ (by rintro rest - h; exact hc (List.cons.inj h).1),
      replaceFirst_plain hslash, ih fun m hm => hn m (mem_cons_of_mem _ hm)]

/-- The names joined by slashes. -/
theorem slashed_drop (names : List Name) : (slashed names []).drop 1 = ['/'].intercalate names := by
  cases names with
  | nil => rfl
  | cons n names =>
    induction names generalizing n with
    | nil => simp [slashed, List.intercalate]
    | cons m names ih =>
      have := ih m
      simp only [slashed, foldr_cons, cons_append, drop_succ_cons, drop_zero]
        at this ⊢
      rw [this, List.intercalate, List.intercalate, intersperse_cons_cons, flatten_cons,
        flatten_cons]
      rfl

/-- `SearchPath` walks the names a path was made of. -/
theorem components_slashed {names : List Name} (hn : ∀ n ∈ names, Plain n) :
    FS.components ((slashed names []).drop 1) = names := by
  cases names with
  | nil => rfl
  | cons n names =>
    have hfirst : FS.replaceFirst ((slashed (n :: names) []).drop 1) =
        (slashed (n :: names) []).drop 1 := by
      have hs : (slashed (n :: names) []).drop 1 = n ++ slashed names [] := rfl
      rw [hs, replaceFirst_plain (hn n mem_cons_self).2,
        replaceFirst_slashed fun m hm => hn m (mem_cons_of_mem _ hm)]
    have hsplit : ((slashed (n :: names) []).drop 1).splitOn '/' = n :: names := by
      rw [slashed_drop]
      exact splitOn_intercalate '/' (fun m hm => (hn m hm).2) (cons_ne_nil _ _)
    have hlast : (n :: names).getLast? ≠ some [] := fun h =>
      (hn [] (List.mem_of_getLast? h)).1 rfl
    have hhead : (n :: names).head? ≠ some [] := fun h => (hn [] (List.mem_of_head? h)).1 rfl
    rw [FS.components, hfirst, hsplit, if_neg hlast, if_neg hhead]

namespace FS

variable {s : FS}

/-- The walk goes on by one name. -/
theorem walk_snoc {p c : Nat} {n : Name} (hn : s.search p n = some c) :
    ∀ {names : List Name} {q q' : Option Nat} {id : Nat},
      s.walk q id names = some ⟨some p, q', none⟩ →
        s.walk q id (names ++ [n]) = some ⟨some c, some p, none⟩
  | [], q, q', id, h => by
    obtain rfl : id = p := by simpa [walk] using congrArg (Option.map PathInfo.id) h
    obtain ⟨x, hx, hg⟩ := exists_inode hn
    rw [nil_append, walk, hx, Option.bind_some, hg]
    rfl
  | m :: names, q, q', id, h => by
    rw [walk] at h
    obtain ⟨x, hx, hw⟩ := Option.bind_eq_some_iff.1 h
    rw [cons_append, walk, hx, Option.bind_some]
    cases hg : x.direntries.get? m with
    | none =>
      rw [hg] at hw
      cases Option.some.inj hw
    | some child =>
      rw [hg] at hw
      exact walk_snoc hn hw

/-- In its parent a linked directory is found under its name. -/
theorem Consistent.getDirectoryName (h : s.Consistent) {k p d : Nat} {n : Name}
    (hp : marks.Linked s.search (s.isDirectory · = true) k p) (hn : marks.Names s.search p n d)
    (hd : s.isDirectory d = true) : s.getDirectoryName d = some n := by
  have hup := h.tree.upEntry p n d hn hd
  have hdep := Marks.Linked.child hp hn hd
  obtain ⟨x, hx, hg⟩ := exists_inode hn.1
  obtain ⟨e, he⟩ : ∃ e, x.direntries.entries.find? (fun e => e.2 = d) = some e := by
    rw [← Option.isSome_iff_exists, List.find?_isSome]
    exact ⟨(n, d), x.direntries.get?_eq_some.1 hg, by simp⟩
  have hed : e.2 = d := by simpa using List.find?_some he
  have hs : s.search p e.1 = some d := by
    rw [search, hx, Option.bind_some, x.direntries.get?_eq_some, ← hed]
    exact List.mem_of_find?_eq_some he
  -- neither the directory itself nor its parent is below it
  have hself : e.1 ≠ marks.self := by
    intro hm
    have := h.tree.selfEntry p (hp.isDir h.tree.rootDir)
    rw [← hm, hs] at this
    have := h.tree.toUpward.depth_unique hp (Option.some.inj this ▸ hdep)
    omega
  have hback : e.1 ≠ marks.up := by
    intro hm
    rw [hm] at hs
    obtain ⟨-, hroot | ⟨m, hm⟩⟩ := h.tree.upNames p d hs hd
    · rw [hroot, h.tree.rootUp] at hs
      exact h.tree.rootUnnamed p n (Option.some.inj hs ▸ hn)
    · obtain ⟨j, hj, hd'⟩ := h.tree.toUpward.linked_of_names hp hm
      have := h.tree.toUpward.depth_unique hdep hd'
      omega
  have hname : e.1 = n := h.tree.nameUnique p e.1 n d ⟨hs, hself, hback⟩ hn hd
  have hup' : s.search d dotdot = some p := hup
  rw [FS.getDirectoryName, hup', Option.bind_some, hx, Option.map_some, he, Option.map_some,
    Option.getD_some, hname]

/-- A linked directory lies at the end of a chain of as many plain names as it is deep; the climb
from it collects the chain, and the walk along the chain ends in it. -/
theorem Consistent.exists_chain (h : s.Consistent) {k d : Nat}
    (hd : marks.Linked s.search (s.isDirectory · = true) k d) :
    ∃ names : List Name, (∀ n ∈ names, Plain n) ∧
      (∀ fuel ≥ k, ∀ path, s.climb fuel d path = some (slashed names path)) ∧
      ∃ parentid, s.walk none 0 names = some ⟨some d, parentid, none⟩ := by
  induction hd with
  | root =>
    refine ⟨[], nofun, fun fuel _ path => ?_, none, rfl⟩
    cases fuel <;> rfl
  | @child k p n c hp hn hc ih =>
    obtain ⟨names, hplain, hclimb, q, hwalk⟩ := ih
    refine ⟨names ++ [n], ?_, ?_, some p, walk_snoc hn.1 hwalk⟩
    · intro m hm
      rcases List.mem_append.1 hm with hm | hm
      · exact hplain m hm
      · rw [List.mem_singleton.1 hm]
        exact h.tree.nameOk p n c hn hc
    · intro fuel hf path
      obtain ⟨fuel, rfl⟩ : ∃ f, fuel = f + 1 := ⟨fuel - 1, by omega⟩
      have hne : c ≠ 0 := fun h0 => h.tree.rootUnnamed p n (show marks.Names _ _ _ 0 from h0 ▸ hn)
      obtain ⟨c, rfl⟩ := Nat.exists_eq_succ_of_ne_zero hne
      have hup : s.search (c + 1) dotdot = some p := h.tree.upEntry p n (c + 1) hn hc
      rw [climb, h.getDirectoryName hp hn hc, hup, slashed_snoc]
      exact hclimb fuel (by omega) _

/-- `GetFullPath` of a linked directory ends, and `SearchPath` finds the directory again. -/
theorem Consistent.searchPath_getFullPath (h : s.Consistent) {d : Nat} (hd : s.Stands d) :
    ∃ path ids, s.getFullPath d = some path ∧ s.searchPath path = some ids ∧ ids.id = some d := by
  obtain ⟨k, hk⟩ := h.linked hd
  obtain ⟨names, hplain, hclimb, q, hwalk⟩ := h.exists_chain hk
  have hlt : k < s.inodes.length := h.tree.toUpward.depth_lt id (fun _ _ => id)
    (fun j x hx => lt_of_isDirectory (hx.isDir h.tree.rootDir)) hk
  refine ⟨(slashed names []).drop 1, ⟨some d, q, none⟩, ?_, ?_, rfl⟩
  · rw [getFullPath, hclimb s.inodes.length (Nat.le_of_lt hlt), Option.map_some]
  · rw [searchPath, components_slashed hplain, hwalk]

/-- Following `..` from a linked directory ends in the root. -/
theorem Consistent.reaches_root (h : s.Consistent) {d : Nat} (hd : s.Stands d) :
    Relation.ReflTransGen (fun a b => s.search a dotdot = some b) d 0 := by
  obtain ⟨k, hk⟩ := h.linked hd
  induction hk with
  | root => exact .refl
  | @child k p n c hp hn hc ih =>
    refine .head (h.tree.upEntry p n c hn hc) (ih ?_)
    cases hp with
    | root => exact .inl rfl
    | child _ hn' hc' => exact .inr ⟨hc', _, _, hn'⟩

end FS

end V86.Fs
