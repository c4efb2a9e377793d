import Mathlib.Algebra.GroupWithZero.Nat
import V86.Lib.OrderedMap

/-!
# The inodes of the in-memory filesystem

`filesystem.js` for a filesystem that no other is mounted in: no inode is a forwarder. A directory
is an inode whose map from names to inode numbers holds itself under `.` and its parent under `..`.
The operations below link inodes under directories and unlink them, counting links as they go. The
checks of `dbg_assert` are not made: a release build has none.
-/

namespace V86.Fs

/-- A file name, or a path, by its characters. -/
abbrev Name := List Char

/-- The name `.`. -/
def dot : Name := ['.']

/-- The name `..`. -/
def dotdot : Name := ['.', '.']

def S_IFMT : Nat := 0xF000
def S_IFSOCK : Nat := 0xC000
def S_IFLNK : Nat := 0xA000
def S_IFREG : Nat := 0x8000
def S_IFDIR : Nat := 0x4000

def EPERM : Int := 1
def ENOENT : Int := 2
def ENOTEMPTY : Int := 39

/-- The statuses of an inode that is no forwarder. -/
inductive Status where
  | invalid
  | ok
  | onStorage
  | unlinked
  deriving DecidableEq, Repr

structure Inode where
  direntries : OrderedMap Name Nat := .empty
  status : Status := .ok
  uid : Nat := 0
  gid : Nat := 0
  fid : Nat := 0
  major : Nat := 0
  minor : Nat := 0
  symlink : Name := []
  mode : Nat := 0x01ED
  qidType : Nat := 0
  qidVersion : Nat := 0
  qidPath : Nat
  nlinks : Int := 0
  deriving DecidableEq

structure FS where
  inodes : List Inode
  lastQidnumber : Nat
  deriving DecidableEq

/-- What a call gives: a number, `undefined`, or nothing, when it throws or never returns. -/
inductive Outcome where
  | value (ret : Int)
  | undefined
  | threw
  deriving DecidableEq, Repr

namespace FS

variable (s : FS)

def modifyInode (idx : Nat) (f : Inode → Inode) : FS :=
  { s with inodes := s.inodes.modify idx f }

/-- `Search`, for the number of an inode; -1 is `none`. -/
def search (parentid : Nat) (name : Name) : Option Nat :=
  s.inodes[parentid]?.bind (·.direntries.get? name)

def isDirectory (idx : Nat) : Bool :=
  match s.inodes[idx]? with
  | some inode => inode.mode &&& S_IFMT = S_IFDIR
  | none => false

def isEmpty (idx : Nat) : Bool :=
  match s.inodes[idx]? with
  | some inode => inode.direntries.keys.all fun name => name = dot ∨ name = dotdot
  | none => true

def linkUnderDir (parentid idx : Nat) (name : Name) : FS :=
  let s := s.modifyInode parentid fun p => { p with direntries := p.direntries.set name idx }
  let s := s.modifyInode idx fun inode => { inode with nlinks := inode.nlinks + 1 }
  if s.isDirectory idx then
    let s := if (s.search idx dot).isSome then s
      else s.modifyInode idx fun inode => { inode with nlinks := inode.nlinks + 1 }
    let s := s.modifyInode idx fun inode => { inode with direntries := inode.direntries.set dot idx }
    let s := s.modifyInode idx fun inode =>
      { inode with direntries := inode.direntries.set dotdot parentid }
    s.modifyInode parentid fun p => { p with nlinks := p.nlinks + 1 }
  else s

def unlinkFromDir (parentid : Nat) (name : Name) : FS :=
  match s.search parentid name with
  | none => s
  | some idx =>
    let s := s.modifyInode parentid fun p => { p with direntries := p.direntries.delete name }
    let s := s.modifyInode idx fun inode => { inode with nlinks := inode.nlinks - 1 }
    if s.isDirectory idx then
      let s := s.modifyInode idx fun inode =>
        { inode with direntries := inode.direntries.delete dotdot }
      s.modifyInode parentid fun p => { p with nlinks := p.nlinks - 1 }
    else s

/-- `PushInode`; the parent -1 is `none`, and only the root directory has it. -/
def pushInode (inode : Inode) (parentid : Option Nat) (name : Name) : FS :=
  match parentid with
  | some parentid =>
    let fid := s.inodes.length
    { s with inodes := s.inodes ++ [{ inode with fid }] }.linkUnderDir parentid fid name
  | none =>
    if s.inodes.length = 0 then
      { s with
        inodes := s.inodes ++
          [{ inode with direntries := (inode.direntries.set dot 0).set dotdot 0, nlinks := 2 }] }
    else s

/-- `CreateInode`: the filesystem with its counter moved on, and the inode. -/
def createInode : FS × Inode :=
  let qid := s.lastQidnumber + 1
  ({ s with lastQidnumber := qid }, { qidPath := qid })

def createDirectory (name : Name) (parentid : Option Nat) : FS × Outcome :=
  match parentid, parentid.bind (s.inodes[·]?) with
  | some _, none => (s, .threw)
  | _, parent =>
    let (s, x) := s.createInode
    let x := { x with mode := 0x01FF ||| S_IFDIR }
    let x := match parent with
      | some p => { x with uid := p.uid, gid := p.gid, mode := (p.mode &&& 0x1FF) ||| S_IFDIR }
      | none => x
    let x := { x with qidType := S_IFDIR >>> 8 }
    let s := s.pushInode x parentid name
    (s, .value (s.inodes.length - 1))

/-- What the calls that create other inodes share: `fill` sets the fields of the new inode. -/
def create (fill : Inode → Inode → Inode) (name : Name) (parentid : Nat) : FS × Outcome :=
  match s.inodes[parentid]? with
  | none => (s, .threw)
  | some parent =>
    let (s, x) := s.createInode
    let s := s.pushInode (fill parent { x with uid := parent.uid, gid := parent.gid })
      (some parentid) name
    (s, .value (s.inodes.length - 1))

def createFile : Name → Nat → FS × Outcome :=
  s.create fun parent x =>
    { x with qidType := S_IFREG >>> 8, mode := (parent.mode &&& 0x1B6) ||| S_IFREG }

def createNode (filename : Name) (parentid major minor : Nat) : FS × Outcome :=
  s.create (fun parent x =>
    { x with major, minor, qidType := S_IFSOCK >>> 8, mode := parent.mode &&& 0x1B6 })
    filename parentid

def createSymlink (filename : Name) (parentid : Nat) (symlink : Name) : FS × Outcome :=
  s.create (fun _ x => { x with qidType := S_IFLNK >>> 8, symlink, mode := S_IFLNK })
    filename parentid

def link (parentid targetid : Nat) (name : Name) : FS × Outcome :=
  match s.inodes[targetid]? with
  | none => (s, .threw)
  | some _ =>
    if s.isDirectory targetid then (s, .value (-EPERM))
    else
      match s.inodes[parentid]? with
      | none => (s, .threw)
      | some _ => (s.linkUnderDir parentid targetid name, .value 0)

/-- `Unlink`. For a name that is not there `IsDirectory(-1)` throws. -/
def unlink (parentid : Nat) (name : Name) : FS × Outcome :=
  if name = dot ∨ name = dotdot then (s, .value (-EPERM))
  else
    match s.search parentid name with
    | none => (s, .threw)
    | some idx =>
      match s.inodes[idx]? with
      | none => (s, .threw)
      | some _ =>
        if s.isDirectory idx ∧ ¬ s.isEmpty idx then (s, .value (-ENOTEMPTY))
        else
          let s := s.unlinkFromDir parentid name
          let s := s.modifyInode idx fun inode =>
            if inode.nlinks = 0 then { inode with status := .unlinked } else inode
          (s, .value 0)

/-- `GetDirectoryName`: `none` where the directory has no parent, `""` where the parent does not
hold it. -/
def getDirectoryName (idx : Nat) : Option Name :=
  (s.search idx dotdot).bind fun parentid =>
    s.inodes[parentid]?.map fun parent =>
      ((parent.direntries.entries.find? fun e => e.2 = idx).map Prod.fst).getD []

/-- The loop of `GetFullPath`. -/
def climb : Nat → Nat → Name → Option Name
  | _, 0, path => some path
  | 0, _ + 1, _ => none
  | fuel + 1, idx@(_ + 1), path => do
    let name ← s.getDirectoryName idx
    let parentid ← s.search idx dotdot
    climb fuel parentid ('/' :: name ++ path)

/-- `GetFullPath`. A walk up that meets more inodes than there are never ends. -/
def getFullPath (idx : Nat) : Option Name :=
  (s.climb s.inodes.length idx []).map (List.drop 1)

def rename (olddirid : Nat) (oldname : Name) (newdirid : Nat) (newname : Name) : FS × Outcome :=
  if olddirid = newdirid ∧ oldname = newname then (s, .value 0)
  else
    match s.inodes[olddirid]? with
    | none => (s, .threw)
    | some olddir =>
      match olddir.direntries.get? oldname with
      | none => (s, .value (-ENOENT))
      | some oldid =>
        match s.getFullPath olddirid, s.inodes[newdirid]? with
        | some _, some newdir =>
          match (if (newdir.direntries.get? newname).isSome then s.unlink newdirid newname
            else (s, .value 0)) with
          | (s', .value ret) =>
            if ret < 0 then (s', .value ret)
            else
              let s := s'.unlinkFromDir olddirid oldname
              let s := s.linkUnderDir newdirid oldid newname
              let s := s.modifyInode oldid fun inode =>
                { inode with qidVersion := inode.qidVersion + 1 }
              (s, .value 0)
          | (s', outcome) => (s', outcome)
        | _, _ => (s, .threw)

/-- What `SearchPath` gives; -1 is `none`, and so is `undefined` for a name. -/
structure PathInfo where
  id : Option Nat
  parentid : Option Nat
  name : Option Name
  deriving DecidableEq

/-- `path.replace("//", "/")`, which replaces the first occurrence only. -/
def replaceFirst : Name → Name
  | '/' :: '/' :: rest => '/' :: rest
  | c :: rest => c :: replaceFirst rest
  | [] => []

/-- The components `SearchPath` walks. -/
def components (path : Name) : List Name :=
  let walk := (replaceFirst path).splitOn '/'
  let walk := if walk.getLast? = some [] then walk.dropLast else walk
  if walk.head? = some [] then walk.tail else walk

/-- The loop of `SearchPath`; `none` where `Search` throws. -/
def walk (parentid : Option Nat) (id : Nat) : List Name → Option PathInfo
  | [] => some ⟨some id, parentid, none⟩
  | name :: rest =>
    s.inodes[id]?.bind fun parent =>
      match parent.direntries.get? name with
      | some child => walk (some id) child rest
      | none => some ⟨none, if rest = [] then some id else none, some name⟩

def searchPath (path : Name) : Option PathInfo :=
  s.walk none 0 (components path)

/-- `GetRecursiveList`; `none` where it throws or never ends. -/
def getRecursiveList : Nat → Nat → Option (List (Nat × Name))
  | 0, _ => none
  | fuel + 1, dirid => do
    let inode ← s.inodes[dirid]?
    let lists ← inode.direntries.entries.mapM fun (name, id) =>
      if name = dot ∨ name = dotdot then some []
      else
        let below := if s.isDirectory id then getRecursiveList fuel id else some []
        below.map fun tail => (dirid, name) :: tail
    return lists.flatten

/-- The loop of `RecursiveDelete`. -/
def unlinkAll (s : FS) : List (Nat × Name) → FS × Outcome
  | [] => (s, .undefined)
  | (parentid, name) :: rest =>
    match s.unlink parentid name with
    | (s', .threw) => (s', .threw)
    | (s', _) => unlinkAll s' rest

def recursiveDelete (path : Name) : FS × Outcome :=
  match s.searchPath path with
  | none => (s, .threw)
  | some ids =>
    match ids.id with
    | none => (s, .undefined)
    | some id =>
      match s.getRecursiveList s.inodes.length id with
      | none => (s, .threw)
      | some list => s.unlinkAll list.reverse

/-- `Unlink` of what `SearchPath` found: a name that is `undefined` is in no directory. -/
def unlinkFound (ids : PathInfo) : FS × Outcome :=
  match ids.parentid, ids.name with
  | some parentid, some name =>
    match s.unlink parentid name with
    | (s', .threw) => (s', .threw)
    | (s', _) => (s', .undefined)
  | _, _ => (s, .threw)

def deleteNode (path : Name) : FS × Outcome :=
  match s.searchPath path with
  | none => (s, .threw)
  | some ids =>
    match ids.id with
    | none => (s, .undefined)
    | some id =>
      match s.inodes[id]? with
      | none => (s, .threw)
      | some inode =>
        if inode.mode &&& S_IFMT = S_IFREG then s.unlinkFound ids
        else if inode.mode &&& S_IFMT = S_IFDIR then
          match s.recursiveDelete path with
          | (s', .threw) => (s', .threw)
          | (s', _) => s'.unlinkFound ids
        else (s, .undefined)

/-- A filesystem as `FS` leaves it, with the root directory only. -/
def new : FS := (createDirectory ⟨[], 0⟩ [] none).1

end FS

end V86.Fs
