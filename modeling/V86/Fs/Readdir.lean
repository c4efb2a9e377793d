import V86.Fs.Marshall
import V86.Fs.Tree

/-!
# Directory listings

`FillDirectory` and `RoundToDirentry` of `lib/filesystem.js`, and the answer of `lib/9p.js` to a
`Treaddir` on a directory. A client decodes the entries of a reply and goes on at the offset of the
last one that it has received.
-/

namespace V86.Fs

/-- An entry of a listing. -/
structure Entry where
  qid : Qid
  offset : Nat
  type : Nat
  name : String
  deriving DecidableEq

namespace Entry

/-- The items of an entry. -/
def items (e : Entry) : List Item := [.Q e.qid, .d e.offset, .b e.type, .s e.name]

end Entry

/-- The size of an entry with a name. -/
def entrySize (name : Name) : Nat := 13 + 8 + 1 + 2 + (encode (String.ofList name)).length

/-- The entry at an offset for a name and its inode. -/
def entryOf (child : Inode) (offset : Nat) (name : Name) : Entry where
  qid := ⟨child.qidType, child.qidVersion, child.qidPath⟩
  offset := offset + entrySize name
  type := child.mode >>> 12
  name := String.ofList name

/-- What a `Treaddir` is answered. -/
inductive Reply where
  | error (errno : Int)
  | read (count : Int) (data : List UInt8)

/-- The loop of `RoundToDirentry`, in a number of rounds. -/
def roundLoop (data : List UInt8) (offsetTarget : Int) : Nat → Nat → Option Nat
  | 0, _ => none
  | rounds + 1, offset =>
    match unmarshall [.Q, .d] data offset with
    | some ([_, .d nextOffset], _) =>
      if (nextOffset : Int) > offsetTarget then some offset
      else roundLoop data offsetTarget rounds nextOffset
    | _ => none

/-- `RoundToDirentry` in the data of a directory. -/
def roundToDirentry (data : List UInt8) (offsetTarget : Int) : Option Nat :=
  if offsetTarget ≥ data.length then some data.length
  else roundLoop data offsetTarget (data.length + 1) 0

/-- How much of the data of a directory the reply has. -/
def replyCount (data : List UInt8) (replybufferLength offset count : Nat) : Option Int :=
  let count : Int := min count (replybufferLength - (7 + 4))
  let count :=
    if (data.length : Int) < offset + count then some ((data.length : Int) - offset)
    -- for directories, a whole number of entries
    else (roundToDirentry data (offset + count)).map fun (n : Nat) => (n : Int) - offset
  if offset > data.length then some 0 else count

namespace FS

variable (s : FS)

/-- A round of the loop of `FillDirectory`: an entry goes into the data. -/
def fillEntry (state : List UInt8 × Nat) (entry : Name × Nat) : Option (List UInt8 × Nat) := do
  let (data, offset) := state
  let (name, id) := entry
  let child ← s.inodes[id]?
  let (data, size) ← marshall (entryOf child offset name).items data offset
  return (data, offset + size)

/-- `FillDirectory`: the data of a directory, whose length becomes its size. -/
def fillDirectory (inode : Inode) : Option (List UInt8) :=
  let size := (inode.direntries.keys.map entrySize).sum
  (inode.direntries.entries.foldlM s.fillEntry (List.replicate size 0, 0)).map Prod.fst

/-- A `Treaddir` on a directory. -/
def treaddir (dirid replybufferLength offset count : Nat) : Option Reply :=
  match s.inodes[dirid]? with
  | none => some (.error ENOENT)
  | some inode =>
    if inode.status = .unlinked then some (.error ENOENT)
    else do
      let data ← s.fillDirectory inode
      let count ← replyCount data replybufferLength offset count
      return .read count ((data.drop offset).take count.toNat)

end FS

/-! ## The client -/

/-- The entries in the data of a reply, if they fill it, in a number of rounds. -/
def unmarshallEntries (data : List UInt8) : Nat → Nat → Option (List Entry)
  | 0, _ => none
  | rounds + 1, offset =>
    if offset = data.length then some []
    else
      match unmarshall [.Q, .d, .b, .s] data offset with
      | some ([.Q qid, .d next, .b type, .s name], offset) =>
        (unmarshallEntries data rounds offset).map fun es => ⟨qid, next, type, name⟩ :: es
      | _ => none

namespace FS

variable (s : FS)

/-- Requests with the given counts, each from the offset of the last entry received on: the
entries of each reply. -/
def readEntries (dirid replybufferLength : Nat) : List Nat → Nat → Option (List (List Entry))
  | [], _ => some []
  | count :: counts, offset =>
    match s.treaddir dirid replybufferLength offset count with
    | some (.read length data) =>
      if length = data.length then
        (unmarshallEntries data (data.length + 1) 0).bind fun es =>
          (readEntries dirid replybufferLength counts
            ((es.getLast?.map Entry.offset).getD offset)).map (es :: ·)
      else none
    | _ => none

/-- The entries of a directory from an offset on. -/
def listing : Nat → List (Name × Nat) → List Entry
  | _, [] => []
  | offset, (name, id) :: entries =>
    match s.inodes[id]? with
    | none => listing offset entries
    | some child => entryOf child offset name :: listing (offset + entrySize name) entries

end FS

end V86.Fs
