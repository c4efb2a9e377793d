import V86.Fs.Readdir
import Mathlib.Data.List.Infix
import Mathlib.Data.List.TakeWhile

/-!
# A listing has each entry once

The data of a directory are its entries one after another (`fillDirectory_eq`), `RoundToDirentry`
finds the end of the last one that ends by an offset (`roundToDirentry_eq`), and so a client that
goes on where it is left the entries of the replies in order, each once.
-/

namespace V86.Fs

open Bytes List

namespace Entry

/-- The bytes of an entry. -/
def bytes (e : Entry) : List UInt8 := e.items.flatMap Item.bytes

/-- An entry with its numbers cut to their bytes. -/
def wire (e : Entry) : Entry where
  qid := ⟨e.qid.type % 2 ^ 8, e.qid.version % 2 ^ 32, e.qid.path % 2 ^ 32⟩
  offset := e.offset % 2 ^ 32
  type := e.type % 2 ^ 8
  name := e.name

theorem length_bytes (e : Entry) : e.bytes.length = 24 + (encode e.name).length := by
  simp only [bytes, items, flatMap_cons, flatMap_nil, Item.bytes, length_append,
    length_le, length_replicate, length_nil]
  omega

/-- Entries one after another from an offset on. -/
def Chain : Nat → List Entry → Prop
  | _, [] => True
  | offset, e :: es => e.offset = offset + e.bytes.length ∧ Chain e.offset es

/-- Names whose lengths fit and that have no mark to lose. -/
def Readable (e : Entry) : Prop := (Item.s e.name).Readable

end Entry

open Entry

variable {s : FS} {es done left : List Entry} {e : Entry} {data : List UInt8}
  {entries : List (Name × Nat)} {offset target : Nat}

/-! ## The data of a directory -/

@[simp] theorem length_bytes_entryOf (child : Inode) (offset : Nat) (name : Name) :
    (entryOf child offset name).bytes.length = entrySize name := by
  rw [length_bytes, entrySize, entryOf]

/-- A round of `FillDirectory` adds the bytes of an entry. -/
theorem fillEntry_eq {name : Name} {id : Nat} {child : Inode} (hchild : s.inodes[id]? = some child)
    (done rest : List UInt8) (hrest : entrySize name ≤ rest.length) :
    s.fillEntry (done ++ rest, done.length) (name, id) =
      some (done ++ (entryOf child done.length name).bytes ++ rest.drop (entrySize name),
        done.length + entrySize name) := by
  have hlength := length_bytes_entryOf child done.length name
  rw [← hlength] at hrest
  have hmarshall := marshall_append (entryOf child done.length name).items done rest hrest
  rw [← Entry.bytes, hlength] at hmarshall
  rw [FS.fillEntry, hchild, Option.bind_eq_bind, Option.bind_some]
  dsimp only
  rw [hmarshall]
  rfl

theorem chain_listing (h : ∀ entry ∈ entries, entry.2 < s.inodes.length) :
    Chain offset (s.listing offset entries) := by
  induction entries generalizing offset with
  | nil => trivial
  | cons entry entries ih =>
    obtain ⟨name, id⟩ := entry
    have hchild := List.getElem?_eq_getElem (h (name, id) mem_cons_self)
    rw [FS.listing, hchild]
    exact ⟨by rw [length_bytes_entryOf, entryOf],
      ih fun entry hentry => h entry (mem_cons_of_mem _ hentry)⟩

theorem length_flatMap_listing (h : ∀ entry ∈ entries, entry.2 < s.inodes.length) :
    ((s.listing offset entries).flatMap Entry.bytes).length =
      (entries.map fun entry => entrySize entry.1).sum := by
  induction entries generalizing offset with
  | nil => rfl
  | cons entry entries ih =>
    obtain ⟨name, id⟩ := entry
    have hchild := List.getElem?_eq_getElem (h (name, id) mem_cons_self)
    rw [FS.listing, hchild, flatMap_cons, length_append, length_bytes_entryOf,
      ih fun entry hentry => h entry (mem_cons_of_mem _ hentry), map_cons, sum_cons]

theorem foldlM_fillEntry (h : ∀ entry ∈ entries, entry.2 < s.inodes.length) (done rest : List UInt8)
    (hrest : (entries.map fun entry => entrySize entry.1).sum = rest.length) :
    (entries.foldlM s.fillEntry (done ++ rest, done.length)).map Prod.fst =
      some (done ++ (s.listing done.length entries).flatMap Entry.bytes) := by
  induction entries generalizing done rest with
  | nil =>
    rw [map_nil, sum_nil] at hrest
    rw [eq_nil_of_length_eq_zero hrest.symm]
    rfl
  | cons entry entries ih =>
    obtain ⟨name, id⟩ := entry
    obtain ⟨child, hchild⟩ : ∃ child, s.inodes[id]? = some child :=
      ⟨_, List.getElem?_eq_getElem (h (name, id) mem_cons_self)⟩
    rw [map_cons, sum_cons] at hrest
    have hfits : entrySize name ≤ rest.length := by
      rw [← hrest]
      exact Nat.le_add_right _ _
    have hfill := fillEntry_eq hchild done rest hfits
    have hnext := ih (fun entry hentry => h entry (mem_cons_of_mem _ hentry))
      (done ++ (entryOf child done.length name).bytes) (rest.drop (entrySize name)) (by
        rw [length_drop, ← hrest, Nat.add_sub_cancel_left])
    rw [length_append, length_bytes_entryOf] at hnext
    rw [foldlM_cons, hfill, Option.bind_eq_bind, Option.bind_some, hnext, FS.listing, hchild,
      flatMap_cons, append_assoc]

/-- The data of a directory are its entries one after another. -/
theorem fillDirectory_eq {inode : Inode}
    (h : ∀ entry ∈ inode.direntries.entries, entry.2 < s.inodes.length) : s.fillDirectory inode =
      some ((s.listing 0 inode.direntries.entries).flatMap Entry.bytes) := by
  have hsize : (inode.direntries.keys.map entrySize).sum =
      (inode.direntries.entries.map fun entry => entrySize entry.1).sum := by
    rw [OrderedMap.keys, List.map_map]
    rfl
  have hfill := foldlM_fillEntry h []
    (List.replicate (inode.direntries.keys.map entrySize).sum 0) (by rw [length_replicate, hsize])
  rw [FS.fillDirectory]
  exact hfill

/-! ## Ends of entries -/

theorem Entry.Chain.append (h : Chain offset (done ++ left)) :
    Chain (offset + (done.flatMap Entry.bytes).length) left := by
  induction done generalizing offset with
  | nil => exact h
  | cons e done ih =>
    have hrest := ih h.2
    rw [h.1, Nat.add_assoc] at hrest
    rwa [flatMap_cons, length_append]

theorem Entry.Chain.first (h : Chain offset (done ++ left)) : Chain offset done := by
  induction done generalizing offset with
  | nil => trivial
  | cons e done ih => exact ⟨h.1, ih h.2⟩

theorem length_flatMap_append (done left : List Entry) :
    ((done ++ left).flatMap Entry.bytes).length =
      (done.flatMap Entry.bytes).length + (left.flatMap Entry.bytes).length := by
  rw [flatMap_append, length_append]

/-- The offset of an entry is the end of its bytes. -/
theorem Entry.Chain.getLast? (h : Chain offset es) :
    (es.getLast?.map Entry.offset).getD offset = offset + (es.flatMap Entry.bytes).length := by
  induction es generalizing offset with
  | nil => rfl
  | cons e es ih =>
    have hrest := ih h.2
    rw [h.1, Nat.add_assoc] at hrest
    rw [flatMap_cons, length_append, ← hrest]
    cases es with
    | nil =>
      show e.offset = _
      rw [h.1]
      rfl
    | cons e' es =>
      rw [List.getLast?_cons_cons]
      cases hlast : (e' :: es).getLast? with
      | none => simp at hlast
      | some last => rfl

theorem Entry.Chain.offset_le (h : Chain offset es) (he : e ∈ es) :
    e.offset ≤ offset + (es.flatMap Entry.bytes).length := by
  induction es generalizing offset with
  | nil => exact absurd he not_mem_nil
  | cons e' es ih =>
    have hfirst := h.1
    rw [flatMap_cons, length_append]
    rcases List.mem_cons.1 he with rfl | he
    · omega
    · have hrest := ih h.2 he
      omega

/-! ## Whole entries -/

/-- The entries that end by an offset. -/
def endBy (target : Nat) (es : List Entry) : List Entry := es.takeWhile (·.offset ≤ target)

theorem endBy_cons_of_le (h : e.offset ≤ target) : endBy target (e :: es) = e :: endBy target es :=
  takeWhile_cons_of_pos (decide_eq_true h)

theorem endBy_cons_of_lt (h : target < e.offset) : endBy target (e :: es) = [] :=
  takeWhile_cons_of_neg (by simpa using h)

theorem endBy_append_of_le (h : ∀ e ∈ done, e.offset ≤ target) :
    endBy target (done ++ left) = done ++ endBy target left := by
  induction done with
  | nil => rfl
  | cons e done ih =>
    rw [cons_append, endBy_cons_of_le (h e mem_cons_self),
      ih fun e he => h e (mem_cons_of_mem _ he), cons_append]

/-- The qid and the offset of an entry are read back. -/
theorem unmarshall_head (h : e.bytes <+: data.drop offset) (hle : offset ≤ data.length)
    (hsize : e.offset < 2 ^ 32) :
    ∃ item next, unmarshall [.Q, .d] data offset = some ([item, .d e.offset], next) := by
  have hitems : e.bytes = [.Q e.qid, .d e.offset].flatMap Item.bytes ++
      [.b e.type, .s e.name].flatMap Item.bytes := by
    rw [Entry.bytes, ← flatMap_append]
    rfl
  rw [hitems] at h
  have hread := unmarshall_bytes (prefix_drop_append h).1 hle (by
    intro item hitem
    rcases List.mem_cons.1 hitem with rfl | hitem
    · trivial
    · rw [List.mem_singleton.1 hitem]
      trivial)
  have hwire : (Item.d e.offset).wire = .d e.offset := by
    rw [Item.wire, Nat.mod_eq_of_lt hsize]
  simp only [map_cons, map_nil, hwire] at hread
  exact ⟨_, _, hread⟩

theorem prefix_drop_flatMap (done left : List Entry) (e : Entry) :
    e.bytes <+: ((done ++ e :: left).flatMap Entry.bytes).drop (done.flatMap Entry.bytes).length := by
  rw [flatMap_append, drop_left, flatMap_cons]
  exact prefix_append _ _

/-- `RoundToDirentry` stops at the end of the last entry that ends by the target. -/
theorem roundLoop_eq (hchain : Chain (done.flatMap Entry.bytes).length left)
    (hsize : ∀ e ∈ left, e.offset < 2 ^ 32)
    (hlt : target < ((done ++ left).flatMap Entry.bytes).length)
    (hge : (done.flatMap Entry.bytes).length ≤ target) {rounds : Nat}
    (hrounds : left.length < rounds) :
    roundLoop ((done ++ left).flatMap Entry.bytes) target rounds (done.flatMap Entry.bytes).length =
      some ((done ++ endBy target left).flatMap Entry.bytes).length := by
  induction left generalizing done rounds with
  | nil =>
    rw [append_nil] at hlt
    omega
  | cons e left ih =>
    obtain ⟨rounds, rfl⟩ : ∃ n, rounds = n + 1 := ⟨rounds - 1, by omega⟩
    have hle : (done.flatMap Entry.bytes).length ≤
        ((done ++ e :: left).flatMap Entry.bytes).length := by omega
    obtain ⟨item, next, hread⟩ := unmarshall_head (prefix_drop_flatMap done left e) hle
      (hsize e mem_cons_self)
    rw [roundLoop, hread]
    dsimp only
    rcases Nat.lt_or_ge target e.offset with hstop | hgo
    · rw [if_pos (by omega), endBy_cons_of_lt hstop, append_nil]
    · rw [if_neg (by omega), endBy_cons_of_le hgo]
      have hdone : ((done ++ [e]).flatMap Entry.bytes).length = e.offset := by
        rw [length_flatMap_append, flatMap_singleton, hchain.1]
      have happend : ∀ l : List Entry, done ++ e :: l = (done ++ [e]) ++ l := fun l => by simp
      rw [happend left, happend (endBy target left), ← hdone]
      rw [happend left] at hlt
      refine ih ?_ (fun e' he' => hsize e' (mem_cons_of_mem _ he')) hlt (by omega) ?_
      · rw [hdone]
        exact hchain.2
      · rw [length_cons] at hrounds
        omega

theorem length_le_flatMap (es : List Entry) : es.length ≤ (es.flatMap Entry.bytes).length := by
  induction es with
  | nil => exact Nat.le_refl 0
  | cons e es ih =>
    rw [flatMap_cons, length_append, length_cons, length_bytes]
    omega

theorem roundToDirentry_eq (hchain : Chain 0 es) (hsize : ∀ e ∈ es, e.offset < 2 ^ 32) :
    roundToDirentry (es.flatMap Entry.bytes) target =
      some ((endBy target es).flatMap Entry.bytes).length := by
  rw [roundToDirentry]
  split
  case isTrue hge =>
    have hall : endBy target es = es := by
      rw [endBy, takeWhile_eq_self_iff]
      intro e he
      have hle := hchain.offset_le he
      rw [decide_eq_true_eq]
      omega
    rw [hall]
  case isFalse hlt =>
    have hrounds := length_le_flatMap es
    exact @roundLoop_eq [] es target hchain hsize (by rw [nil_append]; omega) (Nat.zero_le _)
      _ (Nat.lt_succ_of_le hrounds)

/-! ## Replies -/

variable {replybufferLength : Nat}

/-- A reply ends with the last entry for which the count and the buffer have room. -/
theorem replyCount_eq (count : Nat) (hchain : Chain 0 (done ++ left))
    (hsize : ∀ e ∈ done ++ left, e.offset < 2 ^ 32) (hbuffer : 11 ≤ replybufferLength) :
    replyCount ((done ++ left).flatMap Entry.bytes) replybufferLength
        (done.flatMap Entry.bytes).length count =
      some (((endBy ((done.flatMap Entry.bytes).length + min count (replybufferLength - 11))
        left).flatMap Entry.bytes).length : Int) := by
  have hmin : min (count : Int) (replybufferLength - (7 + 4)) =
      (min count (replybufferLength - 11) : Nat) := by omega
  have hlength := length_flatMap_append done left
  rw [replyCount, hmin]
  generalize min count (replybufferLength - 11) = count
  rw [if_neg (by omega)]
  split
  case isTrue hlt =>
    have hall : endBy ((done.flatMap Entry.bytes).length + count) left = left := by
      rw [endBy, takeWhile_eq_self_iff]
      intro e he
      have hle := hchain.offset_le (mem_append_right done he)
      rw [decide_eq_true_eq]
      omega
    rw [hall]
    congr 1
    omega
  case isFalse =>
    have hdone : ∀ e ∈ done, e.offset ≤ (done.flatMap Entry.bytes).length + count := by
      intro e he
      have hle := hchain.first.offset_le he
      omega
    have hround := @roundToDirentry_eq _ ((done.flatMap Entry.bytes).length + count) hchain hsize
    rw [endBy_append_of_le hdone, length_flatMap_append done (endBy _ _)] at hround
    have hcast : (((done.flatMap Entry.bytes).length + count : Nat) : Int) =
        ((done.flatMap Entry.bytes).length : Int) + count := rfl
    rw [← hcast, hround, Option.map_some]
    congr 1
    omega

/-- A client decodes the entries of a reply. -/
theorem unmarshallEntries_eq (hread : ∀ e ∈ left, e.Readable) {rounds : Nat}
    (hrounds : left.length < rounds) : unmarshallEntries ((done ++ left).flatMap Entry.bytes) rounds
        (done.flatMap Entry.bytes).length = some (left.map Entry.wire) := by
  induction left generalizing done rounds with
  | nil =>
    obtain ⟨rounds, rfl⟩ : ∃ n, rounds = n + 1 := ⟨rounds - 1, by omega⟩
    rw [append_nil, unmarshallEntries, if_pos rfl]
    rfl
  | cons e left ih =>
    obtain ⟨rounds, rfl⟩ : ∃ n, rounds = n + 1 := ⟨rounds - 1, by omega⟩
    have hlength : ((done ++ e :: left).flatMap Entry.bytes).length =
        (done.flatMap Entry.bytes).length + e.bytes.length + (left.flatMap Entry.bytes).length := by
      rw [length_flatMap_append, flatMap_cons, length_append, Nat.add_assoc]
    have hpos := length_bytes e
    have hitems := unmarshall_bytes (prefix_drop_flatMap done left e) (by omega) (by
      intro item hitem
      simp only [Entry.items, mem_cons, not_mem_nil, or_false] at hitem
      rcases hitem with rfl | rfl | rfl | rfl
      · trivial
      · trivial
      · trivial
      · exact hread e mem_cons_self)
    have hitems' : unmarshall [.Q, .d, .b, .s] ((done ++ e :: left).flatMap Entry.bytes)
        (done.flatMap Entry.bytes).length =
          some (e.items.map Item.wire, ((done ++ [e]).flatMap Entry.bytes).length) := by
      rw [length_flatMap_append, flatMap_singleton]
      exact hitems
    rw [unmarshallEntries, if_neg (by omega), hitems', Entry.items]
    have happend : done ++ e :: left = (done ++ [e]) ++ left := by simp
    rw [length_cons] at hrounds
    have hrest := @ih (done ++ [e]) (fun e' he' => hread e' (mem_cons_of_mem _ he')) rounds
      (by omega)
    rw [← happend] at hrest
    simp only [map_cons, map_nil, Item.wire]
    rw [hrest]
    rfl

/-! ## Runs of requests -/

variable {dirid : Nat} {inode : Inode}

theorem treaddir_eq (count : Nat) (hinode : s.inodes[dirid]? = some inode)
    (hlinked : inode.status ≠ .unlinked)
    (hids : ∀ entry ∈ inode.direntries.entries, entry.2 < s.inodes.length)
    (hes : s.listing 0 inode.direntries.entries = done ++ left)
    (hsize : ∀ e ∈ done ++ left, e.offset < 2 ^ 32) (hbuffer : 11 ≤ replybufferLength) :
    s.treaddir dirid replybufferLength (done.flatMap Entry.bytes).length count =
      some (.read ((endBy ((done.flatMap Entry.bytes).length + min count (replybufferLength - 11))
          left).flatMap Entry.bytes).length
        ((endBy ((done.flatMap Entry.bytes).length + min count (replybufferLength - 11))
          left).flatMap Entry.bytes)) := by
  have hchain : Chain 0 (done ++ left) := by
    rw [← hes]
    exact chain_listing hids
  have hfill := fillDirectory_eq hids
  rw [hes] at hfill
  have hcount := replyCount_eq count hchain hsize hbuffer
  rw [FS.treaddir, hinode]
  dsimp only
  rw [if_neg hlinked, hfill, Option.bind_eq_bind, Option.bind_some, hcount, Option.bind_eq_bind,
    Option.bind_some, flatMap_append, drop_left]
  generalize (done.flatMap Entry.bytes).length + min count (replybufferLength - 11) = target
  have hprefix : (endBy target left).flatMap Entry.bytes <+: left.flatMap Entry.bytes := by
    conv => rhs; rw [← takeWhile_append_dropWhile (p := (·.offset ≤ target)) (l := left)]
    rw [flatMap_append]
    exact prefix_append _ _
  rw [Int.toNat_natCast, ← List.prefix_iff_eq_take.1 hprefix]
  rfl

theorem wire_offset (h : e.offset < 2 ^ 32) : e.wire.offset = e.offset := Nat.mod_eq_of_lt h

/-- The replies to requests that go on where the last one left off. -/
structure Lists (replies : List (List Entry)) (left : List Entry) (requests : Nat) : Prop where
  length : replies.length = requests
  inOrder : replies.flatten <+: left
  empty : ∀ i reply, replies[i]? = some reply → (reply = [] ↔ (replies.take i).flatten = left)
  all : left.length ≤ requests → replies.flatten = left

/-- A reply followed by the replies to the rest. -/
theorem Lists.cons {replies : List (List Entry)} {reply left : List Entry} {requests : Nat}
    (h : Lists replies left requests) (hreply : reply = [] → left = []) :
    Lists (reply :: replies) (reply ++ left) (requests + 1) where
  length := congrArg Nat.succ h.length
  inOrder := by
    rw [flatten_cons]
    exact (prefix_append_right_inj reply).2 h.inOrder
  empty i r hr := by
    cases i with
    | zero =>
      obtain rfl : reply = r := Option.some.inj hr
      rw [take_zero, flatten_nil]
      refine ⟨fun hnil => ?_, fun hnil => (List.append_eq_nil_iff.1 hnil.symm).1⟩
      rw [hnil, hreply hnil, append_nil]
    | succ i =>
      rw [take_succ_cons, flatten_cons, append_cancel_left_eq]
      exact h.empty i r hr
  all hle := by
    rw [flatten_cons, append_cancel_left_eq]
    refine h.all ?_
    cases reply with
    | nil =>
      rw [hreply rfl]
      exact Nat.zero_le _
    | cons e reply =>
      rw [length_append, length_cons] at hle
      omega

/-- A request takes the entries that the count and the buffer have room for, and the next one goes
on after them. -/
theorem readEntries_cons (hinode : s.inodes[dirid]? = some inode)
    (hlinked : inode.status ≠ .unlinked)
    (hids : ∀ entry ∈ inode.direntries.entries, entry.2 < s.inodes.length) {reply : List Entry}
    (hes : s.listing 0 inode.direntries.entries = done ++ (reply ++ left))
    (hsize : ∀ e ∈ done ++ (reply ++ left), e.offset < 2 ^ 32) (hread : ∀ e ∈ reply, e.Readable)
    (hbuffer : 11 ≤ replybufferLength) (count : Nat) (counts : List Nat)
    (hreply : endBy ((done.flatMap Entry.bytes).length + min count (replybufferLength - 11))
      (reply ++ left) = reply) :
    s.readEntries dirid replybufferLength (count :: counts) (done.flatMap Entry.bytes).length =
      (s.readEntries dirid replybufferLength counts
        ((done ++ reply).flatMap Entry.bytes).length).map (reply.map Entry.wire :: ·) := by
  have hdir := treaddir_eq count hinode hlinked hids hes hsize hbuffer
  rw [hreply] at hdir
  have hdecode : unmarshallEntries (reply.flatMap Entry.bytes)
      ((reply.flatMap Entry.bytes).length + 1) 0 = some (reply.map Entry.wire) :=
    @unmarshallEntries_eq [] reply hread _ (Nat.lt_succ_of_le (length_le_flatMap reply))
  have hlast : ((reply.map Entry.wire).getLast?.map Entry.offset).getD
      (done.flatMap Entry.bytes).length = ((done ++ reply).flatMap Entry.bytes).length := by
    have hchain : Chain (done.flatMap Entry.bytes).length reply := by
      have hall : Chain 0 (done ++ (reply ++ left)) := by
        rw [← hes]
        exact chain_listing hids
      have hafter := hall.append
      rw [Nat.zero_add] at hafter
      exact hafter.first
    rw [length_flatMap_append, ← hchain.getLast?, List.getLast?_map, Option.map_map]
    cases hlast : reply.getLast? with
    | none => rfl
    | some e =>
      have hmem := List.mem_of_getLast? hlast
      exact wire_offset (hsize e (mem_append_right _ (mem_append_left _ hmem)))
  rw [FS.readEntries, hdir]
  dsimp only
  rw [if_pos rfl, hdecode, Option.bind_some, hlast]

theorem readEntries_eq (hinode : s.inodes[dirid]? = some inode) (hlinked : inode.status ≠ .unlinked)
    (hids : ∀ entry ∈ inode.direntries.entries, entry.2 < s.inodes.length) {counts : List Nat}
    (hes : s.listing 0 inode.direntries.entries = done ++ left)
    (hsize : ∀ e ∈ done ++ left, e.offset < 2 ^ 32) (hread : ∀ e ∈ left, e.Readable)
    (hbuffer : 11 ≤ replybufferLength) (hfits : ∀ e ∈ left, 11 + e.bytes.length ≤ replybufferLength)
    (hcounts : ∀ count ∈ counts, ∀ e ∈ left, e.bytes.length ≤ count) :
    ∃ replies, s.readEntries dirid replybufferLength counts (done.flatMap Entry.bytes).length =
        some replies ∧ Lists replies (left.map Entry.wire) counts.length := by
  induction counts generalizing done left with
  | nil =>
    refine ⟨[], rfl, rfl, nil_prefix, nofun, fun hle => ?_⟩
    rw [eq_nil_of_length_eq_zero (Nat.le_zero.1 hle)]
    rfl
  | cons count counts ih =>
    obtain ⟨target, htarget⟩ : ∃ n, n =
      (done.flatMap Entry.bytes).length + min count (replybufferLength - 11) := ⟨_, rfl⟩
    have hprogress : endBy target left = [] → left = [] := by
      cases left with
      | nil => exact fun _ => rfl
      | cons e left =>
        intro hnil
        have hchain : Chain 0 (done ++ e :: left) := by
          rw [← hes]
          exact chain_listing hids
        have hoffset := hchain.append.1
        have hcount := hcounts count mem_cons_self e mem_cons_self
        have hroom := hfits e mem_cons_self
        rw [endBy_cons_of_le (by omega)] at hnil
        cases hnil
    obtain ⟨reply, rest, rfl, hreply⟩ :
        ∃ reply rest, left = reply ++ rest ∧ endBy target left = reply :=
      ⟨_, _, List.takeWhile_append_dropWhile.symm, rfl⟩
    rw [hreply] at hprogress
    have hstep := readEntries_cons hinode hlinked hids hes hsize
      (fun e he => hread e (mem_append_left _ he)) hbuffer count counts (htarget ▸ hreply)
    rw [← append_assoc] at hes hsize
    obtain ⟨replies, hreplies, hlists⟩ := ih hes hsize
      (fun e he => hread e (mem_append_right _ he))
      (fun e he => hfits e (mem_append_right _ he))
      (fun count hcount e he =>
        hcounts count (mem_cons_of_mem _ hcount) e (mem_append_right _ he))
    refine ⟨reply.map Entry.wire :: replies, ?_, ?_⟩
    · rw [hstep, hreplies]
      rfl
    · rw [map_append]
      refine hlists.cons fun hnil => ?_
      have hrest := hprogress (List.map_eq_nil_iff.1 hnil)
      rw [(List.append_eq_nil_iff.1 hrest).2]
      rfl

/-! ## Whole listings -/

/-- A directory that requests can list: its entries name inodes, and their offsets and the lengths
of their names fit. -/
structure Listable (s : FS) (inode : Inode) : Prop where
  linked : inode.status ≠ .unlinked
  ids : ∀ entry ∈ inode.direntries.entries, entry.2 < s.inodes.length
  names : ∀ name ∈ inode.direntries.keys, (encode (String.ofList name)).length < 2 ^ 16
  size : (inode.direntries.keys.map entrySize).sum < 2 ^ 32

/-- The replies to requests with the given counts list the directory, each entry once. -/
def ListsOnce (s : FS) (dirid : Nat) (inode : Inode) (replybufferLength : Nat)
    (counts : List Nat) : Prop :=
  ∃ replies, s.readEntries dirid replybufferLength counts 0 = some replies ∧
    Lists replies ((s.listing 0 inode.direntries.entries).map Entry.wire) counts.length

theorem mem_listing (h : e ∈ s.listing offset entries) :
    ∃ entry ∈ entries, e.name = String.ofList entry.1 ∧ e.bytes.length = entrySize entry.1 := by
  induction entries generalizing offset with
  | nil => exact absurd h not_mem_nil
  | cons entry entries ih =>
    obtain ⟨name, id⟩ := entry
    rw [FS.listing] at h
    split at h
    · obtain ⟨entry, hentry, heq⟩ := ih h
      exact ⟨entry, mem_cons_of_mem _ hentry, heq⟩
    · rcases List.mem_cons.1 h with rfl | h
      · exact ⟨(name, id), mem_cons_self, rfl, length_bytes_entryOf _ _ _⟩
      · obtain ⟨entry, hentry, heq⟩ := ih h
        exact ⟨entry, mem_cons_of_mem _ hentry, heq⟩

/-- With room for the largest entry, and names without byte order marks, a directory is listed. -/
theorem treaddir_lists_once {dirid : Nat} {inode : Inode} {counts : List Nat}
    (hinode : s.inodes[dirid]? = some inode) (h : Listable s inode)
    (hmarks : ∀ name ∈ inode.direntries.keys,
      byteOrderMark.isPrefixOf (encode (String.ofList name)) = false)
    (hbuffer : 11 ≤ replybufferLength)
    (hroom : ∀ name ∈ inode.direntries.keys, 11 + entrySize name ≤ replybufferLength)
    (hcounts : ∀ count ∈ counts, ∀ name ∈ inode.direntries.keys, entrySize name ≤ count) :
    ListsOnce s dirid inode replybufferLength counts := by
  have hkey : ∀ e ∈ s.listing 0 inode.direntries.entries, ∃ name ∈ inode.direntries.keys,
      e.name = String.ofList name ∧ e.bytes.length = entrySize name := by
    intro e he
    obtain ⟨entry, hentry, heq⟩ := mem_listing he
    exact ⟨entry.1, mem_map_of_mem hentry, heq⟩
  have hchain : Chain 0 (s.listing 0 inode.direntries.entries) := chain_listing h.ids
  have hsize : ∀ e ∈ s.listing 0 inode.direntries.entries, e.offset < 2 ^ 32 := by
    intro e he
    have hle := hchain.offset_le he
    rw [length_flatMap_listing h.ids] at hle
    have htotal := h.size
    rw [OrderedMap.keys, List.map_map] at htotal
    exact Nat.lt_of_le_of_lt (by rwa [Nat.zero_add] at hle) htotal
  exact @readEntries_eq s [] _ replybufferLength dirid inode hinode h.linked h.ids counts rfl hsize
    (fun e he => by
      obtain ⟨name, hname, heq, -⟩ := hkey e he
      show _ < 2 ^ 16 ∧ _ = false
      rw [heq]
      exact ⟨h.names name hname, hmarks name hname⟩)
    hbuffer
    (fun e he => by
      obtain ⟨name, hname, -, heq⟩ := hkey e he
      rw [heq]
      exact hroom name hname)
    (fun count hcount e he => by
      obtain ⟨name, hname, -, heq⟩ := hkey e he
      rw [heq]
      exact hcounts count hcount name hname)

/-- A directory of two names. -/
def twoNames : FS where
  inodes := [
    { direntries := ⟨[(['.'], 0), (['a', 'b'], 1)], by decide⟩, mode := 0x41FF, qidPath := 1 },
    { mode := 0x81A4, qidPath := 2 }]
  lastQidnumber := 2

theorem treaddir_lists_once_twoNames :
    ListsOnce twoNames 0 (twoNames.inodes.head (by decide)) 64 [30, 26, 26] :=
  treaddir_lists_once rfl
    ⟨by decide, by decide, by decide, by decide⟩ (by decide) (by decide) (by decide) (by decide)

/-! ## A name that the buffer has no room for -/

theorem encode_ofList (name : Name) :
    encode (String.ofList name) = name.flatMap String.utf8EncodeChar := by
  unfold encode
  simp [List.utf8Encode]

/-- A name of as many letters. -/
def longName (n : Nat) : Name := List.replicate n 'a'

theorem entrySize_longName (n : Nat) : entrySize (longName n) = 24 + n := by
  have hchar : String.utf8EncodeChar 'a' = [97] := by decide
  rw [entrySize, encode_ofList, longName, length_flatMap, map_replicate, hchar, sum_replicate_nat]
  simp

/-- A directory with a name that is longer than the reply buffer for the default `msize`. -/
def longDirectory : Inode where
  direntries := ⟨[(dot, 0), (longName 20000, 1)], by decide +kernel⟩
  mode := 0x41FF
  qidPath := 1

def longDisk : FS where
  inodes := [longDirectory, { mode := 0x81A4, qidPath := 2 }]
  lastQidnumber := 2

/-- The second reply is empty, although an entry is left. -/
theorem treaddir_stops_early :
    ¬∀ (s : FS) (dirid : Nat) (inode : Inode) (msize : Nat) (counts : List Nat),
      s.inodes[dirid]? = some inode → Listable s inode →
        (∀ count ∈ counts, ∀ name ∈ inode.direntries.keys, entrySize name ≤ count) →
          ListsOnce s dirid inode (msize * 2) counts := by
  intro h
  have hdot : entrySize dot = 25 := by decide
  have hlong := entrySize_longName 20000
  have hnames : ∀ name ∈ longDirectory.direntries.keys, name = dot ∨ name = longName 20000 := by
    intro name hname
    simpa [longDirectory, OrderedMap.keys] using hname
  have hsizes : ∀ name ∈ longDirectory.direntries.keys, entrySize name ≤ 30000 := by
    intro name hname
    rcases hnames name hname with rfl | rfl <;> omega
  have hlistable : Listable longDisk longDirectory := by
    refine ⟨by decide, by decide +kernel, fun name hname => ?_, ?_⟩
    · have hle := hsizes name hname
      rw [entrySize] at hle
      omega
    · show ([dot, longName 20000].map entrySize).sum < _
      simp only [map_cons, map_nil, sum_cons, sum_nil, hdot, hlong]
      omega
  obtain ⟨replies, hreplies, hlists⟩ := h longDisk 0 longDirectory 8192 [30000, 30000] rfl hlistable
    (fun count hcount name hname => by
      have hcount : count = 30000 := by simpa using hcount
      rw [hcount]
      exact hsizes name hname)
  obtain ⟨first, hfirst⟩ : ∃ e, e = entryOf longDirectory 0 dot := ⟨_, rfl⟩
  obtain ⟨second, hsecond⟩ : ∃ e, e = entryOf { mode := 0x81A4, qidPath := 2 } (0 + entrySize dot)
      (longName 20000) := ⟨_, rfl⟩
  have hes : longDisk.listing 0 longDirectory.direntries.entries = [first, second] := by
    rw [hfirst, hsecond]
    rfl
  have hone : first.offset = 25 := by rw [hfirst, entryOf, hdot]
  have htwo : second.offset = 20049 := by rw [hsecond, entryOf, hdot, hlong]
  have hbytes : first.bytes.length = 25 := by rw [hfirst, length_bytes_entryOf, hdot]
  have hsize : ∀ e ∈ [first, second], e.offset < 2 ^ 32 := by
    intro e he
    simp only [mem_cons, not_mem_nil, or_false] at he
    rcases he with rfl | rfl <;> omega
  have hread : ∀ e ∈ [first], e.Readable := by
    intro e he
    rw [List.mem_singleton.1 he, hfirst]
    exact ⟨by decide, by decide⟩
  have hstop : endBy (25 + min 30000 (16384 - 11)) [second] = [] := endBy_cons_of_lt (by omega)
  have hgo : endBy (0 + min 30000 (16384 - 11)) [first, second] = [first] := by
    rw [endBy_cons_of_le (by omega), endBy_cons_of_lt (by omega)]
  have hstep₁ := @readEntries_cons longDisk [] [second] 16384 0 longDirectory rfl hlistable.linked
    hlistable.ids [first] hes hsize hread (by decide) 30000 [30000] hgo
  have hdone : ([first].flatMap Entry.bytes).length = 25 := by
    rw [flatMap_singleton, hbytes]
  have hstep₂ := @readEntries_cons longDisk [first] [second] 16384 0 longDirectory rfl
    hlistable.linked hlistable.ids [] hes hsize (fun _ he => absurd he not_mem_nil) (by decide)
    30000 [] (by rw [hdone]; exact hstop)
  rw [nil_append, hstep₂] at hstep₁
  have hfirstReply := hstep₁.symm.trans hreplies
  obtain rfl := Option.some.inj hfirstReply
  have hempty := (hlists.empty 1 [] rfl).1 rfl
  rw [hes] at hempty
  have hlength := congrArg List.length hempty
  simp at hlength

end V86.Fs
