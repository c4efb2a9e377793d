import V86.Lib.Bytes

/-!
# Marshalling

`Marshall` and `Unmarshall` of `lib/marshall.js`: a list of items goes into a byte array one after
another, and is read back from it by a list of their types.
-/

namespace V86.Fs

open Bytes List

/-- A `qid`: numbers of 8, 32 and 32 bits. -/
structure Qid where
  type : Nat
  version : Nat
  path : Nat
  deriving DecidableEq

/-- The letters of a type list. -/
inductive Typ where
  | w | d | h | b | s | Q
  deriving DecidableEq

/-- A value together with its letter. -/
inductive Item where
  | w (value : Nat)
  | d (value : Nat)
  | h (value : Nat)
  | b (value : Nat)
  | s (value : String)
  | Q (value : Qid)
  deriving DecidableEq

namespace Item

def typ : Item → Typ
  | w _ => .w
  | d _ => .d
  | h _ => .h
  | b _ => .b
  | s _ => .s
  | Q _ => .Q

end Item

/-! ## Text -/

/-- `texten.encode`. -/
def encode (text : String) : List UInt8 := text.toUTF8.data.toList

/-- A byte order mark. -/
def byteOrderMark : List UInt8 := [0xEF, 0xBB, 0xBF]

/-- `textde.decode`, which drops a byte order mark. `none`: bytes that are not UTF-8, for which it
puts replacement characters. -/
def decode (bytes : List UInt8) : Option String :=
  let bytes := if byteOrderMark.isPrefixOf bytes then bytes.drop 3 else bytes
  String.fromUTF8? ⟨bytes.toArray⟩

theorem decode_encode {text : String} (h : byteOrderMark.isPrefixOf (encode text) = false) :
    decode (encode text) = some text := by
  rw [decode, h]
  have hvalid : text.toUTF8.IsValidUTF8 := text.isValidUTF8
  exact dif_pos hvalid

/-! ## Marshalling -/

/-- The bytes of an item. -/
def Item.bytes : Item → List UInt8
  | w value => le 4 value
  | d value => le 4 value ++ List.replicate 4 0
  | h value => le 2 value
  | b value => le 1 value
  | s value => le 2 (encode value).length ++ encode value
  | Q value => le 1 value.type ++ (le 4 value.version ++ (le 4 value.path ++ List.replicate 4 0))

/-- `Marshall`: the array and the size of the items, or `none` where a string does not fit, for
which `set` throws. -/
def marshall : List Item → List UInt8 → Nat → Option (List UInt8 × Nat)
  | [], struct, _ => some (struct, 0)
  | item :: items, struct, offset =>
    let bytes := item.bytes
    if item.typ = .s ∧ struct.length < offset + bytes.length then none
    else
      (marshall items (put struct offset bytes) (offset + bytes.length)).map fun (struct, size) =>
        (struct, bytes.length + size)

/-- An item of `Unmarshall` and the offset after it; `none` where bytes are missing. -/
def unmarshallItem (struct : List UInt8) (offset : Nat) : Typ → Option (Item × Nat)
  | .w => (readLe struct offset 4).map fun value => (.w value, offset + 4)
  | .d => (readLe struct offset 4).map fun value => (.d value, offset + 8)
  | .h => (readLe struct offset 2).map fun value => (.h value, offset + 2)
  | .b => (readLe struct offset 1).map fun value => (.b value, offset + 1)
  | .s => do
    let len ← readLe struct offset 2
    let value ← decode ((struct.drop (offset + 2)).take len)
    return (.s value, offset + 2 + len)
  | .Q => do
    let type ← readLe struct offset 1
    let version ← readLe struct (offset + 1) 4
    let path ← readLe struct (offset + 5) 4
    return (.Q ⟨type, version, path⟩, offset + 13)

/-- `Unmarshall`: the items and the offset after them. -/
def unmarshall : List Typ → List UInt8 → Nat → Option (List Item × Nat)
  | [], _, offset => some ([], offset)
  | typ :: typs, struct, offset => do
    let (item, offset) ← unmarshallItem struct offset typ
    let (items, offset) ← unmarshall typs struct offset
    return (item :: items, offset)

/-! ## What is read back -/

/-- An item with its numbers cut to their bytes. -/
def Item.wire : Item → Item
  | w value => w (value % 2 ^ 32)
  | d value => d (value % 2 ^ 32)
  | h value => h (value % 2 ^ 16)
  | b value => b (value % 2 ^ 8)
  | s value => s value
  | Q value => Q ⟨value.type % 2 ^ 8, value.version % 2 ^ 32, value.path % 2 ^ 32⟩

/-- A string whose length fits and that has no mark to lose. -/
def Item.Readable : Item → Prop
  | s value => (encode value).length < 2 ^ 16 ∧ byteOrderMark.isPrefixOf (encode value) = false
  | _ => True

variable {items : List Item} {item : Item} {struct : List UInt8} {offset : Nat}

theorem marshall_append (items : List Item) (done rest : List UInt8)
    (h : (items.flatMap Item.bytes).length ≤ rest.length) :
    marshall items (done ++ rest) done.length =
      some (done ++ items.flatMap Item.bytes ++ rest.drop (items.flatMap Item.bytes).length,
        (items.flatMap Item.bytes).length) := by
  induction items generalizing done rest with
  | nil => rw [marshall, flatMap_nil, append_nil, length_nil, drop_zero]
  | cons item items ih =>
    rw [flatMap_cons, length_append] at h
    have hfits : item.bytes.length ≤ rest.length := by omega
    have hnext := ih (done ++ item.bytes) (rest.drop item.bytes.length) (by
      rw [length_drop]
      omega)
    rw [marshall, if_neg, put_append _ _ hfits]
    · dsimp only
      rw [← length_append, hnext, Option.map_some, flatMap_cons, length_append,
        drop_drop, append_assoc, append_assoc, append_assoc, append_assoc]
    · rw [length_append]
      omega

theorem unmarshallItem_bytes (h : item.bytes <+: struct.drop offset) (hle : offset ≤ struct.length)
    (hread : item.Readable) :
    unmarshallItem struct offset item.typ = some (item.wire, offset + item.bytes.length) := by
  cases item with
  | w value =>
    have hvalue := readLe_of_prefix h hle
    rw [Item.typ, unmarshallItem, hvalue]
    rfl
  | d value =>
    have hvalue := readLe_of_prefix (prefix_drop_append h).1 hle
    rw [Item.typ, unmarshallItem, hvalue]
    rfl
  | h value | b value =>
    have hvalue := readLe_of_prefix h hle
    rw [Item.typ, unmarshallItem, hvalue]
    rfl
  | s value =>
    obtain ⟨hlen, htext⟩ := prefix_drop_append h
    have hvalue := readLe_of_prefix hlen hle
    have hlt : (encode value).length < 256 ^ 2 := Nat.lt_of_lt_of_le hread.1 (by decide)
    rw [Nat.mod_eq_of_lt hlt] at hvalue
    rw [length_le] at htext
    rw [Item.typ, unmarshallItem, hvalue, Option.bind_eq_bind, Option.bind_some,
      take_of_prefix_drop htext, decode_encode hread.2]
    show some (Item.s value, offset + 2 + (encode value).length) = _
    rw [Item.wire, Item.bytes, length_append, length_le, Nat.add_assoc]
  | Q value =>
    obtain ⟨htype, hrest⟩ := prefix_drop_append h
    rw [length_le] at hrest
    obtain ⟨hversion, hpath⟩ := prefix_drop_append hrest
    rw [length_le, Nat.add_assoc] at hpath
    have hlength := h.length_le
    rw [length_drop] at hlength
    have hsize : (Item.Q value).bytes.length = 13 := by simp [Item.bytes]
    rw [hsize] at hlength
    have htype' := readLe_of_prefix htype hle
    have hversion' := readLe_of_prefix hversion (by omega)
    have hpath' := readLe_of_prefix (prefix_drop_append hpath).1 (by omega)
    rw [Item.typ, unmarshallItem, htype', hversion', hpath']
    rfl

/-- What was marshalled is read back. -/
theorem unmarshall_bytes (h : items.flatMap Item.bytes <+: struct.drop offset)
    (hle : offset ≤ struct.length) (hread : ∀ item ∈ items, item.Readable) :
    unmarshall (items.map Item.typ) struct offset =
      some (items.map Item.wire, offset + (items.flatMap Item.bytes).length) := by
  induction items generalizing offset with
  | nil => rfl
  | cons item items ih =>
    rw [flatMap_cons] at h
    obtain ⟨hitem, hitems⟩ := prefix_drop_append h
    have hlength := hitem.length_le
    rw [length_drop] at hlength
    have hfirst := unmarshallItem_bytes hitem hle (hread item mem_cons_self)
    have hrest := ih hitems (by omega) fun item hitem => hread item (mem_cons_of_mem _ hitem)
    rw [map_cons, unmarshall, hfirst, Option.bind_eq_bind, Option.bind_some]
    dsimp only
    rw [hrest]
    show some (item.wire :: items.map Item.wire, _) = _
    rw [map_cons, flatMap_cons, length_append, Nat.add_assoc]

end V86.Fs
