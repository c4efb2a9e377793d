import V86.Lib.Exec

/-!
# Trees of snapshots

`state.js`: a machine's state is a tree of scalars, arrays, `Map`s and typed arrays. `saveObject`
turns it into JSON, with the typed arrays moved to a list of buffers that the JSON refers to by
index, and `restoreBuffers` turns it back. `validateStreamTree` is the check of a tree of unknown
origin before it is restored.
-/

namespace V86.State

abbrev Byte := BitVec 8

/-- A number: an integer, or another double by its bits. -/
inductive Number
  | int (n : Int)
  | other (bits : BitVec 64)
  deriving DecidableEq

/-- A value that `JSON.parse` gives. -/
inductive Json
  | null
  | bool (b : Bool)
  | num (n : Number)
  | str (s : String)
  | arr (xs : List Json)
  | obj (fields : List (String × Json))

/-- The typed arrays of `CONSTRUCTOR_TABLE`. -/
inductive Kind
  | uint8 | int8 | uint16 | int16 | uint32 | int32 | float32 | float64
  deriving DecidableEq

def Kind.name : Kind → String
  | .uint8 => "Uint8Array"
  | .int8 => "Int8Array"
  | .uint16 => "Uint16Array"
  | .int16 => "Int16Array"
  | .uint32 => "Uint32Array"
  | .int32 => "Int32Array"
  | .float32 => "Float32Array"
  | .float64 => "Float64Array"

/-- `BYTES_PER_ELEMENT`. -/
def Kind.bytesPerElement : Kind → Nat
  | .uint8 => 1
  | .int8 => 1
  | .uint16 => 2
  | .int16 => 2
  | .uint32 => 4
  | .int32 => 4
  | .float32 => 4
  | .float64 => 8

inductive Constructor
  | map
  | typed (k : Kind)
  deriving DecidableEq

/-- `CONSTRUCTOR_TABLE`. -/
def constructorTable (key : String) : Option Constructor :=
  if key = "Map" then some .map
  else if key = "Uint8Array" then some (.typed .uint8)
  else if key = "Int8Array" then some (.typed .int8)
  else if key = "Uint16Array" then some (.typed .uint16)
  else if key = "Int16Array" then some (.typed .int16)
  else if key = "Uint32Array" then some (.typed .uint32)
  else if key = "Int32Array" then some (.typed .int32)
  else if key = "Float32Array" then some (.typed .float32)
  else if key = "Float64Array" then some (.typed .float64)
  else none

/-- A node of a state tree. A `Map` lists its entries in their order. -/
inductive Value
  | null
  | bool (b : Bool)
  | num (n : Number)
  | str (s : String)
  | arr (xs : List Value)
  | map (entries : List (Value × Value))
  | typed (k : Kind) (bytes : List Byte)

/-- What the engine does: the texts of JSON, and the parts of the language that only a forged tree
reaches (a property key that is not a string, a constructor that is applied to something else than
`saveObject` writes). -/
structure Builtins where
  stringify : Json → List Byte
  parse : List Byte → Option Json
  propertyKey : Json → Option String
  newMap : Value → Option Value
  newTyped : Kind → Value → Option Value

/-! ## Saving -/

mutual

/-- `save_object`: the JSON of a value, and the buffers with those of its typed arrays. -/
def saveObject : Value → List (List Byte) → Json × List (List Byte)
  | .null, buffers => (.null, buffers)
  | .bool b, buffers => (.bool b, buffers)
  | .num n, buffers => (.num n, buffers)
  | .str s, buffers => (.str s, buffers)
  | .arr xs, buffers => ((.arr (saveList xs buffers).1), (saveList xs buffers).2)
  | .map entries, buffers =>
    (.obj [("__state_type__", .str "Map"), ("args", .arr (saveEntries entries buffers).1)],
      (saveEntries entries buffers).2)
  | .typed k bytes, buffers =>
    (.obj [("__state_type__", .str k.name), ("buffer_id", .num (.int buffers.length))],
      buffers ++ [bytes])

def saveList : List Value → List (List Byte) → List Json × List (List Byte)
  | [], buffers => ([], buffers)
  | x :: xs, buffers =>
    ((saveObject x buffers).1 :: (saveList xs (saveObject x buffers).2).1,
      (saveList xs (saveObject x buffers).2).2)

def saveEntries : List (Value × Value) → List (List Byte) → List Json × List (List Byte)
  | [], buffers => ([], buffers)
  | (k, v) :: entries, buffers =>
    let key := saveObject k buffers
    let value := saveObject v key.2
    let rest := saveEntries entries value.2
    (.arr [key.1, value.1] :: rest.1, rest.2)

end

/-! ## Restoring -/

/-- The keys of a `Map` are equal. Two objects are never the same key. -/
def Value.sameKey : Value → Value → Bool
  | .null, .null => true
  | .bool a, .bool b => a = b
  | .num a, .num b => a = b
  | .str a, .str b => a = b
  | _, _ => false

/-- A `Map` takes the key −0 for 0. -/
def Value.mapKey : Value → Value
  | .num (.other 0x8000000000000000) => .num (.int 0)
  | k => k

/-- `Map.prototype.set`. -/
def mapSet (entries : List (Value × Value)) (k v : Value) : List (Value × Value) :=
  if entries.any (·.1.sameKey k) then
    entries.map fun e => if e.1.sameKey k then (e.1, v) else e
  else entries ++ [(k, v)]

/-- An entry that `new Map` takes. -/
def pairOf : Value → Option (Value × Value)
  | .arr [k, v] => some (k, v)
  | _ => none

/-- `new Map`. -/
def newMap (b : Builtins) (v : Value) : Option Value :=
  match v with
  | .arr xs =>
    match xs.mapM pairOf with
    | some entries => some (.map (entries.foldl (fun m e => mapSet m e.1.mapKey e.2) []))
    | none => b.newMap v
  | _ => b.newMap v

/-- `new constructor` of a value. -/
def construct (b : Builtins) (c : Constructor) (v : Value) : Exec Value :=
  match c with
  | .map => Exec.unwrap (newMap b v)
  | .typed k => Exec.unwrap (b.newTyped k v)

/-- `new constructor` of a buffer. -/
def constructOver (c : Constructor) (buffer : Option (List Byte)) : Exec Value :=
  match c, buffer with
  | .map, none => .ok (.map [])
  -- a buffer is not iterable
  | .map, some _ => .error .panic
  | .typed k, none => .ok (.typed k [])
  | .typed k, some bytes =>
    if bytes.length % k.bytesPerElement = 0 then .ok (.typed k bytes) else .error .panic

/-- A property of an object. -/
def property (fields : List (String × Json)) (key : String) : Option Json := fields.lookup key

/-- The key that the type of an object is looked up by. -/
def typeKey (b : Builtins) (fields : List (String × Json)) : Option String :=
  match property fields "__state_type__" with
  | none => some "undefined"
  | some (.str s) => some s
  | some j => b.propertyKey j

/-- The index in `buffer_id`. -/
def bufferId (fields : List (String × Json)) : Option Nat :=
  match property fields "buffer_id" with
  | some (.num (.int n)) => if 0 ≤ n then some n.toNat else none
  | _ => none

mutual

/-- `restore_buffers`. -/
def restoreBuffers (b : Builtins) (buffers : List (List Byte)) : Json → Exec Value
  | .null => .ok .null
  | .bool x => .ok (.bool x)
  | .num n => .ok (.num n)
  | .str s => .ok (.str s)
  | .arr xs => do
    let ys ← restoreList b buffers xs
    .ok (.arr ys)
  | .obj fields => do
    let key ← Exec.unwrap (typeKey b fields)
    let c ← Exec.unwrap (constructorTable key)
    match restoreArgs b buffers fields with
    | some args => do
      let v ← args
      construct b c v
    | none => constructOver c ((bufferId fields).bind (buffers[·]?))

def restoreList (b : Builtins) (buffers : List (List Byte)) : List Json → Exec (List Value)
  | [] => .ok []
  | x :: xs => do
    let y ← restoreBuffers b buffers x
    let ys ← restoreList b buffers xs
    .ok (y :: ys)

/-- The restored `args` of an object, if it has them. -/
def restoreArgs (b : Builtins) (buffers : List (List Byte)) :
    List (String × Json) → Option (Exec Value)
  | [] => none
  | (key, j) :: fields =>
    if key = "args" then some (restoreBuffers b buffers j) else restoreArgs b buffers fields

end

/-! ## Validating -/

/-- A reference of an object to a buffer. -/
def validateReference (b : Builtins) (lengths : List Nat) (fields : List (String × Json)) :
    Exec Unit := do
  let key ← Exec.unwrap (typeKey b fields)
  let isMap := property fields "__state_type__" matches some (.str "Map")
  match constructorTable key, bufferId fields with
  | some (.typed k), some id =>
    Exec.require (id < lengths.length && (lengths.getD id 0) % k.bytesPerElement = 0)
      "typed buffer reference"
  -- `BYTES_PER_ELEMENT` of `Map` is undefined, and a remainder by it is not a number
  | some .map, some id => Exec.require (!isMap && id < lengths.length) "typed buffer reference"
  | _, _ => Exec.fail "typed buffer reference"

mutual

/-- `validate_stream_tree`. -/
def validateStreamTree (b : Builtins) (lengths : List Nat) (depth : Nat) : Json → Exec Unit
  | .arr xs => do
    Exec.require (depth ≤ 256) "state nesting"
    validateList b lengths (depth + 1) xs
  | .obj fields => do
    Exec.require (depth ≤ 256) "state nesting"
    match property fields "__state_type__", validateArgs b lengths (depth + 1) fields with
    | some (.str "Map"), some checked => checked
    | _, _ => validateReference b lengths fields
  | _ => Exec.require (depth ≤ 256) "state nesting"

def validateList (b : Builtins) (lengths : List Nat) (depth : Nat) : List Json → Exec Unit
  | [] => .ok ()
  | x :: xs => do
    validateStreamTree b lengths depth x
    validateList b lengths depth xs

/-- The check of the `args` of an object, if they are an array. -/
def validateArgs (b : Builtins) (lengths : List Nat) (depth : Nat) :
    List (String × Json) → Option (Exec Unit)
  | [] => none
  | (key, j) :: fields =>
    if key = "args" then
      match j with
      | .arr xs => some (validateStreamTree b lengths depth (.arr xs))
      | _ => none
    else validateArgs b lengths depth fields

end

end V86.State
