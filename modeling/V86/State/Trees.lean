import V86.State.Value

/-!
# Saved trees are restored

`restoreBuffers` undoes `saveObject` (`restore_saveObject`), and a saved tree passes
`validateStreamTree` as long as it is not nested too deeply (`validate_saveObject`). Both are proved
along the tree; the buffers of a subtree come before those of the subtrees after it, so each
statement is about any list that starts with the buffers saved so far.
-/

namespace V86.State

open List

/-! ## Trees that can be saved -/

mutual

/-- A tree as the language builds it: a typed array has whole elements, and the keys of a `Map` are
distinct. -/
def Value.Plain : Value → Prop
  | .arr xs => PlainList xs
  | .map entries => PlainEntries entries ∧ entries.Pairwise (fun e f => e.1.sameKey f.1 = false) ∧
    ∀ e ∈ entries, e.1.mapKey = e.1
  | .typed k bytes => bytes.length % k.bytesPerElement = 0
  | _ => True

def PlainList : List Value → Prop
  | [] => True
  | x :: xs => x.Plain ∧ PlainList xs

def PlainEntries : List (Value × Value) → Prop
  | [] => True
  | (k, v) :: entries => k.Plain ∧ v.Plain ∧ PlainEntries entries

end

theorem plainList_iff {xs : List Value} : PlainList xs ↔ ∀ x ∈ xs, x.Plain := by
  induction xs with
  | nil => simp [PlainList]
  | cons x xs ih => simp [PlainList, ih]

mutual

/-- How deeply a saved tree is nested below its root. -/
def Value.depth : Value → Nat
  | .arr xs => depthList xs
  | .map entries => max 1 (depthEntries entries)
  | _ => 0

def depthList : List Value → Nat
  | [] => 0
  | x :: xs => max (x.depth + 1) (depthList xs)

/-- A `Map` is saved as an object with an array of pairs. -/
def depthEntries : List (Value × Value) → Nat
  | [] => 0
  | (k, v) :: entries => max (max k.depth v.depth + 3) (depthEntries entries)

end

/-! ## Buffers -/

variable {b : Builtins} {buffers all : List (List Byte)}

mutual

theorem prefix_saveObject : ∀ (v : Value) (buffers : List (List Byte)),
    buffers <+: (saveObject v buffers).2
  | .null, buffers => prefix_refl buffers
  | .bool _, buffers => prefix_refl buffers
  | .num _, buffers => prefix_refl buffers
  | .str _, buffers => prefix_refl buffers
  | .arr xs, buffers => prefix_saveList xs buffers
  | .map entries, buffers => prefix_saveEntries entries buffers
  | .typed _ bytes, buffers => prefix_append buffers [bytes]

theorem prefix_saveList : ∀ (xs : List Value) (buffers : List (List Byte)),
    buffers <+: (saveList xs buffers).2
  | [], buffers => prefix_refl buffers
  | x :: xs, buffers => (prefix_saveObject x buffers).trans (prefix_saveList xs _)

theorem prefix_saveEntries : ∀ (entries : List (Value × Value)) (buffers : List (List Byte)),
    buffers <+: (saveEntries entries buffers).2
  | [], buffers => prefix_refl buffers
  | (k, v) :: entries, buffers => (prefix_saveObject k buffers).trans
      ((prefix_saveObject v _).trans (prefix_saveEntries entries _))

end

/-- The buffer that was saved last. -/
theorem getElem?_of_prefix {bytes : List Byte} (h : buffers ++ [bytes] <+: all) :
    all[buffers.length]? = some bytes := by
  obtain ⟨rest, rfl⟩ := h
  rw [append_assoc, List.getElem?_append_right (Nat.le_refl _), Nat.sub_self]
  rfl

/-! ## Restoring -/

theorem constructorTable_name (k : Kind) : constructorTable k.name = some (.typed k) := by
  cases k <;> decide

theorem mapSet_fresh {entries : List (Value × Value)} {k v : Value}
    (h : ∀ e ∈ entries, e.1.sameKey k = false) : mapSet entries k v = entries ++ [(k, v)] := by
  have hany : entries.any (·.1.sameKey k) = false := by
    rw [any_eq_false]
    exact fun e he => by rw [h e he]; exact Bool.false_ne_true
  rw [mapSet, hany]
  rfl

/-- `new Map` of the entries of a `Map`. -/
theorem newMap_entries {entries : List (Value × Value)}
    (hkeys : entries.Pairwise (fun e f => e.1.sameKey f.1 = false))
    (hnorm : ∀ e ∈ entries, e.1.mapKey = e.1) :
    newMap b (.arr (entries.map fun e => .arr [e.1, e.2])) = some (.map entries) := by
  have hpairs : (entries.map fun e => Value.arr [e.1, e.2]).mapM pairOf = some entries := by
    induction entries with
    | nil => rfl
    | cons e entries ih =>
      rw [map_cons, mapM_cons, ih (List.pairwise_cons.1 hkeys).2
        fun f hf => hnorm f (mem_cons_of_mem _ hf)]
      rfl
  have hfold : ∀ (done rest : List (Value × Value)), done ++ rest = entries →
      rest.foldl (fun m e => mapSet m e.1.mapKey e.2) done = entries := by
    intro done rest
    induction rest generalizing done with
    | nil => exact fun h => by rw [← h, append_nil, foldl_nil]
    | cons e rest ih =>
      intro h
      have hmem : e ∈ entries := by
        rw [← h]
        simp
      have hfresh : ∀ f ∈ done, f.1.sameKey e.1 = false := by
        rw [← h] at hkeys
        exact fun f hf => (List.pairwise_append.1 hkeys).2.2 f hf e mem_cons_self
      rw [foldl_cons, hnorm e hmem, mapSet_fresh hfresh]
      exact ih (done ++ [(e.1, e.2)]) (by simp [← h])
  unfold newMap
  simp only [hpairs, hfold [] entries rfl]

mutual

theorem restore_saveObject : ∀ {v : Value} {buffers : List (List Byte)}, v.Plain →
    (saveObject v buffers).2 <+: all → restoreBuffers b all (saveObject v buffers).1 = .ok v
  | .null, _, _, _ => rfl
  | .bool _, _, _, _ => rfl
  | .num _, _, _, _ => rfl
  | .str _, _, _, _ => rfl
  | .arr xs, buffers, h, hp => by
    have hlist : PlainList xs := h
    have hxs := restore_saveList hlist hp
    rw [saveObject, restoreBuffers, hxs]
    rfl
  | .map entries, buffers, h, hp => by
    obtain ⟨hplain, hkeys, hnorm⟩ := h
    have hentries := restore_saveEntries hplain hp
    have hargs : restoreArgs b all [("__state_type__", .str "Map"),
        ("args", .arr (saveEntries entries buffers).1)] =
        some (.ok (.arr (entries.map fun e => .arr [e.1, e.2]))) := by
      rw [restoreArgs, if_neg (by decide), restoreArgs, if_pos rfl, restoreBuffers, hentries]
      rfl
    rw [saveObject, restoreBuffers]
    simp only [typeKey, property, lookup_cons, beq_self_eq_true, Exec.unwrap, Exec.ok_bind,
      constructorTable, if_true, hargs, construct, newMap_entries hkeys hnorm]
  | .typed k bytes, buffers, h, hp => by
    have hget := getElem?_of_prefix hp
    have hkey : (("buffer_id" : String) == "__state_type__") = false := by decide
    have hargs : restoreArgs b all [("__state_type__", .str k.name),
        ("buffer_id", .num (.int buffers.length))] = none := by
      rw [restoreArgs, if_neg (by decide), restoreArgs, if_neg (by decide), restoreArgs]
    rw [saveObject, restoreBuffers]
    simp only [typeKey, property, lookup_cons, beq_self_eq_true, Exec.unwrap, Exec.ok_bind,
      constructorTable_name, hargs, bufferId, hkey, Int.natCast_nonneg, if_true, Int.toNat_natCast,
      Option.bind_some, hget, constructOver]
    exact if_pos h

theorem restore_saveList : ∀ {xs : List Value} {buffers : List (List Byte)}, PlainList xs →
    (saveList xs buffers).2 <+: all → restoreList b all (saveList xs buffers).1 = .ok xs
  | [], _, _, _ => rfl
  | x :: xs, buffers, h, hp => by
    have hx := restore_saveObject h.1 ((prefix_saveList xs _).trans hp)
    have hxs := restore_saveList h.2 hp
    rw [saveList, restoreList, hx, Exec.ok_bind, hxs]
    rfl

theorem restore_saveEntries : ∀ {entries : List (Value × Value)} {buffers : List (List Byte)},
    PlainEntries entries → (saveEntries entries buffers).2 <+: all →
    restoreList b all (saveEntries entries buffers).1 = .ok (entries.map fun e => .arr [e.1, e.2])
  | [], _, _, _ => rfl
  | (k, v) :: entries, buffers, h, hp => by
    obtain ⟨hk, hv, hrest⟩ := h
    have hpv := (prefix_saveEntries entries _).trans hp
    have h1 := restore_saveObject hk ((prefix_saveObject v _).trans hpv)
    have h2 := restore_saveObject hv hpv
    have h3 := restore_saveEntries hrest hp
    rw [saveEntries, restoreList, restoreBuffers, restoreList, h1, Exec.ok_bind, restoreList, h2,
      Exec.ok_bind, h3]
    rfl

end

/-! ## Validating -/

mutual

theorem validate_saveObject : ∀ {v : Value} {buffers : List (List Byte)} {depth : Nat}, v.Plain →
    (saveObject v buffers).2 <+: all → depth + v.depth ≤ 256 →
    validateStreamTree b (all.map List.length) depth (saveObject v buffers).1 = .ok ()
  | .null, _, _, _, _, hd => if_pos (decide_eq_true hd)
  | .bool _, _, _, _, _, hd => if_pos (decide_eq_true hd)
  | .num _, _, _, _, _, hd => if_pos (decide_eq_true hd)
  | .str _, _, _, _, _, hd => if_pos (decide_eq_true hd)
  | .arr xs, buffers, depth, h, hp, hd => by
    rw [Value.depth] at hd
    have hxs : validateList b (all.map List.length) (depth + 1) (saveList xs buffers).1 = .ok () :=
      validate_saveList h hp (by omega)
    rw [saveObject, validateStreamTree, hxs, Exec.require, if_pos (decide_eq_true (by omega))]
    rfl
  | .map entries, buffers, depth, h, hp, hd => by
    rw [Value.depth] at hd
    have hentries : validateList b (all.map List.length) (depth + 2) (saveEntries entries buffers).1 =
        .ok () := validate_saveEntries h.1 hp (by omega)
    have hargs : validateArgs b (all.map List.length) (depth + 1) [("__state_type__", .str "Map"),
        ("args", .arr (saveEntries entries buffers).1)] = some (.ok ()) := by
      have harr : validateStreamTree b (all.map List.length) (depth + 1)
          (.arr (saveEntries entries buffers).1) = .ok () := by
        rw [validateStreamTree, Exec.require, if_pos (decide_eq_true (by omega)), Exec.ok_bind,
          hentries]
      simp [validateArgs, harr]
    rw [saveObject, validateStreamTree, Exec.require, if_pos (decide_eq_true (by omega)),
      Exec.ok_bind, hargs]
    rfl
  | .typed k bytes, buffers, depth, h, hp, hd => by
    have hget := getElem?_of_prefix hp
    have hkey : (("buffer_id" : String) == "__state_type__") = false := by decide
    have hargs : validateArgs b (all.map List.length) (depth + 1) [("__state_type__", .str k.name),
        ("buffer_id", .num (.int buffers.length))] = none := by
      simp [validateArgs]
    have hlt : buffers.length < all.length := (List.getElem?_eq_some_iff.1 hget).1
    have hlen : (all.map List.length).getD buffers.length 0 = bytes.length := by
      rw [getD_eq_getElem?_getD, List.getElem?_map, hget]
      rfl
    have href : validateReference b (all.map List.length) [("__state_type__", .str k.name),
        ("buffer_id", .num (.int buffers.length))] = .ok () := by
      unfold validateReference
      simp only [typeKey, property, lookup_cons, beq_self_eq_true, Exec.unwrap, Exec.ok_bind,
        constructorTable_name, bufferId, hkey, Int.natCast_nonneg, if_true, Int.toNat_natCast,
        length_map, hlen]
      have hwhole : bytes.length % k.bytesPerElement = 0 := h
      simp [Exec.require, hlt, hwhole]
    rw [saveObject, validateStreamTree, Exec.require, if_pos (decide_eq_true (Nat.le_of_add_right_le hd)),
      Exec.ok_bind, hargs]
    split
    · next heq => cases heq
    · exact href

theorem validate_saveList : ∀ {xs : List Value} {buffers : List (List Byte)} {depth : Nat},
    PlainList xs → (saveList xs buffers).2 <+: all → depth + depthList xs ≤ 257 →
    validateList b (all.map List.length) depth (saveList xs buffers).1 = .ok ()
  | [], _, _, _, _, _ => rfl
  | x :: xs, buffers, depth, h, hp, hd => by
    rw [depthList] at hd
    have hdx : depth + x.depth ≤ 256 := by omega
    have hdxs : depth + depthList xs ≤ 257 := by omega
    have hx := validate_saveObject h.1 ((prefix_saveList xs _).trans hp) hdx
    have hxs := validate_saveList h.2 hp hdxs
    rw [saveList, validateList, hx, Exec.ok_bind, hxs]

theorem validate_saveEntries : ∀ {entries : List (Value × Value)} {buffers : List (List Byte)}
    {depth : Nat}, PlainEntries entries → (saveEntries entries buffers).2 <+: all →
    depth + depthEntries entries ≤ 258 →
    validateList b (all.map List.length) depth (saveEntries entries buffers).1 = .ok ()
  | [], _, _, _, _, _ => rfl
  | (k, v) :: entries, buffers, depth, h, hp, hd => by
    rw [depthEntries] at hd
    obtain ⟨hk, hv, hrest⟩ := h
    have hpv := (prefix_saveEntries entries _).trans hp
    have hdk : depth + 1 + k.depth ≤ 256 := by omega
    have hdv : depth + 1 + v.depth ≤ 256 := by omega
    have hdrest : depth + depthEntries entries ≤ 258 := by omega
    have h1 := validate_saveObject hk ((prefix_saveObject v _).trans hpv) hdk
    have h2 := validate_saveObject hv hpv hdv
    have h3 := validate_saveEntries hrest hp hdrest
    rw [saveEntries, validateList, validateStreamTree, Exec.require,
      if_pos (decide_eq_true (by omega)), Exec.ok_bind, validateList, h1, Exec.ok_bind,
      validateList, h2, Exec.ok_bind, validateList, Exec.ok_bind, h3]

end

/-! ## The limit of the nesting -/

mutual

/-- A tree that passes the check is not nested too deeply. -/
theorem depth_of_validate {lengths : List Nat} : ∀ {v : Value} {buffers : List (List Byte)}
    {depth : Nat}, validateStreamTree b lengths depth (saveObject v buffers).1 = .ok () →
    depth + v.depth ≤ 256
  | .null, _, _, h => of_decide_eq_true (Exec.require_eq_ok.1 h)
  | .bool _, _, _, h => of_decide_eq_true (Exec.require_eq_ok.1 h)
  | .num _, _, _, h => of_decide_eq_true (Exec.require_eq_ok.1 h)
  | .str _, _, _, h => of_decide_eq_true (Exec.require_eq_ok.1 h)
  | .arr xs, buffers, depth, h => by
    rw [saveObject, validateStreamTree] at h
    obtain ⟨_, hdepth, hxs⟩ := Exec.bind_eq_ok.1 h
    have hle : depth ≤ 256 := of_decide_eq_true (Exec.require_eq_ok.1 hdepth)
    have := depth_of_validateList hxs (by omega)
    rw [Value.depth]
    omega
  | .map entries, buffers, depth, h => by
    rw [saveObject, validateStreamTree] at h
    obtain ⟨_, hdepth, hargs⟩ := Exec.bind_eq_ok.1 h
    have harr : validateStreamTree b lengths (depth + 1) (.arr (saveEntries entries buffers).1) =
        .ok () := by
      simpa [validateArgs, property, lookup_cons] using hargs
    rw [validateStreamTree] at harr
    obtain ⟨_, hdepth', hentries⟩ := Exec.bind_eq_ok.1 harr
    have hle : depth + 1 ≤ 256 := of_decide_eq_true (Exec.require_eq_ok.1 hdepth')
    have := depth_of_validateEntries hentries (by omega)
    rw [Value.depth]
    omega
  | .typed k bytes, buffers, depth, h => by
    rw [saveObject, validateStreamTree] at h
    obtain ⟨_, hdepth, _⟩ := Exec.bind_eq_ok.1 h
    exact of_decide_eq_true (Exec.require_eq_ok.1 hdepth)

theorem depth_of_validateList {lengths : List Nat} : ∀ {xs : List Value}
    {buffers : List (List Byte)} {depth : Nat},
    validateList b lengths depth (saveList xs buffers).1 = .ok () → depth ≤ 257 →
    depth + depthList xs ≤ 257
  | [], _, _, _, hd => hd
  | x :: xs, buffers, depth, h, hd => by
    rw [saveList, validateList] at h
    obtain ⟨_, hx, hxs⟩ := Exec.bind_eq_ok.1 h
    have h1 := depth_of_validate (v := x) hx
    have h2 := depth_of_validateList hxs hd
    rw [depthList]
    omega

theorem depth_of_validateEntries {lengths : List Nat} : ∀ {entries : List (Value × Value)}
    {buffers : List (List Byte)} {depth : Nat},
    validateList b lengths depth (saveEntries entries buffers).1 = .ok () → depth ≤ 257 →
    depth + depthEntries entries ≤ 258
  | [], _, depth, _, hd => by
    rw [depthEntries]
    omega
  | (k, v) :: entries, buffers, depth, h, hd => by
    rw [saveEntries, validateList, validateStreamTree] at h
    obtain ⟨_, hpair, hrest⟩ := Exec.bind_eq_ok.1 h
    obtain ⟨_, _, hpair⟩ := Exec.bind_eq_ok.1 hpair
    rw [validateList] at hpair
    obtain ⟨_, hk, hpair⟩ := Exec.bind_eq_ok.1 hpair
    rw [validateList] at hpair
    obtain ⟨_, hv, _⟩ := Exec.bind_eq_ok.1 hpair
    have h1 := depth_of_validate (v := k) hk
    have h2 := depth_of_validate (v := v) hv
    have h3 := depth_of_validateEntries hrest hd
    rw [depthEntries]
    omega

end

/-! ## Texts -/

mutual

/-- The text of a value without fractions, whose strings need no escapes. -/
def Json.text : Json → String
  | .null => "null"
  | .bool b => toString b
  | .num (.int n) => toString n
  | .num (.other _) => "0"
  | .str s => "\"" ++ s ++ "\""
  | .arr xs => "[" ++ Json.textList xs ++ "]"
  | .obj fields => "\x7b" ++ Json.textFields fields ++ "\x7d"

def Json.textList : List Json → String
  | [] => ""
  | [x] => x.text
  | x :: y :: xs => x.text ++ "," ++ Json.textList (y :: xs)

def Json.textFields : List (String × Json) → String
  | [] => ""
  | [(key, x)] => "\"" ++ key ++ "\":" ++ x.text
  | (key, x) :: y :: fields => "\"" ++ key ++ "\":" ++ x.text ++ "," ++ Json.textFields (y :: fields)

end

/-- Its bytes. -/
def Json.bytes (j : Json) : List Byte := j.text.toUTF8.data.toList.map (·.toBitVec)

/-- An engine that reads one text. -/
def engine (j : Json) : Builtins where
  stringify := Json.bytes
  parse := fun bytes => if bytes = j.bytes then some j else none
  propertyKey := fun _ => none
  newMap := fun _ => none
  newTyped := fun _ _ => none

theorem engine_parse (j : Json) : (engine j).parse ((engine j).stringify j) = some j := if_pos rfl

end V86.State
