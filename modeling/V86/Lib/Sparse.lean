/-!
# Sparse arrays

Arrays with holes: an element that was never assigned is undefined, and assigning behind the end
makes the array longer. What such an array holds is saved as its `entries`, the assigned elements
with their indices in ascending order; assigning these to an empty array gives the same elements
(`get_ofEntries`).
-/

namespace V86

/-- An array with holes. -/
abbrev Sparse (α : Type) := List (Option α)

namespace Sparse

variable {α : Type} {a : Sparse α} {i j : Nat} {x : α} {es : List (Nat × α)}

/-- The element at `i`, if it is defined. -/
def get (a : Sparse α) (i : Nat) : Option α := a[i]?.join

/-- The array with `x` assigned at `i`. -/
def put (a : Sparse α) (i : Nat) (x : Option α) : Sparse α :=
  (a ++ List.replicate (i + 1 - a.length) none).set i x

/-- The defined elements with their indices. -/
def entries (a : Sparse α) : List (Nat × α) :=
  a.zipIdx.filterMap fun p => p.1.map fun x => (p.2, x)

/-- Assigns the elements of a list one after another. -/
def assign (a : Sparse α) (es : List (Nat × α)) : Sparse α :=
  es.foldl (fun a e => a.put e.1 (some e.2)) a

/-- An array with these elements only. -/
def ofEntries (es : List (Nat × α)) : Sparse α := assign [] es

theorem get_put (a : Sparse α) (i : Nat) (x : Option α) (j : Nat) :
    (a.put i x).get j = if j = i then x else a.get j := by
  unfold get put
  rw [List.getElem?_set]
  split
  case isTrue hij =>
    subst hij
    have hlt : i < (a ++ List.replicate (i + 1 - a.length) none).length := by
      simp only [List.length_append, List.length_replicate]
      omega
    rw [if_pos hlt, if_pos rfl, Option.join_some]
  case isFalse hij =>
    rw [if_neg fun h => hij h.symm, List.getElem?_append]
    split
    · rfl
    case isFalse hlt =>
      rw [List.getElem?_eq_none (Nat.le_of_not_lt hlt), List.getElem?_replicate]
      split <;> rfl

@[simp] theorem get_put_self (a : Sparse α) (i : Nat) (x : Option α) : (a.put i x).get i = x := by
  simp [get_put]

@[simp] theorem get_put_of_ne (x : Option α) (h : j ≠ i) : (a.put i x).get j = a.get j := by
  simp [get_put, h]

/-- The entries are the defined elements. -/
theorem mem_entries : (i, x) ∈ a.entries ↔ a.get i = some x := by
  unfold entries get
  rw [List.mem_filterMap]
  constructor
  · rintro ⟨⟨y, k⟩, hmem, heq⟩
    obtain ⟨z, hz, hpair⟩ := Option.map_eq_some_iff.1 heq
    obtain ⟨rfl, rfl⟩ := Prod.mk.inj hpair
    rw [List.mk_mem_zipIdx_iff_getElem?] at hmem
    rw [hmem, Option.join_some]
    exact hz
  · intro h
    exact ⟨(some x, i), List.mk_mem_zipIdx_iff_getElem?.2 (Option.join_eq_some_iff.1 h), rfl⟩

/-- After assigning, a defined element is an assigned one or was there before. -/
theorem get_assign_eq (h : (assign a es).get i = some x) : (i, x) ∈ es ∨ a.get i = some x := by
  induction es generalizing a with
  | nil => exact .inr h
  | cons e es ih =>
    rcases ih h with hmem | hget
    · exact .inl (List.mem_cons_of_mem _ hmem)
    · rw [get_put] at hget
      split at hget
      case isTrue hi =>
        obtain rfl := Option.some.inj hget
        exact .inl (hi ▸ List.mem_cons_self)
      · exact .inr hget

/-- An assigned element stays defined. -/
theorem get_assign_isSome (h : (∃ y, (i, y) ∈ es) ∨ (a.get i).isSome) :
    ((assign a es).get i).isSome := by
  induction es generalizing a with
  | nil =>
    rcases h with ⟨y, hy⟩ | h
    · cases hy
    · exact h
  | cons e es ih =>
    refine ih ?_
    by_cases hi : i = e.1
    · exact .inr (by simp [hi])
    · rcases h with ⟨y, hy⟩ | h
      · rcases List.mem_cons.1 hy with rfl | hy
        · exact absurd rfl hi
        · exact .inl ⟨y, hy⟩
      · exact .inr (by rwa [get_put_of_ne _ hi])

/-- Assigning the pairs of a partial function gives this function. -/
theorem get_ofEntries {f : Nat → Option α} (h : ∀ i x, (i, x) ∈ es ↔ f i = some x) (i : Nat) :
    (ofEntries es).get i = f i := by
  cases hf : f i with
  | none =>
    cases hget : (ofEntries es).get i with
    | none => rfl
    | some x =>
      rcases get_assign_eq hget with hmem | hnil
      · rw [h, hf] at hmem
        cases hmem
      · cases hnil
  | some x =>
    obtain ⟨y, hy⟩ := Option.isSome_iff_exists.1
      (get_assign_isSome (a := []) (.inl ⟨x, (h i x).2 hf⟩))
    rcases get_assign_eq hy with hmem | hnil
    · rw [h, hf] at hmem
      rw [ofEntries, hy, hmem]
    · cases hnil

@[simp] theorem get_ofEntries_entries (a : Sparse α) (i : Nat) :
    (ofEntries a.entries).get i = a.get i :=
  get_ofEntries (fun _ _ => mem_entries) i

end Sparse
end V86
