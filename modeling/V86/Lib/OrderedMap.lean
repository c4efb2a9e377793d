import Mathlib.Data.List.Nodup
import Mathlib.Data.List.Perm.Basic

/-!
# A map that keeps its insertion order

The keyed collection of ECMAScript: a walk meets the keys in the order of their first insertion, a
value set under a present key keeps that key's place, and a deleted key loses it. No key occurs
twice, which `OrderedMap` carries as a field, so that a look-up and membership say the same
(`OrderedMap.get?_eq_some`). How often a value is held (`OrderedMap.count`) changes by one with each
fresh key and each deletion.
-/

namespace V86

open List

/-- The entries in insertion order, each key once. -/
structure OrderedMap (α β : Type*) where
  entries : List (α × β)
  nodup : (entries.map Prod.fst).Nodup

namespace OrderedMap

variable {α β : Type*}

/-- The map with no entry. -/
def empty : OrderedMap α β := ⟨[], nodup_nil⟩

/-- The keys, in insertion order. -/
def keys (m : OrderedMap α β) : List α := m.entries.map Prod.fst

@[ext]
theorem ext {m m' : OrderedMap α β} (h : m.entries = m'.entries) : m = m' := by
  cases m; cases m'; cases h; rfl

/-- Two entries under one key are one entry. -/
theorem entry_unique (m : OrderedMap α β) {k : α} {v w : β} (hv : (k, v) ∈ m.entries)
    (hw : (k, w) ∈ m.entries) : v = w := by
  have := inj_on_of_nodup_map m.nodup hv hw rfl
  exact (Prod.mk.inj this).2

variable [DecidableEq α]

instance [DecidableEq β] : DecidableEq (OrderedMap α β) := fun m m' =>
  decidable_of_iff (m.entries = m'.entries) ⟨ext, fun h => h ▸ rfl⟩

/-- The value under a key. -/
def get? (m : OrderedMap α β) (k : α) : Option β :=
  (m.entries.find? fun e => e.1 = k).map Prod.snd

/-- The entries with the value of `k` replaced where it stands. -/
def replaced (l : List (α × β)) (k : α) (v : β) : List (α × β) :=
  l.map fun e => if e.1 = k then (k, v) else e

theorem keys_replaced (l : List (α × β)) (k : α) (v : β) :
    (replaced l k v).map Prod.fst = l.map Prod.fst := by
  rw [replaced, List.map_map]
  refine map_congr_left fun e _ => ?_
  by_cases h : e.1 = k <;> simp [h]

/-- Set the value of a key, in place where it is present and at the end where it is not. -/
def set (m : OrderedMap α β) (k : α) (v : β) : OrderedMap α β :=
  if h : k ∈ m.keys then
    ⟨replaced m.entries k v, (keys_replaced m.entries k v).symm ▸ m.nodup⟩
  else
    ⟨m.entries ++ [(k, v)], by
      rw [map_append, nodup_append]
      refine ⟨m.nodup, nodup_singleton k, ?_⟩
      intro a ha b hb hab
      have hbk : b = k := by simpa using hb
      exact h (hbk ▸ hab ▸ ha)⟩

/-- Remove a key. -/
def delete (m : OrderedMap α β) (k : α) : OrderedMap α β :=
  ⟨m.entries.filter fun e => e.1 ≠ k, (List.filter_sublist.map Prod.fst).nodup m.nodup⟩

variable {k : α} {v : β}

theorem get?_eq_some (m : OrderedMap α β) : m.get? k = some v ↔ (k, v) ∈ m.entries := by
  rw [get?, Option.map_eq_some_iff]
  constructor
  · rintro ⟨⟨k', v'⟩, hf, rfl⟩
    have hk : k' = k := by simpa using List.find?_some hf
    exact hk ▸ List.mem_of_find?_eq_some hf
  · intro hm
    obtain ⟨e, he⟩ : ∃ e, m.entries.find? (fun e => e.1 = k) = some e := by
      rw [← Option.isSome_iff_exists, List.find?_isSome]
      exact ⟨(k, v), hm, by simp⟩
    refine ⟨e, he, ?_⟩
    have hk : e.1 = k := by simpa using List.find?_some he
    have hm' := List.mem_of_find?_eq_some he
    rw [show e = (k, e.2) from by rw [← hk]] at hm'
    exact m.entry_unique hm' hm

theorem get?_eq_none (m : OrderedMap α β) : m.get? k = none ↔ k ∉ m.keys := by
  constructor
  · intro h hk
    obtain ⟨⟨k', v⟩, he, rfl⟩ := List.mem_map.1 hk
    rw [m.get?_eq_some.2 he] at h
    cases h
  · intro h
    cases hg : m.get? k with
    | none => rfl
    | some v => exact absurd (mem_map_of_mem (f := Prod.fst) (m.get?_eq_some.1 hg)) h

@[simp] theorem get?_empty (k : α) : (empty : OrderedMap α β).get? k = none := rfl

theorem mem_set (m : OrderedMap α β) {k' : α} {v' : β} :
    (k', v') ∈ (m.set k v).entries ↔ if k' = k then v' = v else (k', v') ∈ m.entries := by
  rw [set]
  split <;> rename_i hk
  · simp only [replaced, mem_map]
    constructor
    · rintro ⟨⟨a, b⟩, he, h⟩
      by_cases ha : a = k
      · rw [if_pos ha, Prod.mk.injEq] at h
        rw [if_pos h.1.symm]
        exact h.2.symm
      · rw [if_neg ha, Prod.mk.injEq] at h
        obtain ⟨rfl, rfl⟩ := h
        rwa [if_neg ha]
    · intro h
      split at h <;> rename_i hk'
      · obtain ⟨e, he, hek⟩ := List.mem_map.1 hk
        exact ⟨e, he, by rw [if_pos hek, hk', h]⟩
      · exact ⟨(k', v'), h, if_neg hk'⟩
  · simp only [mem_append, mem_singleton, Prod.mk.injEq]
    by_cases hk' : k' = k
    · subst hk'
      rw [if_pos rfl]
      have : (k', v') ∉ m.entries := fun h => hk (mem_map_of_mem (f := Prod.fst) h)
      simp [this]
    · simp [hk']

theorem get?_set (m : OrderedMap α β) (k k' : α) (v : β) :
    (m.set k v).get? k' = if k' = k then some v else m.get? k' := by
  ext w
  rw [get?_eq_some, mem_set]
  by_cases h : k' = k
  · simp [h, eq_comm]
  · simp [h, get?_eq_some]

theorem get?_delete (m : OrderedMap α β) (k k' : α) :
    (m.delete k).get? k' = if k' = k then none else m.get? k' := by
  ext w
  rw [get?_eq_some, delete]
  by_cases h : k' = k
  · simp [h]
  · simp [h, get?_eq_some]

/-- The entries around a present key. -/
theorem entries_split (m : OrderedMap α β) (h : m.get? k = some v) :
    ∃ l r, m.entries = l ++ (k, v) :: r ∧ (∀ e ∈ l, e.1 ≠ k) ∧ ∀ e ∈ r, e.1 ≠ k := by
  obtain ⟨l, r, hs⟩ := append_of_mem (m.get?_eq_some.1 h)
  have hn := m.nodup
  rw [hs, map_append, map_cons, nodup_append, nodup_cons] at hn
  refine ⟨l, r, hs, fun e he hk => ?_, fun e he hk => ?_⟩
  · exact hn.2.2 e.1 (mem_map_of_mem he) k mem_cons_self hk
  · exact hn.2.1.1 (List.mem_map.2 ⟨e, he, hk⟩)

/-- A value set again where it already stands changes nothing. -/
theorem set_eq_self (m : OrderedMap α β) (h : m.get? k = some v) : m.set k v = m := by
  have hk : k ∈ m.keys := mem_map_of_mem (f := Prod.fst) (m.get?_eq_some.1 h)
  ext1
  rw [set, dif_pos hk]
  refine (map_congr_left fun e he => ?_).trans (List.map_id _)
  by_cases hek : e.1 = k
  · have hv : v = e.2 := m.entry_unique (m.get?_eq_some.1 h) (hek ▸ he)
    rw [if_pos hek, id, hv, ← hek]
  · rw [if_neg hek, id]

theorem set_of_absent (m : OrderedMap α β) (v : β) (h : m.get? k = none) :
    (m.set k v).entries = m.entries ++ [(k, v)] := by
  rw [set, dif_neg (m.get?_eq_none.1 h)]

section count

variable [DecidableEq β]

/-- How often a value is held. -/
def count (m : OrderedMap α β) (v : β) : ℕ := m.entries.countP fun e => e.2 = v

omit [DecidableEq α] in
@[simp] theorem count_empty (v : β) : (empty : OrderedMap α β).count v = 0 := rfl

theorem count_set (m : OrderedMap α β) {k : α} (v w : β) (h : m.get? k = none) :
    (m.set k v).count w = m.count w + if v = w then 1 else 0 := by
  rw [count, count, m.set_of_absent v h, countP_append, countP_singleton]
  simp

theorem count_delete (m : OrderedMap α β) {k : α} {v : β} (w : β) (h : m.get? k = some v) :
    m.count w = (m.delete k).count w + if v = w then 1 else 0 := by
  obtain ⟨l, r, hs, hl, hr⟩ := m.entries_split h
  have hd : (m.delete k).entries = l ++ r := by
    have hself : ∀ t : List (α × β), (∀ e ∈ t, e.1 ≠ k) → t.filter (fun e => e.1 ≠ k) = t :=
      fun t ht => List.filter_eq_self.2 fun e he => by simpa using ht e he
    simp only [delete, hs, filter_append]
    rw [hself l hl, filter_cons_of_neg (by simp), hself r hr]
  rw [count, count, hd, hs, countP_append, countP_append, countP_cons]
  simp only [decide_eq_true_eq]
  omega

end count

end OrderedMap

end V86
