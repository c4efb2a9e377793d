import V86.Mmio.MemoryMap
import V86.Lib.Runs
import Mathlib.Data.List.Range

/-!
# The memory map is layered

What the map is for: over the handlers last registered for each whole block lie the ranges, and an
address belongs to the range that contains it or else to its block. The map of `io.js` represents
such layers: a block dispatches exactly while a range touches it, with the ranges that do.
-/

namespace V86.Mmio

open Function
open List hiding Disjoint

variable {σ : Type} {io : Io σ} {b : Nat} {a addr size : Nat}

/-! ## Layers -/

/-- The ranges that are registered, and the handlers registered last for each whole block. -/
structure Layers (σ : Type) where
  ranges : List (Range σ)
  ground : Nat → Option (Handlers σ)

/-- Calls that change the map. -/
inductive MapOp (σ : Type) where
  | register (addr size : Nat) (handlers : Handlers σ)
  | unregister (addr size : Nat)
  | registerRange (addr size owner : Nat) (handlers : Handlers σ)
  | unregisterRange (addr size owner : Nat)

namespace Layers

/-- Whole blocks from an address on get handlers. -/
def cover (l : Layers σ) (addr size : Nat) (handlers : Handlers σ) : Layers σ :=
  { l with ground := fun b =>
      if addr ≤ b * blockSize ∧ b * blockSize < addr + size then some handlers else l.ground b }

def step (l : Layers σ) : MapOp σ → Layers σ
  | .register addr size handlers => l.cover addr size handlers
  | .unregister addr size => l.cover addr size Io.unmapped
  | .registerRange addr size owner handlers =>
    { l with ranges := l.ranges ++ [⟨addr, addr + size, owner, handlers⟩] }
  | .unregisterRange addr size owner =>
    { l with ranges :=
        l.ranges.filter fun r => !(r.start = addr && r.stop = addr + size && r.owner = owner) }

/-- Whole blocks are registered; ranges are disjoint from those that are registered, and are
unregistered as they were registered. -/
def Valid (l : Layers σ) : MapOp σ → Prop
  | .register addr size _ => blockSize ∣ addr ∧ blockSize ∣ size ∧ addr + size ≤ mmapMax
  | .unregister addr size => blockSize ∣ addr ∧ blockSize ∣ size ∧ addr + size ≤ mmapMax
  | .registerRange addr size _ _ =>
    0 < size ∧ addr + size ≤ mmapMax ∧ ∀ r ∈ l.ranges, r.stop ≤ addr ∨ addr + size ≤ r.start
  | .unregisterRange addr size owner =>
    ∃ r ∈ l.ranges, r.start = addr ∧ r.stop = addr + size ∧ r.owner = owner

/-- No address is in two ranges, and every range has one. -/
structure Disjoint (l : Layers σ) : Prop where
  nonempty : ∀ r ∈ l.ranges, r.start < r.stop
  disjoint : l.ranges.Pairwise fun r r' => r.stop ≤ r'.start ∨ r'.stop ≤ r.start

variable {l : Layers σ} {r r' : Range σ}

/-- A range is known by an address in it. -/
theorem Disjoint.eq (h : l.Disjoint) (hr : r ∈ l.ranges) (hr' : r' ∈ l.ranges)
    (ha : r.contains a = true) (ha' : r'.contains a = true) : r = r' := by
  by_contra hne
  have hsymm : Std.Symm fun r r' : Range σ => r.stop ≤ r'.start ∨ r'.stop ≤ r.start :=
    ⟨fun _ _ => Or.symm⟩
  have hdisjoint := h.disjoint.forall hr hr' hne
  simp only [Range.contains, Bool.and_eq_true, decide_eq_true_eq] at ha ha'
  omega

theorem Disjoint.eq_of_start (h : l.Disjoint) (hr : r ∈ l.ranges) (hr' : r' ∈ l.ranges)
    (hstart : r.start = r'.start) : r = r' := by
  have hlt := h.nonempty r hr
  have hlt' := h.nonempty r' hr'
  refine h.eq (a := r.start) hr hr' ?_ ?_
  · simp [Range.contains, hlt]
  · simp [Range.contains, hstart, hlt']

theorem Disjoint.step (h : l.Disjoint) {op : MapOp σ} (hvalid : l.Valid op) :
    (l.step op).Disjoint := by
  cases op with
  | register addr size handlers | unregister addr size => exact ⟨h.nonempty, h.disjoint⟩
  | registerRange addr size owner handlers =>
    obtain ⟨hsize, -, hdisjoint⟩ := hvalid
    refine ⟨fun r hr => ?_, ?_⟩
    · rcases List.mem_append.1 hr with hr | hr
      · exact h.nonempty r hr
      · obtain rfl := List.mem_singleton.1 hr
        exact Nat.lt_add_of_pos_right hsize
    · refine List.pairwise_append.2 ⟨h.disjoint, pairwise_singleton _ _, fun r hr r' hr' => ?_⟩
      obtain rfl := List.mem_singleton.1 hr'
      exact hdisjoint r hr
  | unregisterRange addr size owner =>
    exact ⟨fun r hr => h.nonempty r (List.mem_filter.1 hr).1, h.disjoint.filter _⟩

end Layers

/-! ## Representation -/

/-- A range has an address in the block. -/
def Range.touches (r : Range σ) (block : Nat) : Bool :=
  blockOf r.start ≤ block && block ≤ blockOf (r.stop - 1)

/-- The map has in each block these ranges over these handlers. -/
structure Represents (io : Io σ) (f : Nat → List (Range σ)) (g : Nat → Option (Handlers σ)) :
    Prop where
  plain : ∀ b, io.mmioBlocks b = none → f b = [] ∧ io.memoryMap b = .handlers (g b)
  shared : ∀ b ref, io.mmioBlocks b = some ref → ref < io.fresh ∧ f b ≠ [] ∧
    io.memoryMap b = .dispatch ref ∧ io.shareds ref = ⟨f b, g b⟩
  inj : ∀ b b' ref, io.mmioBlocks b = some ref → io.mmioBlocks b' = some ref → b = b'

variable {f : Nat → List (Range σ)} {g : Nat → Option (Handlers σ)}

namespace Represents

/-- What a block shares is what changes. -/
theorem setShared (h : Represents io f g) {ref : Nat} (hb : io.mmioBlocks b = some ref)
    (ranges : List (Range σ)) (hranges : ranges ≠ []) (background : Option (Handlers σ)) :
    Represents { io with shareds := Function.update io.shareds ref ⟨ranges, background⟩ }
      (Function.update f b ranges) (Function.update g b background) where
  plain := fun b' hb' => by
    have hne : b' ≠ b := fun heq => by
      subst heq
      exact absurd (hb'.symm.trans hb) nofun
    rw [update_of_ne hne, update_of_ne hne]
    exact h.plain b' hb'
  shared := fun b' ref' hb' => by
    obtain ⟨hlt, hnonempty, hmap, hshared⟩ := h.shared b' ref' hb'
    rcases eq_or_ne b' b with rfl | hne
    · obtain rfl := Option.some.inj (hb'.symm.trans hb)
      exact ⟨hlt, by simpa using hranges, hmap, by simp⟩
    · have href : ref' ≠ ref := fun heq => hne (h.inj b' b ref (heq ▸ hb') hb)
      refine ⟨hlt, ?_, hmap, ?_⟩
      · rw [update_of_ne hne]
        exact hnonempty
      · dsimp only
        rw [update_of_ne href, update_of_ne hne, update_of_ne hne]
        exact hshared
  inj := h.inj

/-- A round of the registration of whole blocks. -/
theorem registerBlock (h : Represents io f g) (handlers : Handlers σ) (b : Nat) :
    Represents (io.registerBlock handlers b) f (Function.update g b (some handlers)) := by
  unfold Io.registerBlock
  cases hb : io.mmioBlocks b with
  | some ref =>
    obtain ⟨-, hnonempty, -, hshared⟩ := h.shared b ref hb
    have hset := h.setShared hb _ hnonempty (some handlers)
    rw [update_eq_self] at hset
    dsimp only
    rw [hshared]
    exact hset
  | none =>
    obtain ⟨hempty, -⟩ := h.plain b hb
    refine ⟨fun b' hb' => ?_, fun b' ref hb' => ?_, h.inj⟩
    · obtain ⟨hempty', hmap'⟩ := h.plain b' hb'
      refine ⟨hempty', ?_⟩
      rcases eq_or_ne b' b with rfl | hne
      · simp
      · dsimp only
        rw [update_of_ne hne, update_of_ne hne]
        exact hmap'
    · have hne : b' ≠ b := fun heq => by
        subst heq
        exact absurd (hb.symm.trans hb') nofun
      dsimp only
      rw [update_of_ne hne, update_of_ne hne]
      exact h.shared b' ref hb'

/-- A round of the registration of a range. -/
theorem registerRangeBlock (h : Represents io f g) (r : Range σ) (b : Nat) :
    Represents (io.registerRangeBlock r b) (Function.update f b (f b ++ [r])) g := by
  unfold Io.registerRangeBlock
  cases hb : io.mmioBlocks b with
  | some ref =>
    obtain ⟨-, -, -, hshared⟩ := h.shared b ref hb
    have hset := h.setShared hb (f b ++ [r]) (by simp) (g b)
    rw [update_eq_self] at hset
    dsimp only
    rw [Io.setRanges, hshared]
    exact hset
  | none =>
    obtain ⟨hempty, hmap⟩ := h.plain b hb
    have hplain : io.plain b = g b := by
      rw [Io.plain, hmap]
    have hnew : (io.installShared b).setRanges io.fresh
          (((io.installShared b).shareds io.fresh).ranges ++ [r]) =
        { memoryMap := Function.update io.memoryMap b (.dispatch io.fresh)
          mmioBlocks := Function.update io.mmioBlocks b (some io.fresh)
          shareds := Function.update io.shareds io.fresh ⟨f b ++ [r], g b⟩
          fresh := io.fresh + 1 } := by
      rw [Io.setRanges, Io.installShared]
      simp [hempty, hplain]
    dsimp only
    rw [hnew]
    refine ⟨fun b' hb' => ?_, fun b' ref hb' => ?_, fun b₁ b₂ ref h₁ h₂ => ?_⟩
    · rcases eq_or_ne b' b with rfl | hne
      · simp at hb'
      · dsimp only at hb' ⊢
        rw [update_of_ne hne] at hb' ⊢
        rw [update_of_ne hne]
        exact h.plain b' hb'
    · dsimp only at hb' ⊢
      rcases eq_or_ne b' b with rfl | hne
      · rw [update_self] at hb'
        obtain rfl := Option.some.inj hb'
        exact ⟨Nat.lt_succ_self _, by simp, by simp, by simp⟩
      · rw [update_of_ne hne] at hb'
        obtain ⟨hlt, hnonempty, hmap', hshared⟩ := h.shared b' ref hb'
        rw [update_of_ne hne, update_of_ne hne, update_of_ne (Nat.ne_of_lt hlt)]
        exact ⟨Nat.lt_succ_of_lt hlt, hnonempty, hmap', hshared⟩
    · -- the new object is no other block's
      have hold : ∀ b', b' ≠ b →
          (Function.update io.mmioBlocks b (some io.fresh)) b' = some ref → ref ≠ io.fresh := by
        intro b' hne hb'
        rw [update_of_ne hne] at hb'
        exact Nat.ne_of_lt (h.shared b' ref hb').1
      rcases eq_or_ne b₁ b with rfl | hne₁
      · rcases eq_or_ne b₂ b₁ with rfl | hne₂
        · rfl
        · have hfresh : io.fresh = ref := by simpa using h₁
          exact absurd hfresh.symm (hold b₂ hne₂ h₂)
      · rcases eq_or_ne b₂ b with rfl | hne₂
        · have hfresh : io.fresh = ref := by simpa using h₂
          exact absurd hfresh.symm (hold b₁ hne₁ h₁)
        · dsimp only at h₁ h₂
          rw [update_of_ne hne₁] at h₁
          rw [update_of_ne hne₂] at h₂
          exact h.inj b₁ b₂ ref h₁ h₂

/-- A round of the removal of a range. -/
theorem unregisterRangeBlock (h : Represents io f g) (addr owner : Nat) (b : Nat) :
    Represents (io.unregisterRangeBlock addr owner b)
      (Function.update f b ((f b).filter fun r => r.owner ≠ owner || r.start ≠ addr)) g := by
  unfold Io.unregisterRangeBlock
  cases hb : io.mmioBlocks b with
  | none =>
    obtain ⟨hempty, -⟩ := h.plain b hb
    rw [hempty, filter_nil, ← hempty, update_eq_self]
    exact h
  | some ref =>
    obtain ⟨-, -, -, hshared⟩ := h.shared b ref hb
    dsimp only
    rw [hshared]
    dsimp only
    generalize hranges : (f b).filter (fun r => r.owner ≠ owner || r.start ≠ addr) = ranges
    split
    case isTrue hnil =>
      obtain rfl := List.isEmpty_iff.1 hnil
      refine ⟨fun b' hb' => ?_, fun b' ref' hb' => ?_, fun b₁ b₂ ref' h₁ h₂ => ?_⟩
      · rcases eq_or_ne b' b with rfl | hne
        · simp
        · dsimp only at hb' ⊢
          rw [update_of_ne hne] at hb' ⊢
          rw [update_of_ne hne]
          exact h.plain b' hb'
      · rcases eq_or_ne b' b with rfl | hne
        · simp at hb'
        · dsimp only at hb' ⊢
          rw [update_of_ne hne] at hb' ⊢
          rw [update_of_ne hne]
          have href : ref' ≠ ref := fun heq => hne (h.inj b' b ref (heq ▸ hb') hb)
          rw [Io.setRanges]
          dsimp only
          rw [update_of_ne href]
          exact h.shared b' ref' hb'
      · have hother : ∀ b', (Function.update io.mmioBlocks b none) b' = some ref' →
            io.mmioBlocks b' = some ref' := by
          intro b' hb'
          rcases eq_or_ne b' b with rfl | hne
          · simp at hb'
          · rw [update_of_ne hne] at hb'
            exact hb'
        exact h.inj b₁ b₂ ref' (hother b₁ h₁) (hother b₂ h₂)
    case isFalse hcons =>
      have hset := h.setShared hb ranges
        (fun hnil => hcons (List.isEmpty_iff.2 hnil)) (g b)
      rw [update_eq_self] at hset
      rw [Io.setRanges, hshared]
      exact hset

/-- The rounds for different blocks do not meet. -/
theorem foldl {step : Io σ → Nat → Io σ} {u : List (Range σ) → List (Range σ)}
    (hstep : ∀ {io f} b, Represents io f g → Represents (step io b) (Function.update f b (u (f b))) g)
    {bs : List Nat} (hnodup : bs.Nodup) (h : Represents io f g) :
    Represents (bs.foldl step io) (fun b => if b ∈ bs then u (f b) else f b) g := by
  induction bs generalizing io f with
  | nil => simpa using h
  | cons b bs ih =>
    rw [nodup_cons] at hnodup
    have hrest := ih hnodup.2 (hstep b h)
    have hall : (fun b' => if b' ∈ bs then u (Function.update f b (u (f b)) b')
          else Function.update f b (u (f b)) b') =
        fun b' => if b' ∈ b :: bs then u (f b') else f b' := by
      funext b'
      rcases eq_or_ne b' b with rfl | hne
      · simp [hnodup.1]
      · simp [hne]
    rw [hall] at hrest
    exact hrest

/-- Whole blocks are registered. -/
theorem foldl_registerBlock (h : Represents io f g) (handlers : Handlers σ) (bs : List Nat) :
    Represents (bs.foldl (Io.registerBlock handlers) io) f
      (fun b => if b ∈ bs then some handlers else g b) := by
  induction bs generalizing io g with
  | nil => simpa using h
  | cons b bs ih =>
    have hrest := ih (h.registerBlock handlers b)
    have hall : (fun b' => if b' ∈ bs then some handlers
          else Function.update g b (some handlers) b') =
        fun b' => if b' ∈ b :: bs then some handlers else g b' := by
      funext b'
      rcases eq_or_ne b' b with rfl | hne
      · simp
      · simp [hne]
    rw [hall] at hrest
    exact hrest

end Represents

/-! ## Calls -/

theorem blockSize_pos : 0 < blockSize := by decide

/-- Whole blocks are those that an aligned area covers. -/
theorem mem_wholeBlocks (haddr : blockSize ∣ addr) (hsize : blockSize ∣ size) :
    b ∈ Io.wholeBlocks addr size ↔ addr ≤ b * blockSize ∧ b * blockSize < addr + size := by
  obtain ⟨k, rfl⟩ := haddr
  obtain ⟨n, rfl⟩ := hsize
  have hcount : (blockSize * n + blockSize - 1) / blockSize = n := by
    have hlast : blockSize - 1 < blockSize := by decide
    rw [Nat.add_sub_assoc blockSize_pos, Nat.mul_add_div blockSize_pos, Nat.div_eq_of_lt hlast,
      Nat.add_zero]
  have hfirst : blockOf (blockSize * k) = k := Nat.mul_div_cancel_left k blockSize_pos
  have hle : blockSize * k ≤ b * blockSize ↔ k ≤ b := by
    rw [Nat.mul_comm b]
    exact Nat.mul_le_mul_left_iff blockSize_pos
  have hlt : b * blockSize < blockSize * k + blockSize * n ↔ b < k + n := by
    rw [Nat.mul_comm b, ← Nat.mul_add]
    exact Nat.mul_lt_mul_left blockSize_pos
  rw [Io.wholeBlocks, hcount, hfirst, List.mem_range'_1, hle, hlt]

/-- The blocks that a range touches. -/
theorem mem_touchedBlocks (hsize : 0 < size) (owner : Nat) (handlers : Handlers σ) :
    b ∈ Io.touchedBlocks addr size ↔
      (⟨addr, addr + size, owner, handlers⟩ : Range σ).touches b = true := by
  have hle : blockOf addr ≤ blockOf (addr + size - 1) := Nat.div_le_div_right (by omega)
  rw [Io.touchedBlocks, List.mem_range'_1, Range.touches, Bool.and_eq_true, decide_eq_true_eq,
    decide_eq_true_eq]
  dsimp only
  omega

theorem nodup_touchedBlocks (addr size : Nat) : (Io.touchedBlocks addr size).Nodup :=
  nodup_range'

/-- The ranges of the layers that touch a block. -/
def Layers.touching (l : Layers σ) (b : Nat) : List (Range σ) := l.ranges.filter (·.touches b)

/-- The map and its layers. -/
structure Mapped (σ : Type) where
  io : Io σ
  layers : Layers σ

namespace Mapped

/-- Nothing is registered, but for the addresses behind the memory. -/
def new (memorySize : Nat) : Mapped σ where
  io := Io.new memorySize
  layers :=
    { ranges := []
      ground := fun b =>
        if b ∈ Io.wholeBlocks memorySize (mmapMax - memorySize) then some Io.unmapped else none }

def step (s : Mapped σ) (op : MapOp σ) : Mapped σ where
  io :=
    match op with
    | .register addr size handlers => s.io.mmapRegister addr size handlers
    | .unregister addr size => s.io.mmapUnregister addr size
    | .registerRange addr size owner handlers => s.io.mmapRegisterRange addr size owner handlers
    | .unregisterRange addr size owner => s.io.mmapUnregisterRange addr size owner
  layers := s.layers.step op

def Valid (s : Mapped σ) (op : MapOp σ) : Prop := s.layers.Valid op

/-- The map represents its layers. -/
structure Inv (s : Mapped σ) : Prop where
  represents : Represents s.io s.layers.touching s.layers.ground
  disjoint : s.layers.Disjoint

variable {s : Mapped σ}

theorem Inv.register (h : s.Inv) (handlers : Handlers σ) (haddr : blockSize ∣ addr)
    (hsize : blockSize ∣ size) :
    Represents (s.io.mmapRegister addr size handlers) (s.layers.cover addr size handlers).touching
      (s.layers.cover addr size handlers).ground := by
  have hfold := h.represents.foldl_registerBlock handlers (Io.wholeBlocks addr size)
  simp only [mem_wholeBlocks haddr hsize] at hfold
  exact hfold

theorem Inv.registerRange (h : s.Inv) (hsize : 0 < size) (owner : Nat) (handlers : Handlers σ) :
    Represents (s.io.mmapRegisterRange addr size owner handlers)
      (s.layers.step (.registerRange addr size owner handlers)).touching s.layers.ground := by
  have hfold := h.represents.foldl
    (u := (· ++ [⟨addr, addr + size, owner, handlers⟩]))
    (fun {_ _} b h => h.registerRangeBlock ⟨addr, addr + size, owner, handlers⟩ b)
    (nodup_touchedBlocks addr size)
  have hall : (s.layers.step (.registerRange addr size owner handlers)).touching = fun b =>
      if b ∈ Io.touchedBlocks addr size
      then s.layers.touching b ++ [⟨addr, addr + size, owner, handlers⟩]
      else s.layers.touching b := by
    funext b
    have hmem : b ∈ Io.touchedBlocks addr size ↔ _ := mem_touchedBlocks hsize owner handlers
    rw [Layers.touching, Layers.step, filter_append, Layers.touching]
    split
    case isTrue htouched => rw [filter_singleton, hmem.1 htouched, cond_true]
    case isFalse htouched =>
      have hnot : (⟨addr, addr + size, owner, handlers⟩ : Range σ).touches b = false :=
        Bool.eq_false_iff.2 fun htouches => htouched (hmem.2 htouches)
      rw [filter_singleton, hnot, cond_false, append_nil]
  rw [hall]
  exact hfold

theorem Inv.unregisterRange (h : s.Inv) {owner : Nat}
    (hvalid : s.layers.Valid (.unregisterRange addr size owner)) :
    Represents (s.io.mmapUnregisterRange addr size owner)
      (s.layers.step (.unregisterRange addr size owner)).touching s.layers.ground := by
  obtain ⟨r₀, hr₀, rfl, hstop, rfl⟩ := hvalid
  have hsize : 0 < size := by
    have := h.disjoint.nonempty r₀ hr₀
    omega
  -- only the range itself starts there
  have heq : ∀ r ∈ s.layers.ranges, r.start = r₀.start → r = r₀ :=
    fun r hr => h.disjoint.eq_of_start hr hr₀
  have hsame : ∀ r ∈ s.layers.ranges, (r.owner ≠ r₀.owner || r.start ≠ r₀.start) =
      !(r.start = r₀.start && r.stop = r₀.start + size && r.owner = r₀.owner) := by
    intro r hr
    rcases eq_or_ne r.start r₀.start with hstart | hstart
    · obtain rfl := heq r hr hstart
      simp [hstop]
    · simp [hstart]
  have hfold := h.represents.foldl (fun {_ _} b h => h.unregisterRangeBlock r₀.start r₀.owner b)
    (nodup_touchedBlocks r₀.start size)
  have hall : (s.layers.step (.unregisterRange r₀.start size r₀.owner)).touching = fun b =>
      if b ∈ Io.touchedBlocks r₀.start size
      then (s.layers.touching b).filter fun r => r.owner ≠ r₀.owner || r.start ≠ r₀.start
      else s.layers.touching b := by
    funext b
    have hmem : b ∈ Io.touchedBlocks r₀.start size ↔ _ :=
      mem_touchedBlocks hsize r₀.owner r₀.handlers
    rw [← hstop] at hmem
    rw [Layers.touching, Layers.step, Layers.touching, filter_filter]
    split
    case isTrue =>
      rw [filter_filter]
      refine filter_congr fun r hr => ?_
      rw [hsame r hr, Bool.and_comm]
    case isFalse htouched =>
      refine filter_congr fun r hr => ?_
      cases htouches : r.touches b with
      | false => rfl
      | true =>
        have hne : r.start ≠ r₀.start := by
          intro hstart
          obtain rfl := heq r hr hstart
          exact htouched (hmem.2 htouches)
        simp [hne]
  rw [hall]
  exact hfold

theorem Inv.step (h : s.Inv) {op : MapOp σ} (hvalid : s.Valid op) : (s.step op).Inv := by
  refine ⟨?_, h.disjoint.step hvalid⟩
  cases op with
  | register addr size handlers => exact h.register handlers hvalid.1 hvalid.2.1
  | unregister addr size => exact h.register Io.unmapped hvalid.1 hvalid.2.1
  | registerRange addr size owner handlers => exact h.registerRange hvalid.1 owner handlers
  | unregisterRange addr size owner => exact h.unregisterRange hvalid

theorem inv_new (memorySize : Nat) : (new memorySize : Mapped σ).Inv where
  represents := by
    have hempty : Represents
        { memoryMap := fun _ => .handlers none
          mmioBlocks := fun _ => none
          shareds := fun _ => ⟨[], none⟩
          fresh := 0 } (fun _ => ([] : List (Range σ))) fun _ => none :=
      ⟨fun _ _ => ⟨rfl, rfl⟩, nofun, nofun⟩
    exact hempty.foldl_registerBlock Io.unmapped _
  disjoint := ⟨nofun, .nil⟩

end Mapped

/-! ## Accesses -/

namespace Layers

variable (l : Layers σ)

/-- What a block reads where no range is. -/
def groundRead8 (addr : Nat) : Access σ Byte :=
  match l.ground (blockOf addr) with
  | some handlers => handlers.read8 addr
  | none => failure

/-- What a block writes where no range is. -/
def groundWrite8 (addr : Nat) (value : Byte) : Access σ Unit :=
  match l.ground (blockOf addr) with
  | some handlers => handlers.write8 addr value
  | none => failure

/-- The 32-bit functions that the handlers have are equivalent to their byte functions, for ranges
where they are aligned and inside. -/
structure Consistent : Prop where
  rangeRead : ∀ r ∈ l.ranges, ∀ read32, r.handlers.read32 = some read32 → ∀ a, r.start ≤ a →
    a + 4 ≤ r.stop → a % 4 = 0 → read32 a = readBytes r.handlers.read8 a
  rangeWrite : ∀ r ∈ l.ranges, ∀ write32, r.handlers.write32 = some write32 → ∀ a, r.start ≤ a →
    a + 4 ≤ r.stop → a % 4 = 0 → ∀ value, write32 a value = writeBytes r.handlers.write8 a value
  groundRead : ∀ b handlers, l.ground b = some handlers → ∀ read32,
    handlers.read32 = some read32 → ∀ a, blockOf a = b → blockOf (a + 3) = b →
      read32 a = readBytes handlers.read8 a
  groundWrite : ∀ b handlers, l.ground b = some handlers → ∀ write32,
    handlers.write32 = some write32 → ∀ a, blockOf a = b → blockOf (a + 3) = b →
      ∀ value, write32 a value = writeBytes handlers.write8 a value

end Layers

/-- An access to a byte is decoded by the range that contains it, or else by its block; one to a
dword inside a block, like its four bytes. -/
structure Layered (s : Mapped σ) : Prop where
  range : ∀ r ∈ s.layers.ranges, ∀ a, r.contains a = true →
    s.io.mmapRead8 a = r.handlers.read8 a ∧ s.io.mmapWrite8 a = r.handlers.write8 a
  ground : ∀ a, (∀ r ∈ s.layers.ranges, r.contains a = false) →
    s.io.mmapRead8 a = s.layers.groundRead8 a ∧ s.io.mmapWrite8 a = s.layers.groundWrite8 a
  dword : s.layers.Consistent → ∀ a, blockOf (a + 3) = blockOf a →
    s.io.mmapRead32 a = readBytes s.io.mmapRead8 a ∧
      ∀ value, s.io.mmapWrite32 a value = writeBytes s.io.mmapWrite8 a value

theorem readBytes_congr {read8 read8' : Nat → Access σ Byte}
    (h : ∀ i, i < 4 → read8 (a + i) = read8' (a + i)) : readBytes read8 a = readBytes read8' a := by
  have h0 : read8 a = read8' a := h 0 (by omega)
  rw [readBytes, h0, h 1 (by omega), h 2 (by omega), h 3 (by omega), readBytes]

theorem writeBytes_congr {write8 write8' : Nat → Byte → Access σ Unit}
    (h : ∀ i, i < 4 → write8 (a + i) = write8' (a + i)) (value : Dword) :
    writeBytes write8 a value = writeBytes write8' a value := by
  have h0 : write8 a = write8' a := h 0 (by omega)
  rw [writeBytes, h0, h 1 (by omega), h 2 (by omega), h 3 (by omega), writeBytes]

theorem blockOf_add {i : Nat} (hblock : blockOf (a + 3) = blockOf a) (hi : i < 4) :
    blockOf (a + i) = blockOf a := by
  have hlow : blockOf a ≤ blockOf (a + i) := Nat.div_le_div_right (by omega)
  have hhigh : blockOf (a + i) ≤ blockOf (a + 3) := Nat.div_le_div_right (by omega)
  omega

theorem Range.touches_of_contains {r : Range σ} (h : r.contains a = true) :
    r.touches (blockOf a) = true := by
  simp only [contains, Bool.and_eq_true, decide_eq_true_eq] at h
  have hlow : blockOf r.start ≤ blockOf a := Nat.div_le_div_right h.1
  have hhigh : blockOf a ≤ blockOf (r.stop - 1) := Nat.div_le_div_right (by omega)
  simp [touches, hlow, hhigh]

namespace Shared

variable {shared : Shared σ}

theorem contains_of_find {r : Range σ} (h : shared.find a = some r) : r.contains a = true :=
  List.find?_some (p := fun r : Range σ => r.contains a) h

/-- None of four bytes is in a range. -/
theorem find_add_none (h : shared.find a = none)
    (hnone : (shared.find (a + 3)).isNone ∧ (shared.find (a + 1)).isNone ∧
      (shared.find (a + 2)).isNone) {i : Nat} (hi : i < 4) : shared.find (a + i) = none := by
  have hcases : i = 0 ∨ i = 1 ∨ i = 2 ∨ i = 3 := by omega
  rcases hcases with rfl | rfl | rfl | rfl
  · exact h
  · exact Option.isNone_iff_eq_none.1 hnone.2.1
  · exact Option.isNone_iff_eq_none.1 hnone.2.2
  · exact Option.isNone_iff_eq_none.1 hnone.1

end Shared

namespace Mapped

variable {s : Mapped σ}

/-- The range that an address in it finds. -/
theorem Inv.find_some (h : s.Inv) {r : Range σ} (hr : r ∈ s.layers.ranges)
    (ha : r.contains a = true) (g : Option (Handlers σ)) :
    (⟨s.layers.touching (blockOf a), g⟩ : Shared σ).find a = some r := by
  have hmem : r ∈ s.layers.touching (blockOf a) :=
    List.mem_filter.2 ⟨hr, Range.touches_of_contains ha⟩
  cases hfind : (⟨s.layers.touching (blockOf a), g⟩ : Shared σ).find a with
  | none => exact absurd ha (by simpa using List.find?_eq_none.1 hfind r hmem)
  | some r' =>
    have hr' := (List.mem_filter.1 (List.mem_of_find?_eq_some hfind)).1
    rw [h.disjoint.eq hr hr' ha (Shared.contains_of_find hfind)]

/-- An address in no range finds none. -/
theorem find_none (ha : ∀ r ∈ s.layers.ranges, r.contains a = false) (b : Nat)
    (g : Option (Handlers σ)) : (⟨s.layers.touching b, g⟩ : Shared σ).find a = none := by
  refine List.find?_eq_none.2 fun r hr => ?_
  rw [ha r (List.mem_filter.1 hr).1]
  nofun

theorem Inv.range (h : s.Inv) {r : Range σ} (hr : r ∈ s.layers.ranges) (ha : r.contains a = true) :
    s.io.mmapRead8 a = r.handlers.read8 a ∧ s.io.mmapWrite8 a = r.handlers.write8 a := by
  cases hblock : s.io.mmioBlocks (blockOf a) with
  | none =>
    have hempty := (h.represents.plain _ hblock).1
    have hmem : r ∈ s.layers.touching (blockOf a) :=
      List.mem_filter.2 ⟨hr, Range.touches_of_contains ha⟩
    rw [hempty] at hmem
    exact absurd hmem not_mem_nil
  | some ref =>
    obtain ⟨-, -, hmap, hshared⟩ := h.represents.shared _ _ hblock
    have hfind := h.find_some hr ha (s.layers.ground (blockOf a))
    refine ⟨?_, funext fun value => ?_⟩
    · simp only [Io.mmapRead8, Io.mapRead8, hmap, hshared, Shared.read8, hfind]
    · simp only [Io.mmapWrite8, Io.mapWrite8, hmap, hshared, Shared.write8, hfind]

theorem Inv.ground (h : s.Inv) (ha : ∀ r ∈ s.layers.ranges, r.contains a = false) :
    s.io.mmapRead8 a = s.layers.groundRead8 a ∧ s.io.mmapWrite8 a = s.layers.groundWrite8 a := by
  cases hblock : s.io.mmioBlocks (blockOf a) with
  | none =>
    have hmap := (h.represents.plain _ hblock).2
    refine ⟨?_, funext fun value => ?_⟩
    · rw [Io.mmapRead8, Io.mapRead8, hmap, Layers.groundRead8]
      cases s.layers.ground (blockOf a) <;> rfl
    · rw [Io.mmapWrite8, Io.mapWrite8, hmap, Layers.groundWrite8]
      cases s.layers.ground (blockOf a) <;> rfl
  | some ref =>
    obtain ⟨-, -, hmap, hshared⟩ := h.represents.shared _ _ hblock
    have hfind := find_none ha (blockOf a) (s.layers.ground (blockOf a))
    cases hground : s.layers.ground (blockOf a) with
    | none | some handlers =>
      rw [hground] at hshared hfind
      refine ⟨?_, funext fun value => ?_⟩
      · simp only [Io.mmapRead8, Io.mapRead8, hmap, hshared, Shared.read8, hfind,
          Layers.groundRead8, hground]
      · simp only [Io.mmapWrite8, Io.mapWrite8, hmap, hshared, Shared.write8, hfind,
          Layers.groundWrite8, hground]

/-- Bytes of one block are accessed through its entry. -/
theorem readBytes_block (hblock : blockOf (a + 3) = blockOf a) :
    readBytes s.io.mmapRead8 a = readBytes (s.io.mapRead8 (blockOf a)) a := by
  refine readBytes_congr fun i hi => ?_
  rw [Io.mmapRead8, blockOf_add hblock hi]

theorem writeBytes_block (hblock : blockOf (a + 3) = blockOf a) (value : Dword) :
    writeBytes s.io.mmapWrite8 a value = writeBytes (s.io.mapWrite8 (blockOf a)) a value := by
  refine writeBytes_congr (fun i hi => ?_) value
  funext byte
  rw [Io.mmapWrite8, blockOf_add hblock hi]

/-- The 32-bit read of a block where it decodes the bytes itself. -/
theorem blockRead32_eq (hconsistent : s.layers.Consistent) (hblock : blockOf (a + 3) = blockOf a)
    (hbytes : ∀ handlers, s.layers.ground (blockOf a) = some handlers → ∀ i, i < 4 →
      s.io.mapRead8 (blockOf a) (a + i) = handlers.read8 (a + i))
    (hnone : s.layers.ground (blockOf a) = none → s.io.mapRead8 (blockOf a) a = failure) :
    s.io.blockRead32 (s.layers.ground (blockOf a)) a = readBytes (s.io.mapRead8 (blockOf a)) a := by
  unfold Io.blockRead32
  cases hground : s.layers.ground (blockOf a) with
  | none =>
    rw [readBytes, hnone hground]
    rfl
  | some handlers =>
    dsimp only
    split
    case h_1 read32 hread32 =>
      rw [hconsistent.groundRead _ handlers hground read32 hread32 a rfl hblock]
      exact (readBytes_congr (hbytes handlers hground)).symm
    case h_2 => rfl

theorem blockWrite32_eq (hconsistent : s.layers.Consistent) (hblock : blockOf (a + 3) = blockOf a)
    (hbytes : ∀ handlers, s.layers.ground (blockOf a) = some handlers → ∀ i, i < 4 →
      s.io.mapWrite8 (blockOf a) (a + i) = handlers.write8 (a + i))
    (hnone : s.layers.ground (blockOf a) = none → s.io.mapWrite8 (blockOf a) a = fun _ => failure)
    (value : Dword) : s.io.blockWrite32 (s.layers.ground (blockOf a)) a value =
      writeBytes (s.io.mapWrite8 (blockOf a)) a value := by
  unfold Io.blockWrite32
  cases hground : s.layers.ground (blockOf a) with
  | none =>
    rw [writeBytes, hnone hground]
    rfl
  | some handlers =>
    dsimp only
    split
    case h_1 write32 hwrite32 =>
      rw [hconsistent.groundWrite _ handlers hground write32 hwrite32 a rfl hblock value]
      exact (writeBytes_congr (hbytes handlers hground) value).symm
    case h_2 => rfl

/-- An aligned dword that starts in a range and does not leave it is in it. -/
theorem Inv.find_inside (h : s.Inv) (hblock : blockOf (a + 3) = blockOf a) {r : Range σ}
    {g : Option (Handlers σ)}
    (hfind : (⟨s.layers.touching (blockOf a), g⟩ : Shared σ).find a = some r)
    (hstop : a + 4 ≤ r.stop) : r ∈ s.layers.ranges ∧ r.start ≤ a ∧
      ∀ i < 4, (⟨s.layers.touching (blockOf a), g⟩ : Shared σ).find (a + i) = some r := by
  have hr := (List.mem_filter.1 (List.mem_of_find?_eq_some hfind)).1
  have ha := Shared.contains_of_find hfind
  simp only [Range.contains, Bool.and_eq_true, decide_eq_true_eq] at ha
  refine ⟨hr, ha.1, fun i hi => ?_⟩
  rw [← blockOf_add hblock hi]
  refine h.find_some hr ?_ g
  simp only [Range.contains, Bool.and_eq_true, decide_eq_true_eq]
  omega

section
variable (h : s.Inv) (hconsistent : s.layers.Consistent) (hblock : blockOf (a + 3) = blockOf a)
include h hconsistent hblock

theorem Inv.sharedRead32 {ref : Nat} (href : s.io.mmioBlocks (blockOf a) = some ref) :
    s.io.sharedRead32 (s.io.shareds ref) a = readBytes (s.io.mapRead8 (blockOf a)) a := by
  obtain ⟨-, -, hmap, hshared⟩ := h.represents.shared _ _ href
  have hmapRead : ∀ x, s.io.mapRead8 (blockOf a) x = (s.io.shareds ref).read8 x := by
    intro x
    rw [Io.mapRead8, hmap]
  have hbytes : readBytes (s.io.mapRead8 (blockOf a)) a = readBytes (s.io.shareds ref).read8 a :=
    readBytes_congr fun i _ => hmapRead (a + i)
  rw [hbytes]
  unfold Io.sharedRead32
  split
  case h_1 r hfind =>
    split
    case isTrue hinside =>
      split
      case h_1 read32 hread32 =>
        rw [hshared] at hfind ⊢
        obtain ⟨hr, hstart, hinner⟩ := h.find_inside hblock hfind hinside.1
        rw [hconsistent.rangeRead r hr read32 hread32 a hstart hinside.1 hinside.2]
        refine readBytes_congr fun i hi => ?_
        simp only [Shared.read8, hinner i hi]
      case h_2 => rfl
    case isFalse => rfl
  case h_2 hfind =>
    split
    case isTrue hnone =>
      have hfinds : ∀ i, i < 4 → (s.io.shareds ref).find (a + i) = none :=
        fun i hi => Shared.find_add_none hfind hnone hi
      have hbackground : (s.io.shareds ref).background = s.layers.ground (blockOf a) := by
        rw [hshared]
      rw [hbackground, ← hbytes]
      refine blockRead32_eq hconsistent hblock (fun handlers hground i hi => ?_) fun hground => ?_
      · simp only [hmapRead, Shared.read8, hfinds i hi, hbackground, hground]
      · simp only [hmapRead, Shared.read8, hfind, hbackground, hground]
    case isFalse => rfl

theorem Inv.sharedWrite32 {ref : Nat} (href : s.io.mmioBlocks (blockOf a) = some ref)
    (value : Dword) : s.io.sharedWrite32 (s.io.shareds ref) a value =
      writeBytes (s.io.mapWrite8 (blockOf a)) a value := by
  obtain ⟨-, -, hmap, hshared⟩ := h.represents.shared _ _ href
  have hmapWrite : ∀ x, s.io.mapWrite8 (blockOf a) x = (s.io.shareds ref).write8 x := by
    intro x
    funext byte
    rw [Io.mapWrite8, hmap]
  have hbytes : writeBytes (s.io.mapWrite8 (blockOf a)) a value =
      writeBytes (s.io.shareds ref).write8 a value :=
    writeBytes_congr (fun i _ => hmapWrite (a + i)) value
  rw [hbytes]
  unfold Io.sharedWrite32
  split
  case h_1 r hfind =>
    split
    case isTrue hinside =>
      split
      case h_1 write32 hwrite32 =>
        rw [hshared] at hfind ⊢
        obtain ⟨hr, hstart, hinner⟩ := h.find_inside hblock hfind hinside.1
        rw [hconsistent.rangeWrite r hr write32 hwrite32 a hstart hinside.1 hinside.2]
        refine writeBytes_congr (fun i hi => ?_) value
        funext byte
        simp only [Shared.write8, hinner i hi]
      case h_2 => rfl
    case isFalse => rfl
  case h_2 hfind =>
    split
    case isTrue hnone =>
      have hfinds : ∀ i, i < 4 → (s.io.shareds ref).find (a + i) = none :=
        fun i hi => Shared.find_add_none hfind hnone hi
      have hbackground : (s.io.shareds ref).background = s.layers.ground (blockOf a) := by
        rw [hshared]
      rw [hbackground, ← hbytes]
      refine blockWrite32_eq hconsistent hblock (fun handlers hground i hi => ?_)
        (fun hground => ?_) value
      · funext byte
        simp only [hmapWrite, Shared.write8, hfinds i hi, hbackground, hground]
      · funext byte
        simp only [hmapWrite, Shared.write8, hfind, hbackground, hground]
    case isFalse => rfl

theorem Inv.dword : s.io.mmapRead32 a = readBytes s.io.mmapRead8 a ∧
      ∀ value, s.io.mmapWrite32 a value = writeBytes s.io.mmapWrite8 a value := by
  cases href : s.io.mmioBlocks (blockOf a) with
  | none =>
    have hmap := (h.represents.plain _ href).2
    refine ⟨?_, fun value => ?_⟩
    · rw [readBytes_block hblock, Io.mmapRead32, hmap]
      refine blockRead32_eq hconsistent hblock (fun handlers hground i _ => ?_) fun hground => ?_
      · simp only [Io.mapRead8, hmap, hground]
      · simp only [Io.mapRead8, hmap, hground]
    · rw [writeBytes_block hblock, Io.mmapWrite32, hmap]
      refine blockWrite32_eq hconsistent hblock (fun handlers hground i _ => ?_)
        (fun hground => ?_) value
      · funext byte
        simp only [Io.mapWrite8, hmap, hground]
      · funext byte
        simp only [Io.mapWrite8, hmap, hground]
  | some ref =>
    have hmap := (h.represents.shared _ _ href).2.2.1
    refine ⟨?_, fun value => ?_⟩
    · rw [readBytes_block hblock, Io.mmapRead32, hmap]
      exact h.sharedRead32 hconsistent hblock href
    · rw [writeBytes_block hblock, Io.mmapWrite32, hmap]
      exact h.sharedWrite32 hconsistent hblock href value

end

theorem Inv.layered (h : s.Inv) : Layered s where
  range := fun _ hr _ ha => h.range hr ha
  ground := fun _ ha => h.ground ha
  dword := fun hconsistent _ hblock => h.dword hconsistent hblock

end Mapped

/-- The map is layered after any calls that register ranges which are disjoint and unregister them
as they were registered. -/
theorem map_layered (memorySize : Nat) (ops : List (MapOp σ))
    (h : Runs.Each Mapped.step Mapped.Valid (Mapped.new memorySize) ops) :
    Layered (ops.foldl Mapped.step (Mapped.new memorySize)) := by
  have hinv : (ops.foldl Mapped.step (Mapped.new memorySize) : Mapped σ).Inv :=
    Runs.inv_of (A := fun _ => True) (I := Mapped.Inv) (G := fun _ _ => True)
      (fun _ _ _ hinv hvalid => ⟨hinv.step hvalid, trivial⟩) (fun _ _ => trivial)
      (Mapped.inv_new memorySize) h
  exact hinv.layered

/-- A register of a byte, at every address. -/
def oneByte : Handlers Byte where
  read8 := fun _ => get
  write8 := fun _ value => set value
  read32 := none
  write32 := none

/-- Ranges over a block and across its end, whose first is removed after the block is unmapped. -/
theorem map_layered_example :
    Layered ([.register 0x20000 0x20000 oneByte, .registerRange 0x3FF80 0x100 1 oneByte,
      .registerRange 0x20000 0x10 2 oneByte, .unregister 0x20000 0x20000,
      .unregisterRange 0x3FF80 0x100 1].foldl Mapped.step (Mapped.new 0x20000)) := by
  refine map_layered 0x20000 _ ⟨?_, ?_, ?_, ?_, ?_, trivial⟩
  · exact ⟨by decide, by decide, by decide⟩
  · exact ⟨by decide, by decide, nofun⟩
  · refine ⟨by decide, by decide, fun r hr => ?_⟩
    obtain rfl := List.mem_singleton.1 hr
    exact .inr (by decide)
  · exact ⟨by decide, by decide, by decide⟩
  · exact ⟨_, mem_cons_self, rfl, rfl, rfl⟩

end V86.Mmio
