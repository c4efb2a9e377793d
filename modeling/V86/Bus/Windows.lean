import V86.Bus.Decoding
import V86.Bus.Physical

/-!
# The windows of the physical bus

Whatever windows are set, restored and refused, the windows of a machine are apart from each other
and from extended RAM, and the limit of fast RAM is below all that decodes in front of RAM.
-/

namespace V86.Bus

variable {bus bus' : PhysicalBus} {extended : Option (Nat × Nat)} {ramSize : Nat} {w w' : Window}
  {slot : Nat} {window : Option Window} {m m' : Mapping}

/-! ## Checks -/

theorem checkedRange_iff {address length : Nat} : checkedRange address length = .ok () ↔
    0 < length ∧ address + length ≤ physicalLimit := by
  rw [checkedRange, physicalLimit]
  split
  · next herror => exact ⟨nofun, fun hok => absurd herror (by omega)⟩
  · next hok => exact ⟨fun _ => by omega, fun _ => rfl⟩

/-- What `validate` asks of a window by itself. -/
structure Window.Sound (extended : Option (Nat × Nat)) (ramSize : Nat) (w : Window) : Prop where
  wellFormed : w.wellFormed
  guestEnd : w.guestEnd ≤ physicalLimit
  backingEnd : w.backingEnd ≤ highMemoryBase
  backed : w.backed ramSize
  extended : ∀ range ∈ extended, ¬overlaps w.guestBase.toNat w.guestEnd range.1 range.2

theorem conflicts_symm (h : w.conflicts w') : w'.conflicts w :=
  h.imp And.symm fun ⟨hw, hw', hoverlap⟩ => ⟨hw', hw, hoverlap.symm⟩

variable {i : Fin 16} {changed : Bool}

theorem mem_others : w ∈ bus.others i ↔ ∃ j ≠ i, bus.windows j = some w := by
  simp only [PhysicalBus.others, List.mem_filterMap, List.mem_filter, List.mem_finRange, true_and,
    decide_eq_true_eq]

theorem mem_list : w ∈ bus.list ↔ ∃ i, bus.windows i = some w := by
  simp only [PhysicalBus.list, List.mem_filterMap, List.mem_ofFn, id_eq]
  exact ⟨fun ⟨_, ⟨i, hi⟩, hw⟩ => ⟨i, hi.trans hw⟩, fun ⟨i, hi⟩ => ⟨_, ⟨i, rfl⟩, hi⟩⟩

theorem validate_ok (h : bus.validate extended i w ramSize = .ok ()) :
    w.Sound extended ramSize ∧ ∀ j ≠ i, ∀ other, bus.windows j = some other →
      ¬w.conflicts other := by
  simp only [PhysicalBus.validate, bind, Except.bind, throw, throwThe, MonadExceptOf.throw, pure,
    Except.pure] at h
  split at h
  · cases h
  · next hformed =>
    split at h
    · cases h
    · next hrange =>
      split at h
      · cases h
      · next hend =>
        split at h
        · cases h
        · next hbacked =>
          have hsound (hextended : ∀ range ∈ extended,
              ¬overlaps w.guestBase.toNat w.guestEnd range.1 range.2) :
              w.Sound extended ramSize :=
            ⟨not_not.1 hformed, (checkedRange_iff.1 hrange).2, Nat.le_of_not_lt hend,
              not_not.1 hbacked, hextended⟩
          have hothers {r : Except PhysicalError Unit}
              (h : (if (bus.others i).any (fun other => decide (w.conflicts other)) = true then
                .error .overlap else r) = Except.ok ()) :
              ∀ j ≠ i, ∀ other, bus.windows j = some other → ¬w.conflicts other := by
            intro j hj other hother hconflict
            rw [if_pos (List.any_eq_true.2
              ⟨other, mem_others.2 ⟨j, hj, hother⟩, decide_eq_true hconflict⟩)] at h
            cases h
          cases extended with
          | none => exact ⟨hsound nofun, hothers h⟩
          | some range =>
            dsimp only at h
            split at h
            · cases h
            · next hextended =>
              refine ⟨hsound fun range' hrange' => ?_, hothers h⟩
              cases hrange'
              exact hextended

/-! ## Buses -/

/-- What holds of the windows of a bus. -/
structure PhysicalBus.Sound (extended : Option (Nat × Nat)) (ramSize : Nat) (bus : PhysicalBus) :
    Prop where
  window : ∀ i w, bus.windows i = some w → w.Sound extended ramSize
  apart : ∀ i j w w', i ≠ j → bus.windows i = some w → bus.windows j = some w' → ¬w.conflicts w'

theorem PhysicalBus.Sound.new : PhysicalBus.new.Sound extended ramSize := ⟨nofun, nofun⟩

/-- The generation plays no part. -/
theorem PhysicalBus.Sound.withGeneration (h : bus.Sound extended ramSize) (generation : Nat) :
    PhysicalBus.Sound extended ramSize { bus with generation } := ⟨h.window, h.apart⟩

/-- A bus that accepts a window has it in its slot and is otherwise what it was. -/
theorem replace_ok (h : bus.replace extended slot window ramSize = .ok (bus', changed)) :
    ∃ hslot : slot < 16, (∀ w ∈ window, bus.validate extended ⟨slot, hslot⟩ w ramSize = .ok ()) ∧
      bus'.windows = Function.update bus.windows ⟨slot, hslot⟩ window ∧
      (changed = false → bus' = bus) := by
  rw [PhysicalBus.replace] at h
  split at h
  · next hslot =>
    refine ⟨hslot, ?_⟩
    have hrest (h : (if bus.windows ⟨slot, hslot⟩ = window then pure (bus, false)
        else if bus.generation + 1 = 2 ^ 64 then throw .generationExhausted
        else pure (⟨Function.update bus.windows ⟨slot, hslot⟩ window, bus.generation + 1⟩, true) :
          Except PhysicalError (PhysicalBus × Bool)) = .ok (bus', changed)) :
        bus'.windows = Function.update bus.windows ⟨slot, hslot⟩ window ∧
          (changed = false → bus' = bus) := by
      split at h
      · next hsame =>
        cases h
        rw [← hsame, Function.update_eq_self]
        exact ⟨rfl, fun _ => rfl⟩
      · split at h
        · cases h
        · cases h
          exact ⟨rfl, nofun⟩
    simp only [bind, Except.bind] at h
    cases window with
    | none => exact ⟨nofun, hrest h⟩
    | some w =>
      cases hvalid : bus.validate extended ⟨slot, hslot⟩ w ramSize with
      | error error =>
        simp only [hvalid] at h
        cases h
      | ok =>
        simp only [hvalid] at h
        refine ⟨fun w' hw' => ?_, hrest h⟩
        cases hw'
        exact hvalid
  · cases h

theorem PhysicalBus.Sound.replace (h : bus.Sound extended ramSize)
    (hreplace : bus.replace extended slot window ramSize = .ok (bus', changed)) :
    bus'.Sound extended ramSize := by
  obtain ⟨hslot, hvalid, hwindows, -⟩ := replace_ok hreplace
  have hof (i : Fin 16) {w : Window} (hi : bus'.windows i = some w) :
      i = ⟨slot, hslot⟩ ∧ window = some w ∨ i ≠ ⟨slot, hslot⟩ ∧ bus.windows i = some w := by
    rw [hwindows, Function.update_apply] at hi
    split at hi
    · next heq => exact .inl ⟨heq, hi⟩
    · next hne => exact .inr ⟨hne, hi⟩
  constructor
  · intro i w hi
    obtain ⟨-, hw⟩ | ⟨-, hw⟩ := hof i hi
    · exact (validate_ok (hvalid w hw)).1
    · exact h.window i w hw
  · intro i j w w' hij hi hj
    obtain ⟨hi, hw⟩ | ⟨hi, hw⟩ := hof i hi
    · obtain ⟨hj, -⟩ | ⟨hj, hw'⟩ := hof j hj
      · exact absurd (hi.trans hj.symm) hij
      · exact (validate_ok (hvalid w hw)).2 j hj w' hw'
    · obtain ⟨hj, hw'⟩ | ⟨hj, hw'⟩ := hof j hj
      · exact mt conflicts_symm ((validate_ok (hvalid w' hw')).2 i hi w hw)
      · exact h.apart i j w w' hij hw hw'

theorem validatedWindows_sound {windows : Fin 16 → Option Window}
    (h : m.validatedWindows windows = .ok bus) :
    bus.Sound m.layout.extendedRange m.layout.memorySize := by
  have hfold (slots : List (Fin 16)) (bus₀ : PhysicalBus)
      (hsound : bus₀.Sound m.layout.extendedRange m.layout.memorySize)
      (h : slots.foldlM (fun candidate (slot : Fin 16) => Prod.fst <$>
        candidate.replace m.layout.extendedRange slot.val (windows slot) m.layout.memorySize) bus₀ =
          .ok bus) : bus.Sound m.layout.extendedRange m.layout.memorySize := by
    induction slots generalizing bus₀ with
    | nil =>
      cases h
      exact hsound
    | cons slot slots ih =>
      rw [List.foldlM_cons] at h
      cases hreplace : bus₀.replace m.layout.extendedRange slot.val (windows slot)
          m.layout.memorySize with
      | error error =>
        rw [hreplace] at h
        cases h
      | ok result =>
        rw [hreplace] at h
        exact ih result.1 (hsound.replace hreplace) h
  exact hfold _ _ .new h

/-! ## Machines -/

/-- What holds of the memory map of a machine. -/
structure Layout.Sound (m : Layout) : Prop where
  bus : m.bus.Sound m.extendedRange m.memorySize
  memorySize : pageSize ∣ m.memorySize ∧ m.memorySize + 2 ^ 17 ≤ 2 ^ 31
  ramFastLimit : m.ramFastLimit = m.fastLimit
  extended : m.pages ≠ 0 → highMemoryBase ≤ m.base ∧ pageSize ∣ m.base ∧
    m.base + m.pages * pageSize ≤ physicalLimit

theorem Layout.Sound.withBus (h : m.layout.Sound)
    (hbus : bus.Sound m.layout.extendedRange m.layout.memorySize) : (m.withBus bus).layout.Sound :=
  ⟨hbus, h.memorySize, rfl, h.extended⟩

theorem Layout.Sound.setWindow (h : m.layout.Sound) (slot : Nat) (window : Option Window) :
    (m.setWindow slot window).2.layout.Sound := by
  rw [Mapping.setWindow]
  split
  · exact h
  · split
    · exact h
    · exact h
    · next hreplace => exact h.withBus (h.bus.replace hreplace)

theorem Layout.Sound.restoreWindows (h : m.layout.Sound) (windows : Fin 16 → Option Window) :
    (m.restoreWindows windows).2.layout.Sound := by
  rw [Mapping.restoreWindows]
  split
  · exact h
  · split
    · exact h
    · next hvalidated =>
      split
      · exact h
      · exact h.withBus ((validatedWindows_sound hvalidated).withGeneration _)

theorem Layout.Sound.setTseg (h : m.layout.Sound) {base stop : BitVec 32}
    (hset : m.setTseg base stop = some m') : m'.layout.Sound := by
  rw [Mapping.setTseg] at hset
  generalize (if base < stop then (base, stop) else (0, 0)) = range at hset
  obtain ⟨base, stop⟩ := range
  dsimp only at hset
  split at hset
  · cases hset
    exact h
  · split at hset
    · cases hset
    · cases hset
      exact ⟨h.bus.withGeneration _, h.memorySize, rfl, h.extended⟩

theorem Layout.Sound.step (h : m.layout.Sound) {command : MapCommand}
    (hstep : m.step command = some m') : m'.layout.Sound := by
  cases command with
  | setWindow slot window =>
    cases hstep
    exact h.setWindow slot window
  | restoreWindows windows =>
    cases hstep
    exact h.restoreWindows windows
  | setTseg base stop => exact h.setTseg hstep
  | smm active =>
    cases hstep
    exact ⟨h.bus, h.memorySize, h.ramFastLimit, h.extended⟩
  | busy busy =>
    cases hstep
    exact h
  | decode smramControl longMode slotPage regions =>
    cases hstep
    exact ⟨h.bus, h.memorySize, h.ramFastLimit, h.extended⟩

theorem Layout.Sound.run (h : m.layout.Sound) {commands : List MapCommand}
    (hrun : m.run commands = some m') : m'.layout.Sound := by
  induction commands generalizing m with
  | nil =>
    cases hrun
    exact h
  | cons command commands ih =>
    obtain ⟨next, hstep, hrun⟩ := Option.bind_eq_some_iff.1 hrun
    exact ih (h.step hstep) hrun

theorem Settings.bare_sound (c : Settings) : c.bare.layout.Sound where
  bus := .new
  memorySize := ⟨Nat.dvd_trans (by decide) c.memorySize_sound.1, c.memorySize_sound.2⟩
  ramFastLimit := by
    have hmemory := c.memorySize_sound.2
    change c.memorySize = min (min c.memorySize c.memorySize) (2 ^ 32 - 1)
    omega
  extended := fun hpages => absurd rfl hpages

/-- The windows after one is set. -/
theorem setWindow_windows (h : (m.setWindow slot window).2.layout.bus.windows i = some w) :
    m.layout.bus.windows i = some w ∨ window = some w := by
  rw [Mapping.setWindow] at h
  split at h
  · exact .inl h
  · split at h
    · exact .inl h
    · exact .inl h
    · next bus hreplace =>
      obtain ⟨hslot, -, hwindows, -⟩ := replace_ok hreplace
      change bus.windows i = some w at h
      rw [hwindows, Function.update_apply] at h
      split at h
      · exact .inr h
      · exact .inl h

theorem setWindow_kept (m : Mapping) (slot : Nat) (window : Option Window) :
    (m.setWindow slot window).2.layout.pages = m.layout.pages := by
  rw [Mapping.setWindow]
  split
  · rfl
  · split <;> rfl

/-- The window that relocates the top of RAM ends where extended RAM starts. -/
theorem Settings.start_sound (c : Settings) : c.start.layout.Sound := by
  have hextended := c.extended_sound.2
  rw [physicalLimit, pageSize] at hextended
  have hextend {m : Mapping} (h : m.layout.Sound)
      (hwindows : ∀ i w, m.layout.bus.windows i = some w → w.guestEnd = 2 ^ 32 + c.high)
      (hpages : m.layout.pages = 0) (hhigh : c.extendedPages ≠ 0) :
      Layout.Sound { m.layout with base := 2 ^ 32 + c.high, pages := c.extendedPages } := by
    refine ⟨⟨fun i w hi => ?_, h.bus.apart⟩, h.memorySize, h.ramFastLimit, fun _ => ?_⟩
    · have hw := h.bus.window i w hi
      refine ⟨hw.wellFormed, hw.guestEnd, hw.backingEnd, hw.backed, fun range hrange => ?_⟩
      rw [Layout.extendedRange, if_pos hhigh] at hrange
      cases hrange
      rw [hwindows i w hi]
      exact fun hoverlap => Nat.lt_irrefl _ hoverlap.2
    · refine ⟨Nat.le_add_right _ _, ?_, c.extended_sound.2⟩
      change pageSize ∣ 2 ^ 32 + c.high
      obtain hzero | ⟨⟨blocks, hblocks⟩, -⟩ := c.high_sound
      · rw [hzero]
        decide
      · rw [hblocks, pageSize]
        omega
  unfold Settings.start
  dsimp only
  by_cases hhigh : c.high = 0
  · rw [if_pos hhigh]
    by_cases hpages : c.extendedPages = 0
    · rw [if_pos hpages]
      exact c.bare_sound
    · rw [if_neg hpages]
      exact hextend c.bare_sound (fun _ _ hw => (by cases hw)) rfl hpages
  · rw [if_neg hhigh]
    by_cases hpages : c.extendedPages = 0
    · rw [if_pos hpages]
      exact c.bare_sound.setWindow 0 _
    · rw [if_neg hpages]
      refine hextend (c.bare_sound.setWindow 0 _) (fun i w hi => ?_) (setWindow_kept _ _ _) hpages
      obtain hnone | hsome := setWindow_windows hi
      · cases hnone
      · cases hsome
        have hmemory := c.memorySize_sound.2
        have hfits : c.high < 2 ^ 32 := by
          obtain hzero | ⟨-, hle⟩ := c.high_sound
          · omega
          · omega
        rw [Window.guestEnd, BitVec.toNat_ofNat, Nat.mod_eq_of_lt hfits]
        rfl

end V86.Bus
