import V86.Fs.Locks
import Mathlib.Data.List.TakeWhile

/-!
# What a list of lock regions represents

The reference state says what each owner holds on each byte. A list represents it while it is well
formed: sorted, with positive lengths, and no two regions of one owner overlapping. Step (2) of
`Lock` leaves of every region what the request does not cover.
-/

namespace V86.Fs

open List

/-- A lock's owner: a `proc_id` and a `client_id`. -/
abbrev Owner := Nat × String

/-- What each owner holds on each byte; `unlck` is nothing. -/
abbrev Holdings := Owner → Nat → LockType

/-- Whether two owners cannot hold these on one byte. -/
def LockType.Excludes (t u : LockType) : Prop :=
  t ≠ .unlck ∧ u ≠ .unlck ∧ (t = .wrlck ∨ u = .wrlck)

namespace FSLockRegion

def owner (r : FSLockRegion) : Owner := (r.procId, r.clientId)

/-- A byte of the region. -/
def Covers (r : FSLockRegion) (b : Nat) : Prop := r.start ≤ b ∧ (b : ℕ∞) < r.stop

instance (r : FSLockRegion) (b : Nat) : Decidable (r.Covers b) :=
  inferInstanceAs (Decidable (_ ∧ _))

end FSLockRegion

/-! ## The reference state -/

/-- Another owner holds what excludes the request on one of its bytes. -/
def Blocked (held : Holdings) (request : FSLockRegion) : Prop :=
  ∃ o b, o ≠ request.owner ∧ request.Covers b ∧ request.type.Excludes (held o b)

/-- The requesting owner's lock changes on exactly the requested bytes. -/
def grant (held : Holdings) (request : FSLockRegion) : Holdings := fun o b =>
  if o = request.owner ∧ request.Covers b then request.type else held o b

/-- What the regions of a list lock. -/
def holdings (locks : List FSLockRegion) : Holdings := fun o b =>
  ((locks.find? fun r => r.owner = o ∧ r.Covers b).map (·.type)).getD .unlck

/-- Two regions of one owner with a common byte. -/
def Overlap (r s : FSLockRegion) : Prop := r.owner = s.owner ∧ ∃ b, r.Covers b ∧ s.Covers b

structure WellFormed (locks : List FSLockRegion) : Prop where
  sorted : locks.Pairwise (·.start ≤ ·.start)
  positive : ∀ r ∈ locks, 0 < r.length
  disjoint : locks.Pairwise fun r s => ¬Overlap r s
  locked : ∀ r ∈ locks, r.type ≠ .unlck

/-! ## Regions -/

namespace FSLockRegion

variable {r s request : FSLockRegion} {b : Nat}

theorem clone_eq (h : 0 < r.length) : r.clone = r := by
  obtain ⟨type, start, length, procId, clientId⟩ := r
  cases length using ENat.recTopCoe with
  | top => simp [clone, getState, setState]
  | coe n =>
    have hn : n ≠ 0 := by simpa [pos_iff_ne_zero] using h
    simp [clone, getState, setState, hn]

theorem start_lt_stop (h : 0 < r.length) : (r.start : ℕ∞) < r.stop := by
  unfold stop
  cases hl : r.length using ENat.recTopCoe with
  | top => simp
  | coe n =>
    rw [hl] at h
    norm_cast at h ⊢
    omega

theorem covers_start (h : 0 < r.length) : r.Covers r.start := ⟨le_rfl, start_lt_stop h⟩

theorem length_pos (h : (r.start : ℕ∞) < r.stop) : 0 < r.length := by
  by_contra hn
  have h0 : r.length = 0 := by simpa using hn
  simp [stop, h0] at h

theorem sameOwner_iff : r.SameOwner s ↔ r.owner = s.owner := by
  simp [SameOwner, owner]

theorem isAlike_iff : r.IsAlike s ↔ s.owner = r.owner ∧ s.type = r.type := by
  simp [IsAlike, owner, and_assoc]

/-- Two regions of positive length with no common byte lie one behind the other. -/
theorem stop_le_or_of_disjoint (hr : 0 < r.length) (hs : 0 < s.length)
    (h : ¬∃ b, r.Covers b ∧ s.Covers b) : r.stop ≤ s.start ∨ s.stop ≤ r.start := by
  by_contra hn
  simp only [not_or, not_le] at hn
  rcases le_total r.start s.start with hle | hle
  · exact h ⟨s.start, ⟨hle, hn.1⟩, covers_start hs⟩
  · exact h ⟨r.start, covers_start hr, ⟨hle, hn.2⟩⟩

theorem not_covers_of_stop_le (h : r.stop ≤ s.start) : ¬∃ b, r.Covers b ∧ s.Covers b := by
  rintro ⟨b, ⟨_, hb⟩, hb', _⟩
  have : (b : ℕ∞) < s.start := hb.trans_le h
  norm_cast at this
  omega

theorem conflictsWith_iff (hr : 0 < r.length) (hs : 0 < s.length) : r.conflictsWith s ↔
      s.owner ≠ r.owner ∧ r.type.Excludes s.type ∧ ∃ b, r.Covers b ∧ s.Covers b := by
  have hmeet : (∃ b, r.Covers b ∧ s.Covers b) ↔ ¬(r.stop ≤ s.start) ∧ ¬(s.stop ≤ r.start) := by
    constructor
    · refine fun h => ⟨fun hle => not_covers_of_stop_le hle h, fun hle => ?_⟩
      exact not_covers_of_stop_le hle (h.imp fun _ => And.symm)
    · intro h
      by_contra hn
      exact (stop_le_or_of_disjoint hr hs hn).elim h.1 h.2
  rw [hmeet]
  simp only [conflictsWith, sameOwner_iff, LockType.Excludes]
  grind

end FSLockRegion

open FSLockRegion

variable {locks locks' rest : List FSLockRegion} {r s request : FSLockRegion} {o : Owner} {b : Nat}
  {t : LockType}

/-! ## Holdings -/

/-- Some region of the list is a lock of this type on the byte. -/
def Held (locks : List FSLockRegion) (o : Owner) (b : Nat) (t : LockType) : Prop :=
  ∃ r ∈ locks, r.owner = o ∧ r.Covers b ∧ r.type = t

theorem Held.perm (h : locks.Perm locks') : Held locks o b t ↔ Held locks' o b t := by
  simp only [Held, h.mem_iff]

theorem held_append : Held (locks ++ locks') o b t ↔ Held locks o b t ∨ Held locks' o b t := by
  simp only [Held, mem_append, or_and_right, exists_or]

theorem held_cons :
    Held (r :: rest) o b t ↔ (r.owner = o ∧ r.Covers b ∧ r.type = t) ∨ Held rest o b t := by
  simp only [Held, mem_cons, or_and_right, exists_or, exists_eq_left]

theorem overlap_symm (h : Overlap r s) : Overlap s r :=
  ⟨h.1.symm, h.2.imp fun _ => And.symm⟩

/-- A list without overlaps holds one type of lock on a byte for an owner. -/
theorem holdings_of_held (hd : locks.Pairwise fun r s => ¬Overlap r s) (h : Held locks o b t) :
    holdings locks o b = t := by
  obtain ⟨r, hr, rfl, hb, rfl⟩ := h
  unfold holdings
  induction locks with
  | nil => cases hr
  | cons s rest ih =>
    obtain ⟨hs, hd⟩ := List.pairwise_cons.1 hd
    rw [List.find?_cons]
    split
    case h_1 heq =>
      rcases List.mem_cons.1 hr with rfl | hr
      · rfl
      · have hmatch : s.owner = r.owner ∧ s.Covers b := by simpa using heq
        exact absurd ⟨hmatch.1, b, hmatch.2, hb⟩ (hs r hr)
    case h_2 heq =>
      rcases List.mem_cons.1 hr with rfl | hr
      · simp [hb] at heq
      · exact ih hd hr

theorem holdings_of_not_held (h : ∀ t, ¬Held locks o b t) : holdings locks o b = .unlck := by
  unfold holdings
  rw [List.find?_eq_none.2]
  · rfl
  · intro r hr heq
    have hmatch : r.owner = o ∧ r.Covers b := by simpa using heq
    exact h r.type ⟨r, hr, hmatch.1, hmatch.2, rfl⟩

theorem WellFormed.held_iff (h : WellFormed locks) (ht : t ≠ .unlck) :
    Held locks o b t ↔ holdings locks o b = t := by
  refine ⟨holdings_of_held h.disjoint, fun heq => ?_⟩
  by_contra hn
  by_cases hex : ∃ u, Held locks o b u
  · obtain ⟨u, hu⟩ := hex
    rw [holdings_of_held h.disjoint hu] at heq
    exact hn (heq ▸ hu)
  · rw [holdings_of_not_held (not_exists.1 hex)] at heq
    exact ht heq.symm

/-- Lists that lock a byte alike for an owner. -/
theorem holdings_congr (hd : locks.Pairwise fun r s => ¬Overlap r s)
    (hd' : locks'.Pairwise fun r s => ¬Overlap r s)
    (h : ∀ t, Held locks' o b t ↔ Held locks o b t) : holdings locks' o b = holdings locks o b := by
  by_cases hex : ∃ t, Held locks o b t
  · obtain ⟨t, ht⟩ := hex
    rw [holdings_of_held hd ht, holdings_of_held hd' ((h t).2 ht)]
  · rw [holdings_of_not_held (not_exists.1 hex),
      holdings_of_not_held fun t ht => hex ⟨t, (h t).1 ht⟩]

theorem blocked_iff (h : WellFormed locks) (hlen : 0 < request.length) :
    (getLock locks request).isSome ↔ Blocked (holdings locks) request := by
  simp only [getLock, Option.isSome_map, List.find?_isSome]
  constructor
  · rintro ⟨r, hr, hc⟩
    obtain ⟨ho, hex, b, hb, hb'⟩ := (conflictsWith_iff hlen (h.positive r hr)).1 hc
    refine ⟨r.owner, b, ho, hb, ?_⟩
    rwa [holdings_of_held h.disjoint ⟨r, hr, rfl, hb', rfl⟩]
  · rintro ⟨o, b, ho, hb, hex⟩
    obtain ⟨r, hr, rfl, hb', ht⟩ := (h.held_iff hex.2.1).2 rfl
    exact ⟨r, hr, (conflictsWith_iff hlen (h.positive r hr)).2 ⟨ho, ht ▸ hex, b, hb, hb'⟩⟩

/-! ## Cutting the request out of one region -/

/-- What is left of a region before the request. -/
def firstHalf (request r : FSLockRegion) : FSLockRegion :=
  { r with length := (request.start - r.start : Nat) }

/-- What is left of a region behind the request. -/
def secondHalf (request r : FSLockRegion) : FSLockRegion :=
  { r with start := request.stop.toNat, length := r.stop - request.stop }

open scoped Classical in
/-- What step (2) has to leave of a region. -/
noncomputable def cut (request r : FSLockRegion) : List FSLockRegion :=
  if Overlap r request then
    (if r.start < request.start then [firstHalf request r] else []) ++
      if request.stop < r.stop then [secondHalf request r] else []
  else [r]

theorem firstHalf_stop (h : r.start < request.start) :
    (firstHalf request r).stop = request.start := by
  simp only [firstHalf, stop]
  norm_cast
  omega

theorem secondHalf_start (h : request.stop < r.stop) :
    ((secondHalf request r).start : ℕ∞) = request.stop :=
  ENat.natCast_toNat h.ne_top

theorem secondHalf_stop (h : request.stop < r.stop) : (secondHalf request r).stop = r.stop := by
  rw [stop, secondHalf_start h]
  exact add_tsub_cancel_of_le h.le

theorem cut_of_not_overlap (h : ¬Overlap r request) : cut request r = [r] := if_neg h

variable {p : FSLockRegion}

theorem mem_cut (hp : p ∈ cut request r) : p = r ∧ ¬Overlap r request ∨
      Overlap r request ∧ p = firstHalf request r ∧ r.start < request.start ∨
      Overlap r request ∧ p = secondHalf request r ∧ request.stop < r.stop := by
  unfold cut at hp
  split at hp
  case isTrue ho =>
    rcases List.mem_append.1 hp with hp | hp <;> split at hp
    · exact .inr (.inl ⟨ho, List.mem_singleton.1 hp, ‹_›⟩)
    · cases hp
    · exact .inr (.inr ⟨ho, List.mem_singleton.1 hp, ‹_›⟩)
    · cases hp
  case isFalse ho => exact .inl ⟨List.mem_singleton.1 hp, ho⟩

theorem owner_of_mem_cut (hp : p ∈ cut request r) : p.owner = r.owner := by
  rcases mem_cut hp with ⟨rfl, _⟩ | ⟨_, rfl, _⟩ | ⟨_, rfl, _⟩ <;> rfl

theorem type_of_mem_cut (hp : p ∈ cut request r) : p.type = r.type := by
  rcases mem_cut hp with ⟨rfl, _⟩ | ⟨_, rfl, _⟩ | ⟨_, rfl, _⟩ <;> rfl

/-- The region and the request share a byte, so it reaches behind the request's start and the
request behind its start. -/
theorem start_lt_of_overlap (h : Overlap r request) :
    (r.start : ℕ∞) < request.stop ∧ (request.start : ℕ∞) < r.stop := by
  obtain ⟨_, b, ⟨h₁, h₂⟩, h₃, h₄⟩ := h
  exact ⟨lt_of_le_of_lt (by exact_mod_cast h₁) h₄, lt_of_le_of_lt (by exact_mod_cast h₃) h₂⟩

theorem start_le_of_mem_cut (hp : p ∈ cut request r) : r.start ≤ p.start := by
  rcases mem_cut hp with ⟨rfl, _⟩ | ⟨_, rfl, _⟩ | ⟨ho, rfl, hs⟩
  · exact le_rfl
  · exact le_rfl
  · have := (start_lt_of_overlap ho).1
    rw [← secondHalf_start hs] at this
    exact_mod_cast this.le

theorem positive_of_mem_cut (hr : 0 < r.length) (hp : p ∈ cut request r) : 0 < p.length := by
  rcases mem_cut hp with ⟨rfl, _⟩ | ⟨_, rfl, hs⟩ | ⟨_, rfl, hs⟩
  · exact hr
  · refine length_pos ?_
    rw [firstHalf_stop hs]
    exact_mod_cast hs
  · refine length_pos ?_
    rwa [secondHalf_start hs, secondHalf_stop hs]

theorem covers_firstHalf (h : r.start < request.start) :
    (firstHalf request r).Covers b ↔ r.start ≤ b ∧ b < request.start := by
  rw [Covers, firstHalf_stop h]
  exact and_congr_right fun _ => by norm_cast

theorem covers_secondHalf (h : request.stop < r.stop) :
    (secondHalf request r).Covers b ↔ request.stop ≤ b ∧ (b : ℕ∞) < r.stop := by
  rw [Covers, secondHalf_stop h, ← secondHalf_start h]
  exact and_congr_left fun _ => by norm_cast

/-- What is left of a region are its bytes without those of the request. -/
theorem covers_cut (hlen : 0 < request.length) : (∃ p ∈ cut request r, p.Covers b) ↔
      r.Covers b ∧ ¬(r.owner = request.owner ∧ request.Covers b) := by
  by_cases ho : Overlap r request
  · obtain ⟨h₁, h₂⟩ := start_lt_of_overlap ho
    have hq := start_lt_stop hlen
    constructor
    · rintro ⟨p, hp, hb⟩
      rcases mem_cut hp with ⟨_, hn⟩ | ⟨_, rfl, hs⟩ | ⟨_, rfl, hs⟩
      · exact absurd ho hn
      · rw [covers_firstHalf hs] at hb
        have hb' : (b : ℕ∞) < r.stop := lt_trans (by exact_mod_cast hb.2) h₂
        exact ⟨⟨hb.1, hb'⟩, fun hn => absurd hn.2.1 (by omega)⟩
      · rw [covers_secondHalf hs] at hb
        have hb' : r.start ≤ b := by exact_mod_cast (h₁.trans_le hb.1).le
        exact ⟨⟨hb', hb.2⟩, fun hn => absurd hn.2.2 (not_lt.2 hb.1)⟩
    · rintro ⟨hb, hn⟩
      rw [cut, if_pos ho]
      by_cases hlt : b < request.start
      · have hs : r.start < request.start := hb.1.trans_lt hlt
        exact ⟨firstHalf request r, by simp [hs], (covers_firstHalf hs).2 ⟨hb.1, hlt⟩⟩
      · have hge : request.stop ≤ b := by
          by_contra hn'
          exact hn ⟨ho.1, not_lt.1 hlt, not_le.1 hn'⟩
        have hs : request.stop < r.stop := hge.trans_lt hb.2
        exact ⟨secondHalf request r, by simp [hs], (covers_secondHalf hs).2 ⟨hge, hb.2⟩⟩
  · rw [cut_of_not_overlap ho]
    simp only [mem_singleton, exists_eq_left]
    exact ⟨fun hb => ⟨hb, fun hn => ho ⟨hn.1, b, hb, hn.2⟩⟩, And.left⟩

/-- The two halves have no byte in common. -/
theorem pairwise_cut (hlen : 0 < request.length) :
    (cut request r).Pairwise fun p q => ¬Overlap p q := by
  unfold cut
  split
  case isFalse => exact pairwise_singleton _ _
  split <;> split <;> simp only [nil_append, append_nil, List.Pairwise.nil,
    singleton_append, pairwise_cons, mem_singleton,
    forall_eq, and_true, not_mem_nil, false_imp_iff, implies_true]
  rename_i h₁ h₂
  rintro ⟨-, b, hb, hb'⟩
  rw [covers_firstHalf h₁] at hb
  rw [covers_secondHalf h₂] at hb'
  have hlt : request.stop < request.start := hb'.1.trans_lt (by exact_mod_cast hb.2)
  exact absurd (start_lt_stop hlen) hlt.not_gt

/-! ## Step (2) -/

/-- What step (2) makes of the regions from one on, branch by branch. -/
inductive Subtracts (request : FSLockRegion) : List FSLockRegion → List FSLockRegion → Prop
  | nil : Subtracts request [] []
  | past {r : FSLockRegion} {rest : List FSLockRegion} (h : request.stop ≤ r.start) : Subtracts request (r :: rest) (r :: rest)
  | skip {r : FSLockRegion} {rest rest' : List FSLockRegion} (h : ¬Overlap r request) (hrest : Subtracts request rest rest') :
      Subtracts request (r :: rest) (r :: rest')
  | shrinkRight {r : FSLockRegion} {rest rest' : List FSLockRegion} (h : Overlap r request) (h₁ : r.start < request.start)
      (h₂ : ¬request.stop < r.stop) (hrest : Subtracts request rest rest') :
      Subtracts request (r :: rest) (firstHalf request r :: rest')
  | split {r : FSLockRegion} {before after after' : List FSLockRegion} (h : Overlap r request) (h₁ : r.start < request.start)
      (h₂ : request.stop < r.stop) (hbefore : ∀ x ∈ before, (x.start : ℕ∞) < request.stop)
      (hafter : ∀ x ∈ after.head?, request.stop ≤ x.start)
      (hrest : Subtracts request after after') :
      Subtracts request (r :: (before ++ after))
        (firstHalf request r :: (before ++ secondHalf request r :: after'))
  | shrinkLeft {r : FSLockRegion} {rest rest' : List FSLockRegion} (h : Overlap r request) (h₁ : ¬r.start < request.start)
      (h₂ : request.stop < r.stop) (hrest : Subtracts request rest rest') :
      Subtracts request (r :: rest) (secondHalf request r :: rest')
  | delete {r : FSLockRegion} {rest rest' : List FSLockRegion} (h : Overlap r request) (h₁ : ¬r.start < request.start)
      (h₂ : ¬request.stop < r.stop) (hrest : Subtracts request rest rest') :
      Subtracts request (r :: rest) rest'

theorem overlap_iff (hr : 0 < r.length) (hlen : 0 < request.length) : Overlap r request ↔
      r.SameOwner request ∧ ¬(r.stop ≤ request.start) ∧ ¬(request.stop ≤ r.start) := by
  rw [Overlap, sameOwner_iff]
  refine and_congr_right fun _ => ⟨fun h => ⟨fun hle => ?_, fun hle => ?_⟩, fun h => ?_⟩
  · exact not_covers_of_stop_le hle h
  · exact not_covers_of_stop_le hle (h.imp fun _ => And.symm)
  · by_contra hn
    exact (stop_le_or_of_disjoint hr hlen hn).elim h.1 h.2

theorem subtracts_of_not_done (hlen : 0 < request.length) (hpos : ∀ r ∈ locks, 0 < r.length)
    (h : (subtract request locks).2 = false) :
    Subtracts request locks (subtract request locks).1 := by
  fun_induction subtract
  case case1 => exact .nil
  case case2 region rest hle rest' done heq ih =>
    rw [heq] at ih
    refine .skip (fun ho => ?_) (ih (fun r hr => hpos r (mem_cons_of_mem _ hr)) h)
    exact ((overlap_iff (hpos _ mem_cons_self) hlen).1 ho).2.1 hle
  case case3 region rest _ hle => exact .past hle
  case case4 region rest _ _ hown rest' done heq ih =>
    rw [heq] at ih
    refine .skip (fun ho => ?_) (ih (fun r hr => hpos r (mem_cons_of_mem _ hr)) h)
    exact hown (sameOwner_iff.2 ho.1)
  case case5 => cases h
  case case6 region rest h₁ h₂ h₃ start2 length1 length2 _ hl1 first hl2 before second after' done
      heq ih =>
    rw [heq] at ih
    have ho := (overlap_iff (hpos region mem_cons_self) hlen).2 ⟨not_not.1 h₃, h₁, h₂⟩
    have hsub := (dropWhile_sublist (l := rest) fun r => decide ((r.start : ℕ∞) < start2)).subset
    have := @Subtracts.split _ _ before _ _ ho (Nat.sub_pos_iff_lt.1 hl1) (tsub_pos_iff_lt.1 hl2)
      (fun x hx => by simpa using mem_takeWhile_imp hx)
      (fun x hx => ?_) (ih (fun r hr => hpos r (mem_cons_of_mem _ (hsub hr))) h)
    · rwa [takeWhile_append_dropWhile] at this
    · have := List.head?_dropWhile_not (fun r => decide ((r.start : ℕ∞) < start2)) rest
      rw [Option.mem_def.1 hx] at this
      simpa using this
  case case7 region rest h₁ h₂ h₃ start2 length1 length2 _ hl1 first hl2 rest' done heq ih =>
    rw [heq] at ih
    have ho := (overlap_iff (hpos region mem_cons_self) hlen).2 ⟨not_not.1 h₃, h₁, h₂⟩
    exact .shrinkRight ho (Nat.sub_pos_iff_lt.1 hl1) (fun hn => hl2 (tsub_pos_iff_lt.2 hn))
      (ih (fun r hr => hpos r (mem_cons_of_mem _ hr)) h)
  case case8 region rest h₁ h₂ h₃ start2 length1 length2 _ hl1 hl2 rest' done heq ih =>
    rw [heq] at ih
    have ho := (overlap_iff (hpos region mem_cons_self) hlen).2 ⟨not_not.1 h₃, h₁, h₂⟩
    exact .shrinkLeft ho (fun hn => hl1 (Nat.sub_pos_iff_lt.2 hn)) (tsub_pos_iff_lt.1 hl2)
      (ih (fun r hr => hpos r (mem_cons_of_mem _ hr)) h)
  case case9 region rest h₁ h₂ h₃ start2 length1 length2 _ hl1 hl2 ih =>
    have ho := (overlap_iff (hpos region mem_cons_self) hlen).2 ⟨not_not.1 h₃, h₁, h₂⟩
    exact .delete ho (fun hn => hl1 (Nat.sub_pos_iff_lt.2 hn))
      (fun hn => hl2 (tsub_pos_iff_lt.2 hn)) (ih (fun r hr => hpos r (mem_cons_of_mem _ hr)) h)

theorem WellFormed.sublist (h : WellFormed locks) (hs : locks'.Sublist locks) :
    WellFormed locks' where
  sorted := h.sorted.sublist hs
  positive r hr := h.positive r (hs.subset hr)
  disjoint := h.disjoint.sublist hs
  locked r hr := h.locked r (hs.subset hr)

theorem WellFormed.tail (h : WellFormed (r :: rest)) : WellFormed rest :=
  h.sublist (sublist_cons_self _ _)

theorem flatMap_cut_of_not_overlap (h : ∀ r ∈ locks, ¬Overlap r request) :
    locks.flatMap (cut request) = locks := by
  induction locks with
  | nil => rfl
  | cons r rest ih =>
    rw [flatMap_cons, cut_of_not_overlap (h r mem_cons_self),
      ih fun s hs => h s (mem_cons_of_mem _ hs)]
    rfl

theorem not_overlap_of_stop_le (h : request.stop ≤ s.start) : ¬Overlap s request :=
  fun ho => not_covers_of_stop_le h (ho.2.imp fun _ => And.symm)

/-- A region of the owner with every byte of the request keeps the others off the request. -/
theorem not_overlap_of_covers (hd : ¬Overlap r s) (ho : r.owner = request.owner)
    (hb : ∀ b, request.Covers b → r.Covers b) : ¬Overlap s request := by
  rintro ⟨ho', b, hs, hreq⟩
  exact hd ⟨ho.trans ho'.symm, b, hb b hreq, hs⟩

theorem covers_of_within (h₁ : r.start ≤ request.start) (h₂ : request.stop ≤ r.stop)
    (hb : request.Covers b) : r.Covers b :=
  ⟨h₁.trans hb.1, hb.2.trans_le h₂⟩

/-- Step (2) leaves what cutting the request out of every region leaves. -/
theorem Subtracts.perm (h : Subtracts request locks locks') (hwf : WellFormed locks) :
    locks'.Perm (locks.flatMap (cut request)) := by
  induction h with
  | nil => exact .refl _
  | @past r rest h =>
    rw [flatMap_cut_of_not_overlap]
    intro s hs
    rcases List.mem_cons.1 hs with rfl | hs
    · exact not_overlap_of_stop_le h
    · refine not_overlap_of_stop_le (h.trans ?_)
      exact_mod_cast (List.pairwise_cons.1 hwf.sorted).1 s hs
  | skip h _ ih =>
    rw [flatMap_cons, cut_of_not_overlap h]
    exact (ih hwf.tail).cons _
  | shrinkRight h h₁ h₂ _ ih =>
    rw [flatMap_cons, cut, if_pos h, if_pos h₁, if_neg h₂]
    exact (ih hwf.tail).cons _
  | @split r before after after' h h₁ h₂ _ _ _ ih =>
    have hd : ∀ s ∈ before, ¬Overlap s request := fun s hs =>
      not_overlap_of_covers ((List.pairwise_cons.1 hwf.disjoint).1 s (mem_append_left _ hs)) h.1
        fun b hb => covers_of_within h₁.le h₂.le hb
    rw [flatMap_cons, flatMap_append, flatMap_cut_of_not_overlap hd, cut, if_pos h,
      if_pos h₁, if_pos h₂]
    have htail := ih (hwf.tail.sublist (sublist_append_right _ _))
    exact (List.perm_middle.trans ((htail.append_left _).cons _)).cons _
  | shrinkLeft h h₁ h₂ _ ih =>
    rw [flatMap_cons, cut, if_pos h, if_neg h₁, if_pos h₂]
    exact (ih hwf.tail).cons _
  | delete h h₁ h₂ _ ih =>
    rw [flatMap_cons, cut, if_pos h, if_neg h₁, if_neg h₂]
    exact ih hwf.tail

/-- Step (2) returns where a region of the owner and the type has every byte of the request, and
then changed nothing. -/
theorem subtract_of_done (hlen : 0 < request.length) (hwf : WellFormed locks)
    (h : (subtract request locks).2 = true) :
    (subtract request locks).1 = locks ∧ ∃ r ∈ locks, r.owner = request.owner ∧
      r.type = request.type ∧ ∀ b, request.Covers b → r.Covers b := by
  have hcut {region : FSLockRegion} {rest rest' : List FSLockRegion}
      (hwf : WellFormed (region :: rest)) (hsub : rest'.Sublist rest)
      (h₁ : ¬region.stop ≤ request.start) (h₂ : ¬request.stop ≤ region.start)
      (h₃ : ¬¬region.SameOwner request) :
      ¬∃ r ∈ rest', r.owner = request.owner ∧ r.type = request.type ∧
        ∀ b, request.Covers b → r.Covers b := by
    rintro ⟨r, hr, hown, -, hb⟩
    have ho := (overlap_iff (hwf.positive _ mem_cons_self) hlen).2 ⟨not_not.1 h₃, h₁, h₂⟩
    have hd := (List.pairwise_cons.1 hwf.disjoint).1 r (hsub.subset hr)
    exact not_overlap_of_covers (fun h => hd (overlap_symm h)) hown hb ho
  fun_induction subtract
  case case1 => cases h
  case case2 region rest hle rest' done heq ih =>
    rw [heq] at ih
    obtain ⟨hrest, r, hr, hb⟩ := ih hwf.tail h
    exact ⟨congrArg _ hrest, r, mem_cons_of_mem _ hr, hb⟩
  case case3 => cases h
  case case4 region rest _ _ hown rest' done heq ih =>
    rw [heq] at ih
    obtain ⟨hrest, r, hr, hb⟩ := ih hwf.tail h
    exact ⟨congrArg _ hrest, r, mem_cons_of_mem _ hr, hb⟩
  case case5 region rest h₁ h₂ h₃ start2 length1 length2 hdone =>
    have hl1 : region.start < request.start := Nat.sub_pos_iff_lt.1 hdone.1
    have hl2 : request.stop < region.stop := tsub_pos_iff_lt.1 hdone.2.1
    exact ⟨rfl, region, mem_cons_self, sameOwner_iff.1 (not_not.1 h₃), hdone.2.2,
      fun b hb => covers_of_within hl1.le hl2.le hb⟩
  case case6 region rest h₁ h₂ h₃ start2 _ _ _ _ first _ before second after' done heq ih =>
    rw [heq] at ih
    have hsub := dropWhile_sublist (l := rest) fun r => decide ((r.start : ℕ∞) < start2)
    exact absurd (ih (hwf.tail.sublist hsub) h).2 (hcut hwf hsub h₁ h₂ h₃)
  case case7 region rest h₁ h₂ h₃ _ _ _ _ _ _ _ _ _ heq ih =>
    rw [heq] at ih
    exact absurd (ih hwf.tail h).2 (hcut hwf (List.Sublist.refl _) h₁ h₂ h₃)
  case case8 region rest h₁ h₂ h₃ _ _ _ _ _ _ _ _ heq ih =>
    rw [heq] at ih
    exact absurd (ih hwf.tail h).2 (hcut hwf (List.Sublist.refl _) h₁ h₂ h₃)
  case case9 region rest h₁ h₂ h₃ _ _ _ _ _ _ ih =>
    exact absurd (ih hwf.tail h).2 (hcut hwf (List.Sublist.refl _) h₁ h₂ h₃)

section
variable (h : Subtracts request locks locks') (hwf : WellFormed locks)
include h hwf

/-- What a region that a list is cut into comes from. -/
theorem Subtracts.exists_cut (hs : s ∈ locks') : ∃ r ∈ locks, s ∈ cut request r :=
  List.mem_flatMap.1 ((h.perm hwf).mem_iff.1 hs)

theorem Subtracts.positive (hs : s ∈ locks') : 0 < s.length := by
  obtain ⟨r, hr, hs⟩ := h.exists_cut hwf hs
  exact positive_of_mem_cut (hwf.positive r hr) hs

theorem Subtracts.locked (hs : s ∈ locks') : s.type ≠ .unlck := by
  obtain ⟨r, hr, hs⟩ := h.exists_cut hwf hs
  exact type_of_mem_cut hs ▸ hwf.locked r hr

theorem Subtracts.disjoint
    (hlen : 0 < request.length) : locks'.Pairwise fun r s => ¬Overlap r s := by
  refine ((h.perm hwf).pairwise_iff fun hn ho => hn (overlap_symm ho)).2 ?_
  refine List.pairwise_flatMap.2 ⟨fun r _ => pairwise_cut hlen, hwf.disjoint.imp ?_⟩
  rintro r s hd p hp q hq ⟨hown, b, hpb, hqb⟩
  rw [owner_of_mem_cut hp, owner_of_mem_cut hq] at hown
  exact hd ⟨hown, b, ((covers_cut hlen).1 ⟨p, hp, hpb⟩).1, ((covers_cut hlen).1 ⟨q, hq, hqb⟩).1⟩

/-- Step (2) takes the requested bytes from the owner, and nothing else from anyone. -/
theorem Subtracts.held_iff (hlen : 0 < request.length) :
    Held locks' o b t ↔ Held locks o b t ∧ ¬(o = request.owner ∧ request.Covers b) := by
  rw [Held.perm (h.perm hwf)]
  constructor
  · rintro ⟨p, hp, rfl, hb, rfl⟩
    obtain ⟨r, hr, hp⟩ := List.mem_flatMap.1 hp
    obtain ⟨hrb, hn⟩ := (covers_cut hlen).1 ⟨p, hp, hb⟩
    rw [owner_of_mem_cut hp, type_of_mem_cut hp]
    exact ⟨⟨r, hr, rfl, hrb, rfl⟩, hn⟩
  · rintro ⟨⟨r, hr, rfl, hb, rfl⟩, hn⟩
    obtain ⟨p, hp, hpb⟩ := (covers_cut hlen).2 ⟨hb, hn⟩
    exact ⟨p, List.mem_flatMap.2 ⟨r, hr, hp⟩, owner_of_mem_cut hp, hpb, type_of_mem_cut hp⟩

end

end V86.Fs
