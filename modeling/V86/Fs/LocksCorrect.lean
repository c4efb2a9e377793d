import V86.Fs.LockRegions
import V86.Lib.Runs

/-!
# `Lock` against the reference state

A lock is blocked exactly where the reference state says so, and a granted one changes what its
owner holds on its bytes. The list stays well formed as long as step (2) moves no region past
another: that is all that can go wrong, and it does.
-/

namespace V86.Fs

open FSLockRegion List

attribute [local simp] fastForward mergeAfter

variable {locks locks' rest : List FSLockRegion} {r s request : FSLockRegion} {o : Owner} {b : Nat}
  {t : LockType}

/-! ## The order of the list -/

/-- Step (2) moves no start of a region past another region: a region that only loses bytes at
its start has no region behind it that starts below its new start, unless it is to be merged with
the request. -/
def StaysSorted (locks : List FSLockRegion) (request : FSLockRegion) : Prop :=
  locks.Pairwise fun r s => Overlap r request → ¬r.start < request.start →
    request.stop < r.stop → r.type ≠ request.type → request.stop ≤ s.start

/-- The order that step (2) leaves: a region alike the request that starts at its end may stand
before regions from the request's start on. -/
def InPlace (request r s : FSLockRegion) : Prop :=
  r.start ≤ s.start ∨
    (r.owner = request.owner ∧ r.type = request.type) ∧ r.start = request.stop ∧
      request.start ≤ s.start

theorem Subtracts.inPlace (h : Subtracts request locks locks') (hwf : WellFormed locks)
    (hs : StaysSorted locks request) : locks'.Pairwise (InPlace request) := by
  have hfirst : ∀ {r : FSLockRegion} {rest rest' : List FSLockRegion},
      Subtracts request rest rest' → WellFormed (r :: rest) → ∀ p ∈ rest', r.start ≤ p.start := by
    intro r rest rest' h hwf p hp
    obtain ⟨s, hs, hp⟩ := h.exists_cut hwf.tail hp
    exact ((List.pairwise_cons.1 hwf.sorted).1 s hs).trans (start_le_of_mem_cut hp)
  induction h with
  | nil => exact .nil
  | past => exact hwf.sorted.imp .inl
  | skip _ hrest ih | shrinkRight _ _ _ hrest ih =>
    exact .cons (fun p hp => .inl (hfirst hrest hwf p hp)) (ih hwf.tail hs.tail)
  | @split r before after after' _ _ h₂ hbefore hafter hrest ih =>
    have hsub := sublist_append_right before after
    have hwf' := hwf.tail.sublist hsub
    have hr := (List.pairwise_cons.1 hwf.sorted).1
    have hstop : ∀ p ∈ after', request.stop ≤ p.start := by
      intro p hp
      obtain ⟨s, hs, hp⟩ := hrest.exists_cut hwf' hp
      have hsp : (s.start : ℕ∞) ≤ p.start := by exact_mod_cast start_le_of_mem_cut hp
      refine le_trans ?_ hsp
      cases after with
      | nil => cases hs
      | cons x after =>
        have hx := hafter x rfl
        rcases List.mem_cons.1 hs with rfl | hs
        · exact hx
        · have := (List.pairwise_cons.1 hwf'.sorted).1 s hs
          exact hx.trans (by exact_mod_cast this)
    have hsecond : ∀ p ∈ after', (secondHalf request r).start ≤ p.start := by
      intro p hp
      have := hstop p hp
      rw [← secondHalf_start h₂] at this
      exact_mod_cast this
    have hbelow : ∀ x ∈ before, x.start ≤ (secondHalf request r).start := by
      intro x hx
      have := hbefore x hx
      rw [← secondHalf_start h₂] at this
      exact_mod_cast this.le
    have hall : ∀ p ∈ before ++ secondHalf request r :: after', r.start ≤ p.start := by
      intro p hp
      rcases List.mem_append.1 hp with hp | hp
      · exact hr p (mem_append_left _ hp)
      · have hrs : r.start ≤ (secondHalf request r).start := by
          have := (start_lt_of_overlap ‹Overlap r request›).1
          rw [← secondHalf_start h₂] at this
          exact_mod_cast this.le
        rcases List.mem_cons.1 hp with rfl | hp
        · exact hrs
        · exact hrs.trans (hsecond p hp)
    refine .cons (fun p hp => .inl (hall p hp)) (List.pairwise_append.2 ⟨?_, ?_, ?_⟩)
    · exact (hwf.tail.sublist (sublist_append_left _ _)).sorted.imp .inl
    · exact .cons (fun p hp => .inl (hsecond p hp)) (ih hwf' (hs.tail.sublist hsub))
    · intro x hx p hp
      rcases List.mem_cons.1 hp with rfl | hp
      · exact .inl (hbelow x hx)
      · exact .inl ((hbelow x hx).trans (hsecond p hp))
  | @shrinkLeft r rest rest' ho h₁ h₂ hrest ih =>
    refine .cons (fun p hp => ?_) (ih hwf.tail hs.tail)
    have hstart := secondHalf_start h₂
    by_cases ht : r.type = request.type
    · exact .inr ⟨⟨ho.1, ht⟩, hstart, (not_lt.1 h₁).trans (hfirst hrest hwf p hp)⟩
    · obtain ⟨s, hsm, hp⟩ := hrest.exists_cut hwf.tail hp
      have hle := (List.pairwise_cons.1 hs).1 s hsm ho h₁ h₂ ht
      rw [← hstart] at hle
      exact .inl (le_trans (by exact_mod_cast hle) (start_le_of_mem_cut hp))
  | delete _ _ _ _ ih => exact ih hwf.tail hs.tail

/-! ## Step (3) -/

/-- A list that the request can be inserted into: no region of its owner is in its way. -/
structure Ready (request : FSLockRegion) (locks : List FSLockRegion) : Prop where
  positive : ∀ r ∈ locks, 0 < r.length
  disjoint : locks.Pairwise fun r s => ¬Overlap r s
  free : ∀ r ∈ locks, ¬Overlap r request
  inPlace : locks.Pairwise (InPlace request)

variable {passed before after absorbed : List FSLockRegion} {new n : Nat}
  {f : FSLockRegion → FSLockRegion}

theorem fastForward_append {merged : Option Nat}
    (hnew : ∀ more, (merged.bind ((passed ++ more)[·]?)).getD request = s)
    (hlt : ∀ r ∈ before, r.start < request.start) (hm : ∀ r ∈ before, ¬s.MayMergeAfter r) :
    fastForward request passed merged (before ++ after) =
      fastForward request (passed ++ before) merged after := by
  induction before generalizing passed with
  | nil => rw [nil_append, append_nil]
  | cons r before ih =>
    have h := hnew []
    rw [append_nil] at h
    have hr := hlt r mem_cons_self
    rw [cons_append, fastForward, h]
    simp only [if_neg (hm r mem_cons_self), if_neg (not_le.2 hr)]
    rw [ih (fun more => by simpa using hnew (r :: more))
      (fun x hx => hlt x (mem_cons_of_mem _ hx)) fun x hx => hm x (mem_cons_of_mem _ hx)]
    simp

theorem fastForward_stop {merged : Option Nat} (hnew : (merged.bind (passed[·]?)).getD request = s)
    (hle : ∀ r ∈ rest.head?, request.start ≤ r.start) (hm : ∀ r ∈ rest, ¬s.MayMergeAfter r) :
    fastForward request passed merged rest = (passed, merged, rest) := by
  cases rest with
  | nil => rfl
  | cons r rest =>
    rw [fastForward, hnew]
    simp only [if_neg (hm r mem_cons_self), if_pos (hle r rfl)]

theorem mergeAfter_append (after : List FSLockRegion) (hr : passed[new]? = some r)
    (h : ∀ s ∈ before, ¬s.IsAlike r) :
    mergeAfter new passed (before ++ after) = mergeAfter new (passed ++ before) after := by
  induction before generalizing passed with
  | nil => rw [nil_append, append_nil]
  | cons s before ih =>
    have hlt : new < passed.length := (List.getElem?_eq_some_iff.1 hr).1
    have hget : (passed ++ s :: (before ++ after)).getD new s = r := by
      rw [getD_eq_getElem?_getD, List.getElem?_append_left hlt, hr]
      rfl
    rw [cons_append, mergeAfter, hget]
    simp only [if_pos (h s mem_cons_self)]
    rw [ih ((List.getElem?_append_left hlt).trans hr) fun x hx => h x (mem_cons_of_mem _ hx)]
    simp

theorem mergeAfter_cons (hr : passed[new]? = some r) (h : s.IsAlike r) :
    mergeAfter new passed (s :: after) =
      if s.MayMergeAfter r then
        (passed.modify new fun x => { x with length := x.length + s.length }) ++ after
      else passed ++ s :: after := by
  have hlt : new < passed.length := (List.getElem?_eq_some_iff.1 hr).1
  have hget : (passed ++ s :: after).getD new s = r := by
    rw [getD_eq_getElem?_getD, List.getElem?_append_left hlt, hr]
    rfl
  rw [mergeAfter, hget]
  simp only [h, not_true_eq_false, if_false]

theorem mergeAfter_eq_append (hr : passed[new]? = some r) (h : ∀ s ∈ rest, ¬s.MayMergeAfter r) :
    mergeAfter new passed rest = passed ++ rest := by
  induction rest generalizing passed with
  | nil => rw [mergeAfter, append_nil]
  | cons s rest ih =>
    by_cases hs : s.IsAlike r
    · rw [mergeAfter_cons hr hs, if_neg (h s mem_cons_self)]
    · have hlt : new < passed.length := (List.getElem?_eq_some_iff.1 hr).1
      have hskip := mergeAfter_append rest hr fun x hx => List.mem_singleton.1 hx ▸ hs
      rw [singleton_append] at hskip
      rw [hskip, ih ((List.getElem?_append_left hlt).trans hr)
        fun x hx => h x (mem_cons_of_mem _ hx), append_assoc, singleton_append]

theorem modify_append_length :
    (locks ++ r :: rest).modify locks.length f = locks ++ f r :: rest := by
  induction locks with
  | nil => rfl
  | cons s locks ih => simpa using ih

theorem stop_merged (h : r.stop = s.start) :
    { r with length := r.length + s.length : FSLockRegion }.stop = s.stop := by
  change (r.start : ℕ∞) + (r.length + s.length) = s.start + s.length
  rw [← add_assoc, ← h]
  rfl

/-- A region with the one behind it merged into it covers the bytes of both. -/
theorem covers_merged (h : r.stop = s.start) :
    { r with length := r.length + s.length : FSLockRegion }.Covers b ↔
      r.Covers b ∨ s.Covers b := by
  have hle : (r.start : ℕ∞) ≤ s.start := h ▸ le_self_add
  rw [Covers, stop_merged h, Covers, Covers, h]
  constructor
  · rintro ⟨hstart, hstop⟩
    rcases lt_or_ge b s.start with hlt | hge
    · exact .inl ⟨hstart, by exact_mod_cast hlt⟩
    · exact .inr ⟨hge, hstop⟩
  · rintro (hb | hb)
    · exact ⟨hb.1, hb.2.trans_le le_self_add⟩
    · exact ⟨le_trans (by exact_mod_cast hle) hb.1, hb.2⟩

/-- The list after the first loop of step (3): the request, or the region it was merged into,
stands between the regions that start before it and those that do not. -/
structure Placed (request : FSLockRegion) (locks before absorbed : List FSLockRegion)
    (new : FSLockRegion) (between after : List FSLockRegion) : Prop where
  split : locks = before ++ (absorbed ++ (between ++ after))
  insertLock_eq : insertLock request locks =
    mergeAfter before.length (before ++ new :: between) after
  alike : new.owner = request.owner ∧ new.type = request.type
  absorbed_alike : ∀ r ∈ absorbed, r.owner = request.owner ∧ r.type = request.type
  stop : new.stop = request.stop
  covers : ∀ b, new.Covers b ↔ request.Covers b ∨ ∃ r ∈ absorbed, r.Covers b
  start_le : new.start ≤ request.start
  start_before : ∀ r ∈ before, r.start ≤ new.start
  start_between : ∀ r ∈ between, new.start ≤ r.start ∧ r.start < request.start
  start_after : ∀ r ∈ after, request.start ≤ r.start

theorem covers_pred_stop (hr : 0 < r.length) (h : r.stop = n) : r.Covers (n - 1) ∧ r.start < n := by
  have hlt := start_lt_stop hr
  rw [h] at hlt
  have hlt' : r.start < n := by exact_mod_cast hlt
  refine ⟨⟨by omega, ?_⟩, hlt'⟩
  rw [h]
  exact_mod_cast (by omega : n - 1 < n)

/-- A region that starts before the request is in order with the ones behind it. -/
theorem start_le_of_inPlace (hlen : 0 < request.length) (h : InPlace request r s)
    (hr : r.start < request.start) : r.start ≤ s.start := by
  rcases h with h | ⟨-, h, -⟩
  · exact h
  · have := start_lt_stop hlen
    rw [← h] at this
    exact absurd hr (not_lt.2 (by exact_mod_cast this.le))

theorem Ready.sublist (h : Ready request locks) (hsub : rest.Sublist locks) :
    Ready request rest where
  positive r hr := h.positive r (hsub.subset hr)
  disjoint := h.disjoint.sublist hsub
  free r hr := h.free r (hsub.subset hr)
  inPlace := h.inPlace.sublist hsub

/-- If the first region of a list starts behind the request's start, then so do all. -/
theorem Ready.start_le (h : Ready request after)
    (hhead : ∀ r ∈ after.head?, request.start ≤ r.start) : ∀ r ∈ after, request.start ≤ r.start := by
  intro r hr
  cases after with
  | nil => cases hr
  | cons x rest =>
    have hx := hhead x rfl
    rcases List.mem_cons.1 hr with rfl | hr
    · exact hx
    · exact ((List.pairwise_cons.1 h.inPlace).1 r hr).elim hx.trans fun h => h.2.2

theorem Ready.stop_ne (h : Ready request after)
    (hhead : ∀ r ∈ after.head?, request.start ≤ r.start) (hn : n ≤ request.start) :
    ∀ r ∈ after, r.stop ≠ n := by
  intro r hr heq
  have := (covers_pred_stop (h.positive r hr) heq).2
  have := h.start_le hhead r hr
  omega

/-- A region that ends where the request starts is the only one alike, and takes it. -/
theorem Ready.placed_merged (hlen : 0 < request.length)
    (h : Ready request (before ++ r :: (passed ++ after)))
    (hlt : ∀ x ∈ before ++ r :: passed, x.start < request.start)
    (hhead : ∀ r ∈ after.head?, request.start ≤ r.start) (hm : request.MayMergeAfter r) :
    Placed request (before ++ r :: (passed ++ after)) before [r]
      { r with length := r.length + request.length } passed after := by
  have hrs : r.start < request.start := hlt r (by simp)
  obtain ⟨-, hin, hin'⟩ := List.pairwise_append.1 h.inPlace
  have hfirst : ∀ x ∈ before, x.start ≤ r.start := fun x hx =>
    start_le_of_inPlace hlen (hin' x hx r mem_cons_self) (hlt x (by simp [hx]))
  have hsecond : ∀ x ∈ passed, r.start ≤ x.start := fun x hx =>
    start_le_of_inPlace hlen ((List.pairwise_cons.1 hin).1 x (mem_append_left _ hx)) hrs
  have hafter : Ready request after := h.sublist ((sublist_append_right passed after).trans
    ((sublist_cons_self r _).trans (sublist_append_right before _)))
  set new : FSLockRegion := { r with length := r.length + request.length } with hnew
  -- before it, a region alike that ends there would overlap it; behind it, none ends before it
  have hm₁ : ∀ x ∈ before, ¬request.MayMergeAfter x := by
    intro x hx hmx
    refine (List.pairwise_append.1 h.disjoint).2.2 x hx r mem_cons_self
      ⟨(isAlike_iff.1 hmx.1).1.trans (isAlike_iff.1 hm.1).1.symm, request.start - 1, ?_, ?_⟩
    · exact (covers_pred_stop (h.positive x (by simp [hx])) hmx.2).1
    · exact (covers_pred_stop (h.positive r (by simp)) hm.2).1
  have hm₂ : ∀ x ∈ passed, ¬new.MayMergeAfter x := by
    intro x hx hmx
    have := (covers_pred_stop (h.positive x (by simp [hx])) hmx.2).2
    exact absurd (hsecond x hx) (not_le.2 this)
  have hget : ∀ more, ((some before.length).bind (((before ++ [new]) ++ more)[·]?)).getD request
      = new := by
    intro more
    simp
  refine ⟨rfl, ?_, isAlike_iff.1 hm.1, ?_, stop_merged hm.2, ?_, hrs.le, hfirst,
    fun x hx => ⟨hsecond x hx, hlt x (by simp [hx])⟩, hafter.start_le hhead⟩
  · have hff : fastForward request [] none (before ++ r :: (passed ++ after)) =
        (before ++ new :: passed, some before.length, after) := by
      rw [fastForward_append (s := request) (fun _ => rfl)
        (fun x hx => hlt x (by simp [hx])) hm₁, nil_append, fastForward]
      simp only [Option.bind_none, Option.getD_none, if_pos hm, if_neg (not_le.2 hrs)]
      rw [fastForward_append hget (fun x hx => hlt x (by simp [hx])) hm₂, fastForward_stop
        (hget passed) hhead fun x hx hmx => hafter.stop_ne hhead hrs.le x hx hmx.2, append_assoc]
      rfl
    rw [insertLock, hff]
  · intro x hx
    rw [List.mem_singleton.1 hx]
    exact isAlike_iff.1 hm.1
  · intro b
    simp only [mem_singleton, exists_eq_left]
    exact (covers_merged hm.2).trans or_comm

/-- The first loop finds the place of the request. -/
theorem Ready.placed (h : Ready request locks) (hlen : 0 < request.length) :
    ∃ before absorbed new between after, Placed request locks before absorbed new between after := by
  set before := locks.takeWhile fun r => r.start < request.start with hbefore
  set after := locks.dropWhile fun r => r.start < request.start with hafter
  have hlocks : before ++ after = locks := takeWhile_append_dropWhile
  have hlt : ∀ r ∈ before, r.start < request.start := fun r hr => by
    simpa using mem_takeWhile_imp hr
  have hhead : ∀ r ∈ after.head?, request.start ≤ r.start := by
    intro r hr
    have := List.head?_dropWhile_not (fun r => decide (r.start < request.start)) locks
    rw [← hafter, Option.mem_def.1 hr] at this
    simpa using this
  rw [← hlocks] at h ⊢
  by_cases hex : ∃ r ∈ before, request.MayMergeAfter r
  · obtain ⟨r, hr, hm⟩ := hex
    obtain ⟨before₁, before₂, hb⟩ := append_of_mem hr
    clear_value before after
    subst hb
    rw [append_assoc, cons_append] at h ⊢
    exact ⟨_, _, _, _, _, h.placed_merged hlen hlt hhead hm⟩
  · have hready := h.sublist (sublist_append_right before after)
    have hm : ∀ x ∈ before, ¬request.MayMergeAfter x := fun x hx hm => hex ⟨x, hx, hm⟩
    refine ⟨before, [], request, [], after, by simp, ?_, ⟨rfl, rfl⟩, by simp, rfl, by simp, le_rfl,
      fun x hx => (hlt x hx).le, by simp, hready.start_le hhead⟩
    have hff : fastForward request [] none (before ++ after) = (before, none, after) := by
      rw [fastForward_append (s := request) (fun _ => rfl) hlt hm, nil_append, fastForward_stop
        (s := request) rfl hhead fun x hx hmx => hready.stop_ne hhead le_rfl x hx hmx.2]
    rw [insertLock, hff]

/-- The list that step (3) gives: regions alike the request are merged with it, and the list is
sorted. -/
structure Inserted (request : FSLockRegion) (locks locks' absorbed others : List FSLockRegion)
    (merged : FSLockRegion) : Prop where
  perm : locks.Perm (absorbed ++ others)
  perm' : locks'.Perm (merged :: others)
  sorted : locks'.Pairwise (·.start ≤ ·.start)
  alike : merged.owner = request.owner ∧ merged.type = request.type
  absorbed_alike : ∀ r ∈ absorbed, r.owner = request.owner ∧ r.type = request.type
  covers : ∀ b, merged.Covers b ↔ request.Covers b ∨ ∃ r ∈ absorbed, r.Covers b
  positive : 0 < merged.length

theorem Placed.sorted {between after' : List FSLockRegion} {new new' : FSLockRegion}
    (h : Placed request locks before absorbed new between after) (hlen : 0 < request.length)
    (hin : locks.Pairwise (InPlace request)) (hnew : new'.start = new.start)
    (hsub : after'.Sublist after)
    (hafter : ∀ r ∈ after', (r.owner = request.owner ∧ r.type = request.type) →
      r.start ≠ request.stop) :
    (before ++ new' :: (between ++ after')).Pairwise (·.start ≤ ·.start) := by
  rw [h.split] at hin
  obtain ⟨hin₁, hin₂, -⟩ := List.pairwise_append.1 hin
  obtain ⟨hin₂, hin₃, -⟩ := List.pairwise_append.1 (List.pairwise_append.1 hin₂).2.1
  have hlt : ∀ x ∈ before, x.start ≤ request.start := fun x hx =>
    (h.start_before x hx).trans h.start_le
  have hstop := start_lt_stop hlen
  refine List.pairwise_append.2 ⟨?_, List.pairwise_cons.2 ⟨?_, List.pairwise_append.2 ⟨?_, ?_, ?_⟩⟩,
    ?_⟩
  · refine (List.Pairwise.and_mem.1 hin₁).imp fun {x y} hxy => ?_
    rcases hxy.2.2 with hle | ⟨-, heq, -⟩
    · exact hle
    · rw [← heq] at hstop
      exact absurd (hlt x hxy.1) (not_le.2 (by exact_mod_cast hstop))
  · intro x hx
    rw [hnew]
    rcases List.mem_append.1 hx with hx | hx
    · exact (h.start_between x hx).1
    · exact h.start_le.trans (h.start_after x (hsub.subset hx))
  · refine (List.Pairwise.and_mem.1 hin₂).imp fun {x y} hxy => ?_
    exact start_le_of_inPlace hlen hxy.2.2 (h.start_between x hxy.1).2
  · refine (List.Pairwise.and_mem.1 (hin₃.sublist hsub)).imp fun {x y} hxy => ?_
    rcases hxy.2.2 with hle | ⟨hal, heq, -⟩
    · exact hle
    · exact absurd heq (hafter x hxy.1 hal)
  · intro x hx y hy
    exact (h.start_between x hx).2.le.trans (h.start_after y (hsub.subset hy))
  · intro x hx y hy
    rcases List.mem_cons.1 hy with rfl | hy
    · rw [hnew]
      exact h.start_before x hx
    · rcases List.mem_append.1 hy with hy | hy
      · exact (h.start_before x hx).trans (h.start_between y hy).1
      · exact (hlt x hx).trans (h.start_after y (hsub.subset hy))

theorem Placed.pos {between : List FSLockRegion} {new : FSLockRegion} (hlen : 0 < request.length)
    (h : Placed request locks before absorbed new between after) : 0 < new.length := by
  refine length_pos (lt_of_le_of_lt ?_ (h.stop ▸ start_lt_stop hlen))
  exact_mod_cast h.start_le

theorem Placed.ready {between : List FSLockRegion} {new : FSLockRegion}
    (hp : Placed request locks before absorbed new between after) (h : Ready request locks) :
    Ready request after := by
  rw [hp.split] at h
  exact h.sublist ((sublist_append_right between after).trans
    ((sublist_append_right absorbed _).trans (sublist_append_right before _)))

/-- Only one region alike starts where the request ends. -/
theorem Ready.start_ne (h : Ready request (before ++ r :: after))
    (hal : r.owner = request.owner ∧ r.type = request.type) (heq : r.start = request.stop) :
    ∀ x ∈ before ++ after, (x.owner = request.owner ∧ x.type = request.type) →
      x.start ≠ request.stop := by
  intro x hx hxal hxeq
  have hxr : x.start = r.start := by
    rw [← heq] at hxeq
    exact_mod_cast hxeq
  have hxm : x ∈ before ++ r :: after := by
    rcases List.mem_append.1 hx with hx | hx <;> simp [hx]
  have hov : Overlap x r := ⟨hxal.1.trans hal.1.symm, r.start,
    hxr ▸ covers_start (h.positive x hxm), covers_start (h.positive r (by simp))⟩
  obtain ⟨-, hd, hd'⟩ := List.pairwise_append.1 h.disjoint
  rcases List.mem_append.1 hx with hx | hx
  · exact hd' x hx r mem_cons_self hov
  · exact (List.pairwise_cons.1 hd).1 x hx (overlap_symm hov)

/-- A region alike that starts where the request ends is merged into it. -/
theorem Ready.inserted_merged {between : List FSLockRegion} {new : FSLockRegion}
    (h : Ready request locks) (hlen : 0 < request.length)
    (hp : Placed request locks before absorbed new between (after ++ r :: rest))
    (hal : r.owner = request.owner ∧ r.type = request.type) (heq : r.start = request.stop) :
    Inserted request locks (insertLock request locks) (absorbed ++ [r])
      (before ++ (between ++ (after ++ rest))) { new with length := new.length + r.length } := by
  have hready := hp.ready h
  have hother := hready.start_ne hal heq
  have hget : ∀ more, (before ++ new :: between ++ more)[before.length]? = some new := by
    intro more
    simp
  have hget₀ := hget []
  rw [append_nil] at hget₀
  have hskip : ∀ x ∈ after, ¬x.IsAlike new := by
    intro x hx hxal
    obtain ⟨ho, ht⟩ := isAlike_iff.1 hxal
    rw [hp.alike.1] at ho
    rw [hp.alike.2] at ht
    have hne := hother x (mem_append_left _ hx) ⟨ho.symm, ht.symm⟩
    rcases (List.pairwise_append.1 hready.inPlace).2.2 x hx r mem_cons_self with hle | ⟨-, hxeq, -⟩
    · have hle' : (x.start : ℕ∞) ≤ request.stop := heq ▸ (by exact_mod_cast hle)
      have hlt := lt_of_le_of_ne hle' hne
      -- it starts inside the request
      exact hready.free x (by simp [hx]) ⟨ho.symm, x.start,
        covers_start (hready.positive x (by simp [hx])), hp.start_after x (by simp [hx]), hlt⟩
    · exact hne hxeq
  have hm : r.MayMergeAfter new :=
    ⟨isAlike_iff.2 ⟨hp.alike.1.trans hal.1.symm, hp.alike.2.trans hal.2.symm⟩,
      hp.stop.trans heq.symm⟩
  have hres : insertLock request locks = before ++ { new with length := new.length + r.length } ::
      (between ++ (after ++ rest)) := by
    rw [hp.insertLock_eq, mergeAfter_append _ hget₀ hskip, mergeAfter_cons (hget after) hm.1,
      if_pos hm, append_assoc before, cons_append, modify_append_length]
    simp
  refine ⟨?_, ?_, ?_, hp.alike, ?_, ?_, (hp.pos hlen).trans_le le_self_add⟩
  · rw [hp.split]
    refine List.perm_iff_count.2 fun x => ?_
    simp only [List.count_append, count_cons, count_nil]
    omega
  · rw [hres]
    exact perm_middle
  · rw [hres]
    exact hp.sorted hlen h.inPlace rfl (by simp) hother
  · intro x hx
    rcases List.mem_append.1 hx with hx | hx
    · exact hp.absorbed_alike x hx
    · rw [List.mem_singleton.1 hx]
      exact hal
  · intro b
    have hor : (∃ x ∈ absorbed ++ [r], x.Covers b) ↔ (∃ x ∈ absorbed, x.Covers b) ∨ r.Covers b := by
      simp [or_and_right, exists_or]
    rw [hor, ← or_assoc, ← hp.covers b]
    exact covers_merged (hp.stop.trans heq.symm)

/-- Step (3) merges the request with the regions alike around it. -/
theorem Ready.inserted (h : Ready request locks) (hlen : 0 < request.length) :
    ∃ absorbed others merged,
      Inserted request locks (insertLock request locks) absorbed others merged := by
  obtain ⟨before, absorbed, new, between, after, hp⟩ := h.placed hlen
  by_cases hex : ∃ r ∈ after, (r.owner = request.owner ∧ r.type = request.type) ∧
      r.start = request.stop
  · obtain ⟨r, hr, hal, heq⟩ := hex
    obtain ⟨after₁, after₂, rfl⟩ := append_of_mem hr
    exact ⟨_, _, _, h.inserted_merged hlen hp hal heq⟩
  · have hother : ∀ x ∈ after, (x.owner = request.owner ∧ x.type = request.type) →
        x.start ≠ request.stop := fun x hx hal heq => hex ⟨x, hx, hal, heq⟩
    have hres : insertLock request locks = before ++ new :: (between ++ after) := by
      rw [hp.insertLock_eq, mergeAfter_eq_append (r := new) (by simp) fun x hx hm => ?_, append_assoc]
      · rfl
      · obtain ⟨ho, ht⟩ := isAlike_iff.1 hm.1
        exact hother x hx ⟨(hp.alike.1.symm.trans ho).symm, (hp.alike.2.symm.trans ht).symm⟩
          (hm.2.symm.trans hp.stop)
    refine ⟨absorbed, before ++ (between ++ after), new, ?_, ?_, ?_, hp.alike, hp.absorbed_alike,
      hp.covers, hp.pos hlen⟩
    · rw [hp.split]
      refine List.perm_iff_count.2 fun x => ?_
      simp only [List.count_append]
      omega
    · rw [hres]
      exact perm_middle
    · rw [hres]
      exact hp.sorted hlen h.inPlace rfl (List.Sublist.refl _) hother

/-! ## `Lock` -/

theorem getLock_eq_none_iff (h : WellFormed locks) (hlen : 0 < request.length) :
    getLock locks request = none ↔ ¬Blocked (holdings locks) request := by
  rw [← blocked_iff h hlen, Option.isSome_iff_ne_none, not_not]

theorem lock_of_blocked (h : WellFormed locks) (hlen : 0 < request.length)
    (hb : Blocked (holdings locks) request) : lock locks request = (locks, .blocked) := by
  obtain ⟨o, b, -, -, hex⟩ := id hb
  rw [lock, clone_eq hlen, if_pos ⟨hex.1, (blocked_iff h hlen).2 hb⟩]

theorem lock_of_not_blocked (h : WellFormed locks) (hlen : 0 < request.length)
    (hb : ¬Blocked (holdings locks) request) :
    lock locks request = (if (subtract request locks).2 ∨ request.type = .unlck then
      (subtract request locks).1 else insertLock request (subtract request locks).1, .success) := by
  have hn : ¬(request.type ≠ .unlck ∧ (getLock locks request).isSome) := fun hn =>
    hb ((blocked_iff h hlen).1 hn.2)
  rw [lock, clone_eq hlen, if_neg hn]
  split
  split <;> simp_all

theorem Subtracts.ready (h : Subtracts request locks locks') (hwf : WellFormed locks)
    (hlen : 0 < request.length) (hs : StaysSorted locks request) : Ready request locks' where
  positive r hr := h.positive hwf hr
  disjoint := h.disjoint hwf hlen
  inPlace := h.inPlace hwf hs
  free r hr := by
    rintro ⟨ho, b, hb, hreq⟩
    exact ((h.held_iff hwf hlen).1 ⟨r, hr, ho, hb, rfl⟩).2 ⟨rfl, hreq⟩

/-- Unlocking: step (2) alone. -/
theorem Subtracts.unlock (h : Subtracts request locks locks') (hwf : WellFormed locks)
    (hlen : 0 < request.length) (hs : StaysSorted locks request) (ht : request.type = .unlck) :
    WellFormed locks' ∧ holdings locks' = grant (holdings locks) request := by
  have hd := h.disjoint hwf hlen
  refine ⟨⟨?_, fun r hr => h.positive hwf hr, hd, fun r hr => h.locked hwf hr⟩, ?_⟩
  · refine (List.Pairwise.and_mem.1 (h.inPlace hwf hs)).imp fun {r s} hrs => ?_
    rcases hrs.2.2 with hle | ⟨hal, -⟩
    · exact hle
    · exact absurd (hal.2.trans ht) (h.locked hwf hrs.1)
  · funext o b
    rw [grant]
    split
    case isTrue hob =>
      rw [ht]
      exact holdings_of_not_held fun t hheld => ((h.held_iff hwf hlen).1 hheld).2 hob
    case isFalse hob =>
      exact holdings_congr hwf.disjoint hd fun t => (h.held_iff hwf hlen).trans (and_iff_left hob)

/-- What the merged region and the others of the list lock. -/
theorem Inserted.held_iff {others : List FSLockRegion} {merged : FSLockRegion}
    (h : Inserted request locks locks' absorbed others merged) : Held locks' o b t ↔
      (o = request.owner ∧ t = request.type ∧ request.Covers b) ∨ Held locks o b t := by
  rw [Held.perm h.perm', Held.perm h.perm, held_cons, held_append]
  constructor
  · rintro (⟨ho, hb, ht⟩ | hother)
    · rcases (h.covers b).1 hb with hb | ⟨r, hr, hb⟩
      · exact .inl ⟨ho.symm.trans h.alike.1, ht.symm.trans h.alike.2, hb⟩
      · have hal := h.absorbed_alike r hr
        exact .inr (.inl ⟨r, hr, hal.1.trans (h.alike.1.symm.trans ho), hb,
          hal.2.trans (h.alike.2.symm.trans ht)⟩)
    · exact .inr (.inr hother)
  · rintro (⟨rfl, rfl, hb⟩ | ⟨r, hr, rfl, hb, rfl⟩ | hother)
    · exact .inl ⟨h.alike.1, (h.covers b).2 (.inl hb), h.alike.2⟩
    · have hal := h.absorbed_alike r hr
      exact .inl ⟨h.alike.1.trans hal.1.symm, (h.covers b).2 (.inr ⟨r, hr, hb⟩),
        h.alike.2.trans hal.2.symm⟩
    · exact .inr hother

/-- Locking where no region of the owner is in the way. -/
theorem Ready.lock (h : Ready request locks) (hlen : 0 < request.length)
    (hl : ∀ r ∈ locks, r.type ≠ .unlck) (ht : request.type ≠ .unlck) :
    WellFormed (insertLock request locks) ∧
      holdings (insertLock request locks) = grant (holdings locks) request := by
  obtain ⟨absorbed, others, merged, hi⟩ := h.inserted hlen
  have hperm : ∀ {P : FSLockRegion → Prop}, (∀ r ∈ locks, P r) → P merged →
      ∀ r ∈ insertLock request locks, P r := by
    intro P hP hm r hr
    rcases List.mem_cons.1 (hi.perm'.mem_iff.1 hr) with rfl | hr
    · exact hm
    · exact hP r (hi.perm.mem_iff.2 (mem_append_right _ hr))
  have hd := (hi.perm.pairwise_iff fun hn ho => hn (overlap_symm ho)).1 h.disjoint
  obtain ⟨-, hd₂, hd₃⟩ := List.pairwise_append.1 hd
  have hd' : (insertLock request locks).Pairwise fun r s => ¬Overlap r s := by
    refine (hi.perm'.pairwise_iff fun hn ho => hn (overlap_symm ho)).2 (.cons ?_ hd₂)
    rintro s hs ⟨ho, b, hb, hsb⟩
    rcases (hi.covers b).1 hb with hb | ⟨r, hr, hb⟩
    · exact h.free s (hi.perm.mem_iff.2 (mem_append_right _ hs))
        ⟨ho.symm.trans hi.alike.1, b, hsb, hb⟩
    · have hal := hi.absorbed_alike r hr
      exact hd₃ r hr s hs ⟨hal.1.trans (hi.alike.1.symm.trans ho), b, hb, hsb⟩
  refine ⟨⟨hi.sorted, hperm h.positive hi.positive, hd', hperm hl (hi.alike.2 ▸ ht)⟩, ?_⟩
  funext o b
  rw [grant]
  split
  case isTrue hob =>
    exact holdings_of_held hd' (hi.held_iff.2 (.inl ⟨hob.1, rfl, hob.2⟩))
  case isFalse hob =>
    refine holdings_congr h.disjoint hd' fun t => hi.held_iff.trans (or_iff_right fun hn => ?_)
    exact hob ⟨hn.1, hn.2.2⟩

theorem grant_subtract (h : Subtracts request locks locks') (hwf : WellFormed locks)
    (hlen : 0 < request.length) :
    grant (holdings locks') request = grant (holdings locks) request := by
  funext o b
  rw [grant, grant]
  split
  case isTrue => rfl
  case isFalse hob =>
    exact holdings_congr hwf.disjoint (h.disjoint hwf hlen) fun t =>
      (h.held_iff hwf hlen).trans (and_iff_left hob)

/-- A lock that is granted keeps the list well formed and changes what it has to. -/
theorem lock_granted (hwf : WellFormed locks) (hlen : 0 < request.length)
    (hb : ¬Blocked (holdings locks) request) (hs : StaysSorted locks request) :
    WellFormed (lock locks request).1 ∧
      holdings (lock locks request).1 = grant (holdings locks) request := by
  rw [lock_of_not_blocked hwf hlen hb]
  cases hdone : (subtract request locks).2 with
  | true =>
    obtain ⟨heq, r, hr, ho, ht, hcov⟩ := subtract_of_done hlen hwf hdone
    simp only [true_or, if_true, heq]
    refine ⟨hwf, funext fun o => funext fun b => ?_⟩
    rw [grant]
    split
    case isTrue hob =>
      exact holdings_of_held hwf.disjoint ⟨r, hr, ho.trans hob.1.symm, hcov b hob.2, ht⟩
    case isFalse => rfl
  | false =>
    have hsub := subtracts_of_not_done hlen hwf.positive hdone
    by_cases ht : request.type = .unlck
    · simp only [ht, or_true, if_true]
      exact hsub.unlock hwf hlen hs ht
    · simp only [ht, Bool.false_eq_true, or_self, if_false]
      rw [← grant_subtract hsub hwf hlen]
      exact (hsub.ready hwf hlen hs).lock hlen (fun r hr => hsub.locked hwf hr) ht

/-! ## Where the order is lost -/

/-- A region whose start is moved past another one stays before it, and neither is alike the
request. -/
theorem Subtracts.unsorted (h : Subtracts request locks locks') (hwf : WellFormed locks)
    (hs : ¬StaysSorted locks request) :
    ∃ r s, [r, s].Sublist locks' ∧ s.start < r.start ∧ ¬request.IsAlike r ∧ ¬request.IsAlike s := by
  induction h with
  | nil => exact absurd .nil hs
  | @past r rest hle =>
    refine absurd (hwf.sorted.imp_of_mem fun {x y} hx _ _ ho => ?_) hs
    refine absurd ho (not_overlap_of_stop_le (hle.trans ?_))
    rcases List.mem_cons.1 hx with rfl | hx
    · exact le_rfl
    · exact_mod_cast (List.pairwise_cons.1 hwf.sorted).1 x hx
  | skip hn _ ih =>
    have hs' := fun h => hs (.cons (fun x _ ho => absurd ho hn) h)
    obtain ⟨x, y, hxy, h⟩ := ih hwf.tail hs'
    exact ⟨x, y, hxy.cons _, h⟩
  | shrinkRight _ h₁ _ _ ih =>
    have hs' := fun h => hs (.cons (fun x _ _ hn => absurd h₁ hn) h)
    obtain ⟨x, y, hxy, h⟩ := ih hwf.tail hs'
    exact ⟨x, y, hxy.cons _, h⟩
  | @split r before after after' ho h₁ h₂ _ _ _ _ =>
    refine absurd (.cons (fun x _ _ hn => absurd h₁ hn) ?_) hs
    refine hwf.tail.sorted.imp_of_mem fun {x y} hx _ _ hox => ?_
    have hd := (List.pairwise_cons.1 hwf.disjoint).1 x hx
    exact absurd hox (not_overlap_of_covers hd ho.1 fun b hb => covers_of_within h₁.le h₂.le hb)
  | @shrinkLeft r rest rest' ho h₁ h₂ hrest ih =>
    by_cases hs' : StaysSorted rest request
    · have hex : ∃ x ∈ rest, r.type ≠ request.type ∧ (x.start : ℕ∞) < request.stop := by
        by_contra hn
        refine hs (.cons (fun x hx _ _ _ ht => ?_) hs')
        exact not_lt.1 fun hlt => hn ⟨x, hx, ht, hlt⟩
      obtain ⟨x, hx, ht, hlt⟩ := hex
      have hxr : x.owner ≠ r.owner := by
        intro hown
        have hle := (List.pairwise_cons.1 hwf.sorted).1 x hx
        have hpos := covers_start (hwf.positive x (mem_cons_of_mem _ hx))
        exact (List.pairwise_cons.1 hwf.disjoint).1 x hx
          ⟨hown.symm, x.start, ⟨hle, hlt.trans h₂⟩, hpos⟩
      have hxo : x.owner ≠ request.owner := ho.1 ▸ hxr
      have hx' : x ∈ rest' := by
        refine ((hrest.perm hwf.tail).mem_iff).2 (List.mem_flatMap.2 ⟨x, hx, ?_⟩)
        rw [cut_of_not_overlap fun h => hxo h.1]
        exact mem_singleton_self x
      refine ⟨secondHalf request r, x, (List.singleton_sublist.2 hx').cons_cons _, ?_, ?_, ?_⟩
      · rw [← secondHalf_start h₂] at hlt
        exact_mod_cast hlt
      · exact fun hal => ht (isAlike_iff.1 hal).2
      · exact fun hal => hxo (isAlike_iff.1 hal).1
    · obtain ⟨x, y, hxy, h⟩ := ih hwf.tail hs'
      exact ⟨x, y, hxy.cons _, h⟩
  | delete _ _ h₂ _ ih =>
    have hs' := fun h => hs (.cons (fun x _ _ _ hn => absurd hn h₂) h)
    exact ih hwf.tail hs'

/-- The regions of a list that step (3) does not touch. -/
def untouched (request : FSLockRegion) (locks : List FSLockRegion) : List FSLockRegion :=
  locks.filter fun r => ¬request.IsAlike r

theorem untouched_append :
    untouched request (locks ++ locks') = untouched request locks ++ untouched request locks' :=
  filter_append _ _

theorem untouched_cons_of_isAlike (h : request.IsAlike r) :
    untouched request (r :: rest) = untouched request rest := by
  simp [untouched, h]

theorem untouched_modify (h : ∀ r, locks[n]? = some r → request.IsAlike r ∧ request.IsAlike (f r)) :
    untouched request (locks.modify n f) = untouched request locks := by
  induction locks generalizing n with
  | nil => simp
  | cons r rest ih =>
    cases n with
    | zero =>
      obtain ⟨h₁, h₂⟩ := h r rfl
      rw [modify_zero_cons, untouched_cons_of_isAlike h₂, untouched_cons_of_isAlike h₁]
    | succ n =>
      have := ih fun x hx => h x hx
      rw [modify_succ_cons]
      simp only [untouched, filter_cons] at this ⊢
      rw [this]

/-- An index of a region alike the request, where there is one. -/
def Marks (request : FSLockRegion) (locks : List FSLockRegion) (merged : Option Nat) : Prop :=
  ∀ n ∈ merged, ∃ r, locks[n]? = some r ∧ request.IsAlike r

variable {merged : Option Nat}

theorem Marks.append (h : Marks request locks merged) : Marks request (locks ++ locks') merged := by
  intro n hn
  obtain ⟨r, hr, hal⟩ := h n hn
  exact ⟨r, (List.getElem?_append_left (List.getElem?_eq_some_iff.1 hr).1).trans hr, hal⟩

theorem Marks.newRegion (h : Marks request locks merged) :
    request.IsAlike ((merged.bind (locks[·]?)).getD request) := by
  cases merged with
  | none => exact ⟨rfl, rfl, rfl⟩
  | some n =>
    obtain ⟨r, hr, hal⟩ := h n rfl
    rw [Option.bind_some, hr]
    exact hal

theorem isAlike_trans (h : r.IsAlike s) (h' : request.IsAlike r) : request.IsAlike s :=
  ⟨h.1.trans h'.1, h.2.1.trans h'.2.1, h.2.2.trans h'.2.2⟩

theorem untouched_fastForward {passed : List FSLockRegion} (hm : Marks request passed merged) :
    ∀ result, fastForward request passed merged locks = result →
      untouched request (result.1 ++ result.2.2) = untouched request (passed ++ locks) ∧
        Marks request (result.1 ++ result.2.2) result.2.1 := by
  rintro _ rfl
  fun_induction fastForward
  case case1 => exact ⟨by simp, by simpa using hm⟩
  case case2 passed merged region rest newRegion hmerge region' hle =>
    have hal : request.IsAlike region := isAlike_trans hmerge.1 hm.newRegion
    have hal' : request.IsAlike region' := hal
    simp only [untouched_append, untouched_cons_of_isAlike hal, untouched_cons_of_isAlike hal', true_and]
    intro n hn
    obtain rfl := Option.some.inj hn
    exact ⟨region', by simp, hal'⟩
  case case3 passed merged region rest newRegion hmerge region' hle ih =>
    have hal : request.IsAlike region := isAlike_trans hmerge.1 hm.newRegion
    have hal' : request.IsAlike region' := hal
    have hmark : Marks request (passed ++ [region']) (some passed.length) := by
      intro n hn
      obtain rfl := Option.some.inj hn
      exact ⟨region', by simp, hal'⟩
    obtain ⟨h₁, h₂⟩ := ih hmark
    refine ⟨h₁.trans ?_, h₂⟩
    simp only [append_assoc, singleton_append, untouched_append, untouched_cons_of_isAlike hal,
      untouched_cons_of_isAlike hal']
  case case4 => exact ⟨rfl, hm.append⟩
  case case5 passed merged region rest newRegion hmerge hle ih =>
    have := ih hm.append
    rwa [append_assoc, singleton_append] at this

theorem untouched_mergeAfter {new : Nat} {passed : List FSLockRegion}
    (hm : Marks request (passed ++ locks) (some new)) :
    untouched request (mergeAfter new passed locks) = untouched request (passed ++ locks) := by
  fun_induction mergeAfter
  case case1 => rw [append_nil]
  case case2 passed region rest newRegion hal ih =>
    have := ih (by simpa using hm)
    simpa using this
  case case3 passed region rest newRegion hal hmerge =>
    obtain ⟨r, hr, hral⟩ := hm new rfl
    have hnew : newRegion = r := by
      show (passed ++ region :: rest).getD new region = r
      rw [getD_eq_getElem?_getD, hr]
      rfl
    have hregion : request.IsAlike region := by
      obtain ⟨h₁, h₂⟩ := isAlike_iff.1 (not_not.1 hal)
      obtain ⟨h₃, h₄⟩ := isAlike_iff.1 hral
      rw [hnew] at h₁ h₂
      exact isAlike_iff.2 ⟨h₁.symm.trans h₃, h₂.symm.trans h₄⟩
    rw [untouched_append, untouched_append, untouched_cons_of_isAlike hregion, untouched_modify]
    intro x hx
    have hxr : x = r := by
      rw [List.getElem?_append_left (List.getElem?_eq_some_iff.1 hx).1, hx] at hr
      exact Option.some.inj hr
    rw [hxr]
    exact ⟨hral, hral⟩
  case case4 => rfl

/-- Step (3) touches only regions alike the request. -/
theorem untouched_insertLock : untouched request (insertLock request locks) = untouched request locks := by
  have hself : request.IsAlike request := ⟨rfl, rfl, rfl⟩
  rw [insertLock]
  rcases hf : fastForward request [] none locks with ⟨passed, merged, rest⟩
  obtain ⟨h₁, h₂⟩ := untouched_fastForward (by rintro _ ⟨⟩) _ hf
  rw [nil_append] at h₁
  dsimp only at h₁ h₂ ⊢
  cases merged with
  | none =>
    dsimp only
    rw [untouched_mergeAfter, append_assoc, untouched_append, singleton_append,
      untouched_cons_of_isAlike hself, ← untouched_append, h₁]
    intro n hn
    obtain rfl := Option.some.inj hn
    exact ⟨request, by simp, hself⟩
  | some new =>
    dsimp only
    rw [untouched_mergeAfter h₂, h₁]

/-- A granted lock that loses the order leaves a list that is not sorted. -/
theorem lock_unsorted (hwf : WellFormed locks) (hlen : 0 < request.length)
    (hb : ¬Blocked (holdings locks) request) (hs : ¬StaysSorted locks request) :
    ¬(lock locks request).1.Pairwise (·.start ≤ ·.start) := by
  rw [lock_of_not_blocked hwf hlen hb]
  cases hdone : (subtract request locks).2 with
  | true =>
    obtain ⟨-, r, hr, ho, ht, hcov⟩ := subtract_of_done hlen hwf hdone
    refine absurd (hwf.sorted.imp_of_mem fun {x y} hx _ _ hox _ _ hne => ?_) hs
    obtain ⟨hxo, b, hxb, hb⟩ := hox
    have hxh := holdings_of_held hwf.disjoint ⟨x, hx, hxo, hxb, rfl⟩
    have hrh := holdings_of_held hwf.disjoint ⟨r, hr, ho, hcov b hb, ht⟩
    exact absurd (hxh.symm.trans hrh) hne
  | false =>
    obtain ⟨x, y, hxy, hlt, hx, hy⟩ :=
      (subtracts_of_not_done hlen hwf.positive hdone).unsorted hwf hs
    have hsub : [x, y].Sublist (insertLock request (subtract request locks).1) := by
      have hun : untouched request [x, y] = [x, y] := by simp [untouched, hx, hy]
      have := hxy.filter fun r => ¬request.IsAlike r
      rw [← untouched, hun, ← untouched, ← untouched_insertLock] at this
      exact this.trans filter_sublist
    intro hsorted
    split at hsorted
    · exact absurd (List.pairwise_pair.1 (hsorted.sublist hxy)) (not_le.2 hlt)
    · exact absurd (List.pairwise_pair.1 (hsorted.sublist hsub)) (not_le.2 hlt)

/-! ## Runs -/

/-- A request about the locks of an inode. -/
inductive LockCall where
  | lock (request : FSLockRegion)
  | getLock (request : FSLockRegion)

def LockCall.region : LockCall → FSLockRegion
  | .lock request => request
  | .getLock request => request

open scoped Classical in
/-- A call on the lock list and on the reference state. -/
noncomputable def LockCall.step (s : List FSLockRegion × Holdings) :
    LockCall → List FSLockRegion × Holdings
  | .lock request =>
    ((Fs.lock s.1 request).1, if Blocked s.2 request then s.2 else grant s.2 request)
  | .getLock _ => s

/-- What a call has to do: a lock is blocked where the reference state says so, and then nothing
changes; the list goes on to represent the reference state and to be well formed. -/
def LockCall.Conforms (s : List FSLockRegion × Holdings) (c : LockCall) : Prop :=
  match c with
  | .lock request =>
    ((Fs.lock s.1 request).2 = .blocked ↔ Blocked s.2 request) ∧
      (Blocked s.2 request → (Fs.lock s.1 request).1 = s.1) ∧
      holdings (step s c).1 = (step s c).2 ∧ WellFormed (step s c).1
  | .getLock request => Fs.getLock s.1 request = none ↔ ¬Blocked s.2 request

/-- A lock that is granted moves no region past another one. -/
def LockCall.Ordered (s : List FSLockRegion × Holdings) : LockCall → Prop
  | .lock request => Fs.getLock s.1 request = none → StaysSorted s.1 request
  | .getLock _ => True

/-- The list and the reference state of a run. -/
def Represents (s : List FSLockRegion × Holdings) : Prop :=
  WellFormed s.1 ∧ holdings s.1 = s.2

theorem LockCall.step_of_ordered (s : List FSLockRegion × Holdings) (c : LockCall)
    (hlen : 0 < c.region.length) (hs : Represents s) (hc : c.Ordered s) :
    Represents (step s c) ∧ c.Conforms s := by
  obtain ⟨locks, held⟩ := s
  obtain ⟨hwf, hh⟩ := hs
  dsimp only at hwf hh
  subst hh
  cases c with
  | getLock request => exact ⟨⟨hwf, rfl⟩, getLock_eq_none_iff hwf hlen⟩
  | lock request =>
    change 0 < request.length at hlen
    by_cases hb : Blocked (holdings locks) request
    · have hl := lock_of_blocked hwf hlen hb
      simp [Represents, Conforms, step, hl, hb, hwf]
    · have hs := hc ((getLock_eq_none_iff hwf hlen).2 hb)
      obtain ⟨hwf', hh⟩ := lock_granted hwf hlen hb hs
      have hok : (Fs.lock locks request).2 = .success := by rw [lock_of_not_blocked hwf hlen hb]
      simp [Represents, Conforms, step, hok, hb, hwf', hh]

theorem LockCall.ordered_of_conforms (s : List FSLockRegion × Holdings) (c : LockCall)
    (hlen : 0 < c.region.length) (hs : Represents s) (hc : c.Conforms s) : c.Ordered s := by
  obtain ⟨locks, held⟩ := s
  obtain ⟨hwf, hh⟩ := hs
  dsimp only at hwf hh
  subst hh
  cases c with
  | getLock request => trivial
  | lock request =>
    change 0 < request.length at hlen
    intro hn
    have hb := (getLock_eq_none_iff hwf hlen).1 hn
    by_contra hs
    exact lock_unsorted hwf hlen hb hs hc.2.2.2.sorted

/-- The lock list represents the reference state in exactly the runs whose granted locks move no
region past another one. -/
theorem locks_represent {calls : List LockCall} (hwf : WellFormed locks)
    (hlen : ∀ c ∈ calls, 0 < c.region.length) :
    Runs.Each LockCall.step (fun s c => c.Conforms s) (locks, holdings locks) calls ↔
      Runs.Each LockCall.step (fun s c => c.Ordered s) (locks, holdings locks) calls :=
  Runs.each_iff (I := Represents) LockCall.step_of_ordered LockCall.ordered_of_conforms hlen
    ⟨hwf, rfl⟩

/-- One owner splits its own lock, and another asks about what is left. -/
theorem locks_represent_split : Runs.Each LockCall.step (fun s c => c.Conforms s) ([], holdings [])
      [.lock ⟨.rdlck, 0, ⊤, 1, "a"⟩, .lock ⟨.wrlck, 2, 2, 1, "a"⟩,
        .getLock ⟨.rdlck, 3, 1, 2, "a"⟩] := by
  have hfirst : (lock [] ⟨.rdlck, 0, ⊤, 1, "a"⟩).1 = [⟨.rdlck, 0, ⊤, 1, "a"⟩] := by decide +kernel
  refine (locks_represent ⟨.nil, nofun, .nil, nofun⟩ (by decide)).2 ⟨fun _ => .nil, fun _ => ?_, trivial,
    trivial⟩
  rw [LockCall.step, hfirst]
  exact pairwise_singleton _ _

/-- Two owners read the bytes from 2 on. The first gives up its first five bytes, and then the
second one of its own. -/
def strandedCalls : List LockCall :=
  [.lock ⟨.rdlck, 0, 10, 1, "a"⟩, .lock ⟨.rdlck, 2, 2, 2, "a"⟩, .lock ⟨.unlck, 0, 5, 1, "a"⟩,
    .lock ⟨.unlck, 2, 1, 2, "a"⟩]

/-- The first owner's region is moved past the second's, whose unlocking does nothing then. -/
theorem locks_misrepresent : (∀ c ∈ strandedCalls, 0 < c.region.length) ∧
      strandedCalls.foldl (fun locks c => (lock locks c.region).1) [] =
        [⟨.rdlck, 5, 5, 1, "a"⟩, ⟨.rdlck, 2, 2, 2, "a"⟩] ∧
      ¬Runs.Each LockCall.step (fun s c => c.Conforms s) ([], holdings []) strandedCalls := by
  refine ⟨by decide, by decide +kernel, fun h => ?_⟩
  obtain ⟨-, -, h, -⟩ := h
  have hsorted := h.2.2.2.sorted
  revert hsorted
  simp only [LockCall.step]
  decide +kernel

end V86.Fs
