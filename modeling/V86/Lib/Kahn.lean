import V86.Lib.Exec

/-!
# Visiting nodes after their dependencies

The queue of Kahn's algorithm: each node waits for a number of dependencies, counted with
multiplicity, and is pushed when the count reaches zero. `Queue` relates the counts and the stack
to the nodes visited so far; a queue that runs empty has visited every node when the dependencies
are acyclic (`Queue.complete`).
-/

namespace V86.Kahn

open Exec List

/-- Count down what a user waits for, and push it when it waits for nothing. -/
def countDown (s : List Nat × List Nat) (user : Nat) : Exec (List Nat × List Nat) := do
  let n ← idx s.1 user
  -- `pending[user] -= 1` does not go below zero
  if n = 0 then .error .panic
  else do
    let pending ← setAt s.1 user (n - 1)
    pure (pending, if n - 1 = 0 then user :: s.2 else s.2)

/-- Release the users of a visited node. -/
def release (users : List Nat) (s : List Nat × List Nat) : Exec (List Nat × List Nat) :=
  users.foldlM countDown s

theorem countDown_eq {s : List Nat × List Nat} {user n : Nat} (h : s.1[user]? = some n)
    (hn : n ≠ 0) :
    countDown s user = .ok (s.1.set user (n - 1), if n - 1 = 0 then user :: s.2 else s.2) := by
  have hlt := (List.getElem?_eq_some_iff.1 h).1
  simp [countDown, idx_eq_ok.2 h, hn, setAt_eq_ok.2 ⟨hlt, rfl⟩]

/-- The dependencies of a node that were not visited, with multiplicity. -/
def waiting (deps : Nat → List Nat) (visited : List Nat) (n : Nat) : List Nat :=
  (deps n).filter fun p => p ∉ visited

/-- The state of the queue after the nodes `visited`. -/
structure Queue (active : Nat → Prop) (deps : Nat → List Nat) (visited ready pending : List Nat) :
    Prop where
  count : ∀ n, active n → pending[n]? = some (waiting deps visited n).length
  mem_ready : ∀ n, n ∈ ready ↔ active n ∧ n ∉ visited ∧ waiting deps visited n = []
  ready_nodup : ready.Nodup
  active_visited : ∀ n ∈ visited, active n ∧ waiting deps visited n = []
  visited_nodup : visited.Nodup

variable {active : Nat → Prop} {deps : Nat → List Nat} {visited ready pending users : List Nat}
  {n p : Nat}

/-- A visit takes a node off the lists of those that wait for it. -/
theorem length_waiting_cons (deps : Nat → List Nat) (hp : p ∉ visited) (n : Nat) :
    (waiting deps (p :: visited) n).length + (deps n).count p = (waiting deps visited n).length := by
  unfold waiting
  induction deps n with
  | nil => rfl
  | cons q l ih =>
    by_cases hqp : q = p
    · subst hqp
      rw [filter_cons_of_neg (by simp), filter_cons_of_pos (by simpa using hp),
        count_cons_self, length_cons]
      omega
    · rw [count_cons_of_ne hqp]
      by_cases hq : q ∈ visited
      · rw [filter_cons_of_neg (by simp [hq]), filter_cons_of_neg (by simp [hq])]
        exact ih
      · rw [filter_cons_of_pos (by simp [hq, hqp]), filter_cons_of_pos (by simp [hq]),
          length_cons, length_cons]
        omega

/-- What the release of some users does to the counts and to the stack. -/
theorem release_gives (h : Queue active deps visited (p :: ready) pending)
    (hactive : ∀ n ∈ users, active n) (husers : ∀ n, active n → users.count n = (deps n).count p) :
    Gives (release users (pending, ready)) fun s =>
      (∀ n, active n → s.1[n]? = some ((waiting deps visited n).length - users.count n)) ∧
      s.2.Nodup ∧ ∀ n, n ∈ s.2 ↔ n ∈ ready ∨
        active n ∧ 0 < users.count n ∧ (waiting deps visited n).length = users.count n := by
  have hp : p ∉ visited := ((h.mem_ready p).1 mem_cons_self).2.1
  refine Gives.foldlM (I := fun pre (s : List Nat × List Nat) =>
    (∀ n, active n → s.1[n]? = some ((waiting deps visited n).length - pre.count n)) ∧
    s.2.Nodup ∧ ∀ n, n ∈ s.2 ↔ n ∈ ready ∨
      active n ∧ 0 < pre.count n ∧ (waiting deps visited n).length = pre.count n) ?_ ?_
  · rintro pre user post ⟨pending', ready'⟩ hsplit ⟨hcount, hnd, hmem⟩
    have ha := hactive user (by simp [hsplit])
    -- the user waits for this node at least once more
    have hlt : pre.count user < (waiting deps visited user).length := by
      have h1 := length_waiting_cons deps hp user
      have h2 := husers user ha
      rw [hsplit, List.count_append, count_cons_self] at h2
      omega
    have hget := hcount user ha
    have hnew : user ∉ ready' := by
      rw [hmem]
      rintro (hr | ⟨_, _, heq⟩)
      · have := ((h.mem_ready user).1 (mem_cons_of_mem _ hr)).2.2
        simp [this] at hlt
      · omega
    have hne0 : ¬ (waiting deps visited user).length - pre.count user = 0 := by omega
    refine ⟨_, countDown_eq hget hne0, ?_, ?_, ?_⟩
    · intro n hn
      by_cases heq : n = user
      · subst heq
        simp [(List.getElem?_eq_some_iff.1 hget).1]
        omega
      · simp [List.getElem?_set_ne (Ne.symm heq), hcount n hn, Ne.symm heq]
    · dsimp only
      split
      · exact List.nodup_cons.2 ⟨hnew, hnd⟩
      · exact hnd
    · intro n
      by_cases heq : n = user
      · subst heq
        rw [List.count_append, count_singleton_self]
        dsimp only
        split
        · next hz => simp only [mem_cons_self, true_iff]; exact .inr ⟨ha, by omega, by omega⟩
        · next hz =>
          rw [iff_false_left hnew]
          rintro (hr | ⟨_, _, heq⟩)
          · exact hnew ((hmem n).2 (.inl hr))
          · omega
      · have hcons : ∀ (c : Prop) [Decidable c], n ∈ (if c then user :: ready' else ready') ↔
            n ∈ ready' := by
          intro c _
          split <;> simp [heq]
        rw [hcons, hmem, List.count_append, count_singleton, if_neg (by simpa using Ne.symm heq)]
        simp
  · refine ⟨fun n hn => by simpa using h.count n hn, (List.nodup_cons.1 h.ready_nodup).2, by simp⟩

/-- The visit of the node on top of the stack. -/
theorem Queue.visit (h : Queue active deps visited (p :: ready) pending)
    (hactive : ∀ n ∈ users, active n) (husers : ∀ n, active n → users.count n = (deps n).count p) :
    Gives (release users (pending, ready)) fun s => Queue active deps (p :: visited) s.2 s.1 := by
  obtain ⟨hpa, hp, hpnil⟩ := (h.mem_ready p).1 mem_cons_self
  have hpnew : p ∉ ready := (List.nodup_cons.1 h.ready_nodup).1
  have hstep := length_waiting_cons deps hp
  have hnil : ∀ {n : Nat}, waiting deps visited n = [] → waiting deps (p :: visited) n = [] := by
    intro n hn
    have := hstep n
    rw [hn, length_nil] at this
    exact List.length_eq_zero_iff.1 (by omega)
  refine (release_gives h hactive husers).mono ?_
  rintro ⟨pending', ready'⟩ ⟨hcount, hnd, hmem⟩
  refine ⟨fun n hn => ?_, fun n => ?_, hnd, fun n hn => ?_, List.nodup_cons.2 ⟨hp, h.visited_nodup⟩⟩
  · have h1 := hstep n
    have h2 := husers n hn
    rw [hcount n hn, Option.some.injEq]
    omega
  · rw [hmem]
    constructor
    · rintro (hr | ⟨hn, hpos, heq⟩)
      · obtain ⟨hn, hnot, hn'⟩ := (h.mem_ready n).1 (mem_cons_of_mem _ hr)
        refine ⟨hn, ?_, hnil hn'⟩
        rw [mem_cons, not_or]
        exact ⟨fun heq => hpnew (heq ▸ hr), hnot⟩
      · have h1 := hstep n
        have h2 := husers n hn
        refine ⟨hn, fun hv => ?_, List.length_eq_zero_iff.1 (by omega)⟩
        have hw : waiting deps visited n = [] := by
          rcases List.mem_cons.1 hv with rfl | hv
          · exact hpnil
          · exact (h.active_visited n hv).2
        rw [hw, length_nil] at heq
        omega
    · rintro ⟨hn, hnot, hw⟩
      rw [mem_cons, not_or] at hnot
      have h1 := hstep n
      have h2 := husers n hn
      rw [hw, length_nil] at h1
      by_cases hz : (deps n).count p = 0
      · have hr := (h.mem_ready n).2 ⟨hn, hnot.2, List.length_eq_zero_iff.1 (by omega)⟩
        exact .inl ((List.mem_cons.1 hr).resolve_left hnot.1)
      · exact .inr ⟨hn, by omega, by omega⟩
  · rcases List.mem_cons.1 hn with rfl | hn
    · exact ⟨hpa, hnil hpnil⟩
    · exact ⟨(h.active_visited n hn).1, hnil (h.active_visited n hn).2⟩

/-- A queue that runs empty has visited every node. -/
theorem Queue.complete (h : Queue active deps visited [] pending) (rank : Nat → Nat)
    (hrank : ∀ n, active n → ∀ p ∈ deps n, active p ∧ rank p < rank n) :
    ∀ n, active n → n ∈ visited := by
  suffices ∀ k n, rank n < k → active n → n ∈ visited from
    fun n => this (rank n + 1) n (Nat.lt_succ_self _)
  intro k
  induction k with
  | zero => exact fun n hk => absurd hk (Nat.not_lt_zero _)
  | succ k ih =>
    intro n hk hn
    by_contra hnot
    have hne : waiting deps visited n ≠ [] := fun hnil => by
      have := (h.mem_ready n).2 ⟨hn, hnot, hnil⟩
      cases this
    obtain ⟨p, hp⟩ := exists_mem_of_ne_nil _ hne
    obtain ⟨hdep, hpnot⟩ := List.mem_filter.1 hp
    obtain ⟨hpa, hlt⟩ := hrank n hn p hdep
    exact of_decide_eq_true hpnot (ih p (by omega) hpa)

end V86.Kahn
