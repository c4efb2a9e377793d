import V86.Gpu.Control

/-!
# Control requests are served in order

What is kept is that the requests in `pending` are those that an in-order server would have open
(`Core`), and that `held` tells whether one of them holds the queue. A callback keeps both as long
as one that was left by a reset does not come while a later request holds the queue.
-/

namespace V86.Gpu

open List

open Service (Status Event accepts accept mark started)

variable {s s' : VirtioGPU} {c : Callback} {r : List (Nat × Status)}
  {f : VirtioGPU → VirtioGPU}

/-- A request in `pending` as an in-order server has it open. -/
def Entry.order (e : Entry) : Nat × Status :=
  (e.id, if e.ready then .done else .waiting e.hold)

/-- A request that holds the queue. -/
def Entry.holds (e : Entry) : Bool := !e.ready && e.hold

/-- A callback that has not been called belongs to a request in `pending`, or to one that was popped
before a reset. -/
structure Valid (s : VirtioGPU) (c : Callback) : Prop where
  own : ∀ e ∈ s.pending, e.id = c.id → e.hold = c.hold ∧ c.generation = s.generation
  pending : c.generation = s.generation →
    ∃ e ∈ s.pending, e.id = c.id ∧ e.hold = c.hold ∧ e.ready = false

/-- What is kept of the requests, where those in `r` are being executed. -/
structure Core (s : VirtioGPU) (r : List (Nat × Status)) : Prop where
  accepted : accepts s.events = some (s.pending.map Entry.order ++ r)
  current : ∀ e ∈ s.pending, e.generation = s.generation
  popped : ∀ e ∈ s.pending, e.id < s.popped
  called : ∀ c ∈ s.waiting, c.id < s.popped
  valid : ∀ c ∈ s.waiting, Valid s c
  past : ∀ c ∈ s.waiting, c.generation ≤ s.generation
  distinct : ∀ c ∈ s.waiting, ∀ c' ∈ s.waiting, c.id = c'.id → c = c'
  running : ∀ x ∈ r, x.1 < s.popped ∧ (∀ e ∈ s.pending, e.id ≠ x.1) ∧ ∀ c ∈ s.waiting, c.id ≠ x.1
  one : ∀ e ∈ s.pending, ∀ e' ∈ s.pending, e.holds = true → e'.holds = true → e.id = e'.id
  available : s.available = s.executed ++ s.queue.filterMap Avail.head
  numbered : (started s.events).Nodup ∧ ∀ i ∈ started s.events, i < s.popped
  executed : (started s.events).length = s.executed.length

/-- What is kept, with `held`. -/
structure Inv (s : VirtioGPU) (r : List (Nat × Status)) : Prop extends Core s r where
  held : s.held = s.pending.any Entry.holds

/-! ## Answers -/

variable {e : Entry} {id : Nat} {st : Status} {q : Request} {queue : List Avail}

theorem Entry.order_of_ready (h : e.ready = true) : e.order = (e.id, .done) := by
  rw [Entry.order, h]
  rfl

theorem map_order_of_ready {es : List Entry} (h : ∀ e ∈ es, e.ready = true) :
    es.map Entry.order = (es.map Entry.id).map fun i => (i, Status.done) := by
  rw [List.map_map]
  exact map_congr_left fun e he => Entry.order_of_ready (h e he)

/-- The entries that `drain` leaves are among those before. -/
theorem mem_of_mem_drain (h : e ∈ s.drain.pending) : e ∈ s.pending :=
  (dropWhile_suffix _).subset h

theorem mem_drain (h : e ∈ s.pending) (hready : e.ready = false) : e ∈ s.drain.pending := by
  rw [← takeWhile_append_dropWhile (p := Entry.ready) (l := s.pending)] at h
  rcases List.mem_append.1 h with h | h
  · rw [List.all_eq_true.1 all_takeWhile e h] at hready
    cases hready
  · exact h

theorem any_holds_drain (s : VirtioGPU) :
    s.drain.pending.any Entry.holds = s.pending.any Entry.holds := by
  rw [Bool.eq_iff_iff, any_eq_true, any_eq_true]
  constructor
  · rintro ⟨e, he, hholds⟩
    exact ⟨e, mem_of_mem_drain he, hholds⟩
  · rintro ⟨e, he, hholds⟩
    refine ⟨e, mem_drain he ?_, hholds⟩
    rw [Entry.holds, Bool.and_eq_true, Bool.not_eq_true'] at hholds
    exact hholds.1

/-- The events of `drain`, all of the requests in `pending` having been popped since the last
reset. -/
theorem events_drain (h : ∀ e ∈ s.pending, e.generation = s.generation) : s.drain.events =
      s.events ++ ((s.pending.takeWhile Entry.ready).map Entry.id).map Event.answered := by
  have hall : (s.pending.takeWhile Entry.ready).filter (·.generation = s.generation) =
      s.pending.takeWhile Entry.ready := by
    refine List.filter_eq_self.2 fun e he => ?_
    rw [decide_eq_true_eq]
    exact h e (( takeWhile_prefix _).subset he)
  change s.events ++ List.map _ (List.filter _ _) = _
  rw [hall, List.map_map]
  rfl

theorem Core.drain (h : Core s r) : Core s.drain r where
  accepted := by
    have hready : ∀ e ∈ s.pending.takeWhile Entry.ready, e.ready = true :=
      fun e he => List.all_eq_true.1 all_takeWhile e he
    have hsplit : s.pending.map Entry.order ++ r =
        ((s.pending.takeWhile Entry.ready).map Entry.id).map (fun i => (i, Status.done)) ++
          (s.drain.pending.map Entry.order ++ r) := by
      rw [← map_order_of_ready hready, ← append_assoc, ← map_append]
      change _ = ((s.pending.takeWhile Entry.ready ++ s.pending.dropWhile Entry.ready).map
        Entry.order) ++ r
      rw [takeWhile_append_dropWhile]
    rw [events_drain h.current, Service.accepts_append, h.accepted, hsplit]
    exact Service.accept_answers _
  current := fun e he => h.current e (mem_of_mem_drain he)
  popped := fun e he => h.popped e (mem_of_mem_drain he)
  called := h.called
  valid := by
    intro c hc
    refine ⟨fun e he => (h.valid c hc).own e (mem_of_mem_drain he), fun hgeneration => ?_⟩
    obtain ⟨e, he, hid, hhold, hready⟩ := (h.valid c hc).pending hgeneration
    exact ⟨e, mem_drain he hready, hid, hhold, hready⟩
  past := h.past
  distinct := h.distinct
  running := by
    intro x hx
    obtain ⟨hpopped, hpending, hwaiting⟩ := h.running x hx
    exact ⟨hpopped, fun e he => hpending e (mem_of_mem_drain he), hwaiting⟩
  one := fun e he e' he' => h.one e (mem_of_mem_drain he) e' (mem_of_mem_drain he')
  available := h.available
  numbered := by
    rw [events_drain h.current, Service.started_answers]
    exact h.numbered
  executed := by
    rw [events_drain h.current, Service.started_answers]
    exact h.executed

theorem Core.setHeld (h : Core s r) (held : Bool) : Core { s with held } r :=
  { h with valid := fun c hc => ⟨(h.valid c hc).own, (h.valid c hc).pending⟩ }

theorem Inv.drain (h : Inv s r) : Inv s.drain r where
  toCore := h.toCore.drain
  held := h.held.trans (any_holds_drain s).symm

/-! ## Completions -/

/-- A callback that may be called: no other one with its number is left, and its request is not
being executed. -/
structure Callable (s : VirtioGPU) (r : List (Nat × Status)) (c : Callback) : Prop extends
    Valid s c where
  alone : ∀ c' ∈ s.waiting, c'.id ≠ c.id
  apart : ∀ x ∈ r, x.1 ≠ c.id

theorem mem_finish :
    e ∈ (s.finish id).pending ↔
      (e ∈ s.pending ∧ e.id ≠ id) ∨ ∃ e' ∈ s.pending, e'.id = id ∧ e = { e' with ready := true } := by
  change e ∈ s.pending.map (fun e => if e.id = id then { e with ready := true } else e) ↔ _
  rw [mem_map]
  constructor
  · rintro ⟨e', he', rfl⟩
    split
    · next hid => exact .inr ⟨e', he', hid, rfl⟩
    · next hid => exact .inl ⟨he', hid⟩
  · rintro (⟨he, hid⟩ | ⟨e', he', hid, rfl⟩)
    · exact ⟨e, he, if_neg hid⟩
    · exact ⟨e', he', if_pos hid⟩

/-- What is in `pending` after a completion was in it before, but for `ready`. -/
theorem exists_of_mem_finish (h : e ∈ (s.finish id).pending) :
    ∃ e' ∈ s.pending, e'.id = e.id ∧ e'.hold = e.hold ∧ e'.generation = e.generation ∧
      (e.holds = true → e'.holds = true ∧ e.id ≠ id) := by
  rcases mem_finish.1 h with ⟨he, hid⟩ | ⟨e', he', hid, rfl⟩
  · exact ⟨e, he, rfl, rfl, rfl, fun hholds => ⟨hholds, hid⟩⟩
  · exact ⟨e', he', rfl, rfl, rfl, fun hholds => nomatch hholds⟩

theorem order_finish (id : Nat) (es : List Entry) :
    (es.map fun e => if e.id = id then { e with ready := true } else e).map Entry.order =
      mark id .done (es.map Entry.order) := by
  rw [mark, List.map_map, List.map_map]
  refine map_congr_left fun e _ => ?_
  change Entry.order (if e.id = id then { e with ready := true } else e) =
    if e.id = id then (e.id, Status.done) else e.order
  split <;> rfl

theorem mark_eq_self (h : ∀ x ∈ r, x.1 ≠ id) : mark id st r = r := by
  refine (map_congr_left fun x hx => ?_).trans (List.map_id r)
  exact if_neg (h x hx)

theorem started_finish (s : VirtioGPU) (id : Nat) :
    started (s.finish id).events = started s.events :=
  Service.started_concat ..

theorem Core.finish (h : Core s r) (hc : Callable s r c) : Core (s.finish c.id) r where
  accepted := by
    change accepts (s.events ++ [.finished c.id]) = some ((s.pending.map _).map _ ++ r)
    rw [Service.accepts_concat h.accepted, order_finish]
    change some (mark c.id .done _) = _
    rw [mark, map_append]
    exact congrArg (fun t => some (_ ++ t)) (mark_eq_self hc.apart)
  current := by
    intro e he
    obtain ⟨e', he', -, -, hgeneration, -⟩ := exists_of_mem_finish he
    exact hgeneration.symm.trans (h.current e' he')
  popped := by
    intro e he
    obtain ⟨e', he', hid, -⟩ := exists_of_mem_finish he
    exact hid ▸ h.popped e' he'
  called := h.called
  valid := by
    intro c' hc'
    refine ⟨fun e he hid => ?_, fun hgeneration => ?_⟩
    · obtain ⟨e', he', hid', hhold, -⟩ := exists_of_mem_finish he
      rw [← hhold]
      exact (h.valid c' hc').own e' he' (hid'.trans hid)
    · obtain ⟨e, he, hid, hhold, hready⟩ := (h.valid c' hc').pending hgeneration
      refine ⟨e, mem_finish.2 (.inl ⟨he, ?_⟩), hid, hhold, hready⟩
      rw [hid]
      exact hc.alone c' hc'
  past := h.past
  distinct := h.distinct
  running := by
    intro x hx
    obtain ⟨hpopped, hpending, hwaiting⟩ := h.running x hx
    refine ⟨hpopped, fun e he => ?_, hwaiting⟩
    obtain ⟨e', he', hid, -⟩ := exists_of_mem_finish he
    rw [← hid]
    exact hpending e' he'
  one := by
    intro e he e' he' hholds hholds'
    obtain ⟨d, hd, hid, -, -, hd'⟩ := exists_of_mem_finish he
    obtain ⟨d', hdmem', hid', -, -, hd''⟩ := exists_of_mem_finish he'
    rw [← hid, ← hid']
    exact h.one d hd d' hdmem' (hd' hholds).1 (hd'' hholds').1
  available := h.available
  numbered := by
    rw [started_finish]
    exact h.numbered
  executed := by
    rw [started_finish]
    exact h.executed

/-- Where its request does not hold the queue, or none does, a completion leaves what holds it. -/
theorem any_holds_finish (hc : Valid s c) (h : c.hold = false ∨ s.pending.any Entry.holds = false) :
    (s.finish c.id).pending.any Entry.holds = s.pending.any Entry.holds := by
  rw [Bool.eq_iff_iff, any_eq_true, any_eq_true]
  constructor
  · rintro ⟨e, he, hholds⟩
    obtain ⟨e', he', -, -, -, h'⟩ := exists_of_mem_finish he
    exact ⟨e', he', (h' hholds).1⟩
  · rintro ⟨e, he, hholds⟩
    rcases h with hhold | hnone
    · refine ⟨e, mem_finish.2 (.inl ⟨he, fun hid => ?_⟩), hholds⟩
      rw [Entry.holds, (hc.own e he hid).1, hhold, Bool.and_false] at hholds
      cases hholds
    · rw [any_eq_false] at hnone
      exact absurd hholds (hnone e he)

/-- Once the request that holds the queue completes, none does. -/
theorem any_holds_finish_self (h : Core s r) (hc : Valid s c) (hhold : c.hold = true)
    (hgeneration : c.generation = s.generation) :
    (s.finish c.id).pending.any Entry.holds = false := by
  obtain ⟨e, he, hid, hhold', hready⟩ := hc.pending hgeneration
  rw [any_eq_false]
  intro e' he' hholds
  obtain ⟨d, hd, hid', -, -, hd'⟩ := exists_of_mem_finish he'
  obtain ⟨hdholds, hne⟩ := hd' hholds
  refine hne ?_
  rw [← hid', ← hid]
  refine h.one d hd e he hdholds ?_
  rw [Entry.holds, hready, hhold', hhold]
  rfl

/-- A callback keeps the order, unless it is one left by a reset that comes while a request holds
the queue. -/
theorem Inv.call (h : Inv s r) (hc : Callable s r c) (hf : ∀ s, Inv s [] → Inv (f s) [])
    (hr : r = [] ∨ s.held = false)
    (hstale : c.hold = true → c.generation ≠ s.generation → s.held = false) :
    Inv (VirtioGPU.call f s c) r := by
  have hcore := (h.toCore.finish hc).drain
  rw [VirtioGPU.call]
  cases hrelease : c.hold && (s.finish c.id).drain.held with
  | false =>
    rw [if_neg Bool.false_ne_true]
    refine ⟨hcore, ?_⟩
    rw [any_holds_drain, any_holds_finish hc.toValid]
    · exact h.held
    · rw [Bool.and_eq_false_iff] at hrelease
      rcases hrelease with hhold | hheld
      · exact .inl hhold
      · exact .inr (h.held.symm.trans hheld)
  | true =>
    rw [Bool.and_eq_true] at hrelease
    obtain ⟨hhold, hheld⟩ := hrelease
    have hheld : s.held = true := hheld
    have hgeneration : c.generation = s.generation := by
      by_contra hne
      rw [hstale hhold hne] at hheld
      cases hheld
    rcases hr with rfl | hfalse
    · rw [if_pos rfl]
      refine hf _ ⟨hcore.setHeld false, ?_⟩
      change false = (s.finish c.id).drain.pending.any Entry.holds
      rw [any_holds_drain, any_holds_finish_self h.toCore hc.toValid hhold hgeneration]
    · rw [hfalse] at hheld
      cases hheld

/-! ## Notifications -/

/-- What holds while requests are popped and executed. -/
theorem Inv.fire (h : Inv s r) (hf : ∀ s, Inv s [] → Inv (f s) []) (id : Nat)
    (hr : r = [] ∨ s.held = false)
    (hstale : ∀ c ∈ s.waiting, c.id = id → c.hold = true → c.generation ≠ s.generation →
      s.held = false) : Inv (VirtioGPU.fire f s id) r := by
  rw [VirtioGPU.fire]
  split
  · exact h
  · next c hfind =>
    have hid : c.id = id := by simpa using List.find?_some hfind
    have hmem := List.mem_of_find?_eq_some hfind
    subst hid
    have hsub : ∀ c' ∈ s.waiting.filter (·.id ≠ c.id), c' ∈ s.waiting ∧ c'.id ≠ c.id := by
      intro c' hc'
      rw [mem_filter, decide_eq_true_eq] at hc'
      exact hc'
    refine Inv.call (s := s.forget c.id) ⟨?_, h.held⟩ ?_ hf hr (hstale c hmem rfl)
    · exact
        { h.toCore with
          called := fun c' hc' => h.called c' (hsub c' hc').1
          valid := fun c' hc' =>
            ⟨(h.valid c' (hsub c' hc').1).own, (h.valid c' (hsub c' hc').1).pending⟩
          past := fun c' hc' => h.past c' (hsub c' hc').1
          distinct := fun c' hc' d hd => h.distinct c' (hsub c' hc').1 d (hsub d hd).1
          running := fun x hx =>
            ⟨(h.running x hx).1, (h.running x hx).2.1,
              fun c' hc' => (h.running x hx).2.2 c' (hsub c' hc').1⟩ }
    · exact ⟨⟨(h.valid c hmem).own, (h.valid c hmem).pending⟩, fun c' hc' => (hsub c' hc').2,
        fun x hx => ((h.running x hx).2.2 c hmem).symm⟩

/-- While no request holds the queue, a callback only marks its request and answers what is
ready. -/
theorem call_of_not_held (h : s.held = false) : VirtioGPU.call f s c = (s.finish c.id).drain := by
  have hheld : (s.finish c.id).drain.held = false := h
  rw [VirtioGPU.call, hheld, Bool.and_false, if_neg Bool.false_ne_true]

theorem held_fire (h : s.held = false) (id : Nat) : (VirtioGPU.fire f s id).held = false := by
  rw [VirtioGPU.fire]
  split
  · exact h
  · rw [call_of_not_held (s := s.forget id) h]
    exact h

/-- So do several of them. -/
theorem Inv.fires (h : Inv s r) (hf : ∀ s, Inv s [] → Inv (f s) []) (hheld : s.held = false)
    (ids : List Nat) :
    Inv (ids.foldl (VirtioGPU.fire f) s) r ∧ (ids.foldl (VirtioGPU.fire f) s).held = false := by
  induction ids generalizing s with
  | nil => exact ⟨h, hheld⟩
  | cons id ids ih =>
    exact ih (h.fire hf id (.inr hheld) fun _ _ _ _ _ => hheld) (held_fire hheld id)

/-- What is popped, by what is at the head of the queue. -/
theorem popRequest_cases {P : Option (Request × Nat) × VirtioGPU → Prop}
    (idle : s.isReady = false ∨ s.queue = [] → P (none, s))
    (malformed : ∀ queue, s.queue = .malformed :: queue →
      P (none, { s with queue, needsReset := true }))
    (request : ∀ q queue, s.isReady = true → s.queue = .request q :: queue →
      P (some (q, s.popped), { s with
        queue
        popped := s.popped + 1
        executed := s.executed ++ [q.head]
        events := s.events ++ [.started s.popped] })) : P s.popRequest := by
  rw [VirtioGPU.popRequest]
  cases hready : s.isReady with
  | false =>
    rw [if_neg Bool.false_ne_true]
    exact idle (.inl hready)
  | true =>
    rw [if_pos rfl]
    split
    · next hqueue => exact idle (.inr hqueue)
    · next queue hqueue => exact malformed queue hqueue
    · next q queue hqueue => exact request q queue hready hqueue

/-- Nothing keeps a request from being started while `held` is not set. -/
theorem Inv.no_block (h : Inv s []) (hheld : s.held = false) :
    (s.pending.map Entry.order ++ []).all (fun x => !x.2.blocks) = true := by
  have hnone := h.held.symm.trans hheld
  rw [any_eq_false] at hnone
  rw [append_nil, all_eq_true]
  intro x hx
  obtain ⟨e, he, rfl⟩ := List.mem_map.1 hx
  have hholds := hnone e he
  rw [Entry.holds] at hholds
  rw [Entry.order]
  cases hready : e.ready with
  | true => rfl
  | false =>
    rw [hready] at hholds
    simpa [Status.blocks] using hholds

/-- A request is popped. -/
theorem Inv.start (h : Inv s []) (hheld : s.held = false) (hqueue : s.queue = .request q :: queue) :
    Inv { s with
      queue
      popped := s.popped + 1
      executed := s.executed ++ [q.head]
      events := s.events ++ [.started s.popped] } [(s.popped, .running)] where
  accepted := by
    change accepts (s.events ++ [.started s.popped]) = _
    rw [Service.accepts_concat h.accepted, accept, if_pos (h.no_block hheld), append_nil]
  current := h.current
  popped := fun e he => Nat.lt_succ_of_lt (h.popped e he)
  called := fun c hc => Nat.lt_succ_of_lt (h.called c hc)
  valid := fun c hc => ⟨(h.valid c hc).own, (h.valid c hc).pending⟩
  past := h.past
  distinct := h.distinct
  running := by
    intro x hx
    rw [List.mem_singleton.1 hx]
    exact ⟨Nat.lt_succ_self _, fun e he => Nat.ne_of_lt (h.popped e he),
      fun c hc => Nat.ne_of_lt (h.called c hc)⟩
  one := h.one
  available := by
    have havailable := h.available
    rw [hqueue] at havailable
    exact havailable.trans (append_assoc s.executed [q.head] _).symm
  numbered := by
    change (started (s.events ++ [.started s.popped])).Nodup ∧
      ∀ i ∈ started (s.events ++ [.started s.popped]), i < s.popped + 1
    rw [Service.started_concat]
    refine ⟨?_, fun i hi => ?_⟩
    · refine List.nodup_append.2 ⟨h.numbered.1, by simp, ?_⟩
      intro i hi j hj
      rw [List.mem_singleton.1 hj]
      exact Nat.ne_of_lt (h.numbered.2 i hi)
    · rcases List.mem_append.1 hi with hi | hi
      · exact Nat.lt_succ_of_lt (h.numbered.2 i hi)
      · rw [List.mem_singleton.1 hi]
        exact Nat.lt_succ_self _
  executed := by
    change (started (s.events ++ [.started s.popped])).length = (s.executed ++ [q.head]).length
    rw [Service.started_concat, length_append, length_append, h.executed]
    rfl
  held := h.held

/-- A request that was executed goes to the end of `pending`, with the event that says so. -/
theorem Core.appended {ev : Event Nat} (held : Bool) (h : Core s [(id, .running)])
    (hid : e.order = (id, st)) (hgeneration : e.generation = s.generation)
    (haccept : ∀ o, accept o ev = some (mark id st o))
    (hstarted : started (s.events ++ [ev]) = started s.events)
    (hnone : s.pending.any Entry.holds = false) :
    Core { s with pending := s.pending ++ [e], held, events := s.events ++ [ev] } [] := by
  obtain ⟨hpopped, hfresh, hwaiting⟩ := h.running _ (.head _)
  have heid : e.id = id := congrArg Prod.fst hid
  have hnone := List.any_eq_false.1 hnone
  have hmem : ∀ e' ∈ s.pending ++ [e], e' ∈ s.pending ∨ e' = e := fun e' he' =>
    (List.mem_append.1 he').imp_right List.mem_singleton.1
  exact
    { accepted := by
        change accepts (s.events ++ [ev]) = some ((s.pending ++ [e]).map Entry.order ++ [])
        rw [Service.accepts_concat h.accepted, haccept, append_nil, map_append,
          map_singleton, hid, mark, map_append]
        have hpending : mark id st (s.pending.map Entry.order) = s.pending.map Entry.order := by
          refine mark_eq_self fun x hx => ?_
          obtain ⟨e', he', rfl⟩ := List.mem_map.1 hx
          exact hfresh e' he'
        rw [← mark, hpending, map_singleton, if_pos rfl]
      current := by
        intro e' he'
        rcases hmem e' he' with he' | rfl
        · exact h.current e' he'
        · exact hgeneration
      popped := by
        intro e' he'
        rcases hmem e' he' with he' | rfl
        · exact h.popped e' he'
        · rw [heid]
          exact hpopped
      called := h.called
      valid := by
        intro c hc
        refine ⟨fun e' he' hc' => ?_, fun hg => ?_⟩
        · rcases hmem e' he' with he' | rfl
          · exact (h.valid c hc).own e' he' hc'
          · exact absurd (hc'.symm.trans heid) (hwaiting c hc)
        · obtain ⟨e', he', hrest⟩ := (h.valid c hc).pending hg
          exact ⟨e', mem_append_left _ he', hrest⟩
      past := h.past
      distinct := h.distinct
      running := fun x hx => nomatch hx
      one := by
        intro e₁ he₁ e₂ he₂ hholds₁ hholds₂
        rcases hmem e₁ he₁ with he₁ | rfl
        · exact absurd hholds₁ (hnone e₁ he₁)
        · rcases hmem e₂ he₂ with he₂ | rfl
          · exact absurd hholds₂ (hnone e₂ he₂)
          · rfl
      available := h.available
      numbered := by
        rw [hstarted]
        exact h.numbered
      executed := by
        rw [hstarted]
        exact h.executed }

/-- A request's callback is left for later. -/
theorem Core.await (h : Core s []) (hc : Callable s [] c) (hpopped : c.id < s.popped)
    (hpast : c.generation ≤ s.generation) :
    Core { s with waiting := s.waiting ++ [c] } [] := by
  have hmem : ∀ c' ∈ s.waiting ++ [c], c' ∈ s.waiting ∨ c' = c := fun c' hc' =>
    (List.mem_append.1 hc').imp_right List.mem_singleton.1
  refine { h with called := ?_, valid := ?_, past := ?_, distinct := ?_, running := nofun }
  · intro c' hc'
    rcases hmem c' hc' with hc' | rfl
    · exact h.called c' hc'
    · exact hpopped
  · intro c' hc'
    rcases hmem c' hc' with hc' | rfl
    · exact ⟨(h.valid c' hc').own, (h.valid c' hc').pending⟩
    · exact ⟨hc.own, hc.pending⟩
  · intro c' hc'
    rcases hmem c' hc' with hc' | rfl
    · exact h.past c' hc'
    · exact hpast
  · intro c₁ hc₁ c₂ hc₂ hid
    rcases hmem c₁ hc₁ with hmem₁ | rfl
    · rcases hmem c₂ hc₂ with hmem₂ | rfl
      · exact h.distinct c₁ hmem₁ c₂ hmem₂ hid
      · exact absurd hid (hc.alone c₁ hmem₁)
    · rcases hmem c₂ hc₂ with hmem₂ | rfl
      · exact absurd hid.symm (hc.alone c₂ hmem₂)
      · rfl

theorem Inv.push (h : Inv s [(id, .running)]) (hheld : s.held = false)
    (hf : ∀ s, Inv s [] → Inv (f s) []) (q : Request) : Inv (VirtioGPU.push f s q id) [] := by
  have hnone := h.held.symm.trans hheld
  rw [VirtioGPU.push]
  dsimp only
  split
  · next hdeferred =>
    have horder : (s.entry q id).order = (id, .done) := by
      rw [Entry.order, VirtioGPU.entry, hdeferred]
      rfl
    refine ⟨h.toCore.appended s.held horder rfl (fun o => rfl) (Service.started_concat ..) hnone, ?_⟩
    have hholds : (s.entry q id).holds = false := by
      rw [Entry.holds, VirtioGPU.entry, hdeferred]
      rfl
    change s.held = (s.pending ++ [s.entry q id]).any Entry.holds
    rw [any_append, hnone, any_cons, hholds]
    exact hheld
  · next atOnce hdeferred =>
    have hready : (s.entry q id).ready = false := by
      rw [VirtioGPU.entry, hdeferred]
      rfl
    have horder : (s.entry q id).order = (id, .waiting q.hold) := by
      rw [Entry.order, hready]
      rfl
    have hstarted : started (s.events ++ [.waits id q.hold]) = started s.events :=
      Service.started_concat ..
    have hcore := h.toCore.appended (s.held || q.hold) horder rfl (fun o => rfl) hstarted hnone
    obtain ⟨hpopped, hfresh, hwaiting⟩ := h.running _ (.head _)
    have hinv : Inv { s with
        pending := s.pending ++ [s.entry q id]
        held := s.held || q.hold
        events := s.events ++ [.waits id q.hold] } [] := by
      refine ⟨hcore, ?_⟩
      change (s.held || q.hold) = (s.pending ++ [s.entry q id]).any Entry.holds
      rw [any_append, hnone, any_cons, Entry.holds, hready, hheld]
      exact (Bool.or_false _).symm
    have hvalid : Valid { s with
        pending := s.pending ++ [s.entry q id]
        held := s.held || q.hold
        events := s.events ++ [.waits id q.hold] } ⟨id, s.generation, q.hold⟩ := by
      refine ⟨fun e he hid => ?_, fun _ => ?_⟩
      · rcases List.mem_append.1 he with he | he
        · exact absurd hid (hfresh e he)
        · rw [List.mem_singleton.1 he]
          exact ⟨rfl, rfl⟩
      · exact ⟨s.entry q id, mem_append_right _ (.head _), rfl, rfl, hready⟩
    have hcallable : Callable { s with
        pending := s.pending ++ [s.entry q id]
        held := s.held || q.hold
        events := s.events ++ [.waits id q.hold] } [] ⟨id, s.generation, q.hold⟩ :=
      ⟨hvalid, hwaiting, nofun⟩
    cases atOnce with
    | true =>
      rw [if_pos rfl]
      exact hinv.call hcallable hf (.inl rfl) fun _ hne => absurd rfl hne
    | false =>
      rw [if_neg Bool.false_ne_true]
      exact ⟨hinv.toCore.await hcallable hpopped (Nat.le_refl _), hinv.held⟩

/-- What is kept says nothing of `is_ready`, and of the queue only what is in it. -/
theorem Inv.congr (h : Inv s []) {driverOk needsReset : Bool} {available : List Nat}
    (havailable : available = s.executed ++ queue.filterMap Avail.head) :
    Inv { s with driverOk, needsReset, queue, available } [] :=
  ⟨{ h.toCore with
    valid := fun c hc => ⟨(h.valid c hc).own, (h.valid c hc).pending⟩
    available := havailable
    running := nofun }, h.held⟩

attribute [local simp] VirtioGPU.notify

/-- A notification keeps the order. -/
theorem Inv.notify (n : Nat) : ∀ s, Inv s [] → Inv (VirtioGPU.notify n s) [] := by
  induction n with
  | zero => exact fun s h => h.drain
  | succ n ih =>
    intro s h
    rw [VirtioGPU.notify]
    split
    · exact h.drain
    · next hheld =>
      rw [Bool.not_eq_true] at hheld
      rcases hpop : s.popRequest with ⟨_ | ⟨r, id⟩, s'⟩
      · revert hpop
        refine popRequest_cases (P := fun p => p = (none, s') → Inv s'.drain []) ?_ ?_ ?_
        · rintro _ ⟨⟩
          exact h.drain
        · rintro queue hqueue ⟨⟩
          have havailable : s.available = s.executed ++ queue.filterMap Avail.head := by
            rw [h.available, hqueue]
            rfl
          exact (h.congr havailable).drain
        · rintro _ _ _ _ ⟨⟩
      · revert hpop
        refine popRequest_cases (P := fun p => p = (some (r, id), s') → Inv (VirtioGPU.notify n
          (VirtioGPU.push (VirtioGPU.notify n) (r.fires.foldl (VirtioGPU.fire (VirtioGPU.notify n)) s')
            r id)) []) ?_ ?_ ?_
        · rintro _ ⟨⟩
        · rintro _ _ ⟨⟩
        · rintro _ queue _ hqueue ⟨⟩
          obtain ⟨hfires, hheld'⟩ := (h.start hheld hqueue).fires ih hheld r.fires
          exact ih _ (hfires.push hheld' ih r)

/-! ## Rest -/

/-- A request at the head of `pending` is not ready. -/
def Quiet (s : VirtioGPU) : Prop := ∀ e, s.pending.head? = some e → e.ready = false

theorem quiet_drain (s : VirtioGPU) : Quiet s.drain := by
  intro e he
  have hhead := List.head?_dropWhile_not Entry.ready s.pending
  change (s.pending.dropWhile Entry.ready).head? = some e at he
  rw [he] at hhead
  exact hhead

theorem quiet_notify (n : Nat) : ∀ s, Quiet (VirtioGPU.notify n s) := by
  induction n with
  | zero => exact quiet_drain
  | succ n ih =>
    intro s
    rw [VirtioGPU.notify]
    split
    · exact quiet_drain s
    · split
      · exact quiet_drain _
      · exact ih _

theorem quiet_call (hf : ∀ s, Quiet (f s)) (s : VirtioGPU) (c : Callback) :
    Quiet (VirtioGPU.call f s c) := by
  rw [VirtioGPU.call]
  split
  · exact hf _
  · exact quiet_drain _

theorem quiet_fire (hf : ∀ s, Quiet (f s)) (h : Quiet s) (id : Nat) :
    Quiet (VirtioGPU.fire f s id) := by
  rw [VirtioGPU.fire]
  split
  · exact h
  · exact quiet_call hf _ _

/-- How states follow each other without a reset: the queue gets no longer, the history no
shorter. -/
structure Later (s s' : VirtioGPU) : Prop where
  queue : s'.queue.length ≤ s.queue.length
  events : s.events.length ≤ s'.events.length

theorem Later.refl (s : VirtioGPU) : Later s s := ⟨Nat.le_refl _, Nat.le_refl _⟩

theorem Later.trans {s'' : VirtioGPU} (h : Later s s') (h' : Later s' s'') : Later s s'' :=
  ⟨Nat.le_trans h'.queue h.queue, Nat.le_trans h.events h'.events⟩

theorem Later.of_events {es : List (Event Nat)} (hqueue : s'.queue = s.queue)
    (hevents : s'.events = s.events ++ es) : Later s s' := by
  refine ⟨Nat.le_of_eq (by rw [hqueue]), ?_⟩
  rw [hevents, length_append]
  exact Nat.le_add_right _ _

theorem later_drain (s : VirtioGPU) : Later s s.drain := .of_events rfl rfl

theorem later_call (hf : ∀ s, Later s (f s)) (s : VirtioGPU) (c : Callback) :
    Later s (VirtioGPU.call f s c) := by
  have hdrain : Later s (s.finish c.id).drain :=
    (Later.of_events rfl rfl : Later s (s.finish c.id)).trans (later_drain _)
  rw [VirtioGPU.call]
  split
  · obtain ⟨hqueue, hevents⟩ := hf { (s.finish c.id).drain with held := false }
    exact hdrain.trans ⟨hqueue, hevents⟩
  · exact hdrain

theorem later_fire (hf : ∀ s, Later s (f s)) (s : VirtioGPU) (id : Nat) :
    Later s (VirtioGPU.fire f s id) := by
  rw [VirtioGPU.fire]
  split
  · exact .refl s
  · exact (Later.of_events rfl (append_nil _).symm : Later s (s.forget id)).trans
      (later_call hf _ _)

theorem later_fires (hf : ∀ s, Later s (f s)) (s : VirtioGPU) (ids : List Nat) :
    Later s (ids.foldl (VirtioGPU.fire f) s) := by
  induction ids generalizing s with
  | nil => exact .refl s
  | cons id ids ih => exact (later_fire hf s id).trans (ih _)

theorem later_push (hf : ∀ s, Later s (f s)) (s : VirtioGPU) (q : Request) (id : Nat) :
    Later s (VirtioGPU.push f s q id) := by
  rw [VirtioGPU.push]
  split
  · exact .of_events rfl rfl
  · have hlater : Later s { s with
        pending := s.pending ++ [s.entry q id]
        held := s.held || q.hold
        events := s.events ++ [.waits id q.hold] } := .of_events rfl rfl
    split
    · exact hlater.trans (later_call hf _ _)
    · exact hlater.trans (.of_events rfl (append_nil _).symm)

/-- A round of the loop that pops a request takes it from the queue and puts it in the history. -/
theorem later_round (hf : ∀ s, Later s (f s)) (h : s.popRequest = (some (q, id), s')) :
    (VirtioGPU.push f (q.fires.foldl (VirtioGPU.fire f) s') q id).queue.length < s.queue.length ∧
      s.events.length <
        (VirtioGPU.push f (q.fires.foldl (VirtioGPU.fire f) s') q id).events.length := by
  have hlater := (later_fires hf s' q.fires).trans (later_push hf _ q id)
  have hpop : s'.queue.length < s.queue.length ∧ s.events.length < s'.events.length := by
    revert h
    refine popRequest_cases (P := fun p => p = (some (q, id), s') → _) ?_ ?_ ?_
    · exact fun _ h => nomatch h
    · exact fun _ _ h => nomatch h
    · intro q queue _ hqueue h
      cases h
      rw [hqueue]
      exact ⟨Nat.lt_succ_self _, by simp⟩
  exact ⟨Nat.lt_of_le_of_lt hlater.queue hpop.1, Nat.lt_of_lt_of_le hpop.2 hlater.events⟩

theorem later_popRequest (s : VirtioGPU) : Later s s.popRequest.2 := by
  refine popRequest_cases (P := fun p => Later s p.2) (fun _ => .refl s) ?_ ?_
  · intro queue hqueue
    exact ⟨by rw [hqueue]; exact Nat.le_succ _, Nat.le_refl _⟩
  · intro q queue _ hqueue
    exact ⟨by rw [hqueue]; exact Nat.le_succ _, by simp⟩

theorem later_notify (n : Nat) : ∀ s, Later s (VirtioGPU.notify n s) := by
  induction n with
  | zero => exact later_drain
  | succ n ih =>
    intro s
    rw [VirtioGPU.notify]
    split
    · exact later_drain s
    · split
      · next s' hpop =>
        have h := later_popRequest s
        rw [hpop] at h
        exact h.trans (later_drain _)
      · next q id s' hpop =>
        obtain ⟨hqueue, hevents⟩ := later_round ih hpop
        exact Later.trans ⟨Nat.le_of_lt hqueue, Nat.le_of_lt hevents⟩ (ih _)

/-- Nothing is left to do: a request holds the queue, or there is none to pop. -/
def Done (s : VirtioGPU) : Prop := s.held = true ∨ s.isReady = false ∨ s.queue = []

/-- A notification goes on until nothing is left to do. -/
theorem done_notify (n : Nat) : ∀ s, s.queue.length ≤ n → Done (VirtioGPU.notify n s) := by
  induction n with
  | zero =>
    intro s hn
    exact .inr (.inr (eq_nil_of_length_eq_zero (Nat.le_zero.1 hn)))
  | succ n ih =>
    intro s hn
    rw [VirtioGPU.notify]
    split
    · next hheld => exact .inl hheld
    · split
      · next s' hpop =>
        have hidle : s'.isReady = false ∨ s'.queue = [] := by
          revert hpop
          refine popRequest_cases (P := fun p => p = (none, s') → _) ?_ ?_ ?_
          · intro hidle h
            cases h
            exact hidle
          · intro queue _ h
            cases h
            exact .inl (Bool.and_false _)
          · exact fun _ _ _ _ h => nomatch h
        exact .inr hidle
      · next q id s' hpop =>
        obtain ⟨hqueue, -⟩ := later_round (later_notify n) hpop
        exact ih _ (by omega)

/-- A notification that leaves the queue held has popped a request. -/
theorem notify_held {n : Nat} (h : s.held = false) (hheld : (VirtioGPU.notify n s).held = true) :
    s.events.length < (VirtioGPU.notify n s).events.length := by
  cases n with
  | zero => exact absurd (h.symm.trans hheld) Bool.false_ne_true
  | succ n =>
    rw [VirtioGPU.notify, if_neg (by rw [h]; exact Bool.false_ne_true)] at hheld ⊢
    split at hheld
    · next s' hpop =>
      have hs' : s'.held = false := by
        revert hpop
        refine popRequest_cases (P := fun p => p = (none, s') → _) ?_ ?_ ?_
        · intro _ h'
          cases h'
          exact h
        · intro _ _ h'
          cases h'
          exact h
        · exact fun _ _ _ _ h' => nomatch h'
      exact absurd (hs'.symm.trans hheld) Bool.false_ne_true
    · next q id s' hpop =>
      obtain ⟨-, hevents⟩ := later_round (later_notify n) hpop
      exact Nat.lt_of_lt_of_le hevents (later_notify n _).events

end V86.Gpu
