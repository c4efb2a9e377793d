import V86.Gpu.ControlCorrect

/-!
# Runs of the control queue

What every step of a run is to do (`Served`), and which steps do it: all but the completion of a
request that held the queue before a reset, when it comes while a request popped after the reset
holds the queue.
-/

namespace V86.Gpu

open List

open Service (Status accepts started answered)

variable {s : VirtioGPU} {a : Step} {c : Callback}

/-- Some request that is open keeps others from being started. -/
def Blocked (s : VirtioGPU) : Prop := ∃ o, accepts s.events = some o ∧ ∃ x ∈ o, x.2.blocks = true

/-- The requests popped since the last reset were popped in the order they were made available in,
and have been served in order: what is not answered is open, and its first one has not completed. -/
structure Ordered (s : VirtioGPU) : Prop where
  served : ∃ o, accepts s.events = some o ∧ (∀ x ∈ o, x.2 ≠ .running) ∧
    (∀ x, o.head? = some x → x.2 ≠ .done) ∧ started s.events = answered s.events ++ o.map Prod.fst
  once : (started s.events).Nodup
  popped : (started s.events).length = s.executed.length
  available : s.available = s.executed ++ s.queue.filterMap Avail.head

/-- What a step is to do. -/
structure Served (s : VirtioGPU) (a : Step) : Prop where
  ordered : Ordered (step s a)
  /-- A completion left by a reset does nothing. -/
  stale : ∀ c ∈ s.waiting, a = .complete c.id → c.generation ≠ s.generation →
    step s a = { s.forget c.id with events := s.events ++ [.finished c.id] }
  /-- After the completion of a request that held the queue, the requests left in it are executed,
  up to one that holds it again. -/
  resumed : ∀ c ∈ s.waiting, a = .complete c.id → c.generation = s.generation → c.hold = true →
    Blocked (step s a) ∨ (step s a).isReady = false ∨ (step s a).queue = []

/-- The step is not a completion, left by a reset, of a request that held the queue, while the queue
is held. -/
def Safe (s : VirtioGPU) (a : Step) : Prop :=
  ∀ c ∈ s.waiting, a = .complete c.id → c.hold = true → c.generation ≠ s.generation →
    s.held = false

theorem Inv.ordered (h : Inv s []) (hquiet : Quiet s) : Ordered s where
  served := by
    have haccepted := h.accepted
    rw [append_nil] at haccepted
    refine ⟨_, haccepted, ?_, ?_, Service.started_eq haccepted⟩
    · intro x hx
      obtain ⟨e, -, rfl⟩ := List.mem_map.1 hx
      rw [Entry.order]
      cases e.ready <;> intro hrunning <;> cases hrunning
    · intro x hx
      rw [List.head?_map] at hx
      obtain ⟨e, he, rfl⟩ := Option.map_eq_some_iff.1 hx
      rw [Entry.order, hquiet e he]
      intro hdone
      cases hdone
  once := h.numbered.1
  popped := h.executed
  available := h.available

/-- The queue is held while an open request blocks it. -/
theorem Inv.blocked (h : Inv s []) (hheld : s.held = true) : Blocked s := by
  rw [h.held, any_eq_true] at hheld
  obtain ⟨e, he, hholds⟩ := hheld
  rw [Entry.holds, Bool.and_eq_true, Bool.not_eq_true'] at hholds
  refine ⟨_, h.accepted, e.order, mem_append_left _ (mem_map_of_mem he), ?_⟩
  rw [Entry.order, hholds.1]
  exact hholds.2

/-! ## Steps -/

theorem Inv.init : Inv VirtioGPU.init [] where
  accepted := rfl
  current := nofun
  popped := nofun
  called := nofun
  valid := nofun
  past := nofun
  distinct := nofun
  running := nofun
  one := nofun
  available := rfl
  numbered := ⟨nodup_nil, nofun⟩
  executed := rfl
  held := rfl

/-- Resetting the device keeps the order: no request is open, and every callback that has not been
called is left by the reset. -/
theorem Inv.resetDevice (h : Inv s []) (fires : List Nat) :
    Inv (s.resetDevice fires) [] ∧ Quiet (s.resetDevice fires) := by
  have hinv : Inv { s with
      driverOk := false
      needsReset := false
      generation := s.generation + 1
      queue := []
      pending := []
      held := false
      available := []
      executed := []
      events := s.events ++ [.cleared] } [] :=
    { accepted := Service.accepts_concat h.accepted _
      current := nofun
      popped := nofun
      called := h.called
      valid := by
        refine fun c hc => ⟨nofun, fun hgeneration => ?_⟩
        have hpast : c.generation ≤ s.generation := h.past c hc
        have hnow : c.generation = s.generation + 1 := hgeneration
        omega
      past := fun c hc => Nat.le_succ_of_le (h.past c hc)
      distinct := h.distinct
      running := nofun
      one := nofun
      available := rfl
      numbered := by
        change (started (s.events ++ [.cleared])).Nodup ∧ ∀ i ∈ started (s.events ++ [.cleared]), _
        rw [Service.started_concat]
        exact ⟨nodup_nil, nofun⟩
      executed := by
        change (started (s.events ++ [.cleared])).length = 0
        rw [Service.started_concat]
        rfl
      held := rfl }
  refine ⟨(hinv.fires (Inv.notify 0) rfl fires).1, ?_⟩
  have hquiet : ∀ (s : VirtioGPU) (ids : List Nat), Quiet s →
      Quiet (ids.foldl (VirtioGPU.fire (VirtioGPU.notify 0)) s) := by
    intro s ids hs
    induction ids generalizing s with
    | nil => exact hs
    | cons id ids ih => exact ih _ (quiet_fire (quiet_notify 0) hs id)
  exact hquiet _ fires nofun

/-- A step keeps the order. -/
theorem step_inv (h : Inv s [] ∧ Quiet s) (hsafe : Safe s a) :
    Inv (step s a) [] ∧ Quiet (step s a) := by
  obtain ⟨hinv, hquiet⟩ := h
  cases a with
  | driverOk => exact ⟨hinv.congr hinv.available, hquiet⟩
  | available a =>
    refine ⟨hinv.congr ?_, hquiet⟩
    have hhead : [a].filterMap Avail.head = a.head.toList := by
      cases a <;> rfl
    rw [hinv.available, filterMap_append, hhead, append_assoc]
  | notify =>
    rw [step]
    split
    · exact ⟨hinv.notify _ _, quiet_notify _ _⟩
    · exact ⟨hinv, hquiet⟩
  | complete id =>
    refine ⟨hinv.fire (Inv.notify _) id (.inl rfl) ?_, quiet_fire (quiet_notify _) hquiet id⟩
    rintro c hc rfl hhold hstale
    exact hsafe c hc rfl hhold hstale
  | giveUp => exact ⟨hinv.congr hinv.available, hquiet⟩
  | reset fires => exact hinv.resetDevice fires

/-! ## Completions -/

/-- A callback that has not been called is found by its number. -/
theorem Inv.fire_eq {f : VirtioGPU → VirtioGPU} (h : Inv s []) (hc : c ∈ s.waiting) :
    VirtioGPU.fire f s c.id = VirtioGPU.call f (s.forget c.id) c := by
  have hfind : s.waiting.find? (·.id = c.id) = some c := by
    cases hfind : s.waiting.find? (·.id = c.id) with
    | none => exact absurd (List.find?_eq_none.1 hfind c hc) (by simp)
    | some c' =>
      have hid : c'.id = c.id := by simpa using List.find?_some hfind
      rw [h.distinct c' (List.mem_of_find?_eq_some hfind) c hc hid]
  rw [VirtioGPU.fire, hfind]

/-- Marking the request of a completion left by a reset marks none in `pending`, and leaves nothing
to be answered. -/
theorem Inv.drain_stale (h : Inv s []) (hquiet : Quiet s) (hc : c ∈ s.waiting)
    (hstale : c.generation ≠ s.generation) :
    ((s.forget c.id).finish c.id).drain =
      { s.forget c.id with events := s.events ++ [.finished c.id] } := by
  have hfinish : ((s.forget c.id).finish c.id).pending = s.pending := by
    refine (map_congr_left fun e he => ?_).trans (List.map_id _)
    exact if_neg fun hid => hstale ((h.valid c hc).own e he hid).2
  have htake : s.pending.takeWhile Entry.ready = [] := by
    cases hpending : s.pending with
    | nil => rfl
    | cons e es =>
      have hready := hquiet e (by rw [hpending]; rfl)
      rw [takeWhile_cons_of_neg (by rw [hready]; exact Bool.false_ne_true)]
  have hdrop : s.pending.dropWhile Entry.ready = s.pending := by
    have hsplit := takeWhile_append_dropWhile (p := Entry.ready) (l := s.pending)
    rwa [htake, nil_append] at hsplit
  rw [VirtioGPU.drain, hfinish, htake, hdrop]
  ext1 <;> first | rfl | exact append_nil _

/-- A completion left by a reset does nothing, unless its request held the queue and it is held. -/
theorem Inv.stale (h : Inv s []) (hquiet : Quiet s) (hc : c ∈ s.waiting)
    (hstale : c.generation ≠ s.generation) (hheld : c.hold = true → s.held = false) :
    step s (.complete c.id) = { s.forget c.id with events := s.events ++ [.finished c.id] } := by
  have hrelease : (c.hold && s.held) = false := by
    cases hhold : c.hold with
    | false => rfl
    | true => exact hheld hhold
  rw [step, h.fire_eq hc, VirtioGPU.call, h.drain_stale hquiet hc hstale, if_neg]
  change ¬(c.hold && s.held) = true
  rw [hrelease]
  exact Bool.false_ne_true

/-- Where a completion left by a reset does nothing, it releases no hold. -/
theorem Inv.safe_of_stale (h : Inv s []) (hquiet : Quiet s) (hc : c ∈ s.waiting)
    (hhold : c.hold = true) (hstale : c.generation ≠ s.generation)
    (heq : step s (.complete c.id) =
      { s.forget c.id with events := s.events ++ [.finished c.id] }) : s.held = false := by
  rw [step, h.fire_eq hc, VirtioGPU.call, h.drain_stale hquiet hc hstale, hhold] at heq
  cases hheld : s.held with
  | false => rfl
  | true =>
    -- the hold of the later request is given up, and only a request popped then could hold again
    rw [if_pos (by rw [Bool.true_and]; exact hheld)] at heq
    have hgrows := notify_held (n := s.queue.length) (s := { s.forget c.id with
      held := false
      events := s.events ++ [.finished c.id] }) rfl (by rw [heq]; exact hheld)
    rw [heq] at hgrows
    exact absurd hgrows (Nat.lt_irrefl _)

/-- Once the request that holds the queue completes, nothing is left to do. -/
theorem Inv.resumed (h : Inv s []) (hc : c ∈ s.waiting) (hgeneration : c.generation = s.generation)
    (hhold : c.hold = true) : Done (step s (.complete c.id)) := by
  have hheld : s.held = true := by
    obtain ⟨e, he, -, hehold, hready⟩ := (h.valid c hc).pending hgeneration
    rw [h.held, any_eq_true]
    refine ⟨e, he, ?_⟩
    rw [Entry.holds, hready, hehold, hhold]
    rfl
  have hdrain : ((s.forget c.id).finish c.id).drain.held = true := hheld
  rw [step, h.fire_eq hc, VirtioGPU.call, hhold, Bool.true_and, if_pos hdrain]
  exact done_notify _ _ (Nat.le_refl _)

/-! ## Runs -/

/-- A step that is safe does what it is to do. -/
theorem served_of_safe (h : Inv s [] ∧ Quiet s) (hsafe : Safe s a) : Served s a := by
  obtain ⟨hinv, hquiet⟩ := h
  obtain ⟨hinv', hquiet'⟩ := step_inv ⟨hinv, hquiet⟩ hsafe
  refine ⟨hinv'.ordered hquiet', ?_, ?_⟩
  · rintro c hc rfl hstale
    exact hinv.stale hquiet hc hstale fun hhold => hsafe c hc rfl hhold hstale
  · rintro c hc rfl hgeneration hhold
    rcases hinv.resumed hc hgeneration hhold with hheld | hidle
    · exact .inl (hinv'.blocked hheld)
    · exact .inr hidle

/-- In a run, every step does what it is to do exactly when every step is safe. -/
theorem served_iff_safe (steps : List Step) :
    Runs.Each step Served VirtioGPU.init steps ↔ Runs.Each step Safe VirtioGPU.init steps := by
  refine Runs.each_iff (A := fun _ => True) (I := fun s => Inv s [] ∧ Quiet s) ?_ ?_
    (fun _ _ => trivial) ⟨.init, nofun⟩
  · exact fun s a _ h hsafe => ⟨step_inv h hsafe, served_of_safe h hsafe⟩
  · rintro s a - ⟨hinv, hquiet⟩ hserved c hc ha hhold hstale
    have heq := hserved.stale c hc ha hstale
    subst ha
    exact hinv.safe_of_stale hquiet hc hhold hstale heq

/-- A request that waits and holds the queue. -/
def holding (head : Nat) : Request where
  head := head
  bytes := []
  response := []
  fires := []
  deferred := some false
  hold := true

/-- A request that is answered at once. -/
def plain (head : Nat) : Request := { holding head with deferred := none, hold := false }

/-- A request holds the queue, the device is reset, another request holds the queue, with a third
one behind it, and the first one completes. -/
def releasedByStale : List Step :=
  [.driverOk, .available (.request (holding 0)), .notify, .reset [], .driverOk,
    .available (.request (holding 0)), .available (.request (plain 1)), .notify, .complete 0]

/-- The third request is executed while the second one holds the queue. -/
theorem released_by_stale : ¬∀ steps, Runs.Each step Served VirtioGPU.init steps := by
  intro h
  obtain ⟨-, -, -, -, -, -, -, -, hlast, -⟩ := h releasedByStale
  obtain ⟨o, ho, -⟩ := hlast.ordered.served
  have hnone : accepts (releasedByStale.foldl step VirtioGPU.init).events = none := by decide
  exact nomatch ho.symm.trans hnone

end V86.Gpu
