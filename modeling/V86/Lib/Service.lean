import Mathlib.Data.List.Induction

/-!
# Requests served in order

A server starts requests one at a time. A request may wait after it ran, and one that waits may hold
back the requests after it. Requests are answered in the order they were started in, each when it
has finished; clearing the server forgets those that are open. `accepts` reads a history of events
and is `none` when some event breaks this order.
-/

namespace V86.Service

open List

variable {ι : Type} [DecidableEq ι]

/-- What happens to a server of requests `ι`. -/
inductive Event (ι : Type) where
  | started (i : ι)
  | waits (i : ι) (hold : Bool)
  | finished (i : ι)
  | answered (i : ι)
  | cleared
  deriving DecidableEq

/-- What an open request does. -/
inductive Status where
  | running
  | waiting (hold : Bool)
  | done
  deriving DecidableEq

/-- A request that no other one may be started after. -/
def Status.blocks : Status → Bool
  | .running => true
  | .waiting hold => hold
  | .done => false

/-- An open request with its status changed. -/
def mark (i : ι) (st : Status) (o : List (ι × Status)) : List (ι × Status) :=
  o.map fun x => if x.1 = i then (x.1, st) else x

/-- An event, given the requests that are open in the order they were started in. -/
def accept (o : List (ι × Status)) : Event ι → Option (List (ι × Status))
  | .started i => if o.all fun x => !x.2.blocks then some (o ++ [(i, .running)]) else none
  | .waits i hold => some (mark i (.waiting hold) o)
  | .finished i => some (mark i .done o)
  | .answered i =>
    match o with
    | (j, .done) :: rest => if j = i then some rest else none
    | _ => none
  | .cleared => some []

/-- The requests that are open after a history that keeps the order. -/
def accepts (es : List (Event ι)) : Option (List (ι × Status)) := es.foldlM accept []

theorem accepts_append (es es' : List (Event ι)) :
    accepts (es ++ es') = (accepts es).bind fun o => es'.foldlM accept o :=
  foldlM_append

theorem accepts_concat {es : List (Event ι)} {o : List (ι × Status)} (h : accepts es = some o)
    (e : Event ι) : accepts (es ++ [e]) = accept o e := by
  rw [accepts_append, h]
  change accept o e >>= pure = _
  exact bind_pure _

/-! ## What an accepted history says -/

/-- The requests that the events since the last clearing start. -/
def started (es : List (Event ι)) : List ι :=
  es.foldl (fun is e => match e with
    | .started i => is ++ [i]
    | .cleared => []
    | _ => is) []

/-- The requests that the events since the last clearing answer. -/
def answered (es : List (Event ι)) : List ι :=
  es.foldl (fun is e => match e with
    | .answered i => is ++ [i]
    | .cleared => []
    | _ => is) []

omit [DecidableEq ι] in
theorem started_concat (es : List (Event ι)) (e : Event ι) :
    started (es ++ [e]) = match e with
      | .started i => started es ++ [i]
      | .cleared => []
      | _ => started es := by
  rw [started, foldl_append]
  rfl

omit [DecidableEq ι] in
/-- Answers start nothing. -/
theorem started_answers (es : List (Event ι)) (is : List ι) :
    started (es ++ is.map .answered) = started es := by
  induction is generalizing es with
  | nil => rw [map_nil, append_nil]
  | cons i is ih =>
    rw [map_cons, ← singleton_append, ← append_assoc, ih, started_concat]

/-- The first requests that are open are answered, all of them being done. -/
theorem accept_answers {o : List (ι × Status)} (is : List ι) :
    (is.map Event.answered).foldlM accept (is.map (fun i => (i, Status.done)) ++ o) = some o := by
  induction is with
  | nil => rfl
  | cons i is ih =>
    change (if i = i then some (is.map (fun i => (i, Status.done)) ++ o) else none) >>= _ = _
    rw [if_pos rfl]
    exact ih

theorem accept_answered {o o' : List (ι × Status)} {i : ι} (h : accept o (.answered i) = some o') :
    ∃ rest, o = (i, .done) :: rest ∧ o' = rest := by
  cases o with
  | nil => cases h
  | cons x rest =>
    obtain ⟨j, st⟩ := x
    cases st with
    | done =>
      rw [accept] at h
      split at h
      · next hj =>
        cases h
        exact ⟨_, by rw [hj], rfl⟩
      · cases h
    | running => cases h
    | waiting hold => cases h

theorem map_fst_mark (i : ι) (st : Status) (o : List (ι × Status)) :
    (mark i st o).map Prod.fst = o.map Prod.fst := by
  rw [mark, List.map_map]
  refine map_congr_left fun x _ => ?_
  change (if x.1 = i then (x.1, st) else x).1 = x.1
  split <;> rfl

/-- Requests are answered in the order they were started in, each once, and those that have been
started and not answered are open. -/
theorem started_eq {es : List (Event ι)} {o : List (ι × Status)} (h : accepts es = some o) :
    started es = answered es ++ o.map Prod.fst := by
  induction es using List.reverseRecOn generalizing o with
  | nil =>
    cases h
    rfl
  | append_singleton es e ih =>
    rw [accepts_append] at h
    obtain ⟨o', ho', he⟩ := Option.bind_eq_some_iff.1 h
    have hrest := ih ho'
    have he : accept o' e = some o := by
      rw [← he]
      exact (bind_pure _).symm
    rw [started, answered, foldl_append, foldl_append]
    change (match e with | .started i => started es ++ [i] | .cleared => [] | _ => started es) =
      (match e with | .answered i => answered es ++ [i] | .cleared => [] | _ => answered es) ++ _
    cases e with
    | started i =>
      rw [accept] at he
      split at he
      · cases he
        rw [hrest, map_append, ← append_assoc]
        rfl
      · cases he
    | waits i hold | finished i =>
      cases he
      rw [map_fst_mark]
      exact hrest
    | answered i =>
      obtain ⟨rest, rfl, rfl⟩ := accept_answered he
      rw [hrest, append_assoc]
      rfl
    | cleared =>
      cases he
      rfl

end V86.Service
