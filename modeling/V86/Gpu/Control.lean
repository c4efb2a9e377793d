import V86.Lib.Runs
import V86.Lib.Service
import V86.Lib.Splice

/-!
# The control queue of the virtio GPU

`src/graphics_adapters/virtio_gpu/virtio_gpu_device.js`: `notify` pops control requests and executes
them; one whose answer has to wait leaves a callback, and may hold the queue until that is called;
`drain` answers the requests that are ready, in order. Callbacks of requests popped before a reset
of the device stay alive after it.
-/

namespace V86.Gpu

/-! ## Requests -/

/-- A control request, with what `control` makes of it: its response, the callbacks of earlier
requests that it calls meanwhile, and `deferred` and `hold`. Of `deferred` it matters whether the
function calls back at once. -/
structure Request where
  /-- The head of its descriptor chain. -/
  head : Nat
  bytes : List UInt8
  response : List UInt8
  fires : List Nat
  deferred : Option Bool
  hold : Bool
  deriving DecidableEq

/-- What the driver makes available: a request, or a chain for which `pop_request` asks for a
reset. -/
inductive Avail where
  | request (r : Request)
  | malformed
  deriving DecidableEq

/-- An element of `pending`, with the `hold` that its callback captures. -/
structure Entry where
  id : Nat
  generation : Nat
  bytes : List UInt8
  response : List UInt8
  ready : Bool
  hold : Bool
  deriving DecidableEq

/-- A callback that was given to `wait`: the `entry` and the `hold` that it captures, and the
generation of the entry's request. -/
structure Callback where
  id : Nat
  generation : Nat
  hold : Bool
  deriving DecidableEq

/-- The device, its control queue and its transport, with what has happened. -/
@[ext] structure VirtioGPU where
  driverOk : Bool
  needsReset : Bool
  generation : Nat
  queue : List Avail
  pending : List Entry
  held : Bool
  /-- The callbacks that have not been called. -/
  waiting : List Callback
  /-- Requests are numbered as they are popped. -/
  popped : Nat
  events : List (Service.Event Nat)
  /-- The heads of the requests made available, and of those popped, since the last reset. -/
  available : List Nat
  executed : List Nat
  /-- The replies in the used ring. -/
  replies : List (Nat × List UInt8)
  deriving DecidableEq

def headerSize : Nat := 24
def flagFence : UInt8 := 1
def flagInfoRingIdx : UInt8 := 2

/-- The bytes that `respond` writes. -/
def respond (bytes response : List UInt8) : List UInt8 :=
  if headerSize ≤ bytes.length then
    let flags := bytes.getD 4 0
    if flags &&& flagFence ≠ 0 then
      splice (response.set 4 (flagFence ||| flags &&& flagInfoRingIdx)) 8
        ((bytes.drop 8).take 13)
    else response
  else response

namespace VirtioGPU

/-- `is_ready`. -/
def isReady (s : VirtioGPU) : Bool := s.driverOk && !s.needsReset

/-- `pop_request`, with the number of the request. -/
def popRequest (s : VirtioGPU) : Option (Request × Nat) × VirtioGPU :=
  if s.isReady then
    match s.queue with
    | [] => (none, s)
    | .malformed :: queue => (none, { s with queue, needsReset := true })
    | .request r :: queue =>
      (some (r, s.popped), { s with
        queue
        popped := s.popped + 1
        executed := s.executed ++ [r.head]
        events := s.events ++ [.started s.popped] })
  else (none, s)

/-- `drain`. The transport drops answers to requests popped before a reset. -/
def drain (s : VirtioGPU) : VirtioGPU :=
  let answers := (s.pending.takeWhile (·.ready)).filter (·.generation = s.generation)
  { s with
    pending := s.pending.dropWhile (·.ready)
    events := s.events ++ answers.map fun e => .answered e.id
    replies := s.replies ++ answers.map fun e => (e.id, respond e.bytes e.response) }

/-- `entry.ready = true`. -/
def finish (s : VirtioGPU) (id : Nat) : VirtioGPU :=
  { s with
    pending := s.pending.map fun e => if e.id = id then { e with ready := true } else e
    events := s.events ++ [.finished id] }

/-- The callback given to `wait`, where `notify` is what it goes on with. -/
def call (notify : VirtioGPU → VirtioGPU) (s : VirtioGPU) (c : Callback) : VirtioGPU :=
  let s := (s.finish c.id).drain
  if c.hold && s.held then notify { s with held := false } else s

/-- A callback is no longer to be called. -/
def forget (s : VirtioGPU) (id : Nat) : VirtioGPU :=
  { s with waiting := s.waiting.filter (·.id ≠ id) }

/-- A callback is called, unless it has been. -/
def fire (notify : VirtioGPU → VirtioGPU) (s : VirtioGPU) (id : Nat) : VirtioGPU :=
  match s.waiting.find? (·.id = id) with
  | none => s
  | some c => call notify (s.forget id) c

/-- The `entry` of a request. -/
def entry (s : VirtioGPU) (r : Request) (id : Nat) : Entry :=
  { id, generation := s.generation, bytes := r.bytes, response := r.response,
    ready := r.deferred.isNone, hold := r.hold }

/-- The end of a round of the loop of `notify`, after `control`. -/
def push (notify : VirtioGPU → VirtioGPU) (s : VirtioGPU) (r : Request) (id : Nat) : VirtioGPU :=
  let s : VirtioGPU := { s with pending := s.pending ++ [s.entry r id] }
  match r.deferred with
  | none => { s with events := s.events ++ [.finished id] }
  | some atOnce =>
    let c : Callback := ⟨id, s.generation, r.hold⟩
    let s : VirtioGPU := { s with
      held := s.held || r.hold
      events := s.events ++ [.waits id r.hold] }
    if atOnce then call notify s c else { s with waiting := s.waiting ++ [c] }

/-- `notify` for the control queue, for a queue of so many elements at most: every round takes
one. -/
def notify : Nat → VirtioGPU → VirtioGPU
  | 0, s => s.drain
  | n + 1, s =>
    if s.held then s.drain
    else
      match s.popRequest with
      | (none, s) => s.drain
      | (some (r, id), s) => notify n (push (notify n) (r.fires.foldl (fire (notify n)) s) r id)

/-- `reset_device`, and what the transport does before it; resetting the renderer calls some
callbacks. -/
def resetDevice (s : VirtioGPU) (fires : List Nat) : VirtioGPU :=
  let s := { s with
    driverOk := false
    needsReset := false
    generation := s.generation + 1
    queue := []
    pending := []
    held := false
    available := []
    executed := []
    events := s.events ++ [.cleared] }
  fires.foldl (fire (notify 0)) s

end VirtioGPU

/-! ## Steps -/

/-- What the driver and the renderer do. -/
inductive Step where
  | driverOk
  | available (a : Avail)
  | notify
  | complete (id : Nat)
  | giveUp
  | reset (fires : List Nat)
  deriving DecidableEq

/-- The head of what is made available, if it is a request. -/
def Avail.head : Avail → Option Nat
  | .request r => some r.head
  | .malformed => none

/-- The state after a step. -/
def step (s : VirtioGPU) : Step → VirtioGPU
  | .driverOk => { s with driverOk := true }
  | .available a =>
    { s with queue := s.queue ++ [a], available := s.available ++ a.head.toList }
  | .notify => if s.isReady then s.notify s.queue.length else s
  | .complete id => VirtioGPU.fire (VirtioGPU.notify s.queue.length) s id
  | .giveUp => { s with needsReset := true }
  | .reset fires => s.resetDevice fires

/-- The device before its first use. -/
def VirtioGPU.init : VirtioGPU where
  driverOk := false
  needsReset := false
  generation := 0
  queue := []
  pending := []
  held := false
  waiting := []
  popped := 0
  events := []
  available := []
  executed := []
  replies := []

end V86.Gpu
