import Mathlib.Data.ENat.Basic

/-!
# Byte-range locks of the 9p filesystem

`FS.Lock` and `FS.GetLock` of `lib/filesystem.js`, on the lock regions of one inode. A length is a
positive number or `Infinity`, so an element of `ℕ∞`. Its subtraction cuts off at zero, which is
what the code asks of a difference: the lengths it computes are only used where they are positive,
and `Infinity - Infinity`, a `NaN` there, is positive in neither.
-/

namespace V86.Fs

/-- The lock types `P9_LOCK_TYPE_*`. -/
inductive LockType where
  | rdlck
  | wrlck
  | unlck
  deriving DecidableEq, Repr

/-- The answers `P9_LOCK_*` that `Lock` gives. -/
inductive LockAnswer where
  | success
  | blocked
  deriving DecidableEq, Repr

structure FSLockRegion where
  type : LockType
  start : Nat
  length : ℕ∞
  procId : Nat
  clientId : String
  deriving DecidableEq

namespace FSLockRegion

/-- `start + length`, the first byte after the region. -/
def stop (r : FSLockRegion) : ℕ∞ := r.start + r.length

/-- Two regions of one `proc_id` and `client_id`. -/
def SameOwner (r s : FSLockRegion) : Prop := r.procId = s.procId ∧ r.clientId = s.clientId

instance (r s : FSLockRegion) : Decidable (r.SameOwner s) :=
  inferInstanceAs (Decidable (_ ∧ _))

def getState (r : FSLockRegion) : LockType × Nat × Nat × Nat × String :=
  (r.type, r.start, if r.length = ⊤ then 0 else r.length.toNat, r.procId, r.clientId)

def setState : LockType × Nat × Nat × Nat × String → FSLockRegion
  | (type, start, length, procId, clientId) =>
    { type, start, length := if length = 0 then ⊤ else length, procId, clientId }

def clone (r : FSLockRegion) : FSLockRegion := setState r.getState

/-- `conflicts_with`. -/
def conflictsWith (r region : FSLockRegion) : Bool :=
  if r.SameOwner region then false
  else if r.type = .unlck ∨ region.type = .unlck then false
  else if r.type ≠ .wrlck ∧ region.type ≠ .wrlck then false
  else if r.stop ≤ region.start then false
  else if region.stop ≤ r.start then false
  else true

/-- `is_alike`. -/
def IsAlike (r region : FSLockRegion) : Prop :=
  region.procId = r.procId ∧ region.clientId = r.clientId ∧ region.type = r.type

instance (r region : FSLockRegion) : Decidable (r.IsAlike region) :=
  inferInstanceAs (Decidable (_ ∧ _ ∧ _))

/-- `may_merge_after`. -/
def MayMergeAfter (r region : FSLockRegion) : Prop := r.IsAlike region ∧ region.stop = r.start

instance (r region : FSLockRegion) : Decidable (r.MayMergeAfter region) :=
  inferInstanceAs (Decidable (_ ∧ _))

end FSLockRegion

open FSLockRegion

/-- `FS.GetLock`: the first region in conflict with the request. -/
def getLock (locks : List FSLockRegion) (request : FSLockRegion) : Option FSLockRegion :=
  (locks.find? request.conflictsWith).map clone

/-- Step (2) of `FS.Lock` from one region of the list on: subtracts the request from the locks of
its owner. The flag says that the request is locked already and `Lock` returns. -/
def subtract (request : FSLockRegion) : List FSLockRegion → List FSLockRegion × Bool
  | [] => ([], false)
  | region :: rest =>
    if region.stop ≤ request.start then
      let (rest', done) := subtract request rest
      (region :: rest', done)
    else if request.stop ≤ region.start then (region :: rest, false)
    else if ¬region.SameOwner request then
      let (rest', done) := subtract request rest
      (region :: rest', done)
    else
      let start2 := request.stop
      let length1 := request.start - region.start
      let length2 := region.stop - start2
      if 0 < length1 ∧ 0 < length2 ∧ region.type = request.type then (region :: rest, true)
      else if 0 < length1 then
        let first := { region with length := length1 }
        if 0 < length2 then
          -- the second half goes to its place, and the loop goes on behind it
          let before := rest.takeWhile fun r => r.start < start2
          let second := { region with start := start2.toNat, length := length2 }
          let (after, done) := subtract request (rest.dropWhile fun r => r.start < start2)
          (first :: before ++ second :: after, done)
        else
          let (rest', done) := subtract request rest
          (first :: rest', done)
      else if 0 < length2 then
        let (rest', done) := subtract request rest
        ({ region with start := start2.toNat, length := length2 } :: rest', done)
      else subtract request rest
termination_by locks => locks.length
decreasing_by
  all_goals simp only [List.length_cons]
  all_goals have := (List.dropWhile_sublist (l := rest) fun r => r.start < request.stop).length_le
  all_goals omega

/-- The first loop of step (3): the regions that start before the request are passed, and one that
ends where the request starts takes it in. Gives the regions passed, the index of the region
merged with, and the regions from where the loop stops. -/
def fastForward (request : FSLockRegion) (passed : List FSLockRegion) (merged : Option Nat) :
    List FSLockRegion → List FSLockRegion × Option Nat × List FSLockRegion
  | [] => (passed, merged, [])
  | region :: rest =>
    let newRegion := (merged.bind (passed[·]?)).getD request
    if newRegion.MayMergeAfter region then
      let region' := { region with length := region.length + request.length }
      if request.start ≤ region.start then (passed, some passed.length, region' :: rest)
      else fastForward request (passed ++ [region']) (some passed.length) rest
    else if request.start ≤ region.start then (passed, merged, region :: rest)
    else fastForward request (passed ++ [region]) merged rest

/-- The second loop of step (3): the first region of those from an index on that is alike the one
at `new` is taken in by it where it starts at its end. -/
def mergeAfter (new : Nat) (passed : List FSLockRegion) : List FSLockRegion → List FSLockRegion
  | [] => passed
  | region :: rest =>
    let newRegion := (passed ++ region :: rest).getD new region
    if ¬region.IsAlike newRegion then mergeAfter new (passed ++ [region]) rest
    else if region.MayMergeAfter newRegion then
      (passed.modify new fun r => { r with length := r.length + region.length }) ++ rest
    else passed ++ region :: rest

/-- Step (3) of `FS.Lock`: inserts the requested region as a whole. -/
def insertLock (request : FSLockRegion) (locks : List FSLockRegion) : List FSLockRegion :=
  let (passed, merged, rest) := fastForward request [] none locks
  match merged with
  | none => mergeAfter passed.length (passed ++ [request]) rest
  | some new => mergeAfter new passed rest

/-- `FS.Lock`. -/
def lock (locks : List FSLockRegion) (request : FSLockRegion) : List FSLockRegion × LockAnswer :=
  let request := request.clone
  if request.type ≠ .unlck ∧ (getLock locks request).isSome then (locks, .blocked)
  else
    let (locks', done) := subtract request locks
    if done ∨ request.type = .unlck then (locks', .success)
    else (insertLock request locks', .success)

end V86.Fs
