import V86.Fs.Writes
import V86.Lib.Runs
import Mathlib.Order.Bounds.Basic

/-!
# When concurrent writes keep what they wrote

A handler goes on with what it got before an `await`. As long as that is still what the file is,
nothing is lost: `Current` says so for one step, and every run of such steps ends with every
written byte in place and the right size.
-/

namespace V86.Fs

open List

namespace File

/-- The bytes of the file, and what its buffer holds behind them. -/
def contents (f : File) : List UInt8 :=
  match f.inodedata with
  | some ref => f.heap.getD ref []
  | none => if f.onStorage then f.stored else []

/-- A file as it is between requests. -/
structure Sound (f : File) : Prop where
  ref : ∀ r, f.inodedata = some r → r < f.heap.length
  size_le : f.size ≤ f.contents.length
  storage : f.onStorage → f.inodedata = none ∧ f.size = f.stored.length

/-- What a handler got is still what the file is. -/
def Fresh (f : File) : Data → Prop
  | .null => f.inodedata = none ∧ f.onStorage = false
  | .view ref _ => f.inodedata = some ref
  | .copy _ => f.onStorage

end File

def Twrite.Covers (w : Twrite) (pos : Nat) : Prop := w.offset ≤ pos ∧ pos < w.stop

namespace Phase

/-- The handler has given the file its size. -/
def Sized : Phase → Prop
  | .rereading _ | .storing | .answered => True
  | _ => False

/-- The handler has written its bytes. -/
def Written : Phase → Prop
  | .storing | .answered => True
  | _ => False

/-- What the handler got before it waits. -/
def data : Phase → Data
  | .reading data | .changing data | .rereading data => data
  | _ => .null

end Phase

namespace Writes

variable {requests : List Twrite} {f f' : File} {s : Writes} {i j n : Nat} {w v : Twrite}
  {p p' q : Phase}

/-- The handler of a request and its phase. -/
def Handler (requests : List Twrite) (s : Writes) (j : Nat) (w : Twrite) (p : Phase) : Prop :=
  requests[j]? = some w ∧ s.phases[j]? = some p

/-- The handlers whose phase satisfies `P` write no further than `n`. -/
def Within (requests : List Twrite) (s : Writes) (P : Phase → Prop) (n : Nat) : Prop :=
  ∀ j w p, Handler requests s j w p → P p → w.stop ≤ n

/-- What the step of a handler relies on: the buffer it writes to and installs is the installed
one and long enough; the part that `ChangeSize` copies is of the installed buffer and holds all
that there is, as the new buffer does; and the size it sets afterwards is not below one reached. -/
def Current (requests : List Twrite) (size : Nat) (s : Writes) (i : Nat) : Prop :=
  ∀ w p, Handler requests s i w p →
    match p with
    | .reading data => s.file.tooShort w data = true ∨ s.file.Fresh data
    | .changing temp => w.grownSize = s.file.size ∨
        s.file.Fresh temp ∧ ∀ n ∈ [(s.file.bytes temp).length, w.grownSize],
          size ≤ n ∧ Within requests s Phase.Written n
    | .changed => size ≤ w.stop ∧ Within requests s Phase.Sized w.stop
    | .rereading data => s.file.tooShort w data = false ∧ s.file.Fresh data
    | _ => True

/-- The sizes that the file may have been given: its old one, and those of its writes. -/
def sizes (requests : List Twrite) (size : Nat) (s : Writes) : Set Nat :=
  {n | n = size ∨ ∃ j w p, Handler requests s j w p ∧ p.Sized ∧ n = w.stop}

/-- Where a handler may be while the file is still on storage. -/
def Early (f : File) (w : Twrite) : Phase → Prop
  | .queued => True
  | .reading data => data = .copy f.stored
  | .changing _ => f.stored.length < w.stop
  | _ => False

/-- What a handler waits with. -/
structure Waits (f : File) (w : Twrite) (p : Phase) : Prop where
  /-- views are of buffers -/
  view : ∀ ref n, p.data = .view ref n → ref < f.heap.length ∧ n ≤ (f.heap.getD ref []).length
  /-- copies are whole -/
  copy : ∀ bytes, p.data = .copy bytes → bytes = f.stored
  /-- a file on storage has seen no handler further than `ChangeSize` -/
  storage : f.onStorage → Early f w p

/-- What all steps keep. -/
structure Kept (requests : List Twrite) (f : File) (s : Writes) : Prop where
  length : s.phases.length = requests.length
  failed : .failed ∉ s.phases
  size : .changed ∈ s.phases ∨ IsGreatest (sizes requests f.size s) s.file.size
  old : ∀ pos, pos < f.size → (∀ w ∈ requests, ¬w.Covers pos) →
    s.file.contents[pos]? = f.contents[pos]?
  new : ∀ j w p, Handler requests s j w p → p.Written →
    ∀ k, k < w.count → s.file.contents[w.offset + k]? = w.buffer[k]?
  ref : ∀ r, s.file.inodedata = some r → r < s.file.heap.length
  storage : s.file.onStorage → s.file.inodedata = none ∧ s.file.size = s.file.stored.length
  waits : ∀ j w p, Handler requests s j w p → Waits s.file w p

/-! ## Steps in general -/

theorem step_of_handler (h : Handler requests s i w p) :
    step requests s i = ⟨(s.file.resume w p).1, s.phases.set i (s.file.resume w p).2⟩ := by
  rw [step, h.1, h.2]

theorem step_of_not_handler (h : ∀ w p, ¬Handler requests s i w p) : step requests s i = s := by
  rw [step]
  split
  case h_1 w p hw hp => exact absurd ⟨hw, hp⟩ (h w p)
  case h_2 => rfl

theorem handler_set (hi : Handler requests s i w p) :
    Handler requests ⟨f', s.phases.set i p'⟩ j v q ↔
      (j = i ∧ v = w ∧ q = p') ∨ (j ≠ i ∧ Handler requests s j v q) := by
  have hlt : i < s.phases.length := (List.getElem?_eq_some_iff.1 hi.2).1
  unfold Handler
  by_cases hj : j = i
  · subst hj
    rw [List.getElem?_set_self hlt, hi.1]
    simp [eq_comm]
  · rw [List.getElem?_set_ne (Ne.symm hj)]
    simp [hj]

/-- Buffers stay, with their lengths. -/
structure Extends (f f' : File) : Prop where
  stored : f'.stored = f.stored
  heap : ∀ r, r < f.heap.length →
    r < f'.heap.length ∧ (f'.heap.getD r []).length = (f.heap.getD r []).length
  storage : f'.onStorage → f.onStorage

theorem Extends.refl (f : File) : Extends f f :=
  ⟨rfl, fun _ hr => ⟨hr, rfl⟩, id⟩

theorem Waits.mono (h : Waits f w p) (he : Extends f f') : Waits f' w p where
  view ref n hd := by
    obtain ⟨hr, hn⟩ := h.view ref n hd
    obtain ⟨hr', hlen⟩ := he.heap ref hr
    exact ⟨hr', hlen ▸ hn⟩
  copy bytes hd := (h.copy bytes hd).trans he.stored.symm
  storage hs := by
    have := h.storage (he.storage hs)
    unfold Early at this ⊢
    rwa [he.stored]

/-- A byte that is to stay: one of the old file, or one that a handler has written. -/
def Stays (requests : List Twrite) (size : Nat) (s : Writes) (pos : Nat) : Prop :=
  pos < size ∨ ∃ j v q, Handler requests s j v q ∧ q.Written ∧ v.Covers pos

/-- A step keeps everything if its handler goes on soundly, the size is right, and outside of the
handler's range the bytes that are to stay do. -/
theorem Kept.update (h : Kept requests f s)
    (hd : requests.Pairwise fun w v => ∀ pos, w.Covers pos → ¬v.Covers pos)
    (hi : Handler requests s i w p) (he : Extends s.file f') (hwait : Waits f' w p')
    (hfail : p' ≠ .failed) (hsize : .changed ∈ s.phases.set i p' ∨
      IsGreatest (sizes requests f.size ⟨f', s.phases.set i p'⟩) f'.size)
    (href : ∀ r, f'.inodedata = some r → r < f'.heap.length)
    (hstorage : f'.onStorage → f'.inodedata = none ∧ f'.size = f'.stored.length)
    (hstays : ∀ pos, ¬w.Covers pos → Stays requests f.size s pos →
      f'.contents[pos]? = s.file.contents[pos]?)
    (hnew : p'.Written → ∀ k, k < w.count → f'.contents[w.offset + k]? = w.buffer[k]?) :
    Kept requests f ⟨f', s.phases.set i p'⟩ where
  length := (length_set).trans h.length
  failed := by
    intro hmem
    rcases mem_or_eq_of_mem_set hmem with hmem | heq
    · exact h.failed hmem
    · exact hfail heq.symm
  size := hsize
  old pos hpos hcov :=
    (hstays pos (hcov w (mem_of_getElem? hi.1)) (.inl hpos)).trans (h.old pos hpos hcov)
  new j v q hj hq k hk := by
    rcases (handler_set hi).1 hj with ⟨rfl, rfl, rfl⟩ | ⟨hne, hj⟩
    · exact hnew hq k hk
    · have hcov : v.Covers (v.offset + k) := ⟨by omega, by simp only [Twrite.stop]; omega⟩
      have hnot : ¬w.Covers (v.offset + k) := by
        have hd' := List.pairwise_iff_getElem.1 hd
        obtain ⟨hjlt, hjv⟩ := List.getElem?_eq_some_iff.1 hj.1
        obtain ⟨hilt, hiw⟩ := List.getElem?_eq_some_iff.1 hi.1
        rcases Nat.lt_or_gt_of_ne hne with hlt | hgt
        · have := hd' j i hjlt hilt hlt
          rw [hjv, hiw] at this
          exact this _ hcov
        · have := hd' i j hilt hjlt hgt
          rw [hjv, hiw] at this
          exact fun hw => this _ hw hcov
      exact (hstays _ hnot (.inr ⟨j, v, q, hj, hq, hcov⟩)).trans (h.new j v q hj hq k hk)
  ref := href
  storage := hstorage
  waits j v q hj := by
    rcases (handler_set hi).1 hj with ⟨rfl, rfl, rfl⟩ | ⟨_, hj⟩
    · exact hwait
    · exact (h.waits j v q hj).mono he

end Writes

/-! ## Writing and copying -/

namespace File

variable {f f' : File} {w : Twrite} {data : Data}

theorem length_payload (w : Twrite) : w.payload.length = w.count := by
  have := w.enough
  rw [Twrite.payload, length_take]
  omega

/-- A buffer with the bytes of a request. -/
theorem splice_payload {buffer : List UInt8} (h : w.stop ≤ buffer.length) :
    (∀ pos, ¬w.Covers pos → (splice buffer w.offset w.payload)[pos]? = buffer[pos]?) ∧
      ∀ k, k < w.count → (splice buffer w.offset w.payload)[w.offset + k]? = w.buffer[k]? := by
  have hlen : w.offset + w.payload.length ≤ buffer.length := by
    rw [length_payload]
    exact h
  refine ⟨fun pos hpos => ?_, fun k hk => ?_⟩
  · rw [getElem?_splice hlen, length_payload]
    exact if_neg hpos
  · rw [getElem?_splice hlen, length_payload, if_pos (by omega), Twrite.payload,
      Nat.add_sub_cancel_left, List.getElem?_take_of_lt hk]

theorem install_extends (f : File) (buffer : List UInt8) (n : Nat) :
    Writes.Extends f ({ f with size := n }.install buffer) where
  stored := rfl
  heap r hr := by
    refine ⟨?_, ?_⟩
    · simp only [install, length_append, length_singleton]
      omega
    · simp only [install, getD_eq_getElem?_getD, List.getElem?_append_left hr]
  storage h := by cases h

theorem install_contents (f : File) (buffer : List UInt8) :
    (f.install buffer).contents = buffer := by
  simp [install, contents]

/-- What `put` leaves. -/
structure Put (f f' : File) (w : Twrite) : Prop where
  grows : Writes.Extends f f'
  size : f'.size = f.size
  status : f'.onStorage = false
  ref : ∀ r, f'.inodedata = some r → r < f'.heap.length
  others : ∀ pos, ¬w.Covers pos → f'.contents[pos]? = f.contents[pos]?
  own : ∀ k, k < w.count → f'.contents[w.offset + k]? = w.buffer[k]?

theorem put_view {ref n : Nat} (hr : ref < f.heap.length) (hn : n ≤ (f.heap.getD ref []).length)
    (hfresh : f.inodedata = some ref) (hstop : w.stop ≤ n) :
    ∃ f', f.put (.view ref n) w = some f' ∧ Put f f' w := by
  have hold : f.contents = f.heap.getD ref [] := by rw [contents, hfresh]
  have hlen : w.stop ≤ f.contents.length := hold ▸ hstop.trans hn
  have hget : ∀ g, (f.heap.modify ref g).getD ref [] = g (f.heap.getD ref []) := by
    intro g
    rw [getD_eq_getElem?_getD, getD_eq_getElem?_getD, List.getElem?_modify_eq,
      List.getElem?_eq_getElem hr]
    rfl
  refine ⟨_, if_pos hstop, ⟨rfl, fun r hr' => ⟨by simpa using hr', ?_⟩, nofun⟩, rfl, rfl, ?_, ?_, ?_⟩
  · by_cases hrr : ref = r
    · subst hrr
      rw [hget]
      exact length_splice (by rw [length_payload]; exact hstop.trans hn)
    · simp [List.getElem?_modify_ne _ _ hrr]
  · intro r heq
    obtain rfl := Option.some.inj heq
    simpa using hr
  · intro pos hpos
    show ((f.heap.modify ref _).getD ref [])[pos]? = _
    rw [hget, ← hold]
    exact (splice_payload hlen).1 pos hpos
  · intro k hk
    show ((f.heap.modify ref _).getD ref [])[w.offset + k]? = _
    rw [hget, ← hold]
    exact (splice_payload hlen).2 k hk

theorem put_copy (hs : f.onStorage → f.inodedata = none) (hfresh : f.onStorage)
    (hstop : w.stop ≤ f.stored.length) : ∃ f', f.put (.copy f.stored) w = some f' ∧ Put f f' w := by
  have hold : f.contents = f.stored := by
    rw [contents, hs hfresh]
    exact if_pos hfresh
  refine ⟨_, if_pos hstop, install_extends f _ f.size, rfl, rfl, ?_, ?_, ?_⟩
  · intro r heq
    obtain rfl := Option.some.inj heq
    simp [install]
  · rw [install_contents, hold]
    exact (splice_payload hstop).1
  · rw [install_contents]
    exact (splice_payload hstop).2

theorem put_spec {p : Phase} (hw : Writes.Waits f w p) (hs : f.onStorage → f.inodedata = none)
    (hdata : p.data = data) (hfresh : f.Fresh data) (hlong : f.tooShort w data = false) :
    ∃ f', f.put data w = some f' ∧ Put f f' w := by
  cases data with
  | null => cases hlong
  | view ref n =>
    obtain ⟨hr, hn⟩ := hw.view ref n hdata
    have hstop : w.stop ≤ (f.bytes (.view ref n)).length := not_lt.1 (of_decide_eq_false hlong)
    exact put_view hr hn hfresh (hstop.trans (length_take_le _ _))
  | copy bs =>
    have hbs := hw.copy bs hdata
    subst hbs
    exact put_copy hs hfresh (not_lt.1 (of_decide_eq_false hlong))

/-- What `ChangeSize` installs has the bytes of the file as far as what it copies. -/
theorem contents_changeSize {newsize pos : Nat} {temp : Data} {p : Phase}
    (hw : Writes.Waits f w p) (hs : f.onStorage → f.inodedata = none) (hdata : p.data = temp)
    (hfresh : f.Fresh temp) (hpos : pos < (f.bytes temp).length) (hnew : pos < newsize) :
    (f.changeSize newsize temp).contents[pos]? = f.contents[pos]? := by
  have hkept : (f.bytes temp)[pos]? = f.contents[pos]? := by
    cases temp with
    | null => exact absurd hpos (Nat.not_lt_zero _)
    | view ref n =>
      have hold : f.contents = f.heap.getD ref [] := by rw [contents, hfresh]
      have hlt : pos < n := hpos.trans_le (length_take_le _ _)
      rw [hold, bytes, List.getElem?_take_of_lt hlt]
    | copy bs =>
      have hbs := hw.copy bs hdata
      subst hbs
      have hold : f.contents = f.stored := by
        rw [contents, hs hfresh]
        exact if_pos hfresh
      rw [hold]
      rfl
  unfold changeSize
  split
  case isTrue => rfl
  case isFalse =>
    rw [install_contents, List.getElem?_append_left (by rw [length_take]; omega),
      List.getElem?_take_of_lt hnew, hkept]

theorem extends_changeSize (f : File) (newsize : Nat) (temp : Data) :
    Writes.Extends f (f.changeSize newsize temp) := by
  unfold changeSize
  split
  case isTrue => exact .refl f
  case isFalse => exact install_extends f _ newsize

end File

/-! ## The steps of a handler -/

namespace Writes

open File

variable {requests : List Twrite} {f f' : File} {s : Writes} {i j n : Nat} {w v : Twrite}
  {p p' q : Phase} {data temp : Data}

theorem changed_set (hc : .changed ∈ s.phases) (hi : Handler requests s i w p) (hp : p ≠ .changed) :
    .changed ∈ s.phases.set i p' := by
  obtain ⟨j, hj⟩ := mem_iff_getElem?.1 hc
  refine mem_iff_getElem?.2 ⟨j, ?_⟩
  rw [List.getElem?_set_ne, hj]
  rintro rfl
  exact hp (Option.some.inj (hi.2.symm.trans hj))

/-- A handler that neither sets the size nor leaves `ChangeSize` leaves the size right. -/
theorem Kept.size_set (h : Kept requests f s) (hi : Handler requests s i w p)
    (hp : p ≠ .changed) (hsized : p'.Sized ↔ p.Sized) : .changed ∈ s.phases.set i p' ∨
      IsGreatest (sizes requests f.size ⟨f', s.phases.set i p'⟩) s.file.size := by
  rcases h.size with hc | hg
  · exact .inl (changed_set hc hi hp)
  · have heq : sizes requests f.size ⟨f', s.phases.set i p'⟩ = sizes requests f.size s := by
      ext n
      refine or_congr_right ⟨?_, ?_⟩
      · rintro ⟨j, v, q, hj, hq, hn⟩
        rcases (handler_set hi).1 hj with ⟨rfl, rfl, rfl⟩ | ⟨_, hj⟩
        · exact ⟨j, v, p, hi, hsized.1 hq, hn⟩
        · exact ⟨j, v, q, hj, hq, hn⟩
      · rintro ⟨j, v, q, hj, hq, hn⟩
        by_cases hji : j = i
        · subst hji
          obtain rfl := Option.some.inj (hi.1.symm.trans hj.1)
          obtain rfl := Option.some.inj (hi.2.symm.trans hj.2)
          exact ⟨j, w, p', (handler_set hi).2 (.inl ⟨rfl, rfl, rfl⟩), hsized.2 hq, hn⟩
        · exact ⟨j, v, q, (handler_set hi).2 (.inr ⟨hji, hj⟩), hq, hn⟩
    exact .inr (heq ▸ hg)

theorem waits_getBuffer (h : Kept requests f s) : Waits s.file w (.reading s.file.getBuffer) where
  view ref n hd := by
    simp only [Phase.data, getBuffer] at hd
    split at hd
    case h_1 r hr =>
      cases hd
      exact ⟨h.ref _ hr, le_rfl⟩
    case h_2 => split at hd <;> cases hd
  copy bytes hd := by
    simp only [Phase.data, getBuffer] at hd
    split at hd
    · cases hd
    · split at hd
      · cases hd
        rw [(h.storage ‹_›).2, take_length]
      · cases hd
  storage hs := by
    obtain ⟨hnone, hsize⟩ := h.storage hs
    simp only [Early, getBuffer, hnone, hs, if_true, hsize, take_length]

theorem waits_getData (h : Kept requests f s) (hw : Waits s.file w (.reading data))
    (hshort : s.file.tooShort w data = true) :
    Waits s.file w (.changing (s.file.getData s.file.size)) where
  view ref n hd := by
    simp only [Phase.data, getData] at hd
    split at hd
    case h_1 r hr =>
      cases hd
      exact ⟨h.ref _ hr, min_le_right _ _⟩
    case h_2 => split at hd <;> cases hd
  copy bytes hd := by
    simp only [Phase.data, getData] at hd
    split at hd
    · cases hd
    · split at hd
      · cases hd
        rw [(h.storage ‹_›).2, take_length]
      · cases hd
  storage hs := by
    have hdata : data = .copy s.file.stored := hw.storage hs
    rw [hdata] at hshort
    show s.file.stored.length < w.stop
    exact of_decide_eq_true hshort

variable (hd : requests.Pairwise fun w v => ∀ pos, w.Covers pos → ¬v.Covers pos)
include hd

/-- A handler that only waits for the next thing. -/
theorem Kept.wait (h : Kept requests f s) (hi : Handler requests s i w p) (hp : p ≠ .changed)
    (hwait : Waits s.file w p') (hp' : p' ≠ .failed) (hsized : p'.Sized ↔ p.Sized)
    (hwritten : p'.Written → p.Written) : Kept requests f ⟨s.file, s.phases.set i p'⟩ :=
  h.update hd hi (.refl _) hwait hp' (h.size_set hi hp hsized) h.ref h.storage (fun _ _ _ => rfl)
    fun hw => h.new i w p hi (hwritten hw)

omit hd in
/-- A handler that gives the file its own size if it is the larger one. -/
theorem Kept.size_max (h : Kept requests f s) (hi : Handler requests s i w p)
    (hp : p ≠ .changed) (hsized : ¬p.Sized) (hsized' : p'.Sized) : .changed ∈ s.phases.set i p' ∨
      IsGreatest (sizes requests f.size ⟨f', s.phases.set i p'⟩) (max s.file.size w.stop) := by
  have hself : Handler requests ⟨f', s.phases.set i p'⟩ i w p' :=
    (handler_set hi).2 (.inl ⟨rfl, rfl, rfl⟩)
  have hother : ∀ {j v q}, Handler requests s j v q → q.Sized →
      Handler requests ⟨f', s.phases.set i p'⟩ j v q := by
    intro j v q hj hq
    refine (handler_set hi).2 (.inr ⟨?_, hj⟩)
    rintro rfl
    exact hsized (Option.some.inj (hi.2.symm.trans hj.2) ▸ hq)
  rcases h.size with hc | hg
  · exact .inl (changed_set hc hi hp)
  · refine .inr ⟨?_, ?_⟩
    · rcases le_total s.file.size w.stop with hle | hle
      · rw [max_eq_right hle]
        exact .inr ⟨i, w, p', hself, hsized', rfl⟩
      · rw [max_eq_left hle]
        rcases hg.1 with heq | ⟨j, v, q, hj, hq, heq⟩
        · exact .inl heq
        · exact .inr ⟨j, v, q, hother hj hq, hq, heq⟩
    · rintro n (rfl | ⟨j, v, q, hj, hq, rfl⟩)
      · exact (hg.2 (.inl rfl)).trans (le_max_left _ _)
      · rcases (handler_set hi).1 hj with ⟨rfl, rfl, rfl⟩ | ⟨_, hj⟩
        · exact le_max_right _ _
        · exact (hg.2 (.inr ⟨j, v, q, hj, hq, rfl⟩)).trans (le_max_left _ _)

/-- A write into a buffer that is still the file's. -/
theorem Kept.put (h : Kept requests f s) (hi : Handler requests s i w p) (hn : n = s.file.size ∧
      p.Sized ∨ n = max s.file.size w.stop ∧ ¬p.Sized) (hp : p ≠ .changed) (hdata : p.data = data)
    (hfresh : s.file.Fresh data) (hlong : s.file.tooShort w data = false) :
    Kept requests f ⟨({ s.file with size := n }.finish data w).1,
      s.phases.set i ({ s.file with size := n }.finish data w).2⟩ := by
  have hext : Extends s.file { s.file with size := n } := ⟨rfl, fun _ hr => ⟨hr, rfl⟩, id⟩
  obtain ⟨f', hf', hput⟩ := put_spec (f := { s.file with size := n }) ((h.waits i w p hi).mono hext)
    (fun hs => (h.storage hs).1) hdata hfresh hlong
  rw [finish, hf']
  dsimp only
  have hoff : ¬f'.onStorage := by simp [hput.status]
  refine h.update hd hi ⟨hput.grows.stored, hput.grows.heap, hput.grows.storage⟩ ⟨nofun, nofun,
    fun hs => absurd hs hoff⟩ nofun ?_ hput.ref (fun hs => absurd hs hoff)
    (fun pos hpos _ => hput.others pos hpos) fun _ => hput.own
  rw [hput.size]
  rcases hn with ⟨rfl, hsized⟩ | ⟨rfl, hsized⟩
  · exact h.size_set hi hp (iff_of_true trivial hsized)
  · exact h.size_max hi hp hsized trivial

/-- `ChangeSize`, with all that there is still in what it copies. -/
theorem Kept.changeSize (h : Kept requests f s) (hi : Handler requests s i w (.changing temp))
    (hc : w.grownSize = s.file.size ∨ s.file.Fresh temp ∧
      ∀ n ∈ [(s.file.bytes temp).length, w.grownSize], f.size ≤ n ∧
        Within requests s Phase.Written n) :
    Kept requests f ⟨s.file.changeSize w.grownSize temp, s.phases.set i .changed⟩ := by
  have hw := h.waits i w _ hi
  have hlt : i < s.phases.length := (List.getElem?_eq_some_iff.1 hi.2).1
  have hmem : Phase.changed ∈ s.phases.set i .changed :=
    mem_iff_getElem?.2 ⟨i, List.getElem?_set_self hlt⟩
  by_cases heq : w.grownSize = s.file.size
  · have hoff : ¬s.file.onStorage := by
      intro hs
      have hstop : s.file.stored.length < w.stop := hw.storage hs
      have := (h.storage hs).2
      unfold Twrite.grownSize at heq
      omega
    rw [File.changeSize, if_pos heq]
    exact h.update hd hi (.refl _) ⟨nofun, nofun, fun hs => absurd hs hoff⟩ nofun (.inl hmem) h.ref
      h.storage (fun _ _ _ => rfl) nofun
  · obtain ⟨hfresh, hall⟩ := hc.resolve_left heq
    have hoff : ¬(s.file.changeSize w.grownSize temp).onStorage := by
      rw [File.changeSize, if_neg heq]
      exact Bool.false_ne_true
    refine h.update hd hi (extends_changeSize _ _ _) ⟨nofun, nofun, fun hs => absurd hs hoff⟩ nofun
      (.inl hmem) ?_ (fun hs => absurd hs hoff) (fun pos _ hstays => ?_) nofun
    · intro r hr
      rw [File.changeSize, if_neg heq] at hr ⊢
      obtain rfl := Option.some.inj hr
      simp [install]
    · have hlt : ∀ n ∈ [(s.file.bytes temp).length, w.grownSize], pos < n := by
        intro n hn
        rcases hstays with hpos | ⟨j, v, q, hj, hq, hcov⟩
        · exact hpos.trans_le (hall n hn).1
        · exact hcov.2.trans_le ((hall n hn).2 j v q hj hq)
      exact contents_changeSize hw (fun hs => (h.storage hs).1) rfl hfresh (hlt _ (by simp))
        (hlt _ (by simp))

/-- A write after `ChangeSize` sets the size and asks for the buffer. -/
theorem Kept.resize (h : Kept requests f s) (hi : Handler requests s i w .changed)
    (hle : f.size ≤ w.stop) (hwithin : Within requests s Phase.Sized w.stop) :
    Kept requests f ⟨{ s.file with size := w.stop },
      s.phases.set i (.rereading { s.file with size := w.stop }.getBuffer)⟩ := by
  have hoff : ¬s.file.onStorage := fun hs => (h.waits i w _ hi).storage hs
  have hself : Handler requests ⟨{ s.file with size := w.stop },
      s.phases.set i (.rereading { s.file with size := w.stop }.getBuffer)⟩ i w _ :=
    (handler_set hi).2 (.inl ⟨rfl, rfl, rfl⟩)
  have hwait := waits_getBuffer (w := w) h
  refine h.update hd hi ⟨rfl, fun _ hr => ⟨hr, rfl⟩, id⟩ ⟨?_, ?_, fun hs => absurd hs hoff⟩ nofun
    (.inr ⟨.inr ⟨i, w, _, hself, trivial, rfl⟩, ?_⟩) h.ref (fun hs => absurd hs hoff)
    (fun _ _ _ => rfl) nofun
  · intro r n hr
    refine hwait.view r n (hr ▸ ?_)
    simp [Phase.data, getBuffer, hoff]
  · intro bs hr
    refine hwait.copy bs (hr ▸ ?_)
    simp [Phase.data, getBuffer, hoff]
  · rintro n (rfl | ⟨j, v, q, hj, hq, rfl⟩)
    · exact hle
    · rcases (handler_set hi).1 hj with ⟨rfl, rfl, rfl⟩ | ⟨_, hj⟩
      · exact le_rfl
      · exact hwithin j v q hj hq

theorem Kept.step (h : Kept requests f s) (hc : Current requests f.size s i) :
    Kept requests f (step requests s i) := by
  by_cases hex : ∃ w p, Handler requests s i w p
  · obtain ⟨w, p, hi⟩ := hex
    rw [step_of_handler hi]
    have hcur := hc w p hi
    cases p with
    | queued => exact h.wait hd hi nofun (waits_getBuffer h) nofun Iff.rfl nofun
    | reading data =>
      rw [resume]
      split
      case isTrue hshort =>
        exact h.wait hd hi nofun (waits_getData h (h.waits i w _ hi) hshort) nofun Iff.rfl nofun
      case isFalse hlong =>
        have hlong := Bool.eq_false_iff.2 hlong
        exact h.put hd hi (.inr ⟨rfl, nofun⟩) nofun rfl
          (hcur.resolve_left (by simp [hlong])) hlong
    | changing temp => exact h.changeSize hd hi hcur
    | changed => exact h.resize hd hi hcur.1 hcur.2
    | rereading data => exact h.put hd hi (.inl ⟨rfl, trivial⟩) nofun rfl hcur.2 hcur.1
    | storing =>
      exact h.wait hd hi nofun ⟨nofun, nofun, fun hs => ((h.waits i w _ hi).storage hs)⟩ nofun
        Iff.rfl fun _ => trivial
    | answered =>
      exact h.wait hd hi nofun (h.waits i w _ hi) nofun Iff.rfl fun _ => trivial
    | failed => exact absurd (mem_of_getElem? hi.2) h.failed
  · rw [step_of_not_handler fun w p hi => hex ⟨w, p, hi⟩]
    exact h

/-! ## Runs -/

omit hd in
theorem kept_start (hf : f.Sound) : Kept requests f (start f requests) where
  length := length_map _
  failed h := by
    obtain ⟨_, _, h⟩ := List.mem_map.1 h
    cases h
  size := by
    refine .inr ⟨.inl rfl, ?_⟩
    rintro n (rfl | ⟨j, v, q, hj, hq, rfl⟩)
    · exact le_rfl
    · obtain ⟨_, _, rfl⟩ := List.mem_map.1 (mem_of_getElem? hj.2)
      cases hq
  old _ _ _ := rfl
  new j v q hj hq := by
    obtain ⟨_, _, rfl⟩ := List.mem_map.1 (mem_of_getElem? hj.2)
    cases hq
  ref := hf.ref
  storage := hf.storage
  waits j v q hj := by
    obtain ⟨_, _, rfl⟩ := List.mem_map.1 (mem_of_getElem? hj.2)
    exact ⟨nofun, nofun, fun _ => trivial⟩

/-- What the requests are for: no handler throws, and when all have been answered, the file has
the largest of its old size and the ends of the writes, every written byte, and its other bytes. -/
def Served (requests : List Twrite) (f : File) (s : Writes) : Prop :=
  .failed ∉ s.phases ∧
    ((∀ p ∈ s.phases, p = .answered) →
      IsGreatest {n | n = f.size ∨ ∃ w ∈ requests, n = w.stop} s.file.size ∧
        (∀ w ∈ requests, ∀ k, k < w.count → s.file.contents[w.offset + k]? = w.buffer[k]?) ∧
        ∀ pos, pos < f.size → (∀ w ∈ requests, ¬w.Covers pos) →
          s.file.contents[pos]? = f.contents[pos]?)

omit hd in
theorem Kept.served (h : Kept requests f s) : Served requests f s := by
  refine ⟨h.failed, fun hall => ?_⟩
  have hand : ∀ w ∈ requests, ∃ j, Handler requests s j w .answered := by
    intro w hw
    obtain ⟨j, hj, rfl⟩ := getElem_of_mem hw
    have hj' : j < s.phases.length := h.length ▸ hj
    refine ⟨j, List.getElem?_eq_getElem hj, ?_⟩
    rw [List.getElem?_eq_getElem hj', hall _ (getElem_mem hj')]
  refine ⟨?_, fun w hw => ?_, h.old⟩
  · have hg := h.size.resolve_left fun hc => nomatch hall _ hc
    have heq : sizes requests f.size s = {n | n = f.size ∨ ∃ w ∈ requests, n = w.stop} := by
      ext n
      refine or_congr_right ⟨?_, ?_⟩
      · rintro ⟨j, v, q, hj, _, hn⟩
        exact ⟨v, mem_of_getElem? hj.1, hn⟩
      · rintro ⟨v, hv, hn⟩
        obtain ⟨j, hj⟩ := hand v hv
        exact ⟨j, v, _, hj, trivial, hn⟩
    exact heq ▸ hg
  · obtain ⟨j, hj⟩ := hand w hw
    exact h.new j w _ hj trivial

/-- Concurrent writes lose nothing in a run in which every handler goes on with what the file
still is. -/
theorem writes_served {schedule : List Nat} (hf : f.Sound)
    (h : Runs.Each (step requests) (Current requests f.size) (start f requests) schedule) :
    Served requests f (schedule.foldl (step requests) (start f requests)) := by
  have hstep : ∀ (s : Writes) (i : Nat), True → Kept requests f s → Current requests f.size s i →
      Kept requests f (step requests s i) ∧ True := fun s i _ hs hc => ⟨hs.step hd hc, trivial⟩
  exact (Runs.inv_of hstep (fun _ _ => trivial) (kept_start hf) h).served

end Writes

/-! ## A run that loses a write -/

namespace Writes

/-- A file in memory, with three bytes. -/
def inMemory : File := ⟨[[7, 8, 9]], some 0, 3, false, []⟩

/-- A file that was just created. -/
def created : File := ⟨[], none, 0, false, []⟩

def oneByte (offset : Nat) (byte : UInt8) : Twrite := ⟨offset, 1, [byte], le_rfl⟩

theorem created_sound : created.Sound := ⟨nofun, le_rfl, nofun⟩

theorem oneByte_disjoint {m n : Nat} (h : m ≠ n) (byte byte' : UInt8) :
    [oneByte m byte, oneByte n byte'].Pairwise
      fun w v => ∀ pos, w.Covers pos → ¬v.Covers pos := by
  rw [pairwise_pair]
  rintro pos ⟨hm, hm'⟩ ⟨hn, hn'⟩
  simp only [oneByte, Twrite.stop] at hm hm' hn hn'
  omega

/-- One byte behind the file, for which it grows, and one in it. -/
def growing : List Twrite := [oneByte 3 1, oneByte 0 2]

/-- The second handler goes on while `ChangeSize` grows the file for the first. -/
theorem writes_served_inMemory : Served growing inMemory
      ([0, 0, 0, 1, 0, 1, 0, 0, 1].foldl (step growing) (start inMemory growing)) := by
  refine writes_served (oneByte_disjoint (by decide) 1 2) ⟨?_, le_rfl, nofun⟩
    ⟨?_, ?_, ?_, ?_, ?_, ?_, ?_, ?_, ?_, trivial⟩
  · rintro _ ⟨⟩
    decide
  all_goals rintro w p ⟨⟨⟩, ⟨⟩⟩
  · trivial
  · exact .inl rfl
  · refine .inr ⟨rfl, fun n hn => ⟨?_, ?_⟩⟩
    · revert n
      decide
    · rintro (_ | _ | j) w p ⟨⟨⟩, ⟨⟩⟩ h <;> exact h.elim
  · trivial
  · refine ⟨by decide, ?_⟩
    rintro (_ | _ | j) w p ⟨⟨⟩, ⟨⟩⟩ h <;> exact h.elim
  · exact .inr rfl
  · exact ⟨rfl, rfl⟩
  · trivial
  · trivial

/-- Both handlers see a file without a buffer, and each grows it for itself: the second one
installs a buffer without the first one's byte. A write of no bytes to such a file throws. -/
theorem writes_lost : (created.Sound ∧ [oneByte 0 1, oneByte 1 2].Pairwise
      fun w v => ∀ pos, w.Covers pos → ¬v.Covers pos) ∧ ¬Served [oneByte 0 1, oneByte 1 2] created
        ([0, 1, 0, 1, 0, 0, 0, 0, 1, 1, 1, 1].foldl (step [oneByte 0 1, oneByte 1 2])
          (start created [oneByte 0 1, oneByte 1 2])) ∧ ¬Served [⟨0, 0, [], le_rfl⟩] created
        ([0, 0, 0, 0, 0].foldl (step [⟨0, 0, [], le_rfl⟩]) (start created [⟨0, 0, [], le_rfl⟩])) := by
  refine ⟨⟨created_sound, oneByte_disjoint (by decide) 1 2⟩, fun h => ?_, fun h => h.1 ?_⟩
  · obtain ⟨-, hbytes, -⟩ := h.2 (by rintro p (_ | ⟨_, _ | ⟨_, ⟨⟩⟩⟩) <;> rfl)
    have := hbytes (oneByte 0 1) mem_cons_self 0 Nat.one_pos
    revert this
    decide
  · exact mem_singleton_self _

end Writes

end V86.Fs
