import V86.Virtio.Chain
import Mathlib.Data.List.Chain

/-!
# What is collected of a descriptor chain

The descriptors that `collect_buffers` reads lie in the table of the queue and, after one of them
named it, in an indirect table (`Walk.At`); each is the one that the descriptor before it leads to
(`Follows`); the buffers collected are theirs, in their order (`Walk.Collects`). One round keeps all
three, so they hold where the loop ends.
-/

namespace V86.Virtio

open List

open Dma (Memory)

variable {m m' : Memory} {v : VirtIO} {q : VirtQueue} {f : Bool} {w w' : Walk} {d : Desc}

/-! ## Where descriptors are read -/

/-- Some descriptors of one table, no more than it has. -/
def InTable (address limit : Nat) (visits : List Visit) : Prop :=
  visits.length ≤ limit ∧ ∀ x ∈ visits, x.table = address ∧ x.idx < limit

/-- The last one of some descriptors names an indirect table. -/
def Names (m : Memory) (visits : List Visit) (d : Desc) : Prop :=
  (∃ x, visits.getLast? = some x ∧ x.desc = some d) ∧ d.isIndirect = true ∧ d.valid m = true ∧
    descEntrysize ∣ d.len ∧ d.len / descEntrysize ≤ 65536

/-- Descriptors of the queue's table, and after them descriptors of the indirect table that the last
of these names. -/
def Confined (m : Memory) (q : VirtQueue) (visits : List Visit) : Prop :=
  ∃ direct indirect, visits = direct ++ indirect ∧ InTable q.descAddr q.size direct ∧
    (indirect = [] ∨
      ∃ d, Names m direct d ∧ InTable d.address (d.len / descEntrysize) indirect)

theorem InTable.concat {address limit : Nat} {visits : List Visit} (h : InTable address limit visits)
    {x : Visit} (hlength : visits.length < limit) (htable : x.table = address)
    (hidx : x.idx < limit) : InTable address limit (visits ++ [x]) := by
  refine ⟨by rw [length_append]; exact hlength, fun y hy => ?_⟩
  rcases List.mem_append.1 hy with hy | hy
  · exact h.2 y hy
  · rw [List.mem_singleton.1 hy]
    exact ⟨htable, hidx⟩

theorem Confined.length_le {visits : List Visit} (h : Confined m q visits) :
    visits.length ≤ q.size + 65536 := by
  obtain ⟨direct, indirect, rfl, hdirect, hindirect⟩ := h
  have hlength : indirect.length ≤ 65536 := by
    obtain rfl | ⟨d, ⟨-, -, -, -, hmax⟩, htable⟩ := hindirect
    · exact Nat.zero_le _
    · exact Nat.le_trans htable.1 hmax
  rw [length_append]
  exact Nat.add_le_add hdirect.1 hlength

namespace Walk

/-- The table that the loop is in, and what it has read in it. -/
inductive At (m : Memory) (q : VirtQueue) (w : Walk) : Prop
  | direct (hindirect : w.indirect = false) (haddress : w.tableAddress = q.descAddr)
    (hmax : w.chainMax = q.size) (hlength : w.chainLength = w.visits.length)
    (hvisits : InTable q.descAddr q.size w.visits)
  | indirect (direct indirect : List Visit) (d : Desc) (hindirect : w.indirect = true)
    (haddress : w.tableAddress = d.address) (hmax : w.chainMax = d.len / descEntrysize)
    (hlength : w.chainLength = indirect.length) (hvisits : w.visits = direct ++ indirect)
    (hdirect : InTable q.descAddr q.size direct) (hnames : Names m direct d)
    (htable : InTable d.address (d.len / descEntrysize) indirect)

theorem At.init (headIdx : Nat) : At m q (.init q headIdx) :=
  .direct rfl rfl rfl rfl ⟨Nat.zero_le _, fun _ h => nomatch h⟩

theorem At.confined (h : At m q w) : Confined m q w.visits := by
  cases h with
  | direct _ _ _ _ hvisits => exact ⟨w.visits, [], (append_nil _).symm, hvisits, .inl rfl⟩
  | indirect direct indirect d _ _ _ _ hvisits hdirect hnames htable =>
    exact ⟨direct, indirect, hvisits, hdirect, .inr ⟨d, hnames, htable⟩⟩

theorem At.visit (h : At m q w) (hidx : w.descIdx < w.chainMax)
    (hchain : w.chainLength < w.chainMax) : At m q (w.visit m) := by
  cases h with
  | direct hindirect haddress hmax hlength hvisits =>
    refine .direct hindirect haddress hmax ?_ ?_
    · change w.chainLength + 1 = (w.visits ++ [_]).length
      rw [hlength, length_append, length_singleton]
    · rw [hmax] at hidx hchain
      rw [hlength] at hchain
      exact hvisits.concat hchain haddress hidx
  | indirect direct indirect d hindirect haddress hmax hlength hvisits hdirect hnames htable =>
    refine .indirect direct (indirect ++ [⟨w.tableAddress, w.descIdx, w.desc m⟩]) d hindirect
      haddress hmax ?_ ?_ hdirect hnames ?_
    · change w.chainLength + 1 = _
      rw [hlength, length_append, length_singleton]
    · change w.visits ++ [_] = _
      rw [hvisits, append_assoc]
    · rw [hmax] at hidx hchain
      rw [hlength] at hchain
      exact htable.concat hchain haddress hidx

theorem At.enter (h : At m q (w.visit m)) (hd : w.desc m = some d) (hvalid : d.valid m = true)
    (hindirect : d.isIndirect = true) (hbad : w.badIndirect f d = false) :
    At m q ((w.visit m).enter d) := by
  simp only [badIndirect, Bool.or_eq_false_iff, decide_eq_false_iff_not, Decidable.not_not,
    Nat.not_lt] at hbad
  obtain ⟨⟨⟨⟨⟨-, hw⟩, -⟩, -⟩, hdvd⟩, hmax⟩ := hbad
  cases h with
  | direct _ _ _ _ hvisits =>
    refine .indirect (w.visit m).visits [] d rfl rfl rfl rfl (append_nil _).symm hvisits
      ⟨⟨_, List.getLast?_concat, hd⟩, hindirect, hvalid, Nat.dvd_of_mod_eq_zero hdvd, hmax⟩
      ⟨Nat.zero_le _, fun _ h => absurd h not_mem_nil⟩
  | indirect _ _ _ htrue =>
    rw [show (w.visit m).indirect = w.indirect from rfl, hw] at htrue
    cases htrue

theorem At.push (h : At m q w) (d : Desc) (next : Nat) :
    At m q (w.push d) ∧ At m q { w.push d with descIdx := next } := by
  rw [Walk.push]
  cases h with
  | direct h₁ h₂ h₃ h₄ h₅ =>
    split <;> exact ⟨.direct h₁ h₂ h₃ h₄ h₅, .direct h₁ h₂ h₃ h₄ h₅⟩
  | indirect xs ys e h₁ h₂ h₃ h₄ h₅ h₆ h₇ h₈ =>
    split <;>
      exact ⟨.indirect xs ys e h₁ h₂ h₃ h₄ h₅ h₆ h₇ h₈, .indirect xs ys e h₁ h₂ h₃ h₄ h₅ h₆ h₇ h₈⟩

end Walk

/-! ## The chain that memory holds -/

/-- The descriptor that another one leads to: the first of the table it names, or the next one of
its own table. -/
def Follows (x y : Visit) : Prop :=
  ∃ d, x.desc = some d ∧
    (d.isIndirect = true ∧ y.table = d.address ∧ y.idx = 0 ∨
      d.isIndirect = false ∧ d.hasNext = true ∧ y.table = x.table ∧ y.idx = d.next)

/-- The descriptors of the chain that starts at an entry of the queue's table, as memory has them. -/
structure ChainFrom (m : Memory) (q : VirtQueue) (headIdx : Nat) (visits : List Visit) : Prop where
  head : ∀ x, visits.head? = some x → x.table = q.descAddr ∧ x.idx = headIdx
  links : visits.IsChain Follows
  read : ∀ x ∈ visits, x.desc = getDescriptor m x.table x.idx

/-- The descriptor that a walk reads next. -/
def Walk.here (m : Memory) (w : Walk) : Visit := ⟨w.tableAddress, w.descIdx, w.desc m⟩

theorem Walk.visits_visit (m : Memory) (w : Walk) :
    (w.visit m).visits = w.visits ++ [w.here m] := rfl

@[simp] theorem Walk.visits_push (w : Walk) (d : Desc) : (w.push d).visits = w.visits := by
  rw [push]
  split <;> rfl

@[simp] theorem Walk.tableAddress_push (w : Walk) (d : Desc) :
    (w.push d).tableAddress = w.tableAddress := by
  rw [push]
  split <;> rfl

theorem Walk.here_init (q : VirtQueue) (headIdx : Nat) :
    ChainFrom m q headIdx [(Walk.init q headIdx).here m] where
  head := by
    intro x hx
    cases hx
    exact ⟨rfl, rfl⟩
  links := .singleton _
  read := by
    intro x hx
    rw [List.mem_singleton.1 hx]
    rfl

variable {headIdx : Nat} {visits : List Visit} {x : Visit}

theorem ChainFrom.concat {y : Visit} (h : ChainFrom m q headIdx (visits ++ [x]))
    (hlink : Follows x y) (hread : y.desc = getDescriptor m y.table y.idx) :
    ChainFrom m q headIdx (visits ++ [x] ++ [y]) where
  head := by
    intro z hz
    refine h.head z ?_
    rw [← hz]
    cases visits <;> rfl
  links := by
    refine List.isChain_append.2 ⟨h.links, .singleton _, ?_⟩
    intro a ha b hb
    rw [List.getLast?_concat] at ha
    cases ha
    cases hb
    exact hlink
  read := by
    intro z hz
    rcases List.mem_append.1 hz with hz | hz
    · exact h.read z hz
    · rw [List.mem_singleton.1 hz]
      exact hread

theorem ChainFrom.of_concat
    (h : ChainFrom m q headIdx (visits ++ [x])) : ChainFrom m q headIdx visits where
  head := by
    intro z hz
    refine h.head z ?_
    cases visits with
    | nil => cases hz
    | cons y ys => exact hz
  links := (List.isChain_append.1 h.links).1
  read := fun z hz => h.read z (mem_append_left _ hz)

/-! ## The buffers -/

/-- Buffers collected of some descriptors: those that are not indirect, all in memory that resolves,
the readable ones before the writable ones, with their lengths. -/
structure Buffers (m : Memory) (visits : List Visit) (readBuffers writeBuffers : List Desc)
    (lengthReadable lengthWritable : Nat) : Prop where
  read : ∀ x ∈ visits, ∃ d, x.desc = some d ∧ d.valid m = true
  buffers : (visits.filterMap Visit.desc).filter (!·.isIndirect) = readBuffers ++ writeBuffers
  readable : ∀ d ∈ readBuffers, d.isWrite = false
  writable : ∀ d ∈ writeBuffers, d.isWrite = true
  readLength : lengthReadable = (readBuffers.map Desc.len).sum
  writeLength : lengthWritable = (writeBuffers.map Desc.len).sum

/-- The buffers of a chain are in memory that resolves. -/
theorem Buffers.valid {readBuffers writeBuffers : List Desc} {lengthReadable lengthWritable : Nat}
    (h : Buffers m visits readBuffers writeBuffers lengthReadable lengthWritable) :
    ∀ d ∈ readBuffers ++ writeBuffers, d.valid m = true := by
  intro d hd
  rw [← h.buffers] at hd
  obtain ⟨x, hx, hdesc⟩ := List.mem_filterMap.1 (List.mem_filter.1 hd).1
  obtain ⟨e, he, hvalid⟩ := h.read x hx
  rw [hdesc] at he
  cases he
  exact hvalid

namespace Walk

/-- What the loop has collected. -/
structure Collects (m : Memory) (w : Walk) : Prop where
  buffers : Buffers m w.visits w.readBuffers w.writeBuffers w.lengthReadable w.lengthWritable
  region : w.writableRegion = false → w.writeBuffers = []

theorem Collects.init (headIdx : Nat) : Collects m (.init q headIdx) where
  buffers :=
    { read := fun _ h => (nomatch h), buffers := rfl, readable := fun _ h => (nomatch h),
      writable := fun _ h => (nomatch h), readLength := rfl, writeLength := rfl }
  region := fun _ => rfl

theorem read_visit (h : Collects m w) (hd : w.desc m = some d) (hvalid : d.valid m = true) :
    ∀ x ∈ (w.visit m).visits, ∃ d, x.desc = some d ∧ d.valid m = true := by
  intro x hx
  rcases List.mem_append.1 hx with hx | hx
  · exact h.buffers.read x hx
  · rw [List.mem_singleton.1 hx]
    exact ⟨d, hd, hvalid⟩

theorem filter_visit (hd : w.desc m = some d) :
    ((w.visit m).visits.filterMap Visit.desc).filter (!·.isIndirect) =
      (w.visits.filterMap Visit.desc).filter (!·.isIndirect) ++ [d].filter (!·.isIndirect) := by
  rw [visits_visit, filterMap_append, filter_append,
    filterMap_cons_some (show (w.here m).desc = some d from hd), filterMap_nil]

theorem Collects.enter (h : Collects m w) (hd : w.desc m = some d) (hvalid : d.valid m = true)
    (hindirect : d.isIndirect = true) : Collects m ((w.visit m).enter d) where
  buffers :=
    { h.buffers with
      read := read_visit h hd hvalid
      buffers := by
        refine (filter_visit hd).trans ?_
        rw [filter_cons_of_neg (by simp [hindirect]), filter_nil, append_nil]
        exact h.buffers.buffers }
  region := h.region

theorem Collects.push (h : Collects m w) (hd : w.desc m = some d) (hvalid : d.valid m = true)
    (hindirect : d.isIndirect = false) (hregion : d.isWrite = false → w.writableRegion = false) :
    Collects m ((w.visit m).push d) := by
  have hread := read_visit h hd hvalid
  have hfilter := filter_visit (m := m) hd
  rw [filter_cons_of_pos (by simp [hindirect]), filter_nil, h.buffers.buffers] at hfilter
  rw [Walk.push]
  cases hwrite : d.isWrite with
  | true =>
    rw [if_pos rfl]
    exact
      { buffers :=
          { h.buffers with
            read := hread
            buffers := hfilter.trans (append_assoc ..)
            writable := by
              intro e he
              rcases List.mem_append.1 he with he | he
              · exact h.buffers.writable e he
              · rw [List.mem_singleton.1 he]
                exact hwrite
            writeLength := by
              change w.lengthWritable + d.len = ((w.writeBuffers ++ [d]).map Desc.len).sum
              rw [h.buffers.writeLength, map_append, sum_append, map_singleton, sum_singleton] }
        region := fun hfalse => (by cases hfalse) }
  | false =>
    rw [if_neg Bool.false_ne_true]
    have hnone := h.region (hregion hwrite)
    rw [hnone, append_nil] at hfilter
    exact
      { buffers :=
          { h.buffers with
            read := hread
            buffers := by
              change List.filter _ (List.filterMap _ (w.visit m).visits) =
                w.readBuffers ++ [d] ++ w.writeBuffers
              rw [hnone, append_nil, hfilter]
            readable := by
              intro e he
              rcases List.mem_append.1 he with he | he
              · exact h.buffers.readable e he
              · rw [List.mem_singleton.1 he]
                exact hwrite
            readLength := by
              change w.lengthReadable + d.len = ((w.readBuffers ++ [d]).map Desc.len).sum
              rw [h.buffers.readLength, map_append, sum_append, map_singleton, sum_singleton] }
        region := h.region }

end Walk

/-! ## The loop -/

/-- The last descriptor of a chain. -/
def Ends (visits : List Visit) : Prop :=
  ∃ x d, visits.getLast? = some x ∧ x.desc = some d ∧ d.isIndirect = false ∧ d.hasNext = false

/-- What holds at every round. -/
structure Walk.Inv (m : Memory) (q : VirtQueue) (headIdx : Nat) (w : Walk) : Prop where
  table : w.At m q
  chain : ChainFrom m q headIdx (w.visits ++ [w.here m])
  collects : w.Collects m

/-- What holds where the loop has ended, with the end of the chain or without it. -/
structure Walk.Result (m : Memory) (q : VirtQueue) (headIdx : Nat) (w : Walk) (ended : Bool) :
    Prop where
  table : w.At m q
  chain : ChainFrom m q headIdx w.visits
  collects : ended = true → w.Collects m ∧ Ends w.visits

/-- What a round keeps. -/
theorem round_inv {headIdx : Nat} (h : w.Inv m q headIdx) :
    match round m f w with
    | .next w' => w'.Inv m q headIdx
    | .stop w' => w'.Result m q headIdx true
    | .error w' => w'.Result m q headIdx false := by
  refine round_cases (P := fun r => match r with
    | .next w' => w'.Inv m q headIdx
    | .stop w' => w'.Result m q headIdx true
    | .error w' => w'.Result m q headIdx false) ?_ ?_ ?_ ?_
  · intro _
    exact ⟨h.table, h.chain.of_concat, fun hfalse => nomatch hfalse⟩
  · intro hidx hlength
    exact ⟨h.table.visit hidx hlength, h.chain, fun hfalse => nomatch hfalse⟩
  · intro d hidx hlength hd hvalid hindirect hbad
    refine ⟨(h.table.visit hidx hlength).enter hd hvalid hindirect hbad, ?_,
      h.collects.enter hd hvalid hindirect⟩
    exact h.chain.concat ⟨d, hd, .inl ⟨hindirect, rfl, rfl⟩⟩ rfl
  · intro d hidx hlength hd hvalid hindirect hregion
    obtain ⟨htable, htable'⟩ := (h.table.visit hidx hlength).push d d.next
    have hcollects := h.collects.push hd hvalid hindirect hregion
    refine ⟨fun hnext => ⟨htable', ?_, hcollects.buffers, hcollects.region⟩, fun hnext =>
      ⟨htable, ?_, fun _ => ⟨hcollects, ?_⟩⟩⟩
    · change ChainFrom m q headIdx (((w.visit m).push d).visits ++ [_])
      rw [Walk.visits_push]
      refine h.chain.concat ⟨d, hd, .inr ⟨hindirect, hnext, ?_, rfl⟩⟩ rfl
      exact Walk.tableAddress_push _ d
    · rw [Walk.visits_push]
      exact h.chain
    · rw [Walk.visits_push]
      exact ⟨w.here m, d, List.getLast?_concat, hd, hindirect, hnext⟩

/-- What holds where the loop ends. -/
theorem collectBuffers_inv {headIdx : Nat} (h : w.Inv m q headIdx) :
    (collectBuffers m f w).1.Result m q headIdx (collectBuffers m f w).2 := by
  fun_induction collectBuffers m f w with
  | case1 w w' hround ih =>
    have hinv := round_inv (f := f) h
    rw [hround] at hinv
    exact ih hinv
  | case2 w w' hround | case3 w w' hround =>
    have hinv := round_inv (f := f) h
    rw [hround] at hinv
    exact hinv

/-! ## The memory that the loop depends on -/

/-- Memories with the same pages mapped and the same bytes of some descriptors. -/
def SameDescriptors (m m' : Memory) (visits : List Visit) : Prop :=
  m'.mapped = m.mapped ∧ ∀ x ∈ visits, ∀ k < descEntrysize,
    m'.bytes (x.table + x.idx * descEntrysize + k) = m.bytes (x.table + x.idx * descEntrysize + k)

/-- The walk that a round ends with. -/
def Round.walk : Round → Walk
  | .next w | .stop w | .error w => w

/-- A round that does not stop at once reads one descriptor. -/
theorem round_visits (h : w.outside = false) :
    (round m f w).walk.visits = w.visits ++ [w.here m] := by
  refine round_cases (P := fun r => r.walk.visits = w.visits ++ [w.here m]) ?_ ?_ ?_ ?_
  · intro houtside
    rw [h] at houtside
    cases houtside
  · intro _ _
    rfl
  · intro d _ _ _ _ _ _
    rfl
  · intro d _ _ _ _ _ _
    exact ⟨fun _ => Walk.visits_push _ d, fun _ => Walk.visits_push _ d⟩

theorem round_outside (h : w.outside = true) : round m f w = .error w := by
  rw [round, if_pos h]

theorem visits_prefix_round : w.visits <+: (round m f w).walk.visits := by
  cases h : w.outside with
  | true =>
    rw [round_outside h]
    exact prefix_rfl
  | false =>
    rw [round_visits h]
    exact prefix_append ..

/-- What has been read stays read. -/
theorem visits_prefix : (round m f w).walk.visits <+: (collectBuffers m f w).1.visits := by
  fun_induction collectBuffers m f w with
  | case1 w w' hround ih =>
    rw [hround]
    exact visits_prefix_round.trans ih
  | case2 w w' hround | case3 w w' hround =>
    rw [hround]
    exact prefix_rfl

theorem round_congr (h : SameDescriptors m m' (collectBuffers m f w).1.visits) :
    round m' f w = round m f w := by
  cases houtside : w.outside with
  | true => rw [round_outside houtside, round_outside houtside]
  | false =>
    have hhere : w.here m ∈ (collectBuffers m f w).1.visits := by
      refine visits_prefix.subset ?_
      rw [round_visits houtside]
      exact mem_append_right _ (.head _)
    have hdesc : w.desc m' = w.desc m := getDescriptor_congr h.1 fun k hk => h.2 _ hhere k hk
    have hvalid : ∀ d : Desc, d.valid m' = d.valid m := by
      intro d
      rw [Desc.valid, Desc.valid, Memory.validatePhysicalRange, Memory.validatePhysicalRange, h.1]
    rw [round, round, Walk.visit, Walk.visit, hdesc]
    simp only [hvalid]

/-- The loop depends on the descriptors it reads only. -/
theorem collectBuffers_congr (h : SameDescriptors m m' (collectBuffers m f w).1.visits) :
    collectBuffers m' f w = collectBuffers m f w := by
  have hround := round_congr h
  fun_induction collectBuffers m f w with
  | case1 w w' hnext ih =>
    rw [hnext] at hround
    rw [collectBuffers_next hround]
    exact ih h (round_congr h)
  | case2 w w' hstop =>
    rw [hstop] at hround
    exact collectBuffers_stop hround
  | case3 w w' herror =>
    rw [herror] at hround
    exact collectBuffers_error hround

/-! ## The chain -/

/-- What a chain that can be used holds. -/
def BufferChain.Collected (m : Memory) (visits : List Visit) (c : BufferChain) : Prop :=
  Buffers m visits c.readBuffers c.writeBuffers c.lengthReadable c.lengthWritable ∧ Ends visits ∧
    ∀ d ∈ c.readBuffers ++ c.writeBuffers, d.valid m = true

/-- What a chain that cannot be used holds. -/
structure BufferChain.Empty (c : BufferChain) : Prop where
  readBuffers : c.readBuffers = []
  writeBuffers : c.writeBuffers = []
  lengthReadable : c.lengthReadable = 0
  lengthWritable : c.lengthWritable = 0

theorem pushReply_of_not_valid {c : BufferChain} (h : c.valid = false) (v : VirtIO) (s : Rings) :
    pushReply v c s = .ok () s := by
  rw [pushReply, h]
  rfl

/-- Whatever memory holds, a chain is collected from descriptors of the queue's table and of at most
one indirect table, as many as these have at most, each where the one before it leads, and on
nothing else in memory; it can be used and has the buffers of these descriptors, or it is empty, the
device has to be reset, and a reply to it changes nothing. -/
theorem bufferChain_safe (m : Memory) (v : VirtIO) (q : VirtQueue) (headIdx : Nat) :
    let c := (bufferChain m v q headIdx).1
    let v' := (bufferChain m v q headIdx).2.1
    let visits := (bufferChain m v q headIdx).2.2
    visits.length ≤ q.size + 65536 ∧ Confined m q visits ∧ ChainFrom m q headIdx visits ∧
      (∀ m', SameDescriptors m m' visits → bufferChain m' v q headIdx = (c, v', visits)) ∧
      (c.valid = true ∧ c.Collected m visits ∧ v' = v ∨
        c.valid = false ∧ c.Empty ∧ v'.mustReset = true ∧ ∀ v s, pushReply v c s = .ok () s) := by
  have hinv : (Walk.init q headIdx).Inv m q headIdx :=
    ⟨.init headIdx, Walk.here_init q headIdx, .init headIdx⟩
  have hresult := collectBuffers_inv (f := v.isFeatureNegotiated featureRingIndirectDesc) hinv
  have hcongr : ∀ m', SameDescriptors m m' (collectBuffers m
      (v.isFeatureNegotiated featureRingIndirectDesc) (.init q headIdx)).1.visits →
      bufferChain m' v q headIdx = bufferChain m v q headIdx := by
    intro m' hsame
    rw [bufferChain, bufferChain, collectBuffers_congr hsame]
  generalize hchain : bufferChain m v q headIdx = chain at hcongr ⊢
  obtain ⟨c, v', visits⟩ := chain
  rw [bufferChain] at hchain
  cases hrun : collectBuffers m (v.isFeatureNegotiated featureRingIndirectDesc)
    (.init q headIdx) with
  | mk w ended =>
    rw [hrun] at hresult hchain hcongr
    have hvisits : visits = w.visits := by cases ended <;> cases hchain <;> rfl
    subst hvisits
    refine ⟨hresult.table.confined.length_le, hresult.table.confined, hresult.chain, hcongr, ?_⟩
    cases ended with
    | true =>
      cases hchain
      obtain ⟨hcollects, hends⟩ := hresult.collects rfl
      exact .inl ⟨rfl, ⟨hcollects.buffers, hends, hcollects.buffers.valid⟩, rfl⟩
    | false =>
      cases hchain
      exact .inr ⟨rfl, ⟨rfl, rfl, rfl, rfl⟩, v.mustReset_needsReset, pushReply_of_not_valid rfl⟩

end V86.Virtio
