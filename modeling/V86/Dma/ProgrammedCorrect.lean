import V86.Dma.Programmed

/-!
# When the code moves what was programmed

`do_read` takes no notice of the length asked for or of autoinit, advances the address by bytes
where the controller counts words, and leaves the count alone; `do_write` takes a count of `0xFFFF`
for an empty block, and an odd rest on a channel of words for one byte less. Both cut the address of
such a channel to 16 bits.
-/

namespace V86.Dma

open List BitVec

variable {dir : Direction} {s s' : System} {r : Request}

namespace DMA

theorem countGet8bit_eq (d : DMA) (channel : Fin 8) :
    d.countGet8bit channel = d.blockBytes channel := by
  unfold countGet8bit blockBytes bytesPerCount
  dsimp only
  split <;> omega

theorem addressGet8bit_lt (d : DMA) (channel : Fin 8) : d.addressGet8bit channel < 0x100000000 :=
  BitVec.isLt _

theorem physicalAddress_lt (d : DMA) (channel : Fin 8) : d.physicalAddress channel < 0x100000000 :=
  BitVec.isLt _

/-- The mask keeps the bits below 16. -/
theorem getLsbD_mask (x : BitVec 32) (i : Nat) :
    (x &&& 0xFFFF).getLsbD i = (x.getLsbD i && decide (i < 16)) := by
  have hones : (0xFFFF : BitVec 32) = (BitVec.allOnes 16).setWidth 32 := rfl
  rw [getLsbD_and, hones, getLsbD_setWidth, getLsbD_allOnes]
  rcases Nat.lt_or_ge i 16 with h | h
  · simp [h, Nat.lt_trans h (by decide : 16 < 32)]
  · simp [Nat.not_lt.2 h]

/-- Of the address in bytes, only bit 16 is lost. -/
theorem addressGet8bit_eq_iff {d : DMA} {channel : Fin 8} :
    d.addressGet8bit channel = d.physicalAddress channel ↔ d.Direct channel := by
  unfold addressGet8bit physicalAddress Direct
  dsimp only
  rw [toNat_inj]
  generalize (d.channels channel).addr = addr
  generalize (d.channels channel).page = page
  generalize (d.channels channel).pagehi = pagehi
  by_cases h5 : 5 ≤ channel
  · rw [if_pos h5, if_pos h5, or_iff_right (by omega)]
    constructor
    · intro h
      have h16 : addr[15] = true → page[0] = true := by
        simpa [getLsbD_mask] using congrArg (BitVec.getLsbD · 16) h
      simpa [← Bool.not_eq_true, Classical.or_iff_not_imp_left] using h16
    · intro h
      refine eq_of_getLsbD_eq fun i hi => ?_
      simp only [getLsbD_or, getLsbD_mask, getLsbD_shiftLeft, getLsbD_setWidth]
      rcases Nat.lt_trichotomy i 16 with hlt | rfl | hlt
      · simp [hlt]
      · simpa [← Bool.not_eq_true, Classical.or_iff_not_imp_left] using h
      · rw [getLsbD_of_ge addr (i - 1) (by omega)]
        simp
  · rw [if_neg h5, if_neg h5, shiftLeft_zero]
    refine iff_of_true ?_ (.inl (by omega))
    refine eq_of_getLsbD_eq fun i hi => ?_
    simp only [getLsbD_or, getLsbD_mask, getLsbD_setWidth]
    rcases Nat.lt_or_ge i 16 with h | h
    · simp [h]
    · simp [getLsbD_of_ge addr i h]

end DMA

namespace System

variable {start n address : Nat}

theorem le_of_accepts (h : s.accepts start n address = true) : start + n ≤ s.buffer.length := by
  simp only [accepts, Bool.and_eq_true, decide_eq_true_eq] at h
  exact h.1.1

/-- Nothing is moved if only the buffer reaches that far. -/
theorem accepts_zero (start : Nat) (haddress : address < 0x100000000) :
    s.accepts start 0 address = decide (start ≤ s.buffer.length) := by
  have hvalid : s.memory.validatePhysicalRange address 0 = true := by
    simp only [Memory.validatePhysicalRange, Bool.and_eq_true, decide_eq_true_eq,
      Memory.resolves_iff]
    exact ⟨⟨by omega, by omega⟩, fun a hle ha => absurd ha (by omega)⟩
  have hle : address ≤ 0x100000000 := Nat.le_of_lt haddress
  simp [accepts, hvalid, hle]

/-- What a move that was accepted adds to the moves. -/
theorem moves_move (dir : Direction) (h : s.accepts start n address = true) :
    ∃ data : List Byte, data.length = n ∧
      (s.move dir start n address).moves = s.moves ++ [.of address start data] := by
  have hle := le_of_accepts h
  cases dir with
  | read =>
    refine ⟨_, ?_, rfl⟩
    rw [length_take, length_drop]
    omega
  | write => exact ⟨_, by simp, rfl⟩

/-- Where nothing is moved, the address does not matter. -/
theorem move_write_congr {address' : Nat} (h : n = 0 ∨ address = address') :
    s.move .write start n address = s.move .write start n address' := by
  rcases h with rfl | rfl <;> rfl

end System

/-- What two moves at the same place of the buffer have in common if they are the same. -/
theorem Move.of_inj {a a' offset : Nat} {data data' : List Byte}
    (h : Move.of a offset data = Move.of a' offset data') :
    data = data' ∧ (data = [] ∨ a = a') := by
  have hdata : data = data' := congrArg Move.data h
  subst hdata
  have haddress := congrArg Move.address h
  by_cases hempty : data = []
  · exact ⟨rfl, .inl hempty⟩
  · refine ⟨rfl, .inr ?_⟩
    simpa [Move.of, hempty] using haddress

/-! ## One round of the code -/

/-- `do_read` moves the whole block and advances the address by its bytes. -/
theorem transfer_read (fuel : Nat) (s : System) (r : Request) :
    transfer .read (fuel + 1) s r =
      let n := s.dma.blockBytes r.channel
      let address := s.dma.addressGet8bit r.channel
      if s.accepts r.start n address then
        some ({ s.move .read r.start n address with
          dma := s.dma.modify r.channel fun c => { c with addr := c.addr + BitVec.ofNat 16 n } },
          false)
      else some (s, true) := by
  rw [transfer, Direction.start, doRead_eq, DMA.countGet8bit_eq]
  dsimp only
  cases h : s.accepts r.start (s.dma.blockBytes r.channel) (s.dma.addressGet8bit r.channel) with
  | false => rfl
  | true =>
    have hlen : ((s.buffer.drop r.start).take (s.dma.blockBytes r.channel)).length =
        s.dma.blockBytes r.channel := by
      have := System.le_of_accepts h
      rw [length_take, length_drop]
      omega
    have hvalid : s.memory.validatePhysicalRange (s.dma.addressGet8bit r.channel)
        (s.dma.blockBytes r.channel) = true := by
      simp only [System.accepts, Bool.and_eq_true] at h
      exact h.2
    simp [complete, DMA.modify, Memory.writeBlobPhysical, hlen, hvalid, System.move]

/-- `do_write` moves `read_bytes` and goes on or calls back. -/
theorem transfer_write (fuel : Nat) (s : System) (r : Request) :
    transfer .write (fuel + 1) s r =
      let n := r.readBytes s.dma
      let address := s.dma.addressGet8bit r.channel
      if s.accepts r.start n address then
        let s₁ := { s.move .write r.start n address with
          dma := s.dma.modify r.channel (r.written s.dma) }
        match r.more s.dma with
        | none => some (s₁, false)
        | some r' => transfer .write fuel s₁ r'
      else some (s, true) := by
  rw [transfer, Direction.start, doWrite_eq]
  dsimp only
  cases h : s.accepts r.start (r.readBytes s.dma) (s.dma.addressGet8bit r.channel) with
  | false => rfl
  | true =>
    cases hmore : r.more s.dma <;> simp [complete, DMA.modify, System.move]

/-! ## The moves of a whole transfer -/

/-- A transfer as programmed only adds to the moves. -/
theorem moves_programmed (dir : Direction) (s : System) (r : Request) :
    ∃ ms : List Move, (programmed dir s r).1.moves = s.moves ++ ms ∧
      ((programmed dir s r).2 = false → ms ≠ []) := by
  induction s, r using programmed_rec dir with
  | h s r ih =>
    cases haccepts : s.accepts r.start (r.bytes s.dma) (s.dma.physicalAddress r.channel) with
    | false =>
      rw [programmed_refused haccepts]
      exact ⟨[], by simp, nofun⟩
    | true =>
      obtain ⟨data, -, hmove⟩ := System.moves_move dir haccepts
      by_cases hauto : (s.dma.channels r.channel).autoinit = true ∧
          s.dma.blockBytes r.channel ≤ r.len
      · obtain ⟨hauto, hle⟩ := hauto
        rcases Nat.lt_or_eq_of_le hle with hlt | heq
        · obtain ⟨ms, hms, -⟩ := ih hlt
          rw [programmed_again haccepts hauto hlt, hms, System.afterBlock, hmove]
          exact ⟨_, List.append_assoc .., fun _ => by simp⟩
        · rw [programmed_complete haccepts hauto heq, System.afterBlock, hmove]
          exact ⟨_, rfl, fun _ => by simp⟩
      · rw [programmed_last haccepts fun h => Nat.lt_of_not_le fun hle => hauto ⟨h, hle⟩]
        exact ⟨_, hmove, fun _ => by simp⟩

/-- The first move of a transfer that is accepted. -/
theorem first_programmed (dir : Direction)
    (haccepts : s.accepts r.start (r.bytes s.dma) (s.dma.physicalAddress r.channel) = true) :
    ∃ (data : List Byte) (ms : List Move), data.length = r.bytes s.dma ∧
      (programmed dir s r).1.moves =
        s.moves ++ .of (s.dma.physicalAddress r.channel) r.start data :: ms := by
  obtain ⟨data, hlen, hmove⟩ := System.moves_move dir haccepts
  by_cases hauto : (s.dma.channels r.channel).autoinit = true ∧ s.dma.blockBytes r.channel ≤ r.len
  · obtain ⟨hauto, hle⟩ := hauto
    rcases Nat.lt_or_eq_of_le hle with hlt | heq
    · obtain ⟨ms, hms, -⟩ := moves_programmed dir (s.afterBlock dir r) (r.rest s.dma)
      rw [programmed_again haccepts hauto hlt, hms, System.afterBlock, hmove]
      exact ⟨data, ms, hlen, List.append_assoc ..⟩
    · rw [programmed_complete haccepts hauto heq, System.afterBlock, hmove]
      exact ⟨data, [], hlen, rfl⟩
  · rw [programmed_last haccepts fun h => Nat.lt_of_not_le fun hle => hauto ⟨h, hle⟩]
    exact ⟨data, [], hlen, hmove⟩

/-- A transfer that begins with a move ends as programmed only if that is what the registers
describe: of as many bytes, and from or to the same address unless there are none. -/
theorem first_move_eq (dir : Direction) {address : Nat} {data : List Byte} {ms : List Move}
    (h : (programmed dir s r).1.moves = s.moves ++ .of address r.start data :: ms) :
    s.accepts r.start (r.bytes s.dma) (s.dma.physicalAddress r.channel) = true ∧
      data.length = r.bytes s.dma ∧
      (r.bytes s.dma = 0 ∨ address = s.dma.physicalAddress r.channel) := by
  cases hn : s.accepts r.start (r.bytes s.dma) (s.dma.physicalAddress r.channel) with
  | false =>
    rw [programmed_refused hn] at h
    simp at h
  | true =>
    obtain ⟨data', ms', hdata', hmoves⟩ := first_programmed dir hn
    rw [h] at hmoves
    obtain ⟨rfl, haddress⟩ := Move.of_inj (List.cons.inj (append_cancel_left hmoves)).1
    refine ⟨rfl, hdata', haddress.imp_left fun hempty => ?_⟩
    rw [← hdata', hempty]
    rfl

/-- A request that the code refuses is served only if it is refused as programmed. -/
theorem programmed_eq_refused_iff : programmed dir s r = (s, true) ↔
    s.accepts r.start (r.bytes s.dma) (s.dma.physicalAddress r.channel) = false := by
  refine ⟨fun h => ?_, programmed_refused⟩
  cases hn : s.accepts r.start (r.bytes s.dma) (s.dma.physicalAddress r.channel) with
  | false => rfl
  | true =>
    obtain ⟨data, ms, -, hmoves⟩ := first_programmed dir hn
    rw [h] at hmoves
    simp at hmoves

/-- `do_write` begins with the move of its first block. -/
theorem moves_transfer_write {fuel : Nat} {error : Bool}
    (h : transfer .write fuel s r = some (s', error)) : ∃ ms : List Move, s'.moves = s.moves ++ ms ∧
      (s.accepts r.start (r.readBytes s.dma) (s.dma.addressGet8bit r.channel) = true →
        ∃ (data : List Byte) (ms' : List Move), data.length = r.readBytes s.dma ∧
          ms = .of (s.dma.addressGet8bit r.channel) r.start data :: ms') := by
  induction fuel generalizing s r with
  | zero => cases h
  | succ fuel ih =>
    rw [transfer_write] at h
    dsimp only at h
    cases haccepts : s.accepts r.start (r.readBytes s.dma) (s.dma.addressGet8bit r.channel) with
    | false =>
      simp only [haccepts, Bool.false_eq_true, if_false, Option.some.injEq, Prod.mk.injEq] at h
      exact ⟨[], by simp [h.1], nofun⟩
    | true =>
      obtain ⟨data, hdata, hmove⟩ := System.moves_move .write haccepts
      simp only [haccepts, if_true] at h
      cases hmore : r.more s.dma with
      | none =>
        simp only [hmore, Option.some.injEq, Prod.mk.injEq] at h
        exact ⟨_, by rw [← h.1]; exact hmove, fun _ => ⟨data, [], hdata, rfl⟩⟩
      | some r' =>
        simp only [hmore] at h
        obtain ⟨ms, hms, -⟩ := ih h
        refine ⟨_, ?_, fun _ => ⟨data, ms, hdata, rfl⟩⟩
        rw [hms, hmove, List.append_assoc]
        rfl

/-! ## `do_read` -/

/-- A range check fails for the `n` bytes that the code asks for, at the address cut to 16 bits, and
one fails for the bytes that should be moved. -/
def System.Refused (s : System) (r : Request) (n : Nat) : Prop :=
  s.accepts r.start n (s.dma.addressGet8bit r.channel) = false ∧
    s.accepts r.start (r.bytes s.dma) (s.dma.physicalAddress r.channel) = false

/-- The requests that `do_read` serves as programmed: those it refuses as it should, and those for
which the registers end where they began. -/
def ReadServed (s : System) (r : Request) : Prop :=
  let c := s.dma.channels r.channel
  let block := s.dma.blockBytes r.channel
  s.Refused r block ∨ s.dma.Direct r.channel ∧
    if c.autoinit then
      r.len = block ∧ c.addrInit = c.addr + BitVec.ofNat 16 block ∧ c.countInit = c.count
    else block ≤ r.len ∧ c.count = 0xFFFF

/-- `do_read` does not depend on the fuel. -/
theorem asProgrammed_read_iff_transfer :
    AsProgrammed .read s r ↔ transfer .read 1 s r = some (programmed .read s r) := by
  constructor
  · rintro ⟨fuel, h⟩
    cases fuel with
    | zero => cases h
    | succ fuel =>
      rw [transfer_read] at h ⊢
      exact h
  · intro h
    exact ⟨1, h⟩

variable {d : DMA}

/-- A whole block of `0xFFFF + 1` units leaves the address where it was. -/
theorem ofNat_blockBytes {channel : Fin 8} (h : (d.channels channel).count = 0xFFFF) :
    BitVec.ofNat 16 (d.blockBytes channel) = 0 := by
  unfold DMA.blockBytes DMA.bytesPerCount
  rw [h]
  split <;> rfl

theorem blockBytes_div (d : DMA) (channel : Fin 8) :
    d.blockBytes channel / DMA.bytesPerCount channel = (d.channels channel).count.toNat + 1 :=
  Nat.mul_div_cancel _ (DMA.bytesPerCount_pos channel)

/-- The whole block is asked for where `do_read` serves a request. -/
theorem le_len_of_readServed (h : ReadServed s r) : s.Refused r (s.dma.blockBytes r.channel) ∨
      s.dma.Direct r.channel ∧ s.dma.blockBytes r.channel ≤ r.len := by
  refine h.imp_right fun h => ⟨h.1, ?_⟩
  have hcases := h.2
  split at hcases
  · exact Nat.le_of_eq hcases.1.symm
  · exact hcases.1

/-- The two addresses and lengths are the same for a block that is asked for. -/
theorem accepts_block (hdirect : s.dma.Direct r.channel)
    (hle : s.dma.blockBytes r.channel ≤ r.len) :
    s.accepts r.start (r.bytes s.dma) (s.dma.physicalAddress r.channel) =
      s.accepts r.start (s.dma.blockBytes r.channel) (s.dma.addressGet8bit r.channel) := by
  rw [Request.bytes, Nat.min_eq_right hle, DMA.addressGet8bit_eq_iff.2 hdirect]

/-- A block that is asked for and moved. -/
theorem asProgrammed_read_block (hdirect : s.dma.Direct r.channel)
    (hle : s.dma.blockBytes r.channel ≤ r.len)
    (hblock : s.accepts r.start (s.dma.blockBytes r.channel) (s.dma.addressGet8bit r.channel) =
      true) : AsProgrammed .read s r ↔ ReadServed s r := by
  have hn := (accepts_block hdirect hle).trans hblock
  have hbytes : r.bytes s.dma = s.dma.blockBytes r.channel := Nat.min_eq_right hle
  have hrefused : ¬ s.Refused r (s.dma.blockBytes r.channel) := fun h =>
    Bool.false_ne_true (h.1.symm.trans hblock)
  have haddress := DMA.addressGet8bit_eq_iff.2 hdirect
  rw [asProgrammed_read_iff_transfer, transfer_read]
  simp only [hblock, if_true, Option.some.injEq, ReadServed, hrefused, hdirect, false_or, true_and]
  rw [haddress]
  cases hauto : (s.dma.channels r.channel).autoinit with
  | false =>
    rw [programmed_last hn (by simp [hauto]), hbytes]
    simp only [Prod.mk.injEq, System.mk.injEq, and_true, DMA.advance, DMA.modify_inj,
      Bool.false_eq_true, if_false, hle, true_and]
    rw [blockBytes_div]
    simp only [Channel.advance, Channel.mk.injEq, true_and, and_true, sub_ofNat_succ,
      and_iff_right_iff_imp]
    intro hcount
    rw [ofNat_blockBytes hcount, hcount]
    rfl
  | true =>
    rcases Nat.lt_or_eq_of_le hle with hlt | heq
    · -- the code stops at the end of the block
      refine iff_of_false (fun heq => ?_) fun h => Nat.ne_of_gt hlt h.1
      obtain ⟨ms, hms, hnonempty⟩ := moves_programmed .read (s.afterBlock .read r) (r.rest s.dma)
      rw [programmed_again hn hauto hlt] at heq
      rw [← heq, System.afterBlock, hbytes] at hms
      have := hnonempty (by rw [← heq])
      simp at hms
      exact this hms
    · rw [programmed_complete hn hauto heq, System.afterBlock, hbytes]
      simp only [Prod.mk.injEq, System.mk.injEq, and_true, DMA.reload, DMA.modify_inj, if_true, heq,
        true_and]
      simp only [Channel.reload, Channel.mk.injEq, true_and, and_true]
      exact and_congr eq_comm eq_comm

/-- `do_read` does as programmed on just these requests. -/
theorem asProgrammed_read (s : System) (r : Request) : AsProgrammed .read s r ↔ ReadServed s r := by
  cases hblock : s.accepts r.start (s.dma.blockBytes r.channel)
    (s.dma.addressGet8bit r.channel) with
  | false =>
    rw [asProgrammed_read_iff_transfer, transfer_read]
    simp only [hblock, Bool.false_eq_true, if_false, Option.some.injEq]
    rw [eq_comm, programmed_eq_refused_iff]
    refine ⟨fun hn => .inl ⟨hblock, hn⟩, fun h => ?_⟩
    rcases le_len_of_readServed h with h | ⟨hdirect, hle⟩
    · exact h.2
    · exact (accepts_block hdirect hle).trans hblock
  | true =>
    by_cases h : s.dma.Direct r.channel ∧ s.dma.blockBytes r.channel ≤ r.len
    · exact asProgrammed_read_block h.1 h.2 hblock
    -- the first move is another one
    refine iff_of_false (fun hserved => h ?_) fun hserved => ?_
    · rw [asProgrammed_read_iff_transfer, transfer_read] at hserved
      simp only [hblock, if_true, Option.some.injEq] at hserved
      obtain ⟨data, hdata, hmove⟩ := System.moves_move .read hblock
      obtain ⟨-, hlen, haddress⟩ := first_move_eq .read (r := r) (by rw [← hserved]; exact hmove)
      have hpos := s.dma.blockBytes_pos r.channel
      rw [hdata] at hlen
      refine ⟨DMA.addressGet8bit_eq_iff.1 (haddress.resolve_left (by omega)), ?_⟩
      rw [hlen]
      exact Nat.min_le_left _ _
    · exact (le_len_of_readServed hserved).elim
        (fun hrefused => Bool.false_ne_true (hrefused.1.symm.trans hblock)) h

/-! ## `do_write` -/

/-- As much of a request as makes up whole units. -/
def Request.units (r : Request) : Nat :=
  r.len / DMA.bytesPerCount r.channel * DMA.bytesPerCount r.channel

/-- The bytes that `do_write` moves at first for a block that is not empty. -/
def Request.whole (r : Request) (d : DMA) : Nat :=
  if r.len < d.blockBytes r.channel then r.units else d.blockBytes r.channel

/-- The requests that `do_write` serves as programmed. At the end of a block with autoinit, the same
is asked of what is left. -/
def WriteServed (s : System) (r : Request) : Prop :=
  let c := s.dma.channels r.channel
  let block := s.dma.blockBytes r.channel
  if c.count = 0xFFFF then
    s.buffer.length < r.start ∨
      r.len = 0 ∧ (c.autoinit = true → c.addrInit = c.addr ∧ c.countInit = c.count)
  else
    s.Refused r (r.whole s.dma) ∨ r.len = 0 ∨ s.dma.Direct r.channel ∧
      if block < r.len ∧ c.autoinit = true then WriteServed (s.afterBlock .write r) (r.rest s.dma)
      else block ≤ r.len ∨ DMA.bytesPerCount r.channel ∣ r.len
termination_by r.len
decreasing_by exact Request.rest_len_lt (by omega)

theorem programmedCount_eq_zero (h : (d.channels r.channel).count = 0xFFFF) :
    r.programmedCount d = 0 := by
  rw [Request.programmedCount, h]
  rfl

theorem programmedCount_eq (h : (d.channels r.channel).count ≠ 0xFFFF) :
    r.programmedCount d = (d.channels r.channel).count.toNat + 1 := by
  rw [Request.programmedCount]
  bv_omega

theorem asProgrammed_write_iff_transfer : AsProgrammed .write s r ↔
      ∃ fuel, transfer .write (fuel + 1) s r = some (programmed .write s r) := by
  constructor
  · rintro ⟨fuel, h⟩
    cases fuel with
    | zero => cases h
    | succ fuel => exact ⟨fuel, h⟩
  · rintro ⟨fuel, h⟩
    exact ⟨_, h⟩

section
variable (hcount : (d.channels r.channel).count ≠ 0xFFFF)
include hcount

theorem unfinished_eq : r.unfinished d = decide (r.len < d.blockBytes r.channel) := by
  rw [Request.unfinished, programmedCount_eq hcount, ← DMA.blockBytes]

theorem wantMore_eq : r.wantMore d = decide (d.blockBytes r.channel < r.len) := by
  rw [Request.wantMore, programmedCount_eq hcount, ← DMA.blockBytes]

theorem readBytes_eq : r.readBytes d = r.whole d := by
  unfold Request.readBytes Request.readCount Request.whole
  rw [unfinished_eq hcount, programmedCount_eq hcount]
  simp only [decide_eq_true_eq]
  split <;> rfl

/-- The registers that `do_write` leaves. -/
theorem modify_written : d.modify r.channel (r.written d) =
      if (d.channels r.channel).autoinit = true ∧ d.blockBytes r.channel ≤ r.len then
        d.reload r.channel
      else d.advance r.channel (r.readBytes d / DMA.bytesPerCount r.channel) := by
  have hunits : r.readBytes d / DMA.bytesPerCount r.channel = r.readCount d :=
    Nat.mul_div_cancel _ (DMA.bytesPerCount_pos _)
  rw [hunits]
  split
  case isTrue h =>
    rw [DMA.reload, DMA.modify_inj, Request.written, unfinished_eq hcount,
      decide_eq_false (Nat.not_lt.2 h.2)]
    exact if_pos h.1
  case isFalse h =>
    rw [DMA.advance, DMA.modify_inj, Request.written, unfinished_eq hcount]
    refine if_neg fun hauto => h ?_
    rw [Bool.and_eq_true, Bool.not_eq_true', decide_eq_false_iff_not] at hauto
    exact ⟨hauto.2, Nat.le_of_not_lt hauto.1⟩

/-- What `do_write` goes on with. -/
theorem more_eq : r.more d =
      if d.blockBytes r.channel < r.len ∧ (d.channels r.channel).autoinit = true then
        some (r.rest d) else none := by
  unfold Request.more
  rw [wantMore_eq hcount]
  simp only [Bool.and_eq_true, decide_eq_true_eq]
  split
  case isTrue h =>
    have hbytes : r.readBytes d = r.bytes d := by
      rw [readBytes_eq hcount, Request.whole, if_neg (Nat.not_lt_of_gt h.1), Request.bytes,
        Nat.min_eq_right (Nat.le_of_lt h.1)]
    rw [Request.rest, hbytes]
  case isFalse => rfl

end

/-- `do_write` calls back at the end of its first block. -/
theorem transfer_write_last (fuel : Nat)
    (haccepts : s.accepts r.start (r.readBytes s.dma) (s.dma.addressGet8bit r.channel) = true)
    (hmore : r.more s.dma = none) :
    transfer .write (fuel + 1) s r =
      some ({ s.move .write r.start (r.readBytes s.dma) (s.dma.addressGet8bit r.channel) with
        dma := s.dma.modify r.channel (r.written s.dma) }, false) := by
  rw [transfer_write]
  simp [haccepts, hmore]

/-- A request that `do_write` refuses is served if it should be refused. -/
theorem asProgrammed_write_refused
    (hcode : s.accepts r.start (r.readBytes s.dma) (s.dma.addressGet8bit r.channel) = false) :
    AsProgrammed .write s r ↔
      s.accepts r.start (r.bytes s.dma) (s.dma.physicalAddress r.channel) = false := by
  rw [asProgrammed_write_iff_transfer, ← @programmed_eq_refused_iff .write]
  simp only [transfer_write, hcode, Bool.false_eq_true, if_false, exists_const, Option.some.injEq]
  exact eq_comm

/-- What a request that `do_write` accepts has to be for it to be served. -/
theorem first_block_eq (h : AsProgrammed .write s r)
    (hcode : s.accepts r.start (r.readBytes s.dma) (s.dma.addressGet8bit r.channel) = true) :
    s.accepts r.start (r.bytes s.dma) (s.dma.physicalAddress r.channel) = true ∧
      r.readBytes s.dma = r.bytes s.dma ∧ (r.bytes s.dma = 0 ∨ s.dma.Direct r.channel) := by
  obtain ⟨fuel, h⟩ := h
  obtain ⟨ms, hms, hfirst⟩ := moves_transfer_write h
  obtain ⟨data, ms', hdata, rfl⟩ := hfirst hcode
  obtain ⟨hn, hlen, haddress⟩ := first_move_eq .write hms
  exact ⟨hn, hdata.symm.trans hlen, haddress.imp_right DMA.addressGet8bit_eq_iff.1⟩

/-- Nothing is moved for a count of `0xFFFF`. -/
theorem readBytes_empty (hcount : (d.channels r.channel).count = 0xFFFF) : r.readBytes d = 0 := by
  have hunfinished : r.unfinished d = false := by
    rw [Request.unfinished, programmedCount_eq_zero hcount]
    simp
  rw [Request.readBytes, Request.readCount, hunfinished, programmedCount_eq_zero hcount]
  simp

/-- The registers that `do_write` leaves after no bytes at all. -/
theorem written_empty (hcount : (d.channels r.channel).count = 0xFFFF) (c : Channel) :
    r.written d c = if c.autoinit = true then c.reload else c := by
  have hunfinished : r.unfinished d = false := by
    rw [Request.unfinished, programmedCount_eq_zero hcount]
    simp
  have hzero : r.readCount d = 0 := by
    rw [Request.readCount, hunfinished, programmedCount_eq_zero hcount]
    simp
  rw [Request.written, hunfinished, hzero, BitVec.add_zero, BitVec.sub_zero]
  rfl

/-- What `do_write` makes of a count of `0xFFFF`: no bytes at all. -/
theorem asProgrammed_write_empty (hcount : (s.dma.channels r.channel).count = 0xFFFF) :
    AsProgrammed .write s r ↔ s.buffer.length < r.start ∨
      r.len = 0 ∧ ((s.dma.channels r.channel).autoinit = true →
        (s.dma.channels r.channel).addrInit = (s.dma.channels r.channel).addr ∧
        (s.dma.channels r.channel).countInit = (s.dma.channels r.channel).count) := by
  have hread := readBytes_empty hcount
  have hcode := System.accepts_zero (s := s) r.start (s.dma.addressGet8bit_lt r.channel)
  rw [← hread] at hcode
  rcases Nat.lt_or_ge s.buffer.length r.start with hlt | hge
  · rw [decide_eq_false (Nat.not_le.2 hlt)] at hcode
    refine iff_of_true ((asProgrammed_write_refused hcode).2 ?_) (.inl hlt)
    rw [Bool.eq_false_iff]
    intro h
    have := System.le_of_accepts h
    omega
  rw [decide_eq_true hge] at hcode
  rcases Nat.eq_zero_or_pos r.len with hzero | hpos
  · have hbytes : r.bytes s.dma = r.readBytes s.dma := by
      rw [hread, Request.bytes, hzero, Nat.zero_min]
    have hmore : r.more s.dma = none := by
      simp [Request.more, Request.wantMore, hzero]
    have hlast : r.len < s.dma.blockBytes r.channel := by
      rw [hzero]
      exact s.dma.blockBytes_pos r.channel
    have hn := System.accepts_zero (s := s) r.start (s.dma.physicalAddress_lt r.channel)
    rw [← hread, decide_eq_true hge, ← hbytes] at hn
    have hmove : s.move .write r.start 0 (s.dma.addressGet8bit r.channel) =
        s.move .write r.start 0 (s.dma.physicalAddress r.channel) :=
      System.move_write_congr (.inl rfl)
    rw [asProgrammed_write_iff_transfer, programmed_last hn fun _ => hlast, hbytes]
    simp only [transfer_write_last _ hcode hmore, hmove, exists_const, Option.some.injEq,
      Prod.mk.injEq, System.mk.injEq, and_true, DMA.advance, DMA.modify_inj, written_empty hcount,
      hread, Nat.zero_div, Channel.advance_zero, hzero, Nat.not_lt.2 hge, false_or, true_and]
    cases (s.dma.channels r.channel).autoinit with
    | false => simp
    | true => simp [Channel.reload, Channel.ext_iff]
  · refine iff_of_false (fun h => ?_) (by omega)
    have hlen := (first_block_eq h hcode).2.1
    have hblock := s.dma.blockBytes_pos r.channel
    rw [hread, Request.bytes] at hlen
    omega

section
variable (hcount : (s.dma.channels r.channel).count ≠ 0xFFFF)
include hcount

/-- The first block of `do_write` is the one that is programmed if it is whole. -/
theorem readBytes_of_whole (h : s.dma.blockBytes r.channel ≤ r.len ∨
    DMA.bytesPerCount r.channel ∣ r.len) : r.readBytes s.dma = r.bytes s.dma := by
  rw [readBytes_eq hcount, Request.whole, Request.bytes]
  split
  · next hlt =>
    rw [Nat.min_eq_left (Nat.le_of_lt hlt), Request.units,
      Nat.div_mul_cancel (h.resolve_left (Nat.not_le.2 hlt))]
  · next hge => exact (Nat.min_eq_right (Nat.le_of_not_lt hge)).symm

/-- The first block is whole if it is the one that is programmed. -/
theorem whole_of_readBytes (h : r.readBytes s.dma = r.bytes s.dma) :
    s.dma.blockBytes r.channel ≤ r.len ∨ DMA.bytesPerCount r.channel ∣ r.len := by
  rcases Nat.lt_or_ge r.len (s.dma.blockBytes r.channel) with hlt | hge
  · rw [readBytes_eq hcount, Request.whole, if_pos hlt, Request.bytes,
      Nat.min_eq_left (Nat.le_of_lt hlt)] at h
    exact .inr ⟨_, (h.symm.trans (Nat.mul_comm ..))⟩
  · exact .inl hge

/-- The end of the transfer with the first block. -/
theorem asProgrammed_write_block
    (hcode : s.accepts r.start (r.readBytes s.dma) (s.dma.addressGet8bit r.channel) = true)
    (hn : s.accepts r.start (r.bytes s.dma) (s.dma.physicalAddress r.channel) = true)
    (hbytes : r.readBytes s.dma = r.bytes s.dma)
    (haddress : r.bytes s.dma = 0 ∨ s.dma.Direct r.channel)
    (hlast : ¬ (s.dma.blockBytes r.channel < r.len ∧
      (s.dma.channels r.channel).autoinit = true)) : AsProgrammed .write s r := by
  refine ⟨1, ?_⟩
  have hmore : r.more s.dma = none := by
    rw [more_eq hcount, if_neg hlast]
  rw [transfer_write_last _ hcode hmore, modify_written hcount, hbytes,
    System.move_write_congr (haddress.imp_right DMA.addressGet8bit_eq_iff.2)]
  cases hauto : (s.dma.channels r.channel).autoinit with
  | false => rw [if_neg (by simp), programmed_last hn (by simp [hauto])]
  | true =>
    rw [hauto, and_iff_left rfl, Nat.not_lt] at hlast
    rcases Nat.lt_or_eq_of_le hlast with hlt | heq
    · rw [if_neg fun h => Nat.not_le.2 hlt h.2, programmed_last hn fun _ => hlt]
    · rw [if_pos ⟨rfl, Nat.le_of_eq heq.symm⟩, programmed_complete hn hauto heq.symm]
      rfl

/-- With autoinit the code goes on where the registers say. -/
theorem asProgrammed_write_again (hlt : s.dma.blockBytes r.channel < r.len)
    (hauto : (s.dma.channels r.channel).autoinit = true) (hdirect : s.dma.Direct r.channel)
    (hn : s.accepts r.start (r.bytes s.dma) (s.dma.physicalAddress r.channel) = true) :
    AsProgrammed .write s r ↔ AsProgrammed .write (s.afterBlock .write r) (r.rest s.dma) := by
  have hread := readBytes_of_whole hcount (.inl (Nat.le_of_lt hlt))
  have htransfer : ∀ fuel, transfer .write (fuel + 1) s r =
      transfer .write fuel (s.afterBlock .write r) (r.rest s.dma) := by
    intro fuel
    have hmore : r.more s.dma = some (r.rest s.dma) := by
      rw [more_eq hcount, if_pos ⟨hlt, hauto⟩]
    rw [transfer_write]
    dsimp only
    rw [hread, DMA.addressGet8bit_eq_iff.2 hdirect, hn, if_pos rfl, hmore, modify_written hcount,
      if_pos ⟨hauto, Nat.le_of_lt hlt⟩]
    rfl
  rw [asProgrammed_write_iff_transfer, programmed_again hn hauto hlt]
  simp only [htransfer]
  rfl

end

/-- `do_write` does as programmed on just these requests. -/
theorem asProgrammed_write (s : System) (r : Request) :
    AsProgrammed .write s r ↔ WriteServed s r := by
  induction s, r using programmed_rec .write with
  | h s r ih =>
    rw [WriteServed]
    by_cases hcount : (s.dma.channels r.channel).count = 0xFFFF
    · rw [asProgrammed_write_empty hcount, if_pos hcount]
    rw [if_neg hcount, ← readBytes_eq hcount]
    have hwhole := readBytes_of_whole hcount
    -- the two range checks are the same on a whole first block at the same address
    have hsame : (r.bytes s.dma = 0 ∨ s.dma.Direct r.channel) →
        r.readBytes s.dma = r.bytes s.dma →
        s.accepts r.start (r.bytes s.dma) (s.dma.physicalAddress r.channel) =
          s.accepts r.start (r.readBytes s.dma) (s.dma.addressGet8bit r.channel) := by
      rintro (hzero | hdirect) hbytes
      · rw [hbytes, hzero, System.accepts_zero _ (DMA.physicalAddress_lt ..),
          System.accepts_zero _ (DMA.addressGet8bit_lt ..)]
      · rw [hbytes, DMA.addressGet8bit_eq_iff.2 hdirect]
    have hzero : r.len = 0 → r.bytes s.dma = 0 := by
      intro h
      rw [Request.bytes, h, Nat.zero_min]
    have hfirst : (r.len = 0 ∨ s.dma.Direct r.channel ∧
          if s.dma.blockBytes r.channel < r.len ∧ (s.dma.channels r.channel).autoinit = true then
            WriteServed (s.afterBlock .write r) (r.rest s.dma)
          else s.dma.blockBytes r.channel ≤ r.len ∨ DMA.bytesPerCount r.channel ∣ r.len) →
        (r.bytes s.dma = 0 ∨ s.dma.Direct r.channel) ∧ r.readBytes s.dma = r.bytes s.dma := by
      rintro (h | ⟨hdirect, h⟩)
      · exact ⟨.inl (hzero h), hwhole (.inr (h ▸ Nat.dvd_zero _))⟩
      · refine ⟨.inr hdirect, hwhole ?_⟩
        split at h
        · next hmore => exact .inl (Nat.le_of_lt hmore.1)
        · exact h
    cases hcode : s.accepts r.start (r.readBytes s.dma) (s.dma.addressGet8bit r.channel) with
    | false =>
      rw [asProgrammed_write_refused hcode]
      refine ⟨fun hn => .inl ⟨hcode, hn⟩, fun h => ?_⟩
      rcases h with h | h
      · exact h.2
      · exact (hsame (hfirst h).1 (hfirst h).2).trans hcode
    | true =>
      have hrefused : ¬ s.Refused r (r.readBytes s.dma) := fun h =>
        Bool.false_ne_true (h.1.symm.trans hcode)
      simp only [hrefused, false_or]
      constructor
      · intro h
        obtain ⟨hn, hbytes, haddress⟩ := first_block_eq h hcode
        rcases haddress with hempty | hdirect
        · refine .inl ?_
          have := s.dma.blockBytes_pos r.channel
          rw [Request.bytes] at hempty
          omega
        refine .inr ⟨hdirect, ?_⟩
        split
        · next hmore =>
          rw [← ih hmore.1, ← asProgrammed_write_again hcount hmore.1 hmore.2 hdirect hn]
          exact h
        · exact whole_of_readBytes hcount hbytes
      · intro h
        obtain ⟨haddress, hbytes⟩ := hfirst h
        have hn := (hsame haddress hbytes).trans hcode
        by_cases hmore : s.dma.blockBytes r.channel < r.len ∧
            (s.dma.channels r.channel).autoinit = true
        · have hserved := h.resolve_left (by omega)
          rw [if_pos hmore] at hserved
          rw [asProgrammed_write_again hcount hmore.1 hmore.2 hserved.1 hn, ih hmore.1]
          exact hserved.2
        · exact asProgrammed_write_block hcount hcode hn hbytes haddress hmore

/-! ## Both directions -/

/-- The requests that are served as programmed. -/
def Served : Direction → System → Request → Prop
  | .read => ReadServed
  | .write => WriteServed

/-- A transfer does as programmed on just the requests that are `Served`. -/
theorem asProgrammed_iff_served (dir : Direction) (s : System) (r : Request) :
    AsProgrammed dir s r ↔ Served dir s r := by
  cases dir with
  | read => exact asProgrammed_read s r
  | write => exact asProgrammed_write s r

/-- A channel programmed to `count + 1` units at address 0, over mapped memory and a buffer. -/
def sample (count : BitVec 16) (length : Nat) : System where
  dma := ⟨fun _ => ⟨0, 0, 0, 0, count, count, 0⟩, false, 0⟩
  memory := ⟨fun _ => true, fun _ => 0⟩
  buffer := List.replicate length 0
  moves := []

theorem accepts_sample {count : BitVec 16} {length n : Nat} (hn : n ≤ length) (hn' : n ≤ 0x20000) :
    (sample count length).accepts 0 n 0 = true := by
  simp only [System.accepts, sample, length_replicate, Memory.validatePhysicalRange,
    Bool.and_eq_true, decide_eq_true_eq, Memory.resolves_iff]
  exact ⟨⟨by omega, by omega⟩, ⟨by omega, by omega⟩, fun _ _ _ => trivial⟩

/-- A sector read into memory through channel 2 leaves the count where it was; 64 KiB programmed
for a write through the same channel are not moved. -/
theorem sector_keeps_count_and_full_block_is_empty :
    ¬ AsProgrammed .read (sample 511 512) ⟨0, 512, 2⟩ ∧
      ¬ AsProgrammed .write (sample 0xFFFF 65536) ⟨0, 65536, 2⟩ := by
  constructor
  · rw [asProgrammed_read]
    rintro (⟨h, -⟩ | ⟨-, h⟩)
    · rw [show (sample 511 512).dma.blockBytes 2 = 512 from rfl,
        show (sample 511 512).dma.addressGet8bit 2 = 0 from rfl,
        accepts_sample (by omega) (by omega)] at h
      cases h
    · exact absurd h.2 (by decide)
  · have hcount : ((sample 0xFFFF 65536).dma.channels (Request.channel ⟨0, 65536, 2⟩)).count =
        0xFFFF := rfl
    rw [asProgrammed_write, WriteServed, if_pos hcount]
    rintro (h | h)
    · exact absurd h (Nat.not_lt_zero _)
    · exact absurd h.1 (by decide)

end V86.Dma
