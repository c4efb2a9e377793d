import V86.State.Stream

/-!
# A restore that fails changes nothing

The second pass of `restoreStateStream` reads the same records as the first one, and the bitmaps
have as many pages as the records hold, so that it cannot fail: `writeRecords_eq` says what it does
instead. Thus every exception is one of the first pass.
-/

namespace V86.State

theorem ceilDiv_mul {d : Nat} (hd : 0 < d) (n : Nat) : ceilDiv (d * n) d = n := by
  unfold ceilDiv
  rw [Nat.add_sub_assoc hd, Nat.mul_add_div hd, Nat.div_eq_of_lt (by omega), Nat.add_zero]

theorem ceilDiv_pred {n x d : Nat} (h : n + 1 = ceilDiv x d) : n = ceilDiv (x - d) d := by
  unfold ceilDiv at h ⊢
  rcases Nat.eq_zero_or_pos d with rfl | hd
  · simp at h
  rcases Nat.le_total d x with hx | hx
  · rw [show x + d - 1 = (x - d + d - 1) + d by omega, Nat.add_div_right _ hd] at h
    omega
  · have htwo : (x + d - 1) / d < 2 := Nat.div_lt_of_lt_mul (by omega)
    rw [Nat.div_eq_of_lt (by omega)]
    omega

/-! ## Pages of bitmaps -/

/-- The pages of a bitmap, from one page on. -/
def setPages (bitmap : List Byte) (page : Nat) : List Nat :=
  (List.range' page (8 * bitmap.length - page)).filter (bitmapBit bitmap)

section
variable {bitmap : List Byte} {page q : Nat} {rest : List Nat}

theorem setPages_of_lt (h : page < 8 * bitmap.length) : setPages bitmap page =
    if bitmapBit bitmap page then page :: setPages bitmap (page + 1)
    else setPages bitmap (page + 1) := by
  unfold setPages
  rw [show 8 * bitmap.length - page = (8 * bitmap.length - (page + 1)) + 1 by omega,
    List.range'_succ, List.filter_cons]

theorem setPages_of_ge (h : 8 * bitmap.length ≤ page) : setPages bitmap page = [] := by
  unfold setPages
  rw [show 8 * bitmap.length - page = 0 by omega]
  rfl

/-- The scan finds the first of the pages that are left. -/
theorem scan_eq (h : setPages bitmap page = q :: rest) : scan bitmap page = .ok q := by
  have hfind : (List.range' page (8 * bitmap.length - page)).find? (bitmapBit bitmap) = some q := by
    rw [← List.head?_filter]
    exact congrArg List.head? h
  rw [scan, hfind]

/-- The pages after the first one. -/
theorem setPages_tail (h : setPages bitmap page = q :: rest) : setPages bitmap (q + 1) = rest := by
  induction hn : 8 * bitmap.length - page generalizing page with
  | zero =>
    rw [setPages_of_ge (by omega)] at h
    cases h
  | succ n ih =>
    rw [setPages_of_lt (by omega)] at h
    split at h
    · obtain ⟨rfl, htail⟩ := List.cons.inj h
      exact htail
    · exact ih h (by omega)

theorem mem_setPages : q ∈ setPages bitmap page ↔ page ≤ q ∧ bitmapBit bitmap q = true := by
  unfold setPages
  rw [List.mem_filter, List.mem_range'_1]
  constructor
  · exact fun h => ⟨h.1.1, h.2⟩
  · rintro ⟨hle, hbit⟩
    refine ⟨⟨hle, ?_⟩, hbit⟩
    -- the bits beyond the bitmap are not set
    by_cases hq : q < 8 * bitmap.length
    · omega
    · have hnone : bitmap[q / 8]? = none := List.getElem?_eq_none (by omega)
      rw [bitmapBit, List.getD_eq_getElem?_getD, hnone] at hbit
      simp at hbit

theorem countPages_ok {limit count : Nat} {msg : String}
    (h : countPages bitmap limit msg = .ok count) :
    count = (setPages bitmap 0).length ∧ ∀ q ∈ setPages bitmap 0, q < limit := by
  have hinv : count = ((List.range (8 * bitmap.length)).filter (bitmapBit bitmap)).length ∧
      ∀ q ∈ (List.range (8 * bitmap.length)).filter (bitmapBit bitmap), q < limit := by
    refine Exec.foldlM_ok (I := fun done c => c = (done.filter (bitmapBit bitmap)).length ∧
      ∀ q ∈ done.filter (bitmapBit bitmap), q < limit) ?_ ⟨rfl, nofun⟩ h
    rintro done page post c c' _ ⟨hc, hlt⟩ hstep
    rw [List.filter_append]
    split at hstep
    · next hbit =>
      split at hstep
      · cases hstep
      · next hpage =>
        cases hstep
        rw [List.filter_cons_of_pos hbit, List.filter_nil, List.length_append, ← hc]
        refine ⟨rfl, fun q hq => ?_⟩
        rcases List.mem_append.1 hq with hq | hq
        · exact hlt q hq
        · rw [List.mem_singleton.1 hq]
          omega
    · next hbit =>
      cases hstep
      rw [List.filter_cons_of_neg hbit, List.filter_nil, List.append_nil]
      exact ⟨hc, hlt⟩
  rw [setPages, Nat.sub_zero, ← List.range_eq_range']
  exact hinv

end

/-! ## Writing the pages of records -/

section
variable {σ : Type} {b : Builtins} {dev : Devices σ} {src : Source} {l : Layout}

@[simp] theorem check_ok {α : Type} (a : α) : (check (.ok a) : Restore σ α) = pure a := rfl

/-- The pages of a record. -/
def View.pages (v : View) (n part : Nat) : List (List Byte) :=
  (List.range n).map fun i => (v.bytes.drop (16 + (part + 4096 * i))).take 4096

theorem View.pages_succ (v : View) (n part : Nat) : v.pages (n + 1) part =
    (v.bytes.drop (16 + part)).take 4096 :: v.pages n (part + 4096) := by
  unfold View.pages
  rw [List.range_succ_eq_map, List.map_cons, List.map_map]
  refine congrArg₂ List.cons rfl (List.map_congr_left fun i _ => ?_)
  simp only [Function.comp_apply]
  rw [show 16 + (part + 4096 * (i + 1)) = 16 + (part + 4096 + 4096 * i) by omega]

/-- A way to write pages that cannot fail on the pages that satisfy `P`, while `I` holds. -/
structure Puts (put : Nat → List Byte → Restore σ Unit) (effect : Nat → List Byte → Cpu σ → Cpu σ)
    (P : Nat → Prop) (I : Cpu σ → Prop) : Prop where
  eq : ∀ {page : Nat} {bytes : List Byte} {cpu : Cpu σ}, P page → bytes.length ≤ 4096 → I cpu →
    put page bytes cpu = .ok () (effect page bytes cpu)
  keeps : ∀ {page : Nat} {bytes : List Byte} {cpu : Cpu σ}, I cpu → I (effect page bytes cpu)

/-- The effect of writing several pages. -/
def writeAll (effect : Nat → List Byte → Cpu σ → Cpu σ) (pages : List (Nat × List Byte))
    (cpu : Cpu σ) : Cpu σ :=
  pages.foldl (fun cpu p => effect p.1 p.2 cpu) cpu

variable {put : Nat → List Byte → Restore σ Unit} {effect : Nat → List Byte → Cpu σ → Cpu σ}
  {P : Nat → Prop} {I : Cpu σ → Prop} {bitmap : List Byte}

theorem Puts.writeAll (h : Puts put effect P I) (pages : List (Nat × List Byte)) {cpu : Cpu σ}
    (hI : I cpu) : I (writeAll effect pages cpu) := by
  induction pages generalizing cpu with
  | nil => exact hI
  | cons p pages ih => exact ih (h.keeps hI)

theorem writePages_eq (hput : Puts put effect P I) (hP : ∀ q, bitmapBit bitmap q = true → P q)
    (v : View) {n : Nat} (part : Nat) {page : Nat} {cpu : Cpu σ} (hI : I cpu)
    (hn : n ≤ (setPages bitmap page).length) : ∃ page',
      writePages put bitmap v n part page cpu = .ok page'
        (writeAll effect ((setPages bitmap page).zip (v.pages n part)) cpu) ∧
      setPages bitmap page' = (setPages bitmap page).drop n := by
  induction n generalizing part page cpu with
  | zero =>
    refine ⟨page, ?_, rfl⟩
    simp only [View.pages, List.range_zero, List.map_nil, List.zip_nil_right]
    rfl
  | succ n ih =>
    cases hset : setPages bitmap page with
    | nil =>
      rw [hset] at hn
      cases hn
    | cons q rest =>
      have hbit : bitmapBit bitmap q = true := by
        have hq : q ∈ setPages bitmap page := hset ▸ List.mem_cons_self
        exact (mem_setPages.1 hq).2
      have hrest := setPages_tail hset
      have hstep := hput.eq (hP q hbit)
        (List.length_take_le 4096 (v.bytes.drop (16 + part))) hI
      rw [hset] at hn
      have hI' : I (effect q ((v.bytes.drop (16 + part)).take 4096) cpu) := hput.keeps hI
      obtain ⟨page', heq, hset'⟩ := @ih (part + 4096) (q + 1) _ hI'
        (hrest ▸ Nat.le_of_succ_le_succ hn)
      refine ⟨page', ?_, ?_⟩
      · unfold writePages
        rw [scan_eq hset, check_ok, View.pages_succ, List.zip_cons_cons]
        rw [hrest] at heq
        change EStateM.bind _ _ _ = _
        simp only [EStateM.bind, pure, EStateM.pure, bind, hstep]
        exact heq
      · rw [hset', hrest]
        rfl

theorem zip_append_right {α β : Type} : ∀ (xs : List α) (ys zs : List β),
    xs.zip (ys ++ zs) = xs.zip ys ++ (xs.drop ys.length).zip zs
  | xs, [], zs => by simp
  | [], y :: ys, zs => by simp
  | x :: xs, y :: ys, zs => by
    simp only [List.cons_append, List.zip_cons_cons, List.length_cons, List.drop_succ_cons]
    rw [zip_append_right xs ys zs]

theorem readRecord_length {kind id offset length position : Nat} {v : View}
    (h : readRecord src kind id offset length position = .ok v) :
    v.bytes.length = recordSize + length := by
  unfold readRecord streamRead at h
  simp only [Exec.bind_eq_ok, Exec.require_eq_ok, Exec.okOr_eq_ok] at h
  obtain ⟨w, ⟨_, _, w', _, _, hlen, hw⟩, _, _, hv⟩ := h
  cases hw
  cases hv
  simpa using hlen

theorem readRecords_succ {size n offset position : Nat} {vs : List View}
    (h : readRecords src l size (n + 1) offset position = .ok vs) :
    ∃ v ws, vs = v :: ws ∧ readRecord src l.kind (l.id offset) (l.offset offset)
      (min l.chunk (size - offset)) position = .ok v ∧ readRecords src l size n (offset + l.chunk)
        (position + recordSize + min l.chunk (size - offset)) = .ok ws := by
  unfold readRecords at h
  simp only [Exec.bind_eq_ok] at h
  obtain ⟨v, hv, ws, hws, hvs⟩ := h
  cases hvs
  exact ⟨v, ws, rfl, hv, hws⟩

/-- The pages of records. -/
def recordPages (vs : List View) : List (List Byte) :=
  vs.flatMap fun v => v.pages (ceilDiv (v.bytes.length - recordSize) 4096) 0

/-- The second pass over records that the first one has read: one page of the bitmap for each page
of the records. -/
theorem writeRecords_eq (hput : Puts put effect P I) (hP : ∀ q, bitmapBit bitmap q = true → P q)
    {k : Nat} (hk : 0 < k) (hchunk : l.chunk = 4096 * k) (rest : List Nat)
    {size n offset position page : Nat} {vs : List View} {cpu : Cpu σ}
    (hread : readRecords src l size n offset position = .ok vs)
    (hn : n = ceilDiv (size - offset) l.chunk)
    (hset : 4096 * (setPages bitmap page).length = size - offset) (hI : I cpu) :
    writeRecords put src l bitmap size n offset position page (vs.map View.checksum ++ rest) cpu =
      .ok () (writeAll effect ((setPages bitmap page).zip (recordPages vs)) cpu) := by
  induction n generalizing offset position page vs cpu with
  | zero =>
    have hvs : vs = [] := by
      cases hread
      rfl
    subst hvs
    simp only [recordPages, List.flatMap_nil, List.zip_nil_right]
    rfl
  | succ n ih =>
    obtain ⟨v, ws, rfl, hv, hws⟩ := readRecords_succ hread
    have hlen := readRecord_length hv
    -- a record holds whole pages
    have hmin : ceilDiv (min l.chunk (size - offset)) 4096 =
          min k (setPages bitmap page).length ∧
        n = ceilDiv (size - (offset + l.chunk)) l.chunk ∧
        4096 * ((setPages bitmap page).length - min k (setPages bitmap page).length) =
          size - (offset + l.chunk) := by
      rw [← hset, hchunk] at hn
      rw [Nat.sub_add_eq, ← hset, hchunk]
      generalize (setPages bitmap page).length = t at hn ⊢
      refine ⟨?_, ceilDiv_pred hn, by omega⟩
      rcases Nat.le_total k t with h | h
      · rw [Nat.min_eq_left h, Nat.min_eq_left (by omega), ceilDiv_mul (by decide)]
      · rw [Nat.min_eq_right h, Nat.min_eq_right (by omega), ceilDiv_mul (by decide)]
    obtain ⟨hceil, hn', hset'⟩ := hmin
    have hlength : v.bytes.length - recordSize = min l.chunk (size - offset) := by
      rw [hlen]
      omega
    obtain ⟨page', heq, hpage'⟩ := writePages_eq hput hP v 0 hI
      (Nat.min_le_right k (setPages bitmap page).length)
    have hpages : recordPages (v :: ws) =
        v.pages (min k (setPages bitmap page).length) 0 ++ recordPages ws := by
      rw [recordPages, List.flatMap_cons, hlength, hceil]
      rfl
    have hI' := hput.writeAll ((setPages bitmap page).zip
      (v.pages (min k (setPages bitmap page).length) 0)) hI
    rw [← List.length_drop, ← hpage'] at hset'
    have hrest := ih hws hn' hset' hI'
    have hsum : v.checksum = getUint32 v.bytes (16 + min l.chunk (size - offset)) := by
      rw [View.checksum, hlen]
      congr 1
      unfold recordSize
      omega
    unfold writeRecords
    dsimp only
    rw [hv, check_ok]
    change EStateM.bind _ _ _ = _
    simp only [EStateM.bind, pure, EStateM.pure, bind, List.map_cons, List.cons_append,
      List.head?_cons, hsum, decide_true, Exec.require, if_true, check_ok, hceil, heq, List.tail_cons]
    rw [hrest, hpages, zip_append_right, hpage']
    unfold writeAll
    rw [List.foldl_append]
    congr 4
    simp [View.pages]

end

/-! ## The first pass -/

section
variable {σ : Type} {b : Builtins} {dev : Devices σ} {src : Source} {cpu : Cpu σ} {c : Checked}

/-- What the first pass has checked for the second one. -/
structure Checked.Sound (c : Checked) (dev : Devices σ) (cpu : Cpu σ) (src : Source) : Prop where
  memorySize : c.memorySize ≤ cpu.mem8.length
  ramPages : 4096 * (setPages c.bitmap 0).length = c.packedSize
  ramLimit : ∀ q, bitmapBit c.bitmap q = true → q < c.memorySize / 4096
  extendedPages : 4096 * (setPages c.extendedBitmap 0).length = c.extendedSize
  extendedLimit : ∀ q, bitmapBit c.extendedBitmap q = true → q < cpu.extendedPages
  validated : dev.validateState c.state = true
  records : ∃ ram extended,
    readRecords src .ram c.packedSize (Layout.ram.count c.packedSize) 0 c.ramStart = .ok ram ∧
    readRecords src .extended c.extendedSize (Layout.extended.count c.extendedSize) 0
      (c.ramStart + Layout.ram.length c.packedSize) = .ok extended ∧
    ram.length = Layout.ram.count c.packedSize ∧
    c.checksums = ram.map View.checksum ++ extended.map View.checksum

theorem ramBitmap_ok {state : Value} {memorySize packedSize : Nat} {bitmap : List Byte}
    (h : ramBitmap state memorySize packedSize = .ok bitmap) :
    4096 * (setPages bitmap 0).length = packedSize ∧
      ∀ q, bitmapBit bitmap q = true → q < memorySize / 4096 := by
  unfold ramBitmap at h
  split at h
  · simp only [Exec.bind_eq_ok, Exec.require_eq_ok, decide_eq_true_eq] at h
    obtain ⟨_, _, count, hcount, _, hpacked, hbitmap⟩ := h
    cases hbitmap
    obtain ⟨hlen, hlimit⟩ := countPages_ok hcount
    rw [Nat.mul_comm, ← hlen]
    exact ⟨hpacked, fun q hq => hlimit q (mem_setPages.2 ⟨Nat.zero_le q, hq⟩)⟩
  · cases h

theorem extendedBitmap_ok {state : Value} {packed pages : Nat} {bitmap : List Byte}
    (h : extendedBitmap state packed pages = .ok bitmap) :
    (setPages bitmap 0).length = packed ∧ ∀ q, bitmapBit bitmap q = true → q < pages := by
  unfold extendedBitmap at h
  dsimp only at h
  split at h
  · split at h
    · simp only [Exec.bind_eq_ok, Exec.require_eq_ok, decide_eq_true_eq] at h
      obtain ⟨_, _, count, hcount, _, hpacked, hbitmap⟩ := h
      cases hbitmap
      obtain ⟨hlen, hlimit⟩ := countPages_ok hcount
      rw [← hlen]
      exact ⟨hpacked, fun q hq => hlimit q (mem_setPages.2 ⟨Nat.zero_le q, hq⟩)⟩
    · cases h
  · next hno =>
    cases h
    have hpacked : packed = 0 := by
      by_contra hne
      exact hno (.inl hne)
    refine ⟨by rw [hpacked]; rfl, fun q hq => ?_⟩
    simp [bitmapBit] at hq

theorem readRecords_length {l : Layout} {size n offset position : Nat} {vs : List View}
    (h : readRecords src l size n offset position = .ok vs) : vs.length = n := by
  induction n generalizing offset position vs with
  | zero =>
    cases h
    rfl
  | succ n ih =>
    obtain ⟨v, ws, rfl, _, hws⟩ := readRecords_succ h
    rw [List.length_cons, ih hws]

theorem checkStream_sound (h : checkStream b dev cpu src = .ok c) : c.Sound dev cpu src := by
  unfold checkStream at h
  simp only [Exec.bind_eq_ok, Exec.require_eq_ok, Bool.and_eq_true, decide_eq_true_eq] at h
  obtain ⟨_, _, header, _, _, _, _, hsizes, manifest, _, _, _, info, _, _, _, lengths, _, _, _,
    packed, _, _, _, _, _, _, _, ⟨buffers, ramStart⟩, _, state, _, bitmap, hbitmap, extBitmap,
    hext, _, hvalid, ram, hram, extended, hextended, hc⟩ := h
  cases hc
  obtain ⟨hcount, hlimit⟩ := ramBitmap_ok hbitmap
  obtain ⟨hextCount, hextLimit⟩ := extendedBitmap_ok hext
  exact {
    memorySize := hsizes.1.1.1.2
    ramPages := hcount
    ramLimit := hlimit
    extendedPages := by rw [hextCount, Nat.mul_comm]
    extendedLimit := hextLimit
    validated := hvalid
    records := ⟨ram, extended, hram, hextended, readRecords_length hram, rfl⟩ }

/-! ## The second pass -/

/-- The machine after a write. -/
def Cpu.written (cpu : Cpu σ) : Cpu σ := { cpu with writes := cpu.writes + 1 }

/-- A page of RAM is written. -/
def ramEffect (page : Nat) (bytes : List Byte) (cpu : Cpu σ) : Cpu σ :=
  Cpu.written { cpu with mem8 := cpu.mem8.setPage page bytes }

/-- A page of extended RAM is written. -/
def extendedEffect (page : Nat) (bytes : List Byte) (cpu : Cpu σ) : Cpu σ :=
  Cpu.written { cpu with extendedStore := cpu.extendedStore.map (·.write page bytes) }

/-- Extended RAM is cleared. -/
def clearEffect (cpu : Cpu σ) : Cpu σ :=
  match cpu.extendedStore with
  | none => cpu
  | some store => Cpu.written { cpu with extendedStore := some store.clear }

theorem bind_of_ok {α β : Type} {x : Restore σ α} {f : α → Restore σ β} {a : α}
    {cpu cpu' : Cpu σ} (h : x cpu = .ok a cpu') : (x >>= f) cpu = f a cpu' := by
  change EStateM.bind x f cpu = _
  rw [EStateM.bind, h]

theorem get_eq (cpu : Cpu σ) : (get : Restore σ (Cpu σ)) cpu = .ok cpu cpu := rfl

theorem pure_eq {α : Type} (a : α) (cpu : Cpu σ) : (pure a : Restore σ α) cpu = .ok a cpu := rfl

theorem write_eq (f : Cpu σ → Cpu σ) (cpu : Cpu σ) :
    write f cpu = .ok () { f cpu with writes := cpu.writes + 1 } := rfl

theorem Cpu.extendedPages_eq (cpu : Cpu σ) :
    cpu.extendedPages = (cpu.extendedStore.map (·.pages)).getD 0 := by
  unfold Cpu.extendedPages
  cases cpu.extendedStore <;> rfl

theorem clearEffect_extendedPages (cpu : Cpu σ) :
    (clearEffect cpu).extendedPages = cpu.extendedPages := by
  rw [Cpu.extendedPages_eq, Cpu.extendedPages_eq, clearEffect]
  split
  · rfl
  · next store hstore =>
    rw [hstore]
    rfl

theorem writeAll_ram_extendedStore (pages : List (Nat × List Byte)) (cpu : Cpu σ) :
    (writeAll ramEffect pages cpu).extendedStore = cpu.extendedStore := by
  induction pages generalizing cpu with
  | nil => rfl
  | cons p pages ih => exact ih _

theorem clearExtendedMemory_eq (cpu : Cpu σ) :
    clearExtendedMemory cpu = .ok () (clearEffect cpu) := by
  unfold clearExtendedMemory clearEffect
  refine (bind_of_ok (get_eq cpu)).trans ?_
  cases cpu.extendedStore <;> rfl

theorem puts_ram (n : Nat) : Puts (σ := σ) setRam ramEffect (fun page => page * 4096 + 4096 ≤ n)
    (fun cpu => cpu.mem8.length = n) := by
  refine ⟨fun {page bytes cpu} hpage hbytes hcpu => ?_, fun h => h⟩
  have hfits : page * 4096 + bytes.length ≤ cpu.mem8.length := by
    rw [hcpu]
    omega
  unfold setRam
  refine (bind_of_ok (get_eq cpu)).trans ?_
  rw [if_pos hfits]
  rfl

theorem puts_extended (n : Nat) : Puts (σ := σ) setExtended extendedEffect (fun page => page < n)
    (fun cpu => cpu.extendedPages = n) := by
  constructor
  · intro page bytes cpu hpage _ hcpu
    rw [Cpu.extendedPages_eq] at hcpu
    unfold setExtended
    refine (bind_of_ok (get_eq cpu)).trans ?_
    cases hstore : cpu.extendedStore with
    | none =>
      rw [hstore] at hcpu
      exact absurd (Nat.lt_of_lt_of_eq hpage hcpu.symm) (Nat.not_lt_zero page)
    | some store =>
      rw [hstore] at hcpu
      have hlt : page < store.pages := Nat.lt_of_lt_of_eq hpage hcpu.symm
      simp only [if_pos hlt, extendedEffect, hstore, Option.map_some]
      rfl
  · intro page bytes cpu hcpu
    rw [Cpu.extendedPages_eq] at hcpu ⊢
    rw [← hcpu, extendedEffect, Cpu.written]
    cases cpu.extendedStore <;> rfl

/-- The machine after the pages of RAM and of extended RAM are written. -/
def Checked.restored (c : Checked) (ram extended : List View) (cpu : Cpu σ) : Cpu σ :=
  writeAll extendedEffect ((setPages c.extendedBitmap 0).zip (recordPages extended))
    (clearEffect (writeAll ramEffect ((setPages c.bitmap 0).zip (recordPages ram))
      (Cpu.written { cpu with mem8 := cpu.mem8.zero c.memorySize })))

/-- A snapshot that passes the first pass is restored. -/
theorem restoreStateStream_eq (hc : checkStream b dev cpu src = .ok c) : ∃ ram extended,
    readRecords src .ram c.packedSize (Layout.ram.count c.packedSize) 0 c.ramStart = .ok ram ∧
    readRecords src .extended c.extendedSize (Layout.extended.count c.extendedSize) 0
      (c.ramStart + Layout.ram.length c.packedSize) = .ok extended ∧
    restoreStateStream b dev src cpu =
      .ok (dev.setState c.state (c.restored ram extended cpu).state).1
        (Cpu.written { c.restored ram extended cpu with
          state := (dev.setState c.state (c.restored ram extended cpu).state).2 }) := by
  have hs := checkStream_sound hc
  obtain ⟨ram, extended, hram, hext, hlen, hsums⟩ := hs.records
  refine ⟨ram, extended, hram, hext, ?_⟩
  have hchunk : ramChunk = 4096 * 255 := rfl
  have hlimit : ∀ q, bitmapBit c.bitmap q = true → q * 4096 + 4096 ≤ cpu.mem8.length := by
    intro q hq
    have := hs.ramLimit q hq
    have := hs.memorySize
    omega
  have hlength : (Cpu.written { cpu with mem8 := cpu.mem8.zero c.memorySize }).mem8.length =
      cpu.mem8.length := rfl
  have h1 := writeRecords_eq (puts_ram cpu.mem8.length) hlimit (by decide) hchunk
    (extended.map View.checksum) hram rfl hs.ramPages hlength
  have hpages : (clearEffect (writeAll ramEffect ((setPages c.bitmap 0).zip (recordPages ram))
      (Cpu.written { cpu with mem8 := cpu.mem8.zero c.memorySize }))).extendedPages =
      cpu.extendedPages := by
    rw [clearEffect_extendedPages, Cpu.extendedPages_eq, writeAll_ram_extendedStore,
      Cpu.extendedPages_eq]
    rfl
  have h2 := writeRecords_eq (puts_extended cpu.extendedPages) hs.extendedLimit (by decide) hchunk []
    hext rfl hs.extendedPages hpages
  have hdrop : c.checksums.drop (Layout.ram.count c.packedSize) =
      extended.map View.checksum ++ [] := by
    rw [hsums, ← hlen, List.append_nil]
    exact List.drop_left' (List.length_map _)
  unfold restoreStateStream
  refine (bind_of_ok (get_eq cpu)).trans ?_
  rw [hc, check_ok]
  refine (bind_of_ok (pure_eq c cpu)).trans ?_
  refine (bind_of_ok (write_eq _ cpu)).trans ?_
  rw [← hsums] at h1
  refine (bind_of_ok h1).trans ?_
  refine (bind_of_ok (clearExtendedMemory_eq _)).trans ?_
  rw [hdrop]
  refine (bind_of_ok h2).trans ?_
  unfold setState
  rw [hs.validated]
  rfl

/-- A snapshot that does not pass the first pass changes nothing. -/
theorem restoreStateStream_error {e : Fault} (hc : checkStream b dev cpu src = .error e) :
    restoreStateStream b dev src cpu = .error e cpu := by
  unfold restoreStateStream
  refine (bind_of_ok (get_eq cpu)).trans ?_
  rw [hc]
  rfl

/-- Where a check of the first pass fails, the machine is as it was. Where all of them pass, no check
fails after the first write, and every page that is looked for is in the bitmap. -/
theorem restore_untouched_or_done (b : Builtins) (dev : Devices σ) (src : Source) (cpu : Cpu σ) :
    (∀ e, checkStream b dev cpu src = .error e → restoreStateStream b dev src cpu = .error e cpu) ∧
    ∀ c, checkStream b dev cpu src = .ok c →
      ∃ out cpu', restoreStateStream b dev src cpu = .ok out cpu' := by
  refine ⟨fun e he => restoreStateStream_error he, fun c hc => ?_⟩
  obtain ⟨_, _, _, _, heq⟩ := restoreStateStream_eq hc
  exact ⟨_, _, heq⟩

end

end V86.State
