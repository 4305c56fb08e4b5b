import Mathlib.Data.List.Range
import Mathlib.Tactic.IntervalCases
import Mathlib.Tactic.Ring
import RedPitayaNotes.SdrReceiverHpsdr.Ep6

/-!
# Packing of the EP6 datagrams

With at most six receivers a slot copies bytes of one frame only, and the loops
of a batch fill the regions of the buffer one after the other.  With seven or
eight, the last slot of a batch reads past the bytes fetched.
-/

namespace RedPitayaNotes.SdrReceiverHpsdr

open Bits Memory Clocked

/-! ## Sizes -/

namespace Receivers

variable (receivers : Receivers)

theorem n_mul_size_le : receivers.n * receivers.size ≤ 504 :=
  Nat.div_mul_le_self _ _

theorem n_bounds : 10 ≤ receivers.n ∧ receivers.n ≤ 63 := by
  have hpos := receivers.pos
  have hle := receivers.le
  constructor
  · rw [n, Nat.le_div_iff_mul_le (by rw [size]; omega), size]
    omega
  · apply Nat.div_le_of_le_mul
    rw [size]
    omega

theorem m_bounds : 1 ≤ receivers.m ∧ receivers.m ≤ 25 := by
  obtain ⟨hlow, hhigh⟩ := receivers.n_bounds
  constructor
  · exact Nat.div_pos (by omega) (by omega)
  · exact Nat.div_le_of_le_mul (by omega)

end Receivers

/-! ## Sequence numbers -/

theorem extractLsb'_ofNat (d : ℕ) {k : ℕ} (hk : k + 8 ≤ 32) :
    (BitVec.ofNat 32 d).extractLsb' k 8 = BitVec.ofNat 8 (d / 2 ^ k) := by
  apply BitVec.eq_of_toNat_eq
  have hsplit : 2 ^ 32 = 2 ^ k * 2 ^ (32 - k) := by
    rw [← Nat.pow_add]
    congr 1
    omega
  rw [BitVec.extractLsb'_toNat, BitVec.toNat_ofNat, BitVec.toNat_ofNat,
    Nat.shiftRight_eq_div_pow, hsplit, Nat.mod_mul_right_div_self,
    Nat.mod_mod_of_dvd _ (Nat.pow_dvd_pow 2 (by omega))]

theorem wordBytes_htonl (d : ℕ) :
    wordBytes (htonl (BitVec.ofNat 32 d)) = sequenceBytes d := by
  rw [wordBytes_swap]
  simp only [extractLsb'_ofNat d (show 24 + 8 ≤ 32 by decide),
    extractLsb'_ofNat d (show 16 + 8 ≤ 32 by decide),
    extractLsb'_ofNat d (show 8 + 8 ≤ 32 by decide),
    extractLsb'_ofNat d (show 0 + 8 ≤ 32 by decide), Nat.pow_zero, Nat.div_one]
  rfl

/-! ## One subframe -/

namespace Ep6

/-- The slots filled from the offsets `offsets` in `data`. -/
def slotsFrom (data : ℕ → Byte) (len : ℕ) (offsets : List ℕ) : List Byte :=
  offsets.flatMap fun o => read data o len ++ [0, 0]

theorem length_slotsFrom (data : ℕ → Byte) (len : ℕ) (offsets : List ℕ) :
    (slotsFrom data len offsets).length = offsets.length * (len + 2) := by
  induction offsets with
  | nil => simp [slotsFrom]
  | cons o offsets ih =>
      rw [slotsFrom, List.flatMap_cons, List.length_append, ← slotsFrom, ih]
      simp only [List.length_append, length_read, List.length_cons,
        List.length_nil, Nat.add_one_mul]
      omega

/-- The loop replaces zeros by slots, each with two of the zeros kept. -/
theorem slotLoop_eq (len n : ℕ) (s : Ep6) {mem : ℕ → Byte} {start rest : ℕ}
    {xs : List Byte}
    (hbuffer : s.buffer = store mem start (xs ++ List.replicate rest 0))
    (hrest : n * (len + 2) ≤ rest) :
    slotLoop (len + 2) n (start + xs.length) s =
      { s with
        buffer := store mem start
          (xs ++ (slotsFrom s.data len (List.range' s.dataOffset n 36) ++
            List.replicate (rest - n * (len + 2)) 0))
        dataOffset := s.dataOffset + 36 * n
        reads := s.reads ++
          (List.range' s.dataOffset n 36).map fun o => ⟨o, len⟩
        writes := s.writes ++
          (List.range' (start + xs.length) n (len + 2)).map
            fun o => ⟨o, len⟩ } := by
  induction n generalizing s xs rest with
  | zero =>
      simp only [slotLoop, slotsFrom, List.range'_zero, List.flatMap_nil,
        List.map_nil, List.append_nil, List.nil_append, Nat.zero_mul,
        Nat.mul_zero, Nat.sub_zero, Nat.add_zero]
      rw [← hbuffer]
  | succ n ih =>
      rw [Nat.succ_mul] at hrest
      have hzeros : List.replicate rest (0 : Byte) =
          List.replicate len 0 ++
            ([0, 0] ++ List.replicate (rest - (len + 2)) 0) := by
        rw [show ([0, 0] : List Byte) = List.replicate 2 0 from rfl,
          List.replicate_append_replicate, List.replicate_append_replicate]
        congr 1
        omega
      have hslot : (s.copySlot (start + xs.length) len).buffer =
          store mem start ((xs ++ (read s.data s.dataOffset len ++ [0, 0])) ++
            List.replicate (rest - (len + 2)) 0) := by
        change store s.buffer (start + xs.length) _ = _
        rw [hbuffer, hzeros, store_mid _ _ _ _ (by simp)]
        simp only [List.append_assoc]
      have hnext : start + xs.length + (len + 2) =
          start + (xs ++ (read s.data s.dataOffset len ++ [0, 0])).length := by
        simp [Nat.add_assoc]
      rw [slotLoop, Nat.add_sub_cancel, hnext, ih _ hslot (by omega)]
      have hleft : rest - (len + 2) - n * (len + 2) =
          rest - (n + 1) * (len + 2) := by
        rw [Nat.succ_mul]
        omega
      have hoffset : s.dataOffset + 36 + 36 * n = s.dataOffset + 36 * (n + 1) := by
        omega
      rw [← hnext, hleft]
      simp only [copySlot, put, hoffset, slotsFrom, List.range'_succ,
        List.flatMap_cons, List.map_cons, List.append_assoc,
        List.singleton_append, length_read]

/-- The start of subframe `i` in the buffer. -/
def subPointer (i : ℕ) : ℕ := i * 516 - i % 2 * 4 + 8

/-- What a subframe with header `h` and slots from `offset` holds. -/
def content (data : ℕ → Byte) (len n h offset : ℕ) : List Byte :=
  headers.getD h [] ++
    (slotsFrom data len (List.range' offset n 36) ++
      List.replicate (504 - n * (len + 2)) 0)

theorem length_header {h : ℕ} (hh : h < 5) :
    (headers.getD h []).length = 8 := by
  interval_cases h <;> rfl

theorem length_content (data : ℕ → Byte) {len n h : ℕ} (offset : ℕ)
    (hh : h < 5) (hfit : n * (len + 2) ≤ 504) :
    (content data len n h offset).length = 512 := by
  rw [content, List.length_append, List.length_append, length_header hh,
    length_slotsFrom, List.length_range', List.length_replicate]
  omega

theorem subframe_eq {len n : ℕ} (s : Ep6) (i : ℕ)
    (hh : s.headerOffset < 5) (hfit : n * (len + 2) ≤ 504) :
    subframe (len + 2) n s i =
      { s with
        buffer := store s.buffer (subPointer i)
          (content s.data len n s.headerOffset s.dataOffset)
        dataOffset := s.dataOffset + 36 * n
        headerOffset := (s.headerOffset + 1) % 5
        reads := s.reads ++
          (List.range' s.dataOffset n 36).map fun o => ⟨o, len⟩
        writes := s.writes ++ ([⟨subPointer i, 8⟩, ⟨subPointer i + 8, 504⟩] ++
          (List.range' (subPointer i + 8) n (len + 2)).map
            fun o => ⟨o, len⟩) } := by
  have hlen := length_header hh
  have hbuffer : store (store s.buffer (subPointer i)
        (headers.getD s.headerOffset [])) (subPointer i + 8)
        (List.replicate 504 0) =
      store s.buffer (subPointer i)
        (headers.getD s.headerOffset [] ++ List.replicate 504 0) := by
    have hstore := store_store s.buffer (subPointer i)
      (headers.getD s.headerOffset []) (List.replicate 504 0)
    rwa [hlen] at hstore
  have hloop := slotLoop_eq len n
    (put { s.put (subPointer i) (headers.getD s.headerOffset []) with
      headerOffset := (s.headerOffset + 1) % 5 } (subPointer i + 8)
        (List.replicate 504 0)) hbuffer hfit
  rw [hlen] at hloop
  refine hloop.trans ?_
  simp only [put, hlen, List.length_replicate, List.append_assoc]
  rfl

/-- The writes of a subframe stay in its region. -/
theorem subframe_writes {len n pointer : ℕ} (hfit : n * (len + 2) ≤ 504)
    {a : Access}
    (ha : a ∈ [⟨pointer, 8⟩, ⟨pointer + 8, 504⟩] ++
      (List.range' (pointer + 8) n (len + 2)).map fun o => ⟨o, len⟩) :
    a.start + a.len ≤ pointer + 512 := by
  rw [List.mem_append, List.mem_pair, List.mem_map] at ha
  rcases ha with (rfl | rfl) | ⟨o, ho, rfl⟩
  · exact Nat.add_le_add_left (show 8 ≤ 512 by decide) _
  · exact le_of_eq (Nat.add_assoc _ _ _)
  · obtain ⟨j, hj, rfl⟩ := List.mem_range'.mp ho
    have hslots := Nat.mul_le_mul_right (len + 2) (Nat.succ_le_of_lt hj)
    rw [Nat.succ_mul, Nat.mul_comm j] at hslots
    dsimp only
    omega

/-- The state after `k` subframes of a batch. -/
structure Filled (len n : ℕ) (s₀ : Ep6) (k : ℕ) (s : Ep6) : Prop where
  data : s.data = s₀.data
  counter : s.counter = s₀.counter
  fifoRead : s.fifoRead = s₀.fifoRead
  header : s.headerOffset = (s₀.headerOffset + k) % 5
  offset : s.dataOffset = s₀.dataOffset + 36 * (n * k)
  subframes : ∀ i < k, read s.buffer (subPointer i) 512 =
    content s₀.data len n ((s₀.headerOffset + i) % 5)
      (s₀.dataOffset + 36 * (n * i))
  heads : ∀ d, read s.buffer (d * 1032) 8 = read s₀.buffer (d * 1032) 8
  reads : s.reads = s₀.reads ++
    (List.range' s₀.dataOffset (n * k) 36).map fun o => ⟨o, len⟩
  writes : (∀ a ∈ s₀.writes, a.start + a.len ≤ bufferSize) →
    ∀ a ∈ s.writes, a.start + a.len ≤ bufferSize

/-- The regions of the subframes follow each other between the heads of the
datagrams. -/
theorem subPointer_disjoint {i k : ℕ} (h : i < k) :
    subPointer i + 512 ≤ subPointer k := by
  unfold subPointer
  omega

theorem subPointer_head (d i : ℕ) :
    d * 1032 + 8 ≤ subPointer i ∨ subPointer i + 512 ≤ d * 1032 := by
  unfold subPointer
  rcases lt_or_ge (i / 2) d with h | h
  · right
    omega
  · left
    omega

theorem subPointer_fits {i : ℕ} (h : i < 50) :
    subPointer i + 512 ≤ bufferSize := by
  unfold subPointer bufferSize
  omega

theorem filled {len n : ℕ} (s₀ : Ep6) (hfit : n * (len + 2) ≤ 504)
    (hh : s₀.headerOffset < 5) {k : ℕ} (hk : k ≤ 50) :
    Filled len n s₀ k ((List.range k).foldl (subframe (len + 2) n) s₀) := by
  induction k with
  | zero =>
      refine ⟨rfl, rfl, rfl, ?_, rfl, ?_, fun _ => rfl, ?_, id⟩
      · exact (Nat.mod_eq_of_lt hh).symm
      · intro i hi
        exact absurd hi (Nat.not_lt_zero i)
      · simp
  | succ k ih =>
      have h := ih (by omega)
      rw [List.range_succ, List.foldl_concat]
      generalize (List.range k).foldl (subframe (len + 2) n) s₀ = s at h ⊢
      have hh' : s.headerOffset < 5 := h.header ▸ Nat.mod_lt _ (by decide)
      have hlen := length_content s.data s.dataOffset hh' hfit
      rw [subframe_eq s k hh' hfit]
      refine ⟨h.data, h.counter, h.fifoRead, ?_, ?_, ?_, ?_, ?_, ?_⟩
      · rw [h.header, Nat.mod_add_mod]
        rfl
      · simp only [h.offset]
        rw [Nat.mul_succ, Nat.mul_add, Nat.add_assoc]
      · intro i hi
        rcases Nat.lt_succ_iff_lt_or_eq.mp hi with hlt | rfl
        · rw [read_store_of_disjoint (Or.inl (subPointer_disjoint hlt))]
          exact h.subframes i hlt
        · simp only [← h.header, ← h.offset, ← h.data]
          conv_lhs => rw [← hlen]
          exact read_store_self _ _ _
      · intro d
        rw [read_store_of_disjoint (by rw [hlen]; exact subPointer_head d k)]
        exact h.heads d
      · simp only [h.reads, h.offset]
        rw [List.append_assoc, ← List.map_append, Nat.mul_succ,
          ← List.range'_append]
      · intro h₀ a ha
        have hfits := subPointer_fits (show k < 50 by omega)
        rcases List.mem_append.mp ha with hpast | hnew
        · exact h.writes h₀ a hpast
        · exact (subframe_writes hfit hnew).trans hfits

/-- The state after the sequence numbers of `k` datagrams are set. -/
structure Counted (s₀ : Ep6) (k : ℕ) (s : Ep6) : Prop where
  data : s.data = s₀.data
  fifoRead : s.fifoRead = s₀.fifoRead
  header : s.headerOffset = s₀.headerOffset
  offset : s.dataOffset = s₀.dataOffset
  counter : s.counter = s₀.counter + BitVec.ofNat 32 k
  numbers : ∀ i < k, read s.buffer (i * 1032 + 4) 4 =
    wordBytes (htonl (s₀.counter + BitVec.ofNat 32 i))
  preambles : ∀ d, read s.buffer (d * 1032) 4 = read s₀.buffer (d * 1032) 4
  reads : s.reads = s₀.reads
  writes : (∀ a ∈ s₀.writes, a.start + a.len ≤ bufferSize) →
    ∀ a ∈ s.writes, a.start + a.len ≤ bufferSize

theorem counted (s₀ : Ep6) {k : ℕ} (hk : k ≤ 25) :
    Counted s₀ k ((List.range k).foldl putCounter s₀) := by
  induction k with
  | zero =>
      refine ⟨rfl, rfl, rfl, rfl, ?_, ?_, fun _ => rfl, rfl, id⟩
      · exact (BitVec.add_zero _).symm
      · intro i hi
        exact absurd hi (Nat.not_lt_zero i)
  | succ k ih =>
      have h := ih (by omega)
      rw [List.range_succ, List.foldl_concat]
      generalize (List.range k).foldl putCounter s₀ = s at h ⊢
      have hlen : (wordBytes (htonl s.counter)).length = 4 := rfl
      refine ⟨h.data, h.fifoRead, h.header, h.offset, ?_, ?_, ?_, h.reads, ?_⟩
      · change s.counter + 1 = _
        rw [h.counter, BitVec.add_assoc, BitVec.ofNat_add]
        rfl
      · intro i hi
        change read (store s.buffer (k * 1032 + 4) _) (i * 1032 + 4) 4 = _
        rcases Nat.lt_succ_iff_lt_or_eq.mp hi with hlt | rfl
        · rw [read_store_of_disjoint (Or.inl (by omega))]
          exact h.numbers i hlt
        · rw [← h.counter]
          exact read_store_self s.buffer (i * 1032 + 4)
            (wordBytes (htonl s.counter))
      · intro d
        change read (store s.buffer (k * 1032 + 4) _) (d * 1032) 4 = _
        rw [read_store_of_disjoint (by rw [hlen]; omega)]
        exact h.preambles d
      · intro h₀ a ha
        rcases List.mem_append.mp ha with hpast | hnew
        · exact h.writes h₀ a hpast
        · obtain rfl := List.mem_singleton.mp hnew
          rw [hlen, bufferSize]
          dsimp only
          omega

end Ep6

/-! ## One batch -/

section Layout

variable (fifo : ℕ → Byte)

theorem flatMap_read (start n : ℕ) :
    (List.range n).flatMap (fun r => read fifo (start + 6 * r) 6) =
      read fifo start (n * 6) := by
  induction n with
  | zero => rfl
  | succ n ih =>
      rw [List.range_succ, List.flatMap_append, ih, List.flatMap_singleton,
        Nat.mul_comm 6 n, ← read_add, ← Nat.add_one_mul]

/-- A slot for at most six receivers is a piece of its frame. -/
theorem slotBytes_of_le_six {receivers : Receivers} (h : receivers.val ≤ 6)
    (j : ℕ) :
    slotBytes fifo receivers j =
      read fifo (36 * j) (receivers.val * 6) ++ [0, 0] := by
  rw [slotBytes, ← flatMap_read]
  congr 1
  apply List.flatMap_congr
  intro r hr
  rw [List.mem_range] at hr
  exact if_pos (by omega)

/-- Bytes in `data` that were just fetched. -/
theorem read_fetched (data : ℕ → Byte) {start len total : ℕ} (o : ℕ)
    (h : o + len ≤ total) :
    read (store data 0 (read fifo start total)) o len =
      read fifo (start + o) len := by
  apply read_congr
  intro x hx
  have hlt : o + x < (read fifo start total).length := by
    rw [length_read]
    omega
  have hget := store_add hlt data 0
  rw [Nat.zero_add] at hget
  rw [hget, getElem_read, Nat.add_assoc]

/-- The slots from offset `36 * k` of a batch that starts at frame `j`. -/
theorem slotsFrom_eq {receivers : Receivers} (h : receivers.val ≤ 6)
    (data : ℕ → Byte) {j k n : ℕ}
    (hk : k + n ≤ receivers.m * receivers.n * 2) :
    Ep6.slotsFrom (store data 0 (read fifo (36 * j) receivers.fetched))
        (receivers.val * 6) (List.range' (36 * k) n 36) =
      (List.range' (j + k) n).flatMap (slotBytes fifo receivers) := by
  induction n generalizing k with
  | zero => rfl
  | succ n ih =>
      have hslot : 36 * k + receivers.val * 6 ≤ receivers.fetched := by
        rw [Receivers.fetched]
        omega
      have hrest := ih (k := k + 1) (by omega)
      rw [Nat.mul_add, Nat.mul_one, ← Nat.add_assoc, Ep6.slotsFrom] at hrest
      rw [List.range'_succ, List.range'_succ, Ep6.slotsFrom,
        List.flatMap_cons, List.flatMap_cons, hrest,
        slotBytes_of_le_six fifo h, read_fetched fifo data _ hslot,
        Nat.mul_add]

/-- What is known of the state before a batch, after `d` datagrams and `j`
frames. -/
structure Ready (d j : ℕ) (s : Ep6) : Prop where
  header : s.headerOffset = 2 * d % 5
  counter : s.counter = BitVec.ofNat 32 d
  fifoRead : s.fifoRead = 36 * j
  preambles : ∀ i < 25,
    read s.buffer (i * 1032) 4 = wordBytes 0x0601feef

/-- The state after a batch. -/
structure Done (receivers : Receivers) (s s' : Ep6) : Prop where
  header : s'.headerOffset = (s.headerOffset + receivers.m * 2) % 5
  counter : s'.counter = s.counter + BitVec.ofNat 32 receivers.m
  fifoRead : s'.fifoRead = s.fifoRead + receivers.fetched
  preambles : ∀ i, read s'.buffer (i * 1032) 4 = read s.buffer (i * 1032) 4
  numbers : ∀ i < receivers.m, read s'.buffer (i * 1032 + 4) 4 =
    wordBytes (htonl (s.counter + BitVec.ofNat 32 i))
  subframes : ∀ i < receivers.m * 2,
    read s'.buffer (Ep6.subPointer i) 512 =
      Ep6.content (store s.data 0 (read fifo s.fifoRead receivers.fetched))
        (receivers.val * 6) receivers.n ((s.headerOffset + i) % 5)
        (36 * (receivers.n * i))
  reads : s'.reads =
    (List.range' 0 (receivers.n * (receivers.m * 2)) 36).map
      fun o => ⟨o, receivers.val * 6⟩
  writes : ∀ a ∈ s'.writes, a.start + a.len ≤ bufferSize

theorem read_head {mem mem' : ℕ → Byte} {start : ℕ}
    (h : read mem start 8 = read mem' start 8) :
    read mem start 4 = read mem' start 4 ∧
      read mem (start + 4) 4 = read mem' (start + 4) 4 := by
  rw [read_add mem start 4 4, read_add mem' start 4 4] at h
  exact List.append_inj h (by simp)

theorem batch_done (s : Ep6) (receivers : Receivers)
    (hh : s.headerOffset < 5) :
    Done fifo receivers s (s.batch fifo receivers) := by
  obtain ⟨-, hm⟩ := receivers.m_bounds
  have hcount := Ep6.counted (s.fetch fifo receivers.fetched) hm
  have hfill := Ep6.filled (k := receivers.m * 2)
    ((List.range receivers.m).foldl Ep6.putCounter
      (s.fetch fifo receivers.fetched))
    receivers.n_mul_size_le (hcount.header ▸ hh) (by omega)
  have hbatch : s.batch fifo receivers =
      (List.range (receivers.m * 2)).foldl
        (Ep6.subframe (receivers.val * 6 + 2) receivers.n)
        ((List.range receivers.m).foldl Ep6.putCounter
          (s.fetch fifo receivers.fetched)) := rfl
  rw [hbatch]
  generalize (List.range receivers.m).foldl Ep6.putCounter
    (s.fetch fifo receivers.fetched) = s₁ at *
  generalize (List.range (receivers.m * 2)).foldl
    (Ep6.subframe (receivers.val * 6 + 2) receivers.n) s₁ = s₂ at *
  have hoffset : s₁.dataOffset = 0 := hcount.offset
  have hdata : s₁.data =
      store s.data 0 (read fifo s.fifoRead receivers.fetched) := hcount.data
  refine ⟨?_, ?_, ?_, ?_, ?_, ?_, ?_, ?_⟩
  · rw [hfill.header, hcount.header]
    rfl
  · rw [hfill.counter, hcount.counter]
    rfl
  · rw [hfill.fifoRead, hcount.fifoRead]
    rfl
  · intro i
    rw [(read_head (hfill.heads i)).1, hcount.preambles i]
    rfl
  · intro i hi
    rw [(read_head (hfill.heads i)).2, hcount.numbers i hi]
    rfl
  · intro i hi
    rw [hfill.subframes i hi, hdata, hoffset, hcount.header, Nat.zero_add]
    rfl
  · rw [hfill.reads, hcount.reads, hoffset]
    rfl
  · apply hfill.writes
    apply hcount.writes
    intro a ha
    exact absurd ha List.not_mem_nil

/-- A datagram in the buffer: preamble, sequence number, two subframes. -/
theorem read_datagram (mem : ℕ → Byte) (i : ℕ) :
    read mem (i * 1032) 1032 =
      read mem (i * 1032) 4 ++ read mem (i * 1032 + 4) 4 ++
        read mem (Ep6.subPointer (2 * i)) 512 ++
        read mem (Ep6.subPointer (2 * i + 1)) 512 := by
  have heven : Ep6.subPointer (2 * i) = i * 1032 + 4 + 4 := by
    unfold Ep6.subPointer
    omega
  have hodd : Ep6.subPointer (2 * i + 1) = i * 1032 + 4 + 4 + 512 := by
    unfold Ep6.subPointer
    omega
  rw [heven, hodd, List.append_assoc, List.append_assoc, ← read_add,
    ← read_add, ← read_add]

/-- With at most six receivers the subframes of a batch are those of the
layout. -/
theorem Done.read_subframe {receivers : Receivers} {d j : ℕ} {s s' : Ep6}
    (hdone : Done fifo receivers s s') (h : Ready d j s)
    (hsix : receivers.val ≤ 6) {k : ℕ} (hk : k < receivers.m * 2) :
    read s'.buffer (Ep6.subPointer k) 512 =
      subframeBytes fifo receivers (2 * d + k) (j + k * receivers.n) := by
  have hfit : receivers.n * k + receivers.n ≤
      receivers.m * receivers.n * 2 := by
    have hlast := Nat.mul_le_mul_left receivers.n (Nat.succ_le_of_lt hk)
    rw [Nat.mul_succ] at hlast
    calc receivers.n * k + receivers.n
        ≤ receivers.n * (receivers.m * 2) := hlast
      _ = receivers.m * receivers.n * 2 := by ring
  rw [hdone.subframes k hk, Ep6.content, h.fifoRead, h.header,
    slotsFrom_eq fifo hsix _ hfit, Nat.mod_add_mod, subframeBytes,
    Nat.mul_comm k]
  rfl

/-- With at most six receivers a batch sends the datagrams of the layout and is
ready for the next one. -/
theorem Ready.batch {d j : ℕ} {s : Ep6} (h : Ready d j s)
    {receivers : Receivers} (hsix : receivers.val ≤ 6) :
    (s.batch fifo receivers).datagrams receivers =
        batchBytes fifo receivers d j ∧
      Ready (d + receivers.m) (j + receivers.m * receivers.n * 2)
        (s.batch fifo receivers) := by
  have hh : s.headerOffset < 5 := h.header ▸ Nat.mod_lt _ (by decide)
  have hdone := batch_done fifo s receivers hh
  obtain ⟨-, hm⟩ := receivers.m_bounds
  generalize s.batch fifo receivers = s' at *
  constructor
  · apply List.map_congr_left
    intro i hi
    rw [List.mem_range] at hi
    have heven := hdone.read_subframe fifo h hsix
      (show 2 * i < receivers.m * 2 by omega)
    have hodd := hdone.read_subframe fifo h hsix
      (show 2 * i + 1 < receivers.m * 2 by omega)
    rw [Nat.add_one_mul (2 * i), ← Nat.add_assoc j,
      ← Nat.add_assoc (2 * d)] at hodd
    rw [read_datagram, hdone.preambles, h.preambles i (by omega),
      hdone.numbers i hi, h.counter, ← BitVec.ofNat_add, wordBytes_htonl,
      heven, hodd, ← Nat.mul_add]
    rfl
  · refine ⟨?_, ?_, ?_, ?_⟩
    · rw [hdone.header, h.header, Nat.mod_add_mod]
      congr 1
      omega
    · rw [hdone.counter, h.counter, BitVec.ofNat_add]
    · rw [hdone.fifoRead, h.fifoRead, Receivers.fetched]
      omega
    · intro i hi
      rw [hdone.preambles, h.preambles i hi]

end Layout

/-! ## All batches -/

theorem ready_start (data buffer : ℕ → Byte) :
    Ready 0 0 (Ep6.start data buffer) := by
  refine ⟨rfl, rfl, rfl, ?_⟩
  have hfold : ∀ k ≤ 25, ∀ i < k,
      read ((List.range k).foldl
        (fun buffer i => store buffer (i * 1032 + 0) (wordBytes 0x0601feef))
        buffer) (i * 1032) 4 = wordBytes 0x0601feef := by
    intro k hk
    induction k with
    | zero => exact fun i hi => absurd hi (Nat.not_lt_zero i)
    | succ k ih =>
        intro i hi
        rw [List.range_succ, List.foldl_concat]
        have hlen : (wordBytes 0x0601feef).length = 4 := rfl
        rcases Nat.lt_succ_iff_lt_or_eq.mp hi with hlt | rfl
        · rw [read_store_of_disjoint (Or.inl (by omega))]
          exact ih (by omega) i hlt
        · rw [Nat.add_zero, ← hlen]
          exact read_store_self _ _ _
  exact hfold 25 le_rfl

/-- Batches of at most six receivers send the stream of the layout. -/
theorem datagrams_run (fifo : ℕ → Byte) {d j : ℕ} {s : Ep6} (h : Ready d j s)
    {batches : List Receivers} (hsix : ∀ r ∈ batches, r.val ≤ 6) :
    (trace (Ep6.batch fifo) s batches).flatMap
        (fun c => (c.state.batch fifo c.input).datagrams c.input) =
      streamBytes fifo d j batches := by
  induction batches generalizing d j s with
  | nil => rfl
  | cons r batches ih =>
      rw [List.forall_mem_cons] at hsix
      obtain ⟨hsend, hready⟩ := h.batch fifo hsix.1
      rw [trace_cons, List.flatMap_cons, hsend, ih hready hsix.2]
      rfl

theorem done_of_mem (fifo data buffer : ℕ → Byte) {batches : List Receivers}
    {c : Cycle Ep6 Receivers}
    (hc : c ∈ trace (Ep6.batch fifo) (.start data buffer) batches) :
    Done fifo c.input c.state (c.state.batch fifo c.input) := by
  have hheader : c.state.headerOffset < 5 :=
    trace_invariant (fun s : Ep6 => s.headerOffset < 5)
      (fun s r hs => (batch_done fifo s r hs).header ▸
        Nat.mod_lt _ (by decide))
      (show 0 < 5 by decide) batches c hc
  exact batch_done fifo c.state c.input hheader

/-- The reads of a batch are those of the layout exactly for six receivers at
most: the last of them starts 36 bytes before the end. -/
theorem Done.reads_iff {fifo : ℕ → Byte} {receivers : Receivers} {s s' : Ep6}
    (h : Done fifo receivers s s') :
    (∀ a ∈ s'.reads, a.start + a.len ≤ receivers.fetched) ↔
      receivers.val ≤ 6 := by
  obtain ⟨hn, -⟩ := receivers.n_bounds
  obtain ⟨hm, -⟩ := receivers.m_bounds
  have htotal : receivers.fetched =
      36 * (receivers.n * (receivers.m * 2)) := by
    rw [Receivers.fetched]
    ring
  have hpos : 0 < receivers.n * (receivers.m * 2) :=
    Nat.mul_pos (by omega) (by omega)
  rw [h.reads, htotal]
  generalize receivers.n * (receivers.m * 2) = count at hpos
  constructor
  · intro hall
    have hlast := hall ⟨36 * (count - 1), receivers.val * 6⟩
      (List.mem_map.mpr ⟨36 * (count - 1), List.mem_range'.mpr
        ⟨count - 1, by omega, by omega⟩, rfl⟩)
    dsimp only at hlast
    omega
  · intro hsix a ha
    obtain ⟨o, ho, rfl⟩ := List.mem_map.mp ha
    obtain ⟨k, hk, rfl⟩ := List.mem_range'.mp ho
    dsimp only
    omega

/-- The datagrams of a sequence of batches are packed as they should be, with
every access in bounds, exactly if no batch has more than six receivers. -/
theorem packs_iff (fifo data buffer : ℕ → Byte) (batches : List Receivers) :
    Packs fifo data buffer batches ↔ ∀ r ∈ batches, r.val ≤ 6 := by
  have hinputs : (trace (Ep6.batch fifo) (.start data buffer) batches).map
      Cycle.input = batches := map_input_trace _ _ _
  constructor
  · intro h r hr
    rw [← hinputs, List.mem_map] at hr
    obtain ⟨c, hc, rfl⟩ := hr
    exact (done_of_mem fifo data buffer hc).reads_iff.mp (h.reads c hc)
  · intro hsix
    refine ⟨datagrams_run fifo (ready_start data buffer) hsix, ?_, ?_⟩
    · exact fun c hc => (done_of_mem fifo data buffer hc).writes
    · intro c hc
      have hmem : c.input ∈ batches := by
        rw [← hinputs]
        exact List.mem_map_of_mem hc
      exact (done_of_mem fifo data buffer hc).reads_iff.mpr
        (hsix c.input hmem)

/-- A control frame asks for seven receivers: each slot gets six bytes of the
next frame, and the last one bytes that were not fetched. -/
theorem not_packs_seven :
    ¬Packs (fun n => BitVec.ofNat 8 n) (fun _ => 0) (fun _ => 0)
      [receiversOf 0x30] := by
  intro h
  have hc : ⟨.start (fun _ => 0) (fun _ => 0), receiversOf 0x30⟩ ∈
      trace (Ep6.batch fun n => BitVec.ofNat 8 n)
        (.start (fun _ => 0) (fun _ => 0)) [receiversOf 0x30] :=
    List.mem_cons_self
  have hseven := (done_of_mem _ _ _ hc).reads_iff.mp (h.reads _ hc)
  exact absurd hseven (by decide)

end RedPitayaNotes.SdrReceiverHpsdr
