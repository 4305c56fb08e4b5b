import RedPitayaNotes.SdrTransceiverFt8.Framing

/-!
# The datagrams in the buffer

The prologue prepares the first four fields of every datagram in the buffer, the
records are copied behind them, and the lengths are filled in when the datagram
is sent.  The next datagram is built over the last one.
-/

namespace RedPitayaNotes.SdrTransceiverFt8

open Bits Clocked Ipfix
open Cursor (Puts puts_put)
open Memory (Holds holds_append holds_store_self)

/-! ## Copies -/

section Copy

variable (c : Cursor Byte)

theorem puts_copyChar {value : List Byte} (h : value.length ≤ 64) :
    Puts c (copyChar c value) (stringBytes value) := by
  rw [copyChar_eq h]
  exact (puts_put c [BitVec.ofNat 8 value.length]).append (puts_put _ value)

theorem puts_copyInt1 (v : BitVec 8) : Puts c (copyInt1 c v) [v] :=
  puts_put c [v]

theorem puts_copyInt2 (v : BitVec 16) : Puts c (copyInt2 c v) (bytes2 v) :=
  puts_put c (bytes2 v)

theorem puts_copyInt4 (v : BitVec 32) : Puts c (copyInt4 c v) (bytes4 v) :=
  puts_put c (bytes4 v)

theorem puts_copyStation (station : Station) :
    Puts c (copyStation c station)
      (recordBytes receiverFields station.fields) := by
  have hcall := station.call_le
  have hgrid := station.grid_le
  rw [station.recordBytes_eq]
  exact (puts_copyChar _ (by omega)).append
    ((puts_copyChar _ (by omega)).append
      ((puts_copyChar _ (by decide)).append
        (puts_copyChar _ station.antenna_le)))

theorem puts_copyRecord (r : Record) :
    Puts c (copyRecord c r) (recordBytes senderFields r.fields) := by
  have hcall := r.call_le
  have hgrid := r.grid_le
  rw [r.recordBytes_eq]
  exact (puts_copyChar _ (by omega)).append
    ((puts_copyChar _ (by omega)).append
      ((puts_copyInt4 _ r.freq).append
        ((puts_copyInt1 _ (r.snr.setWidth 8)).append
          ((puts_copyChar _ (by decide)).append
            ((puts_copyInt1 _ 1).append (puts_copyInt4 _ _))))))

end Copy

/-! ## Sets -/

/-- Pads the set that starts at `start` and ends at the write position, and
fills in its header. -/
def closeSet (c : Cursor Byte) (start : ℕ) (id : BitVec 16) : Cursor Byte :=
  let size := c.pos - start
  let c := c.fill (List.replicate (padding size) 0)
  let size := size + padding size
  copyInt2 (copyInt2 (c.move start) id) (BitVec.ofNat 16 size)

structure Closes (memory : ℕ → Byte) (c c' : Cursor Byte) (start : ℕ)
    (s : RawSet) : Prop where
  holds : Holds (c'.contents memory).memory start s.bytes
  frame : ∀ {a : ℕ} {xs : List Byte}, Holds (c.contents memory).memory a xs →
    a + xs.length ≤ start → Holds (c'.contents memory).memory a xs
  loaded : (c'.contents memory).loaded = (c.contents memory).loaded

theorem closes_closeSet {memory : ℕ → Byte} {c : Cursor Byte} {start : ℕ}
    {data : List Byte} (id : BitVec 16)
    (hpos : c.pos = start + 4 + data.length)
    (hdata : Holds (c.contents memory).memory (start + 4) data) :
    Closes memory c (closeSet c start id) start (paddedSet id data) := by
  have hsize : c.pos - start = 4 + data.length := by omega
  have hheader := (puts_copyInt2
    ((c.fill (List.replicate (padding (4 + data.length)) 0)).move start)
    id).append (puts_copyInt2 _ (BitVec.ofNat 16 (paddedSet id data).size))
  have hclose : closeSet c start id = copyInt2 (copyInt2
      ((c.fill (List.replicate (padding (4 + data.length)) 0)).move start) id)
      (BitVec.ofNat 16 (paddedSet id data).size) := by
    rw [closeSet, hsize, (paddedSet_spec id data).1]
  rw [← hclose] at hheader
  have hstart : start + (bytes2 id ++
      bytes2 (BitVec.ofNat 16 (paddedSet id data).size)).length =
        start + 4 := rfl
  -- the padding is behind the data, the header in front of it
  have hdata' : Holds (Memory.store (c.contents memory).memory c.pos
      (List.replicate (padding (4 + data.length)) 0)) (start + 4) data :=
    hdata.store (Or.inl (le_of_eq hpos.symm))
  have hpadding := holds_store_self (c.contents memory).memory c.pos
    (List.replicate (padding (4 + data.length)) 0)
  constructor
  · have hbytes : (paddedSet id data).bytes =
        (bytes2 id ++ bytes2 (BitVec.ofNat 16 (paddedSet id data).size)) ++
          (data ++ List.replicate (padding (4 + data.length)) 0) := by
      rw [RawSet.bytes, List.append_assoc]
      rfl
    rw [hbytes]
    refine holds_append.mpr ⟨hheader.holds memory, ?_⟩
    rw [hstart]
    refine holds_append.mpr ⟨hheader.frame memory ?_ (Or.inr (le_of_eq hstart)),
      hheader.frame memory ?_ (Or.inr ?_)⟩
    · rw [Cursor.contents_move, Cursor.contents_fill]
      exact hdata'
    · rw [Cursor.contents_move, Cursor.contents_fill, ← hpos]
      exact hpadding
    · exact le_trans (le_of_eq hstart) (Nat.le_add_right _ _)
  · intro a xs hxs hle
    refine hheader.frame memory ?_ (Or.inl hle)
    rw [Cursor.contents_move, Cursor.contents_fill]
    exact hxs.store (Or.inl (by omega))
  · rw [hheader.loaded, Cursor.contents_move, Cursor.contents_fill]

/-! ## Before the loop -/

section Sending

variable (libc : Libc) (station : Station)

/-- What the datagrams have in common, from the random number on. -/
def fixedBytes : List Byte :=
  bytes4 libc.rand ++ (receiverTemplate.bytes ++ (senderTemplate.bytes ++
    station.set.bytes))

theorem length_fixedBytes :
    12 + (fixedBytes libc station).length = station.start := by
  rw [fixedBytes, List.length_append, List.length_append, List.length_append,
    station.set.length_bytes, station.size_set.1, Station.start]
  change 12 + (4 + (44 + (60 + station.size))) = _
  omega

theorem header_eq :
    header libc = bytes2 10 ++ (List.replicate 10 0 ++ (bytes4 libc.rand ++
      (receiverTemplate.bytes ++ senderTemplate.bytes))) := by
  rfl

/-- The buffer as the prologue leaves it. -/
structure Prepared (mem : ℕ → Byte) : Prop where
  version : Holds mem 0 (bytes2 10)
  fixed : Holds mem 12 (fixedBytes libc station)

theorem Prepared.of_keep {libc : Libc} {station : Station}
    {mem mem' : ℕ → Byte} (h : Prepared libc station mem)
    (hkeep : ∀ {a : ℕ} {xs : List Byte}, Holds mem a xs →
      a + xs.length ≤ station.start → Holds mem' a xs) :
    Prepared libc station mem' where
  version := hkeep h.version (by
    rw [← length_fixedBytes libc station]
    exact le_trans (by decide) (Nat.le_add_right 12 _))
  fixed := hkeep h.fixed (le_of_eq (length_fixedBytes libc station))

theorem prepared_prologue (memory : ℕ → Byte) :
    Prepared libc station
        ((prologue libc station).1.contents memory).memory ∧
      ((prologue libc station).1.contents memory).loaded = [] := by
  let c := ((⟨0, []⟩ : Cursor Byte).fill (header libc)).move 124
  have hfirst : c.contents memory = ⟨Memory.store memory 0 (header libc), []⟩ := by
    rw [Cursor.contents_move, Cursor.contents_fill]
    rfl
  have hputs := puts_copyStation c station
  have hheader := holds_store_self memory 0 (header libc)
  rw [header_eq, holds_append, holds_append] at hheader
  obtain ⟨hversion, -, hfixed⟩ := hheader
  have hcloses : Closes memory (copyStation c station)
      (closeSet (copyStation c station) 120 0x9992) 120 station.set :=
    closes_closeSet 0x9992 hputs.pos (hputs.holds memory)
  have hprologue : (prologue libc station).1.contents memory =
      (closeSet (copyStation c station) 120 0x9992).contents memory :=
    Cursor.contents_move _ _ _
  have hkeep : ∀ {a : ℕ} {xs : List Byte},
      Holds (Memory.store memory 0 (header libc)) a xs → a + xs.length ≤ 120 →
        Holds ((closeSet (copyStation c station) 120 0x9992).contents
          memory).memory a xs := by
    intro a xs hxs hle
    refine hcloses.frame (hputs.frame memory ?_ (Or.inl ?_)) hle
    · rw [hfirst]
      exact hxs
    · exact le_trans hle (Nat.le_add_right 120 4)
  rw [hprologue]
  refine ⟨⟨hkeep hversion (by decide), ?_⟩, ?_⟩
  · rw [fixedBytes, ← List.append_assoc, ← List.append_assoc, holds_append,
      List.append_assoc]
    exact ⟨hkeep hfixed (le_refl 120), hcloses.holds⟩
  · rw [hcloses.loaded, hputs.loaded, hfirst]

/-! ## The loop -/

/-- The loop when `batches` are sent and the records of `batch` are copied. -/
structure Building (memory : ℕ → Byte) (batches : List (List Record))
    (batch : List Record) (s : Progress) : Prop where
  counter : s.counter = batch.length
  sequence : s.sequence = batches.length
  pos : s.cursor.pos = station.start + 4 + (batchBytes batch).length
  prepared : Prepared libc station (s.cursor.contents memory).memory
  data : Holds (s.cursor.contents memory).memory (station.start + 4)
    (batchBytes batch)
  loaded : (s.cursor.contents memory).loaded =
    batches.mapIdx fun k batch => (datagram libc station k batch).bytes

variable {libc station}
variable {memory : ℕ → Byte} {batches : List (List Record)}
  {batch : List Record} {s : Progress}

theorem building_prologue :
    Building libc station memory [] [] ⟨(prologue libc station).1, 0, 0⟩ := by
  obtain ⟨hprepared, hloaded⟩ := prepared_prologue libc station memory
  obtain ⟨-, hpos, -⟩ := prologue_spec libc station
  exact ⟨rfl, rfl, hpos, hprepared, rfl, hloaded⟩

theorem Building.copy (h : Building libc station memory batches batch s)
    (r : Record) :
    Building libc station memory batches (batch ++ [r])
      { s with cursor := copyRecord s.cursor r, counter := s.counter + 1 } := by
  have hputs := puts_copyRecord s.cursor r
  have hbytes : batchBytes (batch ++ [r]) =
      batchBytes batch ++ recordBytes senderFields r.fields := by
    rw [batchBytes, List.flatMap_append, List.flatMap_singleton]
    rfl
  have hpos := h.pos
  constructor
  · rw [List.length_append, ← h.counter]
    rfl
  · exact h.sequence
  · rw [hbytes, List.length_append, ← Nat.add_assoc, ← hpos]
    exact hputs.pos
  · refine h.prepared.of_keep fun hxs hle => ?_
    exact hputs.frame memory hxs (Or.inl (by omega))
  · rw [hbytes]
    refine holds_append.mpr ⟨hputs.frame memory h.data (Or.inl (by omega)), ?_⟩
    rw [← hpos]
    exact hputs.holds memory
  · exact (hputs.loaded memory).trans h.loaded

theorem datagram_bytes (libc : Libc) (station : Station) (k : ℕ)
    (batch : List Record) :
    (datagram libc station k batch).bytes =
      bytes2 10 ++
        ((bytes2 (BitVec.ofNat 16 (datagram libc station k batch).size) ++
          (bytes4 (BitVec.ofInt 32 (libc.time k)) ++
            bytes4 (BitVec.ofNat 32 k))) ++
        (fixedBytes libc station ++ (recordsSet batch).bytes)) := by
  have hsets : (datagram libc station k batch).sets.flatMap RawSet.bytes =
      receiverTemplate.bytes ++ (senderTemplate.bytes ++ (station.set.bytes ++
        (recordsSet batch).bytes)) := by
    rw [datagram, List.flatMap_cons, List.flatMap_cons, List.flatMap_cons,
      List.flatMap_singleton]
  rw [Message.bytes, Message.headerBytes, hsets, fixedBytes]
  simp only [List.append_assoc]
  rfl

theorem size_datagram (libc : Libc) (station : Station) (k : ℕ)
    (batch : List Record) :
    (datagram libc station k batch).size =
      station.start + recordsSize batch := by
  rw [Station.start, ← station.size_set.1, ← (size_recordsSet batch).1]
  change 16 + (44 + (60 + (_ + (_ + 0)))) = _
  omega

/-- Fills in the length, the time and the number of a datagram. -/
def fillHeader (c : Cursor Byte) (size : ℕ) (time sequence : BitVec 32) :
    Cursor Byte :=
  copyInt4 (copyInt4 (copyInt2 (c.move 2) (BitVec.ofNat 16 size)) time) sequence

theorem puts_fillHeader (c : Cursor Byte) (size : ℕ)
    (time sequence : BitVec 32) :
    Puts (c.move 2) (fillHeader c size time sequence)
      (bytes2 (BitVec.ofNat 16 size) ++ (bytes4 time ++ bytes4 sequence)) :=
  (puts_copyInt2 _ _).append ((puts_copyInt4 _ _).append (puts_copyInt4 _ _))

theorem send_eq (libc : Libc) (start : ℕ) (s : Progress) :
    send libc start s =
      let size := s.cursor.pos - start
      let size := size + padding size
      { cursor := ((fillHeader (closeSet s.cursor start 0x9993) (size + start)
          (BitVec.ofInt 32 (libc.time s.sequence))
          (BitVec.ofNat 32 s.sequence)).load 0 (size + start)).move (start + 4)
        counter := 0
        sequence := s.sequence + 1 } := rfl

theorem holds_datagram {mem : ℕ → Byte} {k size : ℕ}
    (hsize : size = (datagram libc station k batch).size)
    (hprepared : Prepared libc station mem)
    (hheader : Holds mem 2 (bytes2 (BitVec.ofNat 16 size) ++
      (bytes4 (BitVec.ofInt 32 (libc.time k)) ++ bytes4 (BitVec.ofNat 32 k))))
    (hrecords : Holds mem station.start (recordsSet batch).bytes) :
    Memory.read mem 0 size = (datagram libc station k batch).bytes := by
  have hstart := length_fixedBytes libc station
  have hholds : Holds mem 0 (datagram libc station k batch).bytes := by
    rw [datagram_bytes, ← hsize]
    refine holds_append.mpr ⟨hprepared.version, holds_append.mpr ⟨hheader,
      holds_append.mpr ⟨hprepared.fixed, ?_⟩⟩⟩
    change Holds _ (12 + (fixedBytes libc station).length) _
    rw [hstart]
    exact hrecords
  rw [hsize, ← Message.length_bytes]
  exact hholds

/-- The datagram is sent, and the next one is built from its start. -/
theorem Building.send (h : Building libc station memory batches batch s) :
    Building libc station memory (batches ++ [batch]) []
      (send libc station.start s) := by
  have hcloses := closes_closeSet 0x9993 h.pos h.data
  have hsize : s.cursor.pos - station.start + padding (s.cursor.pos -
      station.start) = recordsSize batch := by
    have hpos := h.pos
    have hlength : s.cursor.pos - station.start =
        4 + (batch.map Record.size).sum := by
      rw [← length_batchBytes]
      omega
    rw [hlength, recordsSize]
  have hprepared := h.prepared.of_keep hcloses.frame
  have hloaded := hcloses.loaded
  have hrecords := hcloses.holds
  rw [send_eq]
  dsimp only
  rw [hsize]
  generalize closeSet s.cursor station.start 0x9993 = c
    at hprepared hloaded hrecords
  have hputs := puts_fillHeader c (recordsSize batch + station.start)
    (BitVec.ofInt 32 (libc.time s.sequence)) (BitVec.ofNat 32 s.sequence)
  generalize fillHeader c _ _ _ = c' at hputs
  have hkeep : ∀ {a : ℕ} {xs : List Byte},
      Holds (c.contents memory).memory a xs → a + xs.length ≤ 2 ∨ 12 ≤ a →
        Holds (c'.contents memory).memory a xs := by
    intro a xs hxs hdisjoint
    refine hputs.frame memory ?_ hdisjoint
    rw [Cursor.contents_move]
    exact hxs
  have hstart := length_fixedBytes libc station
  have hprepared' : Prepared libc station (c'.contents memory).memory :=
    ⟨hkeep hprepared.version (Or.inl (by decide)),
      hkeep hprepared.fixed (Or.inr (le_refl 12))⟩
  have hread : Memory.read (c'.contents memory).memory 0
      (recordsSize batch + station.start) =
        (datagram libc station s.sequence batch).bytes :=
    holds_datagram (by rw [size_datagram, Nat.add_comm]) hprepared'
      (hputs.holds memory) (hkeep hrecords (Or.inr (by omega)))
  constructor
  · rfl
  · rw [List.length_append, ← h.sequence]
    rfl
  · rfl
  · rw [Cursor.contents_move, Cursor.contents_load]
    exact hprepared'
  · rfl
  · rw [Cursor.contents_move, Cursor.contents_load, hread, hputs.loaded,
      Cursor.contents_move, hloaded, h.loaded, List.mapIdx_concat,
      h.sequence]

theorem building_run (libc : Libc) (station : Station) (memory : ℕ → Byte)
    (ls : List (List Byte)) :
    ∃ batches batch,
      batches.flatten ++ batch = ls.filterMap (readRecord libc) ∧
        (∀ batch ∈ batches, batch.length = 10) ∧ batch.length < 10 ∧
        Building libc station memory batches batch
          (run (body libc station.start) ⟨(prologue libc station).1, 0, 0⟩
            (ls.map some)) := by
  induction ls using List.reverseRecOn with
  | nil => exact ⟨[], [], rfl, nofun, by decide, building_prologue⟩
  | append_singleton ls line ih =>
      obtain ⟨batches, batch, hrecords, hfull, hlt, hbuilding⟩ := ih
      rw [List.map_append, run_append, List.filterMap_append, ← hrecords]
      generalize run _ _ (ls.map some) = s at hbuilding
      change ∃ batches batch, _ ∧ _ ∧ _ ∧ Building _ _ _ _ _
        (body libc station.start s (some line))
      rw [body]
      cases hread : readRecord libc line with
      | none =>
          rw [List.filterMap_cons_none hread, List.filterMap_nil,
            List.append_nil]
          exact ⟨batches, batch, rfl, hfull, hlt, hbuilding⟩
      | some r =>
          rw [List.filterMap_cons_some hread, List.filterMap_nil]
          have hcopy := hbuilding.copy r
          have hcounter := hcopy.counter
          dsimp only at hcounter ⊢
          split
          next hroom =>
            rw [hcounter] at hroom
            exact ⟨batches, batch ++ [r], (List.append_assoc _ _ _).symm,
              hfull, hroom, hcopy⟩
          next hten =>
            have hlength : (batch ++ [r]).length = 10 := by
              rw [hcounter, List.length_append, List.length_singleton] at hten
              rw [List.length_append, List.length_singleton]
              omega
            refine ⟨batches ++ [batch ++ [r]], [], ?_, ?_, by decide,
              hcopy.send⟩
            · rw [List.append_nil, List.flatten_append, List.flatten_singleton,
                List.append_assoc]
            · rw [List.forall_mem_append, List.forall_mem_singleton]
              exact ⟨hfull, hlength⟩

/-- The datagrams sent are the messages of the records in tens. -/
theorem sent_eq (libc : Libc) (station : Station) (file : List Byte)
    (memory : ℕ → Byte) :
    ∃ batches : List (List Record),
      batches.flatten = records libc file ∧
        (∀ batch ∈ batches, 1 ≤ batch.length ∧ batch.length ≤ 10) ∧
        sent libc station file memory = batches.mapIdx fun k batch =>
          (datagram libc station k batch).bytes := by
  obtain ⟨batches, batch, hrecords, hfull, hlt, hbuilding⟩ :=
    building_run libc station memory (lines file)
  have hbatches : ∀ batch ∈ batches, 1 ≤ batch.length ∧ batch.length ≤ 10 := by
    intro batch hmem
    rw [hfull batch hmem]
    decide
  rw [sent, upload, (prologue_spec libc station).1, run_append, run_cons,
    run_nil, records, ← hrecords]
  generalize run _ _ ((lines file).map some) = s at hbuilding
  rw [body]
  split
  next hpos =>
    rw [hbuilding.counter] at hpos
    refine ⟨batches ++ [batch], ?_, ?_, hbuilding.send.loaded⟩
    · rw [List.flatten_append, List.flatten_singleton]
    · rw [List.forall_mem_append, List.forall_mem_singleton]
      exact ⟨hbatches, hpos, Nat.le_of_lt hlt⟩
  next hpos =>
    rw [hbuilding.counter, Nat.pos_iff_ne_zero, not_not,
      List.length_eq_zero_iff] at hpos
    refine ⟨batches, ?_, hbatches, hbuilding.loaded⟩
    rw [hpos, List.append_nil]

/-- The SNR is sent intact exactly if it fits into a byte. -/
theorem sentSnr_eq_iff (r : Record) :
    r.sentSnr = r.snr.toInt ↔ -128 ≤ r.snr.toInt ∧ r.snr.toInt < 128 := by
  rw [Record.sentSnr]
  constructor
  · intro h
    rw [← h]
    exact ⟨BitVec.le_toInt _, BitVec.toInt_lt⟩
  · rintro ⟨hle, hlt⟩
    have hmod : (r.snr.toNat : ℤ) % 256 = r.snr.toInt % 256 := by
      rw [BitVec.toInt_eq_toNat_bmod, Int.bmod_def]
      omega
    rw [BitVec.toInt_setWidth, ← Int.emod_bmod]
    change Int.bmod (_ % 256) 256 = _
    rw [hmod]
    change Int.bmod (_ % ((256 : ℕ) : ℤ)) 256 = _
    rw [Int.emod_bmod]
    exact Int.bmod_eq_of_le hle hlt

theorem sentTime_eq (r : Record) : r.sentTime = (r.time + 15) % 2 ^ 32 := by
  have hnonneg : 0 ≤ (r.time + 15) % 2 ^ 32 := Int.emod_nonneg _ (by decide)
  rw [Record.sentTime, BitVec.toNat_ofInt]
  exact Int.toNat_of_nonneg hnonneg

/-- The time is sent intact exactly if it fits into an unsigned word. -/
theorem sentTime_eq_iff (r : Record) :
    r.sentTime = r.time + 15 ↔ 0 ≤ r.time + 15 ∧ r.time + 15 < 2 ^ 32 := by
  rw [sentTime_eq]
  constructor
  · intro h
    rw [← h]
    exact ⟨Int.emod_nonneg _ (by decide), Int.emod_lt_of_pos _ (by decide)⟩
  · rintro ⟨hnonneg, hlt⟩
    exact Int.emod_eq_of_lt hnonneg hlt

/-- A reader of the datagrams gets the records of the file, in order, with the
SNR in a signed byte and the time in an unsigned word. -/
theorem framed_upload (libc : Libc) (station : Station) (file : List Byte) :
    Framed libc station file Record.sentSnr Record.sentTime ∧
      (∀ r : Record, r.sentSnr = r.snr.toInt ↔
        -128 ≤ r.snr.toInt ∧ r.snr.toInt < 128) ∧
      ∀ r : Record, r.sentTime = (r.time + 15) % 2 ^ 32 ∧
        (r.sentTime = r.time + 15 ↔
          0 ≤ r.time + 15 ∧ r.time + 15 < 2 ^ 32) := by
  refine ⟨fun memory => ?_, sentSnr_eq_iff,
    fun r => ⟨sentTime_eq r, sentTime_eq_iff r⟩⟩
  obtain ⟨batches, hrecords, hlengths, hsent⟩ :=
    sent_eq libc station file memory
  refine ⟨batches, hrecords, hlengths, ?_⟩
  rw [hsent]
  apply List.ext_getElem
  · rw [List.length_map, List.length_mapIdx, List.length_mapIdx]
  · intro k hk hk'
    rw [List.length_mapIdx] at hk'
    have hmem : batches[k] ∈ batches := List.getElem_mem hk'
    rw [List.getElem_map, List.getElem_mapIdx, List.getElem_mapIdx]
    exact readReport_datagram libc station k (hlengths _ hmem).2

/-- All records that a reader gets. -/
theorem Framed.senders {file : List Byte} {snr time : Record → ℤ}
    (h : Framed libc station file snr time) (memory : ℕ → Byte) :
    ((sent libc station file memory).map readReport).flatMap
        (fun report => (report.map Report.senders).getD []) =
      (records libc file).map (Record.sender snr time) := by
  obtain ⟨batches, hrecords, -, hsent⟩ := h memory
  rw [hsent, ← hrecords, List.mapIdx_eq_zipIdx_map, List.flatMap_map,
    List.map_flatten, ← List.flatMap_def]
  change List.flatMap (fun batch => batch.1.map (Record.sender snr time))
    batches.zipIdx = _
  rw [← List.flatMap_map Prod.fst, List.zipIdx_map_fst]

/-- A station heard with an SNR of 200. -/
def loudLine : List Byte :=
  epoch ++ ascii [' ', '1', ' ', '2', '0', '0', ' ', '1', ' ', '1', ' ', 'A',
    ' ', 'K', 'P', '2', '0', '\n']

/-- The start of 1969 in the format of the file. -/
def earlyTime : List Byte :=
  ascii ['6', '9', '0', '1', '0', '1', ' ', '0', '0', '0', '0', '0', '0']

/-- The library on lines that start with that time. -/
def earlyLibc : Libc :=
  { integerLibc with
    strptime := fun src =>
      if src.take 13 = earlyTime then some (-31536000, src.drop 13) else none }

/-- A station heard then. -/
def earlyLine : List Byte :=
  earlyTime ++ ascii [' ', '1', ' ', '1', ' ', '1', ' ', '1', ' ', 'A',
    ' ', 'K', 'P', '2', '0', '\n']

/-- The first is read back with an SNR of -56, and the second, whatever is said
of the SNR, with the time 4263431311. -/
theorem not_framed_loud :
    (¬∀ (libc : Libc) (station : Station) (file : List Byte),
      Framed libc station file (fun r => r.snr.toInt) fun r => r.time + 15) ∧
    ¬∀ (libc : Libc) (station : Station) (file : List Byte),
      Framed libc station file Record.sentSnr fun r => r.time + 15 := by
  constructor
  · intro h
    have hsenders := (h integerLibc longestStation loudLine).senders fun _ => 0
    revert hsenders
    decide +kernel
  · intro h
    have hsenders := (h earlyLibc longestStation earlyLine).senders fun _ => 0
    revert hsenders
    decide +kernel

end Sending

end RedPitayaNotes.SdrTransceiverFt8
