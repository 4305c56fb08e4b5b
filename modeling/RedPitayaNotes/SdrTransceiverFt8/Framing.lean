import RedPitayaNotes.SdrTransceiverFt8.Bounds
import RedPitayaNotes.Support.Ipfix

/-!
# The datagrams of the uploader

What `upload-to-pskreporter.c` sends are IPFIX messages, each with its templates,
the record of the receiving station and up to ten records of stations heard.  A
report is what a reader of such messages gets from one.
-/

namespace RedPitayaNotes.SdrTransceiverFt8

open Bits Clocked Ipfix

/-! ## Reports -/

/-- The record of a station heard. -/
structure Sender where
  call : List Byte
  grid : List Byte
  freq : BitVec 32
  snr : ℤ
  mode : List Byte
  source : BitVec 8
  time : ℤ
deriving DecidableEq

/-- The record of the receiving station. -/
structure Receiver where
  call : List Byte
  grid : List Byte
  software : List Byte
  antenna : List Byte
deriving DecidableEq

structure Report where
  time : BitVec 32
  sequence : BitVec 32
  domain : BitVec 32
  /-- The numbers of the sets and their lengths in bytes. -/
  sets : List (BitVec 16 × ℕ)
  receiver : Receiver
  senders : List Sender
deriving DecidableEq

/-- The SNR is a signed byte, the time an unsigned word. -/
def Sender.ofFields : List (List Byte) → Option Sender
  | [call, grid, [f3, f2, f1, f0], [snr], mode, [source], [t3, t2, t1, t0]] =>
    some {
      call, grid
      freq := f3 ++ f2 ++ f1 ++ f0
      snr := snr.toInt
      mode, source
      time := (t3 ++ t2 ++ t1 ++ t0 : BitVec 32).toNat }
  | _ => none

/-- The report of a datagram. -/
def readReport (datagram : List Byte) : Option Report := do
  let m ← message datagram
  match ← m.data with
  | [(id, [[call, grid, software, antenna]]), (id', records)] =>
    if id = 0x9992 ∧ id' = 0x9993 then
      let senders ← records.mapM Sender.ofFields
      return {
        time := m.exportTime
        sequence := m.sequence
        domain := m.domain
        sets := m.sets.map fun s => (s.id, s.size)
        receiver := ⟨call, grid, software, antenna⟩
        senders }
    else none
  | _ => none

section Framed

variable (libc : Libc) (station : Station) (file : List Byte)

/-- The datagrams that the program sends, when its buffer has no end and holds
`memory` at first. -/
def sent (memory : ℕ → Byte) : List (List Byte) :=
  ((upload libc station file).contents memory).loaded

def Station.receiver : Receiver :=
  ⟨station.call, station.grid, soft, station.antenna⟩

/-- The record of a line, with the SNR and the time given by `snr` and `time`. -/
def Record.sender (snr time : Record → ℤ) (r : Record) : Sender where
  call := r.call
  grid := r.grid
  freq := r.freq
  snr := snr r
  mode := ascii ['F', 'T', '8']
  source := 1
  time := time r

/-- The length of the set of some records. -/
def recordsSize (batch : List Record) : ℕ :=
  let size := 4 + (batch.map Record.size).sum
  size + padding size

/-- The report of datagram `k`. -/
def report (snr time : Record → ℤ) (k : ℕ) (batch : List Record) : Report where
  time := BitVec.ofInt 32 (libc.time k)
  sequence := BitVec.ofNat 32 k
  domain := libc.rand
  sets := [(3, 44), (2, 60), (0x9992, station.size),
    (0x9993, recordsSize batch)]
  receiver := station.receiver
  senders := batch.map (Record.sender snr time)

/-- The datagrams are messages with exact lengths, numbered from 0, of one to
ten records each, and hold the records of the file in order. -/
def Framed (snr time : Record → ℤ) : Prop :=
  ∀ memory, ∃ batches : List (List Record),
    batches.flatten = records libc file ∧
      (∀ batch ∈ batches, 1 ≤ batch.length ∧ batch.length ≤ 10) ∧
      (sent libc station file memory).map readReport =
        batches.mapIdx fun k batch => some (report libc station snr time k batch)

end Framed

/-! ## Messages -/

/-- The fields of the station record. -/
def receiverFields : List FieldSpecifier :=
  [⟨0x8002, variableLength, some 0x768F⟩, ⟨0x8004, variableLength, some 0x768F⟩,
    ⟨0x8008, variableLength, some 0x768F⟩, ⟨0x8009, variableLength, some 0x768F⟩]

/-- The fields of a record. -/
def senderFields : List FieldSpecifier :=
  [⟨0x8001, variableLength, some 0x768F⟩, ⟨0x8003, variableLength, some 0x768F⟩,
    ⟨0x8005, 4, some 0x768F⟩, ⟨0x8006, 1, some 0x768F⟩,
    ⟨0x800A, variableLength, some 0x768F⟩, ⟨0x800B, 1, some 0x768F⟩,
    ⟨0x0096, 4, none⟩]

def Station.fields (station : Station) : List (List Byte) :=
  [station.call, station.grid, soft, station.antenna]

def Record.fields (r : Record) : List (List Byte) :=
  [r.call, r.grid, bytes4 r.freq, [r.snr.setWidth 8], ascii ['F', 'T', '8'],
    [1], bytes4 (BitVec.ofInt 32 (r.time + 15))]

/-- The set with the template of the station record. -/
def receiverTemplate : RawSet where
  id := 3
  content :=
    [0x99, 0x92, 0x00, 0x04, 0x00, 0x00,
     0x80, 0x02, 0xFF, 0xFF, 0x00, 0x00, 0x76, 0x8F,
     0x80, 0x04, 0xFF, 0xFF, 0x00, 0x00, 0x76, 0x8F,
     0x80, 0x08, 0xFF, 0xFF, 0x00, 0x00, 0x76, 0x8F,
     0x80, 0x09, 0xFF, 0xFF, 0x00, 0x00, 0x76, 0x8F,
     0x00, 0x00]

/-- The set with the template of the records. -/
def senderTemplate : RawSet where
  id := 2
  content :=
    [0x99, 0x93, 0x00, 0x07,
     0x80, 0x01, 0xFF, 0xFF, 0x00, 0x00, 0x76, 0x8F,
     0x80, 0x03, 0xFF, 0xFF, 0x00, 0x00, 0x76, 0x8F,
     0x80, 0x05, 0x00, 0x04, 0x00, 0x00, 0x76, 0x8F,
     0x80, 0x06, 0x00, 0x01, 0x00, 0x00, 0x76, 0x8F,
     0x80, 0x0A, 0xFF, 0xFF, 0x00, 0x00, 0x76, 0x8F,
     0x80, 0x0B, 0x00, 0x01, 0x00, 0x00, 0x76, 0x8F,
     0x00, 0x96, 0x00, 0x04]

/-- A set padded to a multiple of four bytes. -/
def paddedSet (id : BitVec 16) (data : List Byte) : RawSet where
  id := id
  content := data ++ List.replicate (padding (4 + data.length)) 0

def Station.set (station : Station) : RawSet :=
  paddedSet 0x9992 (recordBytes receiverFields station.fields)

/-- The bytes of some records. -/
def batchBytes (batch : List Record) : List Byte :=
  batch.flatMap fun r => recordBytes senderFields r.fields

def recordsSet (batch : List Record) : RawSet :=
  paddedSet 0x9993 (batchBytes batch)

/-- The message of datagram `k`. -/
def datagram (libc : Libc) (station : Station) (k : ℕ) (batch : List Record) :
    Message where
  exportTime := BitVec.ofInt 32 (libc.time k)
  sequence := BitVec.ofNat 32 k
  domain := libc.rand
  sets := [receiverTemplate, senderTemplate, station.set, recordsSet batch]

theorem templates_eq :
    receiverTemplate.templates = some [⟨0x9992, receiverFields⟩] ∧
      senderTemplate.templates = some [⟨0x9993, senderFields⟩] := by
  decide +kernel

theorem paddedSet_spec (id : BitVec 16) (data : List Byte) :
    (paddedSet id data).size =
        4 + data.length + padding (4 + data.length) ∧
      (paddedSet id data).size % 4 = 0 := by
  have hsize : (paddedSet id data).size =
      4 + data.length + padding (4 + data.length) := by
    rw [RawSet.size, paddedSet, List.length_append, List.length_replicate]
    omega
  exact ⟨hsize, by rw [hsize]; exact padding_dvd _⟩

theorem Station.fits (station : Station) :
    List.Forall₂ Fits receiverFields station.fields := by
  have hcall := station.call_le
  have hgrid := station.grid_le
  have hantenna := station.antenna_le
  refine .cons ?_ (.cons ?_ (.cons ?_ (.cons ?_ .nil)))
  · exact (if_pos rfl).mpr (by omega)
  · exact (if_pos rfl).mpr (by omega)
  · exact (if_pos rfl).mpr (by rw [length_soft]; decide)
  · exact (if_pos rfl).mpr (by omega)

theorem Record.fits (r : Record) : List.Forall₂ Fits senderFields r.fields := by
  have hcall := r.call_le
  have hgrid := r.grid_le
  refine .cons ?_ (.cons ?_ (.cons ?_ (.cons ?_ (.cons ?_ (.cons ?_
    (.cons ?_ .nil))))))
  · exact (if_pos rfl).mpr (by omega)
  · exact (if_pos rfl).mpr (by omega)
  · exact (if_neg (by decide)).mpr rfl
  · exact (if_neg (by decide)).mpr rfl
  · exact (if_pos rfl).mpr (by decide)
  · exact (if_neg (by decide)).mpr rfl
  · exact (if_neg (by decide)).mpr rfl

/-- A string as it is copied: its length and its bytes. -/
def stringBytes (value : List Byte) : List Byte :=
  BitVec.ofNat 8 value.length :: value

theorem length_stringBytes (value : List Byte) :
    (stringBytes value).length = 1 + value.length :=
  Nat.add_comm _ _

theorem Station.recordBytes_eq (station : Station) :
    recordBytes receiverFields station.fields =
      stringBytes station.call ++ (stringBytes station.grid ++
        (stringBytes soft ++ stringBytes station.antenna)) := by
  change _ ++ (_ ++ (_ ++ (_ ++ []))) = _
  rw [List.append_nil]
  rfl

theorem Record.recordBytes_eq (r : Record) :
    recordBytes senderFields r.fields =
      stringBytes r.call ++ (stringBytes r.grid ++ (bytes4 r.freq ++
        ([r.snr.setWidth 8] ++ (stringBytes (ascii ['F', 'T', '8']) ++
          ([1] ++ bytes4 (BitVec.ofInt 32 (r.time + 15))))))) := by
  change _ ++ (_ ++ (_ ++ (_ ++ (_ ++ (_ ++ (_ ++ [])))))) = _
  rw [List.append_nil]
  rfl

theorem Record.length_recordBytes (r : Record) :
    (recordBytes senderFields r.fields).length = r.size := by
  rw [r.recordBytes_eq, Record.size]
  simp only [List.length_append, length_stringBytes]
  change 1 + _ + (1 + _ + (4 + (1 + (1 + 3 + (1 + 4))))) = _
  omega

theorem length_batchBytes (batch : List Record) :
    (batchBytes batch).length = (batch.map Record.size).sum := by
  rw [batchBytes, List.length_flatMap]
  exact congrArg List.sum
    (List.map_congr_left fun r _ => r.length_recordBytes)

theorem Station.size_set (station : Station) :
    station.set.size = station.size ∧ station.set.size % 4 = 0 := by
  obtain ⟨hsize, hmod⟩ := paddedSet_spec 0x9992
    (recordBytes receiverFields station.fields)
  refine ⟨?_, hmod⟩
  have hlength : 4 + (recordBytes receiverFields station.fields).length =
      4 + (1 + station.call.length) + (1 + station.grid.length) +
        (1 + soft.length) + (1 + station.antenna.length) := by
    rw [station.recordBytes_eq]
    simp only [List.length_append, length_stringBytes]
    omega
  rw [set, hsize, hlength]
  rfl

theorem size_recordsSet (batch : List Record) :
    (recordsSet batch).size = recordsSize batch ∧
      (recordsSet batch).size % 4 = 0 := by
  obtain ⟨hsize, hmod⟩ := paddedSet_spec 0x9993 (batchBytes batch)
  refine ⟨?_, hmod⟩
  rw [recordsSet, hsize, length_batchBytes]
  rfl

theorem sum_size_le (batch : List Record) :
    (batch.map Record.size).sum ≤ 33 * batch.length := by
  induction batch with
  | nil => exact le_refl 0
  | cons r batch ih =>
      have hcall := r.call_le
      have hgrid := r.grid_le
      rw [List.map_cons, List.sum_cons, List.length_cons, Record.size]
      omega

/-- The length of a set of ten records fits into its field. -/
theorem recordsSize_lt {batch : List Record} (h : batch.length ≤ 10) :
    recordsSize batch < 338 := by
  have hsum := sum_size_le batch
  have hpad := padding_lt (4 + (batch.map Record.size).sum)
  rw [recordsSize]
  omega

theorem datagram_wellFormed (libc : Libc) (station : Station) (k : ℕ)
    {batch : List Record} (h : batch.length ≤ 10) :
    (datagram libc station k batch).WellFormed := by
  obtain ⟨hset, hmod⟩ := station.size_set
  obtain ⟨hrecords, hmod'⟩ := size_recordsSet batch
  have hstart := station.start_le
  have hlt := recordsSize_lt h
  rw [Station.start] at hstart
  constructor
  · change 16 + (44 + (60 + (station.set.size + ((recordsSet batch).size + 0)))) < _
    omega
  · intro s hs
    simp only [datagram, List.mem_cons, List.not_mem_nil, or_false] at hs
    rcases hs with rfl | rfl | rfl | rfl
    · exact ⟨by decide, by decide⟩
    · exact ⟨by decide, by decide⟩
    · exact ⟨by omega, hmod⟩
    · exact ⟨by omega, hmod'⟩

theorem Station.records_set (station : Station) :
    station.set.records [⟨0x9992, receiverFields⟩, ⟨0x9993, senderFields⟩] =
      some [station.fields] := by
  refine records_of_bytes (t := ⟨0x9992, receiverFields⟩)
    (n := padding (4 + (recordBytes receiverFields station.fields).length))
    rfl ?_ ?_ (padding_lt _) ?_
  · rw [List.forall_mem_singleton]
    exact station.fits
  · rw [List.forall_mem_singleton, station.recordBytes_eq]
    simp only [List.length_append, length_stringBytes]
    omega
  · rw [List.flatMap_singleton]
    rfl

theorem records_recordsSet (batch : List Record) :
    (recordsSet batch).records
        [⟨0x9992, receiverFields⟩, ⟨0x9993, senderFields⟩] =
      some (batch.map Record.fields) := by
  refine records_of_bytes (t := ⟨0x9993, senderFields⟩)
    (n := padding (4 + (batchBytes batch).length))
    rfl ?_ ?_ (padding_lt _) ?_
  · rw [List.forall_mem_map]
    exact fun r _ => r.fits
  · rw [List.forall_mem_map]
    intro r _
    rw [r.length_recordBytes, Record.size]
    omega
  · rw [List.flatMap_map]
    rfl

theorem data_datagram (libc : Libc) (station : Station) (k : ℕ)
    (batch : List Record) :
    (datagram libc station k batch).data =
      some [(0x9992, [station.fields]), (0x9993, batch.map Record.fields)] := by
  have htemplates : (datagram libc station k batch).sets.mapM
      RawSet.templates = some [[⟨0x9992, receiverFields⟩],
        [⟨0x9993, senderFields⟩], [], []] := by
    rw [datagram, List.mapM_cons, List.mapM_cons, templates_eq.1,
      templates_eq.2]
    rfl
  have hfilter : ((datagram libc station k batch).sets.filter
      fun s => 256 ≤ s.id.toNat) = [station.set, recordsSet batch] := rfl
  rw [Message.data, htemplates]
  change List.mapM (fun s => RawSet.records [⟨0x9992, receiverFields⟩,
    ⟨0x9993, senderFields⟩] s >>= fun rows => pure (s.id, rows))
    (List.filter _ _) = _
  rw [hfilter, List.mapM_cons, List.mapM_cons, station.records_set,
    records_recordsSet]
  rfl

/-- The SNR as it is sent, in the low byte. -/
def Record.sentSnr (r : Record) : ℤ := (r.snr.setWidth 8).toInt

/-- The time as it is sent, fifteen seconds later, in the low word. -/
def Record.sentTime (r : Record) : ℤ := (BitVec.ofInt 32 (r.time + 15)).toNat

theorem Record.ofFields_fields (r : Record) :
    Sender.ofFields r.fields = some (r.sender sentSnr sentTime) := by
  have hfreq := ofBytes_wordBytes r.freq
  have htime := ofBytes_wordBytes (BitVec.ofInt 32 (r.time + 15))
  change some (Sender.mk r.call r.grid (ofBytes (wordBytes r.freq)) _ _ 1
    (ofBytes (wordBytes (BitVec.ofInt 32 (r.time + 15)))).toNat) = _
  rw [hfreq, htime]
  rfl

/-- A datagram is read as the report of its records. -/
theorem readReport_datagram (libc : Libc) (station : Station) (k : ℕ)
    {batch : List Record} (h : batch.length ≤ 10) :
    readReport (datagram libc station k batch).bytes =
      some (report libc station Record.sentSnr Record.sentTime k batch) := by
  have hsenders : (batch.map Record.fields).mapM Sender.ofFields =
      some (batch.map (Record.sender Record.sentSnr Record.sentTime)) := by
    induction batch with
    | nil => rfl
    | cons r batch ih =>
        rw [List.map_cons, List.mapM_cons, r.ofFields_fields,
          ih (Nat.le_of_succ_le h)]
        rfl
  have hsets : ((datagram libc station k batch).sets.map
      fun s => (s.id, s.size)) =
        (report libc station Record.sentSnr Record.sentTime k batch).sets := by
    rw [report, ← station.size_set.1, ← (size_recordsSet batch).1]
    rfl
  rw [readReport, message_bytes (datagram_wellFormed libc station k h)]
  change ((datagram libc station k batch).data >>= _) = _
  rw [data_datagram]
  change ((batch.map Record.fields).mapM Sender.ofFields >>= _) = _
  rw [hsenders]
  change some (Report.mk _ _ _ ((datagram libc station k batch).sets.map
      fun s => (s.id, s.size)) _ _) = _
  rw [hsets]
  rfl

end RedPitayaNotes.SdrTransceiverFt8
