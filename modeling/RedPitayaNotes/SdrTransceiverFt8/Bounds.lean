import RedPitayaNotes.SdrTransceiverFt8.Upload

/-!
# The buffer of the uploader

A record takes 16 bytes and its two words, at most 33 in all, and follows a
header of 120 bytes and a station record of at most 116.  Ten of them need not
fit.  The program stays within its buffer exactly if each record ends in it.
-/

namespace RedPitayaNotes.SdrTransceiverFt8

open Bits Clocked

/-- `char buffer[512]` -/
def bufferSize : ℕ := 512

/-- The bytes of a record. -/
def Record.size (r : Record) : ℕ := 16 + r.call.length + r.grid.length

/-- The bytes of the station record, to a multiple of four. -/
def Station.size (station : Station) : ℕ :=
  let size := 4 + (1 + station.call.length) + (1 + station.grid.length) +
    (1 + soft.length) + (1 + station.antenna.length)
  size + padding size

/-- Where the data of a datagram starts. -/
def Station.start (station : Station) : ℕ := 120 + station.size

/-- Where record `i` of a file ends in its datagram: after the records of that
datagram up to it. -/
def recordEnd (station : Station) (rs : List Record) (i : ℕ) : ℕ :=
  station.start + 4 +
    (((rs.take (i + 1)).drop (10 * (i / 10))).map Record.size).sum

/-! ## Copies -/

section Copy

variable {c : Cursor Byte} {value : List Byte}

theorem copyChar_eq (h : value.length ≤ 64) :
    copyChar c value = (c.put [BitVec.ofNat 8 value.length]).put value := by
  have hsize : (BitVec.ofNat 8 value.length).toNat = value.length := by
    rw [BitVec.toNat_ofNat]
    exact Nat.mod_eq_of_lt (by omega)
  rw [copyChar, hsize, List.take_length]

theorem pos_copyInt1 (v : BitVec 8) : (copyInt1 c v).pos = c.pos + 1 := rfl

theorem pos_copyInt2 (v : BitVec 16) : (copyInt2 c v).pos = c.pos + 2 := rfl

theorem pos_copyInt4 (v : BitVec 32) : (copyInt4 c v).pos = c.pos + 4 := rfl

theorem within_copyInt1 {limit : ℕ} (v : BitVec 8) :
    (copyInt1 c v).Within limit ↔ c.Within limit ∧ c.pos + 1 ≤ limit :=
  Cursor.within_put

theorem within_copyInt2 {limit : ℕ} (v : BitVec 16) :
    (copyInt2 c v).Within limit ↔ c.Within limit ∧ c.pos + 2 ≤ limit :=
  Cursor.within_put

theorem within_copyInt4 {limit : ℕ} (v : BitVec 32) :
    (copyInt4 c v).Within limit ↔ c.Within limit ∧ c.pos + 4 ≤ limit :=
  Cursor.within_put

theorem pos_copyChar (h : value.length ≤ 64) :
    (copyChar c value).pos = c.pos + (1 + value.length) := by
  rw [copyChar_eq h, Cursor.pos_put, Cursor.pos_put, List.length_singleton,
    Nat.add_assoc]

theorem within_copyChar (h : value.length ≤ 64) {limit : ℕ} :
    (copyChar c value).Within limit ↔
      c.Within limit ∧ c.pos + (1 + value.length) ≤ limit := by
  rw [copyChar_eq h, Cursor.within_put, Cursor.within_put, Cursor.pos_put,
    List.length_singleton]
  constructor
  · rintro ⟨⟨hc, -⟩, hle⟩
    exact ⟨hc, by omega⟩
  · rintro ⟨hc, hle⟩
    exact ⟨⟨hc, by omega⟩, by omega⟩

end Copy

theorem padding_lt (size : ℕ) : padding size < 4 := Nat.mod_lt _ (by decide)

theorem padding_dvd (size : ℕ) : (size + padding size) % 4 = 0 := by
  unfold padding
  omega

/-! ## Before the loop -/

theorem length_header (libc : Libc) : (header libc).length = 120 := rfl

theorem length_soft : soft.length = 19 := rfl

theorem Station.start_le (station : Station) : station.start ≤ 236 := by
  have hcall := station.call_le
  have hgrid := station.grid_le
  have hantenna := station.antenna_le
  rw [start, size, length_soft]
  unfold padding
  omega

theorem Station.start_mod (station : Station) : station.start % 4 = 0 := by
  have hsize : station.size % 4 = 0 := padding_dvd _
  rw [start, Nat.add_mod, hsize]

/-- The station record as copied, before its header is set. -/
def copyStation (c : Cursor Byte) (station : Station) : Cursor Byte :=
  copyChar (copyChar (copyChar (copyChar c station.call) station.grid) soft)
    station.antenna

theorem copyStation_spec (c : Cursor Byte) (station : Station) :
    (copyStation c station).pos =
        c.pos + ((1 + station.call.length) + (1 + station.grid.length) +
          (1 + soft.length) + (1 + station.antenna.length)) ∧
      (c.Within bufferSize → c.pos ≤ 400 →
        (copyStation c station).Within bufferSize) := by
  have hcall := station.call_le
  have hgrid := station.grid_le
  have hcall' : station.call.length ≤ 64 := by omega
  have hgrid' : station.grid.length ≤ 64 := by omega
  have hsoft : soft.length ≤ 64 := by decide
  have hantenna := station.antenna_le
  have hlength := length_soft
  unfold copyStation
  constructor
  · rw [pos_copyChar hantenna, pos_copyChar hsoft, pos_copyChar hgrid',
      pos_copyChar hcall']
    omega
  · intro hc hpos
    unfold bufferSize at hc ⊢
    rw [within_copyChar hantenna, within_copyChar hsoft, within_copyChar hgrid',
      within_copyChar hcall', pos_copyChar hsoft, pos_copyChar hgrid',
      pos_copyChar hcall']
    exact ⟨⟨⟨⟨hc, by omega⟩, by omega⟩, by omega⟩, by omega⟩

/-- The prologue leaves the position behind the station record and the four
bytes of a set header, and keeps inside the buffer. -/
theorem prologue_spec (libc : Libc) (station : Station) :
    (prologue libc station).2 = station.start ∧
      (prologue libc station).1.pos = station.start + 4 ∧
      (prologue libc station).1.Within bufferSize := by
  obtain ⟨hpos, hwithin⟩ := copyStation_spec
    (((⟨0, []⟩ : Cursor Byte).fill (header libc)).move 124) station
  have hcopied : prologue libc station =
      let c := copyStation
        (((⟨0, []⟩ : Cursor Byte).fill (header libc)).move 124) station
      let size := c.pos - 120
      let c := c.fill (List.replicate (padding size) 0)
      let size := size + padding size
      let c := copyInt2 (copyInt2 (c.move 120) 0x9992) (BitVec.ofNat 16 size)
      (c.move (120 + size + 4), 120 + size) := rfl
  have hheader : (((⟨0, []⟩ : Cursor Byte).fill (header libc)).move 124).Within
      bufferSize := by
    rw [Cursor.within_move, Cursor.within_fill, length_header]
    exact ⟨⟨fun a ha => absurd ha List.not_mem_nil, by decide⟩, by decide⟩
  rw [hcopied]
  generalize copyStation _ station = c at hpos hwithin
  have hsize : c.pos - 120 =
      4 + (1 + station.call.length) + (1 + station.grid.length) +
        (1 + soft.length) + (1 + station.antenna.length) := by
    rw [hpos, Cursor.pos_move]
    omega
  have hstart : 120 + (c.pos - 120 + padding (c.pos - 120)) =
      station.start := by
    rw [hsize]
    rfl
  have hle := station.start_le
  refine ⟨hstart, ?_, ?_⟩
  · dsimp only
    rw [hstart]
    rfl
  · dsimp only
    rw [hstart]
    have hc := hwithin hheader (by rw [Cursor.pos_move]; decide)
    unfold bufferSize at hc ⊢
    simp only [Cursor.within_move, within_copyInt2, Cursor.within_fill,
      pos_copyInt2, Cursor.pos_move, List.length_replicate]
    refine ⟨⟨⟨⟨⟨hc, ?_⟩, ?_⟩, ?_⟩, ?_⟩, ?_⟩ <;> omega

/-! ## The loop -/

theorem copyRecord_spec (c : Cursor Byte) (r : Record) :
    (copyRecord c r).pos = c.pos + r.size ∧
      ((copyRecord c r).Within bufferSize ↔
        c.Within bufferSize ∧ c.pos + r.size ≤ bufferSize) := by
  have hcall : r.call.length ≤ 64 := le_trans r.call_le (by decide)
  have hgrid : r.grid.length ≤ 64 := le_trans r.grid_le (by decide)
  have hmode : (ascii ['F', 'T', '8']).length ≤ 64 := by decide
  have hlength : (ascii ['F', 'T', '8']).length = 3 := rfl
  unfold copyRecord Record.size
  constructor
  · simp only [pos_copyInt4, pos_copyInt1, pos_copyChar hmode,
      pos_copyChar hgrid, pos_copyChar hcall, hlength]
    omega
  · simp only [within_copyInt4, within_copyInt1, within_copyChar hmode,
      within_copyChar hgrid, within_copyChar hcall, pos_copyInt4,
      pos_copyInt1, pos_copyChar hmode, pos_copyChar hgrid,
      pos_copyChar hcall, hlength]
    constructor
    · rintro ⟨⟨⟨⟨⟨⟨⟨hc, -⟩, -⟩, -⟩, -⟩, -⟩, -⟩, hle⟩
      exact ⟨hc, by omega⟩
    · rintro ⟨hc, hle⟩
      refine ⟨⟨⟨⟨⟨⟨⟨hc, ?_⟩, ?_⟩, ?_⟩, ?_⟩, ?_⟩, ?_⟩, ?_⟩ <;> omega

/-- Completing a datagram that is inside the buffer stays inside. -/
theorem within_send (libc : Libc) {start : ℕ} {s : Progress}
    (hstart : start ≤ 236) (hmod : start % 4 = 0)
    (hpos : start + 4 ≤ s.cursor.pos)
    (hle : s.cursor.Within bufferSize → s.cursor.pos ≤ bufferSize) :
    (send libc start s).cursor.Within bufferSize ↔
      s.cursor.Within bufferSize := by
  have hpadded := padding_dvd (s.cursor.pos - start)
  have hlt := padding_lt (s.cursor.pos - start)
  unfold bufferSize at hle ⊢
  unfold send
  simp only [Cursor.within_move, Cursor.within_load, within_copyInt4,
    within_copyInt2, Cursor.within_fill, pos_copyInt4, pos_copyInt2,
    Cursor.pos_move, List.length_replicate]
  constructor
  · rintro ⟨⟨⟨⟨⟨⟨⟨⟨⟨⟨hc, -⟩, -⟩, -⟩, -⟩, -⟩, -⟩, -⟩, -⟩, -⟩, -⟩
    exact hc
  · intro hc
    have hend := hle hc
    -- the end of the data is a multiple of four, as 512 is
    have hfits : s.cursor.pos + padding (s.cursor.pos - start) ≤ 512 := by
      omega
    refine ⟨⟨⟨⟨⟨⟨⟨⟨⟨⟨hc, ?_⟩, ?_⟩, ?_⟩, ?_⟩, ?_⟩, ?_⟩, ?_⟩, ?_⟩, ?_⟩, ?_⟩ <;>
      omega

/-- The loop after the records `rs`. -/
structure LoopBooks (station : Station) (rs : List Record) (s : Progress) :
    Prop where
  counter : s.counter = rs.length % 10
  pos : s.cursor.pos = station.start + 4 +
    ((rs.drop (10 * (rs.length / 10))).map Record.size).sum
  le : s.cursor.Within bufferSize → s.cursor.pos ≤ bufferSize
  within : s.cursor.Within bufferSize ↔
    ∀ i < rs.length, recordEnd station rs i ≤ bufferSize

theorem recordEnd_append (station : Station) {rs : List Record} (r : Record)
    {i : ℕ} (h : i < rs.length) :
    recordEnd station (rs ++ [r]) i = recordEnd station rs i := by
  rw [recordEnd, recordEnd, List.take_append_of_le_length h]

theorem recordEnd_last (station : Station) (rs : List Record) (r : Record) :
    recordEnd station (rs ++ [r]) rs.length = station.start + 4 +
      ((rs.drop (10 * (rs.length / 10))).map Record.size).sum + r.size := by
  have hdrop : 10 * (rs.length / 10) ≤ rs.length := Nat.mul_div_le _ _
  have hall : (rs ++ [r]).take (rs.length + 1) = rs ++ [r] :=
    List.take_of_length_le (by rw [List.length_append, List.length_singleton])
  rw [recordEnd, hall, List.drop_append_of_le_length hdrop, List.map_append,
    List.sum_append, List.map_singleton, List.sum_singleton, ← Nat.add_assoc]

/-- A record is copied within the buffer exactly if it ends there. -/
theorem LoopBooks.copy {station : Station} {rs : List Record} {s : Progress}
    (h : LoopBooks station rs s) (r : Record) :
    (copyRecord s.cursor r).Within bufferSize ↔
      ∀ i < (rs ++ [r]).length,
        recordEnd station (rs ++ [r]) i ≤ bufferSize := by
  rw [(copyRecord_spec s.cursor r).2, h.within, h.pos, ← recordEnd_last,
    List.length_append, List.length_singleton]
  constructor
  · rintro ⟨hbefore, hlast⟩ i hi
    rcases Nat.lt_succ_iff_lt_or_eq.mp hi with hlt | rfl
    · rw [recordEnd_append station r hlt]
      exact hbefore i hlt
    · exact hlast
  · intro hall
    refine ⟨fun i hi => ?_, hall rs.length (Nat.lt_succ_self _)⟩
    rw [← recordEnd_append station r hi]
    exact hall i (Nat.lt_succ_of_lt hi)

theorem LoopBooks.record {station : Station} {rs : List Record} {s : Progress}
    (h : LoopBooks station rs s) (libc : Libc) (r : Record) :
    LoopBooks station (rs ++ [r])
      (let s := { s with
          cursor := copyRecord s.cursor r, counter := s.counter + 1 }
        if s.counter < 10 then s else send libc station.start s) := by
  have hcopy := h.copy r
  obtain ⟨hpos, hwithin⟩ := copyRecord_spec s.cursor r
  have hle : (copyRecord s.cursor r).Within bufferSize →
      (copyRecord s.cursor r).pos ≤ bufferSize := by
    intro hc
    rw [hpos]
    exact (hwithin.mp hc).2
  have hstart := station.start_le
  have hcounter := h.counter
  have hlength : (rs ++ [r]).length = rs.length + 1 := List.length_append
  dsimp only
  split
  next hlt =>
    -- the datagram has room for more records
    have hdiv : (rs ++ [r]).length / 10 = rs.length / 10 := by omega
    refine ⟨?_, ?_, hle, hcopy⟩
    · dsimp only
      omega
    · have hdrop : 10 * (rs.length / 10) ≤ rs.length := Nat.mul_div_le _ _
      rw [hdiv, List.drop_append_of_le_length hdrop, List.map_append,
        List.sum_append, List.map_singleton, List.sum_singleton,
        ← Nat.add_assoc, ← h.pos, hpos]
  next hfull =>
    -- the tenth record is sent with the others
    have hall : 10 * ((rs ++ [r]).length / 10) = (rs ++ [r]).length := by omega
    have hbefore : station.start + 4 ≤ (copyRecord s.cursor r).pos := by
      rw [hpos, h.pos, Nat.add_assoc]
      exact Nat.le_add_right _ _
    have hsend := within_send libc
      (s := ⟨copyRecord s.cursor r, s.counter + 1, s.sequence⟩)
      hstart station.start_mod hbefore hle
    refine ⟨?_, ?_, fun _ => ?_, hsend.trans hcopy⟩
    · change 0 = _
      omega
    · rw [hall, List.drop_length]
      rfl
    · change station.start + 4 ≤ 512
      omega

theorem loopBooks_run (libc : Libc) (station : Station)
    (ls : List (List Byte)) :
    LoopBooks station (ls.filterMap (readRecord libc))
      (run (body libc station.start) ⟨(prologue libc station).1, 0, 0⟩
        (ls.map some)) := by
  obtain ⟨-, hpos, hwithin⟩ := prologue_spec libc station
  induction ls using List.reverseRecOn with
  | nil =>
      refine ⟨rfl, by simpa using hpos, fun _ => ?_, iff_of_true hwithin ?_⟩
      · have hstart := station.start_le
        change (prologue libc station).1.pos ≤ 512
        omega
      · exact fun i hi => absurd hi (Nat.not_lt_zero i)
  | append_singleton ls line ih =>
      rw [List.map_append, run_append, List.filterMap_append]
      change LoopBooks _ _ (body libc station.start _ (some line))
      rw [body]
      cases hread : readRecord libc line with
      | none =>
          rw [List.filterMap_cons_none hread, List.filterMap_nil,
            List.append_nil]
          exact ih
      | some r =>
          rw [List.filterMap_cons_some hread, List.filterMap_nil]
          exact ih.record libc r

/-- The uploader stays within its buffer exactly for the files whose every
record ends in the buffer. -/
theorem upload_within_iff (libc : Libc) (station : Station)
    (file : List Byte) :
    (upload libc station file).Within bufferSize ↔
      ∀ i < (records libc file).length,
        recordEnd station (records libc file) i ≤ bufferSize := by
  have hbooks := loopBooks_run libc station (lines file)
  rw [upload, (prologue_spec libc station).1, run_append,
    run_cons, run_nil, records]
  generalize run _ _ ((lines file).map some) = s at hbooks ⊢
  rw [body]
  split
  · have hpos : station.start + 4 ≤ s.cursor.pos := by
      rw [hbooks.pos]
      exact Nat.le_add_right _ _
    exact (within_send libc station.start_le station.start_mod hpos
      hbooks.le).trans hbooks.within
  · exact hbooks.within

/-! ## The longest words -/

/-- An unsigned decimal number, as `strtol` reads it. -/
def scanInt (src : List Byte) : BitVec 32 × List Byte :=
  let digits := src.dropWhile isSpace |>.takeWhile fun b => 48 ≤ b && b ≤ 57
  if digits = [] then (0, src)
  else
    (digits.foldl (fun n b => n * 10 + (b - 48).setWidth 32) 0,
      (src.dropWhile isSpace).drop digits.length)

/-- The start of the epoch in the format of the file. -/
def epoch : List Byte :=
  ascii ['7', '0', '0', '1', '0', '1', ' ', '0', '0', '0', '0', '0', '0']

/-- The library on lines that start with the epoch and go on with unsigned
integers. -/
def integerLibc : Libc where
  strptime src := if src.take 13 = epoch then some (0, src.drop 13) else none
  strtod src := (scanInt src).2
  strtol := scanInt
  rand := 0
  time _ := 0

def longestStation : Station where
  call := List.replicate 16 65
  grid := List.replicate 6 65
  antenna := List.replicate 64 65
  call_le := by decide
  grid_le := by decide
  antenna_le := by decide

/-- The epoch, four numbers, a call sign of 13 letters and a grid square. -/
def longestLine : List Byte :=
  epoch ++ ascii [' ', '1', ' ', '1', ' ', '1', ' ', '1', ' '] ++
    List.replicate 13 65 ++ ascii [' ', 'K', 'P', '2', '0', '\n']

/-- Nine such lines overrun the buffer. -/
theorem not_within_longest :
    ¬(upload integerLibc longestStation
      (List.replicate 9 longestLine).flatten).Within bufferSize := by
  decide +kernel

end RedPitayaNotes.SdrTransceiverFt8
