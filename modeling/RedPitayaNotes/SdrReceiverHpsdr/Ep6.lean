import Mathlib.Tactic.IntervalCases
import RedPitayaNotes.Support.Bits
import RedPitayaNotes.Support.Clocked
import RedPitayaNotes.Support.Memory

/-!
# The EP6 packer of the HPSDR server

`handler_ep6` of `sdr-receiver-hpsdr.c` fetches a batch of 36-byte FIFO frames
and lays them out in datagrams of two 512-byte subframes.  The slot size, the
slots in a subframe and the datagrams in a batch follow from the number of
receivers, which is read again for each batch.  The FIFO is the stream of the
bytes fetched from it; frame `j` is at `36 * j`.
-/

namespace RedPitayaNotes.SdrReceiverHpsdr

open Bits Memory

/-- A value of `receivers`. -/
structure Receivers where
  val : ℕ
  pos : 1 ≤ val
  le : val ≤ 8

/-- `((frame[4] >> 3) & 7) + 1` in `process_ep2`. -/
def receiversOf (c4 : Byte) : Receivers where
  val := ((c4 >>> 3) &&& 7).toNat + 1
  pos := Nat.le_add_left _ _
  le := by
    have hand : ((c4 >>> 3) &&& 7).toNat ≤ (7 : Byte).toNat := by
      rw [BitVec.toNat_and]
      exact Nat.and_le_right
    exact Nat.add_le_add_right hand 1

namespace Receivers

variable (receivers : Receivers)

/-- The size of a slot. -/
def size : ℕ := receivers.val * 6 + 2

/-- The slots in a subframe. -/
def n : ℕ := 504 / receivers.size

/-- The datagrams in a batch. -/
def m : ℕ := 128 / receivers.n

/-- The bytes fetched for a batch. -/
def fetched : ℕ := receivers.m * receivers.n * 72

end Receivers

def headers : List (List Byte) :=
  [[127, 127, 127, 0, 0, 33, 17, 25],
   [127, 127, 127, 8, 0, 0, 0, 0],
   [127, 127, 127, 16, 0, 0, 0, 0],
   [127, 127, 127, 24, 0, 0, 0, 0],
   [127, 127, 127, 32, 66, 66, 66, 66]]

def htonl (w : BitVec 32) : BitVec 32 :=
  (w <<< 24) ||| ((w <<< 8) &&& 0xff0000) ||| ((w >>> 8) &&& 0xff00) |||
    (w >>> 24)

theorem wordBytes_swap (w : BitVec 32) :
    wordBytes (htonl w) =
      [w.extractLsb' 24 8, w.extractLsb' 16 8, w.extractLsb' 8 8,
        w.extractLsb' 0 8] := by
  simp only [wordBytes, htonl, List.cons.injEq, and_true]
  refine ⟨?_, ?_, ?_, ?_⟩ <;>
    · apply BitVec.eq_of_getLsbD_eq
      intro i hi
      interval_cases i <;> simp

/-- `len` bytes from `start` on, read or written by one call. -/
structure Access where
  start : ℕ
  len : ℕ

/-- The size of `uint8_t buffer[25 * 1032]`. -/
def bufferSize : ℕ := 25 * 1032

/-- The variables of `handler_ep6`, the bytes taken from the FIFO so far, and
the accesses to `data` and to `buffer` in the present batch. -/
structure Ep6 where
  data : ℕ → Byte
  buffer : ℕ → Byte
  dataOffset : ℕ
  headerOffset : ℕ
  counter : BitVec 32
  fifoRead : ℕ
  reads : List Access
  writes : List Access

namespace Ep6

/-- `memcpy`, `memset` or an assignment to `buffer`. -/
def put (s : Ep6) (pointer : ℕ) (bytes : List Byte) : Ep6 :=
  { s with
    buffer := store s.buffer pointer bytes
    writes := s.writes ++ [⟨pointer, bytes.length⟩] }

/-- The first loop of the thread; `data` and `buffer` are not initialized. -/
def start (data buffer : ℕ → Byte) : Ep6 where
  data := data
  buffer := (List.range 25).foldl
    (fun buffer i => store buffer (i * 1032 + 0) (wordBytes 0x0601feef)) buffer
  dataOffset := 0
  headerOffset := 0
  counter := 0
  fifoRead := 0
  reads := []
  writes := []

/-- `memcpy(data, rx_data, len)` at the start of a batch. -/
def fetch (fifo : ℕ → Byte) (s : Ep6) (len : ℕ) : Ep6 :=
  { s with
    data := store s.data 0 (read fifo s.fifoRead len)
    dataOffset := 0
    fifoRead := s.fifoRead + len
    reads := []
    writes := [] }

def putCounter (s : Ep6) (i : ℕ) : Ep6 :=
  { s.put (i * 1032 + 4) (wordBytes (htonl s.counter)) with
    counter := s.counter + 1 }

/-- `memcpy(pointer, data + data_offset, len)` -/
def copySlot (s : Ep6) (pointer len : ℕ) : Ep6 :=
  { s.put pointer (read s.data s.dataOffset len) with
    dataOffset := s.dataOffset + 36
    reads := s.reads ++ [⟨s.dataOffset, len⟩] }

/-- The loop on `j`, with `n` turns to go. -/
def slotLoop (size : ℕ) : ℕ → ℕ → Ep6 → Ep6
  | 0, _, s => s
  | n + 1, pointer, s =>
      slotLoop size n (pointer + size) (s.copySlot pointer (size - 2))

def subframe (size n : ℕ) (s : Ep6) (i : ℕ) : Ep6 :=
  let pointer := i * 516 - i % 2 * 4 + 8
  let s := s.put pointer (headers.getD s.headerOffset [])
  let s := { s with headerOffset := (s.headerOffset + 1) % 5 }
  let pointer := pointer + 8
  let s := s.put pointer (List.replicate 504 0)
  slotLoop size n pointer s

/-- One turn of the thread up to `sendmmsg`. -/
def batch (fifo : ℕ → Byte) (s : Ep6) (receivers : Receivers) : Ep6 :=
  let s := s.fetch fifo receivers.fetched
  let s := (List.range receivers.m).foldl putCounter s
  (List.range (receivers.m * 2)).foldl
    (subframe receivers.size receivers.n) s

/-- The first `m` of the 25 datagrams, which are sent. -/
def datagrams (s : Ep6) (receivers : Receivers) : List (List Byte) :=
  (List.range receivers.m).map fun i => read s.buffer (i * 1032) 1032

end Ep6

/-! ## The layout

What the datagrams should hold, in terms of the numbers of datagrams and frames
before a batch. -/

section Layout

variable (fifo : ℕ → Byte) (receivers : Receivers)

/-- Receiver `r` in frame `j`, zero past the sixth, and the microphone bytes
after the last. -/
def slotBytes (j : ℕ) : List Byte :=
  ((List.range receivers.val).flatMap fun r =>
      if r < 6 then read fifo (36 * j + 6 * r) 6 else List.replicate 6 0) ++
    [0, 0]

/-- Subframe `q` of the stream, with frames from `j` on. -/
def subframeBytes (q j : ℕ) : List Byte :=
  headers.getD (q % 5) [] ++
    ((List.range' j receivers.n).flatMap (slotBytes fifo receivers) ++
      List.replicate (504 - receivers.n * receivers.size) 0)

/-- A sequence number as it is sent, high byte first, modulo `2 ^ 32`. -/
def sequenceBytes (d : ℕ) : List Byte :=
  [BitVec.ofNat 8 (d / 2 ^ 24), BitVec.ofNat 8 (d / 2 ^ 16),
    BitVec.ofNat 8 (d / 2 ^ 8), BitVec.ofNat 8 d]

/-- Datagram `d` of the stream, with frames from `j` on. -/
def datagramBytes (d j : ℕ) : List Byte :=
  [0xef, 0xfe, 0x01, 0x06] ++ sequenceBytes d ++
    subframeBytes fifo receivers (2 * d) j ++
    subframeBytes fifo receivers (2 * d + 1) (j + receivers.n)

/-- The batch after `d` datagrams and `j` frames. -/
def batchBytes (d j : ℕ) : List (List Byte) :=
  (List.range receivers.m).map fun i =>
    datagramBytes fifo receivers (d + i) (j + 2 * i * receivers.n)

/-- The stream of datagrams after `d` datagrams and `j` frames. -/
def streamBytes : ℕ → ℕ → List Receivers → List (List Byte)
  | _, _, [] => []
  | d, j, receivers :: batches =>
      batchBytes fifo receivers d j ++
        streamBytes (d + receivers.m) (j + receivers.m * receivers.n * 2) batches

end Layout

/-- The datagrams of all batches are those of the layout, and every access is in
bounds: writes in `buffer`, reads in the bytes just fetched. -/
structure Packs (fifo data buffer : ℕ → Byte) (batches : List Receivers) :
    Prop where
  datagrams :
    (Clocked.trace (Ep6.batch fifo) (.start data buffer) batches).flatMap
        (fun c => (c.state.batch fifo c.input).datagrams c.input) =
      streamBytes fifo 0 0 batches
  writes : ∀ c ∈ Clocked.trace (Ep6.batch fifo) (.start data buffer) batches,
    ∀ a ∈ (c.state.batch fifo c.input).writes, a.start + a.len ≤ bufferSize
  reads : ∀ c ∈ Clocked.trace (Ep6.batch fifo) (.start data buffer) batches,
    ∀ a ∈ (c.state.batch fifo c.input).reads,
      a.start + a.len ≤ c.input.fetched

end RedPitayaNotes.SdrReceiverHpsdr
