import RedPitayaNotes.Support.Bits
import RedPitayaNotes.Support.Clocked

/-!
# The transmit data path of the wide transceiver

`tx_data_handler` of `sdr-transceiver-wide.c` takes what one `recv()` returns
and copies its whole 32768-byte buffer to the FIFO.  A step of the model is one
read of `tx_cntr` or one `recv()` with the copy that follows it.
-/

namespace RedPitayaNotes.SdrTransceiverWide

open Bits Clocked

/-- The size of `buffer`, of one `recv()` and of one copy. -/
def blockSize : ℕ := 32768

/-- `uint8_t buffer[32768]` -/
structure Buffer where
  bytes : List Byte
  length_eq : bytes.length = blockSize

/-- What a `recv()` that does not fail puts into the buffer. -/
structure Piece where
  bytes : List Byte
  pos : 0 < bytes.length
  le : bytes.length ≤ blockSize

/-- The bytes past the end of the piece stay. -/
def Buffer.fill (b : Buffer) (p : Piece) : Buffer where
  bytes := p.bytes ++ b.bytes.drop p.bytes.length
  length_eq := by
    have hle := p.le
    rw [List.length_append, List.length_drop, b.length_eq]
    omega

/-- Where the thread is in its loop. -/
inductive TxPc where
  /-- `while(*tx_cntr > 8192) usleep(500);` -/
  | wait
  /-- `if(*tx_cntr == 0)` -/
  | check
  /-- `recv()` and `memcpy()` -/
  | receive
  | closed
deriving DecidableEq

structure TxData where
  pc : TxPc
  buffer : Buffer

/-- What the outside answers: the value of the counter register and the result
of `recv()`, `none` for zero or an error. -/
structure TxInput where
  txCntr : BitVec 16
  recv : Option Piece

/-- A write to the FIFO: one 64-bit zero of the fill loop, or one copy. -/
inductive FifoWrite where
  | zero
  | copy (b : Buffer)

namespace TxData

/-- `tx_data_handler` at its loop, the buffer not yet initialized. -/
def start (b : Buffer) : TxData := ⟨.wait, b⟩

def next (s : TxData) (i : TxInput) : TxData :=
  match s.pc with
  | .wait => if i.txCntr > 8192 then s else { s with pc := .check }
  | .check => { s with pc := .receive }
  | .receive =>
      match i.recv with
      | none => { s with pc := .closed }
      | some p => ⟨.wait, s.buffer.fill p⟩
  | .closed => s

end TxData

/-- `for(i = 0; i < 4096; ++i) *fifo = 0;` -/
def zeroFill : List FifoWrite := List.replicate 4096 .zero

/-- The writes to the FIFO in one step. -/
def fifoWrites (c : Cycle TxData TxInput) : List FifoWrite :=
  match c.state.pc with
  | .check => if c.input.txCntr = 0 then zeroFill else []
  | .receive =>
      match c.input.recv with
      | none => []
      | some p => [.copy (c.state.buffer.fill p)]
  | _ => []

/-- What the step takes from the client. -/
def piecesTaken (c : Cycle TxData TxInput) : List Piece :=
  if c.state.pc = .receive then c.input.recv.toList else []

/-- The bytes of a write, the zeros of the fill loop left out. -/
def FifoWrite.data : FifoWrite → List Byte
  | zero => []
  | copy b => b.bytes

section Run

variable (b : Buffer) (inputs : List TxInput)

/-- The pieces taken in a run, in order. -/
def pieces : List Piece :=
  (trace TxData.next (.start b) inputs).flatMap piecesTaken

/-- The data bytes written in a run. -/
def written : List Byte :=
  ((trace TxData.next (.start b) inputs).flatMap fifoWrites).flatMap
    FifoWrite.data

/-- The data bytes written are the first bytes of what the client sends,
whatever it sends after the pieces taken so far. -/
def WritesStream : Prop :=
  ∀ unread, written b inputs <+: (pieces b inputs).flatMap Piece.bytes ++ unread

end Run

/-! ## One step -/

theorem data_zeroFill : zeroFill.flatMap FifoWrite.data = [] := by
  rw [List.flatMap_eq_nil_iff]
  intro w hw
  rw [List.eq_of_mem_replicate hw]
  rfl

/-- A step writes one block for each piece it takes. -/
theorem data_fifoWrites (c : Cycle TxData TxInput) :
    (fifoWrites c).flatMap FifoWrite.data =
      (piecesTaken c).flatMap fun p => (c.state.buffer.fill p).bytes := by
  obtain ⟨⟨pc, buffer⟩, ⟨txCntr, recv⟩⟩ := c
  cases pc with
  | wait => rfl
  | check =>
      by_cases hzero : txCntr = 0
      · simp [fifoWrites, piecesTaken, hzero, data_zeroFill]
      · simp only [fifoWrites, if_neg hzero]
        rfl
  | receive =>
      cases recv with
      | none => rfl
      | some p => simp [fifoWrites, piecesTaken, FifoWrite.data]
  | closed => rfl

theorem Buffer.fill_of_full (b : Buffer) {p : Piece}
    (hp : p.bytes.length = blockSize) : (b.fill p).bytes = p.bytes := by
  change p.bytes ++ b.bytes.drop p.bytes.length = p.bytes
  rw [hp, ← b.length_eq, List.drop_length, List.append_nil]

/-! ## Runs -/

variable {b : Buffer} {inputs : List TxInput}

theorem written_eq :
    written b inputs =
      (trace TxData.next (.start b) inputs).flatMap fun c =>
        (piecesTaken c).flatMap fun p => (c.state.buffer.fill p).bytes := by
  rw [written, List.flatMap_assoc]
  simp only [data_fifoWrites]

/-- Full pieces are written as they are. -/
theorem written_of_full
    (hfull : ∀ p ∈ pieces b inputs, p.bytes.length = blockSize) :
    written b inputs = (pieces b inputs).flatMap Piece.bytes := by
  rw [written_eq, pieces, List.flatMap_assoc]
  apply List.flatMap_congr
  intro c hc
  apply List.flatMap_congr
  intro p hp
  exact c.state.buffer.fill_of_full
    (hfull p (List.mem_flatMap.mpr ⟨c, hc, hp⟩))

/-- Every piece costs a whole block. -/
theorem length_written :
    (written b inputs).length = (pieces b inputs).length * blockSize := by
  rw [written_eq, pieces]
  generalize trace TxData.next (.start b) inputs = cycles
  induction cycles with
  | nil => simp
  | cons c cycles ih =>
      have hc : ((piecesTaken c).flatMap fun p =>
          (c.state.buffer.fill p).bytes).length =
            (piecesTaken c).length * blockSize := by
        simp [List.length_flatMap, Buffer.length_eq]
      rw [List.flatMap_cons, List.flatMap_cons, List.length_append,
        List.length_append, Nat.add_mul, hc, ih]

theorem length_pieces_le (ps : List Piece) :
    (ps.flatMap Piece.bytes).length ≤ ps.length * blockSize := by
  induction ps with
  | nil => simp
  | cons p ps ih =>
      rw [List.flatMap_cons, List.length_append, List.length_cons,
        Nat.succ_mul, Nat.add_comm]
      exact Nat.add_le_add ih p.le

/-- Pieces that fill as many blocks as there are pieces are all full. -/
theorem full_of_length_le {ps : List Piece}
    (h : ps.length * blockSize ≤ (ps.flatMap Piece.bytes).length) :
    ∀ p ∈ ps, p.bytes.length = blockSize := by
  induction ps with
  | nil => simp
  | cons p ps ih =>
      have hp := p.le
      have hps := length_pieces_le ps
      rw [List.flatMap_cons, List.length_append, List.length_cons,
        Nat.succ_mul] at h
      rw [List.forall_mem_cons]
      exact ⟨by omega, ih (by omega)⟩

/-- The bytes written follow the stream of the client exactly in the runs in
which every `recv()` fills the buffer. -/
theorem writesStream_iff (b : Buffer) (inputs : List TxInput) :
    WritesStream b inputs ↔
      ∀ p ∈ pieces b inputs, p.bytes.length = blockSize := by
  constructor
  · intro h
    apply full_of_length_le
    have hprefix := (h []).length_le
    rwa [List.append_nil, length_written] at hprefix
  · intro hfull unread
    rw [written_of_full hfull]
    exact List.prefix_append _ _

/-! ## A short read -/

/-- The first 4096 bytes of a client that sends ones. -/
def shortPiece : Piece where
  bytes := List.replicate 4096 1
  pos := by
    rw [List.length_replicate]
    decide
  le := by
    rw [List.length_replicate]
    decide

def zeroBuffer : Buffer := ⟨List.replicate blockSize 0, List.length_replicate⟩

/-- The counter is read as 1 twice, then `recv()` returns 4096 bytes. -/
def shortRead : List TxInput :=
  [⟨1, none⟩, ⟨1, none⟩, ⟨1, some shortPiece⟩]

/-- The rest of the block is written with what the buffer holds. -/
theorem not_writesStream_shortRead : ¬WritesStream zeroBuffer shortRead := by
  intro h
  have hwritten : written zeroBuffer shortRead =
      (zeroBuffer.fill shortPiece).bytes ++ [] := rfl
  have hpieces : (pieces zeroBuffer shortRead).flatMap Piece.bytes =
      List.replicate 4096 1 ++ [] := rfl
  have hprefix := h (List.replicate 61440 1)
  rw [hwritten, hpieces, List.append_nil, List.append_nil,
    List.replicate_append_replicate] at hprefix
  have hstale : (0 : Byte) ∈ zeroBuffer.bytes.drop 4096 := by
    rw [zeroBuffer, List.drop_replicate, List.mem_replicate]
    decide
  have hlen : shortPiece.bytes.length = 4096 := List.length_replicate
  have hmem : (0 : Byte) ∈ List.replicate (4096 + 61440) (1 : Byte) := by
    apply hprefix.subset
    apply List.mem_append_right
    rw [hlen]
    exact hstale
  exact absurd (List.eq_of_mem_replicate hmem) (by decide)

end RedPitayaNotes.SdrTransceiverWide
