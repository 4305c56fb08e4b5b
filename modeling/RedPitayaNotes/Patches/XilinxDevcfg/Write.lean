import RedPitayaNotes.Support.Bits
import RedPitayaNotes.Support.Blocks

/-!
# Writing a bitstream to /dev/xdevcfg

`xdevcfg_write` of `patches/xilinx_devcfg.c` hands the bytes written to the
configuration port, a word at a time.  The first write takes off what stands
before the sync word, which also tells the order of the bytes; bytes that do
not fill a word wait for the next write.
-/

namespace RedPitayaNotes.XilinxDevcfg

open Bits Blocks

/-! ## The driver -/

/-- The bytes that wait for the next write, at most three. -/
structure Residue where
  bytes : List Byte
  length_lt : bytes.length < 4

/-- The fields of `struct xdevcfg_drvdata` that the file operations use. -/
structure Drvdata where
  isOpen : Bool
  isPartialBitstream : Bool
  ep107 : Bool
  endianSwap : Bool
  residue : Residue

/-- The four registers written to start a transfer, and the buffer it is from. -/
structure Transfer where
  srcAddr : BitVec 32
  destAddr : BitVec 32
  srcLen : BitVec 32
  destLen : BitVec 32
  kbuf : List Byte

inductive Event where
  | clkEnable
  | clkDisable
  | lock
  | unlock
  | alloc (dmaAddr : BitVec 32)
  | free (dmaAddr : BitVec 32)
  | writereg (offset val : BitVec 32)
  | slcrWrite (val offset : BitVec 32)
  | transfer (t : Transfer)

/-- What a call leaves behind and returns. -/
structure Outcome where
  drvdata : Drvdata
  pos : ℕ
  status : ℤ
  events : List Event

def ebusy : ℤ := 16

def enomem : ℤ := 12

def efault : ℤ := 14

def etimedout : ℤ := 110

def ixrAll : BitVec 32 := 0xF8F7F87F

def ixrDPDone : BitVec 32 := 0x00001000

def ixrErrorFlags : BitVec 32 := 0x00F0F860

def intStsOffset : BitVec 32 := 0x0C

def intMaskOffset : BitVec 32 := 0x10

/-! ## The way out of a call

The labels `error`, `err_unlock` and `err_clk` fall through to one another. -/

section Calls

variable (status : ℤ) (d : Drvdata) (pos : ℕ)

/-- The calls between `clk_enable` and `clk_disable`. -/
def withClk (body : Outcome) : Outcome :=
  if status ≠ 0 then ⟨d, pos, status, []⟩
  else { body with events := [.clkEnable] ++ body.events ++ [.clkDisable] }

def withSem (body : Outcome) : Outcome :=
  if status ≠ 0 then ⟨d, pos, status, []⟩
  else { body with events := [.lock] ++ body.events ++ [.unlock] }

/-- The calls that use the buffer at `dma_addr`, if there is one. -/
def withKbuf (kbuf : Option (BitVec 32)) (body : BitVec 32 → Outcome) : Outcome :=
  match kbuf with
  | none => ⟨d, pos, -enomem, []⟩
  | some dmaAddr =>
    { body dmaAddr with
      events := [.alloc dmaAddr] ++ (body dmaAddr).events ++ [.free dmaAddr] }

end Calls

/-! ## Writes -/

/-- What the functions called by one `xdevcfg_write` answer: the statuses, the
buffer, the bytes that could not be copied, the interrupts before the end of the
wait and the mask register after it. -/
structure Answers where
  clkEnable : ℤ
  lock : ℤ
  kbuf : Option (BitVec 32)
  copyFromUser : ℕ
  interrupts : List (BitVec 32)
  intMask : BitVec 32

/-- `dma_done` and `error_status` after an interrupt. -/
def irq (flags : Bool × Bool) (intrStatus : BitVec 32) : Bool × Bool :=
  (flags.1 || intrStatus &&& ixrDPDone == ixrDPDone,
    flags.2 || intrStatus &&& ixrErrorFlags == ixrErrorFlags)

def Answers.dmaDone (a : Answers) : Bool :=
  (a.interrupts.foldl irq (false, false)).1

def Answers.errorStatus (a : Answers) : Bool :=
  (a.interrupts.foldl irq (false, false)).2

def normalSync : List Byte := [0x66, 0x55, 0x99, 0xAA]

def swappedSync : List Byte := [0xAA, 0x99, 0x55, 0x66]

/-- The loop on `i`, with the value of `endian_swap` before it. -/
def findSync (kbuf : List Byte) (i : ℕ) (endianSwap : Bool) : ℕ × Bool :=
  if i < kbuf.length - 4 then
    if (kbuf.drop i).take 4 = normalSync then (i, false)
    else if (kbuf.drop i).take 4 = swappedSync then (i, true)
    else findSync kbuf (i + 1) endianSwap
  else (i, endianSwap)
termination_by kbuf.length - i

/-- The first block contains a header. -/
def removeHeader (pos : ℕ) (endianSwap : Bool) (kbuf : List Byte) :
    Bool × List Byte :=
  if pos = 0 ∧ kbuf.length > 4 then
    let (i, endianSwap) := findSync kbuf 0 endianSwap
    (endianSwap, if i ≠ kbuf.length - 4 then kbuf.drop i else kbuf)
  else (endianSwap, kbuf)

def swab32 (x : BitVec 32) : BitVec 32 :=
  x.extractLsb' 0 8 ++ x.extractLsb' 8 8 ++ x.extractLsb' 16 8 ++
    x.extractLsb' 24 8

/-- The loop that turns the words of the buffer round. -/
def fixEndian (endianSwap : Bool) (kbuf : List Byte) : List Byte :=
  if endianSwap then
    (blocks 4 kbuf).flatMap fun word => wordBytes (swab32 (ofBytes word))
  else kbuf

/-- `count` is a multiple of four where the transfer is started. -/
def initiate (dmaAddr : BitVec 32) (kbuf : List Byte) : Transfer where
  srcAddr := if kbuf.length < 0x1000 then dmaAddr + 1 else dmaAddr
  destAddr := 0xFFFFFFFF
  srcLen := BitVec.ofNat 32
    (if kbuf.length % 4 ≠ 0 then kbuf.length / 4 + 1 else kbuf.length / 4)
  destLen := 0
  kbuf := kbuf

theorem length_rest_four_lt (kbuf : List Byte) : (rest 4 kbuf).length < 4 := by
  rw [length_rest]
  exact Nat.mod_lt _ (by decide)

/-- What is done with the buffer. -/
def transferBody (d : Drvdata) (pos : ℕ) (data : List Byte) (a : Answers)
    (dmaAddr : BitVec 32) : Outcome :=
  if a.copyFromUser ≠ 0 then ⟨d, pos, -efault, []⟩
  else
    let (endianSwap, kbuf) :=
      removeHeader pos d.endianSwap (d.residue.bytes ++ data)
    let words := fixEndian endianSwap (kbuf.take (4 * (kbuf.length / 4)))
    let d := { d with endianSwap, residue := ⟨rest 4 kbuf, length_rest_four_lt kbuf⟩ }
    let started : List Event := [.writereg intStsOffset ixrAll,
      .writereg intMaskOffset (~~~(ixrDPDone ||| ixrErrorFlags)),
      .transfer (initiate dmaAddr words)]
    let masked : Event :=
      .writereg intMaskOffset (a.intMask ||| (ixrDPDone ||| ixrErrorFlags))
    if !a.dmaDone then ⟨d, pos, -etimedout, started⟩
    else if a.errorStatus then ⟨d, pos, -efault, started ++ [masked]⟩
    else ⟨d, pos + data.length, data.length, started ++ [masked]⟩

def write (d : Drvdata) (pos : ℕ) (data : List Byte) (a : Answers) : Outcome :=
  withClk a.clkEnable d pos <| withSem a.lock d pos <|
    withKbuf d pos a.kbuf (transferBody d pos data a)

/-! ## Runs of writes -/

/-- `MAX_RW_COUNT`, the most that one call of `write` hands to a driver. -/
def maxRwCount : ℕ := 0x7FFFF000

structure Call where
  data : List Byte
  length_le : data.length ≤ maxRwCount
  answers : Answers

/-- An open file: the driver, the offset and what was done since it was opened. -/
structure State where
  drvdata : Drvdata
  pos : ℕ
  events : List Event

def step (s : State) (call : Call) : State :=
  let r := write s.drvdata s.pos call.data call.answers
  ⟨r.drvdata, r.pos, s.events ++ r.events⟩

def run (s : State) (calls : List Call) : State :=
  calls.foldl step s

/-- The words a transfer reads. -/
def Transfer.words (t : Transfer) : List (BitVec 32) :=
  ((blocks 4 t.kbuf).take t.srcLen.toNat).map ofBytes

def Event.words : Event → List (BitVec 32)
  | transfer t => t.words
  | _ => []

/-- The words handed to the configuration port. -/
def State.words (s : State) : List (BitVec 32) := s.events.flatMap Event.words

/-- The buffer was filled and its transfer started. -/
def Answers.starts (a : Answers) : Bool :=
  decide (a.clkEnable = 0 ∧ a.lock = 0 ∧ a.copyFromUser = 0) && a.kbuf.isSome

/-- The bytes of the writes whose transfer was started. -/
def fetched (calls : List Call) : List Byte :=
  (calls.filter fun call => call.answers.starts).flatMap Call.data

/-- A word of the stream as the configuration port gets it. -/
def toWord (endianSwap : Bool) (word : List Byte) : BitVec 32 :=
  ofBytes (if endianSwap then word.reverse else word)

end RedPitayaNotes.XilinxDevcfg
