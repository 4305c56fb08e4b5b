import RedPitayaNotes.Support.Bits
import RedPitayaNotes.Support.FrameQueue

/-!
# The server of the eight-channel receiver

`projects/sdr_receiver/server/sdr-receiver.c` sends the samples of eight
channels to one client at a time.  The receiver of `rx.tcl` writes a frame, one
sample of each channel, to the FIFO; the converter behind the FIFO hands it on a
word at a time.  Frames come and go at any time between two statements of the
server.
-/

namespace RedPitayaNotes.SdrReceiver

open Bits FrameQueue

/-! ## Settings -/

structure Control where
  inps : BitVec 32
  rate : BitVec 32
  freq : Fin 8 → BitVec 32

def sizeofControl : ℕ := 40

/-- Integer `n` of a packed structure. -/
def field (bytes : List Byte) (n : ℕ) : BitVec 32 :=
  ofBytes ((bytes.drop (4 * n)).take 4)

/-- `recv()` into `ctrl`. -/
def Control.ofBytes (bytes : List Byte) : Control where
  inps := field bytes 0
  rate := field bytes 1
  freq := fun i => field bytes (2 + i)

def rates : List (BitVec 16) := [1280, 640, 320, 160]

/-- The registers but for `rx_rst`. -/
structure Settings where
  rxSel : BitVec 8
  rxRate : BitVec 16
  rxFreq : Fin 8 → BitVec 32

/-- `phase f` is the increment for `f` Hz, `floor(f / 122.88e6 * (1 << 30) + 0.5)`. -/
def defaults (phase : BitVec 32 → BitVec 32) : Settings where
  rxSel := 0
  rxRate := 1280
  rxFreq := fun _ => phase 600000

def Control.settings (phase : BitVec 32 → BitVec 32) (ctrl : Control) : Settings where
  rxSel := (ctrl.inps &&& 0xff).setWidth 8
  rxRate := rates.getD (ctrl.rate &&& 3).toNat 0
  rxFreq := fun i => phase (ctrl.freq i)

/-! ## The server and the receiver -/

/-- The two words of a sample of each channel. -/
structure Frame where
  words : List (BitVec 32)
  length_eq : words.length = 16

/-- `WRITE_DEPTH` of the FIFO. -/
def writeDepth : ℕ := 2048

/-- The statement to be executed next. -/
inductive Statement where
  /-- The first statements of the outer loop. -/
  | setup
  | accept
  /-- `FIONREAD` and what depends on it. -/
  | control
  /-- The test of `rx_cntr` for an overflow, and the end of the reset. -/
  | overflow
  | restart
  /-- The test of `rx_cntr` for data. -/
  | count
  /-- `memcpy()`, word by word. -/
  | copy
  | send
deriving DecidableEq

/-- `rxRst` is bit 0 of `rx_rst`.  The last two fields and the history of the
FIFO are those of the connection: the control structures received and the words
sent since it was accepted. -/
structure State where
  settings : Settings
  rxRst : Bool
  fifo : Feed (BitVec 32)
  statement : Statement
  buffer : List (BitVec 32)
  received : List Control
  sent : List (BitVec 32)

/-- The server before the outer loop. -/
def State.start (settings : Settings) : State where
  settings := settings
  rxRst := false
  fifo := Feed.start
  statement := .setup
  buffer := []
  received := []
  sent := []

/-- What the calls of a statement answer. -/
structure Answer where
  /-- The bytes that wait, `none` if `ioctl()` fails. -/
  fionread : Option ℕ
  /-- The structure received, `none` if `recv()` fails. -/
  recv : Option (List Byte)
  /-- The frames that `rx_cntr` does not show yet. -/
  lag : ℕ
  sendFails : Bool

inductive Event where
  | frame (f : Frame)
  /-- The converter takes the next frame from the FIFO. -/
  | load
  /-- The server executes a statement. -/
  | step (a : Answer)

def bufferWords : ℕ := 65536 / 4

namespace State

def rxCntr (s : State) (a : Answer) : ℕ := s.fifo.queue.frames.length - a.lag

/-- The receiver writes a frame, unless the FIFO is in reset. -/
def frame (s : State) (f : Frame) : State :=
  if s.rxRst then { s with fifo := s.fifo.write writeDepth f.words } else s

def controlStep (phase : BitVec 32 → BitVec 32) (s : State) (a : Answer) : State :=
  match a.fionread with
  | none => { s with statement := .setup }
  | some size =>
    if size ≥ sizeofControl then
      match a.recv with
      | none => { s with statement := .setup }
      | some bytes =>
        let ctrl := Control.ofBytes bytes
        { s with
          settings := ctrl.settings phase
          received := s.received ++ [ctrl]
          statement := .overflow }
    else { s with statement := .overflow }

def step (phase : BitVec 32 → BitVec 32) (s : State) (a : Answer) : State :=
  match s.statement with
  | .setup =>
    { s with
      rxRst := false
      fifo := { s.fifo with queue := Queue.empty }
      settings := defaults phase
      statement := .accept }
  | .accept =>
    { s with
      rxRst := true
      fifo := { s.fifo with written := [], gaps := false }
      received := []
      sent := []
      statement := .control }
  | .control => s.controlStep phase a
  | .overflow =>
    if s.rxCntr a ≥ 2048 then
      { s with rxRst := false, fifo := s.fifo.clear, statement := .restart }
    else { s with statement := .count }
  | .restart => { s with rxRst := true, statement := .count }
  | .count =>
    if s.rxCntr a ≥ 1024 then { s with buffer := [], statement := .copy }
    else { s with statement := .control }
  | .copy =>
    if s.buffer.length < bufferWords then
      let r := s.fifo.read
      -- the hub answers a read with zeros if the stream has no word for it
      { s with fifo := r.2, buffer := s.buffer ++ [r.1.getD 0] }
    else { s with statement := .send }
  | .send =>
    if a.sendFails then { s with statement := .setup }
    else { s with sent := s.sent ++ s.buffer, statement := .control }

def next (phase : BitVec 32 → BitVec 32) (s : State) : Event → State
  | .frame f => s.frame f
  | .load => { s with fifo := s.fifo.load }
  | .step a => s.step phase a

def run (phase : BitVec 32 → BitVec 32) (s : State) (events : List Event) : State :=
  events.foldl (next phase) s

end State

end RedPitayaNotes.SdrReceiver
