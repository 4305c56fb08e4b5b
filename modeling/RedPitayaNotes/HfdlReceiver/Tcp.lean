import Mathlib.Logic.Function.Basic
import RedPitayaNotes.Support.Clocked

/-!
# The channel fan-out of tcp.py

`client/tcp.py` receives chunks of interleaved samples from the device into a
ring of buffers, and puts the number of each filled buffer on a queue for every
channel.  A thread for each channel takes the numbers from its queue, picks the
samples of the channel out of the buffer and sends them to its client.  Nothing
keeps the receiver from filling a buffer again before a channel has read it.

A step of the model is a statement of one thread that touches what the threads
share.  The frequencies that clients send do not.
-/

namespace RedPitayaNotes.Tcp

abbrev Sample := BitVec 16

structure Params where
  bufferSize : ℕ := 1024
  numChannels : ℕ := 13
  numBuffers : ℕ := 10
  buffers_pos : 0 < numBuffers

/-- The samples that `recv` waits for. -/
def Params.chunkLength (p : Params) : ℕ := p.bufferSize * p.numChannels * 2

/-- `xs[start::step]` -/
def slice {α : Type*} (start step : ℕ) (xs : List α) : List α :=
  (List.range xs.length).filterMap fun n => xs[start + n * step]?

/-- The list with `xs` at `[0::2]` and `ys` at `[1::2]`. -/
def interleave {α : Type*} : List α → List α → List α
  | x :: xs, y :: ys => x :: y :: interleave xs ys
  | _, _ => []

/-- One half of a buffer: the number of the chunk it was last filled from, and
the samples. -/
structure Half where
  chunk : Option ℕ
  samples : List Sample
deriving DecidableEq

structure Message where
  real : Option ℕ
  imag : Option ℕ
  data : List Sample
deriving DecidableEq

/-- The next statement of the receiver thread, with the number of the chunk in
hand and its data.  After the last channel comes the advance. -/
inductive Statement where
  | recv
  | fillReal (chunk : ℕ) (data : List Sample)
  | fillImag (chunk : ℕ) (data : List Sample)
  | put (channel : ℕ)

/-- The receiver thread and the buffers that it fills. -/
structure Receiver where
  /-- The full chunks received, by number. -/
  received : List (List Sample)
  writeIndex : ℕ
  statement : Statement
  realBuffers : ℕ → Half
  imagBuffers : ℕ → Half

/-- The next statement of a transmit thread. -/
inductive Transmitter where
  | listen
  | get
  | readReal (bufferIdx : ℕ)
  | readImag (bufferIdx : ℕ) (real : Half)
  | sendall

/-- The buffer that the thread has taken and not read to the end. -/
def Transmitter.held : Transmitter → Option ℕ
  | .readReal bufferIdx => some bufferIdx
  | .readImag bufferIdx _ => some bufferIdx
  | _ => none

structure Channel where
  queue : List ℕ
  thread : Transmitter
  /-- The messages sent to the client of the last connection. -/
  sent : List Message

structure State (p : Params) where
  receiver : Receiver
  channels : Fin p.numChannels → Channel

/-- The samples of one channel out of the two halves of a buffer. -/
def message (p : Params) (channel : ℕ) (real imag : Half) : Message where
  real := real.chunk
  imag := imag.chunk
  data := interleave (slice channel p.numChannels real.samples)
    (slice channel p.numChannels imag.samples)

/-- What a transmit thread does next.  An attempt that finds the queue empty, or
another thread state, changes nothing. -/
inductive Action where
  /-- `select` finds no client, and `get_nowait` takes a number. -/
  | drain
  /-- A client connects and gets the header. -/
  | accept
  | get
  | read
  /-- `sendall` returns. -/
  | sent
  /-- The connection ends, or a statement raises. -/
  | fail

def Channel.next (p : Params) (channel : ℕ) (r : Receiver) (c : Channel) :
    Action → Channel
  | .drain =>
    match c.thread with
    | .listen => { c with queue := c.queue.tail }
    | _ => c
  | .accept =>
    match c.thread with
    | .listen => { c with thread := .get, sent := [] }
    | _ => c
  | .get =>
    match c.thread, c.queue with
    | .get, bufferIdx :: rest =>
      { c with queue := rest, thread := .readReal bufferIdx }
    | _, _ => c
  | .read =>
    match c.thread with
    | .readReal bufferIdx =>
      { c with thread := .readImag bufferIdx (r.realBuffers bufferIdx) }
    | .readImag bufferIdx half =>
      { c with
        thread := .sendall
        sent := c.sent ++
          [message p channel half (r.imagBuffers bufferIdx)] }
    | _ => c
  | .sent =>
    match c.thread with
    | .sendall => { c with thread := .get }
    | _ => c
  | .fail => { c with thread := .listen }

inductive Event (p : Params) where
  /-- `recv` returns; less than a chunk ends the connection to the device. -/
  | recv (data : List Sample)
  /-- The receiver executes its next statement. -/
  | receiver
  | transmit (channel : Fin p.numChannels) (action : Action)

/-- `recv` returns `data`. -/
def Receiver.recv (p : Params) (r : Receiver) (data : List Sample) : Receiver :=
  match r.statement with
  | .recv =>
    if data.length < p.chunkLength then r
    else
      { r with
        received := r.received ++ [data]
        statement := .fillReal r.received.length data }
  | _ => r

/-- Any other statement, as the receiver and the buffers see it. -/
def Receiver.next (p : Params) (r : Receiver) : Receiver :=
  match r.statement with
  | .recv => r
  | .fillReal chunk data =>
    { r with
      realBuffers := Function.update r.realBuffers r.writeIndex
        ⟨some chunk, slice 0 2 data⟩
      statement := .fillImag chunk data }
  | .fillImag chunk data =>
    { r with
      imagBuffers := Function.update r.imagBuffers r.writeIndex
        ⟨some chunk, slice 1 2 data⟩
      statement := .put 0 }
  | .put channel =>
    if channel < p.numChannels then { r with statement := .put (channel + 1) }
    else
      { r with
        writeIndex := (r.writeIndex + 1) % p.numBuffers
        statement := .recv }

/-- The statement as a channel sees it: `buffer_queues[i].put(write_index)`. -/
def Receiver.put (r : Receiver) (channel : ℕ) (c : Channel) : Channel :=
  match r.statement with
  | .put i =>
    if i = channel then { c with queue := c.queue ++ [r.writeIndex] } else c
  | _ => c

def next {p : Params} (s : State p) : Event p → State p
  | .recv data => { s with receiver := s.receiver.recv p data }
  | .receiver =>
    { receiver := s.receiver.next p
      channels := fun i => s.receiver.put i (s.channels i) }
  | .transmit i action =>
    { s with
      channels := Function.update s.channels i
        ((s.channels i).next p i s.receiver action) }

/-- `start_data_stream` -/
def State.init (p : Params) : State p where
  receiver :=
    { received := []
      writeIndex := 0
      statement := .recv
      realBuffers := fun _ =>
        ⟨none, List.replicate (p.bufferSize * p.numChannels) 0⟩
      imagBuffers := fun _ =>
        ⟨none, List.replicate (p.bufferSize * p.numChannels) 0⟩ }
  channels _ := ⟨[], .listen, []⟩

end RedPitayaNotes.Tcp
