import RedPitayaNotes.Support.Bits
import RedPitayaNotes.Support.RingQueue

/-!
# Clients of the HFDL receiver

`projects/hfdl_receiver/server/hfdl-receiver.c` keeps one send queue for each
listen port.  The main loop copies its channel of every chunk to the queue, and
`flushClient` hands bytes from the queue to a non-blocking `send()`.  Pointers
into a queue are offsets from `sendq`.
-/

namespace RedPitayaNotes.HfdlReceiver

open Bits Memory RingQueue

def numchans : ℕ := 13

def sampleSize : ℕ := 4

def chunkSamples : ℕ := numchans * 256

def chunkBytes : ℕ := chunkSamples * sampleSize

def chunkChannelBytes : ℕ := chunkBytes / numchans

def totalNetBuffer : ℕ := 128 * 1024 * 1024

inductive Format where
  | cs16
  | cu8
deriving DecidableEq, Repr

structure Client where
  /-- The byte at `sendq + n`. -/
  sendq : ℕ → Byte
  sendqStart : ℕ
  sendqEnd : ℕ
  sendqMax : ℕ
  /-- `none` is the descriptor -1. -/
  fd : Option ℕ
  format : Format
  channel : ℕ
  bytesDropped : ℕ
  lastProgress : ℤ

namespace Client

def sendqLen (c : Client) : ℕ :=
  if c.sendqStart ≤ c.sendqEnd then c.sendqEnd - c.sendqStart
  else c.sendqEnd + (c.sendqMax - c.sendqStart)

end Client

/-- `malloc` is what the fresh memory holds. -/
def allocateClient (malloc : ℕ → Byte) (sendqMax : ℕ) : Client where
  sendq := malloc
  sendqStart := 0
  sendqEnd := 0
  sendqMax := sendqMax / chunkChannelBytes * chunkChannelBytes
  fd := none
  format := .cs16
  channel := 0
  bytesDropped := 0
  lastProgress := 0

/-- A client as `main` sets it up. -/
def openClient (malloc : ℕ → Byte) (sendqMax : ℕ) (format : Format)
    (channel : ℕ) : Client :=
  { allocateClient malloc sendqMax with format, channel }

namespace Client

/-- `fd` is what `accept()` returns; a failure leaves the queue. -/
def acceptClient (c : Client) (fd : Option ℕ) (now : ℤ) : Client :=
  match fd with
  | none => { c with fd := none }
  | some fd =>
      { c with
        fd := some fd
        sendqStart := 0
        sendqEnd := 0
        bytesDropped := 0
        lastProgress := now }

def closeClient (c : Client) : Client :=
  { c with fd := none }

/-! ## The ring buffer -/

def wrapEnd (c : Client) : Client :=
  if c.sendqEnd = c.sendqMax then { c with sendqEnd := 0 } else c

def wrapStart (c : Client) : Client :=
  if c.sendqStart = c.sendqMax then { c with sendqStart := 0 } else c

def dropBytes (c : Client) : ℕ :=
  c.sendqMax / 2 / chunkChannelBytes * chunkChannelBytes

def dropHalf (c : Client) : Client :=
  let sendqEnd : ℤ := c.sendqEnd - c.dropBytes
  { c with
    bytesDropped := c.bytesDropped + c.dropBytes
    sendqEnd :=
      (if sendqEnd < 0 then sendqEnd + c.sendqMax else sendqEnd).toNat }

/-- `none` is one of the two `FATAL` exits. -/
def normalizeSendq (c : Client) : Option Client :=
  if c.sendqEnd > c.sendqMax then none
  else
    let c := c.wrapEnd
    if c.sendqStart > c.sendqMax then none
    else
      let c := c.wrapStart
      some (if c.sendqLen + 2 * chunkChannelBytes ≥ c.sendqMax then c.dropHalf
        else c)

end Client

/-- The results `send()` may have for `n` bytes. -/
inductive SendResult (n : ℕ) where
  | wrote (bytes : Fin (n + 1))
  /-- EAGAIN or EWOULDBLOCK -/
  | again
  | error

namespace Client

/-- The length of the request made to `send()`. -/
def toWrite (c : Client) (limit : ℕ) : ℕ :=
  let toWrite :=
    if c.sendqStart + c.sendqLen > c.sendqMax then c.sendqMax - c.sendqStart
    else c.sendqLen
  if toWrite > limit then limit else toWrite

def flushClient (c : Client) (min limit : ℕ)
    (send : (n : ℕ) → SendResult n) (now : ℤ) : Option (Client × ℤ) :=
  if c.sendqLen < min ∨ c.sendqLen ≤ 0 then some (c, 0)
  else
    match send (c.toWrite limit) with
    | .again => some (c, -2)
    | .error => some (c, -1)
    | .wrote bytesWritten =>
        if bytesWritten.val > 0 then
          normalizeSendq
              { c with sendqStart := c.sendqStart + bytesWritten.val } >>=
            fun c => some ({ c with lastProgress := now }, bytesWritten.val)
        else some (c, bytesWritten.val)

end Client

/-! ## The copy loops of `main` -/

/-- `((int16_t *) buffer)[n]` -/
def halfword (buffer : ℕ → BitVec 32) (n : ℕ) : BitVec 16 :=
  (buffer (n / 2)).extractLsb' (16 * (n % 2)) 16

/-- `(uint8_t) ((x >> 8) + 127)` -/
def toCu8 (x : BitVec 16) : Byte :=
  ((x.signExtend 32).sshiftRight 8 + 127#32).setWidth 8

namespace Format

/-- What one turn of the copy loop writes for sample `k`. -/
def emit (buffer : ℕ → BitVec 32) (k : ℕ) : Format → List Byte
  | cs16 => wordBytes (buffer k)
  | cu8 =>
      [toCu8 (halfword buffer (2 * k + 0)), toCu8 (halfword buffer (2 * k + 1))]

def chunkSize : Format → ℕ
  | cs16 => chunkChannelBytes
  | cu8 => chunkChannelBytes / 2

end Format

/-- The loop on `k` with `t` bytes written.  The result is the memory and the
last `t`. -/
def copyLoop (emit : ℕ → List Byte) (target k t : ℕ) (sendq : ℕ → Byte) :
    (ℕ → Byte) × ℕ :=
  if k < chunkBytes / sampleSize then
    copyLoop emit target (k + numchans) (t + (emit k).length)
      (store sendq (target + t) (emit k))
  else (sendq, t)
termination_by chunkBytes / sampleSize - k
decreasing_by
  have : numchans = 13 := rfl
  omega

/-- The turn of the chunk loop for one connected client. -/
def Client.appendChunk (c : Client) (buffer : ℕ → BitVec 32) : Option Client :=
  let (sendq, t) :=
    copyLoop (fun k => c.format.emit buffer k) c.sendqEnd c.channel 0 c.sendq
  if t ≠ c.format.chunkSize then none
  else ({ c with sendq, sendqEnd := c.sendqEnd + t } : Client).normalizeSendq

/-! ## Runs -/

inductive Op where
  | accept (fd : Option ℕ) (now : ℤ)
  | append (buffer : ℕ → BitVec 32)
  | flush (min limit : ℕ) (send : (n : ℕ) → SendResult n) (now : ℤ)
  | close

/-- An `accept()` that succeeds. -/
def Op.connects : Op → Bool
  | .accept fd _ => fd.isSome
  | _ => false

/-- The channel `channel` of a chunk in the format of the client. -/
def chunk (format : Format) (channel : ℕ) (buffer : ℕ → BitVec 32) :
    List Byte :=
  (List.range' channel 256 numchans).flatMap fun k => format.emit buffer k

/-- A client, the chunks appended since the last `accept()` that succeeded and
the bytes `send()` took since then. -/
structure Session where
  client : Client
  appended : List (List Byte)
  sent : List Byte

namespace Session

def start (c : Client) : Session := ⟨c, [], []⟩

/-- `none` is an exit of the server. -/
def step (s : Session) : Op → Option Session
  | .accept none now => some { s with client := s.client.acceptClient none now }
  | .accept (some fd) now => some (start (s.client.acceptClient (some fd) now))
  | .append buffer =>
      (s.client.appendChunk buffer).map fun c =>
        { s with
          client := c
          appended := s.appended ++
            [chunk s.client.format s.client.channel buffer] }
  | .flush min limit send now =>
      (s.client.flushClient min limit send now).map fun (c, bytesWritten) =>
        { s with
          client := c
          sent := s.sent ++
            read s.client.sendq s.client.sendqStart bytesWritten.toNat }
  | .close => some { s with client := s.client.closeClient }

def run (s : Session) (ops : List Op) : Option Session :=
  ops.foldlM step s

end Session

end RedPitayaNotes.HfdlReceiver
