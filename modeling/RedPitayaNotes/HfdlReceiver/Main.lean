import Mathlib.Logic.Function.Basic
import RedPitayaNotes.HfdlReceiver.Stream

/-!
# The main loop of the HFDL receiver

One turn of the loop of `main` in
`projects/hfdl_receiver/server/hfdl-receiver.c`: the attenuator, the chunks of
the FIFO, the maintenance of the connections and the flush of the send queues.
What the hardware, the clock and the kernel answer during the turn is its input.
-/

namespace RedPitayaNotes.HfdlReceiver

open Bits Memory

def numclients : ℕ := 2 * numchans

def fifoBytes : ℕ := 128 * 1024

def fifoSamples : ℕ := fifoBytes / sampleSize

def syscallsPerLoop : ℕ := 1

/-- `sendSize` of the flush loop. -/
def sendSize : ℕ := 8 * 1450

/-- The results `readClientFrequency()` may have: -1, 0 or 1. -/
inductive ReadResult where
  | error
  | nothing
  | frequency (freq : BitVec 32)

/-- What one turn of the loop is answered.  A client is visited at most once by
each loop of the turn. -/
structure Turn where
  rdCntr : BitVec 16
  wrCntr : BitVec 16
  /-- `time(0)` when the attenuator is checked, and when it is set. -/
  time : ℤ
  stamp : ℤ
  /-- The words of each `memcpy()` from the FIFO. -/
  fifo : ℕ → ℕ → BitVec 32
  /-- `microtime()` of the maintenance, of an `accept()` and of the flush. -/
  maintenanceTime : ℤ
  acceptTime : ℤ
  flushTime : ℤ
  /-- `accept()` in `acceptClient`, and in `acceptClientDiscard`. -/
  accept : ℕ → Option ℕ
  discard : ℕ → Option ℕ
  frequency : ℕ → ReadResult
  send : ℕ → (n : ℕ) → SendResult n

/-- A turn in which the FIFO is empty and no client sends or takes anything. -/
def idleTurn (now : ℤ) (fd : Option ℕ) : Turn where
  rdCntr := 0
  wrCntr := 0
  time := 0
  stamp := 0
  fifo := fun _ _ => 0
  maintenanceTime := now
  acceptTime := now
  flushTime := now
  accept := fun _ => fd
  discard := fun _ => fd.map (· + 1)
  frequency := fun _ => .nothing
  send := fun _ _ => .again

/-- What the server does to the outside, in order. -/
inductive Event where
  /-- `accept()` returned a descriptor. -/
  | accept (fd : ℕ)
  /-- `FIONREAD`, and `recv()` if there is a frequency. -/
  | read (fd : ℕ)
  /-- The bytes `send()` took. -/
  | send (fd : ℕ) (bytes : List Byte)
  | disconnect (fd : ℕ)
  /-- A chunk was read from the FIFO. -/
  | chunk (buffer : ℕ → BitVec 32)

/-- A call of `set_att_value`. -/
structure AttSetting where
  ovf : Bool
  time : ℤ
  stamp : ℤ
  att : ℕ
deriving DecidableEq, Repr

/-- The server at the head of the loop.  The last four fields are its history:
what it did, the attenuations it set, the clients its maintenance visited and
when, and how often it came to the flush. -/
structure Server where
  clients : ℕ → Client
  rxFreq : ℕ → BitVec 32
  att : ℕ
  lastatt : ℤ
  now : ℤ
  nextNetworkMaintenance : ℤ
  /-- The static `id` of the maintenance, and of the flush. -/
  maintenanceId : ℕ
  flushId : ℕ
  log : List Event
  settings : List AttSetting
  visits : List (ℕ × ℤ)
  flushes : ℕ

namespace Server

/-- Client `id` as `main` sets it up. -/
def openSlot (malloc : ℕ → ℕ → Byte) (id : ℕ) : Client :=
  if id < numchans then
    openClient (malloc id) (totalNetBuffer / numchans) .cs16 id
  else
    openClient (malloc id) (totalNetBuffer / 4 / numchans) .cu8 (id - numchans)

/-- The server at the head of the loop for the first time. -/
def start (malloc : ℕ → ℕ → Byte) (rxFreq : ℕ → BitVec 32) (time : ℤ) :
    Server where
  clients := openSlot malloc
  rxFreq := rxFreq
  att := 32
  lastatt := time
  now := 0
  nextNetworkMaintenance := 0
  maintenanceId := 0
  flushId := 0
  log := []
  settings := [⟨false, time, time, 32⟩]
  visits := []
  flushes := 0

def setClient (s : Server) (id : ℕ) (c : Client) : Server :=
  { s with clients := Function.update s.clients id c }

def emit (s : Server) (events : List Event) : Server :=
  { s with log := s.log ++ events }

def closeSlot (s : Server) (id : ℕ) : Server :=
  (s.setClient id (s.clients id).closeClient).emit
    ((s.clients id).fd.toList.map .disconnect)

/-! ## The attenuator -/

/-- The lowest bit of the counter tells of an overflow of the ADC. -/
def ovf (t : Turn) : Bool := t.wrCntr.getLsbD 0

def setAtt (s : Server) (t : Turn) (att : ℕ) : Server :=
  { s with
    lastatt := t.stamp
    att := att
    settings := s.settings ++ [⟨ovf t, t.time, t.stamp, att⟩] }

/-- The second component is `doneSomething`. -/
def adjustAtt (s : Server) (t : Turn) : Server × Bool :=
  if ovf t then
    if t.time - s.lastatt > 2 ∧ s.att < 63 then (s.setAtt t (s.att + 1), true)
    else (s, false)
  else
    if t.time - s.lastatt > 5 ∧ s.att > 0 then (s.setAtt t (s.att - 1), true)
    else (s, false)

/-! ## The chunks -/

/-- The body of the loop over the clients; `none` is an exit of the server. -/
def appendTo (buffer : ℕ → BitVec 32) (s : Server) (id : ℕ) : Option Server :=
  if (s.clients id).fd = none then some s
  else ((s.clients id).appendChunk buffer).map (s.setClient id)

def copyChunk (s : Server) (buffer : ℕ → BitVec 32) : Option Server :=
  (List.range numclients).foldlM (appendTo buffer) (s.emit [.chunk buffer])

/-- The loop on `rx_samples`, with `n` chunks read. -/
def readLoop (fifo : ℕ → ℕ → BitVec 32) (n rxSamples : ℕ) (s : Server) :
    Option Server :=
  if rxSamples ≥ chunkSamples then
    s.copyChunk (fifo n) >>= readLoop fifo (n + 1) (rxSamples - chunkSamples)
  else some s
termination_by rxSamples
decreasing_by
  have : chunkSamples = 3328 := rfl
  omega

/-! ## The maintenance of the connections -/

/-- `acceptClient` on a client that is not connected. -/
def acceptSlot (s : Server) (t : Turn) (id : ℕ) : Server :=
  (s.setClient id ((s.clients id).acceptClient (t.accept id) t.acceptTime)).emit
    ((t.accept id).toList.map .accept)

def acceptClientDiscard (s : Server) (fd : Option ℕ) : Server :=
  match fd with
  | none => s
  | some fd => s.emit [.accept fd, .disconnect fd]

/-- `readClientFrequency` on a connected client, and what follows. -/
def readFrequency (getPhase : BitVec 32 → BitVec 32) (s : Server) (t : Turn)
    (id : ℕ) : Server :=
  let s := s.emit ((s.clients id).fd.toList.map .read)
  match t.frequency id with
  | .error => s.closeSlot id
  | .nothing => s
  | .frequency freq =>
      { s with
        rxFreq :=
          Function.update s.rxFreq (s.clients id).channel (getPhase freq) }

/-- The body of the loop; the second component is `sysCalls`. -/
def maintainClient (getPhase : BitVec 32 → BitVec 32) (t : Turn) (id : ℕ)
    (s : Server) (sysCalls : ℕ) : Server × ℕ :=
  let (s, sysCalls) :=
    if (s.clients id).fd = none then (s.acceptSlot t id, sysCalls + 1)
    else (s, sysCalls)
  if (s.clients id).fd = none then (s, sysCalls)
  else
    let s := s.acceptClientDiscard (t.discard id)
    if id ≥ numchans then (s, sysCalls + 1)
    else (s.readFrequency getPhase t id, sysCalls + 2)

def visit (s : Server) (id : ℕ) : Server :=
  { s with visits := s.visits ++ [(id, s.now)] }

def maintainLoop (getPhase : BitVec 32 → BitVec 32) (t : Turn) (id : ℕ)
    (s : Server) (sysCalls : ℕ) : Server × ℕ :=
  if id < numclients ∧ sysCalls < syscallsPerLoop then
    let (s, sysCalls) := (s.visit id).maintainClient getPhase t id sysCalls
    maintainLoop getPhase t (id + 1) s sysCalls
  else ({ s with maintenanceId := id }, sysCalls)
termination_by numclients - id

def maintain (getPhase : BitVec 32 → BitVec 32) (t : Turn) (s : Server) :
    Server × ℕ :=
  let s := { s with now := t.maintenanceTime }
  let s :=
    if s.maintenanceId = numclients then
      { s with
        maintenanceId := 0
        nextNetworkMaintenance := s.now + 100 * 1000 }
    else s
  s.maintainLoop getPhase t s.maintenanceId 0

/-! ## The flush of the send queues -/

/-- The call of `send()` that `flushClient` makes, if it gets there. -/
def sendEvent (c : Client) (bytesWritten : ℤ) : List Event :=
  if c.sendqLen < sendSize ∨ c.sendqLen ≤ 0 then []
  else c.fd.toList.map fun fd =>
    .send fd (read c.sendq c.sendqStart bytesWritten.toNat)

/-- The body of the loop on a connected client.  The second component is what
`sysCalls` and `totalWritten` go up by. -/
def flushSlot (t : Turn) (id : ℕ) (s : Server) : Option (Server × ℕ × ℕ) :=
  ((s.clients id).flushClient sendSize sendSize (t.send id) s.now).map
    fun (c, bytesWritten) =>
      let lastProgress := c.lastProgress
      let s := (s.setClient id c).emit
        (sendEvent (s.clients id) bytesWritten)
      if bytesWritten = -1 then (s.closeSlot id, 0, 0)
      else if bytesWritten > 0 then (s, 1, bytesWritten.toNat)
      else if bytesWritten = -2 then
        if s.now - lastProgress > 2 * 1000 * 1000 then (s.closeSlot id, 1, 0)
        else (s, 1, 0)
      else (s, 0, 0)

def flushLoop (t : Turn) (id : ℕ) (s : Server) (sysCalls totalWritten : ℕ) :
    Option (Server × ℕ) :=
  if id < numclients ∧ sysCalls < syscallsPerLoop then
    if (s.clients id).fd = none then
      flushLoop t (id + 1) s sysCalls totalWritten
    else
      s.flushSlot t id >>= fun (s, calls, written) =>
        flushLoop t (id + 1) s (sysCalls + calls) (totalWritten + written)
  else some ({ s with flushId := id }, totalWritten)
termination_by numclients - id

/-- `totalWritten` only decides whether the turn ends with `usleep()`. -/
def flush (t : Turn) (s : Server) : Option Server :=
  let s := { s with now := t.flushTime, flushes := s.flushes + 1 }
  let id := if s.flushId = numclients then 0 else s.flushId
  (s.flushLoop t id 0 0).map Prod.fst

/-! ## Runs -/

/-- `resetRX` clears the FIFO when the counter shows it full. -/
def rxSamples (t : Turn) : ℕ :=
  if t.rdCntr.toNat ≥ fifoSamples then 0 else t.rdCntr.toNat

def turn (getPhase : BitVec 32 → BitVec 32) (s : Server) (t : Turn) :
    Option Server :=
  let (s, adjusted) := s.adjustAtt t
  s.readLoop t.fifo 0 (rxSamples t) >>= fun s =>
    if adjusted || decide (rxSamples t ≥ chunkSamples) then some s
    else
      let (s, sysCalls) :=
        if s.now > s.nextNetworkMaintenance then s.maintain getPhase t
        else (s, 0)
      if sysCalls > 0 then some s else s.flush t

def run (getPhase : BitVec 32 → BitVec 32) (s : Server) (ts : List Turn) :
    Option Server :=
  ts.foldlM (turn getPhase) s

/-- The clients are closed when the server ends. -/
def cleanUp (s : Server) : Server :=
  (List.range numclients).foldl
    (fun s id => if (s.clients id).fd = none then s else s.closeSlot id) s

end Server

end RedPitayaNotes.HfdlReceiver
