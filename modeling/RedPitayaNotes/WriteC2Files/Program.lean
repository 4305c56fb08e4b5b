import Mathlib.Data.Rat.Defs
import RedPitayaNotes.Support.Bits
import RedPitayaNotes.Support.FrameQueue

/-!
# The recorders of the WSPR and FT8 transceivers

The two programs `write-c2-files.c` of `sdr_transceiver_wspr` and of
`sdr_transceiver_ft8` record the eight channels of the receiver for two minutes
or one, and write a file for each band of the configuration.  The FIFO holds
frames with a sample of each channel, as in the eight-channel receiver.
-/

namespace RedPitayaNotes.WriteC2Files

open Bits FrameQueue

/-! ## The configuration -/

/-- What libconfig finds in the file; `none` stands for a setting that is
missing. -/
structure Config where
  corr : Option ℚ
  bands : Option (List (Option ℚ))

/-- The settings that a program goes on with. -/
structure Settings where
  corr : ℚ
  freq : List ℚ
  freq_pos : 1 ≤ freq.length
  freq_le : freq.length ≤ 8

/-- The loop over the bands, from element `i` on. -/
def readBands (i : ℕ) : List (Option ℚ) → Except String (List ℚ)
  | [] => .ok []
  | none :: _ => .error ("No 'freq' setting in element " ++ toString i ++ ".")
  | some freq :: bands => (readBands (i + 1) bands).map (freq :: ·)

theorem length_readBands {i : ℕ} {bands : List (Option ℚ)} {freq : List ℚ}
    (h : readBands i bands = .ok freq) : freq.length = bands.length := by
  induction bands generalizing i freq with
  | nil =>
      cases h
      rfl
  | cons band bands ih =>
      cases band with
      | none => cases h
      | some f =>
          unfold readBands at h
          cases hrest : readBands (i + 1) bands with
          | error e =>
              rw [hrest] at h
              cases h
          | ok rest =>
              rw [hrest] at h
              cases h
              rw [List.length_cons, List.length_cons, ih hrest]

def Config.read (c : Config) : Except String Settings :=
  match c.corr with
  | none => .error "No 'corr' setting in configuration file."
  | some corr =>
    if corr < -100 ∨ corr > 100 then
      .error "Wrong 'corr' setting in configuration file."
    else
      match c.bands with
      | none => .error "No 'bands' setting in configuration file."
      | some bands =>
        if hle : bands.length > 8 then
          .error "More than 8 bands in configuration file."
        else if hpos : bands.length < 1 then
          .error "Less than 1 band in configuration file."
        else
          match h : readBands 0 bands with
          | .error e => .error e
          | .ok freq =>
            have hlen := length_readBands h
            .ok ⟨corr, freq, by omega, by omega⟩

/-! ## The programs -/

/-- What the two programs do not have in common.  The functions stand for the
arithmetic on `double`. -/
structure Program where
  /-- The room for a band in `buffer`, in samples. -/
  room : ℕ
  /-- The bound of the loop on `offset`. -/
  stop : ℕ
  /-- The first bytes of a file. -/
  magic : List Byte
  /-- The bytes of `dialfreq`. -/
  dialfreq : ℚ → BitVec 64
  /-- `dialfreq` in Hz, as an integer. -/
  hertz : ℚ → BitVec 32
  /-- The first part of the names of the files. -/
  mode : String
  stop_dvd : 250 ∣ stop
  stop_le : stop ≤ room

def ft8 (dialfreq : ℚ → BitVec 64) (hertz : ℚ → BitVec 32) : Program where
  room := 240000
  stop := 236000
  magic := []
  dialfreq := dialfreq
  hertz := hertz
  mode := "ft8_"
  stop_dvd := by decide
  stop_le := by decide

/-- The bytes of an integer of 64 bits. -/
def longBytes (x : BitVec 64) : List Byte :=
  wordBytes (x.setWidth 32) ++ wordBytes ((x >>> 32).setWidth 32)

namespace Program

variable (p : Program)

/-- The name that `sprintf()` makes for band `i`. -/
def name (date : String) (i : ℕ) (freq : ℚ) : String :=
  p.mode ++ toString i ++ "_" ++ toString (p.hertz freq).toInt ++ "_1_" ++ date ++
    ".c2"

/-- What is written to the file of band `i`. -/
def content (buffer : List (BitVec 64)) (i : ℕ) (freq : ℚ) : List Byte :=
  p.magic ++ longBytes (p.dialfreq freq) ++
    ((buffer.drop (i * p.room)).take p.room).flatMap longBytes

end Program

/-! ## The recording -/

/-- The two words of a sample of each channel. -/
structure Frame where
  words : List (BitVec 32)
  length_eq : words.length = 16

/-- `WRITE_DEPTH` of the FIFO. -/
def writeDepth : ℕ := 1024

/-- The statement to be executed next. -/
inductive Statement where
  /-- The assignments to `rst`; the second is followed by `malloc()`. -/
  | reset
  | enable
  /-- The loop on `offset`. -/
  | test
  /-- The loop that waits for samples. -/
  | wait
  /-- The two loops that read a sample. -/
  | copy (i j : ℕ)
  /-- The loop over the bands. -/
  | file (i : ℕ)
  | success
  | failure
deriving DecidableEq

/-- `rst` is bit 0 of the register.  The history of the FIFO begins when it is
enabled. -/
structure State where
  rst : Bool
  fifo : Feed (BitVec 32)
  statement : Statement
  offset : ℕ
  buffer : List (BitVec 64)
  files : List (String × List Byte)

/-- The program once the registers with the frequencies are set. -/
def State.start (rst : Bool) (fifo : Feed (BitVec 32)) : State where
  rst := rst
  fifo := fifo
  statement := .reset
  offset := 0
  buffer := []
  files := []

/-- What the calls of a statement answer: the frames that `cntr` does not show
yet, and whether `fopen()` fails. -/
structure Answer where
  lag : ℕ
  fopenFails : Bool

inductive Event where
  | frame (f : Frame)
  /-- The converter takes the next frame from the FIFO. -/
  | load
  /-- The program executes a statement. -/
  | step (a : Answer)

/-- The FIFO is read no more. -/
def Statement.recorded : Statement → Bool
  | .file _ => true
  | .success => true
  | .failure => true
  | _ => false

namespace State

variable (s : State)

def cntr (a : Answer) : ℕ := s.fifo.queue.frames.length - a.lag

/-- The receiver writes a frame, unless the FIFO is in reset; those that come
after the last read are of no account. -/
def frame (f : Frame) : State :=
  if s.rst && !s.statement.recorded then
    { s with fifo := s.fifo.write writeDepth f.words }
  else s

/-- `buffer[j * room + offset + i] = *fifo`, where the integer of 64 bits is read
in two words, the lower one first. -/
def copy (p : Program) (i j : ℕ) : State :=
  let low := s.fifo.read
  let high := low.2.read
  { s with
    fifo := high.2
    -- the hub answers a read with zeros if the stream has no word for it
    buffer := s.buffer.set (j * p.room + s.offset + i)
      (high.1.getD 0 ++ low.1.getD 0) }

def step (p : Program) (date : String) (settings : Settings) (a : Answer) : State :=
  match s.statement with
  | .reset =>
    { s with rst := false, fifo := Feed.start, statement := .enable }
  | .enable =>
    { s with
      rst := true
      offset := 0
      buffer := List.replicate (8 * p.room) 0
      statement := .test }
  | .test =>
    if s.offset < p.stop then { s with statement := .wait }
    else { s with statement := .file 0 }
  | .wait => if s.cntr a < 500 then s else { s with statement := .copy 0 0 }
  | .copy i j =>
    if j + 1 < 8 then { s.copy p i j with statement := .copy i (j + 1) }
    else if i + 1 < 250 then { s.copy p i j with statement := .copy (i + 1) 0 }
    else { s.copy p i j with offset := s.offset + 250, statement := .test }
  | .file i =>
    if h : i < settings.freq.length then
      if a.fopenFails then { s with statement := .failure }
      else
        { s with
          files := s.files ++ [(p.name date i settings.freq[i],
            p.content s.buffer i settings.freq[i])]
          statement := .file (i + 1) }
    else { s with statement := .success }
  | .success => s
  | .failure => s

def next (p : Program) (date : String) (settings : Settings) (s : State) :
    Event → State
  | .frame f => s.frame f
  | .load => { s with fifo := s.fifo.load }
  | .step a => s.step p date settings a

end State

end RedPitayaNotes.WriteC2Files
