import RedPitayaNotes.Support.Bits
import RedPitayaNotes.Support.Clocked
import RedPitayaNotes.Support.Cursor

/-!
# The PSK Reporter uploader

`upload-to-pskreporter.c` reads decoded spots from a file, a line each, and sends
them in datagrams: a header, a record of the receiving station, and up to ten
records of stations heard, built one after the other in a buffer of 512 bytes.
A C string is the list of its bytes before the terminator.  The conversions of
the C library are parameters.
-/

namespace RedPitayaNotes.SdrTransceiverFt8

open Bits Clocked

/-- What the program asks of the system: `strptime` with the format of the file,
its result as `timegm` gives it, and `strtol`, both with the rest of the string;
the rest that `strtod` leaves, as nothing uses its value; and the numbers of
`rand` and, for each datagram, of `time`.  A `time_t` is an integer here, which
`copy_int4` cuts to its `int32_t`. -/
structure Libc where
  strptime : List Byte → Option (ℤ × List Byte)
  strtod : List Byte → List Byte
  strtol : List Byte → BitVec 32 × List Byte
  rand : BitVec 32
  time : ℕ → ℤ

def ascii (cs : List Char) : List Byte := cs.map fun c => BitVec.ofNat 8 c.toNat

/-- `"Web-888 FT8 TRX 1.0"` -/
def soft : List Byte :=
  ascii ['W', 'e', 'b', '-', '8', '8', '8', ' ', 'F', 'T', '8', ' ',
    'T', 'R', 'X', ' ', '1', '.', '0']

/-! ## Writing -/

section Copy

variable (c : Cursor Byte)

/-- The length is stored in an `int8_t`; the strings are at most 64 long. -/
def copyChar (value : List Byte) : Cursor Byte :=
  let size := BitVec.ofNat 8 value.length
  (c.put [size]).put (value.take size.toNat)

def copyInt1 (value : BitVec 8) : Cursor Byte := c.put [value]

def copyInt2 (value : BitVec 16) : Cursor Byte :=
  c.put [value.extractLsb' 8 8, value.extractLsb' 0 8]

def copyInt4 (value : BitVec 32) : Cursor Byte :=
  c.put (wordBytes value).reverse

end Copy

/-- The number of bytes to the next multiple of four. -/
def padding (size : ℕ) : ℕ := (4 - size % 4) % 4

/-! ## Reading -/

/-- `fgets(line, 64, fp)`: at most 63 bytes, to the end of the line. -/
def readLine : ℕ → List Byte → List Byte × List Byte
  | 0, file => ([], file)
  | _ + 1, [] => ([], [])
  | n + 1, b :: file =>
    if b = 10 then ([b], file)
    else (b :: (readLine n file).1, (readLine n file).2)

def fgets (file : List Byte) : Option (List Byte × List Byte) :=
  if file = [] then none else some (readLine 63 file)

/-- The results of `fgets` to the end of the file: `line` has room for `n` more
bytes. -/
def linesFrom (line : List Byte) (n : ℕ) : List Byte → List (List Byte)
  | [] => if line = [] then [] else [line]
  | b :: file =>
    if b = 10 ∨ n ≤ 1 then (line ++ [b]) :: linesFrom [] 63 file
    else linesFrom (line ++ [b]) (n - 1) file

def lines (file : List Byte) : List (List Byte) := linesFrom [] 63 file

theorem linesFrom_eq (line : List Byte) (n : ℕ) (file : List Byte) :
    linesFrom line (n + 1) file =
      if line ++ file = [] then []
      else (line ++ (readLine (n + 1) file).1) ::
        lines (readLine (n + 1) file).2 := by
  induction file generalizing line n with
  | nil =>
      rw [linesFrom, List.append_nil, readLine, List.append_nil]
      rfl
  | cons b file ih =>
      have hne : line ++ b :: file ≠ [] :=
        List.append_ne_nil_of_right_ne_nil _ (List.cons_ne_nil _ _)
      rw [linesFrom, if_neg hne, readLine]
      by_cases hb : b = 10
      · rw [if_pos (Or.inl hb), if_pos hb]
        rfl
      · rw [if_neg hb]
        cases n with
        | zero =>
            rw [if_pos (Or.inr (le_refl 1)), readLine]
            rfl
        | succ n =>
            have hroom : ¬(b = 10 ∨ n + 1 + 1 ≤ 1) := by
              rintro (heq | hle)
              · exact hb heq
              · omega
            rw [if_neg hroom, Nat.add_sub_cancel, ih, List.append_assoc,
              List.append_assoc, List.singleton_append, if_neg hne]
            rfl

/-- The lines are what `fgets` returns, one after the other. -/
theorem lines_eq (file : List Byte) :
    lines file = match fgets file with
      | none => []
      | some (line, rest) => line :: lines rest := by
  rw [lines, linesFrom_eq, fgets, List.nil_append, List.nil_append]
  split <;> rfl

/-- `isspace` -/
def isSpace (b : Byte) : Bool := b == 32 || (9 ≤ b && b ≤ 13)

/-- A conversion `%s` of the given width: the word and the rest. -/
def scanWord (width : ℕ) (src : List Byte) : List Byte × List Byte :=
  let src := src.dropWhile isSpace
  let word := (src.takeWhile fun b => !isSpace b).take width
  (word, src.drop word.length)

/-- `sscanf(src, "%13s %4s", call, grid)`: its result, -1 at the end of the
string, and the two words, empty before the call. -/
def sscanf (src : List Byte) : ℤ × List Byte × List Byte :=
  let (call, src) := scanWord 13 src
  let (grid, _) := scanWord 4 src
  (if call = [] then -1 else if grid = [] then 1 else 2, call, grid)

/-- A line of the file. -/
structure Record where
  time : ℤ
  snr : BitVec 32
  freq : BitVec 32
  call : List Byte
  grid : List Byte
  call_le : call.length ≤ 13
  grid_le : grid.length ≤ 4

section Read

variable (libc : Libc)

def readInt (src : List Byte) : Option (BitVec 32 × List Byte) :=
  if (libc.strtol src).2 = src then none else some (libc.strtol src)

def readDbl (src : List Byte) : Option (List Byte) :=
  if libc.strtod src = src then none else some (libc.strtod src)

theorem length_scanWord_le (width : ℕ) (src : List Byte) :
    (scanWord width src).1.length ≤ width :=
  List.length_take_le _ _

/-- The conversions of a line, up to its first NUL byte, in turn; `sync` and
`dt` are not used. -/
def readRecord (line : List Byte) : Option Record := do
  let (time, src) ← libc.strptime (line.takeWhile (· != 0))
  let src ← readDbl libc src
  let (snr, src) ← readInt libc src
  let src ← readDbl libc src
  let (freq, src) ← readInt libc src
  let words := sscanf src
  if words.1 = 0 then none
  else
    return {
      time, snr, freq
      call := words.2.1
      grid := words.2.2
      call_le := length_scanWord_le 13 src
      grid_le := length_scanWord_le 4 (scanWord 13 src).2 }

/-- The records of a file, in order. -/
def records (file : List Byte) : List Record :=
  (lines file).filterMap (readRecord libc)

end Read

/-! ## main -/

/-- The arguments that `main` accepts. -/
structure Station where
  call : List Byte
  grid : List Byte
  antenna : List Byte
  call_le : call.length ≤ 16
  grid_le : grid.length ≤ 6
  antenna_le : antenna.length ≤ 64

section Main

variable (libc : Libc) (station : Station)

def header : List Byte :=
  [0x00, 0x0A, 0x00, 0x00, 0x00, 0x00, 0x00, 0x00,
   0x00, 0x00, 0x00, 0x00] ++ (wordBytes libc.rand).reverse ++
  [0x00, 0x03, 0x00, 0x2C, 0x99, 0x92, 0x00, 0x04,
   0x00, 0x00,
   0x80, 0x02, 0xFF, 0xFF, 0x00, 0x00, 0x76, 0x8F,
   0x80, 0x04, 0xFF, 0xFF, 0x00, 0x00, 0x76, 0x8F,
   0x80, 0x08, 0xFF, 0xFF, 0x00, 0x00, 0x76, 0x8F,
   0x80, 0x09, 0xFF, 0xFF, 0x00, 0x00, 0x76, 0x8F,
   0x00, 0x00,
   0x00, 0x02, 0x00, 0x3C, 0x99, 0x93, 0x00, 0x07,
   0x80, 0x01, 0xFF, 0xFF, 0x00, 0x00, 0x76, 0x8F,
   0x80, 0x03, 0xFF, 0xFF, 0x00, 0x00, 0x76, 0x8F,
   0x80, 0x05, 0x00, 0x04, 0x00, 0x00, 0x76, 0x8F,
   0x80, 0x06, 0x00, 0x01, 0x00, 0x00, 0x76, 0x8F,
   0x80, 0x0A, 0xFF, 0xFF, 0x00, 0x00, 0x76, 0x8F,
   0x80, 0x0B, 0x00, 0x01, 0x00, 0x00, 0x76, 0x8F,
   0x00, 0x96, 0x00, 0x04]

/-- Everything before the loop: the write position after it, and `start`. -/
def prologue : Cursor Byte × ℕ :=
  let c : Cursor Byte := ⟨0, []⟩
  let c := c.fill (header libc)
  let start := (header libc).length
  let c := c.move (start + 4)
  let c := copyChar c station.call
  let c := copyChar c station.grid
  let c := copyChar c soft
  let c := copyChar c station.antenna
  let size := c.pos - start
  let c := c.fill (List.replicate (padding size) 0)
  let size := size + padding size
  let c := c.move start
  let c := copyInt2 c 0x9992
  let c := copyInt2 c (BitVec.ofNat 16 size)
  (c.move (start + size + 4), start + size)

/-- The variables of the loop. -/
structure Progress where
  cursor : Cursor Byte
  counter : ℕ
  sequence : ℕ

def copyRecord (c : Cursor Byte) (r : Record) : Cursor Byte :=
  let c := copyChar c r.call
  let c := copyChar c r.grid
  let c := copyInt4 c r.freq
  let c := copyInt1 c (r.snr.setWidth 8)
  let c := copyChar c (ascii ['F', 'T', '8'])
  let c := copyInt1 c 1
  copyInt4 c (BitVec.ofInt 32 (r.time + 15))

/-- The block that completes the datagram and sends it. -/
def send (start : ℕ) (s : Progress) : Progress :=
  let size := s.cursor.pos - start
  let c := s.cursor.fill (List.replicate (padding size) 0)
  let size := size + padding size
  let c := c.move start
  let c := copyInt2 c 0x9993
  let c := copyInt2 c (BitVec.ofNat 16 size)
  let c := c.move 2
  let size := size + start
  let c := copyInt2 c (BitVec.ofNat 16 size)
  let c := copyInt4 c (BitVec.ofInt 32 (libc.time s.sequence))
  let c := copyInt4 c (BitVec.ofNat 32 s.sequence)
  -- sendto
  let c := c.load 0 size
  { cursor := c.move (start + 4), counter := 0, sequence := s.sequence + 1 }

/-- The body of the loop, given what `fgets` returns. -/
def body (start : ℕ) (s : Progress) : Option (List Byte) → Progress
  | some line =>
    match readRecord libc line with
    | none => s
    | some r =>
      let s := { s with cursor := copyRecord s.cursor r, counter := s.counter + 1 }
      if s.counter < 10 then s else send libc start s
  | none => if 0 < s.counter then send libc start s else s

/-- The program from the arguments on: all its accesses to the buffer. -/
def upload (file : List Byte) : Cursor Byte :=
  let s := prologue libc station
  (run (body libc s.2) ⟨s.1, 0, 0⟩ ((lines file).map some ++ [none])).cursor

end Main

/-- What `fopen`, `socket` and `gethostbyname` return. -/
structure System where
  file : Option (List Byte)
  socket : Bool
  host : Bool

def main (libc : Libc) (system : System) (argv : List (List Byte)) :
    Except String (Cursor Byte) :=
  match argv with
  | [_, call, grid, antenna, _] =>
    if hcall : call.length ≤ 16 then
      if hgrid : grid.length ≤ 6 then
        if hantenna : antenna.length ≤ 64 then
          match system.file with
          | none => .error "Cannot open input file."
          | some file =>
            if !system.socket then .error "Cannot open socket."
            else if !system.host then
              .error "Cannot find remote host address."
            else
              .ok (upload libc ⟨call, grid, antenna, hcall, hgrid, hantenna⟩
                file)
        else .error "Antenna description is too long."
      else .error "Grid locator is too long."
    else .error "Call sign is too long."
  | _ => .error "Usage: upload-to-pskreporter call grid antenna file"

/-- The program gets to the buffer with arguments of the lengths it checks. -/
theorem main_ok {libc : Libc} {system : System} {argv : List (List Byte)}
    {c : Cursor Byte} (h : main libc system argv = .ok c) :
    ∃ station file, system.file = some file ∧ c = upload libc station file := by
  unfold main at h
  split at h
  next call grid antenna =>
    split at h
    next hcall =>
      split at h
      next hgrid =>
        split at h
        next hantenna =>
          split at h
          next => cases h
          next file hfile =>
            split at h
            · cases h
            · split at h
              · cases h
              · exact ⟨_, file, hfile, (Except.ok.inj h).symm⟩
        next => cases h
      next => cases h
    next => cases h
  next => cases h

end RedPitayaNotes.SdrTransceiverFt8
