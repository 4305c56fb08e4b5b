import Mathlib.Data.List.TakeWhile
import RedPitayaNotes.SdrTransceiverFt8.Upload
import RedPitayaNotes.Support.LongestMatch

/-!
# The lines that make a record

The numeric conversions of `upload-to-pskreporter.c` with the forms of the C
standard, and the lines that are accepted with them: all that have a time and
four numbers, with a call sign behind them or at the end of the line.
-/

namespace RedPitayaNotes.SdrTransceiverFt8

open Bits LongestMatch

/-! ## The forms of numbers -/

def isDigit (b : Byte) : Bool := 48 ≤ b && b ≤ 57

/-- `tolower` -/
def toLower (b : Byte) : Byte := if 65 ≤ b && b ≤ 90 then b + 32 else b

def isHexDigit (b : Byte) : Bool :=
  isDigit b || (97 ≤ toLower b && toLower b ≤ 102)

/-- A letter, a digit or an underscore. -/
def isWordChar (b : Byte) : Bool :=
  isDigit b || (97 ≤ toLower b && toLower b ≤ 122) || b == 95

/-- The text without its sign. -/
def dropSign : List Byte → List Byte
  | 43 :: xs => xs
  | 45 :: xs => xs
  | xs => xs

def isDigits (xs : List Byte) : Bool := xs ≠ [] && xs.all isDigit

/-- The form that `strtol` looks for, to base 10. -/
def isInteger (xs : List Byte) : Bool := isDigits (dropSign xs)

/-- Nothing, or an exponent after the given letter. -/
def isExponent (letter : Byte) : List Byte → Bool
  | [] => true
  | b :: xs => toLower b == letter && isInteger xs

/-- Digits with a point among them or not, and an exponent or none. -/
def isFloating (digit : Byte → Bool) (letter : Byte) (xs : List Byte) : Bool :=
  let whole := xs.takeWhile digit
  match xs.dropWhile digit with
  | 46 :: ys =>
    (whole ++ ys.takeWhile digit) ≠ [] && isExponent letter (ys.dropWhile digit)
  | ys => whole ≠ [] && isExponent letter ys

def isDecimal : List Byte → Bool := isFloating isDigit 101

def isHexadecimal : List Byte → Bool
  | 48 :: b :: xs => toLower b == 120 && isFloating isHexDigit 112 xs
  | _ => false

def isInfinity (xs : List Byte) : Bool :=
  xs.map toLower = ascii ['i', 'n', 'f'] ||
    xs.map toLower = ascii ['i', 'n', 'f', 'i', 'n', 'i', 't', 'y']

def isNan (xs : List Byte) : Bool :=
  (xs.take 3).map toLower = ascii ['n', 'a', 'n'] &&
    match xs.drop 3 with
    | [] => true
    | 40 :: ys => ys.getLast? = some 41 && ys.dropLast.all isWordChar
    | _ => false

/-- The form that `strtod` looks for. -/
def isNumber (xs : List Byte) : Bool :=
  let xs := dropSign xs
  isDecimal xs || isHexadecimal xs || isInfinity xs || isNan xs

/-- A library with the conversions of the C standard: the longest text of the
form, after white space. -/
def standard (libc : Libc) : Libc where
  strptime := libc.strptime
  strtod := convert isNumber isSpace
  strtol src := ((libc.strtol src).1, convert isInteger isSpace src)
  rand := libc.rand
  time := libc.time

/-! ## Lines -/

section Lines

variable (libc : Libc)

/-- A number of the form is the next field of the text. -/
def Field (form : List Byte → Bool) (src rest : List Byte) : Prop :=
  ∃ token, IsLongest form (src.dropWhile isSpace) token rest

/-- The line starts with a date and time and the four numbers. -/
def Fields (line rest : List Byte) : Prop :=
  ∃ time src₀ src₁ src₂ src₃,
    libc.strptime (line.takeWhile (· != 0)) = some (time, src₀) ∧
      Field isNumber src₀ src₁ ∧ Field isInteger src₁ src₂ ∧
      Field isNumber src₂ src₃ ∧ Field isInteger src₃ rest

/-- A word is next in the text. -/
def Word (src word rest : List Byte) : Prop :=
  src.dropWhile isSpace = word ++ rest ∧ word ≠ [] ∧
    (∀ b ∈ word, isSpace b = false) ∧ ∀ b ∈ rest.head?, isSpace b = true

/-- There is a call sign after the numbers; what comes behind it is the grid, if
there is one. -/
def Complete (line : List Byte) : Prop :=
  ∃ src call rest, Fields libc line src ∧ Word src call rest

/-- A call sign, a grid or none, and the end of the line. -/
def OnlyGrid (src : List Byte) : Prop :=
  ∃ call rest, Word src call rest ∧
    ((∀ b ∈ rest, isSpace b = true) ∨
      ∃ grid rest', Word rest grid rest' ∧ ∀ b ∈ rest', isSpace b = true)

/-- The line ends after the four numbers. -/
def EndsBeforeCall (line : List Byte) : Prop :=
  ∃ src, Fields libc line src ∧ ∀ b ∈ src, isSpace b = true

/-- A sender record is produced for the line. -/
def Produces (line : List Byte) : Prop := (readRecord libc line).isSome

end Lines

example : [ascii ['-', '1', '2', '.', '5'], ascii ['.', '5', 'e', '-', '3'],
    ascii ['0', 'x', '1', '.', 'p', '4'], ascii ['n', 'A', 'n', '(', '_', ')']].all
      isNumber = true := by decide

example : [ascii ['.'], ascii ['1', 'e'], ascii ['0', 'x'], ascii [' ', '1'],
    ascii []].any isNumber = false := by decide

/-! ## The conversions -/

variable {libc : Libc} {line src rest : List Byte}

theorem Field.unique {form : List Byte → Bool} {rest' : List Byte}
    (h : Field form src rest) (h' : Field form src rest') : rest = rest' := by
  obtain ⟨token, htoken⟩ := h
  obtain ⟨token', htoken'⟩ := h'
  exact (htoken.unique htoken').2

theorem readDbl_eq_some_iff (libc : Libc) :
    readDbl (standard libc) src = some rest ↔ Field isNumber src rest := by
  have hnil : isNumber [] = false := by decide
  have hconvert : convert isNumber isSpace src ≠ src ∧ convert isNumber isSpace src = rest ↔
      _ := convert_eq_iff hnil
  rw [Field, ← hconvert, readDbl]
  split_ifs with hsame
  · exact ⟨nofun, fun h => absurd hsame h.1⟩
  · exact ⟨fun h => ⟨hsame, Option.some.inj h⟩, fun h => congrArg some h.2⟩

theorem readInt_eq_some_iff (libc : Libc) {value : BitVec 32} :
    readInt (standard libc) src = some (value, rest) ↔
      (libc.strtol src).1 = value ∧ Field isInteger src rest := by
  have hnil : isInteger [] = false := by decide
  have hconvert : convert isInteger isSpace src ≠ src ∧ convert isInteger isSpace src = rest ↔
      _ := convert_eq_iff hnil
  rw [Field, ← hconvert, readInt]
  split_ifs with hsame
  · exact ⟨nofun, fun h => absurd hsame h.2.1⟩
  · constructor
    · intro h
      obtain ⟨hvalue, hrest⟩ := Prod.mk.inj (Option.some.inj h)
      exact ⟨hvalue, hsame, hrest⟩
    · rintro ⟨hvalue, -, hrest⟩
      exact congrArg some (Prod.ext hvalue hrest)

/-- At the end of the string the result is -1, which is no failure here. -/
theorem sscanf_ne_zero (src : List Byte) : (sscanf src).1 ≠ 0 := by
  rw [sscanf]
  dsimp only
  split_ifs <;> decide

/-! ## What is accepted -/

theorem produces_iff :
    Produces (standard libc) line ↔ ∃ rest, Fields libc line rest := by
  rw [Produces, Option.isSome_iff_exists]
  constructor
  · rintro ⟨record, h⟩
    simp only [readRecord, Option.bind_eq_bind, Option.bind_eq_some_iff] at h
    obtain ⟨⟨time, src₀⟩, htime, src₁, hsync, ⟨snr, src₂⟩, hsnr, src₃, hdt,
      ⟨freq, src₄⟩, hfreq, -⟩ := h
    exact ⟨src₄, time, src₀, src₁, src₂, src₃, htime,
      (readDbl_eq_some_iff libc).mp hsync,
      ((readInt_eq_some_iff libc).mp hsnr).2,
      (readDbl_eq_some_iff libc).mp hdt,
      ((readInt_eq_some_iff libc).mp hfreq).2⟩
  · rintro ⟨rest, time, src₀, src₁, src₂, src₃, htime, hsync, hsnr, hdt, hfreq⟩
    have htime' : (standard libc).strptime (line.takeWhile (· != 0)) =
        some (time, src₀) := htime
    have hsync' := (readDbl_eq_some_iff libc).mpr hsync
    have hsnr' := (readInt_eq_some_iff libc).mpr ⟨rfl, hsnr⟩
    have hdt' := (readDbl_eq_some_iff libc).mpr hdt
    have hfreq' := (readInt_eq_some_iff libc).mpr ⟨rfl, hfreq⟩
    simp only [readRecord, Option.bind_eq_bind, Option.bind_some, htime', hsync',
      hsnr', hdt', hfreq', if_neg (sscanf_ne_zero rest)]
    exact ⟨_, rfl⟩

theorem Fields.unique {rest' : List Byte} (h : Fields libc line rest)
    (h' : Fields libc line rest') : rest = rest' := by
  obtain ⟨time, src₀, src₁, src₂, src₃, htime, hsync, hsnr, hdt, hfreq⟩ := h
  obtain ⟨time', src₀', src₁', src₂', src₃', htime', hsync', hsnr', hdt',
    hfreq'⟩ := h'
  rw [htime] at htime'
  obtain ⟨rfl, rfl⟩ := Prod.mk.inj (Option.some.inj htime')
  obtain rfl := hsync.unique hsync'
  obtain rfl := hsnr.unique hsnr'
  obtain rfl := hdt.unique hdt'
  exact hfreq.unique hfreq'

theorem exists_word_iff :
    (∃ word rest, Word src word rest) ↔ ∃ b ∈ src, isSpace b = false := by
  constructor
  · rintro ⟨word, rest, hsrc, hne, hword, -⟩
    obtain ⟨b, word, rfl⟩ := List.exists_cons_of_ne_nil hne
    have hmem : b ∈ src.dropWhile isSpace := by
      rw [hsrc]
      exact List.mem_cons_self
    exact ⟨b, (List.dropWhile_sublist _).subset hmem,
      hword b List.mem_cons_self⟩
  · rintro ⟨b, hb, hspace⟩
    have hne : src.dropWhile isSpace ≠ [] := by
      intro hnil
      have hall := List.dropWhile_eq_nil_iff.mp hnil b hb
      rw [hspace] at hall
      exact absurd hall (by decide)
    obtain ⟨c, more, hcons⟩ := List.exists_cons_of_ne_nil hne
    have hc : isSpace c = false := by
      have hhead := List.head?_dropWhile_not isSpace src
      rw [hcons] at hhead
      simpa using hhead
    refine ⟨(c :: more).takeWhile (!isSpace ·), (c :: more).dropWhile (!isSpace ·),
      ?_, ?_, ?_, ?_⟩
    · rw [hcons, List.takeWhile_append_dropWhile]
    · rw [List.takeWhile_cons_of_pos (by simp [hc])]
      exact List.cons_ne_nil _ _
    · intro b hb
      simpa using List.mem_takeWhile_imp hb
    · intro b hb
      have hhead := List.head?_dropWhile_not (!isSpace ·) (c :: more)
      rw [Option.mem_def.mp hb] at hhead
      simpa using hhead

theorem EndsBeforeCall.produces (h : EndsBeforeCall libc line) :
    Produces (standard libc) line := by
  obtain ⟨src, hfields, -⟩ := h
  exact produces_iff.mpr ⟨src, hfields⟩

theorem EndsBeforeCall.not_complete (h : EndsBeforeCall libc line) :
    ¬Complete libc line := by
  obtain ⟨src, hfields, hblank⟩ := h
  rintro ⟨src', call, rest, hfields', hword⟩
  obtain rfl := hfields.unique hfields'
  obtain ⟨b, hb, hspace⟩ := exists_word_iff.mp ⟨call, rest, hword⟩
  rw [hblank b hb] at hspace
  exact absurd hspace (by decide)

/-- A record is produced for exactly the complete lines, but for those that end
before the call sign: for these there is one too. -/
theorem produces_iff_complete_iff (libc : Libc) (line : List Byte) :
    (Produces (standard libc) line ↔ Complete libc line) ↔
      ¬EndsBeforeCall libc line := by
  constructor
  · intro hiff hends
    exact hends.not_complete (hiff.mp hends.produces)
  · intro hends
    constructor
    · intro hproduces
      obtain ⟨src, hfields⟩ := produces_iff.mp hproduces
      have hcall : ∃ b ∈ src, isSpace b = false := by
        by_contra hnone
        push Not at hnone
        exact hends ⟨src, hfields, fun b hb => by
          simpa using hnone b hb⟩
      obtain ⟨call, rest, hword⟩ := exists_word_iff.mpr hcall
      exact ⟨src, call, rest, hfields, hword⟩
    · rintro ⟨src, call, rest, hfields, -⟩
      exact produces_iff.mpr ⟨src, hfields⟩

/-- With nothing allowed behind the grid, the lines with more words are accepted
too. -/
theorem produces_iff_onlyGrid_iff (libc : Libc) (line : List Byte) :
    (Produces (standard libc) line ↔ ∃ src, Fields libc line src ∧ OnlyGrid src) ↔
      ∀ src, Fields libc line src → OnlyGrid src := by
  rw [produces_iff]
  constructor
  · intro hiff src hfields
    obtain ⟨src', hfields', honly⟩ := hiff.mp ⟨src, hfields⟩
    rwa [hfields.unique hfields']
  · intro hall
    constructor
    · rintro ⟨src, hfields⟩
      exact ⟨src, hfields, hall src hfields⟩
    · rintro ⟨src, hfields, -⟩
      exact ⟨src, hfields⟩

/-! ## Short lines -/

theorem linesFrom_of_short (before : List Byte) {text : List Byte}
    (htext : 10 ∉ text) {n : ℕ} (hn : text.length < n) (file : List Byte) :
    linesFrom before n (text ++ 10 :: file) =
      (before ++ text ++ [10]) :: lines file := by
  induction text generalizing before n with
  | nil =>
      rw [List.nil_append, linesFrom, if_pos (Or.inl rfl), List.append_nil]
      rfl
  | cons b text ih =>
      obtain ⟨hb, htext⟩ := not_or.mp (mt List.mem_cons.mpr htext)
      have hlen : text.length < n - 1 := by
        rw [List.length_cons] at hn
        omega
      have hroom : ¬(b = 10 ∨ n ≤ 1) := by
        rintro (heq | hle)
        · exact hb heq.symm
        · omega
      rw [List.cons_append, linesFrom, if_neg hroom, ih _ htext hlen,
        List.append_assoc before, List.singleton_append]

/-- A line of fewer than 64 bytes is read whole. -/
theorem records_of_short (libc : Libc) {text : List Byte} (htext : 10 ∉ text)
    (hlen : (text ++ [10]).length < 64) (file : List Byte) :
    records libc (text ++ 10 :: file) =
      (readRecord libc (text ++ [10])).toList ++ records libc file := by
  have hshort : text.length < 63 := by
    rw [List.length_append, List.length_singleton] at hlen
    omega
  rw [records, lines, linesFrom_of_short [] htext hshort, List.nil_append,
    List.filterMap_cons]
  cases readRecord libc (text ++ [10]) <;> rfl

/-! ## A line without a call sign -/

/-- A library that knows the time of the line below. -/
def sampleLibc : Libc where
  strptime src :=
    if src.take 13 = ascii ['2', '5', '0', '1', '0', '1', ' ', '1', '2', '0',
        '0', '0', '0'] then
      some (1735732800, src.drop 13)
    else none
  strtod := convert isNumber isSpace
  strtol src := (0, convert isInteger isSpace src)
  rand := 0
  time _ := 0

/-- `"250101 120000 1.5 -7 0.2 14074000\n"` -/
def sampleLine : List Byte :=
  ascii ['2', '5', '0', '1', '0', '1', ' ', '1', '2', '0', '0', '0', '0', ' ',
    '1', '.', '5', ' ', '-', '7', ' ', '0', '.', '2', ' ', '1', '4', '0', '7',
    '4', '0', '0', '0'] ++ [10]

theorem endsBeforeCall_sampleLine : EndsBeforeCall sampleLibc sampleLine := by
  refine ⟨[10], ⟨1735732800, sampleLine.drop 13, sampleLine.drop 17,
    sampleLine.drop 20, sampleLine.drop 24, by decide, ?_, ?_, ?_, ?_⟩, by decide⟩
  · exact ⟨ascii ['1', '.', '5'], longest_eq_some_iff.mp (by decide)⟩
  · exact ⟨ascii ['-', '7'], longest_eq_some_iff.mp (by decide)⟩
  · exact ⟨ascii ['0', '.', '2'], longest_eq_some_iff.mp (by decide)⟩
  · exact ⟨ascii ['1', '4', '0', '7', '4', '0', '0', '0'],
      longest_eq_some_iff.mp (by decide)⟩

/-- The line makes a record although it has no call sign. -/
theorem produces_sampleLine :
    sampleLine.length < 64 ∧ Produces (standard sampleLibc) sampleLine ∧
      ¬Complete sampleLibc sampleLine :=
  ⟨by decide, endsBeforeCall_sampleLine.produces,
    endsBeforeCall_sampleLine.not_complete⟩

end RedPitayaNotes.SdrTransceiverFt8
