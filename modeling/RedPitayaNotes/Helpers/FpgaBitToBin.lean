import RedPitayaNotes.Support.Bits
import RedPitayaNotes.Support.Blocks

/-!
# Bit files and bin files

`helpers/fpga-bit-to-bin.py` takes the configuration data out of a bit file and
can turn the words of it round.  It accepts exactly the files that have the
fields it looks for, one after the other; only the data may be cut off.
-/

namespace RedPitayaNotes.FpgaBitToBin

open Bits Blocks

/-! ## The script -/

/-- How the script ends if it does not write the bin file. -/
inductive Failure where
  /-- `struct` got too few bytes. -/
  | struct
  /-- "Missing <0009> header (0x%x), not a bit file" -/
  | missingHeader (l : BitVec 16)
  /-- "Missing <a> header, not a bit file" -/
  | missingA
  /-- "unexpected EOF" -/
  | unexpectedEof
deriving DecidableEq

/-- The lines printed. -/
inductive Line where
  | designName (d : List Byte)
  /-- One of `KEYNAMES`. -/
  | keyName (name : String) (d : List Byte)
  | unexpectedKey (k : Byte)
  | foundBinaryData (l : BitVec 32)
deriving DecidableEq

/-- The format `>H`. -/
def short : List Byte → Except Failure (BitVec 16)
  | [b1, b0] => .ok (b1 ++ b0)
  | _ => .error .struct

/-- The format `>I`. -/
def ulong : List Byte → Except Failure (BitVec 32)
  | [b3, b2, b1, b0] => .ok (b3 ++ b2 ++ b1 ++ b0)
  | _ => .error .struct

/-- `KEYNAMES` -/
def keyNames (k : Byte) : Option String :=
  if k = 0x62 then some "Partname"
  else if k = 0x63 then some "Date"
  else if k = 0x64 then some "Time"
  else none

/-- `<I` unpacked and `>I` packed at every fourth byte. -/
def flip32 (data : List Byte) : Except Failure (List Byte) :=
  if data.length % 4 ≠ 0 then .error .struct
  else .ok ((blocks 4 data).flatMap fun word => (wordBytes (ofBytes word)).reverse)

/-- A length and as many bytes, or what is left; and the rest of the file. -/
def readValue (input : List Byte) : Except Failure (List Byte × List Byte) :=
  (short (input.take 2)).map fun l =>
    ((input.drop 2).take l.toNat, (input.drop 2).drop l.toNat)

def printKey (k : Byte) (d : List Byte) : Line :=
  match keyNames k with
  | some name => .keyName name d
  | none => .unexpectedKey k

theorem length_of_readValue {input d rest : List Byte}
    (h : readValue input = .ok (d, rest)) : rest.length ≤ input.length := by
  unfold readValue at h
  cases hl : short (input.take 2) with
  | error e =>
      rw [hl] at h
      cases h
  | ok l =>
      rw [hl] at h
      obtain ⟨-, rfl⟩ := Prod.mk.inj (Except.ok.inj h)
      rw [List.length_drop, List.length_drop]
      omega

/-- The data as they are written. -/
def written (flip : Bool) (d : List Byte) : Except Failure (List Byte) :=
  if flip then flip32 d else .ok d

/-- The data that follow the key `e`. -/
def readData (flip : Bool) (input : List Byte) :
    Except Failure (List Line × List Byte) := do
  let l ← ulong (input.take 4)
  let bin ← written flip ((input.drop 4).take l.toNat)
  return ([.foundBinaryData l], bin)

/-- The loop over the keys. -/
def readKeys (flip : Bool) : List Byte → Except Failure (List Line × List Byte)
  | [] => .error .unexpectedEof
  | k :: input =>
    if k = 0x65 then readData flip input
    else
      match _ : readValue input with
      | .error e => .error e
      | .ok (d, rest) =>
        (readKeys flip rest).map fun r => (printKey k d :: r.1, r.2)
termination_by input => input.length
decreasing_by
  have hle := length_of_readValue ‹_›
  rw [List.length_cons]
  omega

def readHeader (bitfile : List Byte) : Except Failure (List Byte) :=
  short (bitfile.take 2) >>= fun l =>
    if l ≠ 9 then .error (.missingHeader l)
    else .ok ((bitfile.drop 2).drop l.toNat)

def readLetter (bitfile : List Byte) : Except Failure (List Byte) :=
  readValue bitfile >>= fun r =>
    if r.1 ≠ [0x61] then .error .missingA else .ok r.2

/-- The lines printed and the bin file written. -/
def fpgaBitToBin (flip : Bool) (bitfile : List Byte) :
    Except Failure (List Line × List Byte) := do
  let bitfile ← readHeader bitfile
  let bitfile ← readLetter bitfile
  let (d, bitfile) ← readValue bitfile
  let r ← readKeys flip bitfile
  return (.designName d :: r.1, r.2)

/-! ## The format -/

structure Value where
  bytes : List Byte
  length_lt : bytes.length < 2 ^ 16

/-- A field that is not the data. -/
structure Field where
  key : Byte
  key_ne : key ≠ 0x65
  value : Value

/-- The data may be cut off, and something may follow whole data. -/
structure Data where
  size : BitVec 32
  bytes : List Byte
  length_le : bytes.length ≤ size.toNat
  trailer : List Byte
  trailer_nil : bytes.length < size.toNat → trailer = []

structure BitFile where
  preamble : List Byte
  length_preamble : preamble.length = 9
  design : Value
  fields : List Field
  data : Data

def packShort (v : BitVec 16) : List Byte :=
  [v.extractLsb' 8 8, v.extractLsb' 0 8]

def packLong (v : BitVec 32) : List Byte := (wordBytes v).reverse

def Value.encode (v : Value) : List Byte :=
  packShort (BitVec.ofNat 16 v.bytes.length) ++ v.bytes

def Field.encode (f : Field) : List Byte := f.key :: f.value.encode

def Data.encode (c : Data) : List Byte :=
  0x65 :: (packLong c.size ++ (c.bytes ++ c.trailer))

namespace BitFile

def encode (f : BitFile) : List Byte :=
  packShort 9 ++ (f.preamble ++ ([0x00, 0x01, 0x61] ++ (f.design.encode ++
    (f.fields.flatMap Field.encode ++ f.data.encode))))

/-- What is printed for the file. -/
def lines (f : BitFile) : List Line :=
  .designName f.design.bytes ::
    (f.fields.map (fun x => printKey x.key x.value.bytes) ++
      [.foundBinaryData f.data.size])

end BitFile

section Except

variable {ε α β : Type}

theorem bind_ok (x : α) (f : α → Except ε β) : (Except.ok x >>= f) = f x := rfl

theorem bind_eq_ok {x : Except ε α} {f : α → Except ε β} {b : β}
    (h : x >>= f = .ok b) : ∃ a, x = .ok a ∧ f a = .ok b := by
  cases x with
  | error e => cases h
  | ok a => exact ⟨a, rfl, h⟩

end Except

/-! ## Integers -/

theorem short_packShort (v : BitVec 16) (rest : List Byte) :
    short ((packShort v ++ rest).take 2) = .ok v := by
  change Except.ok (v.extractLsb' 8 8 ++ v.extractLsb' 0 8) = _
  rw [BitVec.extractLsb'_append_extractLsb'_eq_extractLsb' (by rfl)]
  exact congrArg _ BitVec.extractLsb'_eq_self

theorem ulong_packLong (v : BitVec 32) (rest : List Byte) :
    ulong ((packLong v ++ rest).take 4) = .ok v := by
  change Except.ok (ofBytes (wordBytes v)) = _
  rw [ofBytes_wordBytes]

/-- An integer is only read where all its bytes are there. -/
theorem short_eq_ok {input : List Byte} {v : BitVec 16}
    (h : short (input.take 2) = .ok v) :
    input = packShort v ++ input.drop 2 := by
  rcases input with _ | ⟨b1, _ | ⟨b0, input⟩⟩
  · cases h
  · cases h
  · obtain rfl : b1 ++ b0 = v := Except.ok.inj h
    have hhigh : (b1 ++ b0).extractLsb' 8 8 = b1 :=
      BitVec.extractLsb'_append_eq_left
    have hlow : (b1 ++ b0).extractLsb' 0 8 = b0 :=
      BitVec.extractLsb'_append_eq_right
    rw [packShort, hhigh, hlow]
    rfl

theorem ulong_eq_ok {input : List Byte} {v : BitVec 32}
    (h : ulong (input.take 4) = .ok v) :
    input = packLong v ++ input.drop 4 := by
  rcases input with _ | ⟨b3, _ | ⟨b2, _ | ⟨b1, _ | ⟨b0, input⟩⟩⟩⟩
  · cases h
  · cases h
  · cases h
  · cases h
  · obtain rfl : b3 ++ b2 ++ b1 ++ b0 = v := Except.ok.inj h
    rw [packLong, ← List.singleton_append]
    change _ = (wordBytes (ofBytes [b0, b1, b2, b3])).reverse ++ _
    rw [wordBytes_ofBytes]
    rfl

/-! ## Reading what was encoded -/

theorem readValue_encode (v : Value) (rest : List Byte) :
    readValue (v.encode ++ rest) = .ok (v.bytes, rest) := by
  have hlen : (BitVec.ofNat 16 v.bytes.length).toNat = v.bytes.length := by
    rw [BitVec.toNat_ofNat, Nat.mod_eq_of_lt v.length_lt]
  have hdrop : (v.encode ++ rest).drop 2 = v.bytes ++ rest := by
    rw [Value.encode, List.append_assoc]
    rfl
  rw [readValue, hdrop, Value.encode, List.append_assoc, short_packShort]
  change Except.ok ((v.bytes ++ rest).take (BitVec.ofNat 16 v.bytes.length).toNat,
    (v.bytes ++ rest).drop (BitVec.ofNat 16 v.bytes.length).toNat) = _
  rw [hlen, List.take_left, List.drop_left]

theorem readKeys_key (flip : Bool) {k : Byte} (hk : k ≠ 0x65)
    (input : List Byte) :
    readKeys flip (k :: input) = readValue input >>= fun r =>
      (readKeys flip r.2).map fun s => (printKey k r.1 :: s.1, s.2) := by
  rw [readKeys, if_neg hk]
  split
  next e hread => rw [hread]; rfl
  next d rest hread => rw [hread]; rfl

theorem readKeys_data (flip : Bool) (input : List Byte) :
    readKeys flip (0x65 :: input) = readData flip input := by
  rw [readKeys, if_pos rfl]

theorem readData_encode (flip : Bool) (c : Data) :
    readData flip (packLong c.size ++ (c.bytes ++ c.trailer)) =
      (written flip c.bytes).map fun bin => ([.foundBinaryData c.size], bin) := by
  have hdrop : (packLong c.size ++ (c.bytes ++ c.trailer)).drop 4 =
      c.bytes ++ c.trailer := rfl
  have htake : (c.bytes ++ c.trailer).take c.size.toNat = c.bytes := by
    rcases Nat.lt_or_eq_of_le c.length_le with hlt | heq
    · rw [c.trailer_nil hlt, List.append_nil, List.take_of_length_le c.length_le]
    · rw [← heq, List.take_left]
  rw [readData, ulong_packLong, hdrop, bind_ok, htake]
  rfl

theorem readKeys_encode (flip : Bool) (fields : List Field) (c : Data) :
    readKeys flip (fields.flatMap Field.encode ++ c.encode) =
      (written flip c.bytes).map fun bin =>
        (fields.map (fun x => printKey x.key x.value.bytes) ++
          [.foundBinaryData c.size], bin) := by
  induction fields with
  | nil => exact (readKeys_data flip _).trans (readData_encode flip c)
  | cons x fields ih =>
      rw [List.flatMap_cons, List.append_assoc, Field.encode, List.cons_append,
        readKeys_key flip x.key_ne, readValue_encode, bind_ok, ih]
      cases written flip c.bytes with
      | error e => rfl
      | ok bin => rfl

theorem readHeader_encode {preamble : List Byte} (h : preamble.length = 9)
    (rest : List Byte) :
    readHeader (packShort 9 ++ (preamble ++ rest)) = .ok rest := by
  have hdrop : ((packShort 9 ++ (preamble ++ rest)).drop 2).drop 9 = rest := by
    change (preamble ++ rest).drop 9 = rest
    rw [← h, List.drop_left]
  rw [readHeader, short_packShort]
  exact congrArg Except.ok hdrop

theorem readLetter_encode (rest : List Byte) :
    readLetter ([0x00, 0x01, 0x61] ++ rest) = .ok rest := rfl

theorem fpgaBitToBin_encode (flip : Bool) (f : BitFile) :
    fpgaBitToBin flip f.encode =
      (written flip f.data.bytes).map fun bin => (f.lines, bin) := by
  rw [fpgaBitToBin, BitFile.encode, readHeader_encode f.length_preamble, bind_ok,
    readLetter_encode, bind_ok, readValue_encode, bind_ok]
  dsimp only
  rw [readKeys_encode]
  cases written flip f.data.bytes with
  | error e => rfl
  | ok bin => rfl

/-! ## What is read was encoded -/

/-- A value that is followed by something was not cut off. -/
theorem readValue_eq_ok {input d rest : List Byte}
    (h : readValue input = .ok (d, rest)) (hrest : rest ≠ []) :
    ∃ v : Value, v.bytes = d ∧ input = v.encode ++ rest := by
  cases hl : short (input.take 2) with
  | error e =>
      rw [readValue, hl] at h
      cases h
  | ok l =>
      have hinput := short_eq_ok hl
      generalize input.drop 2 = tail at hinput
      subst hinput
      rw [readValue, hl] at h
      obtain ⟨rfl, rfl⟩ := Prod.mk.inj (Except.ok.inj h)
      have hdrop : (packShort l ++ tail).drop 2 = tail := rfl
      rw [hdrop] at hrest ⊢
      have hlt : l.toNat < tail.length := by
        by_contra hge
        exact hrest (List.drop_eq_nil_of_le (Nat.not_lt.mp hge))
      have hlen : (tail.take l.toNat).length = l.toNat := by
        rw [List.length_take, Nat.min_eq_left (Nat.le_of_lt hlt)]
      refine ⟨⟨tail.take l.toNat, lt_of_eq_of_lt hlen l.isLt⟩, rfl, ?_⟩
      rw [Value.encode, List.append_assoc]
      dsimp only
      rw [hlen, BitVec.ofNat_toNat, BitVec.setWidth_eq, List.take_append_drop]

theorem readData_eq_ok {flip : Bool} {input bin : List Byte} {lines : List Line}
    (h : readData flip input = .ok (lines, bin)) :
    ∃ c : Data, 0x65 :: input = c.encode ∧ lines = [.foundBinaryData c.size] ∧
      written flip c.bytes = .ok bin := by
  obtain ⟨l, hl, h⟩ := bind_eq_ok h
  obtain ⟨bin', hwritten, h⟩ := bind_eq_ok h
  obtain ⟨rfl, rfl⟩ := Prod.mk.inj (Except.ok.inj h)
  refine ⟨⟨l, (input.drop 4).take l.toNat, List.length_take_le _ _,
    (input.drop 4).drop l.toNat, fun hlt => ?_⟩, ?_, rfl, hwritten⟩
  · rw [List.length_take] at hlt
    exact List.drop_eq_nil_of_le (by omega)
  · rw [Data.encode, List.take_append_drop, ← ulong_eq_ok hl]

theorem readKeys_eq_ok {flip : Bool} {input bin : List Byte} {lines : List Line}
    (h : readKeys flip input = .ok (lines, bin)) :
    ∃ (fields : List Field) (c : Data),
      input = fields.flatMap Field.encode ++ c.encode ∧
      lines = fields.map (fun x => printKey x.key x.value.bytes) ++
        [.foundBinaryData c.size] ∧
      written flip c.bytes = .ok bin := by
  induction hn : input.length using Nat.strong_induction_on
    generalizing input lines with
  | _ n ih =>
      cases input with
      | nil =>
          rw [readKeys] at h
          cases h
      | cons k input =>
          by_cases hk : k = 0x65
          · rw [hk, readKeys_data] at h
            obtain ⟨c, hinput, hlines, hbin⟩ := readData_eq_ok h
            exact ⟨[], c, hk ▸ hinput, hlines, hbin⟩
          · rw [readKeys_key flip hk] at h
            obtain ⟨⟨d, rest⟩, hvalue, h⟩ := bind_eq_ok h
            cases hrest : readKeys flip rest with
            | error e =>
                rw [hrest] at h
                cases h
            | ok r =>
                rw [hrest] at h
                obtain ⟨rfl, rfl⟩ := Prod.mk.inj (Except.ok.inj h)
                have hle := length_of_readValue hvalue
                obtain ⟨fields, c, hinput, hlines, hbin⟩ := ih rest.length
                  (by rw [List.length_cons] at hn; omega) hrest rfl
                have hne : rest ≠ [] := by
                  rintro rfl
                  rw [readKeys] at hrest
                  cases hrest
                obtain ⟨v, rfl, rfl⟩ := readValue_eq_ok hvalue hne
                refine ⟨⟨k, hk, v⟩ :: fields, c, ?_, ?_, hbin⟩
                · rw [List.flatMap_cons, List.append_assoc, ← hinput]
                  rfl
                · rw [List.map_cons, List.cons_append, ← hlines]

theorem readHeader_eq_ok {input rest : List Byte}
    (h : readHeader input = .ok rest) (hrest : rest ≠ []) :
    ∃ preamble : List Byte, preamble.length = 9 ∧
      input = packShort 9 ++ (preamble ++ rest) := by
  obtain ⟨l, hl, h⟩ := bind_eq_ok h
  split at h
  next => cases h
  next hnine =>
    obtain rfl := not_not.mp hnine
    obtain rfl := Except.ok.inj h
    refine ⟨(input.drop 2).take 9, ?_, ?_⟩
    · have hlt : 9 < (input.drop 2).length := by
        by_contra hge
        exact hrest (List.drop_eq_nil_of_le (Nat.not_lt.mp hge))
      rw [List.length_take, Nat.min_eq_left (Nat.le_of_lt hlt)]
    · have hsplit := List.take_append_drop 9 (input.drop 2)
      exact (short_eq_ok hl).trans (congrArg _ hsplit.symm)

theorem readLetter_eq_ok {input rest : List Byte}
    (h : readLetter input = .ok rest) (hrest : rest ≠ []) :
    input = [0x00, 0x01, 0x61] ++ rest := by
  obtain ⟨⟨d, rest'⟩, hvalue, h⟩ := bind_eq_ok h
  split at h
  next => cases h
  next hletter =>
    obtain rfl := Except.ok.inj h
    obtain ⟨v, hv, rfl⟩ := readValue_eq_ok hvalue hrest
    have hbytes : v.bytes = [0x61] := hv.trans (not_not.mp hletter)
    rw [Value.encode, hbytes]
    rfl

/-- The script writes a bin file exactly if its input is a bit file, and then
prints its fields and writes its data. -/
theorem fpgaBitToBin_eq_ok_iff (flip : Bool) (bitfile bin : List Byte)
    (lines : List Line) :
    fpgaBitToBin flip bitfile = .ok (lines, bin) ↔
      ∃ f : BitFile, bitfile = f.encode ∧ lines = f.lines ∧
        written flip f.data.bytes = .ok bin := by
  constructor
  · intro h
    obtain ⟨rest, hheader, h⟩ := bind_eq_ok h
    obtain ⟨rest', hletter, h⟩ := bind_eq_ok h
    obtain ⟨⟨d, rest''⟩, hdesign, h⟩ := bind_eq_ok h
    obtain ⟨⟨keyLines, bin'⟩, hkeys, h⟩ := bind_eq_ok h
    obtain ⟨rfl, rfl⟩ := Prod.mk.inj (Except.ok.inj h)
    obtain ⟨fields, c, hinput, hlines, hbin⟩ := readKeys_eq_ok hkeys
    have hne'' : rest'' ≠ [] := by
      rintro rfl
      rw [readKeys] at hkeys
      cases hkeys
    have hne' : rest' ≠ [] := by
      rintro rfl
      cases hdesign
    have hne : rest ≠ [] := by
      rintro rfl
      cases hletter
    obtain ⟨v, rfl, rfl⟩ := readValue_eq_ok hdesign hne''
    obtain ⟨preamble, hnine, rfl⟩ := readHeader_eq_ok hheader hne
    rw [readLetter_eq_ok hletter hne', hinput]
    refine ⟨⟨preamble, hnine, v, fields, c⟩, rfl, ?_, hbin⟩
    rw [BitFile.lines, hlines]
  · rintro ⟨f, rfl, rfl, hbin⟩
    rw [fpgaBitToBin_encode, hbin]
    rfl

end RedPitayaNotes.FpgaBitToBin
