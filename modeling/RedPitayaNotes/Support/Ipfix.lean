import RedPitayaNotes.Support.Bits
import RedPitayaNotes.Support.Parser

/-!
# IPFIX messages

A message is a header with the length of the whole and a sequence of sets, each
with its own length.  Template sets describe the fields of the records in the
data sets that bear their number; a field has a fixed length or a length in
front of it.  Records and templates are padded with up to three zero bytes.
-/

namespace Ipfix

open Bits Parser

/-! ## Integers -/

/-- The bytes of a 16-bit integer in network order. -/
def bytes2 (v : BitVec 16) : List Byte :=
  [v.extractLsb' 8 8, v.extractLsb' 0 8]

/-- The bytes of a 32-bit integer in network order. -/
def bytes4 (v : BitVec 32) : List Byte := (wordBytes v).reverse

def int1 : Parser Byte (BitVec 8)
  | b :: input => some (b, input)
  | _ => none

def int2 : Parser Byte (BitVec 16)
  | b1 :: b0 :: input => some (b1 ++ b0, input)
  | _ => none

def int4 : Parser Byte (BitVec 32)
  | b3 :: b2 :: b1 :: b0 :: input => some (b3 ++ b2 ++ b1 ++ b0, input)
  | _ => none

theorem reads_int1 (v : BitVec 8) : Reads int1 [v] v := fun _ => rfl

theorem reads_int2 (v : BitVec 16) : Reads int2 (bytes2 v) v := by
  intro rest
  change some (v.extractLsb' 8 8 ++ v.extractLsb' 0 8, rest) = _
  rw [BitVec.extractLsb'_append_extractLsb'_eq_extractLsb' (by rfl),
    BitVec.extractLsb'_eq_self]

theorem reads_int4 (v : BitVec 32) : Reads int4 (bytes4 v) v := by
  intro rest
  have hword := ofBytes_wordBytes v
  change some (ofBytes (wordBytes v), rest) = _
  rw [hword]

/-! ## Templates -/

structure FieldSpecifier where
  element : BitVec 16
  length : BitVec 16
  enterprise : Option (BitVec 32)
deriving DecidableEq

/-- An enterprise number follows if the first bit of the element is set. -/
def fieldSpecifier : Parser Byte FieldSpecifier := do
  let element ← int2
  let length ← int2
  if element.msb then
    let enterprise ← int4
    return ⟨element, length, some enterprise⟩
  else return ⟨element, length, none⟩

structure Template where
  id : BitVec 16
  fields : List FieldSpecifier
deriving DecidableEq

def template : Parser Byte Template := do
  let id ← int2
  let count ← int2
  let fields ← times fieldSpecifier count.toNat
  return ⟨id, fields⟩

/-- The number of scope fields is not used. -/
def optionsTemplate : Parser Byte Template := do
  let id ← int2
  let count ← int2
  let _ ← int2
  let fields ← times fieldSpecifier count.toNat
  return ⟨id, fields⟩

/-! ## Records -/

/-- The length of a field that has its length in front of it. -/
def variableLength : BitVec 16 := 0xffff

/-- A length of one byte, or of two after the byte 255. -/
def variableString : Parser Byte (List Byte) := do
  let length ← int1
  if length = 255 then
    let length ← int2
    take length.toNat
  else take length.toNat

def field (f : FieldSpecifier) : Parser Byte (List Byte) :=
  if f.length = variableLength then variableString else take f.length.toNat

/-- The fields of a record, as bytes. -/
def record : List FieldSpecifier → Parser Byte (List (List Byte))
  | [] => pure []
  | f :: fields => do
    let value ← field f
    let values ← record fields
    return value :: values

/-- The bytes of a field. -/
def fieldBytes (f : FieldSpecifier) (value : List Byte) : List Byte :=
  if f.length = variableLength then
    BitVec.ofNat 8 value.length :: value
  else value

def recordBytes (fields : List FieldSpecifier) (values : List (List Byte)) :
    List Byte :=
  (List.zipWith fieldBytes fields values).flatten

/-- The field has room for the value. -/
def Fits (f : FieldSpecifier) (value : List Byte) : Prop :=
  if f.length = variableLength then value.length < 255
  else value.length = f.length.toNat

theorem reads_field {f : FieldSpecifier} {value : List Byte}
    (h : Fits f value) : Reads (field f) (fieldBytes f value) value := by
  unfold Fits at h
  unfold field fieldBytes
  split
  next hvariable =>
    rw [if_pos hvariable] at h
    have hlength : (BitVec.ofNat 8 value.length).toNat = value.length := by
      rw [BitVec.toNat_ofNat]
      exact Nat.mod_eq_of_lt (by omega)
    have hshort : BitVec.ofNat 8 value.length ≠ 255 := by
      intro heq
      rw [heq] at hlength
      change 255 = value.length at hlength
      omega
    have htake := reads_take value
    rw [← hlength] at htake
    change Reads _ ([BitVec.ofNat 8 value.length] ++ value) value
    refine (reads_int1 _).bind ?_
    rw [if_neg hshort]
    exact htake
  next hfixed =>
    rw [if_neg hfixed] at h
    rw [← h]
    exact reads_take value

theorem reads_record {fields : List FieldSpecifier} {values : List (List Byte)}
    (h : List.Forall₂ Fits fields values) :
    Reads (record fields) (recordBytes fields values) values := by
  induction h with
  | nil => exact Reads.pure []
  | cons hvalue _ ih => exact (reads_field hvalue).bind (ih.map _)

/-! ## Padding -/

/-- At most three zero bytes. -/
def isPadding (input : List Byte) : Bool :=
  decide (input.length < 4) && input.all fun b => b == 0

theorem isPadding_eq_false {input : List Byte} (h : 4 ≤ input.length) :
    isPadding input = false := by
  rw [isPadding, decide_eq_false (Nat.not_lt.mpr h), Bool.false_and]

theorem isPadding_replicate {n : ℕ} (h : n < 4) :
    isPadding (List.replicate n 0) = true := by
  rw [isPadding, List.length_replicate, decide_eq_true h, Bool.true_and,
    List.all_replicate]
  split <;> rfl

/-! ## Sets -/

/-- A set, with its content as bytes. -/
structure RawSet where
  id : BitVec 16
  content : List Byte
deriving DecidableEq

/-- The length of a set, with its own header. -/
def RawSet.size (s : RawSet) : ℕ := s.content.length + 4

def RawSet.bytes (s : RawSet) : List Byte :=
  bytes2 s.id ++ (bytes2 (BitVec.ofNat 16 s.size) ++ s.content)

/-- Sets are taken if they end on a multiple of four bytes. -/
def rawSet : Parser Byte RawSet := do
  let id ← int2
  let length ← int2
  if length.toNat < 4 ∨ length.toNat % 4 ≠ 0 then failure
  else
    let content ← take (length.toNat - 4)
    return ⟨id, content⟩

/-- The length of the set fits into its field and is a multiple of four. -/
def RawSet.WellFormed (s : RawSet) : Prop := s.size < 2 ^ 16 ∧ s.size % 4 = 0

theorem RawSet.length_bytes (s : RawSet) : s.bytes.length = s.size := by
  rw [bytes, List.length_append, List.length_append, size]
  change 2 + (2 + s.content.length) = _
  omega

theorem reads_rawSet {s : RawSet} (h : s.WellFormed) :
    Reads rawSet s.bytes s := by
  obtain ⟨hlt, hmod⟩ := h
  have hsize : (BitVec.ofNat 16 s.size).toNat = s.content.length + 4 := by
    rw [BitVec.toNat_ofNat]
    exact Nat.mod_eq_of_lt hlt
  refine (reads_int2 _).bind ((reads_int2 _).bind ?_)
  rw [if_neg (by rw [hsize, ← RawSet.size]; unfold RawSet.size at hmod ⊢; omega),
    hsize, Nat.add_sub_cancel]
  exact (reads_take s.content).map _

/-! ## Messages -/

structure Message where
  exportTime : BitVec 32
  sequence : BitVec 32
  domain : BitVec 32
  sets : List RawSet
deriving DecidableEq

/-- The length of a message, with its header. -/
def Message.size (m : Message) : ℕ := 16 + (m.sets.map RawSet.size).sum

def Message.headerBytes (m : Message) : List Byte :=
  bytes2 10 ++ (bytes2 (BitVec.ofNat 16 m.size) ++ (bytes4 m.exportTime ++
    (bytes4 m.sequence ++ bytes4 m.domain)))

def Message.bytes (m : Message) : List Byte :=
  m.headerBytes ++ m.sets.flatMap RawSet.bytes

structure Header where
  version : BitVec 16
  length : BitVec 16
  exportTime : BitVec 32
  sequence : BitVec 32
  domain : BitVec 32

def header : Parser Byte Header := do
  let version ← int2
  let length ← int2
  let exportTime ← int4
  let sequence ← int4
  let domain ← int4
  return ⟨version, length, exportTime, sequence, domain⟩

/-- A message that takes up all of the input, of version 10. -/
def message (input : List Byte) : Option Message := do
  let (h, rest) ← header.run input
  if h.version = 10 ∧ h.length.toNat = input.length then
    let sets ← all List.isEmpty rawSet rest.length rest
    return ⟨h.exportTime, h.sequence, h.domain, sets⟩
  else none

structure Message.WellFormed (m : Message) : Prop where
  size : m.size < 2 ^ 16
  sets : ∀ s ∈ m.sets, s.WellFormed

theorem length_flatMap_bytes (sets : List RawSet) :
    (sets.flatMap RawSet.bytes).length = (sets.map RawSet.size).sum := by
  rw [List.length_flatMap]
  exact congrArg List.sum
    (List.map_congr_left fun s _ => RawSet.length_bytes s)

theorem Message.length_bytes (m : Message) : m.bytes.length = m.size := by
  rw [bytes, List.length_append, length_flatMap_bytes]
  rfl

theorem reads_header (m : Message) :
    Reads header m.headerBytes
      ⟨10, BitVec.ofNat 16 m.size, m.exportTime, m.sequence, m.domain⟩ :=
  (reads_int2 _).bind ((reads_int2 _).bind ((reads_int4 _).bind
    ((reads_int4 _).bind ((reads_int4 _).map _))))

/-- A message is parsed back from its bytes. -/
theorem message_bytes {m : Message} (h : m.WellFormed) :
    message m.bytes = some m := by
  have hsize : (BitVec.ofNat 16 m.size).toNat = m.bytes.length := by
    rw [m.length_bytes, BitVec.toNat_ofNat]
    exact Nat.mod_eq_of_lt h.size
  have hfuel : m.sets.length ≤ (m.sets.flatMap RawSet.bytes).length := by
    apply length_le_flatMap
    intro s _
    rw [RawSet.length_bytes, RawSet.size]
    exact Nat.le_add_left 1 _
  have hsets : all List.isEmpty rawSet (m.sets.flatMap RawSet.bytes).length
      (m.sets.flatMap RawSet.bytes ++ []) = some m.sets :=
    all_of_reads RawSet.bytes (fun s hs => reads_rawSet (h.sets s hs))
      (fun _ _ _ => rfl) rfl hfuel
  rw [List.append_nil] at hsets
  rw [message, Message.bytes, reads_header m]
  change (if _ then (all _ _ _ (m.sets.flatMap RawSet.bytes)).bind _ else none) = _
  rw [if_pos ⟨rfl, hsize⟩, hsets]
  rfl

/-! ## Data -/

/-- The templates of a set. -/
def RawSet.templates (s : RawSet) : Option (List Template) :=
  if s.id = 2 then all isPadding template s.content.length s.content
  else if s.id = 3 then
    all isPadding optionsTemplate s.content.length s.content
  else some []

/-- The records of a set, in the fields of its template. -/
def RawSet.records (templates : List Template) (s : RawSet) :
    Option (List (List (List Byte))) := do
  let t ← templates.find? fun t => t.id == s.id
  all isPadding (record t.fields) s.content.length s.content

/-- The data sets of a message, which have the numbers from 256 on. -/
def Message.data (m : Message) :
    Option (List (BitVec 16 × List (List (List Byte)))) := do
  let templates ← m.sets.mapM RawSet.templates
  (m.sets.filter fun s => 256 ≤ s.id.toNat).mapM fun s => do
    let records ← s.records templates.flatten
    return (s.id, records)

/-- The records of a set are parsed back from their bytes. -/
theorem records_of_bytes {templates : List Template} {t : Template}
    {s : RawSet} {rows : List (List (List Byte))} {n : ℕ}
    (ht : templates.find? (fun t => t.id == s.id) = some t)
    (hrows : ∀ row ∈ rows, List.Forall₂ Fits t.fields row)
    (hlong : ∀ row ∈ rows, 4 ≤ (recordBytes t.fields row).length)
    (hn : n < 4)
    (hcontent : s.content =
      rows.flatMap (recordBytes t.fields) ++ List.replicate n 0) :
    s.records templates = some rows := by
  have hgo : ∀ row ∈ rows, ∀ rest,
      isPadding (recordBytes t.fields row ++ rest) = false := by
    intro row hrow rest
    apply isPadding_eq_false
    have hle := hlong row hrow
    rw [List.length_append]
    omega
  have hrows' : rows.length ≤ (rows.flatMap (recordBytes t.fields)).length :=
    length_le_flatMap _ fun row hrow => Nat.le_trans (by decide) (hlong row hrow)
  have hfuel : rows.length ≤ s.content.length := by
    rw [hcontent, List.length_append]
    omega
  rw [RawSet.records, ht]
  change all isPadding (record t.fields) s.content.length s.content = some rows
  rw [hcontent] at hfuel ⊢
  exact all_of_reads _ (fun row hrow => reads_record (hrows row hrow)) hgo
    (isPadding_replicate hn) hfuel

end Ipfix
