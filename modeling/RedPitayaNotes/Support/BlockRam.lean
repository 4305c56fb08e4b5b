import RedPitayaNotes.Support.Bits

/-!
# Synchronous block memories

A port of a synchronous memory with byte write enables: an enabled edge updates
the enabled bytes of the addressed word and loads the output register with that
word, as it was before the write or as it is after it; a disabled edge keeps
both.
-/

namespace BlockRam

/-- What an enabled edge loads into the output register. -/
inductive Mode where
  | readFirst
  | writeFirst
deriving DecidableEq, Repr

structure Ram (a b : Nat) where
  mem : BitVec a → BitVec (8 * b)
  out : BitVec (8 * b)

variable {a b : Nat}

/-- The bytes enabled by `we` come from `new`, the others from `old`. -/
def mergeBytes (we : BitVec b) (old new : BitVec (8 * b)) : BitVec (8 * b) :=
  Bits.ofFn fun k : Fin (8 * b) =>
    if we.getLsbD (k / 8) then new[k] else old[k]

theorem mergeBytes_allOnes (old new : BitVec (8 * b)) :
    mergeBytes (BitVec.allOnes b) old new = new := by
  ext k hk
  have hlane : k / 8 < b := by omega
  rw [mergeBytes, Bits.getElem_ofFn]
  simp [hlane]

theorem mergeBytes_zero (old new : BitVec (8 * b)) : mergeBytes 0 old new = old := by
  ext k hk
  rw [mergeBytes, Bits.getElem_ofFn]
  simp

namespace Ram

def write (r : Ram a b) (we : BitVec b) (addr : BitVec a)
    (din : BitVec (8 * b)) : BitVec a → BitVec (8 * b) :=
  fun x => if x = addr then mergeBytes we (r.mem addr) din else r.mem x

def step (mode : Mode) (r : Ram a b) (en : Bool) (we : BitVec b)
    (addr : BitVec a) (din : BitVec (8 * b)) : Ram a b where
  mem := if en then r.write we addr din else r.mem
  out :=
    if en then
      match mode with
      | .readFirst => r.mem addr
      | .writeFirst => r.write we addr din addr
    else r.out

/-- The word a memory holds at `addr` around an edge, as a port of the given
mode reads it. -/
def held (mode : Mode) (before after : Ram a b) (addr : BitVec a) :
    BitVec (8 * b) :=
  match mode with
  | .readFirst => before.mem addr
  | .writeFirst => after.mem addr

/-- The word an enabled edge loads into the output register. -/
def loaded (mode : Mode) (r : Ram a b) (we : BitVec b) (addr : BitVec a)
    (din : BitVec (8 * b)) : BitVec (8 * b) :=
  match mode with
  | .readFirst => r.mem addr
  | .writeFirst => mergeBytes we (r.mem addr) din

theorem step_out_eq_loaded (mode : Mode) (r : Ram a b) (we : BitVec b)
    (addr : BitVec a) (din : BitVec (8 * b)) :
    (r.step mode true we addr din).out = r.loaded mode we addr din := by
  cases mode <;> simp [step, loaded, write]

theorem step_out_of_en (mode : Mode) (r : Ram a b) (we : BitVec b)
    (addr : BitVec a) (din : BitVec (8 * b)) :
    (r.step mode true we addr din).out =
      held mode r (r.step mode true we addr din) addr := by
  cases mode <;> simp [step, held]

theorem step_of_not_en (mode : Mode) (r : Ram a b) (we : BitVec b)
    (addr : BitVec a) (din : BitVec (8 * b)) :
    r.step mode false we addr din = r := by
  simp [step]

theorem step_mem_of_no_lane (mode : Mode) (r : Ram a b) (en : Bool)
    (addr : BitVec a) (din : BitVec (8 * b)) :
    (r.step mode en 0 addr din).mem = r.mem := by
  funext x
  have hsame : r.write 0 addr din x = r.mem x := by
    unfold write
    split
    next hx => rw [mergeBytes_zero, hx]
    next => rfl
  cases en with
  | false => rfl
  | true => exact hsame

theorem step_out_of_no_lane (mode : Mode) (r : Ram a b) (addr : BitVec a)
    (din : BitVec (8 * b)) : (r.step mode true 0 addr din).out = r.mem addr := by
  rw [step_out_eq_loaded]
  cases mode with
  | readFirst => rfl
  | writeFirst => exact mergeBytes_zero _ _

theorem step_mem_of_all_lanes (mode : Mode) (r : Ram a b) (addr : BitVec a)
    (din : BitVec (8 * b)) (x : BitVec a) :
    (r.step mode true (BitVec.allOnes b) addr din).mem x =
      if x = addr then din else r.mem x := by
  change r.write (BitVec.allOnes b) addr din x = _
  rw [write, mergeBytes_allOnes]

end Ram

end BlockRam
