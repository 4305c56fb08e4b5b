import RedPitayaNotes.Support.Clocked
import RedPitayaNotes.Support.Elastic

/-!
# Elastic buffers

The three handshake buffers of `modules/`, generic in the word they carry.
`input_buffer` is a skid register: it captures the input whenever it is ready
and presents the input combinationally.  `output_buffer` is a registered stage.
`inout_buffer` chains the two and is what every larger core is wired with.
-/

namespace RedPitayaNotes

open Clocked Elastic

variable {α : Type*}

/-! ## input_buffer -/

structure InputBuffer (α : Type*) where
  intDataReg : α
  intReadyReg : Bool
deriving DecidableEq, Repr

namespace InputBuffer

def intValidWire (b : InputBuffer α) (inValid : Bool) : Bool :=
  !b.intReadyReg || inValid

def inReady (b : InputBuffer α) : Bool := b.intReadyReg

def outData (b : InputBuffer α) (inData : α) : α :=
  if b.intReadyReg then inData else b.intDataReg

def outValid (b : InputBuffer α) (inValid : Bool) : Bool :=
  b.intValidWire inValid

/-- The `always @(posedge aclk)` block of `input_buffer`. -/
def step (aresetn : Bool) (b : InputBuffer α)
    (inData : α) (inValid outReady : Bool) : InputBuffer α where
  intReadyReg :=
    if !aresetn then true
    else if b.intValidWire inValid then outReady
    else b.intReadyReg
  intDataReg := if b.intReadyReg then inData else b.intDataReg

/-- The word held back by a stall of the next stage. -/
def contents (b : InputBuffer α) : List α :=
  if b.intReadyReg then [] else [b.intDataReg]

theorem contents_eq_nil_iff {b : InputBuffer α} :
    b.contents = [] ↔ b.intReadyReg = true := by
  simp [contents]

theorem length_contents_le (b : InputBuffer α) : b.contents.length ≤ 1 := by
  unfold contents
  split <;> simp

theorem step_lossless (b : InputBuffer α)
    (inData : α) (inValid outReady : Bool) :
    Lossless b.contents (transfer inValid b.inReady inData)
      (transfer (b.outValid inValid) outReady (b.outData inData))
      (b.step true inData inValid outReady).contents := by
  cases hready : b.intReadyReg <;> cases inValid <;> cases outReady <;>
    simp [Lossless, contents, inReady, outValid, outData, step,
      intValidWire, hready]

end InputBuffer

/-! ## output_buffer -/

structure OutputBuffer (α : Type*) where
  intDataReg : α
  intValidReg : Bool
deriving DecidableEq, Repr

namespace OutputBuffer

def intReadyWire (b : OutputBuffer α) (outReady : Bool) : Bool :=
  !b.intValidReg || outReady

def inReady (b : OutputBuffer α) (outReady : Bool) : Bool :=
  b.intReadyWire outReady

def outData (b : OutputBuffer α) : α := b.intDataReg

def outValid (b : OutputBuffer α) : Bool := b.intValidReg

/-- The `always @(posedge aclk)` block of `output_buffer`. -/
def step (aresetn : Bool) (b : OutputBuffer α)
    (inData : α) (inValid outReady : Bool) : OutputBuffer α where
  intValidReg :=
    if !aresetn then false
    else if b.intReadyWire outReady then inValid
    else b.intValidReg
  intDataReg := if b.intReadyWire outReady then inData else b.intDataReg

/-- The registered word, if there is one. -/
def contents (b : OutputBuffer α) : List α :=
  if b.intValidReg then [b.intDataReg] else []

theorem contents_eq_nil_iff {b : OutputBuffer α} :
    b.contents = [] ↔ b.outValid = false := by
  simp [contents, outValid]

theorem length_contents_le (b : OutputBuffer α) : b.contents.length ≤ 1 := by
  unfold contents
  split <;> simp

theorem contents_eq_singleton {b : OutputBuffer α}
    (h : b.outValid = true) : b.contents = [b.outData] := by
  simp_all [contents, outValid, outData]

theorem step_lossless (b : OutputBuffer α)
    (inData : α) (inValid outReady : Bool) :
    Lossless b.contents
      (transfer inValid (b.inReady outReady) inData)
      (transfer b.outValid outReady b.outData)
      (b.step true inData inValid outReady).contents := by
  cases hvalid : b.intValidReg <;> cases inValid <;> cases outReady <;>
    simp [Lossless, contents, inReady, outValid, outData, step,
      intReadyWire, hvalid]

/-- A presented word stays, unchanged, until it is taken. -/
theorem step_stable {b : OutputBuffer α} (h : b.outValid = true)
    (inData : α) (inValid : Bool) :
    b.step true inData inValid false = b := by
  cases b
  simp_all [step, intReadyWire, outValid]

/-- The stage refuses a word only while it holds one that is not taken. -/
theorem inReady_eq_false_iff {b : OutputBuffer α} {outReady : Bool} :
    b.inReady outReady = false ↔ b.outValid = true ∧ outReady = false := by
  simp [inReady, intReadyWire, outValid]

end OutputBuffer

/-! ## inout_buffer -/

structure InoutBuffer (α : Type*) where
  buf0 : InputBuffer α
  buf1 : OutputBuffer α
deriving DecidableEq, Repr

namespace InoutBuffer

def intReadyWire (b : InoutBuffer α) (outReady : Bool) : Bool :=
  b.buf1.inReady outReady

def inReady (b : InoutBuffer α) : Bool := b.buf0.inReady

def outData (b : InoutBuffer α) : α := b.buf1.outData

def outValid (b : InoutBuffer α) : Bool := b.buf1.outValid

def step (aresetn : Bool) (b : InoutBuffer α)
    (inData : α) (inValid outReady : Bool) : InoutBuffer α where
  buf0 := b.buf0.step aresetn inData inValid (b.intReadyWire outReady)
  buf1 := b.buf1.step aresetn (b.buf0.outData inData)
    (b.buf0.outValid inValid) outReady

/-- The control registers as reset leaves them; data registers are not reset. -/
def IsReset (b : InoutBuffer α) : Prop :=
  b.buf0.intReadyReg = true ∧ b.buf1.intValidReg = false

theorem isReset_step (b : InoutBuffer α)
    (inData : α) (inValid outReady : Bool) :
    (b.step false inData inValid outReady).IsReset := by
  simp [IsReset, step, InputBuffer.step, OutputBuffer.step]

/-- A reset buffer with `d` in its data registers. -/
def cleared (d : α) : InoutBuffer α := ⟨⟨d, true⟩, ⟨d, false⟩⟩

theorem isReset_cleared (d : α) : (cleared d).IsReset := ⟨rfl, rfl⟩

/-- The words stored, oldest first. -/
def contents (b : InoutBuffer α) : List α :=
  b.buf1.contents ++ b.buf0.contents

/-- The skid register is in use only behind an occupied output register. -/
def Compact (b : InoutBuffer α) : Prop :=
  b.buf0.intReadyReg = false → b.buf1.intValidReg = true

theorem IsReset.compact {b : InoutBuffer α} (h : b.IsReset) : b.Compact := by
  simp [Compact, h.1]

theorem IsReset.contents {b : InoutBuffer α} (h : b.IsReset) :
    b.contents = [] := by
  simp [InoutBuffer.contents, InputBuffer.contents, OutputBuffer.contents,
    h.1, h.2]

theorem step_compact {b : InoutBuffer α} (h : b.Compact)
    (inData : α) (inValid outReady : Bool) :
    (b.step true inData inValid outReady).Compact := by
  revert h
  cases hready : b.buf0.intReadyReg <;> cases hvalid : b.buf1.intValidReg <;>
    cases inValid <;> cases outReady <;>
    simp [Compact, step, InputBuffer.step, OutputBuffer.step, intReadyWire,
      OutputBuffer.inReady, OutputBuffer.intReadyWire,
      InputBuffer.outValid, InputBuffer.intValidWire, hready, hvalid]

theorem step_lossless (b : InoutBuffer α)
    (inData : α) (inValid outReady : Bool) :
    Lossless b.contents (transfer inValid b.inReady inData)
      (transfer b.outValid outReady b.outData)
      (b.step true inData inValid outReady).contents :=
  (b.buf0.step_lossless inData inValid (b.intReadyWire outReady)).comp
    (b.buf1.step_lossless (b.buf0.outData inData)
      (b.buf0.outValid inValid) outReady)

theorem length_contents_le (b : InoutBuffer α) : b.contents.length ≤ 2 := by
  have h₀ := b.buf0.length_contents_le
  have h₁ := b.buf1.length_contents_le
  rw [contents, List.length_append]
  omega

/-- A valid output is the oldest stored word. -/
theorem contents_eq_cons {b : InoutBuffer α} (h : b.outValid = true) :
    b.contents = b.outData :: b.buf0.contents := by
  rw [contents, OutputBuffer.contents_eq_singleton h]
  rfl

theorem contents_eq_nil {b : InoutBuffer α} (hb : b.Compact)
    (h : b.outValid = false) : b.contents = [] := by
  have hready : b.buf0.intReadyReg = true := by
    by_contra hstall
    have hvalid := hb (eq_false_of_ne_true hstall)
    rw [outValid, OutputBuffer.outValid, hvalid] at h
    exact Bool.noConfusion h
  rw [contents, OutputBuffer.contents_eq_nil_iff.mpr h,
    InputBuffer.contents_eq_nil_iff.mpr hready]
  rfl

theorem outValid_eq_true_iff {b : InoutBuffer α} (hb : b.Compact) :
    b.outValid = true ↔ b.contents ≠ [] := by
  constructor
  · intro h
    simp [contents_eq_cons h]
  · intro h
    by_contra hvalid
    exact h (contents_eq_nil hb (eq_false_of_ne_true hvalid))

/-- Only a full buffer refuses a word. -/
theorem length_contents_of_not_inReady {b : InoutBuffer α} (hb : b.Compact)
    (h : b.inReady = false) : b.contents.length = 2 := by
  have hvalid := hb h
  have hready : b.buf0.intReadyReg = false := h
  simp [contents, InputBuffer.contents, OutputBuffer.contents, hvalid, hready]

theorem step_stable {b : InoutBuffer α} (h : b.outValid = true)
    (inData : α) (inValid : Bool) :
    (b.step true inData inValid false).outValid = true ∧
      (b.step true inData inValid false).outData = b.outData := by
  have hbuf : (b.step true inData inValid false).buf1 = b.buf1 :=
    OutputBuffer.step_stable h _ _
  rw [outValid, outData, hbuf]
  exact ⟨h, rfl⟩

theorem step_inReady {b : InoutBuffer α} (h : b.inReady = true)
    (inData : α) (inValid : Bool) :
    (b.step true inData inValid true).inReady = true := by
  have hready : b.buf0.intReadyReg = true := h
  simp [step, InputBuffer.step, inReady, InputBuffer.inReady, intReadyWire,
    OutputBuffer.inReady, OutputBuffer.intReadyWire, hready]

/-! ### The buffer as a FIFO over whole runs -/

/-- What the two neighbours drive in one cycle. -/
structure Input (α : Type*) where
  inData : α
  inValid : Bool
  outReady : Bool

def next (b : InoutBuffer α) (i : Input α) : InoutBuffer α :=
  b.step true i.inData i.inValid i.outReady

def accepted (c : Cycle (InoutBuffer α) (Input α)) : List α :=
  transfer c.input.inValid c.state.inReady c.input.inData

def delivered (c : Cycle (InoutBuffer α) (Input α)) : List α :=
  transfer c.state.outValid c.input.outReady c.state.outData

theorem run_compact {b : InoutBuffer α} (h : b.IsReset)
    (inputs : List (Input α)) : (run next b inputs).Compact :=
  run_invariant Compact
    (fun _ i hb => step_compact hb i.inData i.inValid i.outReady)
    h.compact inputs

theorem run_lossless {b : InoutBuffer α} (h : b.IsReset)
    (inputs : List (Input α)) :
    (trace next b inputs).flatMap accepted =
      (trace next b inputs).flatMap delivered ++
        (run next b inputs).contents :=
  run_conserves contents accepted delivered
    (fun b i => b.step_lossless i.inData i.inValid i.outReady)
    h.contents inputs

/-- With a consumer that never stalls, no offered word waits. -/
theorem accepted_of_outReady {b : InoutBuffer α} (h : b.IsReset)
    {inputs : List (Input α)} (hready : ∀ i ∈ inputs, i.outReady = true) :
    (trace next b inputs).flatMap accepted =
      (inputs.filter Input.inValid).map Input.inData := by
  have hgo : ∀ (inputs : List (Input α)) (b : InoutBuffer α),
      b.inReady = true → (∀ i ∈ inputs, i.outReady = true) →
      (trace next b inputs).flatMap accepted =
        (inputs.filter Input.inValid).map Input.inData := by
    intro inputs
    induction inputs with
    | nil => simp
    | cons i inputs ih =>
        intro b hb hready
        rw [List.forall_mem_cons] at hready
        have hnext : (next b i).inReady = true := by
          rw [next, hready.1]
          exact step_inReady hb i.inData i.inValid
        rw [trace_cons, List.flatMap_cons, ih _ hnext hready.2]
        cases hvalid : i.inValid <;> simp [accepted, hb, hvalid]
  exact hgo inputs b h.1 hready

/-- From reset, `inout_buffer` is a lossless two-word FIFO: nothing is lost,
repeated or reordered, an offered word stays until taken, and input is refused
only when two words are stored. -/
theorem lossless_fifo {b : InoutBuffer α} (h : b.IsReset)
    (inputs : List (Input α)) :
    (trace next b inputs).flatMap accepted =
        (trace next b inputs).flatMap delivered ++
          (run next b inputs).contents ∧
      (run next b inputs).contents.length ≤ 2 ∧
      ((run next b inputs).outValid = true →
        ∀ i : Input α, i.outReady = false →
          (next (run next b inputs) i).outValid = true ∧
            (next (run next b inputs) i).outData =
              (run next b inputs).outData) ∧
      ((run next b inputs).inReady = false →
        (run next b inputs).contents.length = 2) ∧
      ((∀ i ∈ inputs, i.outReady = true) →
        (trace next b inputs).flatMap accepted =
          (inputs.filter Input.inValid).map Input.inData) := by
  refine ⟨run_lossless h inputs, length_contents_le _, ?_, ?_,
    accepted_of_outReady h⟩
  · intro hvalid i hstall
    rw [next, hstall]
    exact step_stable hvalid i.inData i.inValid
  · exact length_contents_of_not_inReady (run_compact h inputs)

/-- Three words offered to a consumer that takes nothing for two cycles. -/
theorem lossless_fifo_stalled :
    let inputs : List (Input (BitVec 8)) :=
      [⟨1, true, false⟩, ⟨2, true, false⟩, ⟨3, true, false⟩, ⟨3, true, true⟩]
    (trace next (cleared 0) inputs).flatMap accepted =
        (trace next (cleared 0) inputs).flatMap delivered ++
          (run next (cleared 0) inputs).contents ∧
      (trace next (cleared 0) inputs).flatMap accepted = [1, 2] :=
  ⟨(lossless_fifo (isReset_cleared 0) _).1, by decide⟩

end InoutBuffer

end RedPitayaNotes
