import RedPitayaNotes.Support.Bits
import RedPitayaNotes.Support.Clocked
import RedPitayaNotes.Support.Elastic

/-!
# The axis_i2s core

`cores/axis_i2s.v`, with words of 32 bits on both streams: the lines of an I2S
bus pass three registers, which find the edges of `bclk` and `lrclk`; a receiver
collects the bits of `adc_data` and a transmitter shifts out those of `dac_data`.
-/

namespace RedPitayaNotes.AxisI2s

open Bits Clocked Elastic

/-- The lines that the core reads. -/
structure Pins where
  bclk : Bool
  lrclk : Bool
  adcData : Bool
deriving DecidableEq

/-- The inputs besides the bus. -/
structure Ports where
  alexData : BitVec 4
  sAxisTdata : BitVec 32
  sAxisTvalid : Bool
  mAxisTready : Bool

/-- The word on `s_axis`. -/
def Ports.offer (i : Ports) : Option (BitVec 32) :=
  if i.sAxisTvalid then some i.sAxisTdata else none

/-- `gpio` is what drives the pins from outside. -/
structure Input where
  alexFlag : Bool
  gpio : Pins
  ports : Ports

/-- The buffers: while `alex_flag` is high the core drives the pins itself. -/
def Input.pins (i : Input) : Pins :=
  if i.alexFlag then
    ⟨i.ports.alexData.getLsbD 0, i.ports.alexData.getLsbD 3, i.ports.alexData.getLsbD 1⟩
  else i.gpio

/-! ## The lines -/

structure Sync where
  intBclkReg : BitVec 3
  intLrclkReg : BitVec 3
  intDataReg : BitVec 2
deriving DecidableEq

namespace Sync

variable (r : Sync)

def next (pins : Pins) : Sync where
  intBclkReg := shiftIn r.intBclkReg pins.bclk
  intLrclkReg := shiftIn r.intLrclkReg pins.lrclk
  intDataReg := shiftIn r.intDataReg pins.adcData

def intBclkPosedge : Bool := r.intBclkReg.getLsbD 1 && !r.intBclkReg.getLsbD 2

def intBclkNegedge : Bool := !r.intBclkReg.getLsbD 1 && r.intBclkReg.getLsbD 2

def intLrclkNegedge : Bool := !r.intLrclkReg.getLsbD 1 && r.intLrclkReg.getLsbD 2

/-- `int_lrclk_reg[1] ^ int_lrclk_reg[2]` -/
def lrclkEdge : Bool := r.intLrclkReg.getLsbD 1 ^^ r.intLrclkReg.getLsbD 2

end Sync

/-! ## The receiver -/

structure Adc where
  adcCaseReg : BitVec 2
  adcCntrReg : BitVec 6
  adcDataReg : BitVec 16
  adcTdataReg : BitVec 32

namespace Adc

variable (a : Adc) (r : Sync)

/-- A bit is shifted in: `int_bclk_posedge & (adc_cntr_reg < I2S_DATA_WIDTH)`. -/
def shifts : Bool := r.intBclkPosedge && decide (a.adcCntrReg < 16)

/-- The word of the other half is complete. -/
def loads : Bool := r.intBclkPosedge && a.adcCaseReg == 2

/-- `{adc_tdata_reg[I2S_DATA_WIDTH-1:0], adc_data_reg}` -/
def word : BitVec 32 := a.adcTdataReg.extractLsb' 0 16 ++ a.adcDataReg

/-- Of two assignments to a register the later one counts. -/
def next : Adc where
  adcCaseReg :=
    match a.adcCaseReg with
    | 0#2 => if r.lrclkEdge then 1 else 0
    | 1#2 => if r.intBclkPosedge then 2 else 1
    | 2#2 => if r.intBclkPosedge then 0 else 2
    | c => c
  adcCntrReg :=
    if r.intBclkPosedge && a.adcCaseReg == 1 then 0
    else if a.shifts r then a.adcCntrReg + 1
    else a.adcCntrReg
  adcDataReg :=
    if a.shifts r then shiftIn a.adcDataReg (r.intDataReg.getLsbD 1) else a.adcDataReg
  adcTdataReg := if a.loads r then a.word else a.adcTdataReg

end Adc

/-! ## The transmitter -/

structure Dac where
  dacCaseReg : BitVec 2
  dacDataReg : BitVec 16
  dacTdataReg : BitVec 32

namespace Dac

variable (d : Dac) (r : Sync) (i : Ports)

/-- The half of the word that the channel sends. -/
def channel (lrclk : Bool) : BitVec 16 :=
  if lrclk then d.dacTdataReg.extractLsb' 0 16 else d.dacTdataReg.extractLsb' 16 16

/-- Of two assignments to a register the later one counts. -/
def next : Dac where
  dacCaseReg :=
    match d.dacCaseReg with
    | 0#2 => if r.lrclkEdge then 1 else 0
    | 1#2 => if r.intBclkPosedge then 2 else 1
    | 2#2 => if r.intBclkNegedge then 0 else 2
    | c => c
  dacDataReg :=
    if r.intBclkNegedge && d.dacCaseReg == 2 then
      d.channel (r.intLrclkReg.getLsbD 1)
    else if r.intBclkNegedge then shiftIn d.dacDataReg false
    else d.dacDataReg
  dacTdataReg :=
    if r.intLrclkNegedge then if i.sAxisTvalid then i.sAxisTdata else 0
    else d.dacTdataReg

/-- `i2s_dac_data` -/
def i2sDacData : Bool := d.dacDataReg.getLsbD 15

end Dac

/-! ## The core -/

structure State where
  sync : Sync
  adc : Adc
  adcTvalidReg : Bool
  dac : Dac

/-- The data line of the bus, `gpio_data[2]`. -/
def gpioData2 (s : State) (i : Input) : Bool :=
  if i.alexFlag then i.ports.alexData.getLsbD 2 else s.dac.i2sDacData

def sAxisTready (s : State) : Bool := s.sync.intLrclkNegedge

def step (aresetn : Bool) (s : State) (i : Input) : State where
  sync := if !aresetn then ⟨0, 0, 0⟩ else s.sync.next i.pins
  adc := if !aresetn then ⟨0, 0, 0, 0⟩ else s.adc.next s.sync
  adcTvalidReg :=
    if !aresetn then false
    else if s.adc.loads s.sync then !s.sync.intLrclkReg.getLsbD 1
    else if i.ports.mAxisTready && s.adcTvalidReg then false
    else s.adcTvalidReg
  dac := if !aresetn then ⟨0, 0, 0⟩ else s.dac.next s.sync i.ports

def next (s : State) (i : Input) : State := step true s i

/-- The registers after an edge in reset. -/
def reset : State := ⟨⟨0, 0, 0⟩, ⟨0, 0, 0, 0⟩, false, ⟨0, 0, 0⟩⟩

theorem step_reset (s : State) (i : Input) : step false s i = reset := rfl

section Events

variable (c : Cycle State Input)

/-- The words transferred on `m_axis`. -/
def transferred : List (BitVec 32) :=
  transfer c.state.adcTvalidReg c.input.ports.mAxisTready c.state.adc.adcTdataReg

/-- The words loaded into the output register, with the level of `lrclk`. -/
def captured : List (Bool × BitVec 32) :=
  if c.state.adc.loads c.state.sync then
    [(c.state.sync.intLrclkReg.getLsbD 1, c.state.adc.word)]
  else []

/-- The words that become valid on `m_axis`. -/
def loaded : List (BitVec 32) :=
  (captured c).filterMap fun x => if x.1 then none else some x.2

/-- The words fetched from `s_axis`, with a `none` for a cycle in which
`s_axis_tready` is high and no word is offered. -/
def fetched : List (Option (BitVec 32)) :=
  if sAxisTready c.state then [c.input.ports.offer] else []

/-- The bits that the data line carries at the rising edges of `bclk`. -/
def sent : List Bool :=
  if c.input.pins.bclk && !c.state.sync.intBclkReg.getLsbD 0 then
    [gpioData2 c.state c.input]
  else []

end Events

/-! ## No state outside the `case` -/

/-- The `case` registers have one of their three values. -/
structure Sane (s : State) : Prop where
  adc : s.adc.adcCaseReg ≠ 3
  dac : s.dac.dacCaseReg ≠ 3

theorem Adc.case_next_ne {a : Adc} (h : a.adcCaseReg ≠ 3) (r : Sync) :
    (a.next r).adcCaseReg ≠ 3 := by
  unfold Adc.next
  dsimp only
  split
  · split <;> decide
  · split <;> decide
  · split <;> decide
  · exact h

theorem Dac.case_next_ne {d : Dac} (h : d.dacCaseReg ≠ 3) (r : Sync) (i : Ports) :
    (d.next r i).dacCaseReg ≠ 3 := by
  unfold Dac.next
  dsimp only
  split
  · split <;> decide
  · split <;> decide
  · split <;> decide
  · exact h

theorem sane_reset : Sane reset := ⟨by decide, by decide⟩

theorem Sane.run {s : State} (h : Sane s) (inputs : List Input) :
    Sane (run next s inputs) := by
  refine run_invariant Sane ?_ h inputs
  intro s i h
  exact ⟨Adc.case_next_ne h.adc s.sync, Dac.case_next_ne h.dac s.sync i.ports⟩

/-! ## The output register of the receiver -/

/-- The word offered on `m_axis`. -/
def offered (s : State) : List (BitVec 32) := held s.adcTvalidReg s.adc.adcTdataReg

/-- A word offered is taken no later than in the cycle in which the next half is
complete. -/
def Prompt (c : Cycle State Input) : Prop :=
  c.state.adc.loads c.state.sync = true → c.state.adcTvalidReg = true →
    c.input.ports.mAxisTready = true

theorem tvalid_next (s : State) (i : Input) :
    (next s i).adcTvalidReg =
      if s.adc.loads s.sync then !s.sync.intLrclkReg.getLsbD 1
      else if i.ports.mAxisTready && s.adcTvalidReg then false
      else s.adcTvalidReg := rfl

theorem offered_append (s : State) (i : Input) (h : Prompt ⟨s, i⟩) :
    offered s ++ loaded ⟨s, i⟩ = transferred ⟨s, i⟩ ++ offered (next s i) := by
  have htdata : (next s i).adc.adcTdataReg =
      if s.adc.loads s.sync then s.adc.word else s.adc.adcTdataReg := rfl
  unfold offered loaded captured transferred held
  dsimp only
  rw [tvalid_next, htdata]
  cases hloads : s.adc.loads s.sync with
  | false =>
      cases s.adcTvalidReg <;> cases i.ports.mAxisTready <;> simp
  | true =>
      have hready := h hloads
      dsimp only at hready
      cases hvalid : s.adcTvalidReg with
      | false => cases s.sync.intLrclkReg.getLsbD 1 <;> simp
      | true =>
          rw [hready hvalid]
          cases s.sync.intLrclkReg.getLsbD 1 <;> simp

/-- What is transferred is what is loaded. -/
theorem offered_run {s : State} {inputs : List Input}
    (h : ∀ c ∈ trace next s inputs, Prompt c) :
    offered s ++ (trace next s inputs).flatMap loaded =
      (trace next s inputs).flatMap transferred ++ offered (run next s inputs) := by
  have hrun := run_emits_of Prompt (fun s xs => offered s ++ xs) loaded transferred
    (fun s i hprompt xs => by
      rw [← List.append_assoc, offered_append s i hprompt, List.append_assoc])
    inputs h []
  rwa [List.append_nil, List.append_nil] at hrun

/-- The end of a high half leaves nothing on offer. -/
theorem tvalid_of_captured {s : State} {inputs : List Input} {x : Bool × BitVec 32}
    (h : ((trace next s inputs).flatMap captured).getLast? = some x) (hx : x.1 = true) :
    (run next s inputs).adcTvalidReg = false := by
  revert h
  refine trace_induction
    (fun past s => (past.flatMap captured).getLast? = some x → s.adcTvalidReg = false)
    (fun h => by cases h) ?_ inputs
  intro past s i hpast hlast
  rw [List.flatMap_append, List.flatMap_singleton] at hlast
  rw [tvalid_next]
  cases hloads : s.adc.loads s.sync with
  | false =>
      have hnone : captured ⟨s, i⟩ = [] := by
        rw [captured, hloads]
        rfl
      rw [hnone, List.append_nil] at hlast
      rw [hpast hlast]
      simp
  | true =>
      have hone : captured ⟨s, i⟩ =
          [(s.sync.intLrclkReg.getLsbD 1, s.adc.word)] := by
        rw [captured, hloads]
        rfl
      rw [hone, List.getLast?_concat, Option.some.injEq] at hlast
      rw [← hlast] at hx
      dsimp only at hx
      rw [hx]
      rfl

end RedPitayaNotes.AxisI2s
