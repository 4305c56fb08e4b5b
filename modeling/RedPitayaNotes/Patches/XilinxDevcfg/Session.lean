import RedPitayaNotes.Patches.XilinxDevcfg.Write
import RedPitayaNotes.Support.Clocked

/-!
# Sessions of /dev/xdevcfg

`xdevcfg_open` cuts the programmable logic off from the processor, or enables
partial reconfiguration, and `xdevcfg_release` undoes one or the other.  Both ask
the flag `is_partial_bitstream`, which anyone may set at any time through sysfs.
What a session leaves behind depends on the two answers.
-/

namespace RedPitayaNotes.XilinxDevcfg

open Bits

/-! ## Registers -/

/-- The registers that tell how the programmable logic is connected. -/
structure Hardware where
  lvlShftrEn : BitVec 32
  fpgaRstCtrl : BitVec 32
  ctrl : BitVec 32

def slcrFpgaRstCtrlOffset : BitVec 32 := 0x240

def slcrLvlShftrEnOffset : BitVec 32 := 0x900

def ctrlOffset : BitVec 32 := 0x00

def ctrlPcfgProgB : BitVec 32 := 0x40000000

def ctrlPcapPr : BitVec 32 := 0x08000000

def ctrlPcapMode : BitVec 32 := 0x04000000

def ixrPcfgDone : BitVec 32 := 0x00000004

def Hardware.apply (hw : Hardware) : Event → Hardware
  | .slcrWrite val offset =>
    if offset = slcrFpgaRstCtrlOffset then { hw with fpgaRstCtrl := val }
    else if offset = slcrLvlShftrEnOffset then { hw with lvlShftrEn := val }
    else hw
  | .writereg offset val => if offset = ctrlOffset then { hw with ctrl := val } else hw
  | _ => hw

def Hardware.after (hw : Hardware) (events : List Event) : Hardware :=
  events.foldl Hardware.apply hw

/-! ## open and release -/

/-- `zynq_slcr_init_preload_fpga` -/
def initPreload : List Event :=
  [.slcrWrite 0xF slcrFpgaRstCtrlOffset, .slcrWrite 0 slcrLvlShftrEnOffset,
    .slcrWrite 0xA slcrLvlShftrEnOffset]

/-- `zynq_slcr_init_postload_fpga` -/
def initPostload : List Event :=
  [.slcrWrite 0xf slcrLvlShftrEnOffset, .slcrWrite 0 slcrFpgaRstCtrlOffset]

/-- The writes of `xdevcfg_reset_pl`, between which it waits for the status. -/
def resetPl (ctrl : BitVec 32) : List Event :=
  let ctrl := ctrl &&& ~~~ctrlPcfgProgB
  [.writereg ctrlOffset ctrl, .writereg ctrlOffset (ctrl ||| ctrlPcfgProgB)]

def enablePartial (ctrl : BitVec 32) : List Event :=
  [.writereg ctrlOffset (ctrl ||| ctrlPcapPr)]

def disablePartial (ctrl : BitVec 32) : List Event :=
  [.writereg ctrlOffset (ctrl &&& ~~~ctrlPcapPr)]

/-- How far the process that set `is_open` has come. -/
inductive Statement where
  | closed
  /-- The first test of `is_partial_bitstream` in `xdevcfg_open`. -/
  | prepare
  /-- The second one, and what follows. -/
  | reset
  | opened
  /-- The last statement of `xdevcfg_release`. -/
  | close
deriving DecidableEq

/-- `partialFirst` is what the first test of `xdevcfg_open` found, and `sessions`
has it together with what `xdevcfg_release` found. -/
structure Device where
  drvdata : Drvdata
  hw : Hardware
  pos : ℕ
  statement : Statement
  partialFirst : Bool
  sessions : List (Bool × Bool)

/-- Any number of processes make calls; those that the state does not admit fail
or wait. -/
inductive Input where
  /-- The first statements of `xdevcfg_open`, and what the calls in them return. -/
  | openDevice (clkEnable lock : ℤ)
  | prepare
  | reset
  | write (call : Call)
  /-- The test of `is_partial_bitstream` in `xdevcfg_release`. -/
  | release
  | close
  /-- `xdevcfg_set_is_partial_bitstream` -/
  | setPartial (maskBit : ℕ)

namespace Device

variable (d : Device)

/-- `-EBUSY` is returned if the device is open. -/
def openDevice (clkEnable lock : ℤ) : Device × ℤ :=
  if clkEnable ≠ 0 then (d, clkEnable)
  else if lock ≠ 0 then (d, lock)
  else if d.drvdata.isOpen then (d, -ebusy)
  else
    ({ d with
      drvdata :=
        { d.drvdata with
          isOpen := true
          endianSwap := false
          residue := ⟨[], by decide⟩ }
      pos := 0
      statement := .prepare }, 0)

def prepare : Device :=
  { d with
    hw := d.hw.after
      (if d.drvdata.isPartialBitstream then enablePartial d.hw.ctrl else initPreload)
    partialFirst := d.drvdata.isPartialBitstream
    statement := .reset }

def reset : Device :=
  { d with
    hw := d.hw.after
      ((if !d.drvdata.ep107 && !d.drvdata.isPartialBitstream then resetPl d.hw.ctrl
        else []) ++ [.writereg intStsOffset ixrPcfgDone])
    statement := .opened }

def write (call : Call) : Device :=
  let r := XilinxDevcfg.write d.drvdata d.pos call.data call.answers
  { d with drvdata := r.drvdata, pos := r.pos, hw := d.hw.after r.events }

def release : Device :=
  { d with
    hw := d.hw.after
      (if d.drvdata.isPartialBitstream then disablePartial d.hw.ctrl
        else initPostload)
    sessions := d.sessions ++ [(d.partialFirst, d.drvdata.isPartialBitstream)]
    statement := .close }

def close : Device :=
  { d with drvdata := { d.drvdata with isOpen := false }, statement := .closed }

/-- Numbers above 1 are refused. -/
def setPartial (maskBit : ℕ) : Device :=
  if maskBit > 1 then d
  else
    { d with drvdata := { d.drvdata with isPartialBitstream := decide (maskBit ≠ 0) } }

def next (d : Device) : Input → Device
  | .openDevice clkEnable lock => (d.openDevice clkEnable lock).1
  | .prepare => if d.statement = .prepare then d.prepare else d
  | .reset => if d.statement = .reset then d.reset else d
  | .write call => if d.statement = .opened then d.write call else d
  | .release => if d.statement = .opened then d.release else d
  | .close => if d.statement = .close then d.close else d
  | .setPartial maskBit => d.setPartial maskBit

end Device

/-- The programmable logic is connected. -/
def Hardware.connected (hw : Hardware) : Bool :=
  hw.lvlShftrEn == 0xF && hw.fpgaRstCtrl == 0

/-- Its outputs are enabled, its inputs are not, and it is in reset. -/
def Hardware.isolated (hw : Hardware) : Bool :=
  hw.lvlShftrEn == 0xA && hw.fpgaRstCtrl == 0xF

def Hardware.pcapPr (hw : Hardware) : Bool := hw.ctrl.getLsbD 27

def Hardware.progB (hw : Hardware) : Bool := hw.ctrl.getLsbD 30

/-- The driver after `xdevcfg_drv_probe` on a board that was started. -/
def Device.start (ctrl : BitVec 32) (ep107 : Bool) : Device where
  drvdata := ⟨false, false, ep107, false, ⟨[], by decide⟩⟩
  hw :=
    { lvlShftrEn := 0xF
      fpgaRstCtrl := 0
      ctrl := ctrl &&& ~~~ctrlPcapPr ||| (ctrlPcfgProgB ||| ctrlPcapMode) }
  pos := 0
  statement := .closed
  partialFirst := false
  sessions := []

/-! ## What the statements do to the registers -/

section Registers

variable (hw : Hardware)

theorem isolated_not_connected {hw : Hardware} (h : hw.isolated = true) :
    hw.connected = false := by
  obtain ⟨hlvl, -⟩ := Bool.and_eq_true_iff.mp h
  rw [Hardware.connected, eq_of_beq hlvl]
  rfl

theorem after_initPreload : hw.after initPreload =
    { hw with lvlShftrEn := 0xA, fpgaRstCtrl := 0xF } :=
  rfl

theorem after_initPostload : hw.after initPostload =
    { hw with lvlShftrEn := 0xF, fpgaRstCtrl := 0 } :=
  rfl

theorem after_enablePartial : hw.after (enablePartial hw.ctrl) =
    { hw with ctrl := hw.ctrl ||| ctrlPcapPr } :=
  rfl

theorem after_disablePartial : hw.after (disablePartial hw.ctrl) =
    { hw with ctrl := hw.ctrl &&& ~~~ctrlPcapPr } :=
  rfl

theorem after_resetPl : hw.after (resetPl hw.ctrl) =
    { hw with ctrl := hw.ctrl &&& ~~~ctrlPcfgProgB ||| ctrlPcfgProgB } :=
  rfl

theorem after_append (xs ys : List Event) :
    hw.after (xs ++ ys) = (hw.after xs).after ys :=
  List.foldl_append

theorem bits_enable (ctrl : BitVec 32) :
    (ctrl ||| ctrlPcapPr).getLsbD 27 = true ∧
      (ctrl ||| ctrlPcapPr).getLsbD 30 = ctrl.getLsbD 30 := by
  simp [ctrlPcapPr]

theorem bits_disable (ctrl : BitVec 32) :
    (ctrl &&& ~~~ctrlPcapPr).getLsbD 27 = false ∧
      (ctrl &&& ~~~ctrlPcapPr).getLsbD 30 = ctrl.getLsbD 30 := by
  simp [ctrlPcapPr]

theorem bits_resetPl (ctrl : BitVec 32) :
    (ctrl &&& ~~~ctrlPcfgProgB ||| ctrlPcfgProgB).getLsbD 27 = ctrl.getLsbD 27 ∧
      (ctrl &&& ~~~ctrlPcfgProgB ||| ctrlPcfgProgB).getLsbD 30 = true := by
  simp [ctrlPcfgProgB]

/-- Events that leave the three registers alone. -/
def Event.Apart (e : Event) : Prop := ∀ hw : Hardware, hw.apply e = hw

theorem after_apart {events : List Event} (h : ∀ e ∈ events, e.Apart) :
    hw.after events = hw := by
  induction events generalizing hw with
  | nil => rfl
  | cons e events ih =>
      have he := h e List.mem_cons_self hw
      rw [Hardware.after, List.foldl_cons, he]
      exact ih hw fun e' he' => h e' (List.mem_cons_of_mem e he')

end Registers

theorem apart_writereg {offset : BitVec 32} (h : offset ≠ ctrlOffset)
    (val : BitVec 32) : (Event.writereg offset val).Apart := fun _ => if_neg h

theorem apart_between {x y : Event} {events : List Event} (hx : x.Apart)
    (h : ∀ e ∈ events, e.Apart) (hy : y.Apart) :
    ∀ e ∈ [x] ++ events ++ [y], e.Apart := by
  intro e he
  rcases List.mem_append.mp he with hfront | hlast
  · rcases List.mem_append.mp hfront with hfirst | hin
    · exact List.mem_singleton.mp hfirst ▸ hx
    · exact h e hin
  · exact List.mem_singleton.mp hlast ▸ hy

section Write

variable (d : Drvdata) (pos : ℕ) (data : List Byte) (a : Answers)

theorem transferBody_apart (dmaAddr : BitVec 32) :
    ∀ e ∈ (transferBody d pos data a dmaAddr).events, e.Apart := by
  have hstarted : ∀ t, ∀ e ∈ ([.writereg intStsOffset ixrAll,
      .writereg intMaskOffset (~~~(ixrDPDone ||| ixrErrorFlags)), .transfer t] :
        List Event), e.Apart := by
    intro t
    simp only [List.forall_mem_cons, List.not_mem_nil, false_implies, implies_true,
      and_true]
    exact ⟨apart_writereg (by decide) _, apart_writereg (by decide) _, fun _ => rfl⟩
  unfold transferBody
  split
  next => simp
  next =>
    dsimp only
    split
    next => exact hstarted _
    next =>
      split
      all_goals
        refine List.forall_mem_append.mpr ⟨hstarted _, ?_⟩
        rw [List.forall_mem_singleton]
        exact apart_writereg (by decide) _

/-- A write starts a transfer and does nothing to the three registers. -/
theorem write_apart : ∀ e ∈ (write d pos data a).events, e.Apart := by
  unfold write withClk
  split
  next => simp
  next =>
    refine apart_between (fun _ => rfl) ?_ (fun _ => rfl)
    unfold withSem
    split
    next => simp
    next =>
      refine apart_between (fun _ => rfl) ?_ (fun _ => rfl)
      unfold withKbuf
      split
      next => simp
      next =>
        exact apart_between (fun _ => rfl) (transferBody_apart d pos data a _)
          (fun _ => rfl)

theorem write_isOpen : (write d pos data a).drvdata.isOpen = d.isOpen ∧
    (write d pos data a).drvdata.isPartialBitstream = d.isPartialBitstream := by
  unfold write withClk
  split
  next => exact ⟨rfl, rfl⟩
  next =>
    unfold withSem
    dsimp only
    split
    next => exact ⟨rfl, rfl⟩
    next =>
      unfold withKbuf
      dsimp only
      split
      next => exact ⟨rfl, rfl⟩
      next =>
        unfold transferBody
        dsimp only
        split
        next => exact ⟨rfl, rfl⟩
        next =>
          split
          next => exact ⟨rfl, rfl⟩
          next => split <;> exact ⟨rfl, rfl⟩

end Write

/-! ## What sessions leave behind -/

/-- What the last session of those selected found at its end. -/
def lastFound (p : Bool × Bool → Bool) (sessions : List (Bool × Bool)) : Option Bool :=
  (sessions.filter p).getLast?.map Prod.snd

/-- A session that takes the bitstream for a full one at one of its ends. -/
def full (session : Bool × Bool) : Bool := !session.1 || !session.2

/-- A session that takes it for a partial one at one of its ends. -/
def someTimesPartial (session : Bool × Bool) : Bool := session.1 || session.2

theorem lastFound_append (p : Bool × Bool → Bool) (sessions : List (Bool × Bool))
    (session : Bool × Bool) :
    lastFound p (sessions ++ [session]) =
      if p session then some session.2 else lastFound p sessions := by
  unfold lastFound
  rw [List.filter_append]
  cases h : p session <;> simp [h]

/-- The last session in full mode released the programmable logic. -/
def leftConnected (sessions : List (Bool × Bool)) : Bool :=
  lastFound full sessions ≠ some true

/-- The last session in partial mode left the mode on. -/
def leftPartial (sessions : List (Bool × Bool)) : Bool :=
  lastFound someTimesPartial sessions = some false

/-- What holds between two statements. -/
structure Books (d : Device) : Prop where
  isOpen : d.drvdata.isOpen = decide (d.statement ≠ .closed)
  progB : d.hw.progB = true
  outside : d.statement ≠ .reset → d.statement ≠ .opened →
    d.hw.connected = leftConnected d.sessions ∧ d.hw.pcapPr = leftPartial d.sessions
  inside : d.statement = .reset ∨ d.statement = .opened →
    if d.partialFirst then
      d.hw.connected = leftConnected d.sessions ∧ d.hw.pcapPr = true
    else d.hw.isolated = true ∧ d.hw.pcapPr = leftPartial d.sessions

section Books

variable {d : Device}

theorem Books.openDevice (h : Books d) (clkEnable lock : ℤ) :
    Books (d.openDevice clkEnable lock).1 := by
  unfold Device.openDevice
  split
  next => exact h
  next =>
    split
    next => exact h
    next =>
      split
      next => exact h
      next hfree =>
        have hclosed : d.statement = .closed := by
          have hopen := h.isOpen
          rw [eq_false_of_ne_true hfree] at hopen
          exact not_not.mp (of_decide_eq_false hopen.symm)
        exact ⟨rfl, h.progB,
          fun _ _ => h.outside (by simp [hclosed]) (by simp [hclosed]), by simp⟩

theorem Books.prepare (h : Books d) (hstatement : d.statement = .prepare) :
    Books d.prepare := by
  obtain ⟨hconnected, hpartial⟩ :=
    h.outside (by simp [hstatement]) (by simp [hstatement])
  have hopen := h.isOpen
  rw [hstatement] at hopen
  have hprogB := h.progB
  unfold Device.prepare
  cases hflag : d.drvdata.isPartialBitstream with
  | true =>
      rw [if_pos rfl, after_enablePartial]
      obtain ⟨hpr, hkeep⟩ := bits_enable d.hw.ctrl
      exact ⟨hopen, hkeep.trans hprogB, by simp, fun _ => ⟨hconnected, hpr⟩⟩
  | false =>
      rw [if_neg (by decide), after_initPreload]
      exact ⟨hopen, hprogB, by simp, fun _ => ⟨rfl, hpartial⟩⟩

theorem Books.reset (h : Books d) (hstatement : d.statement = .reset) :
    Books d.reset := by
  have hinside := h.inside (Or.inl hstatement)
  have hopen := h.isOpen
  rw [hstatement] at hopen
  have hprogB := h.progB
  have hsts : ∀ hw : Hardware, hw.after [.writereg intStsOffset ixrPcfgDone] = hw :=
    fun hw => after_apart hw (by
      rw [List.forall_mem_singleton]
      exact apart_writereg (by decide) _)
  unfold Device.reset
  rw [after_append, hsts]
  split
  next =>
    rw [after_resetPl]
    obtain ⟨hkeep, hset⟩ := bits_resetPl d.hw.ctrl
    refine ⟨hopen, hset, by simp, fun _ => ?_⟩
    unfold Hardware.pcapPr at hinside ⊢
    rw [hkeep]
    exact hinside
  next => exact ⟨hopen, hprogB, by simp, fun _ => hinside⟩

theorem Books.write (h : Books d) (call : Call) :
    Books (d.write call) := by
  have hhw := after_apart d.hw
    (write_apart d.drvdata d.pos call.data call.answers)
  have hflags := write_isOpen d.drvdata d.pos call.data call.answers
  unfold Device.write
  dsimp only
  rw [hhw]
  exact ⟨hflags.1.trans h.isOpen, h.progB, h.outside, h.inside⟩

theorem Books.release (h : Books d) (hstatement : d.statement = .opened) :
    Books d.release := by
  have hinside := h.inside (Or.inr hstatement)
  have hopen := h.isOpen
  rw [hstatement] at hopen
  have hprogB := h.progB
  unfold Device.release
  cases hflag : d.drvdata.isPartialBitstream with
  | true =>
      rw [if_pos rfl, after_disablePartial]
      obtain ⟨hpr, hkeep⟩ := bits_disable d.hw.ctrl
      refine ⟨hopen, hkeep.trans hprogB, fun _ _ => ⟨?_, ?_⟩, by simp⟩
      · dsimp only
        rw [leftConnected, lastFound_append]
        cases hfirst : d.partialFirst with
        | true =>
            rw [hfirst] at hinside
            exact hinside.1
        | false =>
            rw [hfirst] at hinside
            exact isolated_not_connected hinside.1
      · dsimp only
        rw [leftPartial, lastFound_append]
        cases d.partialFirst <;> exact hpr
  | false =>
      rw [if_neg (by decide), after_initPostload]
      refine ⟨hopen, hprogB, fun _ _ => ⟨?_, ?_⟩, by simp⟩
      · dsimp only
        rw [leftConnected, lastFound_append]
        cases d.partialFirst <;> rfl
      · dsimp only
        rw [leftPartial, lastFound_append]
        cases hfirst : d.partialFirst with
        | true =>
            rw [hfirst] at hinside
            exact hinside.2
        | false =>
            rw [hfirst] at hinside
            exact hinside.2

theorem Books.close (h : Books d) (hstatement : d.statement = .close) :
    Books d.close :=
  ⟨rfl, h.progB, fun _ _ => h.outside (by simp [hstatement]) (by simp [hstatement]),
    by simp [Device.close]⟩

theorem Books.next (h : Books d) (i : Input) : Books (d.next i) := by
  cases i with
  | openDevice clkEnable lock => exact h.openDevice clkEnable lock
  | prepare =>
      unfold Device.next
      dsimp only
      split
      next hstatement => exact h.prepare hstatement
      next => exact h
  | reset =>
      unfold Device.next
      dsimp only
      split
      next hstatement => exact h.reset hstatement
      next => exact h
  | write call =>
      unfold Device.next
      dsimp only
      split
      next => exact h.write call
      next => exact h
  | release =>
      unfold Device.next
      dsimp only
      split
      next hstatement => exact h.release hstatement
      next => exact h
  | close =>
      unfold Device.next
      dsimp only
      split
      next hstatement => exact h.close hstatement
      next => exact h
  | setPartial maskBit =>
      change Books (d.setPartial maskBit)
      unfold Device.setPartial
      split
      · exact h
      · exact ⟨h.isOpen, h.progB, h.outside, h.inside⟩

end Books

end RedPitayaNotes.XilinxDevcfg
