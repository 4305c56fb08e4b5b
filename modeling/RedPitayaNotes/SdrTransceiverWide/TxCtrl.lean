import Mathlib.Data.List.Infix
import RedPitayaNotes.Support.Rounding

/-!
# The transmit commands of the wide transceiver

`tx_ctrl_handler` of `sdr-transceiver-wide.c` takes 32-bit words with a command
code in the top four bits.  Case 2 of its switch has no `break`, so a mask
command goes on to the PTT case.  The frame law of the commands therefore holds
for exactly those sequences in which that makes no difference.
-/

namespace RedPitayaNotes.SdrTransceiverWide

open Rounding

def freqMin : BitVec 32 := 0

def freqMax : BitVec 32 := 62500000

/-- `(uint32_t)floor(freq/122.88e6*(1<<30)+0.5)` -/
def phaseIncrement (freq : BitVec 32) : BitVec 32 :=
  BitVec.ofInt 32
    ⌊double (double (double (freq.toNat / 122880000) * 2 ^ 30) + 1 / 2)⌋

structure TxRegs where
  gpio : BitVec 8
  txFreq : BitVec 32
  txSync : BitVec 8
  txMask : BitVec 8
  txRate : BitVec 16

/-- What the handler sets before its loop and after it. -/
def TxRegs.default : TxRegs where
  gpio := 0
  txFreq := phaseIncrement 600000
  txSync := 0
  txMask := 1
  txRate := 625

/-- `command >> 28` -/
def code (command : BitVec 32) : ℕ := (command >>> 28).toNat

namespace TxRegs

def setFreq (r : TxRegs) (command : BitVec 32) : TxRegs :=
  let freq := command &&& 0xfffffff
  if freq < freqMin ∨ freq > freqMax then r
  else
    { r with
      txFreq := phaseIncrement freq
      txSync := if freq > 0 then 0 else 1 }

def setRate (r : TxRegs) (command : BitVec 32) : TxRegs :=
  match (command &&& 7).toNat with
  | 0 => { r with txRate := 3125 }
  | 1 => { r with txRate := 1250 }
  | 2 => { r with txRate := 625 }
  | 3 => { r with txRate := 250 }
  | 4 => { r with txRate := 125 }
  | 5 => { r with txRate := 50 }
  | 6 => { r with txRate := 25 }
  | _ => r

def setMask (r : TxRegs) (command : BitVec 32) : TxRegs :=
  { r with txMask := (command &&& 3).setWidth 8 }

def setPtt (r : TxRegs) (command : BitVec 32) : TxRegs :=
  { r with gpio := (command &&& 1).setWidth 8 }

/-- The switch of `tx_ctrl_handler`. -/
def txCommand (r : TxRegs) (command : BitVec 32) : TxRegs :=
  match code command with
  | 0 => r.setFreq command
  | 1 => r.setRate command
  -- no `break` before the next case
  | 2 => (r.setMask command).setPtt command
  | 3 => r.setPtt command
  | _ => r

end TxRegs

/-- The registers after a sequence of commands on one connection. -/
def txCtrl (commands : List (BitVec 32)) : TxRegs :=
  commands.foldl TxRegs.txCommand .default

/-! ## The frame law -/

/-- Only the registers of the command code `n` differ. -/
structure OnlyOwn (n : ℕ) (r r' : TxRegs) : Prop where
  freq : n ≠ 0 → r'.txFreq = r.txFreq ∧ r'.txSync = r.txSync
  rate : n ≠ 1 → r'.txRate = r.txRate
  mask : n ≠ 2 → r'.txMask = r.txMask
  ptt : n ≠ 3 → r'.gpio = r.gpio

/-- Bit 0 of the last PTT command, 0 if there was none. -/
def lastPtt (commands : List (BitVec 32)) : BitVec 8 :=
  ((commands.filter fun command => code command = 3).getLast?.map
    fun command => (command &&& 1).setWidth 8).getD 0

/-- Every word changes its own registers only, and the PTT bit is that of the
last PTT command. -/
structure FrameLaw (commands : List (BitVec 32)) : Prop where
  frame : ∀ before command, before ++ [command] <+: commands →
    OnlyOwn (code command) (txCtrl before) (txCtrl (before ++ [command]))
  ptt : ∀ before, before <+: commands → (txCtrl before).gpio = lastPtt before

/-- No mask command asks for a PTT bit other than the present one. -/
def MaskKeepsPtt (commands : List (BitVec 32)) : Prop :=
  ∀ before command, before ++ [command] <+: commands → code command = 2 →
    (command &&& 1).setWidth 8 = lastPtt before

/-! ## One command -/

theorem txCtrl_snoc (before : List (BitVec 32)) (command : BitVec 32) :
    txCtrl (before ++ [command]) = (txCtrl before).txCommand command :=
  List.foldl_concat _ _ _ _

theorem lastPtt_snoc (before : List (BitVec 32)) (command : BitVec 32) :
    lastPtt (before ++ [command]) =
      if code command = 3 then (command &&& 1).setWidth 8
      else lastPtt before := by
  by_cases hcode : code command = 3
  · simp [lastPtt, hcode]
  · simp [lastPtt, hcode]

namespace TxRegs

variable (r : TxRegs) (command : BitVec 32)

theorem setFreq_frame :
    (r.setFreq command).txRate = r.txRate ∧
      (r.setFreq command).txMask = r.txMask ∧
      (r.setFreq command).gpio = r.gpio := by
  unfold setFreq
  dsimp only
  split <;> exact ⟨rfl, rfl, rfl⟩

theorem setRate_frame :
    (r.setRate command).txFreq = r.txFreq ∧
      (r.setRate command).txSync = r.txSync ∧
      (r.setRate command).txMask = r.txMask ∧
      (r.setRate command).gpio = r.gpio := by
  unfold setRate
  split <;> exact ⟨rfl, rfl, rfl, rfl⟩

/-- The frame of every command but for the PTT register. -/
theorem txCommand_frame :
    (code command ≠ 0 → (r.txCommand command).txFreq = r.txFreq ∧
      (r.txCommand command).txSync = r.txSync) ∧
    (code command ≠ 1 → (r.txCommand command).txRate = r.txRate) ∧
    (code command ≠ 2 → (r.txCommand command).txMask = r.txMask) := by
  obtain ⟨hrate, hmask, -⟩ := r.setFreq_frame command
  obtain ⟨hfreq, hsync, hmask', -⟩ := r.setRate_frame command
  unfold txCommand
  split
  next h => exact ⟨fun hne => absurd h hne, fun _ => hrate, fun _ => hmask⟩
  next h =>
    exact ⟨fun _ => ⟨hfreq, hsync⟩, fun hne => absurd h hne, fun _ => hmask'⟩
  next h => exact ⟨fun _ => ⟨rfl, rfl⟩, fun _ => rfl, fun hne => absurd h hne⟩
  next => exact ⟨fun _ => ⟨rfl, rfl⟩, fun _ => rfl, fun _ => rfl⟩
  next => exact ⟨fun _ => ⟨rfl, rfl⟩, fun _ => rfl, fun _ => rfl⟩

/-- The PTT register follows the mask commands too. -/
theorem gpio_txCommand :
    (r.txCommand command).gpio =
      if code command = 2 ∨ code command = 3 then (command &&& 1).setWidth 8
      else r.gpio := by
  obtain ⟨-, -, hfreq⟩ := r.setFreq_frame command
  obtain ⟨-, -, -, hrate⟩ := r.setRate_frame command
  unfold txCommand
  split
  next h => rw [h, if_neg (by decide), hfreq]
  next h => rw [h, if_neg (by decide), hrate]
  next h => rw [h, if_pos (by decide)]; rfl
  next h => rw [h, if_pos (by decide)]; rfl
  next htwo hthree => rw [if_neg (not_or.mpr ⟨htwo, hthree⟩)]

end TxRegs

/-! ## Sequences of commands -/

variable {commands : List (BitVec 32)}

theorem MaskKeepsPtt.gpio_eq (h : MaskKeepsPtt commands)
    {before : List (BitVec 32)} (hbefore : before <+: commands) :
    (txCtrl before).gpio = lastPtt before := by
  induction before using List.reverseRecOn with
  | nil => rfl
  | append_singleton before command ih =>
      have hpast := ih ((List.prefix_append before [command]).trans hbefore)
      rw [txCtrl_snoc, TxRegs.gpio_txCommand, lastPtt_snoc, hpast]
      by_cases htwo : code command = 2
      · rw [if_pos (Or.inl htwo), if_neg (by omega)]
        exact h before command hbefore htwo
      · simp only [htwo, false_or]

/-- The frame law holds for a sequence of commands exactly if every mask command
repeats the PTT bit of the last PTT command before it. -/
theorem frameLaw_iff (commands : List (BitVec 32)) :
    FrameLaw commands ↔ MaskKeepsPtt commands := by
  constructor
  · intro h before command hprefix htwo
    have hown := (h.frame before command hprefix).ptt (by omega)
    rw [txCtrl_snoc, TxRegs.gpio_txCommand, if_pos (Or.inl htwo)] at hown
    rw [hown]
    exact h.ptt before ((List.prefix_append _ _).trans hprefix)
  · intro h
    refine ⟨fun before command hprefix => ?_, fun before => h.gpio_eq⟩
    obtain ⟨hfreq, hrate, hmask⟩ := (txCtrl before).txCommand_frame command
    rw [txCtrl_snoc]
    refine ⟨hfreq, hrate, hmask, fun hptt => ?_⟩
    rw [← txCtrl_snoc, h.gpio_eq hprefix, lastPtt_snoc, if_neg hptt,
      h.gpio_eq ((List.prefix_append _ _).trans hprefix)]

/-- The mask command that the GNU Radio sink sends at its start keys the
transmitter, with no PTT command before it. -/
theorem not_frameLaw_mask : ¬FrameLaw [0x20000001] := by
  intro h
  have hptt := h.ptt [0x20000001] List.prefix_rfl
  exact absurd hptt (by decide)

end RedPitayaNotes.SdrTransceiverWide
