import RedPitayaNotes.SdrTransceiverWide.TxCtrl
import RedPitayaNotes.Support.Bits
import RedPitayaNotes.Support.Blocks

/-!
# The control connections of the wide transceiver

`sdr-transceiver-wide.c` receives 32-bit commands at three places, each time with
a `recv` that waits for four bytes, into a local variable, and each time looks
only whether the result is positive.  Where a connection ends inside a command
the bytes received are completed by those the variable holds from the command
before.
-/

namespace RedPitayaNotes.SdrTransceiverWide

open Bits Blocks

/-- `recv(sock_client, (char *)&command, 4, MSG_WAITALL)` on a connection that
has the bytes of `stream` to come before it ends: the result, the variable and
the bytes left. -/
def recvCommand (command : BitVec 32) (stream : List Byte) :
    ℕ × BitVec 32 × List Byte :=
  let bytes := stream.take 4
  (bytes.length, ofBytes (bytes ++ (wordBytes command).drop bytes.length),
    stream.drop 4)

/-! ## rx_ctrl_handler -/

structure RxRegs where
  rxFreq : BitVec 32
  rxSync : BitVec 8
  rxMask : BitVec 8
  rxRate : BitVec 16

/-- What the handler sets before its loop and after it. -/
def RxRegs.default : RxRegs where
  rxFreq := phaseIncrement 600000
  rxSync := 0
  rxMask := 1
  rxRate := 625

namespace RxRegs

def setFreq (r : RxRegs) (command : BitVec 32) : RxRegs :=
  let freq := command &&& 0xfffffff
  if freq < freqMin ∨ freq > freqMax then r
  else
    { r with
      rxFreq := phaseIncrement freq
      rxSync := if freq > 0 then 0 else 1 }

def setRate (r : RxRegs) (command : BitVec 32) : RxRegs :=
  match (command &&& 7).toNat with
  | 0 => { r with rxRate := 1920 }
  | 1 => { r with rxRate := 960 }
  | 2 => { r with rxRate := 480 }
  | 3 => { r with rxRate := 240 }
  | 4 => { r with rxRate := 120 }
  | 5 => { r with rxRate := 60 }
  | 6 => { r with rxRate := 30 }
  | _ => r

def setMask (r : RxRegs) (command : BitVec 32) : RxRegs :=
  { r with rxMask := (command &&& 3).setWidth 8 }

/-- The switch of `rx_ctrl_handler`. -/
def rxCommand (r : RxRegs) (command : BitVec 32) : RxRegs :=
  match code command with
  | 0 => r.setFreq command
  | 1 => r.setRate command
  | 2 => r.setMask command
  | _ => r

end RxRegs

/-! ## The loop of a handler -/

section Loop

variable {ρ : Type*}

/-- The commands on which the switch is executed, and the registers at the end
of the loop. -/
def ctrlLoop (switch : ρ → BitVec 32 → ρ) (regs : ρ) (command : BitVec 32)
    (stream : List Byte) : List (BitVec 32) × ρ :=
  if (recvCommand command stream).1 ≤ 0 then ([], regs)
  else
    let command' := (recvCommand command stream).2.1
    let rest := ctrlLoop switch (switch regs command') command'
      (recvCommand command stream).2.2
    (command' :: rest.1, rest.2)
termination_by stream.length
decreasing_by
  rename_i hresult
  simp only [recvCommand, List.length_take, List.length_drop] at hresult ⊢
  omega

variable (switch : ρ → BitVec 32 → ρ)

/-- The registers are those that the commands executed leave. -/
theorem ctrlLoop_regs (regs : ρ) (command : BitVec 32) (stream : List Byte) :
    (ctrlLoop switch regs command stream).2 =
      (ctrlLoop switch regs command stream).1.foldl switch regs := by
  induction regs, command, stream using ctrlLoop.induct switch with
  | case1 regs command stream hend =>
      rw [ctrlLoop, if_pos hend]
      rfl
  | case2 regs command stream hmore command' ih =>
      rw [ctrlLoop, if_neg hmore]
      exact ih

end Loop

/-- `command` is what the variable holds before the first `recv`. -/
def rxCtrlHandler (command : BitVec 32) (stream : List Byte) :
    List (BitVec 32) × RxRegs :=
  ((ctrlLoop RxRegs.rxCommand .default command stream).1, .default)

def txCtrlHandler (command : BitVec 32) (stream : List Byte) :
    List (BitVec 32) × TxRegs :=
  ((ctrlLoop TxRegs.txCommand .default command stream).1, .default)

/-! ## The connection command -/

/-- `sock_thread[4]`; `none` is -1. -/
abbrev SockThread := Fin 4 → Option ℕ

/-- The test of `main` on the connection command: the slot to claim, or `none`
where the connection is closed. -/
def connectionSlot (sockThread : SockThread) (result : ℕ) (command : BitVec 32) :
    Option (Fin 4) :=
  if result ≤ 0 then none
  else if h : command.toNat < 4 then
    if (sockThread ⟨command.toNat, h⟩).isSome then none
    else some ⟨command.toNat, h⟩
  else none

/-- The slot claimed for a connection that sends `stream`. -/
def claimedSlot (sockThread : SockThread) (command : BitVec 32)
    (stream : List Byte) : Option (Fin 4) :=
  connectionSlot sockThread (recvCommand command stream).1
    (recvCommand command stream).2.1

/-! ## Whole words -/

/-- The values of the four bytes from every multiple of four on. -/
def words (stream : List Byte) : List (BitVec 32) := (blocks 4 stream).map ofBytes

/-- A slot is claimed only for the value of four bytes received. -/
def ClaimsWhole (sockThread : SockThread) (command : BitVec 32)
    (stream : List Byte) : Prop :=
  ∀ slot, claimedSlot sockThread command stream = some slot →
    4 ≤ stream.length ∧ (ofBytes (stream.take 4)).toNat = slot

/-- A fragment, completed by the command before, names a free slot. -/
def FragmentNamesSlot (sockThread : SockThread) (command : BitVec 32)
    (stream : List Byte) : Prop :=
  0 < stream.length ∧ stream.length < 4 ∧
    ∃ slot : Fin 4, sockThread slot = none ∧
      (ofBytes (stream ++ (wordBytes command).drop stream.length)).toNat = slot

section Recv

variable {command : BitVec 32} {stream : List Byte}

theorem recvCommand_of_le (h : 4 ≤ stream.length) :
    recvCommand command stream =
      (4, ofBytes (stream.take 4), stream.drop 4) := by
  have hlen : (stream.take 4).length = 4 := by
    rw [List.length_take, Nat.min_eq_left h]
  have hnone : (wordBytes command).drop 4 = [] := rfl
  rw [recvCommand, hlen, hnone, List.append_nil]

/-- The last bytes of a connection leave the others of the variable. -/
theorem recvCommand_of_lt (h : stream.length < 4) :
    recvCommand command stream =
      (stream.length,
        ofBytes (stream ++ (wordBytes command).drop stream.length), []) := by
  rw [recvCommand, List.take_of_length_le (le_of_lt h),
    List.drop_of_length_le (le_of_lt h)]

end Recv

theorem words_of_le {stream : List Byte} (h : 4 ≤ stream.length) :
    words stream = ofBytes (stream.take 4) :: words (stream.drop 4) ∧
      rest 4 stream = rest 4 (stream.drop 4) := by
  have hlen : (stream.take 4).length = 4 := by
    rw [List.length_take, Nat.min_eq_left h]
  obtain ⟨hblocks, hrest⟩ :=
    blocks_append hlen (by decide) (stream.drop 4)
  rw [List.take_append_drop] at hblocks hrest
  exact ⟨by rw [words, hblocks, List.map_cons, words], hrest⟩

/-- The commands executed are the words of the stream and, after them, a
fragment completed by the word before. -/
theorem ctrlLoop_executed {ρ : Type*} (switch : ρ → BitVec 32 → ρ) (regs : ρ)
    (command : BitVec 32) (stream : List Byte) :
    (ctrlLoop switch regs command stream).1 =
      words stream ++
        if rest 4 stream = [] then []
        else [ofBytes (rest 4 stream ++
          (wordBytes ((words stream).getLastD command)).drop
            (rest 4 stream).length)] := by
  induction regs, command, stream using ctrlLoop.induct switch with
  | case1 regs command stream hend =>
      have hempty : stream = [] := by
        rw [← List.length_eq_zero_iff]
        simp only [recvCommand, List.length_take] at hend
        omega
      rw [ctrlLoop, if_pos hend, hempty]
      rfl
  | case2 regs command stream hmore command' ih =>
      rw [ctrlLoop, if_neg hmore]
      dsimp only
      rw [ih]
      by_cases hlen : 4 ≤ stream.length
      · obtain ⟨hwords, hrest⟩ := words_of_le hlen
        have hcommand : command' = ofBytes (stream.take 4) := by
          change (recvCommand command stream).2.1 = _
          rw [recvCommand_of_le hlen]
        rw [recvCommand_of_le hlen, hwords, hrest, List.getLastD_cons,
          ← hcommand]
        rfl
      · obtain ⟨hblocks, hrest⟩ := blocks_of_lt (Nat.not_le.mp hlen)
        have hne : stream ≠ [] := by
          rintro rfl
          exact hmore (le_refl 0)
        have hwords : words stream = [] := by rw [words, hblocks, List.map_nil]
        have hcommand : command' =
            ofBytes (stream ++ (wordBytes command).drop stream.length) := by
          change (recvCommand command stream).2.1 = _
          rw [recvCommand_of_lt (Nat.not_le.mp hlen)]
        rw [recvCommand_of_lt (Nat.not_le.mp hlen), hwords, hrest, if_neg hne,
          hcommand]
        obtain ⟨hnone, hnothing⟩ :=
          blocks_of_lt (show ([] : List Byte).length < 4 by decide)
        dsimp only
        rw [words, hnone, hnothing, if_pos rfl]
        rfl

/-- A handler executes the words of the stream exactly if the stream ends
between two words. -/
theorem executed_eq_words_iff {ρ : Type*} (switch : ρ → BitVec 32 → ρ) (regs : ρ)
    (command : BitVec 32) (stream : List Byte) :
    (ctrlLoop switch regs command stream).1 = words stream ↔
      stream.length % 4 = 0 := by
  rw [ctrlLoop_executed, List.append_right_eq_self, ← length_rest, List.length_eq_zero_iff]
  split
  next h => exact iff_of_true rfl h
  next h => exact iff_of_false (List.cons_ne_nil _ _) h

theorem claimsWhole_iff (sockThread : SockThread) (command : BitVec 32)
    (stream : List Byte) :
    ClaimsWhole sockThread command stream ↔
      ¬FragmentNamesSlot sockThread command stream := by
  constructor
  · rintro hwhole ⟨hpos, hlt, slot, hfree, hslot⟩
    have hvalue : (ofBytes (stream ++
        (wordBytes command).drop stream.length)).toNat < 4 :=
      hslot ▸ slot.isLt
    have hclaims : claimedSlot sockThread command stream = some slot := by
      have hsame : (⟨_, hvalue⟩ : Fin 4) = slot := Fin.ext hslot
      rw [claimedSlot, recvCommand_of_lt hlt, connectionSlot,
        if_neg (Nat.not_le.mpr hpos), dif_pos hvalue, hsame, hfree]
      rfl
    have hle := (hwhole slot hclaims).1
    omega
  · intro hfragment slot hclaims
    unfold claimedSlot connectionSlot at hclaims
    split at hclaims
    next => cases hclaims
    next hresult =>
      split at hclaims
      next hvalue =>
        split at hclaims
        next => cases hclaims
        next hfree =>
          obtain rfl := Option.some.inj hclaims
          by_cases hlen : 4 ≤ stream.length
          · refine ⟨hlen, ?_⟩
            simp only [recvCommand_of_le hlen]
          · have hlt := Nat.not_le.mp hlen
            simp only [recvCommand_of_lt hlt] at hresult hfree
            refine absurd ⟨Nat.pos_of_ne_zero ?_, hlt, _,
              Option.not_isSome_iff_eq_none.mp hfree, rfl⟩ hfragment
            omega
      next => cases hclaims

/-- The handlers execute the words of their streams, and only these, exactly if
the streams end between two words; `main` claims slots for whole words only,
except where a fragment, completed by the command of the connection before,
names a free slot. -/
theorem wholeWords_iff (rxCommand txCommand command : BitVec 32)
    (rxStream txStream stream : List Byte) (sockThread : SockThread) :
    ((rxCtrlHandler rxCommand rxStream).1 = words rxStream ↔
        rxStream.length % 4 = 0) ∧
      ((txCtrlHandler txCommand txStream).1 = words txStream ↔
        txStream.length % 4 = 0) ∧
      (ClaimsWhole sockThread command stream ↔
        ¬FragmentNamesSlot sockThread command stream) :=
  ⟨executed_eq_words_iff _ _ _ _, executed_eq_words_iff _ _ _ _,
    claimsWhole_iff _ _ _⟩

/-- One byte after a PTT command is executed as another one, and one byte is
enough to claim a slot after a connection that asked for slot 2. -/
theorem not_wholeWords_fragment :
    (txCtrlHandler 0 [0x01, 0x00, 0x00, 0x30, 0x00]).1 ≠
        words [0x01, 0x00, 0x00, 0x30, 0x00] ∧
      (rxCtrlHandler 0 [0x01, 0x00, 0x00, 0x20, 0x02]).1 ≠
        words [0x01, 0x00, 0x00, 0x20, 0x02] ∧
      claimedSlot (fun _ => none) 2 [0x03] = some 3 := by
  refine ⟨?_, ?_, by decide⟩
  · rw [txCtrlHandler, Ne, executed_eq_words_iff]
    decide
  · rw [rxCtrlHandler, Ne, executed_eq_words_iff]
    decide

end RedPitayaNotes.SdrTransceiverWide
