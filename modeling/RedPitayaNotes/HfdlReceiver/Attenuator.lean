import Mathlib.Data.List.Chain
import RedPitayaNotes.HfdlReceiver.Moves
import RedPitayaNotes.Support.ThreeWire

/-!
# The attenuator of the HFDL receiver

The main loop raises the attenuation while the ADC overflows and lowers it
while it does not, one step at a time.  `set_att_value` of `peri.c` shifts each
value into a serial attenuator of six bits over three pins.
-/

namespace RedPitayaNotes.HfdlReceiver

open ThreeWire

/-! ## `peri.c` -/

/-- The `==` of the condition binds tighter than the `&`. -/
def attBit (attVal : BitVec 8) (loopCnt : ℕ) : Bool :=
  (attVal >>> (5 - loopCnt)) &&& (if (0x01 : ℕ) = 0x01 then 1#8 else 0#8) ≠ 0#8

/-- The calls of `digitalWrite` by `set_att_value`. -/
def setAttValue (attVal : BitVec 8) : List (Pin × Bool) :=
  [(.clk, false), (.le, false)] ++
    (List.range 6).flatMap (fun loopCnt =>
      [(.data, attBit attVal loopCnt), (.clk, true), (.clk, false)]) ++
    [(.le, true)]

theorem setAttValue_eq (attVal : BitVec 8) :
    setAttValue attVal = send ((List.range 6).map (attBit attVal)) := by
  rw [send, List.flatMap_map]
  rfl

theorem attBit_eq (attVal : BitVec 8) (loopCnt : ℕ) :
    attBit attVal loopCnt = (attVal.setWidth 6).getLsbD (5 - loopCnt) := by
  unfold attBit
  rw [if_pos rfl, BitVec.and_one_eq_setWidth_ofBool_getLsbD,
    BitVec.getLsbD_ushiftRight, Nat.add_zero, BitVec.getLsbD_setWidth,
    decide_eq_true (show 5 - loopCnt < 6 by omega), Bool.true_and]
  cases attVal.getLsbD (5 - loopCnt) <;> rfl

/-- The attenuator shows the low six bits of the value, and until it does it
shows what it showed. -/
theorem output_setAttValue (d : Device 6) (attVal : BitVec 8) :
    (∀ ws, ws <+: setAttValue attVal → ws ≠ setAttValue attVal →
      (d.writes ws).output = d.output) ∧
    (d.writes (setAttValue attVal)).output = attVal.setWidth 6 := by
  rw [setAttValue_eq]
  obtain ⟨hbefore, hafter⟩ := d.output_send ((List.range 6).map (attBit attVal))
  refine ⟨hbefore, hafter.trans (Device.foldl_shiftIn_eq (by simp) ?_)⟩
  intro j hj
  have hj : j < 6 := by simpa using hj
  rw [List.getElem_map, List.getElem_range, attBit_eq attVal j]

/-! ## The control of the attenuation -/

namespace AttSetting

/-- A setting that follows another one. -/
def Follows (x y : AttSetting) : Prop :=
  if y.ovf then y.time - x.stamp > 2 ∧ y.att = x.att + 1
  else y.time - x.stamp > 5 ∧ y.att + 1 = x.att

/-- All that the settings write to the pins. -/
def pins (settings : List AttSetting) : List (Pin × Bool) :=
  settings.flatMap fun x => setAttValue (BitVec.ofNat 8 x.att)

end AttSetting

namespace Server

open AttSetting

variable {getPhase : BitVec 32 → BitVec 32} {s s' : Server}

/-- The settings so far, the last of which is in force. -/
structure Attenuated (time : ℤ) (s : Server) : Prop where
  first : s.settings.head? = some ⟨false, time, time, 32⟩
  follows : s.settings.IsChain Follows
  le : ∀ x ∈ s.settings, x.att ≤ 63
  last : ∃ x, s.settings.getLast? = some x ∧ x.att = s.att ∧
    x.stamp = s.lastatt

theorem attenuated_start (malloc : ℕ → ℕ → Bits.Byte)
    (rxFreq : ℕ → BitVec 32) (time : ℤ) :
    (start malloc rxFreq time).Attenuated time where
  first := rfl
  follows := List.isChain_singleton _
  le := by simp [start]
  last := ⟨_, rfl, rfl, rfl⟩

theorem Attenuated.setAtt {time : ℤ} (h : s.Attenuated time) {t : Turn}
    {att : ℕ} (hatt : att ≤ 63)
    (hfollows : ∀ x : AttSetting, x.att = s.att → x.stamp = s.lastatt →
      Follows x ⟨ovf t, t.time, t.stamp, att⟩) :
    (s.setAtt t att).Attenuated time where
  first := by
    have hfirst := h.first
    change (s.settings ++ _).head? = _
    rw [List.head?_append, hfirst]
    rfl
  follows := by
    refine h.follows.append (List.isChain_singleton _) ?_
    intro x hx y hy
    obtain ⟨z, hz, hzatt, hzstamp⟩ := h.last
    obtain rfl := Option.some.inj (hz.symm.trans hx)
    obtain rfl := Option.some.inj hy
    exact hfollows z hzatt hzstamp
  le := by
    change ∀ x ∈ s.settings ++ _, x.att ≤ 63
    rw [List.forall_mem_append]
    exact ⟨h.le, by simpa using hatt⟩
  last := ⟨_, List.getLast?_concat, rfl, rfl⟩

theorem Attenuated.move {time : ℤ} (h : s.Attenuated time)
    (hmove : Move getPhase s s') : s'.Attenuated time := by
  cases hmove with
  | adjust t =>
      obtain ⟨z, hz, hzatt, -⟩ := h.last
      have hle : s.att ≤ 63 := hzatt ▸ h.le z (List.mem_of_getLast? hz)
      rcases s.adjustAtt_cases t with heq | ⟨hovf, htime, hatt, heq⟩ |
        ⟨hovf, htime, hatt, heq⟩ <;> rw [heq]
      · exact h
      · refine h.setAtt (by omega) fun x hxatt hxstamp => ?_
        rw [Follows, if_pos hovf, hxatt, hxstamp]
        exact ⟨htime, rfl⟩
      · refine h.setAtt (by omega) fun x hxatt hxstamp => ?_
        rw [Follows, if_neg (by simp [hovf]), hxatt, hxstamp]
        exact ⟨htime, Nat.sub_add_cancel hatt⟩
  | frame now next maintenanceId flushId visits flushes =>
      exact ⟨h.1, h.2, h.3, h.4⟩
  | connect id fd now hid hfree => exact ⟨h.1, h.2, h.3, h.4⟩
  | refuse fd => exact ⟨h.1, h.2, h.3, h.4⟩
  | read id fd hfd => exact ⟨h.1, h.2, h.3, h.4⟩
  | tune id freq hid => exact ⟨h.1, h.2, h.3, h.4⟩
  | close id fd hid hfd => exact ⟨h.1, h.2, h.3, h.4⟩
  | chunk clients buffer hclients => exact ⟨h.1, h.2, h.3, h.4⟩
  | flush id fd c bytesWritten send now hid hfd hflush =>
      exact ⟨h.1, h.2, h.3, h.4⟩

end Server

/-- What the attenuator shows after any of the writes of a list of settings. -/
theorem output_pins (d : Device 6) (before : List AttSetting) (x : AttSetting)
    (hx : x.att ≤ 63) :
    (∀ ws, ws <+: setAttValue (BitVec.ofNat 8 x.att) →
      ws ≠ setAttValue (BitVec.ofNat 8 x.att) →
      (d.writes (AttSetting.pins before ++ ws)).output =
        (d.writes (AttSetting.pins before)).output) ∧
    (d.writes (AttSetting.pins (before ++ [x]))).output.toNat = x.att := by
  obtain ⟨hkeep, hshow⟩ := output_setAttValue
    (d.writes (AttSetting.pins before)) (BitVec.ofNat 8 x.att)
  constructor
  · intro ws hpast hne
    rw [Device.writes_append]
    exact hkeep ws hpast hne
  · have hpins : AttSetting.pins (before ++ [x]) =
        AttSetting.pins before ++ setAttValue (BitVec.ofNat 8 x.att) := by
      simp [AttSetting.pins]
    rw [hpins, Device.writes_append, hshow, BitVec.toNat_setWidth,
      BitVec.toNat_ofNat]
    omega

/-- In every run the attenuation starts at 32 and stays within six bits.  It
goes up by one on an overflow, more than two seconds after it was set, and down
by one without, more than five seconds after.  The attenuator shows the settings
in order and nothing else, whatever its pins were at first. -/
theorem attenuation_steps (getPhase : BitVec 32 → BitVec 32)
    (malloc : ℕ → ℕ → Bits.Byte) (rxFreq : ℕ → BitVec 32) (time : ℤ)
    (ts : List Turn) (d : Device 6) :
    ∃ s, (Server.start malloc rxFreq time).run getPhase ts = some s ∧
      s.settings.head? = some ⟨false, time, time, 32⟩ ∧
      s.settings.IsChain AttSetting.Follows ∧
      (∀ before x after, s.settings = before ++ x :: after →
        x.att ≤ 63 ∧
        (∀ ws, ws <+: setAttValue (BitVec.ofNat 8 x.att) →
          ws ≠ setAttValue (BitVec.ofNat 8 x.att) →
          (d.writes (AttSetting.pins before ++ ws)).output =
            (d.writes (AttSetting.pins before)).output) ∧
        (d.writes (AttSetting.pins (before ++ [x]))).output.toNat = x.att) ∧
      (d.writes (AttSetting.pins s.settings)).output.toNat = s.att := by
  have hstart := Server.ready_start malloc rxFreq time
  obtain ⟨s, hrun, hmoves⟩ := hstart.run_moves getPhase ts
  have h : s.Attenuated time := hstart.moves_induction
    (fun _ _ _ hmove h => h.move hmove) hmoves
    (Server.attenuated_start malloc rxFreq time)
  refine ⟨s, hrun, h.first, h.follows, ?_, ?_⟩
  · intro before x after heq
    have hx : x.att ≤ 63 := h.le x (by simp [heq])
    exact ⟨hx, output_pins d before x hx⟩
  · obtain ⟨x, hlast, hatt, -⟩ := h.last
    obtain ⟨before, heq⟩ := List.getLast?_eq_some_iff.mp hlast
    rw [heq, ← hatt]
    exact (output_pins d before x (h.le x (by simp [heq]))).2

/-- The ADC overflows at 3, 5 and 6 seconds and no more at 12 seconds. -/
def overflowTurns : List Turn :=
  [{ idleTurn 1 none with wrCntr := 1, time := 3, stamp := 3 },
    { idleTurn 1 none with wrCntr := 1, time := 5, stamp := 5 },
    { idleTurn 1 none with wrCntr := 1, time := 6, stamp := 6 },
    { idleTurn 1 none with time := 12, stamp := 12 }]

theorem overflowTurns_settings :
    ((Server.start (fun _ _ => 0) (fun _ => 0) 0).run id overflowTurns).map
        (fun s => (s.settings, s.att)) =
      some ([⟨false, 0, 0, 32⟩, ⟨true, 3, 3, 33⟩, ⟨true, 6, 6, 34⟩,
        ⟨false, 12, 12, 33⟩], 33) := by
  decide +kernel

theorem attenuation_steps_overflow :
    ∃ s, (Server.start (fun _ _ => 0) (fun _ => 0) 0).run id overflowTurns =
        some s ∧
      s.settings = [⟨false, 0, 0, 32⟩, ⟨true, 3, 3, 33⟩, ⟨true, 6, 6, 34⟩,
        ⟨false, 12, 12, 33⟩] ∧
      ((⟨false, false, false, 0, 0⟩ : Device 6).writes
        (AttSetting.pins s.settings)).output.toNat = 33 := by
  obtain ⟨s, hrun, -, -, -, hshown⟩ := attenuation_steps id (fun _ _ => 0)
    (fun _ => 0) 0 overflowTurns ⟨false, false, false, 0, 0⟩
  have hsettings := overflowTurns_settings
  rw [hrun, Option.map_some, Option.some_inj] at hsettings
  obtain ⟨hall, hatt⟩ := Prod.mk.inj hsettings
  exact ⟨s, hrun, hall, hshown.trans hatt⟩

end RedPitayaNotes.HfdlReceiver
