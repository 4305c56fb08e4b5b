import RedPitayaNotes.Cores.AxisI2s.Model

/-!
# The bus of the axis_i2s core

A bus signal is a list of periods of `bclk`, each a low level and a high level of
at least four cycles; `lrclk` and the data change with the falling edge.  The
registers on the lines pass each edge on in the third cycle of its level, and the
other cycles change neither the receiver nor the transmitter.
-/

namespace RedPitayaNotes.AxisI2s

open Bits Clocked

/-- The cycles of one level. -/
def level (pins : Pins) (ports : List Ports) : List Input :=
  ports.map fun i => ⟨false, pins, i⟩

/-- A period of `bclk`, from one falling edge to the next. -/
structure Period where
  adcData : Bool
  lows : List Ports
  highs : List Ports
  lows_le : 4 ≤ lows.length
  highs_le : 4 ≤ highs.length

def Period.inputs (lrclk : Bool) (q : Period) : List Input :=
  level ⟨false, lrclk, q.adcData⟩ q.lows ++ level ⟨true, lrclk, q.adcData⟩ q.highs

/-- The periods between two edges of `lrclk`. -/
structure Half where
  periods : List Period
  periods_le : 16 ≤ periods.length

namespace Half

variable (h : Half)

def inputs (lrclk : Bool) : List Input := h.periods.flatMap (Period.inputs lrclk)

def bits : List Bool := h.periods.map Period.adcData

theorem length_bits : 16 ≤ h.bits.length := by
  rw [bits, List.length_map]
  exact h.periods_le

end Half

/-- A low and a high half. -/
structure Frame where
  left : Half
  right : Half

def Frame.inputs (f : Frame) : List Input := f.left.inputs false ++ f.right.inputs true

/-- The bits of a word among those since the turn of `lrclk`: it starts one
period after the turn. -/
def wordBits (bits : List Bool) : List Bool := (bits.drop 1).take 16

/-- The word, most significant bit first. -/
def wordOf (bits : List Bool) : BitVec 16 :=
  (BitVec.ofBoolListBE (wordBits bits)).setWidth 16

theorem length_wordBits (bits : List Bool) :
    (wordBits bits).length = min (bits.length - 1) 16 := by
  rw [wordBits, List.length_take, List.length_drop]
  exact Nat.min_comm _ _

theorem getLsbD_wordOf {bits : List Bool} (h : 17 ≤ bits.length) {k : ℕ} (hk : k < 16) :
    (wordOf bits).getLsbD k = bits.getD (16 - k) false := by
  have hlength : (wordBits bits).length = 16 := by
    rw [length_wordBits]
    omega
  rw [wordOf, BitVec.getLsbD_setWidth, BitVec.getLsbD_ofBoolListBE, hlength,
    decide_eq_true hk, Bool.true_and, Bool.true_and]
  unfold wordBits
  rw [List.getD_eq_getElem?_getD, List.getD_eq_getElem?_getD,
    List.getElem?_take_of_lt (by omega), List.getElem?_drop]
  congr 2
  omega

/-! ## The registers on the lines -/

/-- The registers when the lines have not changed for three cycles. -/
def settled (pins : Pins) : Sync where
  intBclkReg := if pins.bclk then 7 else 0
  intLrclkReg := if pins.lrclk then 7 else 0
  intDataReg := if pins.adcData then 3 else 0

/-- The registers in the third cycle of a level. -/
def turning (before pins : Pins) : Sync := ((settled before).next pins).next pins

theorem shiftIn_three (v : BitVec 3) (b : Bool) :
    shiftIn (shiftIn (shiftIn v b) b) b = if b then 7 else 0 := by
  revert v b
  decide

theorem shiftIn_two (v : BitVec 2) (b : Bool) :
    shiftIn (shiftIn (shiftIn v b) b) b = if b then 3 else 0 := by
  revert v b
  decide

theorem next_three (r : Sync) (pins : Pins) :
    ((r.next pins).next pins).next pins = settled pins := by
  unfold Sync.next settled
  dsimp only
  rw [shiftIn_three, shiftIn_three, shiftIn_two]

/-- No edge is seen. -/
structure Quiet (r : Sync) : Prop where
  posedge : r.intBclkPosedge = false
  negedge : r.intBclkNegedge = false
  lrclk : r.lrclkEdge = false
  lrclkNegedge : r.intLrclkNegedge = false

theorem quiet_settled (pins : Pins) : Quiet (settled pins) := by
  obtain ⟨b, l, d⟩ := pins
  refine ⟨?_, ?_, ?_, ?_⟩ <;> decide +revert

theorem settled_next (pins : Pins) : (settled pins).next pins = settled pins := by
  obtain ⟨b, l, d⟩ := pins
  decide +revert

theorem quiet_next (before pins : Pins) : Quiet ((settled before).next pins) := by
  obtain ⟨b, l, d⟩ := before
  obtain ⟨b', l', d'⟩ := pins
  refine ⟨?_, ?_, ?_, ?_⟩ <;> decide +revert

theorem settled_bclk (pins : Pins) : (settled pins).intBclkReg.getLsbD 0 = pins.bclk := by
  obtain ⟨b, l, d⟩ := pins
  decide +revert

theorem next_bclk (r : Sync) (pins : Pins) :
    (r.next pins).intBclkReg.getLsbD 0 = pins.bclk :=
  getLsbD_shiftIn r.intBclkReg pins.bclk (by decide)

theorem Adc.next_of_quiet {r : Sync} (h : Quiet r) (a : Adc) : a.next r = a := by
  have hcase : (a.next r).adcCaseReg = a.adcCaseReg := by
    unfold Adc.next
    dsimp only
    rw [h.lrclk, h.posedge]
    split
    next hc => rw [hc]; rfl
    next hc => rw [hc]; rfl
    next hc => rw [hc]; rfl
    next => rfl
  have hshifts : a.shifts r = false := by rw [Adc.shifts, h.posedge]; rfl
  have hloads : a.loads r = false := by rw [Adc.loads, h.posedge]; rfl
  obtain ⟨c, n, d, t⟩ := a
  unfold Adc.next at hcase ⊢
  rw [Adc.mk.injEq]
  refine ⟨hcase, ?_, ?_, ?_⟩
  · rw [hshifts, h.posedge]
    rfl
  · rw [hshifts]
    rfl
  · rw [hloads]
    rfl

theorem Dac.next_of_quiet {r : Sync} (h : Quiet r) (d : Dac) (i : Ports) :
    d.next r i = d := by
  have hcase : (d.next r i).dacCaseReg = d.dacCaseReg := by
    unfold Dac.next
    dsimp only
    rw [h.lrclk, h.posedge, h.negedge]
    split
    next hc => rw [hc]; rfl
    next hc => rw [hc]; rfl
    next hc => rw [hc]; rfl
    next => rfl
  obtain ⟨c, x, t⟩ := d
  unfold Dac.next at hcase ⊢
  rw [Dac.mk.injEq]
  refine ⟨hcase, ?_, ?_⟩
  · rw [h.negedge]
    rfl
  · rw [h.lrclkNegedge]
    rfl

/-! ## One level -/

/-- What some cycles do, from a state in which the lines have settled to one in
which they have again. -/
structure Effect (s : State) (inputs : List Input) (pins : Pins) (adc : Adc) (dac : Dac)
    (words : List (Bool × BitVec 32)) (fetches : List (Option (BitVec 32)))
    (bits : List Bool) : Prop where
  sync : (run next s inputs).sync = settled pins
  adc : (run next s inputs).adc = adc
  dac : (run next s inputs).dac = dac
  captured : (trace next s inputs).flatMap captured = words
  fetched : (trace next s inputs).flatMap fetched = fetches
  sent : (trace next s inputs).flatMap sent = bits

theorem Effect.append {s : State} {xs ys : List Input} {pins pins' : Pins}
    {adc adc' : Adc} {dac dac' : Dac} {words words' : List (Bool × BitVec 32)}
    {fetches fetches' : List (Option (BitVec 32))} {bits bits' : List Bool}
    (h : Effect s xs pins adc dac words fetches bits)
    (h' : Effect (run next s xs) ys pins' adc' dac' words' fetches' bits') :
    Effect s (xs ++ ys) pins' adc' dac' (words ++ words') (fetches ++ fetches')
      (bits ++ bits') := by
  refine ⟨?_, ?_, ?_, ?_, ?_, ?_⟩
  · rw [run_append, h'.sync]
  · rw [run_append, h'.adc]
  · rw [run_append, h'.dac]
  · rw [trace_append, List.flatMap_append, h.captured, h'.captured]
  · rw [trace_append, List.flatMap_append, h.fetched, h'.fetched]
  · rw [trace_append, List.flatMap_append, h.sent, h'.sent]

theorem Effect.cons {s s' : State} {i : Input} {inputs : List Input} {pins : Pins}
    {adc : Adc} {dac : Dac} {words : List (Bool × BitVec 32)}
    {fetches : List (Option (BitVec 32))} {bits : List Bool} (hnext : next s i = s')
    (h : Effect s' inputs pins adc dac words fetches bits) :
    Effect s (i :: inputs) pins adc dac (AxisI2s.captured ⟨s, i⟩ ++ words)
      (AxisI2s.fetched ⟨s, i⟩ ++ fetches) (AxisI2s.sent ⟨s, i⟩ ++ bits) := by
  subst hnext
  refine ⟨h.sync, h.adc, h.dac, ?_, ?_, ?_⟩
  · rw [trace_cons, List.flatMap_cons, h.captured]
  · rw [trace_cons, List.flatMap_cons, h.fetched]
  · rw [trace_cons, List.flatMap_cons, h.sent]

section Levels

variable {s : State} {pins before : Pins}

theorem captured_of_quiet (h : Quiet s.sync) (i : Input) : captured ⟨s, i⟩ = [] := by
  rw [captured, Adc.loads, h.posedge]
  rfl

theorem fetched_of_quiet (h : Quiet s.sync) (i : Input) : fetched ⟨s, i⟩ = [] := by
  rw [fetched, sAxisTready, h.lrclkNegedge]
  rfl

theorem next_of_quiet (h : Quiet s.sync) (i : Input) :
    (next s i).sync = s.sync.next i.pins ∧ (next s i).adc = s.adc ∧
      (next s i).dac = s.dac :=
  ⟨rfl, Adc.next_of_quiet h s.adc, Dac.next_of_quiet h s.dac i.ports⟩

theorem sent_eq (s : State) (pins : Pins) (i : Ports) :
    sent ⟨s, ⟨false, pins, i⟩⟩ =
      if pins.bclk && !s.sync.intBclkReg.getLsbD 0 then [s.dac.i2sDacData] else [] := rfl

/-- The line had its level in the cycle before. -/
theorem sent_of_level (h : s.sync.intBclkReg.getLsbD 0 = pins.bclk) (i : Ports) :
    sent ⟨s, ⟨false, pins, i⟩⟩ = [] := by
  rw [sent_eq, h, Bool.and_not_self]
  rfl

/-- While the lines do not change, nothing else does. -/
theorem effect_settled (h : s.sync = settled pins) (ports : List Ports) :
    Effect s (level pins ports) pins s.adc s.dac [] [] [] := by
  induction ports generalizing s with
  | nil => exact ⟨h, rfl, rfl, rfl, rfl, rfl⟩
  | cons i ports ih =>
      have hquiet : Quiet s.sync := by
        rw [h]
        exact quiet_settled pins
      obtain ⟨hsync, hadc, hdac⟩ := next_of_quiet hquiet ⟨false, pins, i⟩
      have hsent : sent ⟨s, ⟨false, pins, i⟩⟩ = [] := by
        apply sent_of_level
        rw [h]
        exact settled_bclk pins
      have hrest := ih (s := next s ⟨false, pins, i⟩) (by
        rw [hsync, h]
        exact settled_next pins)
      have hall := hrest.cons rfl
      rw [hadc, hdac, captured_of_quiet hquiet, fetched_of_quiet hquiet, hsent] at hall
      exact hall

/-- The word that the receiver loads with the registers `r`. -/
def captures (a : Adc) (r : Sync) : List (Bool × BitVec 32) :=
  if a.loads r then [(r.intLrclkReg.getLsbD 1, a.word)] else []

/-- The word that the transmitter fetches with the registers `r`. -/
def fetches (r : Sync) (i : Ports) : List (Option (BitVec 32)) :=
  if r.intLrclkNegedge then [i.offer] else []

/-- The third cycle of a level and those after it. -/
theorem effect_turning (h : s.sync = turning before pins) (k : Ports)
    (ports : List Ports) :
    Effect s (level pins (k :: ports)) pins (s.adc.next (turning before pins))
      (s.dac.next (turning before pins) k) (captures s.adc (turning before pins))
      (fetches (turning before pins) k) [] := by
  have hsettled : (next s ⟨false, pins, k⟩).sync = settled pins := by
    change s.sync.next pins = _
    rw [h]
    exact next_three (settled before) pins
  have hadc : (next s ⟨false, pins, k⟩).adc = s.adc.next (turning before pins) := by
    rw [← h]
    rfl
  have hdac : (next s ⟨false, pins, k⟩).dac = s.dac.next (turning before pins) k := by
    rw [← h]
    rfl
  have hcaptured : captured ⟨s, ⟨false, pins, k⟩⟩ =
      captures s.adc (turning before pins) := by
    rw [captured, captures, h]
  have hfetched : fetched ⟨s, ⟨false, pins, k⟩⟩ = fetches (turning before pins) k := by
    rw [fetched, sAxisTready, fetches, h]
  have hsent : sent ⟨s, ⟨false, pins, k⟩⟩ = [] := by
    apply sent_of_level
    rw [h]
    exact next_bclk _ pins
  have hall := (effect_settled hsettled ports).cons rfl
  rw [hadc, hdac, hcaptured, hfetched, hsent, List.append_nil, List.append_nil,
    List.append_nil] at hall
  exact hall

/-- The edge between two levels acts in the third cycle, and a rising one finds
the data line as it was before. -/
theorem effect_level (h : s.sync = settled before) (hbclk : before.bclk = !pins.bclk)
    (i j k : Ports) (ports : List Ports) :
    Effect s (level pins (i :: j :: k :: ports)) pins (s.adc.next (turning before pins))
      (s.dac.next (turning before pins) k) (captures s.adc (turning before pins))
      (fetches (turning before pins) k)
      (if pins.bclk then [s.dac.i2sDacData] else []) := by
  have hquiet : Quiet s.sync := by
    rw [h]
    exact quiet_settled before
  obtain ⟨hsync, hadc, hdac⟩ := next_of_quiet hquiet ⟨false, pins, i⟩
  have hsent : sent ⟨s, ⟨false, pins, i⟩⟩ =
      if pins.bclk then [s.dac.i2sDacData] else [] := by
    rw [sent_eq, h, settled_bclk, hbclk, Bool.not_not, Bool.and_self]
  generalize hsecond : next s ⟨false, pins, i⟩ = s₂ at hsync hadc hdac
  have hquiet' : Quiet s₂.sync := by
    rw [hsync, h]
    exact quiet_next before pins
  obtain ⟨hsync', hadc', hdac'⟩ := next_of_quiet hquiet' ⟨false, pins, j⟩
  have hsent' : sent ⟨s₂, ⟨false, pins, j⟩⟩ = [] := by
    apply sent_of_level
    rw [hsync]
    exact next_bclk s.sync pins
  generalize hthird : next s₂ ⟨false, pins, j⟩ = s₃ at hsync' hadc' hdac'
  have hturning : s₃.sync = turning before pins := by
    rw [hsync', hsync, h]
    rfl
  have hall := ((effect_turning hturning k ports).cons hthird).cons hsecond
  rw [captured_of_quiet hquiet, captured_of_quiet hquiet', fetched_of_quiet hquiet,
    fetched_of_quiet hquiet', hsent, hsent', hadc', hadc, hdac', hdac, List.append_nil,
    List.append_nil] at hall
  exact hall

theorem sync_level (s : State) (pins : Pins) (i j k : Ports) (ports : List Ports) :
    (run next s (level pins (i :: j :: k :: ports))).sync = settled pins := by
  have hsettled : (next (next (next s ⟨false, pins, i⟩) ⟨false, pins, j⟩)
      ⟨false, pins, k⟩).sync = settled pins := next_three s.sync pins
  exact (effect_settled hsettled ports).sync

end Levels

/-! ## One period -/

namespace Adc

variable (a : Adc)

/-- A falling edge of `bclk`, which may turn `lrclk`. -/
def fall (turn : Bool) : Adc :=
  { a with adcCaseReg := if a.adcCaseReg == 0 && turn then 1 else a.adcCaseReg }

/-- A rising edge of `bclk`. -/
def rise (adcData : Bool) : Adc where
  adcCaseReg := if a.adcCaseReg == 1 then 2 else if a.adcCaseReg == 2 then 0 else a.adcCaseReg
  adcCntrReg :=
    if a.adcCaseReg == 1 then 0
    else if a.adcCntrReg < 16 then a.adcCntrReg + 1
    else a.adcCntrReg
  adcDataReg := if a.adcCntrReg < 16 then shiftIn a.adcDataReg adcData else a.adcDataReg
  adcTdataReg := if a.adcCaseReg == 2 then a.word else a.adcTdataReg

end Adc

namespace Dac

variable (d : Dac)

/-- A falling edge of `bclk`, with the levels of `lrclk` before and after it. -/
def fall (l l' : Bool) (offer : Option (BitVec 32)) : Dac where
  dacCaseReg :=
    if d.dacCaseReg == 0 && (l ^^ l') then 1
    else if d.dacCaseReg == 2 then 0
    else d.dacCaseReg
  dacDataReg := if d.dacCaseReg == 2 then d.channel l' else shiftIn d.dacDataReg false
  dacTdataReg := if l && !l' then offer.getD 0 else d.dacTdataReg

/-- A rising edge of `bclk`. -/
def rise : Dac := { d with dacCaseReg := if d.dacCaseReg == 1 then 2 else d.dacCaseReg }

end Dac

/-- What the registers on the lines show of an edge. -/
structure Shows (r : Sync) (posedge negedge turn : Bool) (l d : Bool) : Prop where
  posedge : r.intBclkPosedge = posedge
  negedge : r.intBclkNegedge = negedge
  edge : r.lrclkEdge = turn
  lrclk : r.intLrclkReg.getLsbD 1 = l
  data : r.intDataReg.getLsbD 1 = d

theorem shows_falling (l d l' d' : Bool) :
    Shows (turning ⟨true, l, d⟩ ⟨false, l', d'⟩) false true (l ^^ l') l' d' := by
  refine ⟨?_, ?_, ?_, ?_, ?_⟩ <;> decide +revert

theorem shows_rising (l d : Bool) :
    Shows (turning ⟨false, l, d⟩ ⟨true, l, d⟩) true false false l d := by
  refine ⟨?_, ?_, ?_, ?_, ?_⟩ <;> decide +revert

theorem Shows.lrclkNegedge {r : Sync} {posedge negedge turn l d : Bool}
    (h : Shows r posedge negedge turn l d) : r.intLrclkNegedge = (turn && !l) := by
  rw [← h.edge, ← h.lrclk, Sync.intLrclkNegedge, Sync.lrclkEdge]
  cases r.intLrclkReg.getLsbD 1 <;> cases r.intLrclkReg.getLsbD 2 <;> rfl

section Edges

variable {r : Sync} {turn l d : Bool}

theorem Adc.next_falling (h : Shows r false true turn l d) (a : Adc) :
    a.next r = a.fall turn := by
  have hcase : (a.next r).adcCaseReg = (a.fall turn).adcCaseReg := by
    unfold Adc.next Adc.fall
    dsimp only
    rw [h.posedge, h.edge]
    generalize a.adcCaseReg = c
    clear h
    revert c turn
    decide
  have hshifts : a.shifts r = false := by rw [Adc.shifts, h.posedge]; rfl
  have hloads : a.loads r = false := by rw [Adc.loads, h.posedge]; rfl
  unfold Adc.next Adc.fall at hcase ⊢
  rw [Adc.mk.injEq]
  refine ⟨hcase, ?_, ?_, ?_⟩
  · rw [hshifts, h.posedge]
    rfl
  · rw [hshifts]
    rfl
  · rw [hloads]
    rfl

theorem Adc.next_rising (h : Shows r true false false l d) (a : Adc) :
    a.next r = a.rise d := by
  have hcase : (a.next r).adcCaseReg = (a.rise d).adcCaseReg := by
    unfold Adc.next Adc.rise
    dsimp only
    rw [h.posedge, h.edge]
    generalize a.adcCaseReg = c
    revert c
    decide
  have hshifts : a.shifts r = decide (a.adcCntrReg < 16) := by
    rw [Adc.shifts, h.posedge, Bool.true_and]
  have hloads : a.loads r = (a.adcCaseReg == 2) := by
    rw [Adc.loads, h.posedge, Bool.true_and]
  unfold Adc.next Adc.rise at hcase ⊢
  rw [Adc.mk.injEq]
  refine ⟨hcase, ?_, ?_, ?_⟩
  · rw [hshifts, h.posedge, Bool.true_and]
    simp only [decide_eq_true_eq]
  · rw [hshifts, h.data]
    simp only [decide_eq_true_eq]
  · rw [hloads]

theorem Dac.next_falling {l' : Bool} (h : Shows r false true (l ^^ l') l' d) (x : Dac)
    (i : Ports) : x.next r i = x.fall l l' i.offer := by
  have hcase : (x.next r i).dacCaseReg = (x.fall l l' i.offer).dacCaseReg := by
    unfold Dac.next Dac.fall
    dsimp only
    rw [h.posedge, h.negedge, h.edge]
    generalize x.dacCaseReg = c
    clear h
    revert c l l'
    decide
  have hnegedge : r.intLrclkNegedge = (l && !l') := by
    rw [h.lrclkNegedge]
    cases l <;> cases l' <;> rfl
  unfold Dac.next Dac.fall at hcase ⊢
  rw [Dac.mk.injEq]
  refine ⟨hcase, ?_, ?_⟩
  · rw [h.negedge, h.lrclk, Bool.true_and]
    rfl
  · rw [hnegedge, Ports.offer]
    cases i.sAxisTvalid <;> rfl

theorem Dac.next_rising (h : Shows r true false false l d) (x : Dac) (i : Ports) :
    x.next r i = x.rise := by
  have hcase : (x.next r i).dacCaseReg = x.rise.dacCaseReg := by
    unfold Dac.next Dac.rise
    dsimp only
    rw [h.posedge, h.negedge, h.edge]
    generalize x.dacCaseReg = c
    revert c
    decide
  unfold Dac.next Dac.rise at hcase ⊢
  rw [Dac.mk.injEq]
  refine ⟨hcase, ?_, ?_⟩
  · rw [h.negedge]
    rfl
  · rw [h.lrclkNegedge]
    rfl

end Edges

/-- The ports in the cycle in which the falling edge is seen. -/
def Period.turnPorts (q : Period) : Ports :=
  q.lows.get ⟨2, Nat.lt_of_lt_of_le (by decide) q.lows_le⟩

/-- The word that a period loads into the output register. -/
def Adc.words (a : Adc) (turn l : Bool) : List (Bool × BitVec 32) :=
  if (a.fall turn).adcCaseReg == 2 then [(l, a.word)] else []

theorem exists_level {ports : List Ports} (h : 4 ≤ ports.length) :
    ∃ i j k rest, ports = i :: j :: k :: rest := by
  match ports, h with
  | i :: j :: k :: rest, _ => exact ⟨i, j, k, rest, rfl⟩

theorem effect_period {s : State} {l d : Bool} (h : s.sync = settled ⟨true, l, d⟩)
    (l' : Bool) (q : Period) :
    Effect s (q.inputs l') ⟨true, l', q.adcData⟩
      ((s.adc.fall (l ^^ l')).rise q.adcData)
      (s.dac.fall l l' q.turnPorts.offer).rise
      (s.adc.words (l ^^ l') l')
      (if l && !l' then [q.turnPorts.offer] else [])
      [(s.dac.fall l l' q.turnPorts.offer).i2sDacData] := by
  obtain ⟨d', lows, highs, hlows, hhighs⟩ := q
  obtain ⟨i, j, k, lows, rfl⟩ := exists_level hlows
  obtain ⟨i', j', k', highs, rfl⟩ := exists_level hhighs
  have hlow := @effect_level s ⟨false, l', d'⟩ _ h rfl i j k lows
  have hhigh := @effect_level _ ⟨true, l', d'⟩ _ hlow.sync rfl i' j' k' highs
  have hfalling := shows_falling l d l' d'
  have hrising := shows_rising l' d'
  have hnone : captures s.adc (turning ⟨true, l, d⟩ ⟨false, l', d'⟩) = [] := by
    rw [captures, Adc.loads, hfalling.posedge]
    rfl
  have hwords : captures (s.adc.fall (l ^^ l')) (turning ⟨false, l', d'⟩ ⟨true, l', d'⟩) =
      s.adc.words (l ^^ l') l' := by
    rw [captures, Adc.loads, hrising.posedge, hrising.lrclk, Bool.true_and]
    rfl
  have hfetch : fetches (turning ⟨true, l, d⟩ ⟨false, l', d'⟩) k =
      if l && !l' then [k.offer] else [] := by
    rw [fetches, hfalling.lrclkNegedge]
    cases l <;> cases l' <;> rfl
  have hnofetch : fetches (turning ⟨false, l', d'⟩ ⟨true, l', d'⟩) k' = [] := by
    rw [fetches, hrising.lrclkNegedge]
    rfl
  rw [hlow.adc, hlow.dac] at hhigh
  have hboth := hlow.append hhigh
  rw [Adc.next_falling hfalling, Adc.next_rising hrising, Dac.next_falling hfalling,
    Dac.next_rising hrising, hnone, hwords, hfetch, hnofetch, List.nil_append,
    List.append_nil] at hboth
  exact hboth

/-! ## Some periods -/

/-- The receiver after some periods, of which the first may turn `lrclk`. -/
def Adc.after (a : Adc) : Bool → List Bool → Adc
  | _, [] => a
  | turn, d :: bits => ((a.fall turn).rise d).after false bits

/-- The words loaded in them. -/
def Adc.allWords (a : Adc) (l : Bool) : Bool → List Bool → List (Bool × BitVec 32)
  | _, [] => []
  | turn, d :: bits => a.words turn l ++ ((a.fall turn).rise d).allWords l false bits

/-- The transmitter after `n` periods without a turn. -/
def Dac.after (x : Dac) (l : Bool) : ℕ → Dac
  | 0 => x
  | n + 1 => (x.fall l l none).rise.after l n

/-- The bits sent in them. -/
def Dac.allBits (x : Dac) (l : Bool) : ℕ → List Bool
  | 0 => []
  | n + 1 => (x.fall l l none).i2sDacData :: (x.fall l l none).rise.allBits l n

theorem Dac.fall_same (x : Dac) (l : Bool) (offer : Option (BitVec 32)) :
    x.fall l l offer = x.fall l l none := by
  cases l <;> rfl

/-- Periods without a turn. -/
theorem effect_periods {s : State} {l d : Bool} (h : s.sync = settled ⟨true, l, d⟩)
    (qs : List Period) :
    ∃ d', Effect s (qs.flatMap (Period.inputs l)) ⟨true, l, d'⟩
      (s.adc.after false (qs.map Period.adcData)) (s.dac.after l qs.length)
      (s.adc.allWords l false (qs.map Period.adcData)) [] (s.dac.allBits l qs.length) := by
  induction qs generalizing s d with
  | nil => exact ⟨d, h, rfl, rfl, rfl, rfl, rfl⟩
  | cons q qs ih =>
      have hfirst := effect_period h l q
      obtain ⟨d', hrest⟩ := ih hfirst.sync
      rw [hfirst.adc, hfirst.dac] at hrest
      rw [Bool.xor_self, Dac.fall_same, Bool.and_not_self] at *
      exact ⟨d', hfirst.append hrest⟩

/-- A half begins with a turn of `lrclk`. -/
theorem effect_half {s : State} {l d : Bool} (h : s.sync = settled ⟨true, l, d⟩)
    (half : Half) :
    ∃ d' offer, Effect s (half.inputs !l) ⟨true, !l, d'⟩ (s.adc.after true half.bits)
      ((s.dac.fall l (!l) offer).rise.after (!l) (half.bits.length - 1))
      (s.adc.allWords (!l) true half.bits) (if l then [offer] else [])
      ((s.dac.fall l (!l) offer).i2sDacData ::
        (s.dac.fall l (!l) offer).rise.allBits (!l) (half.bits.length - 1)) := by
  obtain ⟨periods, hperiods⟩ := half
  cases periods with
  | nil => exact absurd hperiods (by decide)
  | cons q qs =>
      have hfirst := effect_period h (!l) q
      obtain ⟨d', hrest⟩ := effect_periods hfirst.sync qs
      rw [hfirst.adc, hfirst.dac] at hrest
      have hboth := hfirst.append hrest
      rw [Bool.xor_not_self, Bool.not_not, Bool.and_self, List.append_nil] at hboth
      refine ⟨d', q.turnPorts.offer, ?_⟩
      rw [Half.bits, List.length_map]
      exact hboth

/-! ## The first half

Whatever came before, after a half both machines wait for the next turn. -/

theorem sync_period (s : State) (l : Bool) (q : Period) :
    (run next s (q.inputs l)).sync = settled ⟨true, l, q.adcData⟩ := by
  obtain ⟨d, lows, highs, hlows, hhighs⟩ := q
  obtain ⟨i, j, k, highs, rfl⟩ := exists_level hhighs
  rw [Period.inputs, run_append]
  exact sync_level _ ⟨true, l, d⟩ i j k highs

theorem Adc.case_after {a : Adc} (h : a.adcCaseReg = 0) (bits : List Bool) :
    (a.after false bits).adcCaseReg = 0 := by
  induction bits generalizing a with
  | nil => exact h
  | cons d bits ih =>
      apply ih
      simp [Adc.fall, Adc.rise, h]

theorem Adc.case_after_two {a : Adc} (h : a.adcCaseReg ≠ 3) {bits : List Bool}
    (hbits : 2 ≤ bits.length) : (a.after false bits).adcCaseReg = 0 := by
  match bits, hbits with
  | d :: d' :: bits, _ =>
      have htwo : ∀ (a : Adc) (d : Bool), ((a.fall false).rise d).adcCaseReg =
          if a.adcCaseReg = 1 then 2 else if a.adcCaseReg = 2 then 0 else a.adcCaseReg := by
        intro a d
        simp [Adc.fall, Adc.rise]
      change (((((a.fall false).rise d).fall false).rise d').after false bits).adcCaseReg = 0
      refine Adc.case_after ?_ bits
      rw [htwo, htwo]
      generalize a.adcCaseReg = c at h
      revert c
      decide

theorem Dac.case_after {x : Dac} (h : x.dacCaseReg = 0) (l : Bool) (n : ℕ) :
    (x.after l n).dacCaseReg = 0 := by
  induction n generalizing x with
  | zero => exact h
  | succ n ih =>
      apply ih
      simp [Dac.fall, Dac.rise, h]

theorem Dac.case_after_two {x : Dac} (h : x.dacCaseReg ≠ 3) (l : Bool) (n : ℕ) :
    (x.after l (n + 2)).dacCaseReg = 0 := by
  have htwo : ∀ x : Dac, (x.fall l l none).rise.dacCaseReg =
      if x.dacCaseReg = 1 then 2 else if x.dacCaseReg = 2 then 0 else x.dacCaseReg := by
    intro x
    simp only [Dac.fall, Dac.rise, Bool.xor_self, Bool.and_false]
    generalize x.dacCaseReg = c
    revert c
    decide
  change ((((x.fall l l none).rise.fall l l none).rise).after l n).dacCaseReg = 0
  refine Dac.case_after ?_ l n
  rw [htwo, htwo]
  generalize x.dacCaseReg = c at h
  revert c
  decide

/-- Both machines wait for `lrclk` to turn from `l`. -/
structure Waiting (l : Bool) (s : State) : Prop where
  sync : ∃ d, s.sync = settled ⟨true, l, d⟩
  adc : s.adc.adcCaseReg = 0
  dac : s.dac.dacCaseReg = 0

theorem waiting_half {s : State} (h : Sane s) (l : Bool) (half : Half) :
    Waiting l (run next s (half.inputs l)) := by
  obtain ⟨periods, hperiods⟩ := half
  cases periods with
  | nil => exact absurd hperiods (by decide)
  | cons q qs =>
      have hsane := h.run (q.inputs l)
      obtain ⟨d, hrest⟩ := effect_periods (sync_period s l q) qs
      rw [List.length_cons] at hperiods
      rw [Half.inputs, List.flatMap_cons, run_append]
      refine ⟨⟨d, hrest.sync⟩, ?_, ?_⟩
      · rw [hrest.adc]
        exact Adc.case_after_two hsane.adc (by rw [List.length_map]; omega)
      · obtain ⟨n, hn⟩ := Nat.exists_eq_add_of_le (Nat.le_of_succ_le_succ hperiods)
        have htwo : qs.length = (13 + n) + 2 := by omega
        rw [hrest.dac, htwo]
        exact Dac.case_after_two hsane.dac l _

end RedPitayaNotes.AxisI2s
