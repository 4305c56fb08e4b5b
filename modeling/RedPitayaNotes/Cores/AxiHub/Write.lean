import RedPitayaNotes.Cores.AxiHub.Model
import RedPitayaNotes.Support.Bursts

/-!
# The write channel of axi_hub

AW, W and B are decoupled by three buffers.  A beat is applied in exactly the
cycles in which `int_we_wire` is high; the hub then behaves as the server of
`Support.Bursts` for the queue of addresses and the queue of data beats it
stores, with the beat counter as the position inside the burst.
-/

namespace RedPitayaNotes.AxiHub

open Clocked Elastic Bursts

/-- One beat as a target sees it. -/
structure WriteBeat where
  awid : BitVec 12
  target : ℕ
  addr : BitVec 22
  wdata : BitVec 32
  wstrb : BitVec 4
  wlast : Bool
deriving DecidableEq, Repr

def WriteBeat.of (a : AwWord) (k : BitVec 22) (w : WWord) : WriteBeat where
  awid := a.awid
  target := AxiHub.target a.awaddr
  addr := wordAddr a.awaddr + k
  wdata := w.wdata
  wstrb := w.wstrb
  wlast := w.wlast

/-- A write burst of 1 to 16 beats with `wlast` on its last beat only. -/
structure WriteBurst extends Burst AwWord WWord.wlast where
  length_body_le : body.length ≤ 15

/-- Beat `k` belongs at word address `awaddr[23:2] + k`, modulo `2^22`. -/
def WriteBurst.expected (b : WriteBurst) : List WriteBeat :=
  b.beats.mapIdx fun k w => .of b.cmd (BitVec.ofNat 22 k) w

theorem toNat_target (addr : BitVec 32) :
    target addr = addr.toNat / 2 ^ 24 % 2 ^ 4 := by
  rw [target, BitVec.extractLsb'_toNat, Nat.shiftRight_eq_div_pow]

theorem toNat_wordAddr_add (addr : BitVec 32) (k : ℕ) :
    (wordAddr addr + BitVec.ofNat 22 k).toNat =
      (addr.toNat / 2 ^ 2 + k) % 2 ^ 22 := by
  rw [BitVec.toNat_add, wordAddr, BitVec.extractLsb'_toNat,
    Nat.shiftRight_eq_div_pow, BitVec.toNat_ofNat, ← Nat.add_mod]

/-- Where beat `k` goes, by the bits of the address of its burst. -/
theorem WriteBurst.placed_expected (burst : WriteBurst) {k : ℕ} {b : WriteBeat}
    (h : burst.expected[k]? = some b) :
    b.target = burst.cmd.awaddr.toNat / 2 ^ 24 % 2 ^ 4 ∧
      b.addr.toNat = (burst.cmd.awaddr.toNat / 2 ^ 2 + k) % 2 ^ 22 := by
  rw [expected, List.getElem?_mapIdx, Option.map_eq_some_iff] at h
  obtain ⟨w, -, rfl⟩ := h
  exact ⟨toNat_target _, toNat_wordAddr_add _ k⟩

/-- The reply a served beat causes. -/
def WriteBeat.reply (b : WriteBeat) : List (BitVec 12) :=
  if b.wlast then [b.awid] else []

/-- The configuration bit a beat writes: the word is selected by the low
`CFG_WIDTH` address bits, the byte by its strobe. -/
def WriteBeat.HitsCfg (p : Params) (b : WriteBeat) (j k : ℕ) : Prop :=
  b.target = 0 ∧ b.addr.toNat % 2 ^ p.cfgWidth = j ∧
    b.wstrb.getLsbD (k / 8) = true

def awStream (bursts : List WriteBurst) : List AwWord :=
  bursts.map fun b => b.cmd

def wStream (bursts : List WriteBurst) : List WWord :=
  bursts.flatMap fun b => b.beats

section Cycle

variable {p : Params}

def awAccepted (c : Cycle (State p) (Input p)) : List AwWord :=
  transfer c.input.sAxiAwvalid (sAxiAwready c.state) c.input.aw

def wAccepted (c : Cycle (State p) (Input p)) : List WWord :=
  transfer c.input.sAxiWvalid (sAxiWready c.state) c.input.w

def bSent (c : Cycle (State p) (Input p)) : List (BitVec 12) :=
  transfer (sAxiBvalid c.state) c.input.sAxiBready (sAxiBid c.state)

/-- What is put out in a cycle that serves a beat. -/
def served {O : Type*} (out : AwWord → BitVec 4 → WWord → List O)
    (c : Cycle (State p) (Input p)) : List O :=
  if intWeWire c.state c.input then
    out (intAwWire c.state) c.state.intAwcntrReg (intWWire c.state)
  else []

/-- The beat at counter `k`, as the address adder of the hub places it. -/
def beatOut (a : AwWord) (k : BitVec 4) (w : WWord) : List WriteBeat :=
  [.of a (k.setWidth 22) w]

/-- The beat applied in a cycle, if any. -/
def applied : Cycle (State p) (Input p) → List WriteBeat :=
  served beatOut

/-- The address retired in a cycle, if any. -/
def retired : Cycle (State p) (Input p) → List AwWord :=
  served fun a _ w => if w.wlast then [a] else []

end Cycle

/-! ## What one cycle does to the three buffers -/

section Step

variable {p : Params} (s : State p) (i : Input p)

theorem transfer_aw :
    transfer (intAwvalidWire s) (intAwreadyWire s i) (intAwWire s) =
      retired ⟨s, i⟩ := by
  cases hb : intBreadyWire s i <;> cases ha : intAwvalidWire s <;>
    cases hw : intWvalidWire s <;> cases hl : intWlastWire s <;>
    simp_all [retired, served, intAwreadyWire, intWeWire, intWlastWire]

theorem transfer_w :
    transfer (intWvalidWire s) (intWreadyWire s i) (intWWire s) =
      if intWeWire s i then [intWWire s] else [] := by
  cases hb : intBreadyWire s i <;> cases ha : intAwvalidWire s <;>
    cases hw : intWvalidWire s <;>
    simp [intWreadyWire, intWeWire, ha, hb, hw]

theorem transfer_b :
    transfer (intBvalidWire s) (intBreadyWire s i) (intAwWire s).awid =
      (retired ⟨s, i⟩).map AwWord.awid := by
  cases hb : intBreadyWire s i <;> cases ha : intAwvalidWire s <;>
    cases hw : intWvalidWire s <;> cases hl : intWlastWire s <;>
    simp_all [retired, served, intBvalidWire, intWeWire, intWlastWire]

theorem buf0_next :
    s.buf0.contents ++ awAccepted ⟨s, i⟩ =
      retired ⟨s, i⟩ ++ (next s i).buf0.contents := by
  have h := s.buf0.step_lossless i.aw i.sAxiAwvalid (intAwreadyWire s i)
  exact h.trans (congrArg (· ++ _) (transfer_aw s i))

theorem buf1_next :
    s.buf1.contents ++ wAccepted ⟨s, i⟩ =
      (if intWeWire s i then [intWWire s] else []) ++
        (next s i).buf1.contents := by
  have h := s.buf1.step_lossless i.w i.sAxiWvalid (intWreadyWire s i)
  exact h.trans (congrArg (· ++ _) (transfer_w s i))

theorem buf2_next :
    s.buf2.contents ++ (retired ⟨s, i⟩).map AwWord.awid =
      bSent ⟨s, i⟩ ++ (next s i).buf2.contents := by
  have h := s.buf2.step_lossless (intAwWire s).awid (intBvalidWire s)
    i.sAxiBready
  rw [← transfer_b]
  exact h

theorem intAwcntrReg_next :
    (next s i).intAwcntrReg =
      if intWeWire s i then
        if intWlastWire s then 0 else s.intAwcntrReg + 1
      else s.intAwcntrReg := by
  cases hb : intBreadyWire s i <;> cases ha : intAwvalidWire s <;>
    cases hw : intWvalidWire s <;> cases hl : intWlastWire s <;>
    simp [next, step, intAwcntrNext, intAwreadyWire, intWeWire, ha, hb, hw, hl]

/-- The server the hub is: beats still to be served when the words `xs` and
`ys` are still to be accepted. -/
def pendingWrites {O : Type*} (out : AwWord → BitVec 4 → WWord → List O)
    (s : State p) (xs : List AwWord) (ys : List WWord) : List O :=
  serve WWord.wlast 0 (· + 1) out s.intAwcntrReg
    (s.buf0.contents ++ xs) (s.buf1.contents ++ ys)

theorem pendingWrites_next {O : Type*}
    (out : AwWord → BitVec 4 → WWord → List O)
    (xs : List AwWord) (ys : List WWord) :
    pendingWrites out s (awAccepted ⟨s, i⟩ ++ xs) (wAccepted ⟨s, i⟩ ++ ys) =
      served out ⟨s, i⟩ ++ pendingWrites out (next s i) xs ys := by
  have h₀ := buf0_next s i
  have h₁ := buf1_next s i
  unfold pendingWrites
  rw [← List.append_assoc s.buf0.contents, ← List.append_assoc s.buf1.contents,
    h₁, intAwcntrReg_next]
  cases hwe : intWeWire s i with
  | false =>
      rw [h₀]
      simp [retired, served, hwe]
  | true =>
      cases hlast : intWlastWire s with
      | true =>
          have hw : (intWWire s).wlast = true := hlast
          rw [h₀]
          simp only [retired, served, hwe, hw, if_true, List.cons_append]
          exact serve_cons_last _ _ _ hw _ _ _ _
      | false =>
          have hw : (intWWire s).wlast = false := hlast
          have hvalid : intAwvalidWire s = true := by
            rw [intWeWire, Bool.and_eq_true, Bool.and_eq_true] at hwe
            exact hwe.1.2
          have hhead : s.buf0.contents = intAwWire s :: s.buf0.buf0.contents :=
            InoutBuffer.contents_eq_cons hvalid
          have hkeep : (next s i).buf0.contents =
              intAwWire s :: (s.buf0.buf0.contents ++ awAccepted ⟨s, i⟩) := by
            have hnone : retired ⟨s, i⟩ = [] := by
              simp [retired, served, hw]
            rw [hnone, List.nil_append, hhead] at h₀
            exact h₀.symm
          rw [hhead, hkeep]
          simp only [served, hwe, if_true, List.cons_append,
            Bool.false_eq_true, if_false]
          exact serve_cons_not_last _ _ _ hw _ _ _ _

/-- A stored address and a stored beat are served as soon as B can move. -/
theorem intWeWire_of_pending {s : State p} {i : Input p}
    (h₀ : s.buf0.Compact) (h₁ : s.buf1.Compact)
    (hb : i.sAxiBready = true)
    (haw : s.buf0.contents ≠ []) (hw : s.buf1.contents ≠ []) :
    intWeWire s i = true := by
  have hawvalid := (InoutBuffer.outValid_eq_true_iff h₀).mpr haw
  have hwvalid := (InoutBuffer.outValid_eq_true_iff h₁).mpr hw
  simp [intWeWire, intBreadyWire, intAwvalidWire, intWvalidWire,
    OutputBuffer.inReady, OutputBuffer.intReadyWire, hb, hawvalid, hwvalid]

end Step

/-! ## Whole runs -/

/-- The buffers of the write channel use their skid registers last. -/
def WriteCompact {p : Params} (s : State p) : Prop :=
  s.buf0.Compact ∧ s.buf1.Compact

section Run

variable {p : Params} {s₀ : State p}

theorem next_writeCompact (s : State p) (i : Input p)
    (h : WriteCompact s) : WriteCompact (next s i) :=
  ⟨InoutBuffer.step_compact h.1 _ _ _, InoutBuffer.step_compact h.2 _ _ _⟩

theorem State.IsReset.writeCompact (h : s₀.IsReset) : WriteCompact s₀ :=
  ⟨h.buf0.compact, h.buf1.compact⟩

theorem served_run (h : s₀.IsReset) {O : Type*}
    (out : AwWord → BitVec 4 → WWord → List O) (inputs : List (Input p))
    (xs : List AwWord) (ys : List WWord) :
    serve WWord.wlast 0 (· + 1) out 0
        ((trace next s₀ inputs).flatMap awAccepted ++ xs)
        ((trace next s₀ inputs).flatMap wAccepted ++ ys) =
      (trace next s₀ inputs).flatMap (served out) ++
        pendingWrites out (run next s₀ inputs) xs ys := by
  have hrun := run_transduces (pendingWrites out) awAccepted wAccepted
    (served out) (fun s i => pendingWrites_next s i out) s₀ inputs xs ys
  rw [← hrun, pendingWrites, h.buf0.contents, h.buf1.contents,
    h.intAwcntrReg]
  rfl

end Run

/-! ## The bursts a master issues -/

theorem iterate_succ_setWidth {n : ℕ} (hn : n < 16) :
    ((· + 1)^[n] (0 : BitVec 4)).setWidth 22 = BitVec.ofNat 22 n := by
  revert n
  decide

theorem WriteBurst.outputs_eq_expected (b : WriteBurst) :
    outputs (· + 1) beatOut b.cmd 0 b.beats = b.expected := by
  unfold beatOut
  rw [outputs_eq_mapIdx, expected, List.mapIdx_eq_mapIdx_iff]
  intro n hn
  have hlen := b.length_body_le
  rw [Burst.length_beats] at hn
  rw [iterate_succ_setWidth (by omega)]

theorem WriteBurst.reply_expected (b : WriteBurst) :
    b.expected.flatMap WriteBeat.reply = [b.cmd.awid] := by
  have hout : (fun a k w => (beatOut a k w).flatMap WriteBeat.reply) =
      fun (a : AwWord) (_ : BitVec 4) (w : WWord) =>
        if w.wlast then [a.awid] else [] := by
    funext a k w
    simp [beatOut, WriteBeat.reply, WriteBeat.of]
  rw [← b.outputs_eq_expected, outputs_flatMap, hout]
  exact outputs_last _ AwWord.awid b.toBurst 0

theorem serve_stream (bursts : List WriteBurst) :
    serve WWord.wlast 0 (· + 1) beatOut 0 (awStream bursts) (wStream bursts) =
      bursts.flatMap WriteBurst.expected := by
  have h := serve_bursts WWord.wlast (0 : BitVec 4) (· + 1) beatOut
    (bursts.map WriteBurst.toBurst)
  rw [List.map_map, List.flatMap_map, List.flatMap_map] at h
  rw [awStream, wStream]
  refine Eq.trans h ?_
  simp only [WriteBurst.outputs_eq_expected]

theorem reply_stream (bursts : List WriteBurst) :
    (bursts.flatMap WriteBurst.expected).flatMap WriteBeat.reply =
      bursts.map fun b => b.cmd.awid := by
  rw [List.flatMap_assoc]
  simp only [WriteBurst.reply_expected]
  exact List.map_eq_flatMap.symm

/-! ## Effects on the targets -/

section Effects

variable {p : Params} (s : State p) (i : Input p)

theorem mem_applied {b : WriteBeat} (hb : b ∈ applied ⟨s, i⟩) :
    intWeWire s i = true ∧
      b = .of (intAwWire s) (s.intAwcntrReg.setWidth 22) (intWWire s) := by
  cases hwe : intWeWire s i <;> simp_all [applied, served, beatOut]

theorem intCeWire_eq_true_iff {b : WriteBeat} (hb : b ∈ applied ⟨s, i⟩)
    (j : Fin p.cfgSize) (k : ℕ) :
    (intCeWire s i j && (intWWire s).wstrb.getLsbD (k / 8)) = true ↔
      b.HitsCfg p j k := by
  obtain ⟨hwe, rfl⟩ := mem_applied s i hb
  simp [intCeWire, intWselWire, WriteBeat.HitsCfg, WriteBeat.of, hwe,
    intWaddrWire, BitVec.extractLsb'_toNat, and_assoc]

theorem intCeWire_of_idle (h : applied ⟨s, i⟩ = []) (j : Fin p.cfgSize) :
    intCeWire s i j = false := by
  cases hwe : intWeWire s i <;>
    simp_all [applied, served, beatOut, intCeWire, intWselWire]

theorem cfgData_next (j : Fin p.cfgSize) (k : Fin 32) :
    ((next s i).cfgData j)[k] =
      if intCeWire s i j && (intWWire s).wstrb.getLsbD (k / 8) then
        (intWWire s).wdata[k]
      else (s.cfgData j)[k] := by
  simp [next, step, cfgDataNext]

theorem cfgData_hit {b : WriteBeat} (hb : b ∈ applied ⟨s, i⟩)
    {j : Fin p.cfgSize} {k : Fin 32} (hit : b.HitsCfg p j k) :
    ((next s i).cfgData j)[k] = b.wdata[k] := by
  rw [cfgData_next, if_pos ((intCeWire_eq_true_iff s i hb j k).mpr hit),
    (mem_applied s i hb).2]
  rfl

theorem cfgData_kept {j : Fin p.cfgSize} {k : Fin 32}
    (hmiss : ∀ b ∈ applied ⟨s, i⟩, ¬b.HitsCfg p j k) :
    ((next s i).cfgData j)[k] = (s.cfgData j)[k] := by
  rw [cfgData_next, if_neg]
  intro hce
  by_cases hidle : applied ⟨s, i⟩ = []
  · rw [intCeWire_of_idle s i hidle j] at hce
    simp at hce
  · obtain ⟨b, hb⟩ := List.exists_mem_of_ne_nil _ hidle
    exact hmiss b hb ((intCeWire_eq_true_iff s i hb j k).mp hce)

theorem intWselWire_of_mem {b : WriteBeat} (hb : b ∈ applied ⟨s, i⟩) (t : ℕ) :
    intWselWire s i t = true ↔ b.target = t := by
  obtain ⟨hwe, rfl⟩ := mem_applied s i hb
  simp [intWselWire, WriteBeat.of, hwe]

theorem bram_hit {b : WriteBeat} (hb : b ∈ applied ⟨s, i⟩) {j : Fin hubSize}
    (hj : b.target = j + 2) :
    bramEn s i j = true ∧ bramWe s i j = b.wstrb ∧ bramAddr s i = b.addr ∧
      bramWdata s = b.wdata := by
  have hsel := (intWselWire_of_mem s i hb (j + 2)).mpr hj
  obtain ⟨hwe, rfl⟩ := mem_applied s i hb
  simp [bramEn, bramWe, bramAddr, bramWdata, hsel, hwe, WriteBeat.of,
    intWaddrWire]

theorem bram_kept {j : Fin hubSize}
    (hmiss : ∀ b ∈ applied ⟨s, i⟩, b.target ≠ j + 2) :
    bramWe s i j = 0 := by
  rw [bramWe, if_neg]
  intro hsel
  have hwe : intWeWire s i = true := by
    rw [intWselWire, Bool.and_eq_true] at hsel
    exact hsel.1
  have hmem : WriteBeat.of (intAwWire s) (s.intAwcntrReg.setWidth 22)
      (intWWire s) ∈ applied ⟨s, i⟩ := by
    simp [applied, served, beatOut, hwe]
  exact hmiss _ hmem ((intWselWire_of_mem s i hmem _).mp hsel)

end Effects

/-! ## Exactness of the write channel -/

section Exact

variable {p : Params}

/-- The master issues `bursts`: what the hub has accepted on AW and on W is a
beginning of their addresses and of their beats, each channel at its own pace. -/
structure Issues (bursts : List WriteBurst) (s₀ : State p)
    (inputs : List (Input p)) : Prop where
  aw : (trace next s₀ inputs).flatMap awAccepted <+: awStream bursts
  w : (trace next s₀ inputs).flatMap wAccepted <+: wStream bursts

/-- Everything of `bursts` has been accepted. -/
structure Accepted (bursts : List WriteBurst) (s₀ : State p)
    (inputs : List (Input p)) : Prop where
  aw : awStream bursts <+: (trace next s₀ inputs).flatMap awAccepted
  w : wStream bursts <+: (trace next s₀ inputs).flatMap wAccepted

variable {bursts : List WriteBurst} {s₀ : State p} {inputs : List (Input p)}

theorem applied_isPrefix (h : s₀.IsReset) (hissues : Issues bursts s₀ inputs) :
    (trace next s₀ inputs).flatMap applied <+:
      bursts.flatMap WriteBurst.expected := by
  obtain ⟨xs, hxs⟩ := hissues.aw
  obtain ⟨ys, hys⟩ := hissues.w
  have hrun := served_run h beatOut inputs xs ys
  rw [hxs, hys, serve_stream] at hrun
  exact ⟨_, hrun.symm⟩

theorem wAccepted_eq (h : s₀.IsReset) (inputs : List (Input p)) :
    (trace next s₀ inputs).flatMap wAccepted =
      (trace next s₀ inputs).flatMap (served fun _ _ w => [w]) ++
        (run next s₀ inputs).buf1.contents :=
  run_conserves (fun s : State p => s.buf1.contents) wAccepted
    (served fun _ _ w => [w]) buf1_next h.buf1.contents inputs

theorem retired_reply (c : Cycle (State p) (Input p)) :
    (applied c).flatMap WriteBeat.reply = (retired c).map AwWord.awid := by
  cases hwe : intWeWire c.state c.input <;>
    cases hlast : (intWWire c.state).wlast <;>
    simp [applied, retired, served, beatOut, WriteBeat.reply, WriteBeat.of,
      hwe, hlast]

/-- Each last beat applied has been answered, or its answer is in `buf_2`. -/
theorem bSent_eq (h : s₀.IsReset) (inputs : List (Input p)) :
    (trace next s₀ inputs).flatMap bSent ++
        (run next s₀ inputs).buf2.contents =
      ((trace next s₀ inputs).flatMap applied).flatMap WriteBeat.reply := by
  have hbooks := run_conserves (fun s : State p => s.buf2.contents)
    (fun c => (retired c).map AwWord.awid) bSent buf2_next
    (OutputBuffer.contents_eq_nil_iff.mpr h.buf2) inputs
  rw [← hbooks, List.flatMap_assoc]
  simp only [retired_reply]

theorem bSent_isPrefix (h : s₀.IsReset) (hissues : Issues bursts s₀ inputs) :
    (trace next s₀ inputs).flatMap bSent <+: bursts.map fun b => b.cmd.awid := by
  have hsent : (trace next s₀ inputs).flatMap bSent <+:
      ((trace next s₀ inputs).flatMap applied).flatMap WriteBeat.reply :=
    ⟨_, bSent_eq h inputs⟩
  obtain ⟨rest, hrest⟩ := applied_isPrefix h hissues
  refine hsent.trans ?_
  rw [← reply_stream, ← hrest, List.flatMap_append]
  exact List.prefix_append _ _

end Exact

/-! ## Progress -/

section Progress

variable {p : Params}

theorem next_pending_le (s : State p) (i : Input p) :
    (pendingWrites beatOut s [] []).length ≤
      (applied ⟨s, i⟩).length +
        (pendingWrites beatOut (next s i) [] []).length := by
  have hnext := congrArg List.length (pendingWrites_next s i beatOut [] [])
  rw [List.length_append] at hnext
  refine le_trans ?_ (le_of_eq hnext)
  have hprefix := serve_isPrefix WWord.wlast 0 (· + 1) beatOut
    s.intAwcntrReg s.buf0.contents (awAccepted ⟨s, i⟩)
    s.buf1.contents (wAccepted ⟨s, i⟩)
  simpa [pendingWrites] using hprefix.length_le

theorem applied_of_pending {s : State p} {i : Input p} (hs : WriteCompact s)
    (hb : i.sAxiBready = true)
    (hpending : 0 < (pendingWrites beatOut s [] []).length) :
    0 < (applied ⟨s, i⟩).length := by
  obtain ⟨haw, hw⟩ := ne_nil_of_serve_ne_nil _ _ _
    (List.ne_nil_of_length_pos hpending)
  rw [List.append_nil] at haw hw
  have hwe := intWeWire_of_pending hs.1 hs.2 hb haw hw
  simp [applied, served, beatOut, hwe]

theorem pending_le_two (s : State p) :
    (pendingWrites beatOut s [] []).length ≤ 2 := by
  refine le_trans (length_serve_le _ _ _ _ _ _) ?_
  rw [List.append_nil]
  exact s.buf1.length_contents_le

/-- Two cycles with BREADY apply every beat whose address and data were
accepted before them. -/
theorem applied_of_accepted {s₀ : State p} (h : s₀.IsReset)
    {bursts : List WriteBurst} {before mid : List (Input p)}
    (hacc : Accepted bursts s₀ before)
    (hready : 2 ≤ mid.countP Input.sAxiBready) :
    (bursts.flatMap WriteBurst.expected).length ≤
      ((trace next s₀ (before ++ mid)).flatMap applied).length := by
  obtain ⟨xs, hxs⟩ := hacc.aw
  obtain ⟨ys, hys⟩ := hacc.w
  have hserved := served_run h beatOut before [] []
  rw [List.append_nil, List.append_nil, ← hxs, ← hys] at hserved
  have hprefix := (serve_isPrefix WWord.wlast 0 (· + 1) beatOut 0
    (awStream bursts) xs (wStream bursts) ys).length_le
  rw [serve_stream, hserved, List.length_append] at hprefix
  have hcompact : WriteCompact (run next s₀ before) :=
    run_invariant WriteCompact next_writeCompact h.writeCompact before
  have htwo := pending_le_two (run next s₀ before)
  have hdrain := run_drains WriteCompact
    (fun s : State p => (pendingWrites beatOut s [] []).length) (fun _ => 0)
    applied Input.sAxiBready next_writeCompact
    (fun s i _ => next_pending_le s i) (fun _ _ _ _ => le_refl 0)
    (fun _ _ hs hb hpos => Or.inl (applied_of_pending hs hb hpos))
    hcompact mid
    (m := (pendingWrites beatOut (run next s₀ before) [] []).length)
    le_rfl (by omega)
  rw [trace_append, List.flatMap_append, List.length_append]
  have happlied : (trace next s₀ before).flatMap (served beatOut) =
      (trace next s₀ before).flatMap applied := rfl
  rw [happlied] at hprefix
  omega

theorem next_replies_le (s : State p) (i : Input p) :
    s.buf2.contents.length ≤
      (bSent ⟨s, i⟩).length + (next s i).buf2.contents.length := by
  have hbook := congrArg List.length (buf2_next s i)
  rw [List.length_append, List.length_append] at hbook
  omega

theorem bSent_of_pending {s : State p} {i : Input p}
    (hb : i.sAxiBready = true) (hpending : 0 < s.buf2.contents.length) :
    0 < (bSent ⟨s, i⟩).length := by
  have hvalid : sAxiBvalid s = true := by
    by_contra hidle
    have hnil := OutputBuffer.contents_eq_nil_iff.mpr
      (eq_false_of_ne_true hidle)
    rw [hnil] at hpending
    exact absurd hpending (lt_irrefl 0)
  simp [bSent, hvalid, hb]

/-- One more cycle with BREADY sends the reply left in `buf_2`. -/
theorem bSent_of_applied {s₀ : State p} (h : s₀.IsReset)
    (before : List (Input p)) {after : List (Input p)}
    (hready : 1 ≤ after.countP Input.sAxiBready) :
    (((trace next s₀ before).flatMap applied).flatMap
        WriteBeat.reply).length ≤
      ((trace next s₀ (before ++ after)).flatMap bSent).length := by
  have hbooks := congrArg List.length (bSent_eq h before)
  have hone := (run next s₀ before).buf2.length_contents_le
  rw [List.length_append] at hbooks
  have hdrain := run_drains (fun _ => True)
    (fun s : State p => s.buf2.contents.length) (fun _ => 0)
    bSent Input.sAxiBready (fun _ _ _ => trivial)
    (fun s i _ => next_replies_le s i) (fun _ _ _ _ => le_refl 0)
    (fun _ _ _ hb hpos => Or.inl (bSent_of_pending hb hpos))
    (s := run next s₀ before) trivial after
    (m := (run next s₀ before).buf2.contents.length) le_rfl (by omega)
  rw [trace_append, List.flatMap_append, List.length_append]
  omega

end Progress

/-! ## The channel as a whole -/

section Exact

variable {p : Params}

/-- What it means that the write channel applies `bursts` exactly. -/
structure WriteExact (bursts : List WriteBurst) (s₀ : State p)
    (inputs : List (Input p)) : Prop where
  /-- The beats applied so far are the first beats of the bursts, in order, at
  most one in each cycle. -/
  inOrder : (trace next s₀ inputs).flatMap applied <+:
    bursts.flatMap WriteBurst.expected
  /-- Beat `k` of a burst goes to target `awaddr[27:24]`, at the word address
  `awaddr[23:2] + k`. -/
  placed : ∀ burst ∈ bursts, ∀ k b, burst.expected[k]? = some b →
    b.target = burst.cmd.awaddr.toNat / 2 ^ 24 % 2 ^ 4 ∧
      b.addr.toNat = (burst.cmd.awaddr.toNat / 2 ^ 2 + k) % 2 ^ 22
  oneByOne : ∀ c ∈ trace next s₀ inputs, (applied c).length ≤ 1
  /-- Accepted beats that are not applied yet are stored. -/
  stored : (trace next s₀ inputs).flatMap wAccepted =
    (trace next s₀ inputs).flatMap (served fun _ _ w => [w]) ++
      (run next s₀ inputs).buf1.contents
  cfgHit : ∀ c ∈ trace next s₀ inputs, ∀ b ∈ applied c,
    ∀ (j : Fin p.cfgSize) (k : Fin 32), b.HitsCfg p j k →
      ((next c.state c.input).cfgData j)[k] = b.wdata[k]
  cfgKept : ∀ c ∈ trace next s₀ inputs,
    ∀ (j : Fin p.cfgSize) (k : Fin 32),
      (∀ b ∈ applied c, ¬b.HitsCfg p j k) →
        ((next c.state c.input).cfgData j)[k] = (c.state.cfgData j)[k]
  bramHit : ∀ c ∈ trace next s₀ inputs, ∀ b ∈ applied c,
    ∀ j : Fin hubSize, b.target = j + 2 →
      bramEn c.state c.input j = true ∧ bramWe c.state c.input j = b.wstrb ∧
        bramAddr c.state c.input = b.addr ∧ bramWdata c.state = b.wdata
  bramKept : ∀ c ∈ trace next s₀ inputs, ∀ j : Fin hubSize,
    (∀ b ∈ applied c, b.target ≠ j + 2) → bramWe c.state c.input j = 0
  /-- The replies sent, and the one still in `buf_2`, are those of the last
  beats applied so far. -/
  replies : (trace next s₀ inputs).flatMap bSent ++
      (run next s₀ inputs).buf2.contents =
    ((trace next s₀ inputs).flatMap applied).flatMap WriteBeat.reply
  repliesInOrder : (trace next s₀ inputs).flatMap bSent <+:
    bursts.map fun b => b.cmd.awid
  /-- Bursts accepted whole are applied and answered by the third following
  cycle with BREADY, however the cycles with BREADY are spread. -/
  completed : ∀ n before after, inputs = before ++ after →
    Accepted (bursts.take n) s₀ before →
    3 ≤ after.countP Input.sAxiBready →
      (bursts.take n).flatMap WriteBurst.expected <+:
          (trace next s₀ inputs).flatMap applied ∧
        ((bursts.take n).map fun b => b.cmd.awid) <+:
          (trace next s₀ inputs).flatMap bSent

theorem completed_of_accepted {s₀ : State p} (h : s₀.IsReset)
    {bursts : List WriteBurst} {before after : List (Input p)}
    (hissues : Issues bursts s₀ (before ++ after)) {n : ℕ}
    (hacc : Accepted (bursts.take n) s₀ before)
    (hready : 3 ≤ after.countP Input.sAxiBready) :
    (bursts.take n).flatMap WriteBurst.expected <+:
        (trace next s₀ (before ++ after)).flatMap applied ∧
      ((bursts.take n).map fun b => b.cmd.awid) <+:
        (trace next s₀ (before ++ after)).flatMap bSent := by
  obtain ⟨mid, last, rfl, hmid, hlast⟩ :=
    exists_split_countP Input.sAxiBready (m := 2) (n := 1) hready
  rw [← List.append_assoc] at hissues ⊢
  have hsplit : (bursts.take n).flatMap WriteBurst.expected <+:
      bursts.flatMap WriteBurst.expected := by
    conv_rhs => rw [← List.take_append_drop n bursts, List.flatMap_append]
    exact List.prefix_append _ _
  have hcount := applied_of_accepted h hacc hmid
  have hmidApplied : (bursts.take n).flatMap WriteBurst.expected <+:
      (trace next s₀ (before ++ mid)).flatMap applied := by
    refine List.prefix_of_prefix_length_le hsplit ?_ hcount
    refine List.IsPrefix.trans ?_ (applied_isPrefix h hissues)
    rw [trace_append next s₀ (before ++ mid), List.flatMap_append]
    exact List.prefix_append _ _
  constructor
  · rw [trace_append next s₀ (before ++ mid), List.flatMap_append]
    exact hmidApplied.trans (List.prefix_append _ _)
  · obtain ⟨rest, hrest⟩ := hmidApplied
    have hsent := bSent_of_applied h (before ++ mid) hlast
    rw [← hrest, List.flatMap_append, reply_stream, List.length_append] at hsent
    refine List.prefix_of_prefix_length_le ?_ (bSent_isPrefix h hissues)
      (by omega)
    exact (List.take_prefix n bursts).map _

/-- From reset, whatever the stalls of the three channels, each beat of each
burst is applied once, in order, at its own address and to its own target only,
and each burst is answered once. -/
theorem write_channel_exact {s₀ : State p} (h : s₀.IsReset)
    (bursts : List WriteBurst) (inputs : List (Input p))
    (hissues : Issues bursts s₀ inputs) :
    WriteExact bursts s₀ inputs where
  inOrder := applied_isPrefix h hissues
  placed burst _ _ _ hb := burst.placed_expected hb
  oneByOne c _ := by
    cases hwe : intWeWire c.state c.input <;>
      simp [applied, served, beatOut, hwe]
  stored := wAccepted_eq h inputs
  cfgHit c _ _ hb _ _ hit := cfgData_hit c.state c.input hb hit
  cfgKept c _ _ _ hmiss := cfgData_kept c.state c.input hmiss
  bramHit c _ _ hb _ hj := bram_hit c.state c.input hb hj
  bramKept c _ _ hmiss := bram_kept c.state c.input hmiss
  replies := bSent_eq h inputs
  repliesInOrder := bSent_isPrefix h hissues
  completed n before after hsplit hacc hready := by
    subst hsplit
    exact completed_of_accepted h hissues hacc hready

/-- A burst of two beats to BRAM 0. -/
def pairBurst : WriteBurst where
  cmd := ⟨7, 0x02000010⟩
  body := [⟨0xf, false, 11⟩]
  final := ⟨0x3, true, 12⟩
  body_not_last := by decide
  final_last := rfl
  length_body_le := by decide

/-- Its data arrives before its address. -/
def pairInputs : List (Input ⟨32, 32⟩) :=
  let i : Input ⟨32, 32⟩ := { Input.idle with sAxiBready := true }
  [{ i with sAxiWvalid := true, sAxiWstrb := 0xf, sAxiWdata := 11 },
   { i with sAxiWvalid := true, sAxiWstrb := 0x3, sAxiWdata := 12,
            sAxiWlast := true },
   { i with sAxiAwvalid := true, sAxiAwid := 7, sAxiAwaddr := 0x02000010 },
   i, i, i]

theorem write_channel_exact_pair :
    let cycles := trace next (State.cleared ⟨32, 32⟩) pairInputs
    WriteExact [pairBurst] (State.cleared ⟨32, 32⟩) pairInputs ∧
      ((cycles.filter fun c => bramWe c.state c.input 0 != 0).map fun c =>
        (bramWe c.state c.input 0, bramAddr c.state c.input, bramWdata c.state)) =
          [(0xf, 4, 11), (0x3, 5, 12)] ∧
      cycles.flatMap bSent = [7] :=
  ⟨write_channel_exact (State.isReset_cleared _) [pairBurst] pairInputs
    ⟨⟨[], by decide⟩, ⟨[], by decide⟩⟩, by decide, by decide⟩

end Exact

end RedPitayaNotes.AxiHub
