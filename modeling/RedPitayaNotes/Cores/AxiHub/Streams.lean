import RedPitayaNotes.Cores.AxiHub.Write

/-!
# The outgoing streams of axi_hub

A beat for stream port `j` is applied by offering its word to the buffer
`mbuf_j`.  The hub does not look at the ready output of that buffer, so that a
word offered to a full buffer is lost.
-/

namespace RedPitayaNotes.AxiHub

open Clocked Elastic Bursts

/-- The data of the beats for stream port `j`. -/
def targetWords (j : Fin hubSize) (beats : List WriteBeat) :
    List (BitVec 32) :=
  (beats.filter fun b => decide (b.target = (j : ℕ) + 2)).map WriteBeat.wdata

section Cycle

variable {p : Params} (j : Fin hubSize)

/-- The transfer on the stream port. -/
def mDelivered (c : Cycle (State p) (Input p)) : List (BitVec 32) :=
  transfer (mAxisTvalid c.state j) (c.input.mAxisTready j)
    (mAxisTdata c.state j)

/-- The word that `mbuf_j` takes. -/
def mTaken (c : Cycle (State p) (Input p)) : List (BitVec 32) :=
  transfer (intWselWire c.state c.input (j + 2)) (c.state.mbuf j).inReady
    (intWWire c.state).wdata

end Cycle

/-- The beats accepted on W, with the addresses of their bursts. -/
def acceptedBeats {p : Params} (bursts : List WriteBurst)
    (cycles : List (Cycle (State p) (Input p))) : List WriteBeat :=
  (bursts.flatMap WriteBurst.expected).take (cycles.flatMap wAccepted).length

/-- What it means that stream port `j` loses nothing. -/
structure StreamExact {p : Params} (bursts : List WriteBurst)
    (j : Fin hubSize) (s₀ : State p) (inputs : List (Input p)) : Prop where
  /-- The words accepted for the port are those delivered, in order, then those
  in `mbuf_j`, then those of beats that are not applied yet. -/
  inOrder : targetWords j (acceptedBeats bursts (trace next s₀ inputs)) =
    (trace next s₀ inputs).flatMap (mDelivered j) ++
      ((run next s₀ inputs).mbuf j).contents ++
      targetWords j ((acceptedBeats bursts (trace next s₀ inputs)).drop
        ((trace next s₀ inputs).flatMap applied).length)
  /-- The words of bursts that have been answered are delivered by the second
  following cycle with TREADY. -/
  answered : ∀ before after, inputs = before ++ after →
    2 ≤ after.countP (fun i => i.mAxisTready j) →
      targetWords j
          ((bursts.take ((trace next s₀ before).flatMap bSent).length).flatMap
            WriteBurst.expected) <+:
        (trace next s₀ inputs).flatMap (mDelivered j)

/-! ## One cycle -/

section Step

variable {p : Params} (s : State p) (i : Input p) (j : Fin hubSize)

theorem targetWords_append (xs ys : List WriteBeat) :
    targetWords j (xs ++ ys) = targetWords j xs ++ targetWords j ys := by
  simp [targetWords]

theorem targetWords_flatMap {γ : Type*} (f : γ → List WriteBeat)
    (xs : List γ) :
    targetWords j (xs.flatMap f) =
      xs.flatMap fun x => targetWords j (f x) := by
  induction xs with
  | nil => rfl
  | cons x xs ih =>
      rw [List.flatMap_cons, targetWords_append, ih, List.flatMap_cons]

theorem targetWords_applied :
    targetWords j (applied ⟨s, i⟩) =
      if intWselWire s i (j + 2) then [(intWWire s).wdata] else [] := by
  cases hwe : intWeWire s i with
  | false => simp [applied, served, targetWords, intWselWire, hwe]
  | true =>
      by_cases htarget : target (intAwWire s).awaddr = j + 2 <;>
        simp [applied, served, beatOut, targetWords, intWselWire, hwe,
          WriteBeat.of, htarget]

theorem mTaken_sublist :
    (mTaken j ⟨s, i⟩).Sublist (targetWords j (applied ⟨s, i⟩)) := by
  rw [targetWords_applied, mTaken, transfer]
  cases intWselWire s i (j + 2) <;> cases (s.mbuf j).inReady <;> simp

/-- The word of a beat for port `j` is lost if `mbuf_j` is not ready. -/
theorem mTaken_eq_iff :
    mTaken j ⟨s, i⟩ = targetWords j (applied ⟨s, i⟩) ↔
      (intWselWire s i (j + 2) = true → (s.mbuf j).inReady = true) := by
  rw [targetWords_applied, mTaken, transfer]
  cases intWselWire s i (j + 2) <;> cases (s.mbuf j).inReady <;> simp

theorem mbuf_next :
    (s.mbuf j).contents ++ mTaken j ⟨s, i⟩ =
      mDelivered j ⟨s, i⟩ ++ ((next s i).mbuf j).contents :=
  (s.mbuf j).step_lossless _ _ _

theorem mbuf_length_le :
    (s.mbuf j).contents.length ≤
      (mDelivered j ⟨s, i⟩).length + ((next s i).mbuf j).contents.length := by
  have hbooks := congrArg List.length (mbuf_next s i j)
  rw [List.length_append, List.length_append] at hbooks
  omega

variable {s i j}

theorem mDelivered_of_pending (hs : (s.mbuf j).Compact)
    (hready : i.mAxisTready j = true)
    (hpending : 0 < (s.mbuf j).contents.length) :
    0 < (mDelivered j ⟨s, i⟩).length := by
  have hvalid := (InoutBuffer.outValid_eq_true_iff hs).mpr
    (List.ne_nil_of_length_pos hpending)
  simp [mDelivered, mAxisTvalid, hvalid, hready]

end Step

/-! ## Runs -/

section Run

variable {p : Params} {s₀ : State p} {bursts : List WriteBurst}
  {inputs : List (Input p)} {j : Fin hubSize}

theorem mTaken_run (h : s₀.IsReset) (j : Fin hubSize)
    (inputs : List (Input p)) :
    (trace next s₀ inputs).flatMap (mTaken j) =
      (trace next s₀ inputs).flatMap (mDelivered j) ++
        ((run next s₀ inputs).mbuf j).contents :=
  run_conserves (fun s : State p => (s.mbuf j).contents) (mTaken j)
    (mDelivered j) (fun s i => mbuf_next s i j) (h.mbuf j).contents inputs

/-- The accepted beats are the applied ones and those still in `buf_1`. -/
theorem acceptedBeats_eq (h : s₀.IsReset)
    (hissues : Issues bursts s₀ inputs) :
    acceptedBeats bursts (trace next s₀ inputs) =
      (trace next s₀ inputs).flatMap applied ++
        (acceptedBeats bursts (trace next s₀ inputs)).drop
          ((trace next s₀ inputs).flatMap applied).length := by
  have hlen : ((trace next s₀ inputs).flatMap applied).length ≤
      ((trace next s₀ inputs).flatMap wAccepted).length := by
    have hserved : ((trace next s₀ inputs).flatMap applied).length =
        ((trace next s₀ inputs).flatMap
          (served fun _ _ w => [w])).length := by
      rw [List.length_flatMap, List.length_flatMap]
      congr 2
      funext c
      simp only [applied, served, beatOut]
      split <;> rfl
    rw [wAccepted_eq h inputs, hserved, List.length_append]
    exact Nat.le_add_right _ _
  have hprefix : (trace next s₀ inputs).flatMap applied <+:
      acceptedBeats bursts (trace next s₀ inputs) :=
    List.prefix_take_iff.mpr ⟨applied_isPrefix h hissues, hlen⟩
  obtain ⟨rest, hrest⟩ := hprefix
  rw [← hrest, List.drop_left]

/-- What is taken by `mbuf_j` in a run is delivered by its end if the consumer
takes two words afterwards. -/
theorem delivered_of_taken (h : s₀.IsReset) (before : List (Input p))
    {after : List (Input p)}
    (hready : 2 ≤ after.countP fun i => i.mAxisTready j) :
    (trace next s₀ before).flatMap (mTaken j) <+:
      (trace next s₀ (before ++ after)).flatMap (mDelivered j) := by
  have hbefore := mTaken_run h j before
  have hall := mTaken_run h j (before ++ after)
  have hkeeps : ∀ (s : State p) (i : Input p), (s.mbuf j).Compact →
      ((next s i).mbuf j).Compact :=
    fun _ _ hs => InoutBuffer.step_compact hs _ _ _
  have hcompact : ((run next s₀ before).mbuf j).Compact :=
    run_invariant (fun s : State p => (s.mbuf j).Compact) hkeeps
      (h.mbuf j).compact before
  have htwo := ((run next s₀ before).mbuf j).length_contents_le
  have hdrain := run_drains (fun s : State p => (s.mbuf j).Compact)
    (fun s => (s.mbuf j).contents.length) (fun _ => 0) (mDelivered j)
    (fun i => i.mAxisTready j) hkeeps (fun s i _ => mbuf_length_le s i j)
    (fun _ _ _ _ => le_refl 0)
    (fun _ _ hs hgo hpos => Or.inl (mDelivered_of_pending hs hgo hpos))
    hcompact after
    (m := ((run next s₀ before).mbuf j).contents.length) le_rfl (by omega)
  refine List.prefix_of_prefix_length_le ?_ ⟨_, hall.symm⟩ ?_
  · rw [trace_append, List.flatMap_append]
    exact List.prefix_append _ _
  · rw [hbefore, trace_append, List.flatMap_append, List.length_append,
      List.length_append]
    omega

/-- A burst ends with the beat that is answered. -/
theorem WriteBurst.expected_eq_snoc (b : WriteBurst) :
    ∃ beats last, b.expected = beats ++ [last] ∧
      last.reply = [last.awid] := by
  rw [expected, Burst.beats, List.mapIdx_concat]
  exact ⟨_, _, rfl, if_pos b.final_last⟩

/-- The beats of a burst that has been answered have been applied. -/
theorem answered_applied (h : s₀.IsReset) (hissues : Issues bursts s₀ inputs) :
    (bursts.take ((trace next s₀ inputs).flatMap bSent).length).flatMap
        WriteBurst.expected <+: (trace next s₀ inputs).flatMap applied := by
  have hreplies := congrArg List.length (bSent_eq h inputs)
  have hcount := (bSent_isPrefix h hissues).length_le
  have happlied := applied_isPrefix h hissues
  rw [List.length_append] at hreplies
  rw [List.length_map] at hcount
  generalize ((trace next s₀ inputs).flatMap bSent).length = n at *
  generalize (trace next s₀ inputs).flatMap applied = beats at *
  have htake : (bursts.take n).flatMap WriteBurst.expected <+:
      bursts.flatMap WriteBurst.expected := by
    conv_rhs => rw [← List.take_append_drop n bursts, List.flatMap_append]
    exact List.prefix_append _ _
  by_contra hmissing
  have hshort : beats.length <
      ((bursts.take n).flatMap WriteBurst.expected).length := by
    by_contra hlong
    exact hmissing
      (List.prefix_of_prefix_length_le htake happlied (not_lt.mp hlong))
  have hbeats := List.prefix_of_prefix_length_le happlied htake hshort.le
  have hanswers := congrArg List.length (reply_stream (bursts.take n))
  rcases List.eq_nil_or_concat (bursts.take n) with hnil | ⟨whole, b, hlast⟩
  · rw [hnil] at hshort
    exact absurd hshort (Nat.not_lt_zero _)
  · obtain ⟨body, last, hb, hreply⟩ := b.expected_eq_snoc
    have hlen := congrArg List.length hlast
    rw [List.length_take_of_le hcount] at hlen
    rw [List.length_map, List.length_take_of_le hcount] at hanswers
    rw [hlast, List.concat_eq_append, List.flatMap_append,
      List.flatMap_singleton, hb, ← List.append_assoc] at hbeats hshort hanswers
    rcases List.prefix_concat_iff.mp hbeats with heq | hbody
    · rw [heq] at hshort
      exact absurd hshort (lt_irrefl _)
    · have hfew := (hbody.flatMap WriteBeat.reply).length_le
      rw [List.flatMap_append, List.flatMap_singleton, hreply,
        List.length_append, List.length_singleton] at hanswers
      omega

/-- The words taken by `mbuf_j` are those of the applied beats exactly if the
buffer is ready for each of them. -/
theorem mTaken_run_eq_iff :
    (trace next s₀ inputs).flatMap (mTaken j) =
        targetWords j ((trace next s₀ inputs).flatMap applied) ↔
      ∀ c ∈ trace next s₀ inputs, intWselWire c.state c.input (j + 2) = true →
        (c.state.mbuf j).inReady = true := by
  have hsub : ∀ c : Cycle (State p) (Input p),
      (mTaken j c).Sublist (targetWords j (applied c)) :=
    fun c => mTaken_sublist c.state c.input j
  rw [targetWords_flatMap, flatMap_eq_iff_of_sublist hsub]
  exact forall₂_congr fun c _ => mTaken_eq_iff c.state c.input j

theorem StreamExact.mTaken_run (h : s₀.IsReset)
    (hissues : Issues bursts s₀ inputs)
    (hexact : StreamExact bursts j s₀ inputs) :
    (trace next s₀ inputs).flatMap (mTaken j) =
      targetWords j ((trace next s₀ inputs).flatMap applied) := by
  have hwords := hexact.inOrder
  rw [acceptedBeats_eq h hissues, targetWords_append, List.drop_left,
    List.append_cancel_right_eq] at hwords
  rw [hwords]
  exact AxiHub.mTaken_run h j inputs

/-- Stream port `j` loses nothing exactly if no beat is applied to it while
`mbuf_j` is not ready. -/
theorem streamExact_iff (h : s₀.IsReset)
    (hissues : Issues bursts s₀ inputs) (j : Fin hubSize) :
    StreamExact bursts j s₀ inputs ↔
      ∀ c ∈ trace next s₀ inputs, intWselWire c.state c.input (j + 2) = true →
        (c.state.mbuf j).inReady = true := by
  constructor
  · intro hexact
    exact mTaken_run_eq_iff.mp (hexact.mTaken_run h hissues)
  · intro hready
    constructor
    · have htaken := mTaken_run_eq_iff.mpr hready
      rw [acceptedBeats_eq h hissues, targetWords_append, List.drop_left,
        List.append_cancel_right_eq, ← htaken]
      exact mTaken_run h j inputs
    · rintro before after rfl hconsumer
      have hbefore : ∀ c ∈ trace next s₀ before,
          intWselWire c.state c.input (j + 2) = true →
            (c.state.mbuf j).inReady = true := by
        intro c hc
        apply hready
        rw [trace_append]
        exact List.mem_append_left _ hc
      have hissued : Issues bursts s₀ before := by
        constructor
        · refine List.IsPrefix.trans ?_ hissues.aw
          rw [trace_append, List.flatMap_append]
          exact List.prefix_append _ _
        · refine List.IsPrefix.trans ?_ hissues.w
          rw [trace_append, List.flatMap_append]
          exact List.prefix_append _ _
      have hdelivered := delivered_of_taken h before hconsumer
      rw [mTaken_run_eq_iff.mpr hbefore] at hdelivered
      obtain ⟨rest, hrest⟩ := answered_applied h hissued
      refine List.IsPrefix.trans ?_ hdelivered
      rw [← hrest, targetWords_append]
      exact List.prefix_append _ _

end Run

/-! ## A burst to a stream -/

/-- Four beats for stream port 0. -/
def streamBurst : WriteBurst where
  cmd := ⟨7, 0x02000000⟩
  body := [⟨0xf, false, 11⟩, ⟨0xf, false, 12⟩, ⟨0xf, false, 13⟩]
  final := ⟨0xf, true, 14⟩
  body_not_last := by decide
  final_last := rfl
  length_body_le := by decide

/-- A beat in each cycle, with TREADY as given. -/
def streamInputs (tready : Bool) : List (Input ⟨32, 32⟩) :=
  let i : Input ⟨32, 32⟩ :=
    { Input.idle with sAxiBready := true, mAxisTready := fun _ => tready }
  let w : Input ⟨32, 32⟩ := { i with sAxiWvalid := true, sAxiWstrb := 0xf }
  [{ w with sAxiWdata := 11, sAxiAwvalid := true, sAxiAwid := 7,
            sAxiAwaddr := 0x02000000 },
   { w with sAxiWdata := 12 }, { w with sAxiWdata := 13 },
   { w with sAxiWdata := 14, sAxiWlast := true }, i, i, i]

theorem issues_streamInputs (tready : Bool) :
    Issues [streamBurst] (State.cleared ⟨32, 32⟩) (streamInputs tready) := by
  cases tready <;> exact ⟨⟨[], by decide⟩, ⟨[], by decide⟩⟩

theorem streamExact_ready :
    StreamExact [streamBurst] 0 (State.cleared ⟨32, 32⟩)
      (streamInputs true) :=
  (streamExact_iff (State.isReset_cleared _) (issues_streamInputs true) 0).mpr
    (by decide)

/-- A consumer that does not take anything for long enough loses the third
word. -/
theorem not_streamExact_stalled :
    (State.cleared ⟨32, 32⟩).IsReset ∧
      Issues [streamBurst] (State.cleared ⟨32, 32⟩) (streamInputs false) ∧
      ¬StreamExact [streamBurst] 0 (State.cleared ⟨32, 32⟩)
        (streamInputs false) := by
  refine ⟨State.isReset_cleared _, issues_streamInputs false, fun h => ?_⟩
  exact absurd h.inOrder (by decide)

end RedPitayaNotes.AxiHub
