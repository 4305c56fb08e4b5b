import RedPitayaNotes.Support.Clocked
import RedPitayaNotes.WriteC2Files.Program

/-!
# The loops of a recording

Each loop of the two programs comes to its end once what it waits for is there.
As long as the receiver writes the frames of a round before the FIFO runs short
of them, a program goes from its first statement to its last.
-/

namespace RedPitayaNotes.WriteC2Files

open Clocked FrameQueue

section Loops

variable {s : State} (p : Program) (date : String) (settings : Settings) {a : Answer}

/-! ## One round -/

/-- The two loops that read the samples of a round. -/
theorem run_copies {i j n : ℕ} (hstatement : s.statement = .copy i j) (hi : i < 250)
    (hj : j < 8) (hn : 8 * i + j + n = 2000) :
    let s' := run (State.next p date settings) s (List.replicate n (.step a))
    s'.statement = .test ∧ s'.offset = s.offset + 250 ∧ s'.rst = s.rst ∧
      s'.fifo = { s.fifo with queue := s.fifo.queue.skip (n * 2) } := by
  induction n generalizing s i j with
  | zero => omega
  | succ n ih =>
      rw [List.replicate_succ, run_cons]
      have hstep : s.next p date settings (.step a) =
          if j + 1 < 8 then { s.copy p i j with statement := .copy i (j + 1) }
          else if i + 1 < 250 then { s.copy p i j with statement := .copy (i + 1) 0 }
          else { s.copy p i j with offset := s.offset + 250, statement := .test } := by
        change s.step p date settings a = _
        unfold State.step
        rw [hstatement]
      rw [hstep, Nat.succ_mul, Nat.add_comm (n * 2), Queue.skip_add]
      by_cases hrow : j + 1 < 8
      · rw [if_pos hrow]
        exact ih rfl hi hrow (by omega)
      · rw [if_neg hrow]
        by_cases hcolumn : i + 1 < 250
        · rw [if_pos hcolumn]
          exact ih rfl hcolumn (by decide) (by omega)
        · rw [if_neg hcolumn]
          obtain rfl : n = 0 := by omega
          exact ⟨rfl, rfl, rfl, rfl⟩

/-- A round, once there are samples enough. -/
theorem run_round (hstatement : s.statement = .wait) (hready : 500 ≤ s.cntr a) :
    let s' := run (State.next p date settings) s (List.replicate 2001 (.step a))
    s'.statement = .test ∧ s'.offset = s.offset + 250 ∧ s'.rst = s.rst ∧
      s'.fifo = { s.fifo with queue := s.fifo.queue.skip (250 * 16) } := by
  have hstep : s.next p date settings (.step a) = { s with statement := .copy 0 0 } := by
    change s.step p date settings a = _
    unfold State.step
    rw [hstatement]
    exact if_neg (Nat.not_lt.mpr hready)
  rw [List.replicate_succ, run_cons, hstep]
  exact run_copies p date settings rfl (by decide) (by decide) rfl

/-- Frames that are written while there is room. -/
theorem run_frames (hrst : s.rst = true) (hreads : s.statement.recorded = false)
    {frames : List Frame}
    (hroom : s.fifo.queue.frames.length + frames.length ≤ writeDepth) :
    run (State.next p date settings) s (frames.map .frame) =
      { s with
        fifo :=
          { s.fifo with
            queue :=
              { s.fifo.queue with
                frames := s.fifo.queue.frames ++ frames.map Frame.words }
            written := s.fifo.written ++ frames.map Frame.words } } := by
  rw [run, List.foldl_map]
  refine Feed.foldl_write _ Frame.words (fun fifo => { s with fifo := fifo })
    (fun fifo f => ?_) hroom
  change State.frame _ f = _
  unfold State.frame
  rw [hrst, hreads]
  rfl

/-! ## All rounds -/

/-- Between two rounds the frames `frames` are in the FIFO. -/
structure Between (s : State) (offset : ℕ) (frames written : List Frame) : Prop where
  statement : s.statement = .test
  offset_eq : s.offset = offset
  rst : s.rst = true
  fifo : s.fifo = ⟨⟨[], frames.map Frame.words⟩, written.map Frame.words, false⟩

/-- The frames of a round are written, and those written first are read. -/
def roundEvents (a : Answer) (frames : List Frame) : List Event :=
  frames.map .frame ++ List.replicate 2002 (.step a)

theorem length_of_mem_words {frames : List Frame} {f : List (BitVec 32)}
    (h : f ∈ frames.map Frame.words) : f.length = 16 := by
  obtain ⟨frame, -, rfl⟩ := List.mem_map.mp h
  exact frame.length_eq

theorem Between.round {offset : ℕ} {frames written new : List Frame}
    (h : Between s offset frames written) (hoffset : offset < p.stop)
    (hnew : new.length = 250) (hlag : 250 + a.lag ≤ frames.length)
    (hroom : frames.length + 250 ≤ 1024) :
    Between (run (State.next p date settings) s (roundEvents a new)) (offset + 250)
      ((frames ++ new).drop 250) (written ++ new) := by
  have hlen : ((frames ++ new).map Frame.words).length = frames.length + 250 := by
    rw [List.length_map, List.length_append, hnew]
  have hframes := run_frames p date settings h.rst (by rw [h.statement]; rfl)
    (show s.fifo.queue.frames.length + new.length ≤ writeDepth by
      rw [h.fifo, List.length_map, hnew]
      exact hroom)
  rw [h.fifo, ← List.map_append, ← List.map_append] at hframes
  generalize hfed : run (State.next p date settings) s (new.map .frame) = t at hframes
  have hwait : t.step p date settings a = { t with statement := .wait } := by
    unfold State.step
    rw [hframes]
    dsimp only
    rw [h.statement]
    exact if_pos (h.offset_eq ▸ hoffset)
  have hready : 500 ≤ t.cntr a := by
    rw [hframes]
    change 500 ≤ ((frames ++ new).map Frame.words).length - a.lag
    omega
  obtain ⟨htest, hnext, hrst, hfifo⟩ := run_round p date settings (a := a)
    (s := { t with statement := .wait }) rfl hready
  have hrun : run (State.next p date settings) s (roundEvents a new) =
      run (State.next p date settings) { t with statement := .wait }
        (List.replicate 2001 (.step a)) := by
    rw [roundEvents, run_append, hfed, List.replicate_succ, run_cons, ← hwait]
    rfl
  rw [hrun]
  refine ⟨htest, hnext.trans ?_, hrst.trans ?_, hfifo.trans ?_⟩
  · rw [hframes]
    exact congrArg (· + 250) h.offset_eq
  · rw [hframes]
    exact h.rst
  · rw [hframes]
    dsimp only
    rw [Queue.skip_frames (by decide) (fun _ => length_of_mem_words)
      (by rw [hlen]; omega), List.map_drop]

end Loops

end RedPitayaNotes.WriteC2Files
