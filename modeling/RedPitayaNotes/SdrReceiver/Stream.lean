import RedPitayaNotes.SdrReceiver.Server

/-!
# What the client of the eight-channel receiver is sent

In every run, whatever the receiver does between the statements of the server,
the words sent on a connection are whole frames that were written since it was
accepted, in order.  None is missing in between unless the FIFO was full.
-/

namespace RedPitayaNotes.SdrReceiver

open FrameQueue

/-- What holds before each statement. -/
def Books (s : State) : Prop :=
  match s.statement with
  | .setup => Delivered 16 1024 s.fifo s.sent
  | .accept => Delivered 16 1024 s.fifo s.sent ∧ s.rxRst = false ∧
      s.fifo.queue = Queue.empty
  | .copy => ∃ kept whole, Stream 16 s.fifo s.buffer kept whole ∧
      Sent 1024 s.sent kept ∧ s.buffer.length ≤ bufferWords ∧ 1024 ≤ whole.length
  | .send => ∃ kept block whole, Stream 16 s.fifo [] (kept ++ block) whole ∧
      Sent 1024 s.sent kept ∧ s.buffer = block.flatten ∧ block.length = 1024
  | _ => ∃ kept whole, Stream 16 s.fifo [] kept whole ∧ Sent 1024 s.sent kept

/-! ## One event -/

section Events

variable {s : State}

theorem Books.delivered (h : Books s) : Delivered 16 1024 s.fifo s.sent := by
  unfold Books at h
  split at h
  next => exact h
  next => exact h.1
  next =>
    obtain ⟨kept, whole, hs, hsent, -⟩ := h
    exact hs.delivered hsent
  next =>
    obtain ⟨kept, block, whole, hs, hsent, -⟩ := h
    exact hs.delivered_append hsent
  next =>
    obtain ⟨kept, whole, hs, hsent⟩ := h
    exact hs.delivered hsent

theorem Books.frame (h : Books s) (f : Frame) : Books (s.frame f) := by
  unfold State.frame
  split
  next hrst =>
    unfold Books at h ⊢
    dsimp only
    split at h
    next => exact h.write writeDepth f.words
    next => exact absurd (hrst.symm.trans h.2.1) (by decide)
    next =>
      obtain ⟨kept, whole, hs, hsent, hlen, hwhole⟩ := h
      obtain ⟨whole', hs', hle⟩ := hs.write writeDepth f.length_eq
      exact ⟨kept, whole', hs', hsent, hlen, hwhole.trans hle.length_le⟩
    next =>
      obtain ⟨kept, block, whole, hs, hrest⟩ := h
      obtain ⟨whole', hs', -⟩ := hs.write writeDepth f.length_eq
      exact ⟨kept, block, whole', hs', hrest⟩
    next =>
      obtain ⟨kept, whole, hs, hsent⟩ := h
      obtain ⟨whole', hs', -⟩ := hs.write writeDepth f.length_eq
      exact ⟨kept, whole', hs', hsent⟩
  next => exact h

theorem Books.load (h : Books s) : Books { s with fifo := s.fifo.load } := by
  unfold Books at h ⊢
  dsimp only
  split at h
  next => exact h
  next =>
    obtain ⟨hsent, hrst, hfifo⟩ := h
    refine ⟨hsent, hrst, ?_⟩
    change s.fifo.queue.load = Queue.empty
    rw [hfifo]
    rfl
  next =>
    obtain ⟨kept, whole, hs, hrest⟩ := h
    exact ⟨kept, whole, hs.load, hrest⟩
  next =>
    obtain ⟨kept, block, whole, hs, hrest⟩ := h
    exact ⟨kept, block, whole, hs.load, hrest⟩
  next =>
    obtain ⟨kept, whole, hs, hsent⟩ := h
    exact ⟨kept, whole, hs.load, hsent⟩

variable {phase : BitVec 32 → BitVec 32}

theorem Books.step (h : Books s) (a : Answer) : Books (s.step phase a) := by
  have hdelivered := h.delivered
  unfold State.step
  unfold Books at h
  split at h
  next hstatement =>
    rw [hstatement]
    exact ⟨hdelivered, rfl, rfl⟩
  next hstatement =>
    rw [hstatement]
    have hempty : Stream 16 ⟨s.fifo.queue, [], false⟩ [] [] [] := by
      rw [h.2.2]
      exact Stream.start
    exact ⟨[], [], hempty, Sent.nil _⟩
  next hstatement =>
    rw [hstatement]
    obtain ⟨kept, whole, hs, hsent, hlen, hwhole⟩ := h
    dsimp only
    have hmax : bufferWords = 1024 * 16 := rfl
    split
    next hlt =>
      have hmul := Nat.mul_le_mul_right 16 hwhole
      obtain ⟨x, hread, hs'⟩ := hs.read (by decide)
        (show s.buffer.length < whole.length * 16 by omega)
      rw [hread]
      refine ⟨kept, whole, hs', hsent, ?_, hwhole⟩
      change (s.buffer ++ [x]).length ≤ _
      rw [List.length_append, List.length_singleton]
      omega
    next hge =>
      obtain ⟨block, rest, hbuffer, hblock, hs'⟩ :=
        hs.finish (show s.buffer.length = 1024 * 16 by omega) hwhole
      exact ⟨kept, block, rest, hs', hsent, hbuffer, hblock⟩
  next hstatement =>
    rw [hstatement]
    obtain ⟨kept, block, whole, hs, hsent, hbuffer, hblock⟩ := h
    dsimp only
    split
    next => exact hdelivered
    next => exact ⟨kept ++ block, whole, hs, hsent.append hbuffer hblock⟩
  next hsetup haccept hcopy hsend =>
    obtain ⟨kept, whole, hs, hsent⟩ := h
    cases hstatement : s.statement with
    | setup => exact absurd hstatement hsetup
    | accept => exact absurd hstatement haccept
    | copy => exact absurd hstatement hcopy
    | send => exact absurd hstatement hsend
    | control =>
        dsimp only
        unfold State.controlStep
        cases a.fionread with
        | none => exact hdelivered
        | some size =>
            dsimp only
            split
            · cases a.recv with
              | none => exact hdelivered
              | some bytes => exact ⟨kept, whole, hs, hsent⟩
            · exact ⟨kept, whole, hs, hsent⟩
    | overflow =>
        dsimp only
        split
        · exact ⟨kept, [], hs.clear, hsent⟩
        · exact ⟨kept, whole, hs, hsent⟩
    | restart => exact ⟨kept, whole, hs, hsent⟩
    | count =>
        dsimp only
        split
        next hready =>
          have hcount := hs.count_le (by decide)
          have hwhole : 1024 ≤ whole.length := by
            unfold State.rxCntr at hready
            omega
          exact ⟨kept, whole, hs, hsent, Nat.zero_le _, hwhole⟩
        next => exact ⟨kept, whole, hs, hsent⟩

theorem Books.next (h : Books s) (e : Event) : Books (s.next phase e) := by
  cases e with
  | frame f => exact h.frame f
  | load => exact h.load
  | step a => exact h.step a

theorem Books.run (h : Books s) (events : List Event) :
    Books (s.run phase events) := by
  induction events generalizing s with
  | nil => exact h
  | cons e events ih => exact ih (h.next e)

end Events

section Block

variable {s : State} (phase : BitVec 32 → BitVec 32) {a : Answer}

/-- Frames that are written while there is room. -/
theorem run_frames (hrst : s.rxRst = true) {frames : List Frame}
    (hroom : s.fifo.queue.frames.length + frames.length ≤ writeDepth) :
    s.run phase (frames.map .frame) =
      { s with
        fifo :=
          { s.fifo with
            queue :=
              { s.fifo.queue with
                frames := s.fifo.queue.frames ++ frames.map Frame.words }
            written := s.fifo.written ++ frames.map Frame.words } } := by
  rw [State.run, List.foldl_map]
  refine Feed.foldl_write _ Frame.words (fun fifo => { s with fifo := fifo })
    (fun fifo f => ?_) hroom
  exact if_pos hrst

end Block

end RedPitayaNotes.SdrReceiver
