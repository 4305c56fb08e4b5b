import RedPitayaNotes.SdrTransceiverWide.Server
import RedPitayaNotes.Support.FrameQueue

/-!
# The receive data connections of the wide transceiver

Whoever connects to slot 1 is served by `rx_data_handler`, which takes the
samples out of the FIFO of `rx.tcl`.  All handlers read the same FIFO at the same
address, and nothing but the slot of `sock_thread` keeps them apart.  A step is a
statement of `main`, of one of the other threads, or of a receive handler, and
samples come and go at any time between two steps.
-/

namespace RedPitayaNotes.SdrTransceiverWide.RxData

open FrameQueue

/-- The index of `rx_data_handler`. -/
def rxDataSlot : Handler := ⟨1, by decide⟩

/-- The two words of a sample. -/
structure Frame where
  words : List (BitVec 32)
  length_eq : words.length = 2

/-- `WRITE_DEPTH` of the FIFO. -/
def writeDepth : ℕ := 8192

/-- `sizeof(buffer)` in words. -/
def bufferWords : ℕ := 32768 / 4

/-- The statement of the handler to be executed next. -/
inductive Statement where
  /-- The second assignment to `rx_rst`, before the loop. -/
  | enable
  /-- The test of `rx_cntr` for an overflow, and the end of the reset. -/
  | overflow
  | restart
  /-- The loop that waits for samples. -/
  | wait
  /-- `memcpy()`, word by word. -/
  | copy
  | send
deriving DecidableEq

/-- The local state of a handler.  The last three fields are the history of its
connection: the frames written to the FIFO since the handler reset it, whether
any of them was lost, and the words sent. -/
structure Local where
  statement : Statement
  buffer : List (BitVec 32)
  written : List (List (BitVec 32))
  gaps : Bool
  sent : List (BitVec 32)

/-- The handler after the first assignment to `rx_rst`. -/
def Local.start : Local := ⟨.enable, [], [], false, []⟩

/-- `rxRst` is bit 0 of `rx_rst`; `locals i` belongs to thread `i`. -/
structure System where
  server : Server
  rxRst : Bool
  fifo : Queue (BitVec 32)
  locals : ℕ → Local

def System.start (command : BitVec 32) : System where
  server := .start command
  rxRst := false
  fifo := Queue.empty
  locals _ := .start

/-- What the calls of a statement answer: the words that `rx_cntr` does not show
yet, and whether `send()` fails. -/
structure Answer where
  lag : ℕ
  sendFails : Bool

inductive Event where
  /-- A step of `main` or of a thread, but for the loop of a receive handler. -/
  | server (e : SdrTransceiverWide.Event)
  | frame (f : Frame)
  /-- The next frame is put in front of the reader. -/
  | load
  /-- Thread `i` executes a statement of the loop of `rx_data_handler`. -/
  | data (i : ℕ) (a : Answer)

/-- What thread `i` does next, if it is in `rx_data_handler`. -/
def receiver (s : Server) (i : ℕ) : Option ThreadStatement :=
  if s.main = .exited then none
  else
    match s.threads[i]? with
    | none => none
    | some t => if t.handler = rxDataSlot then some t.statement else none

/-- Thread `i` is in the loop of `rx_data_handler`. -/
def receiving (s : Server) (i : ℕ) : Bool := receiver s i = some .loop

def Local.frame (l : Local) (full : Bool) (f : Frame) : Local :=
  { l with written := l.written ++ [f.words], gaps := l.gaps || full }

namespace System

variable (s : System)

/-- The FIFO with the history of connection `i`. -/
def feed (i : ℕ) : Feed (BitVec 32) := ⟨s.fifo, (s.locals i).written, (s.locals i).gaps⟩

def rxCntr (a : Answer) : ℕ := s.fifo.words.length - a.lag

/-- Thread `i` changes its local state. -/
def setLocal (i : ℕ) (l : Local) : System :=
  { s with locals := Function.update s.locals i l }

/-- The receiver writes a frame, unless the FIFO is in reset. -/
def frame (f : Frame) : System :=
  if s.rxRst then
    { s with
      fifo := s.fifo.write writeDepth f.words
      locals := fun i =>
        if receiving s.server i then
          (s.locals i).frame (decide (writeDepth ≤ s.fifo.frames.length)) f
        else s.locals i }
  else s

/-- In the place of the defaults of a control handler stands the first assignment
to `rx_rst`. -/
def serverStep (e : SdrTransceiverWide.Event) : System :=
  match e with
  | .thread i _ =>
    match receiver s.server i with
    | some .loop => s
    | some .setDefaults =>
      { s with
        server := s.server.next e
        rxRst := false
        fifo := Queue.empty
        locals := Function.update s.locals i .start }
    | _ => { s with server := s.server.next e }
  | _ => { s with server := s.server.next e }

def dataStep (i : ℕ) (a : Answer) : System :=
  if receiving s.server i then
    let l := s.locals i
    match l.statement with
    | .enable => { s with rxRst := true }.setLocal i { l with statement := .overflow }
    | .overflow =>
      if s.rxCntr a ≥ 16384 then
        { s with rxRst := false, fifo := Queue.empty }.setLocal i
          { l with gaps := true, statement := .restart }
      else s.setLocal i { l with statement := .wait }
    | .restart => { s with rxRst := true }.setLocal i { l with statement := .wait }
    | .wait =>
      if s.rxCntr a < 8192 then s
      else s.setLocal i { l with buffer := [], statement := .copy }
    | .copy =>
      if l.buffer.length < bufferWords then
        let r := s.fifo.read
        -- the hub answers a read with zeros if the stream has no word for it
        { s with fifo := r.2 }.setLocal i
          { l with buffer := l.buffer ++ [r.1.getD 0] }
      else s.setLocal i { l with statement := .send }
    | .send =>
      if a.sendFails then { s with server := s.server.next (.thread i none) }
      else
        s.setLocal i { l with sent := l.sent ++ l.buffer, statement := .overflow }
  else s

def next : Event → System
  | .server e => s.serverStep e
  | .frame f => s.frame f
  | .load => { s with fifo := s.fifo.load }
  | .data i a => s.dataStep i a

end System

/-! ## One reader -/

section Reader

variable {s : Server} {i j : ℕ}

theorem receiver_eq_some {x : ThreadStatement} :
    receiver s i = some x ↔ s.main ≠ .exited ∧ ∃ t, s.threads[i]? = some t ∧
      t.handler = rxDataSlot ∧ t.statement = x := by
  unfold receiver
  split
  next h => simp [h]
  next h =>
    cases s.threads[i]? with
    | none => simp
    | some t =>
        dsimp only
        split
        next hhandler => simp [h, hhandler]
        next hhandler => simp [hhandler]

/-- A slot is for one thread, so there is one reader. -/
theorem receiver_unique (h : s.Sound) {x y : ThreadStatement}
    (hi : receiver s i = some x) (hx : x ≠ .finished)
    (hj : receiver s j = some y) (hy : y ≠ .finished) : i = j := by
  obtain ⟨-, t, ht, hhandler, rfl⟩ := receiver_eq_some.mp hi
  obtain ⟨-, u, hu, hhandler', rfl⟩ := receiver_eq_some.mp hj
  have hone : s.threads.countP (Thread.alive rxDataSlot) ≤ 1 :=
    (Nat.le_add_right _ _).trans ((h.held rxDataSlot).trans (Bool.toNat_le _))
  exact Threads.unique hone ht hu (by simp [Thread.alive, hhandler, hx])
    (by simp [Thread.alive, hhandler', hy])

/-- A step of a thread replaces it, by one that comes to its loop only from what
stands before it. -/
theorem threadStep_eq {t : Thread} (ht : s.threads[i]? = some t)
    (received : Option (BitVec 32)) :
    (s.threadStep i t received).main = s.main ∧
      ∃ t', (s.threadStep i t received).threads = s.threads.set i t' ∧
        t'.handler = t.handler ∧
        (t'.statement = .loop → t.statement = .setDefaults ∨ t' = t) := by
  have hsame : s.threads = s.threads.set i t := by
    obtain ⟨hi, rfl⟩ := List.getElem?_eq_some_iff.mp ht
    exact (List.set_getElem_self hi).symm
  unfold Server.threadStep
  split
  next => exact ⟨rfl, _, rfl, rfl, by simp⟩
  next h => exact ⟨rfl, _, rfl, rfl, fun _ => Or.inl h⟩
  next =>
    cases received with
    | some command => exact ⟨rfl, t, hsame, rfl, fun _ => Or.inr rfl⟩
    | none => exact ⟨rfl, _, rfl, rfl, by simp⟩
  next => exact ⟨rfl, _, rfl, rfl, by simp⟩
  next => exact ⟨rfl, _, rfl, rfl, by simp⟩
  next => exact ⟨rfl, _, rfl, rfl, by simp⟩
  next => exact ⟨rfl, t, hsame, rfl, fun _ => Or.inr rfl⟩

/-- The statements of `main` add a thread at most. -/
theorem mainStep_eq {e : SdrTransceiverWide.Event}
    (he : ∀ i received, e ≠ .thread i received) :
    (s.main = .exited → (s.next e).main = .exited) ∧
      ∃ new, (s.next e).threads = s.threads ++ new ∧
        ∀ t ∈ new, t.statement = .start := by
  have hnil : s.threads = s.threads ++ [] := (List.append_nil _).symm
  cases e with
  | accept fd =>
      change (_ → (s.accept fd).main = _) ∧ ∃ new, (s.accept fd).threads = _ ∧ _
      unfold Server.accept
      split
      all_goals exact ⟨by simp_all, [], hnil, by simp⟩
  | recv stream =>
      change (_ → (s.recv stream).main = _) ∧ ∃ new, (s.recv stream).threads = _ ∧ _
      unfold Server.recv
      split
      all_goals exact ⟨by simp_all, [], hnil, by simp⟩
  | claim =>
      change (_ → (s.claim).main = _) ∧ ∃ new, (s.claim).threads = _ ∧ _
      unfold Server.claim
      split
      all_goals exact ⟨by simp_all, [], hnil, by simp⟩
  | pthreadCreate result =>
      change (_ → (s.pthreadCreate result).main = _) ∧
        ∃ new, (s.pthreadCreate result).threads = _ ∧ _
      unfold Server.pthreadCreate
      split
      next slot hmain =>
        split
        next => exact ⟨fun _ => rfl, [], hnil, by simp⟩
        next =>
          refine ⟨by simp [hmain], ?_⟩
          dsimp only
          split
          · exact ⟨_, rfl, by simp⟩
          · exact ⟨[], hnil, by simp⟩
      next => exact ⟨id, [], hnil, by simp⟩
  | thread i received => exact absurd rfl (he i received)

theorem receiving_iff : receiving s i = true ↔ receiver s i = some .loop := by
  simp [receiving]

/-- A receive handler comes to its loop by its own step. -/
theorem receiving_next {e : SdrTransceiverWide.Event}
    (h : receiving (s.next e) j = true) :
    receiving s j = true ∨
      ∃ received, e = .thread j received ∧ receiver s j = some .setDefaults := by
  simp only [receiving_iff, receiver_eq_some] at h ⊢
  obtain ⟨hmain, t', ht', hhandler, hloop⟩ := h
  by_cases he : ∀ i received, e ≠ .thread i received
  · obtain ⟨hexited, new, hthreads, hnew⟩ := mainStep_eq (s := s) he
    left
    refine ⟨fun hx => hmain (hexited hx), t', ?_, hhandler, hloop⟩
    rw [hthreads, List.getElem?_append] at ht'
    split at ht'
    · exact ht'
    · have hstart := hnew t' (List.mem_of_getElem? ht')
      rw [hloop] at hstart
      cases hstart
  · obtain ⟨i, received, rfl⟩ : ∃ i received, e = .thread i received := by
      simpa using he
    unfold Server.next at hmain ht'
    dsimp only at hmain ht'
    split at ht'
    next hexited =>
      rw [if_pos hexited] at hmain
      exact absurd hexited hmain
    next hrunning =>
      rw [if_neg hrunning] at hmain
      cases ht : s.threads[i]? with
      | none =>
          rw [ht] at ht'
          exact Or.inl ⟨hrunning, t', ht', hhandler, hloop⟩
      | some t =>
          rw [ht] at ht'
          obtain ⟨-, u, hthreads, hsame, hback⟩ := threadStep_eq ht received
          dsimp only at ht'
          rw [hthreads] at ht'
          by_cases hij : i = j
          · subst hij
            obtain ⟨hi, -⟩ := List.getElem?_eq_some_iff.mp ht
            rw [List.getElem?_set_self hi] at ht'
            obtain rfl := Option.some.inj ht'
            rcases hback hloop with hdefaults | rfl
            · exact Or.inr ⟨received, rfl, hrunning, t, ht, hsame ▸ hhandler,
                hdefaults⟩
            · exact Or.inl ⟨hrunning, _, ht, hhandler, hloop⟩
          · rw [List.getElem?_set_ne hij] at ht'
            exact Or.inl ⟨hrunning, t', ht', hhandler, hloop⟩

end Reader

/-! ## The words of a connection -/

/-- What holds before each statement of the loop. -/
def Loop (feed : Feed (BitVec 32)) (l : Local) : Prop :=
  match l.statement with
  | .copy => ∃ kept whole, Stream 2 feed l.buffer kept whole ∧
      Sent 4096 l.sent kept ∧ l.buffer.length ≤ bufferWords ∧ 4096 ≤ whole.length
  | .send => ∃ kept block whole, Stream 2 feed [] (kept ++ block) whole ∧
      Sent 4096 l.sent kept ∧ l.buffer = block.flatten ∧ block.length = 4096
  | _ => ∃ kept whole, Stream 2 feed [] kept whole ∧ Sent 4096 l.sent kept

section Loop

variable {feed : Feed (BitVec 32)} {l : Local}

theorem Loop.delivered (h : Loop feed l) : Delivered 2 4096 feed l.sent := by
  unfold Loop at h
  split at h
  next =>
    obtain ⟨kept, whole, hs, hsent, -⟩ := h
    exact hs.delivered hsent
  next =>
    obtain ⟨kept, block, whole, hs, hsent, -⟩ := h
    exact hs.delivered_append hsent
  next =>
    obtain ⟨kept, whole, hs, hsent⟩ := h
    exact hs.delivered hsent

theorem Loop.start : Loop Feed.start Local.start :=
  ⟨[], [], Stream.start, Sent.nil _⟩

theorem Loop.frame (h : Loop feed l) (full : Bool) (f : Frame) :
    Loop (feed.write writeDepth f.words) (l.frame full f) := by
  unfold Loop at h ⊢
  unfold Local.frame
  dsimp only
  split at h
  next =>
    obtain ⟨kept, whole, hs, hsent, hlen, hwhole⟩ := h
    obtain ⟨whole', hs', hle⟩ := hs.write writeDepth f.length_eq
    exact ⟨kept, whole', hs', hsent, hlen, hwhole.trans hle.length_le⟩
  next =>
    obtain ⟨kept, block, whole, hs, hrest⟩ := h
    obtain ⟨whole', hs', -⟩ := hs.write writeDepth f.length_eq
    exact ⟨kept, block, whole', hs', hrest⟩
  next =>
    obtain ⟨kept, whole, hs, hsent⟩ := h
    obtain ⟨whole', hs', -⟩ := hs.write writeDepth f.length_eq
    exact ⟨kept, whole', hs', hsent⟩

theorem Loop.load (h : Loop feed l) : Loop feed.load l := by
  unfold Loop at h ⊢
  split at h
  next =>
    obtain ⟨kept, whole, hs, hrest⟩ := h
    exact ⟨kept, whole, hs.load, hrest⟩
  next =>
    obtain ⟨kept, block, whole, hs, hrest⟩ := h
    exact ⟨kept, block, whole, hs.load, hrest⟩
  next =>
    obtain ⟨kept, whole, hs, hsent⟩ := h
    exact ⟨kept, whole, hs.load, hsent⟩

end Loop

/-- The sent words of every connection are accounted for, and those of the one
that has the FIFO with what is in it. -/
structure Books (s : System) : Prop where
  sound : s.server.Sound
  delivered : ∀ i, Delivered 2 4096 (s.feed i) (s.locals i).sent
  loop : ∀ i, receiving s.server i = true → Loop (s.feed i) (s.locals i)

section Events

variable {s : System} {i : ℕ}

theorem receiving_unique (h : s.server.Sound) {j : ℕ}
    (hi : receiving s.server i = true) (hj : receiving s.server j = true) :
    i = j :=
  receiver_unique h (receiving_iff.mp hi) (by decide) (receiving_iff.mp hj)
    (by decide)

/-- The reader goes on; the connections before it keep what they have. -/
theorem Books.advance (h : Books s) (hi : receiving s.server i = true)
    (rxRst : Bool) {fifo : Queue (BitVec 32)} {l : Local}
    (hl : Loop ⟨fifo, l.written, l.gaps⟩ l) :
    Books (System.setLocal ⟨s.server, rxRst, fifo, s.locals⟩ i l) where
  sound := h.sound
  delivered j := by
    unfold System.feed System.setLocal
    dsimp only
    by_cases hij : j = i
    · subst hij
      rw [Function.update_self]
      exact hl.delivered
    · rw [Function.update_of_ne hij]
      exact h.delivered j
  loop j hj := by
    obtain rfl := receiving_unique h.sound hi hj
    unfold System.feed System.setLocal
    dsimp only
    rw [Function.update_self]
    exact hl

theorem Books.frame (h : Books s) (f : Frame) : Books (s.frame f) := by
  unfold System.frame
  split
  next =>
    refine ⟨h.sound, fun i => ?_, fun i hi => ?_⟩
    · unfold System.feed
      dsimp only
      split
      next hi => exact ((h.loop i hi).frame _ f).delivered
      next => exact h.delivered i
    · unfold System.feed
      dsimp only
      change receiving s.server i = true at hi
      rw [if_pos hi]
      exact (h.loop i hi).frame _ f
  next => exact h

theorem Books.load (h : Books s) : Books { s with fifo := s.fifo.load } :=
  ⟨h.sound, h.delivered, fun i hi => (h.loop i hi).load⟩

theorem Books.serverStep (h : Books s) (e : SdrTransceiverWide.Event) :
    Books (s.serverStep e) := by
  -- a step after which no other thread is in the loop
  have hplain : (∀ received j, e = .thread j received →
      receiver s.server j ≠ some .setDefaults) →
      Books { s with server := s.server.next e } := by
    intro he
    refine ⟨h.sound.next e, h.delivered, fun j hj => ?_⟩
    rcases receiving_next hj with hbefore | ⟨received, heq, hdefaults⟩
    · exact h.loop j hbefore
    · exact absurd hdefaults (he received j heq)
  unfold System.serverStep
  split
  next i received =>
    split
    next => exact h
    next hdefaults =>
      have hlocal : ∀ j, j ≠ i →
          Function.update s.locals i .start j = s.locals j := fun j hij =>
        Function.update_of_ne hij _ _
      refine ⟨h.sound.next (.thread i received), fun j => ?_, fun j hj => ?_⟩
      · unfold System.feed
        dsimp only
        by_cases hij : j = i
        · subst hij
          rw [Function.update_self]
          exact Loop.start.delivered
        · rw [hlocal j hij]
          exact h.delivered j
      · unfold System.feed
        dsimp only
        have hij : j = i := by
          rcases receiving_next hj with hbefore | ⟨received', heq, -⟩
          · exact receiver_unique h.sound (receiving_iff.mp hbefore) (by decide)
              hdefaults (by decide)
          · cases heq
            rfl
        subst hij
        rw [Function.update_self]
        exact Loop.start
    next hother =>
      refine hplain fun received' j heq hdefaults => ?_
      cases heq
      exact hother hdefaults
  next hother => exact hplain fun received j heq => absurd heq (hother j received)

theorem Books.dataStep (h : Books s) (i : ℕ) (a : Answer) :
    Books (s.dataStep i a) := by
  unfold System.dataStep
  split
  next hi =>
    have hloop := h.loop i hi
    unfold Loop at hloop
    dsimp only
    cases hstatement : (s.locals i).statement with
    | enable =>
        rw [hstatement] at hloop
        exact h.advance hi true hloop
    | overflow =>
        rw [hstatement] at hloop
        obtain ⟨kept, whole, hs, hsent⟩ := hloop
        dsimp only
        split
        · exact h.advance hi false ⟨kept, [], hs.clear, hsent⟩
        · exact h.advance hi s.rxRst ⟨kept, whole, hs, hsent⟩
    | restart =>
        rw [hstatement] at hloop
        exact h.advance hi true hloop
    | wait =>
        rw [hstatement] at hloop
        obtain ⟨kept, whole, hs, hsent⟩ := hloop
        dsimp only
        split
        next => exact h
        next hready =>
          have hwhole : 4096 ≤ whole.length := by
            have hwords := congrArg List.length hs.pending.words
            rw [List.nil_append, hs.pending.length_flatten] at hwords
            unfold System.rxCntr at hready
            change s.fifo.words.length = _ at hwords
            omega
          exact h.advance hi s.rxRst ⟨kept, whole, hs, hsent, Nat.zero_le _, hwhole⟩
    | copy =>
        rw [hstatement] at hloop
        obtain ⟨kept, whole, hs, hsent, hlen, hwhole⟩ := hloop
        dsimp only
        have hmax : bufferWords = 4096 * 2 := rfl
        split
        next hlt =>
          have hmul := Nat.mul_le_mul_right 2 hwhole
          obtain ⟨x, hread, hs'⟩ := hs.read (by decide)
            (show (s.locals i).buffer.length < whole.length * 2 by omega)
          have hx : s.fifo.read.1 = some x := hread
          rw [hx]
          refine h.advance hi s.rxRst ⟨kept, whole, hs', hsent, ?_, hwhole⟩
          rw [Option.getD_some, List.length_append, List.length_singleton]
          omega
        next hge =>
          obtain ⟨block, rest, hbuffer, hblock, hs'⟩ :=
            hs.finish (show (s.locals i).buffer.length = 4096 * 2 by omega) hwhole
          exact h.advance hi s.rxRst ⟨kept, block, rest, hs', hsent, hbuffer, hblock⟩
    | send =>
        rw [hstatement] at hloop
        obtain ⟨kept, block, whole, hs, hsent, hbuffer, hblock⟩ := hloop
        dsimp only
        split
        next =>
          refine ⟨h.sound.next (.thread i none), h.delivered, fun j hj => ?_⟩
          rcases receiving_next hj with hbefore | ⟨received, heq, hdefaults⟩
          · exact h.loop j hbefore
          · cases heq
            rw [receiving_iff.mp hi] at hdefaults
            cases hdefaults
        next =>
          exact h.advance hi s.rxRst
            ⟨kept ++ block, whole, hs, hsent.append hbuffer hblock⟩
  next => exact h

theorem Books.next (h : Books s) (e : Event) : Books (s.next e) := by
  cases e with
  | server e => exact h.serverStep e
  | frame f => exact h.frame f
  | load => exact h.load
  | data i a => exact h.dataStep i a

end Events

section Block

variable {s : System} {i : ℕ} {a : Answer}

theorem length_of_mem_words {frames : List Frame} {f : List (BitVec 32)}
    (h : f ∈ frames.map Frame.words) : f.length = 2 := by
  obtain ⟨frame, -, rfl⟩ := List.mem_map.mp h
  exact frame.length_eq

/-- Frames that are written while there is room. -/
theorem run_frames (hi : receiving s.server i = true) (hrst : s.rxRst = true)
    {frames : List Frame} (hroom : s.fifo.frames.length + frames.length ≤ writeDepth) :
    let s' := Clocked.run System.next s (frames.map .frame)
    s'.server = s.server ∧
      s'.fifo = { s.fifo with frames := s.fifo.frames ++ frames.map Frame.words } ∧
      s'.locals i =
        { s.locals i with
          written := (s.locals i).written ++ frames.map Frame.words } := by
  induction frames generalizing s with
  | nil => simp
  | cons f frames ih =>
      rw [List.length_cons] at hroom
      have hfree : s.fifo.frames.length < writeDepth := by omega
      have hstep : s.frame f =
          { s with
            fifo := { s.fifo with frames := s.fifo.frames ++ [f.words] }
            locals := fun j =>
              if receiving s.server j then (s.locals j).frame false f
              else s.locals j } := by
        unfold System.frame Queue.write
        rw [if_pos hrst, if_pos hfree, decide_eq_false (Nat.not_le.mpr hfree)]
      have hlocal : (s.frame f).locals i =
          { s.locals i with written := (s.locals i).written ++ [f.words] } := by
        rw [hstep]
        dsimp only
        rw [if_pos hi, Local.frame, Bool.or_false]
      obtain ⟨hserver, hfifo, hlast⟩ := ih (s := s.frame f)
        (by rw [hstep]; exact hi) (by rw [hstep]; exact hrst)
        (by
          rw [hstep, List.length_append, List.length_singleton]
          omega)
      rw [List.map_cons, Clocked.run_cons]
      refine ⟨hserver.trans (by rw [hstep]), hfifo.trans ?_, hlast.trans ?_⟩
      · rw [hstep]
        simp
      · rw [hlocal]
        simp

end Block

/-- A sample in which both words are different from those of the others. -/
def numbered (k : ℕ) : Frame where
  words := [BitVec.ofNat 32 (2 * k), BitVec.ofNat 32 (2 * k + 1)]
  length_eq := rfl

end RedPitayaNotes.SdrTransceiverWide.RxData
