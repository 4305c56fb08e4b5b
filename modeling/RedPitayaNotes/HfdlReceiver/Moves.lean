import Mathlib.Logic.Relation
import RedPitayaNotes.HfdlReceiver.Main

/-!
# What the main loop does to its clients

Every turn of the main loop is a sequence of moves: a connection accepted,
refused, read or closed, a chunk copied to the queues, a queue flushed.  What
every move keeps holds in every run.
-/

namespace RedPitayaNotes.HfdlReceiver

open Bits Memory

namespace Client

variable {c c' : Client}

/-- The clients have what `main` gives a client for good. -/
structure Alike (c c' : Client) : Prop where
  format : c'.format = c.format
  channel : c'.channel = c.channel
  sendqMax : c'.sendqMax = c.sendqMax

theorem Alike.trans {c'' : Client} (h : c.Alike c') (h' : c'.Alike c'') :
    c.Alike c'' :=
  ⟨h'.format.trans h.format, h'.channel.trans h.channel,
    h'.sendqMax.trans h.sendqMax⟩

/-- An append changes the queue only. -/
theorem Sound.exists_appendChunk (h : c.Sound) (buffer : ℕ → BitVec 32) :
    ∃ c', c.appendChunk buffer = some c' ∧ c'.Sound ∧ c.Alike c' ∧
      c'.fd = c.fd := by
  obtain ⟨dropped, happend⟩ := h.appendChunk_eq buffer
  have hroom := h.room
  have hsmall := chunkSize_le c.format
  have hle := c.retained_le (c.sendqLen + c.format.chunkSize)
  have hlt := h.retained_add_lt (n := c.sendqLen + c.format.chunkSize)
    (by omega)
  have hdvd := (h.retained_cases
    (Nat.le_add_left c.format.chunkSize c.sendqLen)).2
  exact ⟨_, happend, (h.fill hlt (h.cursor_dvd hle hdvd) _ _).1,
    ⟨rfl, rfl, rfl⟩, rfl⟩

/-- So does a flush. -/
theorem Sound.exists_flushClient (h : c.Sound) (min limit : ℕ)
    (send : (n : ℕ) → SendResult n) (now : ℤ) :
    ∃ c' bytesWritten, c.flushClient min limit send now =
        some (c', bytesWritten) ∧
      c'.Sound ∧ c.Alike c' ∧ c'.fd = c.fd := by
  obtain ⟨c', bytesWritten, hflush, hcases⟩ :=
    h.flushClient_cases min limit send now
  refine ⟨c', bytesWritten, hflush, ?_⟩
  rcases hcases with ⟨rfl, -⟩ | ⟨k, dropped, -, hk, rfl⟩
  · exact ⟨h, ⟨rfl, rfl, rfl⟩, rfl⟩
  · obtain ⟨hlen, hfit⟩ := h.toWrite_le limit
    exact ⟨(h.queued_advance (hk.trans hlen) (by omega) dropped now).1,
      ⟨rfl, rfl, rfl⟩, rfl⟩

end Client

namespace Server

variable {getPhase : BitVec 32 → BitVec 32} {s s' : Server} {t : Turn}

/-- A chunk is appended to the queue of a client that is connected. -/
def Appended (buffer : ℕ → BitVec 32) (c c' : Client) : Prop :=
  c.fd = none ∧ c' = c ∨ c.fd ≠ none ∧ c.appendChunk buffer = some c'

inductive Move (getPhase : BitVec 32 → BitVec 32) :
    Server → Server → Prop where
  | adjust (s : Server) (t : Turn) : Move getPhase s (s.adjustAtt t).1
  /-- The clocks, the static counters of the loops and what they count. -/
  | frame (s : Server) (now next : ℤ) (maintenanceId flushId : ℕ)
      (visits : List (ℕ × ℤ)) (flushes : ℕ) :
      Move getPhase s
        { s with
          now
          nextNetworkMaintenance := next
          maintenanceId
          flushId
          visits
          flushes }
  | connect (s : Server) (id fd : ℕ) (now : ℤ) (hid : id < numclients)
      (hfree : (s.clients id).fd = none) :
      Move getPhase s
        ((s.setClient id ((s.clients id).acceptClient (some fd) now)).emit
          [.accept fd])
  | refuse (s : Server) (fd : ℕ) :
      Move getPhase s (s.emit [.accept fd, .disconnect fd])
  | read (s : Server) (id fd : ℕ) (hfd : (s.clients id).fd = some fd) :
      Move getPhase s (s.emit [.read fd])
  | tune (s : Server) (id : ℕ) (freq : BitVec 32) (hid : id < numchans) :
      Move getPhase s
        { s with rxFreq := Function.update s.rxFreq id (getPhase freq) }
  | close (s : Server) (id fd : ℕ) (hid : id < numclients)
      (hfd : (s.clients id).fd = some fd) :
      Move getPhase s
        ((s.setClient id (s.clients id).closeClient).emit [.disconnect fd])
  | chunk (s : Server) (clients : ℕ → Client) (buffer : ℕ → BitVec 32)
      (hclients : ∀ id, Appended buffer (s.clients id) (clients id)) :
      Move getPhase s { s with clients, log := s.log ++ [.chunk buffer] }
  | flush (s : Server) (id fd : ℕ) (c : Client) (bytesWritten : ℤ)
      (send : (n : ℕ) → SendResult n) (now : ℤ) (hid : id < numclients)
      (hfd : (s.clients id).fd = some fd)
      (hflush : (s.clients id).flushClient sendSize sendSize send now =
        some (c, bytesWritten)) :
      Move getPhase s
        ((s.setClient id c).emit (sendEvent (s.clients id) bytesWritten))

/-- Any number of moves. -/
abbrev Moves (getPhase : BitVec 32 → BitVec 32) : Server → Server → Prop :=
  Relation.ReflTransGen (Move getPhase)

/-- What the loop relies on. -/
structure Ready (s : Server) : Prop where
  sound : ∀ id < numclients, (s.clients id).Sound
  alike : ∀ id, (openSlot (fun _ _ => 0) id).Alike (s.clients id)
  unused : ∀ id, numclients ≤ id → (s.clients id).fd = none

theorem clients_setClient (s : Server) (id : ℕ) (c : Client) :
    (s.setClient id c).clients = Function.update s.clients id c := rfl

@[simp] theorem clients_emit (s : Server) (events : List Event) :
    (s.emit events).clients = s.clients := rfl

@[simp] theorem setClient_self (s : Server) (id : ℕ) :
    s.setClient id (s.clients id) = s := by
  rw [setClient, Function.update_eq_self]

@[simp] theorem emit_nil (s : Server) : s.emit [] = s := by
  rw [emit, List.append_nil]

theorem numclients_eq : numclients = 26 := rfl

theorem ready_start (malloc : ℕ → ℕ → Byte) (rxFreq : ℕ → BitVec 32)
    (time : ℤ) : (start malloc rxFreq time).Ready where
  sound := by
    intro id hid
    have hchans : numchans = 13 := rfl
    rw [numclients_eq] at hid
    change (openSlot malloc id).Sound
    unfold openSlot
    split
    next hlow => exact sound_openClient _ (by decide) _ hlow
    next hhigh => exact sound_openClient _ (by decide) _ (by omega)
  alike := by
    intro id
    change (openSlot _ id).Alike (openSlot malloc id)
    unfold openSlot
    split <;> exact ⟨rfl, rfl, rfl⟩
  unused := by
    intro id _
    change (openSlot malloc id).fd = none
    unfold openSlot
    split <;> rfl

/-! ## One move -/

/-- A client in place of another one like it. -/
theorem Ready.setClient (h : s.Ready) {id : ℕ} (hid : id < numclients)
    {c : Client} (hsound : c.Sound) (halike : (s.clients id).Alike c) :
    (s.setClient id c).Ready where
  sound := by
    intro j hj
    rw [clients_setClient, Function.update_apply]
    split
    · exact hsound
    · exact h.sound j hj
  alike := by
    intro j
    rw [clients_setClient, Function.update_apply]
    split
    next heq => exact heq ▸ (h.alike id).trans halike
    next => exact h.alike j
  unused := by
    intro j hj
    rw [clients_setClient, Function.update_of_ne (by omega)]
    exact h.unused j hj

theorem Ready.congr (h : s.Ready) (hclients : s'.clients = s.clients) :
    s'.Ready := by
  refine ⟨?_, ?_, ?_⟩ <;> rw [hclients]
  · exact h.sound
  · exact h.alike
  · exact h.unused

theorem adjustAtt_cases (s : Server) (t : Turn) :
    (s.adjustAtt t).1 = s ∨
      (ovf t = true ∧ t.time - s.lastatt > 2 ∧ s.att < 63 ∧
        (s.adjustAtt t).1 = s.setAtt t (s.att + 1)) ∨
      (ovf t = false ∧ t.time - s.lastatt > 5 ∧ s.att > 0 ∧
        (s.adjustAtt t).1 = s.setAtt t (s.att - 1)) := by
  unfold adjustAtt
  cases hovf : ovf t with
  | true =>
      rw [if_pos rfl]
      split
      next hup => exact Or.inr (Or.inl ⟨rfl, hup.1, hup.2, rfl⟩)
      next => exact Or.inl rfl
  | false =>
      rw [if_neg Bool.false_ne_true]
      split
      next hdown => exact Or.inr (Or.inr ⟨rfl, hdown.1, hdown.2, rfl⟩)
      next => exact Or.inl rfl

theorem clients_adjustAtt (s : Server) (t : Turn) :
    (s.adjustAtt t).1.clients = s.clients := by
  rcases s.adjustAtt_cases t with h | ⟨-, -, -, h⟩ | ⟨-, -, -, h⟩ <;>
    rw [h] <;> rfl

theorem Ready.move (h : s.Ready) (hmove : Move getPhase s s') : s'.Ready := by
  cases hmove with
  | adjust t => exact h.congr (clients_adjustAtt s t)
  | frame now next maintenanceId flushId visits flushes => exact h.congr rfl
  | connect id fd now hid hfree =>
      have hsound := h.sound id hid
      have hempty : ((s.clients id).acceptClient (some fd) now).Sound :=
        Client.sound_of_empty hsound.large hsound.max_dvd rfl rfl
          hsound.channel_lt
      exact (h.setClient hid hempty ⟨rfl, rfl, rfl⟩).congr rfl
  | refuse fd => exact h.congr rfl
  | read id fd hfd => exact h.congr rfl
  | tune id freq hid => exact h.congr rfl
  | close id fd hid hfd =>
      exact (h.setClient hid ((h.sound id hid).of_fd none)
        ⟨rfl, rfl, rfl⟩).congr rfl
  | chunk clients buffer hclients =>
      have hkeep : ∀ id, (id < numclients → (clients id).Sound) ∧
          (s.clients id).Alike (clients id) ∧
          (clients id).fd = (s.clients id).fd := by
        intro id
        rcases hclients id with ⟨-, heq⟩ | ⟨hfd, happend⟩
        · rw [heq]
          exact ⟨h.sound id, ⟨rfl, rfl, rfl⟩, rfl⟩
        · have hid : id < numclients := by
            by_contra hout
            exact hfd (h.unused id (Nat.not_lt.mp hout))
          obtain ⟨c', hc', hsound, hrest⟩ :=
            (h.sound id hid).exists_appendChunk buffer
          obtain rfl := Option.some.inj (happend.symm.trans hc')
          exact ⟨fun _ => hsound, hrest⟩
      exact ⟨fun id hid => (hkeep id).1 hid,
        fun id => (h.alike id).trans (hkeep id).2.1,
        fun id hid => (hkeep id).2.2.trans (h.unused id hid)⟩
  | flush id fd c bytesWritten send now hid hfd hflush =>
      obtain ⟨c', bytes, hc', hsound, halike, -⟩ :=
        (h.sound id hid).exists_flushClient sendSize sendSize send now
      obtain ⟨rfl, rfl⟩ := Prod.mk.inj (Option.some.inj (hflush.symm.trans hc'))
      exact (h.setClient hid hsound halike).congr rfl

theorem Ready.moves (h : s.Ready) (hmoves : Moves getPhase s s') : s'.Ready := by
  induction hmoves with
  | refl => exact h
  | tail _ hmove ih => exact ih.move hmove

/-- What every move keeps, as long as the server is ready. -/
theorem Ready.moves_induction (h : s.Ready) {P : Server → Prop}
    (hmove : ∀ s s', s.Ready → Move getPhase s s' → P s → P s')
    (hmoves : Moves getPhase s s') (hP : P s) : P s' := by
  induction hmoves with
  | refl => exact hP
  | tail hbefore hlast ih => exact hmove _ _ (h.moves hbefore) hlast ih

theorem Move.log_prefix (hmove : Move getPhase s s') : s.log <+: s'.log := by
  cases hmove with
  | adjust t =>
      rcases s.adjustAtt_cases t with heq | ⟨-, -, -, heq⟩ | ⟨-, -, -, heq⟩ <;>
        rw [heq] <;> exact List.prefix_rfl
  | frame => exact List.prefix_rfl
  | tune => exact List.prefix_rfl
  | _ => exact List.prefix_append _ _

theorem Moves.log_prefix (hmoves : Moves getPhase s s') :
    s.log <+: s'.log := by
  induction hmoves with
  | refl => exact List.prefix_rfl
  | tail _ hmove ih => exact ih.trans hmove.log_prefix

/-! ## The parts of a turn -/

variable (getPhase)

theorem frame_moves (s : Server) (now next : ℤ) (maintenanceId flushId : ℕ)
    (visits : List (ℕ × ℤ)) (flushes : ℕ) :
    Moves getPhase s
      { s with
        now
        nextNetworkMaintenance := next
        maintenanceId
        flushId
        visits
        flushes } :=
  Relation.ReflTransGen.single (Move.frame s _ _ _ _ _ _)

theorem appendTo_eq (buffer : ℕ → BitVec 32) (h : s.Ready) {id : ℕ}
    (hid : id < numclients) :
    ∃ c, appendTo buffer s id = some (s.setClient id c) ∧
      (s.setClient id c).Ready ∧ Appended buffer (s.clients id) c := by
  obtain ⟨c, happend, hc, halike, -⟩ :=
    (h.sound id hid).exists_appendChunk buffer
  unfold appendTo
  split
  next hfd =>
    refine ⟨s.clients id, ?_, ?_, Or.inl ⟨hfd, rfl⟩⟩ <;> rw [setClient_self]
    exact h
  next hfd =>
    rw [happend]
    exact ⟨c, rfl, h.setClient hid hc halike, Or.inr ⟨hfd, happend⟩⟩

/-- The loop over the clients `ids`, none of which it visits twice. -/
theorem appendTo_foldlM (buffer : ℕ → BitVec 32) {ids : List ℕ}
    (hids : ids.Nodup) (h : s.Ready) (hlt : ∀ id ∈ ids, id < numclients) :
    ∃ clients, ids.foldlM (appendTo buffer) s = some { s with clients } ∧
      (∀ id ∈ ids, Appended buffer (s.clients id) (clients id)) ∧
      ∀ id ∉ ids, clients id = s.clients id := by
  induction ids generalizing s with
  | nil => exact ⟨s.clients, rfl, by simp, fun _ _ => rfl⟩
  | cons id ids ih =>
      obtain ⟨hnew, hrest⟩ := List.nodup_cons.mp hids
      obtain ⟨c, hstep, hready, happended⟩ :=
        appendTo_eq buffer h (hlt id List.mem_cons_self)
      obtain ⟨clients, hfold, hin, hout⟩ := ih hrest hready
        fun j hj => hlt j (List.mem_cons_of_mem id hj)
      refine ⟨clients, ?_, ?_, ?_⟩
      · rw [List.foldlM_cons, hstep]
        exact hfold
      · intro j hj
        by_cases hself : j = id
        · rw [hself, hout id hnew, clients_setClient, Function.update_self]
          exact happended
        · have hmem : j ∈ ids := List.mem_of_ne_of_mem hself hj
          have hj' := hin j hmem
          rwa [clients_setClient, Function.update_of_ne hself] at hj'
      · intro j hj
        rw [List.mem_cons, not_or] at hj
        rw [hout j hj.2, clients_setClient, Function.update_of_ne hj.1]

theorem Ready.copyChunk_move (h : s.Ready) (buffer : ℕ → BitVec 32) :
    ∃ s', s.copyChunk buffer = some s' ∧ Move getPhase s s' := by
  obtain ⟨clients, hfold, hin, hout⟩ := appendTo_foldlM buffer
    (List.nodup_range (n := numclients)) (s := s.emit [.chunk buffer])
    (h.congr rfl) fun id hid => List.mem_range.mp hid
  refine ⟨_, hfold, Move.chunk s clients buffer fun id => ?_⟩
  by_cases hid : id ∈ List.range numclients
  · exact hin id hid
  · have hfree := h.unused id (by simpa using hid)
    exact Or.inl ⟨hfree, hout id hid⟩

theorem Ready.readLoop_moves (h : s.Ready) (fifo : ℕ → ℕ → BitVec 32)
    (n rxSamples : ℕ) :
    ∃ s', s.readLoop fifo n rxSamples = some s' ∧ Moves getPhase s s' := by
  induction rxSamples using Nat.strong_induction_on generalizing s n with
  | _ rxSamples ih =>
      rw [readLoop]
      split
      next hmore =>
        have hpos : 0 < chunkSamples := by decide
        obtain ⟨s₁, hcopy, hmove⟩ := h.copyChunk_move getPhase (fifo n)
        obtain ⟨s₂, hrest, hmoves⟩ := ih (rxSamples - chunkSamples) (by omega)
          (h.move hmove) (n + 1)
        exact ⟨s₂, by rw [hcopy]; exact hrest, hmoves.head hmove⟩
      next => exact ⟨s, rfl, Relation.ReflTransGen.refl⟩

theorem acceptSlot_moves (t : Turn) {id : ℕ}
    (hid : id < numclients) (hfree : (s.clients id).fd = none) :
    Moves getPhase s (s.acceptSlot t id) := by
  unfold acceptSlot
  cases t.accept id with
  | none =>
      have hsame : (s.clients id).acceptClient none t.acceptTime =
          s.clients id := by
        rw [Client.acceptClient, ← hfree]
      rw [hsame, setClient_self, Option.toList_none, List.map_nil, emit_nil]
  | some fd =>
      exact Relation.ReflTransGen.single (Move.connect s id fd _ hid hfree)

theorem acceptClientDiscard_moves (s : Server) (fd : Option ℕ) :
    Moves getPhase s (s.acceptClientDiscard fd) := by
  cases fd with
  | none => exact Relation.ReflTransGen.refl
  | some fd => exact Relation.ReflTransGen.single (Move.refuse s fd)

theorem closeSlot_move {id fd : ℕ} (hid : id < numclients)
    (hfd : (s.clients id).fd = some fd) :
    Move getPhase s (s.closeSlot id) := by
  unfold closeSlot
  rw [hfd]
  exact Move.close s id fd hid hfd

theorem Ready.readFrequency_moves (h : s.Ready) (t : Turn) {id fd : ℕ}
    (hid : id < numchans) (hfd : (s.clients id).fd = some fd) :
    Moves getPhase s (s.readFrequency getPhase t id) := by
  have hclients : id < numclients := by
    have hchans : numchans = 13 := rfl
    rw [numclients_eq]
    omega
  have hread : Move getPhase s (s.emit [.read fd]) := Move.read s id fd hfd
  unfold readFrequency
  rw [hfd]
  refine Relation.ReflTransGen.head hread ?_
  cases t.frequency id with
  | error =>
      exact Relation.ReflTransGen.single (closeSlot_move getPhase hclients hfd)
  | nothing => exact Relation.ReflTransGen.refl
  | frequency freq =>
      have hchannel : (s.clients id).channel = id := by
        rw [(h.alike id).channel, openSlot, if_pos hid]
        rfl
      simp only [clients_emit, hchannel]
      exact Relation.ReflTransGen.single (Move.tune _ id freq hid)

theorem Ready.maintainClient_moves (h : s.Ready) (t : Turn) {id : ℕ}
    (hid : id < numclients) (sysCalls : ℕ) :
    Moves getPhase s (s.maintainClient getPhase t id sysCalls).1 := by
  unfold maintainClient
  obtain ⟨s₁, calls, hs₁, hmoves⟩ : ∃ s₁ calls,
      (if (s.clients id).fd = none then (s.acceptSlot t id, sysCalls + 1)
        else (s, sysCalls)) = (s₁, calls) ∧ Moves getPhase s s₁ := by
    split
    next hfree => exact ⟨_, _, rfl, acceptSlot_moves getPhase t hid hfree⟩
    next => exact ⟨s, _, rfl, Relation.ReflTransGen.refl⟩
  rw [hs₁]
  dsimp only
  split
  next => exact hmoves
  next hfd =>
    obtain ⟨fd, hfd⟩ := Option.ne_none_iff_exists'.mp hfd
    have hdiscard : Moves getPhase s (s₁.acceptClientDiscard (t.discard id)) :=
      hmoves.trans (acceptClientDiscard_moves getPhase s₁ _)
    split
    next => exact hdiscard
    next hlow =>
      have hfd' : ((s₁.acceptClientDiscard (t.discard id)).clients id).fd =
          some fd := by
        rw [← hfd]
        cases t.discard id <;> rfl
      exact hdiscard.trans
        ((h.moves hdiscard).readFrequency_moves getPhase t (by omega) hfd')

theorem Ready.maintainLoop_moves (h : s.Ready) (t : Turn) (id sysCalls : ℕ) :
    Moves getPhase s (s.maintainLoop getPhase t id sysCalls).1 := by
  induction id, s, sysCalls using maintainLoop.induct getPhase t with
  | case1 id s sysCalls hmore s₁ calls hbody ih =>
      rw [maintainLoop, if_pos hmore, hbody]
      have hvisit : Move getPhase s (s.visit id) := Move.frame s _ _ _ _ _ _
      have hmoves := (h.move hvisit).maintainClient_moves getPhase t hmore.1
        sysCalls
      rw [hbody] at hmoves
      exact (hmoves.head hvisit).trans (ih (h.moves (hmoves.head hvisit)))
  | case2 id s sysCalls hdone =>
      rw [maintainLoop, if_neg hdone]
      exact frame_moves getPhase _ _ _ _ _ _ _

theorem Ready.maintain_moves (h : s.Ready) (t : Turn) :
    Moves getPhase s (s.maintain getPhase t).1 := by
  unfold maintain
  dsimp only
  split
  · refine (frame_moves getPhase s t.maintenanceTime _ 0 s.flushId _ _).trans
      (Ready.maintainLoop_moves getPhase ?_ t _ 0)
    exact h.congr rfl
  · refine (frame_moves getPhase s t.maintenanceTime _ _ s.flushId _ _).trans
      (Ready.maintainLoop_moves getPhase ?_ t _ 0)
    exact h.congr rfl

theorem Ready.flushSlot_moves (h : s.Ready) (t : Turn) {id fd : ℕ}
    (hid : id < numclients) (hfd : (s.clients id).fd = some fd) :
    ∃ r, s.flushSlot t id = some r ∧ Moves getPhase s r.1 := by
  obtain ⟨c, bytesWritten, hflush, -, -, hcfd⟩ :=
    (h.sound id hid).exists_flushClient sendSize sendSize (t.send id) s.now
  have hmove : Move getPhase s _ :=
    Move.flush s id fd c bytesWritten (t.send id) s.now hid hfd hflush
  have hclose : Moves getPhase s (closeSlot
      ((s.setClient id c).emit (sendEvent (s.clients id) bytesWritten)) id) := by
    have hopen : (((s.setClient id c).emit
        (sendEvent (s.clients id) bytesWritten)).clients id).fd = some fd := by
      rw [clients_emit, clients_setClient, Function.update_self, hcfd, hfd]
    exact (Relation.ReflTransGen.single hmove).tail
      (closeSlot_move getPhase hid hopen)
  unfold flushSlot
  rw [hflush]
  refine ⟨_, rfl, ?_⟩
  dsimp only
  repeat' split
  · exact hclose
  · exact Relation.ReflTransGen.single hmove
  · exact hclose
  · exact Relation.ReflTransGen.single hmove
  · exact Relation.ReflTransGen.single hmove

theorem Ready.flushLoop_moves (h : s.Ready) (t : Turn) (id sysCalls totalWritten : ℕ) :
    ∃ r, s.flushLoop t id sysCalls totalWritten = some r ∧
      Moves getPhase s r.1 := by
  induction hn : numclients - id generalizing s id sysCalls totalWritten with
  | zero =>
      rw [flushLoop, if_neg (by omega)]
      exact ⟨_, rfl, frame_moves getPhase _ _ _ _ _ _ _⟩
  | succ n ih =>
      rw [flushLoop]
      split
      next hmore =>
        split
        next => exact ih h _ _ _ (by omega)
        next hfd =>
          obtain ⟨fd, hfd⟩ := Option.ne_none_iff_exists'.mp hfd
          obtain ⟨⟨s₁, calls, written⟩, hbody, hmoves⟩ :=
            h.flushSlot_moves getPhase t hmore.1 hfd
          obtain ⟨r, hrest, hmoves'⟩ := ih (h.moves hmoves) (id + 1)
            (sysCalls + calls) (totalWritten + written) (by omega)
          exact ⟨r, by rw [hbody]; exact hrest, hmoves.trans hmoves'⟩
      next => exact ⟨_, rfl, frame_moves getPhase _ _ _ _ _ _ _⟩

theorem Ready.flush_moves (h : s.Ready) (t : Turn) :
    ∃ s', s.flush t = some s' ∧ Moves getPhase s s' := by
  obtain ⟨r, hloop, hmoves⟩ := Ready.flushLoop_moves getPhase
    (s := { s with now := t.flushTime, flushes := s.flushes + 1 })
    (h.congr rfl) t
    (if s.flushId = numclients then 0 else s.flushId) 0 0
  unfold flush
  dsimp only
  rw [hloop]
  have hframe : Move getPhase s
      { s with now := t.flushTime, flushes := s.flushes + 1 } :=
    Move.frame s t.flushTime _ _ _ _ _
  exact ⟨r.1, rfl, hmoves.head hframe⟩

/-- A turn does not exit. -/
theorem Ready.turn_moves (h : s.Ready) (t : Turn) :
    ∃ s', s.turn getPhase t = some s' ∧ Moves getPhase s s' := by
  unfold turn
  have hadjust : Moves getPhase s (s.adjustAtt t).1 :=
    Relation.ReflTransGen.single (Move.adjust s t)
  obtain ⟨s₁, hread, hmoves⟩ := (h.moves hadjust).readLoop_moves
    getPhase t.fifo 0 (rxSamples t)
  have hmoves₁ := hadjust.trans hmoves
  have hready := h.moves hmoves₁
  dsimp only
  rw [hread, Option.bind_eq_bind, Option.bind_some]
  split
  next => exact ⟨s₁, rfl, hmoves₁⟩
  next =>
    have hmaintain : Moves getPhase s
        (if s₁.now > s₁.nextNetworkMaintenance then s₁.maintain getPhase t
          else (s₁, 0)).1 := by
      split
      · exact hmoves₁.trans (hready.maintain_moves getPhase t)
      · exact hmoves₁
    generalize (if s₁.now > s₁.nextNetworkMaintenance then
      s₁.maintain getPhase t else (s₁, 0)) = r at hmaintain ⊢
    split
    next => exact ⟨_, rfl, hmaintain⟩
    next =>
      obtain ⟨s₂, hflush, hlast⟩ := (h.moves hmaintain).flush_moves
        getPhase t
      exact ⟨s₂, hflush, hmaintain.trans hlast⟩

theorem run_append {getPhase : BitVec 32 → BitVec 32} {ts : List Turn}
    (hrun : s.run getPhase ts = some s') (ts' : List Turn) :
    s.run getPhase (ts ++ ts') = s'.run getPhase ts' := by
  unfold run at hrun ⊢
  rw [List.foldlM_append, hrun]
  rfl

theorem Ready.run_moves (h : s.Ready) (ts : List Turn) :
    ∃ s', s.run getPhase ts = some s' ∧ Moves getPhase s s' := by
  induction ts generalizing s with
  | nil => exact ⟨s, rfl, Relation.ReflTransGen.refl⟩
  | cons t ts ih =>
      obtain ⟨s₁, hturn, hmoves⟩ := h.turn_moves getPhase t
      obtain ⟨s₂, hrun, hmoves'⟩ := ih (h.moves hmoves)
      refine ⟨s₂, ?_, hmoves.trans hmoves'⟩
      rw [run, List.foldlM_cons, hturn]
      exact hrun

end Server

end RedPitayaNotes.HfdlReceiver
