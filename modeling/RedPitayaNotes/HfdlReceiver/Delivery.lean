import RedPitayaNotes.HfdlReceiver.Descriptors

/-!
# What the clients of the HFDL receiver are sent

The main loop as a whole treats each connection as the runs of a single client
do: the bytes sent on it are the first bytes of whole chunks of its channel, in
the order in which the chunks were read while it was open.
-/

namespace RedPitayaNotes.HfdlReceiver

open Bits Memory Handles

/-- The bytes sent on a descriptor since it was accepted last. -/
def sentTo (fd : ℕ) (log : List Event) : List Byte :=
  log.foldl (fun bytes e =>
    match e with
    | .accept fd' => if fd' = fd then [] else bytes
    | .send fd' sent => if fd' = fd then bytes ++ sent else bytes
    | _ => bytes) []

/-- The chunks read from the FIFO since a descriptor was accepted last. -/
def chunksSince (fd : ℕ) (log : List Event) : List (ℕ → BitVec 32) :=
  log.foldl (fun buffers e =>
    match e with
    | .accept fd' => if fd' = fd then [] else buffers
    | .chunk buffer => buffers ++ [buffer]
    | _ => buffers) []

section Log

variable (fd : ℕ) (log : List Event)

theorem sentTo_append (events : List Event) :
    sentTo fd (log ++ events) = events.foldl (fun bytes e =>
      match e with
      | .accept fd' => if fd' = fd then [] else bytes
      | .send fd' sent => if fd' = fd then bytes ++ sent else bytes
      | _ => bytes) (sentTo fd log) :=
  List.foldl_append

theorem chunksSince_append (events : List Event) :
    chunksSince fd (log ++ events) = events.foldl (fun buffers e =>
      match e with
      | .accept fd' => if fd' = fd then [] else buffers
      | .chunk buffer => buffers ++ [buffer]
      | _ => buffers) (chunksSince fd log) :=
  List.foldl_append

/-- Events of other descriptors. -/
theorem log_other (events : List Event)
    (hevents : ∀ e ∈ events, e ≠ .accept fd ∧ (∀ bytes, e ≠ .send fd bytes) ∧
      ∀ buffer, e ≠ .chunk buffer) :
    sentTo fd (log ++ events) = sentTo fd log ∧
      chunksSince fd (log ++ events) = chunksSince fd log := by
  induction events using List.reverseRecOn with
  | nil => rw [List.append_nil]; exact ⟨rfl, rfl⟩
  | append_singleton events e ih =>
      obtain ⟨hsent, hchunks⟩ := ih fun e' he' =>
        hevents e' (List.mem_append_left _ he')
      obtain ⟨haccept, hsend, hchunk⟩ := hevents e (by simp)
      rw [← List.append_assoc, sentTo_append, chunksSince_append, hsent,
        hchunks]
      cases e with
      | accept fd' =>
          have hne : fd' ≠ fd := fun heq => haccept (by rw [heq])
          simp [hne]
      | read fd' => exact ⟨rfl, rfl⟩
      | send fd' bytes =>
          have hne : fd' ≠ fd := fun heq => hsend bytes (by rw [heq])
          simp [hne]
      | disconnect fd' => exact ⟨rfl, rfl⟩
      | chunk buffer => exact absurd rfl (hchunk buffer)

end Log

namespace Server

variable {getPhase : BitVec 32 → BitVec 32} {s s' : Server}

/-- The client, the chunks read and the bytes sent on its connection. -/
def session (s : Server) (id fd : ℕ) : Session where
  client := s.clients id
  appended := (chunksSince fd s.log).map
    (chunk (s.clients id).format (s.clients id).channel)
  sent := sentTo fd s.log

/-- Every connection has the books of a run of its client. -/
def Delivers (s : Server) : Prop :=
  ∀ id fd, (s.clients id).fd = some fd →
    ∃ kept, Session.Books [] kept (s.session id fd)

theorem Delivers.of_same (h : s.Delivers) {id fd : ℕ}
    (hclient : s'.clients id = s.clients id)
    (hfd : (s'.clients id).fd = some fd)
    (hsent : sentTo fd s'.log = sentTo fd s.log)
    (hchunks : chunksSince fd s'.log = chunksSince fd s.log) :
    ∃ kept, Session.Books [] kept (s'.session id fd) := by
  obtain ⟨kept, hbooks⟩ := h id fd (hclient ▸ hfd)
  refine ⟨kept, ?_⟩
  rw [session, hclient, hsent, hchunks]
  exact hbooks

/-- A move that leaves the clients and writes nothing that counts. -/
theorem Delivers.of_log (h : s.Delivers) (hclients : s'.clients = s.clients)
    {events : List Event} (hlog : s'.log = s.log ++ events)
    (hevents : ∀ id fd, (s.clients id).fd = some fd → ∀ e ∈ events,
      e ≠ .accept fd ∧ (∀ bytes, e ≠ .send fd bytes) ∧
        ∀ buffer, e ≠ .chunk buffer) : s'.Delivers := by
  intro id fd hfd
  rw [hclients] at hfd
  obtain ⟨hsent, hchunks⟩ := log_other fd s.log events (hevents id fd hfd)
  rw [← hlog] at hsent hchunks
  exact h.of_same (congrFun hclients id) (hclients ▸ hfd) hsent hchunks

/-- A send that was not made, and one that was. -/
theorem sentTo_sendEvent {c c' : Client} {fd : ℕ} {bytesWritten now : ℤ}
    {send : (n : ℕ) → SendResult n} (hfd : c.fd = some fd)
    (hflush : c.flushClient sendSize sendSize send now = some (c', bytesWritten))
    (log : List Event) :
    sentTo fd (log ++ sendEvent c bytesWritten) =
        sentTo fd log ++ read c.sendq c.sendqStart bytesWritten.toNat ∧
      chunksSince fd (log ++ sendEvent c bytesWritten) =
        chunksSince fd log := by
  rw [sentTo_append, chunksSince_append]
  unfold sendEvent
  by_cases hidle : c.sendqLen < sendSize ∨ c.sendqLen ≤ 0
  · rw [Client.flushClient, if_pos hidle] at hflush
    obtain ⟨-, rfl⟩ := Prod.mk.inj (Option.some.inj hflush)
    rw [if_pos hidle]
    exact ⟨(List.append_nil _).symm, rfl⟩
  · rw [if_neg hidle, hfd]
    refine ⟨?_, rfl⟩
    simp

theorem Delivers.move (h : s.Delivers) (hready : s.Ready)
    (howned : Owned s.fds (descriptors s.log))
    (hfresh : Fresh (descriptors s'.log)) (hmove : Move getPhase s s') :
    s'.Delivers := by
  have hlive : ∀ {id fd : ℕ}, (s.clients id).fd = some fd →
      fd ∈ live (descriptors s.log) := fun hfd => howned.mem_live hfd
  cases hmove with
  | adjust t =>
      have hlog : (s.adjustAtt t).1.log = s.log ++ [] := by
        rw [List.append_nil]
        rcases s.adjustAtt_cases t with heq | ⟨-, -, -, heq⟩ | ⟨-, -, -, heq⟩ <;>
          rw [heq] <;> rfl
      exact h.of_log (clients_adjustAtt s t) hlog (by simp)
  | frame now next maintenanceId flushId visits flushes =>
      exact h.of_log rfl (List.append_nil _).symm (by simp)
  | connect id fd now hid hfree =>
      have hnew : fd ∉ live (descriptors s.log) := by
        change Fresh (descriptors (s.log ++ [.accept fd])) at hfresh
        rw [descriptors_append] at hfresh
        exact hfresh.not_mem
      intro j fd' hfd'
      rw [clients_emit, clients_setClient] at hfd'
      by_cases hself : j = id
      · rw [hself, Function.update_self] at hfd'
        obtain rfl : fd = fd' := Option.some.inj hfd'
        have hsound := hready.sound id hid
        have hempty : ((s.clients id).acceptClient (some fd) now).Sound :=
          Client.sound_of_empty hsound.large hsound.max_dvd rfl rfl
            hsound.channel_lt
        refine ⟨[], ?_⟩
        have hsession : session ((s.setClient id
            ((s.clients id).acceptClient (some fd) now)).emit [.accept fd]) j fd =
            Session.start ((s.clients id).acceptClient (some fd) now) := by
          rw [session, emit, sentTo_append, chunksSince_append]
          simp [hself, setClient, Session.start]
        rw [hsession]
        exact Session.Books.start hempty rfl
      · rw [Function.update_of_ne hself] at hfd'
        have hne : fd ≠ fd' := fun heq => hnew (heq ▸ hlive hfd')
        obtain ⟨hsent, hchunks⟩ := log_other fd' s.log
          [.accept fd] (by simp [hne])
        exact h.of_same (Function.update_of_ne hself _ _)
          ((congrArg Client.fd (Function.update_of_ne hself _ _)).trans hfd')
          hsent hchunks
  | refuse fd =>
      have hnew : fd ∉ live (descriptors s.log) := by
        change Fresh (descriptors (s.log ++ [.accept fd, .disconnect fd])) at hfresh
        rw [descriptors_append] at hfresh
        exact Fresh.not_mem (hfresh.of_prefix ⟨[.release fd], by
          rw [List.append_assoc]; rfl⟩)
      refine h.of_log rfl rfl fun j fd' hfd' => ?_
      have hne : fd ≠ fd' := fun heq => hnew (heq ▸ hlive hfd')
      simp [hne]
  | read id fd hfd => exact h.of_log rfl rfl (by simp)
  | tune id freq hid => exact h.of_log rfl (List.append_nil _).symm (by simp)
  | close id fd hid hfd =>
      intro j fd' hfd'
      rw [clients_emit, clients_setClient] at hfd'
      have hother : j ≠ id := by
        rintro rfl
        rw [Function.update_self] at hfd'
        cases hfd'
      obtain ⟨hsent, hchunks⟩ := log_other fd' s.log
        [.disconnect fd] (by simp)
      exact h.of_same (Function.update_of_ne hother _ _) hfd' hsent hchunks
  | chunk clients buffer hclients =>
      intro j fd hfd
      rcases hclients j with ⟨hnone, heq⟩ | ⟨hconn, happend⟩
      · change (clients j).fd = some fd at hfd
        rw [heq, hnone] at hfd
        cases hfd
      · have hj : j < numclients := by
          by_contra hout
          exact hconn (hready.unused j (Nat.not_lt.mp hout))
        obtain ⟨c', hc', -, halike, hkeep⟩ :=
          (hready.sound j hj).exists_appendChunk buffer
        obtain rfl := Option.some.inj (happend.symm.trans hc')
        obtain ⟨kept, hbooks⟩ := h j fd (hkeep.symm.trans hfd)
        obtain ⟨s₁, kept', hstep, hbooks'⟩ := hbooks.append buffer
        refine ⟨kept', ?_⟩
        have hsession : s₁ = session
            { s with clients, log := s.log ++ [.chunk buffer] } j fd := by
          rw [Session.step, session, happend] at hstep
          rw [← Option.some.inj hstep, session, sentTo_append,
            chunksSince_append]
          simp [halike.format, halike.channel]
        exact hsession ▸ hbooks'
  | flush id fd c bytesWritten send now hid hfd hflush =>
      obtain ⟨c', bytes, hc', -, halike, hkeep⟩ :=
        (hready.sound id hid).exists_flushClient sendSize sendSize send now
      obtain ⟨rfl, rfl⟩ := Prod.mk.inj (Option.some.inj (hflush.symm.trans hc'))
      intro j fd' hfd'
      rw [clients_emit, clients_setClient] at hfd'
      by_cases hself : j = id
      · rw [hself, Function.update_self, hkeep] at hfd'
        obtain rfl : fd = fd' := Option.some.inj (hfd.symm.trans hfd')
        obtain ⟨kept, hbooks⟩ := h id fd hfd
        obtain ⟨s₁, hstep, hbooks'⟩ := hbooks.flush sendSize sendSize send now
        refine ⟨kept, ?_⟩
        have hsession : s₁ = session ((s.setClient id c).emit
            (sendEvent (s.clients id) bytesWritten)) j fd := by
          obtain ⟨hsent, hchunks⟩ := sentTo_sendEvent hfd hflush s.log
          rw [Session.step, session, hflush] at hstep
          rw [← Option.some.inj hstep, session, emit]
          dsimp only
          change _ = (⟨(s.setClient id c).clients j, _, sentTo fd (s.log ++ _)⟩ :
            Session)
          rw [hsent, hself, clients_setClient, Function.update_self,
            halike.format, halike.channel, setClient, hchunks]
        exact hsession ▸ hbooks'
      · rw [Function.update_of_ne hself] at hfd'
        have hne : fd ≠ fd' := fun heq =>
          hself (howned.unique j id fd (heq ▸ hfd') hfd)
        obtain ⟨hsent, hchunks⟩ := log_other fd' s.log
          (sendEvent (s.clients id) bytesWritten) (by
            unfold sendEvent
            split <;> simp [hfd, hne])
        exact h.of_same (Function.update_of_ne hself _ _)
          ((congrArg Client.fd (Function.update_of_ne hself _ _)).trans hfd')
          hsent hchunks

/-! ## Connections that have ended -/

/-- What was sent on a descriptor since it was accepted last are the first bytes
of chunks of one of the slots. -/
def Delivered (s : Server) (fd : ℕ) : Prop :=
  ∃ id < numclients, ∃ kept : List (List Byte),
    kept.Sublist ((chunksSince fd s.log).map
      (chunk (s.clients id).format (s.clients id).channel)) ∧
    sentTo fd s.log <+: kept.flatten

theorem Delivers.delivered (h : s.Delivers) (hready : s.Ready) {id fd : ℕ}
    (hfd : (s.clients id).fd = some fd) : s.Delivered fd := by
  have hid : id < numclients := by
    by_contra hout
    have hunused := hready.unused id (Nat.not_lt.mp hout)
    rw [hfd] at hunused
    cases hunused
  obtain ⟨kept, hbooks⟩ := h id fd hfd
  exact ⟨id, hid, kept, hbooks.carries.sublist, hbooks.carries.sent⟩

/-- More chunks do no harm, and a descriptor accepted starts with nothing. -/
theorem Delivered.of_log {fd : ℕ} (h : s.Delivered fd)
    (halike : ∀ id < numclients, (s.clients id).Alike (s'.clients id))
    (hlog : sentTo fd s'.log = [] ∨
      sentTo fd s'.log = sentTo fd s.log ∧
        chunksSince fd s.log <+: chunksSince fd s'.log) : s'.Delivered fd := by
  rcases hlog with hnil | ⟨hsent, hchunks⟩
  · exact ⟨0, by decide, [], List.nil_sublist _, by rw [hnil]; exact List.nil_prefix⟩
  · obtain ⟨id, hid, kept, hsub, hkept⟩ := h
    refine ⟨id, hid, kept, ?_, hsent ▸ hkept⟩
    rw [(halike id hid).format, (halike id hid).channel]
    exact hsub.trans (hchunks.map _).sublist

theorem Delivered.move {fd : ℕ} (h : s.Delivered fd) (hready : s.Ready)
    (hdelivers : s'.Delivers) (hmove : Move getPhase s s') :
    s'.Delivered fd := by
  have hready' := hready.move hmove
  by_cases hopen : ∃ id, (s'.clients id).fd = some fd
  · obtain ⟨id, hid⟩ := hopen
    exact hdelivers.delivered hready' hid
  · have halike : ∀ id < numclients, (s.clients id).Alike (s'.clients id) := by
      intro id _
      have hbefore := hready.alike id
      have hafter := hready'.alike id
      exact ⟨hafter.format.trans hbefore.format.symm,
        hafter.channel.trans hbefore.channel.symm,
        hafter.sendqMax.trans hbefore.sendqMax.symm⟩
    refine h.of_log halike ?_
    cases hmove with
    | adjust t =>
        rcases s.adjustAtt_cases t with heq | ⟨-, -, -, heq⟩ | ⟨-, -, -, heq⟩ <;>
          rw [heq] <;> exact Or.inr ⟨rfl, List.prefix_rfl⟩
    | frame => exact Or.inr ⟨rfl, List.prefix_rfl⟩
    | connect id fd' =>
        rw [emit, sentTo_append, chunksSince_append]
        by_cases hself : fd' = fd
        · exact Or.inl (by simp [hself])
        · exact Or.inr (by simp [hself, setClient])
    | refuse fd' =>
        rw [emit, sentTo_append, chunksSince_append]
        by_cases hself : fd' = fd
        · exact Or.inl (by simp [hself])
        · exact Or.inr (by simp [hself])
    | read id fd' =>
        rw [emit, sentTo_append, chunksSince_append]
        exact Or.inr ⟨rfl, List.prefix_rfl⟩
    | tune => exact Or.inr ⟨rfl, List.prefix_rfl⟩
    | close id fd' =>
        rw [emit, sentTo_append, chunksSince_append]
        exact Or.inr ⟨rfl, List.prefix_rfl⟩
    | chunk clients buffer =>
        rw [sentTo_append, chunksSince_append]
        exact Or.inr ⟨rfl, List.prefix_append _ _⟩
    | flush id fd' c bytesWritten send now hid hfd hflush =>
        obtain ⟨c', bytes, hc', -, -, hkeep⟩ :=
          (hready.sound id hid).exists_flushClient sendSize sendSize send now
        obtain ⟨rfl, rfl⟩ :=
          Prod.mk.inj (Option.some.inj (hflush.symm.trans hc'))
        have hne : fd' ≠ fd := by
          rintro rfl
          refine hopen ⟨id, ?_⟩
          rw [clients_emit, clients_setClient, Function.update_self, hkeep, hfd]
        obtain ⟨hsent, hchunks⟩ := log_other fd s.log
          (sendEvent (s.clients id) bytesWritten) (by
            unfold sendEvent
            split <;> simp [hfd, hne])
        exact Or.inr ⟨hsent, hchunks ▸ List.prefix_rfl⟩

/-- What holds as long as the descriptors `accept()` returned were not open. -/
def Streams (s : Server) : Prop :=
  Fresh (descriptors s.log) →
    Owned s.fds (descriptors s.log) ∧ s.Delivers ∧ ∀ fd, s.Delivered fd

theorem Streams.move (h : s.Streams) (hready : s.Ready)
    (hmove : Move getPhase s s') : s'.Streams := by
  intro hfresh
  have hbefore : Fresh (descriptors s.log) := by
    obtain ⟨events, hlog⟩ := hmove.log_prefix
    rw [← hlog, descriptors_append] at hfresh
    exact hfresh.of_prefix (List.prefix_append _ _)
  obtain ⟨howned, hdelivers, hdelivered⟩ := h hbefore
  have hnext := hdelivers.move hready howned hfresh hmove
  exact ⟨Balanced.move (fun _ => howned) hready hmove hfresh, hnext,
    fun fd => (hdelivered fd).move hready hnext hmove⟩

theorem streams_start (malloc : ℕ → ℕ → Byte) (rxFreq : ℕ → BitVec 32)
    (time : ℤ) : (start malloc rxFreq time).Streams := by
  have hfree : ∀ id, ((start malloc rxFreq time).clients id).fd = none := by
    intro id
    change (openSlot malloc id).fd = none
    unfold openSlot
    split <;> rfl
  refine fun _ => ⟨Owned.empty hfree, fun id fd hfd => ?_, fun fd =>
    ⟨0, by decide, [], List.nil_sublist _, List.nil_prefix⟩⟩
  rw [hfree id] at hfd
  cases hfd

end Server

/-- In every run, if `accept()` returned no descriptor that was open, the bytes
sent on a descriptor since it was accepted last are the first bytes of whole
chunks of the channel of one slot, taken from those read since then.  While the
slot holds the descriptor they are its own channel, and its queue has the rest
of these chunks. -/
theorem connections_get_their_channel (getPhase : BitVec 32 → BitVec 32)
    (malloc : ℕ → ℕ → Byte) (rxFreq : ℕ → BitVec 32) (time : ℤ)
    (ts : List Turn) :
    ∃ s, (Server.start malloc rxFreq time).run getPhase ts = some s ∧
      (Fresh (descriptors s.log) →
        (∀ fd, ∃ id < numclients, ∃ kept : List (List Byte),
          kept.Sublist ((chunksSince fd s.log).map
            (chunk (Server.openSlot malloc id).format
              (Server.openSlot malloc id).channel)) ∧
          sentTo fd s.log <+: kept.flatten) ∧
        ∀ id fd, (s.clients id).fd = some fd → ∃ kept : List (List Byte),
          kept.Sublist ((chunksSince fd s.log).map
            (chunk (Server.openSlot malloc id).format
              (Server.openSlot malloc id).channel)) ∧
          sentTo fd s.log ++ (s.clients id).queued = kept.flatten) := by
  have hstart := Server.ready_start malloc rxFreq time
  obtain ⟨s, hrun, hmoves⟩ := hstart.run_moves getPhase ts
  have hready := hstart.moves hmoves
  have hslot : ∀ id, (Server.openSlot malloc id).format = (s.clients id).format ∧
      (Server.openSlot malloc id).channel = (s.clients id).channel := by
    intro id
    have hbefore := hstart.alike id
    have hafter := hready.alike id
    exact ⟨hbefore.format.trans hafter.format.symm,
      hbefore.channel.trans hafter.channel.symm⟩
  refine ⟨s, hrun, fun hfresh => ?_⟩
  obtain ⟨-, hdelivers, hdelivered⟩ := hstart.moves_induction
    (P := Server.Streams) (fun _ _ hs hmove h => h.move hs hmove) hmoves
    (Server.streams_start malloc rxFreq time) hfresh
  refine ⟨fun fd => ?_, fun id fd hfd => ?_⟩
  · obtain ⟨id, hid, kept, hsub, hsent⟩ := hdelivered fd
    refine ⟨id, hid, kept, ?_, hsent⟩
    rw [(hslot id).1, (hslot id).2]
    exact hsub
  · obtain ⟨kept, hbooks⟩ := hdelivers id fd hfd
    refine ⟨kept, ?_, hbooks.flatten.symm⟩
    rw [(hslot id).1, (hslot id).2]
    exact hbooks.sublist

/-- A client connects, a second one is refused, twelve chunks are read and a
flush sends six bytes. -/
def sendTurns : List Turn :=
  [idleTurn 1 none, idleTurn 2 (some 5), { idleTurn 0 none with rdCntr := 19968 },
    { idleTurn 0 none with rdCntr := 19968 }, idleTurn 0 none,
    { idleTurn 0 none with send := fun _ n => .wrote (Fin.ofNat (n + 1) 6) }]

theorem sendTurns_log :
    ((Server.start (fun _ _ => 0) (fun _ => 0) 0).run id sendTurns).map
        (fun s => (descriptors s.log, (sentTo 5 s.log).length,
          (s.clients 0).fd)) =
      some ([.acquire 5, .acquire 6, .release 6, .use 5, .use 5], 6, some 5) := by
  decide +kernel

theorem connections_get_their_channel_sent :
    ∃ s, (Server.start (fun _ _ => 0) (fun _ => 0) 0).run id sendTurns = some s ∧
      (sentTo 5 s.log).length = 6 ∧
      ∃ kept : List (List Byte),
        kept.Sublist ((chunksSince 5 s.log).map (chunk .cs16 0)) ∧
        sentTo 5 s.log ++ (s.clients 0).queued = kept.flatten := by
  obtain ⟨s, hrun, h⟩ := connections_get_their_channel id (fun _ _ => 0)
    (fun _ => 0) 0 sendTurns
  have hlog := sendTurns_log
  rw [hrun, Option.map_some, Option.some_inj] at hlog
  obtain ⟨hdescriptors, hrest⟩ := Prod.mk.inj hlog
  obtain ⟨hsent, hfd⟩ := Prod.mk.inj hrest
  have hfresh : Fresh (descriptors s.log) := by
    rw [hdescriptors]
    exact ((((fresh_nil.snoc (a := .acquire 5) (by simp)).snoc
      (a := .acquire 6) (by simp [live, Action.apply])).snoc
      (a := .release 6) (by simp)).snoc (a := .use 5) (by simp)).snoc
      (a := .use 5) (by simp)
  exact ⟨s, hrun, hsent, (h hfresh).2 0 5 hfd⟩

end RedPitayaNotes.HfdlReceiver
