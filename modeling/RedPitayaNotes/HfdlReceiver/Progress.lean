import Mathlib.Data.List.Infix
import RedPitayaNotes.HfdlReceiver.Schedule

/-!
# Clients that do not take their data

The flush goes round the clients and stops after one `send()`.  A client with
data for a whole `send()` is therefore reached within one round, and once two
seconds have passed since it last took data, it takes some then or is closed.
-/

namespace RedPitayaNotes.HfdlReceiver

open Bits Memory RoundRobin

/-- The event ends the wait of the client: it took data or was closed. -/
def Served (fd : ℕ) (e : Event) : Prop :=
  e = .disconnect fd ∨ ∃ bytes, bytes ≠ [] ∧ e = .send fd bytes

/-- `send()` takes a byte, or says that it cannot. -/
def Turn.Sends (t : Turn) : Prop :=
  ∀ (id n : ℕ) (bytes : Fin (n + 1)), 0 < n → t.send id n = .wrote bytes →
    0 < bytes.val

namespace Client

variable {c c' : Client}

theorem Sound.sendqLen_appendChunk (h : c.Sound) {buffer : ℕ → BitVec 32}
    (happend : c.appendChunk buffer = some c') :
    c'.sendqLen = c.retained (c.sendqLen + c.format.chunkSize) ∧
      c'.lastProgress = c.lastProgress := by
  obtain ⟨dropped, happend'⟩ := h.appendChunk_eq buffer
  obtain rfl := Option.some.inj (happend'.symm.trans happend)
  have hroom := h.room
  have hsmall := chunkSize_le c.format
  have hle := c.retained_le (c.sendqLen + c.format.chunkSize)
  have hlt := h.retained_add_lt (n := c.sendqLen + c.format.chunkSize)
    (by omega)
  have hdvd := (h.retained_cases
    (Nat.le_add_left c.format.chunkSize c.sendqLen)).2
  exact ⟨(h.fill hlt (h.cursor_dvd hle hdvd) _ _).2, rfl⟩

/-- A queue that is large enough keeps a whole message when it drops half. -/
theorem le_retained {n : ℕ} (hmax : 2 ^ 16 ≤ c.sendqMax) (hn : sendSize ≤ n) :
    sendSize ≤ c.retained n := by
  have hdrop := c.dropBytes_le
  have hsize : sendSize = 11600 := rfl
  have hchunk := chunkChannelBytes_eq
  unfold retained
  split <;> omega

theorem toWrite_pos (h : c.Sound) (hfull : sendSize ≤ c.sendqLen) :
    0 < c.toWrite sendSize := by
  have hstart := h.start_lt
  have hsize : sendSize = 11600 := rfl
  unfold toWrite
  dsimp only
  split <;> split <;> omega

end Client

namespace Server

variable {getPhase : BitVec 32 → BitVec 32} {s s' : Server} {t : Turn}
variable {n j fd : ℕ} {last : ℤ}

/-- The client has a whole message and has not progressed since `last`. -/
structure Waiting (j fd : ℕ) (last : ℤ) (s : Server) : Prop where
  connected : (s.clients j).fd = some fd
  full : sendSize ≤ (s.clients j).sendqLen
  progress : (s.clients j).lastProgress = last

/-- The client has been served since event `n`. -/
def Answered (n fd : ℕ) (s : Server) : Prop :=
  ∃ e ∈ s.log.drop n, Served fd e

structure Pending (n j fd : ℕ) (last : ℤ) (s : Server) : Prop where
  le : n ≤ s.log.length
  state : s.Answered n fd ∨ s.Waiting j fd last

theorem Answered.extend (h : s.Answered n fd) (hlog : s.log <+: s'.log) :
    s'.Answered n fd := by
  obtain ⟨e, he, hserved⟩ := h
  exact ⟨e, (List.IsPrefix.drop hlog n).subset he, hserved⟩

theorem answered_emit (hle : n ≤ s.log.length) {e : Event}
    {events : List Event} (he : e ∈ events) (hserved : Served fd e)
    (hlog : s'.log = s.log ++ events) : s'.Answered n fd := by
  refine ⟨e, ?_, hserved⟩
  rw [hlog, List.drop_append_of_le_length hle]
  exact List.mem_append_right _ he

theorem Waiting.of_client (h : s.Waiting j fd last)
    (hclient : s'.clients j = s.clients j) : s'.Waiting j fd last := by
  obtain ⟨hconnected, hfull, hprogress⟩ := h
  exact ⟨hclient ▸ hconnected, hclient ▸ hfull, hclient ▸ hprogress⟩

theorem Pending.keep (h : s.Pending n j fd last) {events : List Event}
    (hlog : s'.log = s.log ++ events)
    (hstate : s.Waiting j fd last →
      (∃ e ∈ events, Served fd e) ∨ s'.Waiting j fd last) :
    s'.Pending n j fd last where
  le := by
    rw [hlog, List.length_append]
    exact h.le.trans (Nat.le_add_right _ _)
  state := by
    rcases h.state with hanswered | hwaiting
    · exact Or.inl (hanswered.extend (hlog ▸ List.prefix_append _ _))
    · rcases hstate hwaiting with ⟨e, he, hserved⟩ | hwaiting
      · exact Or.inl (answered_emit h.le he hserved hlog)
      · exact Or.inr hwaiting

theorem Ready.sendqMax (h : s.Ready) (id : ℕ) :
    2 ^ 16 ≤ (s.clients id).sendqMax := by
  have hcs16 : 2 ^ 16 ≤
      totalNetBuffer / numchans / chunkChannelBytes * chunkChannelBytes := by
    decide
  have hcu8 : 2 ^ 16 ≤
      totalNetBuffer / 4 / numchans / chunkChannelBytes * chunkChannelBytes := by
    decide
  rw [(h.alike id).sendqMax]
  unfold openSlot
  split
  · exact hcs16
  · exact hcu8

/-- What `send()` does to a client that has a whole message. -/
theorem Waiting.flush (h : s.Waiting j fd last)
    {send : (n : ℕ) → SendResult n} {now : ℤ} {c : Client} {bytesWritten : ℤ}
    (hflush : (s.clients j).flushClient sendSize sendSize send now =
      some (c, bytesWritten)) :
    (∃ e ∈ sendEvent (s.clients j) bytesWritten, Served fd e) ∨
      c = s.clients j ∧ (bytesWritten = -2 ∨ bytesWritten = -1 ∨
        ∃ bytes, send ((s.clients j).toWrite sendSize) = .wrote bytes ∧
          bytes.val = 0) := by
  have hfull : ¬((s.clients j).sendqLen < sendSize ∨
      (s.clients j).sendqLen ≤ 0) := by
    have hsize : sendSize = 11600 := rfl
    have hlen := h.full
    omega
  unfold Client.flushClient at hflush
  rw [if_neg hfull] at hflush
  split at hflush
  next =>
    obtain ⟨rfl, rfl⟩ := Prod.mk.inj (Option.some.inj hflush)
    exact Or.inr ⟨rfl, Or.inl rfl⟩
  next =>
    obtain ⟨rfl, rfl⟩ := Prod.mk.inj (Option.some.inj hflush)
    exact Or.inr ⟨rfl, Or.inr (Or.inl rfl)⟩
  next bytes hbytes =>
    split at hflush
    next hpos =>
      obtain ⟨d, -, hd⟩ := Option.bind_eq_some_iff.mp hflush
      obtain ⟨-, rfl⟩ := Prod.mk.inj (Option.some.inj hd)
      refine Or.inl ⟨_, ?_, Or.inr ⟨read (s.clients j).sendq
        (s.clients j).sendqStart bytes.val, ?_, rfl⟩⟩
      · rw [sendEvent, if_neg hfull, h.connected]
        exact List.mem_singleton.mpr rfl
      · intro hnil
        have hlen := congrArg List.length hnil
        rw [length_read] at hlen
        exact absurd hlen (Nat.ne_of_gt hpos)
    next hzero =>
      obtain ⟨rfl, rfl⟩ := Prod.mk.inj (Option.some.inj hflush)
      exact Or.inr ⟨rfl, Or.inr (Or.inr ⟨bytes, hbytes, by omega⟩)⟩

/-- A client that waits goes on waiting until it is served. -/
theorem Pending.move (h : s.Pending n j fd last) (hready : s.Ready)
    (hj : j < numclients) (hmove : Move getPhase s s') :
    s'.Pending n j fd last := by
  cases hmove with
  | adjust t =>
      have hclients := clients_adjustAtt s t
      have hlog : (s.adjustAtt t).1.log = s.log := by
        rcases s.adjustAtt_cases t with heq | ⟨-, -, -, heq⟩ | ⟨-, -, -, heq⟩ <;>
          rw [heq] <;> rfl
      have hnil : (s.adjustAtt t).1.log = s.log ++ [] := by
        rw [hlog, List.append_nil]
      exact h.keep hnil fun hw => Or.inr (hw.of_client (congrFun hclients j))
  | frame now next maintenanceId flushId visits flushes =>
      exact h.keep (List.append_nil _).symm fun hw => Or.inr (hw.of_client rfl)
  | connect id fd' now hid hfree =>
      refine h.keep rfl fun hw => Or.inr (hw.of_client ?_)
      have hne : j ≠ id := by
        rintro rfl
        exact absurd (hfree.symm.trans hw.connected) (by simp)
      exact Function.update_of_ne hne _ _
  | refuse fd' => exact h.keep rfl fun hw => Or.inr (hw.of_client rfl)
  | read id fd' hfd => exact h.keep rfl fun hw => Or.inr (hw.of_client rfl)
  | tune id freq hid =>
      exact h.keep (List.append_nil _).symm fun hw => Or.inr (hw.of_client rfl)
  | close id fd' hid hfd =>
      refine h.keep rfl fun hw => ?_
      by_cases hself : j = id
      · obtain rfl := hself
        obtain rfl := Option.some.inj (hfd.symm.trans hw.connected)
        exact Or.inl ⟨_, List.mem_singleton.mpr rfl, Or.inl rfl⟩
      · exact Or.inr (hw.of_client (Function.update_of_ne hself _ _))
  | chunk clients buffer hclients =>
      refine h.keep rfl fun hw => Or.inr ?_
      rcases hclients j with ⟨hfree, -⟩ | ⟨-, happend⟩
      · exact absurd (hfree.symm.trans hw.connected) (by simp)
      · obtain ⟨c', hc', -, -, hfd⟩ :=
          (hready.sound j hj).exists_appendChunk buffer
        obtain rfl := Option.some.inj (happend.symm.trans hc')
        obtain ⟨hlen, hlast⟩ :=
          (hready.sound j hj).sendqLen_appendChunk happend
        refine ⟨hfd.trans hw.connected, ?_, hlast.trans hw.progress⟩
        change sendSize ≤ (clients j).sendqLen
        rw [hlen]
        exact Client.le_retained (hready.sendqMax j)
          (hw.full.trans (Nat.le_add_right _ _))
  | flush id fd' c bytesWritten send now hid hfd hflush =>
      refine h.keep rfl fun hw => ?_
      by_cases hself : j = id
      · obtain rfl := hself
        rcases hw.flush hflush with hserved | ⟨hsame, -⟩
        · exact Or.inl hserved
        · refine Or.inr (hw.of_client ?_)
          rw [clients_emit, clients_setClient, Function.update_self, hsame]
      · exact Or.inr (hw.of_client (Function.update_of_ne hself _ _))

theorem Pending.moves (h : s.Pending n j fd last) (hready : s.Ready)
    (hj : j < numclients) (hmoves : Moves getPhase s s') :
    s'.Pending n j fd last :=
  hready.moves_induction (P := fun s => s.Pending n j fd last)
    (fun _ _ hs hmove hp => hp.move hs hj hmove) hmoves h

/-! ## One pass of the flush -/

theorem answered_closeSlot (hle : n ≤ s.log.length)
    (hfd : (s.clients j).fd = some fd) : (s.closeSlot j).Answered n fd := by
  refine answered_emit (s := s) hle (List.mem_singleton.mpr rfl)
    (Or.inl rfl) ?_
  unfold closeSlot
  rw [hfd]
  rfl

/-- After two seconds without progress a client that the flush comes to is
served. -/
theorem Waiting.flushSlot (h : s.Waiting j fd last)
    (hsound : (s.clients j).Sound) (hle : n ≤ s.log.length)
    (hsends : t.Sends) (hlate : s.now - last > 2 * 1000 * 1000)
    {r : Server × ℕ × ℕ} (hslot : s.flushSlot t j = some r) :
    r.1.Answered n fd := by
  obtain ⟨⟨c, bytesWritten⟩, hflush, hr⟩ := Option.map_eq_some_iff.mp hslot
  have hlog : n ≤ (s.log ++ sendEvent (s.clients j) bytesWritten).length := by
    rw [List.length_append]
    exact hle.trans (Nat.le_add_right _ _)
  rcases h.flush hflush with ⟨e, he, hserved⟩ | ⟨hsame, hcode⟩
  · have hsent : ((s.setClient j c).emit
        (sendEvent (s.clients j) bytesWritten)).Answered n fd :=
      answered_emit (s := s) hle he hserved rfl
    have hclosed : (closeSlot ((s.setClient j c).emit
        (sendEvent (s.clients j) bytesWritten)) j).Answered n fd :=
      hsent.extend (List.prefix_append _ _)
    rw [← hr]
    dsimp only
    repeat' split
    all_goals assumption
  · have hclosed : (closeSlot ((s.setClient j c).emit
        (sendEvent (s.clients j) bytesWritten)) j).Answered n fd := by
      refine answered_closeSlot hlog ?_
      rw [clients_emit, clients_setClient, Function.update_self, hsame]
      exact h.connected
    have hlast : c.lastProgress = last := by
      rw [hsame, h.progress]
    have hlate' : ((s.setClient j c).emit
        (sendEvent (s.clients j) bytesWritten)).now - c.lastProgress >
          2 * 1000 * 1000 := by
      rw [hlast]
      exact hlate
    rw [← hr]
    dsimp only
    rcases hcode with rfl | rfl | ⟨bytes, hbytes, hzero⟩
    · rw [if_neg (by decide), if_neg (by decide), if_pos rfl, if_pos hlate']
      exact hclosed
    · rw [if_pos rfl]
      exact hclosed
    · have hpos := hsends j _ bytes (Client.toWrite_pos hsound h.full) hbytes
      omega

theorem Ready.answered_flushLoop (h : s.Ready) (hanswered : s.Answered n fd)
    {id sysCalls totalWritten : ℕ} {r : Server × ℕ}
    (hloop : s.flushLoop t id sysCalls totalWritten = some r) :
    r.1.Answered n fd := by
  obtain ⟨r', hloop', hmoves⟩ :=
    h.flushLoop_moves (fun freq => freq) t id sysCalls totalWritten
  obtain rfl := Option.some.inj (hloop'.symm.trans hloop)
  exact hanswered.extend (Moves.log_prefix hmoves)

/-- A pass that starts before the client serves it or stops before it. -/
theorem Pending.flushLoop (h : s.Pending n j fd last) (hready : s.Ready)
    (hj : j < numclients) (hsends : t.Sends)
    (hlate : s.now - last > 2 * 1000 * 1000) {id totalWritten : ℕ}
    (hid : id ≤ j) {r : Server × ℕ}
    (hloop : s.flushLoop t id 0 totalWritten = some r) :
    r.1.Answered n fd ∨ r.1.flushId ≤ j := by
  induction hk : numclients - id generalizing s id totalWritten with
  | zero => omega
  | succ k ih =>
      rcases h.state with hanswered | hwaiting
      · exact Or.inl (hready.answered_flushLoop hanswered hloop)
      rw [flushLoop, if_pos ⟨by omega, Nat.one_pos⟩] at hloop
      split at hloop
      next hfree =>
        have hne : id ≠ j := by
          rintro rfl
          exact absurd (hfree.symm.trans hwaiting.connected) (by simp)
        exact ih h hready hlate (by omega) hloop (by omega)
      next hopen =>
        obtain ⟨x, hslot, hrest⟩ := Option.bind_eq_some_iff.mp hloop
        obtain ⟨fd', hfd'⟩ := Option.ne_none_iff_exists'.mp hopen
        obtain ⟨x', hslot', hmoves⟩ :=
          hready.flushSlot_moves (fun freq => freq) t (by omega) hfd'
        obtain rfl := Option.some.inj (hslot'.symm.trans hslot)
        have hready' := hready.moves hmoves
        by_cases hself : id = j
        · have hanswered := Waiting.flushSlot hwaiting (hready.sound j hj)
            h.le hsends hlate (hself ▸ hslot)
          exact Or.inl (hready'.answered_flushLoop hanswered hrest)
        · by_cases hcalls : x'.2.1 = 0
          · have hnow : x'.1.now = s.now :=
              congrArg Schedule.now (schedule_flushSlot hslot)
            dsimp only at hrest
            rw [hcalls] at hrest
            exact ih (h.moves hready hj hmoves) hready' (hnow ▸ hlate)
              (by omega) hrest (by omega)
          · -- the call to `send()` ends the pass at the next client
            have hstop : ¬(id + 1 < numclients ∧
                0 + x'.2.1 < syscallsPerLoop) := by
              have hone : syscallsPerLoop = 1 := rfl
              omega
            dsimp only at hrest
            rw [flushLoop, if_neg hstop] at hrest
            obtain rfl := Option.some.inj hrest
            exact Or.inr (by dsimp only; omega)

/-- A flush serves the client or brings its turn nearer. -/
theorem Pending.flush (h : s.Pending n j fd last) (hready : s.Ready)
    (hj : j < numclients) (hid : s.flushId ≤ numclients) (hsends : t.Sends)
    (hlate : t.flushTime - last > 2 * 1000 * 1000)
    (hflush : s.flush t = some s') :
    s'.Answered n fd ∨
      distance numclients s'.flushId j < distance numclients s.flushId j := by
  obtain ⟨-, hpass, hnext⟩ := schedule_flush hflush hid
  rcases Nat.lt_or_ge j (head numclients s.flushId) with hbefore | hfrom
  · exact Or.inr (distance_pass hid hj hpass hnext (Or.inl hbefore))
  · obtain ⟨r, hloop, rfl⟩ := Option.map_eq_some_iff.mp hflush
    have hframe : Move (fun freq => freq) s
        { s with now := t.flushTime, flushes := s.flushes + 1 } :=
      Move.frame s _ _ _ _ _ _
    have hpending := h.move hready hj hframe
    rcases hpending.flushLoop (hready.congr rfl) hj hsends hlate hfrom hloop with
      hanswered | hstop
    · exact Or.inl hanswered
    · exact Or.inr (distance_pass hid hj hpass hnext (Or.inr hstop))

/-! ## Runs -/

/-- The flushes since `flushes` and those before the client's turn. -/
structure Approaches (flushes bound n j fd : ℕ) (last : ℤ) (s : Server) :
    Prop where
  pending : s.Pending n j fd last
  maintenanceId : s.maintenanceId ≤ numclients
  flushId : s.flushId ≤ numclients
  near : s.Answered n fd ∨
    s.flushes + distance numclients s.flushId j ≤ flushes + bound

theorem Approaches.turn {flushes bound : ℕ}
    (h : s.Approaches flushes bound n j fd last) (hready : s.Ready)
    (hj : j < numclients) (hsends : t.Sends)
    (hlate : t.flushTime - last > 2 * 1000 * 1000)
    (hturn : s.turn getPhase t = some s') :
    s'.Approaches flushes bound n j fd last := by
  obtain ⟨s'', hturn', hmoves⟩ := hready.turn_moves getPhase t
  obtain rfl := Option.some.inj (hturn'.symm.trans hturn)
  obtain ⟨hmid, hfid⟩ :=
    hready.turn_counters hturn ⟨h.maintenanceId, h.flushId⟩
  refine ⟨h.pending.moves hready hj hmoves, hmid, hfid, ?_⟩
  rcases h.near with hanswered | hnear
  · exact Or.inl (hanswered.extend (Moves.log_prefix hmoves))
  rcases hready.turn_cases h.maintenanceId hturn with hsame | ⟨-, hvisit⟩ |
    ⟨s₁, hmoves₁, hsame, hflush⟩
  · have hf : s''.flushId = s.flushId := congrArg Schedule.flushId hsame
    have hn : s''.flushes = s.flushes := congrArg Schedule.flushes hsame
    exact Or.inr (by rw [hf, hn]; exact hnear)
  · have hf : s''.flushId = s.flushId := congrArg Schedule.flushId hvisit
    have hn : s''.flushes = s.flushes := congrArg Schedule.flushes hvisit
    exact Or.inr (by rw [hf, hn]; exact hnear)
  · have hf : s₁.flushId = s.flushId := congrArg Schedule.flushId hsame
    have hn : s₁.flushes = s.flushes := congrArg Schedule.flushes hsame
    obtain ⟨hschedule, -, -⟩ := schedule_flush hflush (hf ▸ h.flushId)
    have hn' : s''.flushes = s₁.flushes + 1 :=
      congrArg Schedule.flushes hschedule
    rcases (h.pending.moves hready hj hmoves₁).flush (hready.moves hmoves₁) hj
      (hf ▸ h.flushId) hsends hlate hflush with hanswered | hnearer
    · exact Or.inl hanswered
    · rw [hf] at hnearer
      exact Or.inr (by omega)

theorem Approaches.run {flushes bound : ℕ}
    (h : s.Approaches flushes bound n j fd last) (hready : s.Ready)
    (hj : j < numclients) {ts : List Turn} (hsends : ∀ t ∈ ts, t.Sends)
    (hlate : ∀ t ∈ ts, t.flushTime - last > 2 * 1000 * 1000)
    (hrun : s.run getPhase ts = some s') :
    s'.Approaches flushes bound n j fd last := by
  induction ts generalizing s with
  | nil =>
      rw [← Option.some.inj hrun]
      exact h
  | cons t ts ih =>
      obtain ⟨s₁, hturn, hmoves⟩ := hready.turn_moves getPhase t
      rw [run, List.foldlM_cons, hturn] at hrun
      exact ih (h.turn hready hj (hsends t List.mem_cons_self)
          (hlate t List.mem_cons_self) hturn)
        (hready.moves hmoves)
        (fun t' ht' => hsends t' (List.mem_cons_of_mem t ht'))
        (fun t' ht' => hlate t' (List.mem_cons_of_mem t ht')) hrun

end Server

end RedPitayaNotes.HfdlReceiver
