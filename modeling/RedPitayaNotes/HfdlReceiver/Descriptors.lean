import RedPitayaNotes.HfdlReceiver.Moves
import RedPitayaNotes.Support.Handles

/-!
# The descriptors of the HFDL receiver

The main loop keeps the descriptors of its connections in the clients.  As long
as `accept()` returns no descriptor that is open, none is lost, closed twice or
used after it was closed, and none is left when the server has ended.
-/

namespace RedPitayaNotes.HfdlReceiver

open Handles

def Event.actions : Event → List (Action ℕ)
  | accept fd => [.acquire fd]
  | read fd => [.use fd]
  | send fd _ => [.use fd]
  | disconnect fd => [.release fd]
  | chunk _ => []

/-- What the server did with the descriptors of its connections. -/
def descriptors (log : List Event) : List (Action ℕ) :=
  log.flatMap Event.actions

theorem descriptors_append (log events : List Event) :
    descriptors (log ++ events) = descriptors log ++ descriptors events :=
  List.flatMap_append

namespace Server

variable {getPhase : BitVec 32 → BitVec 32} {s s' : Server}

def fds (s : Server) (id : ℕ) : Option ℕ := (s.clients id).fd

theorem fds_setClient (s : Server) (id : ℕ) (c : Client) :
    (s.setClient id c).fds = Function.update s.fds id c.fd := by
  funext j
  rw [fds, clients_setClient, Function.update_apply, Function.update_apply]
  split <;> rfl

theorem fds_setClient_of_fd {id : ℕ} {c : Client}
    (h : c.fd = (s.clients id).fd) : (s.setClient id c).fds = s.fds := by
  rw [fds_setClient, h]
  exact Function.update_eq_self id s.fds

/-- If the descriptors that `accept()` returned were not open, the open ones are
those of the clients. -/
def Balanced (s : Server) : Prop :=
  Fresh (descriptors s.log) → Owned s.fds (descriptors s.log)

theorem balanced_start (malloc : ℕ → ℕ → Bits.Byte) (rxFreq : ℕ → BitVec 32)
    (time : ℤ) : (start malloc rxFreq time).Balanced := by
  intro _
  refine Owned.empty fun id => ?_
  change (openSlot malloc id).fd = none
  unfold openSlot
  split <;> rfl

theorem Balanced.frame (h : s.Balanced) (hfds : s'.fds = s.fds)
    (hlog : descriptors s'.log = descriptors s.log) : s'.Balanced := by
  unfold Balanced
  rw [hfds, hlog]
  exact h

theorem Balanced.move (h : s.Balanced) (hready : s.Ready)
    (hmove : Move getPhase s s') : s'.Balanced := by
  cases hmove with
  | adjust t =>
      have hcases := s.adjustAtt_cases t
      refine h.frame ?_ ?_ <;>
        rcases hcases with heq | ⟨-, -, -, heq⟩ | ⟨-, -, -, heq⟩ <;>
        rw [heq] <;> rfl
  | frame now next maintenanceId flushId visits flushes => exact h.frame rfl rfl
  | connect id fd now hid hfree =>
      intro hfresh
      change Fresh (descriptors (s.log ++ [.accept fd])) at hfresh
      change Owned (s.setClient id _).fds (descriptors (s.log ++ [.accept fd]))
      rw [descriptors_append] at hfresh ⊢
      rw [fds_setClient]
      exact (h (hfresh.of_prefix (List.prefix_append _ _))).acquire hfree
        hfresh.not_mem
  | refuse fd =>
      intro hfresh
      change Fresh (descriptors (s.log ++ [.accept fd, .disconnect fd])) at hfresh
      change Owned s.fds (descriptors (s.log ++ [.accept fd, .disconnect fd]))
      have hsplit : descriptors (s.log ++ [.accept fd, .disconnect fd]) =
          descriptors s.log ++ [.acquire fd] ++ [.release fd] := by
        rw [descriptors_append, List.append_assoc]
        rfl
      rw [hsplit] at hfresh ⊢
      have hacquire := hfresh.of_prefix (List.prefix_append _ _)
      exact (h (hacquire.of_prefix (List.prefix_append _ _))).pass
        hacquire.not_mem
  | read id fd hfd =>
      intro hfresh
      change Fresh (descriptors (s.log ++ [.read fd])) at hfresh
      change Owned s.fds (descriptors (s.log ++ [.read fd]))
      rw [descriptors_append] at hfresh ⊢
      exact (h (hfresh.of_prefix (List.prefix_append _ _))).use hfd
  | tune id freq hid => exact h.frame rfl rfl
  | close id fd hid hfd =>
      intro hfresh
      change Fresh (descriptors (s.log ++ [.disconnect fd])) at hfresh
      change Owned (s.setClient id _).fds
        (descriptors (s.log ++ [.disconnect fd]))
      rw [descriptors_append] at hfresh ⊢
      rw [fds_setClient]
      exact (h (hfresh.of_prefix (List.prefix_append _ _))).release hfd
  | chunk clients buffer hclients =>
      refine h.frame ?_ ?_
      · funext id
        rcases hclients id with ⟨-, heq⟩ | ⟨hfd, happend⟩
        · change (clients id).fd = (s.clients id).fd
          rw [heq]
        · have hid : id < numclients := by
            by_contra hout
            exact hfd (hready.unused id (Nat.not_lt.mp hout))
          obtain ⟨c', hc', -, -, hkeep⟩ :=
            (hready.sound id hid).exists_appendChunk buffer
          obtain rfl := Option.some.inj (happend.symm.trans hc')
          exact hkeep
      · change descriptors (s.log ++ [.chunk buffer]) = _
        rw [descriptors_append]
        exact List.append_nil _
  | flush id fd c bytesWritten send now hid hfd hflush =>
      obtain ⟨c', bytes, hc', -, -, hkeep⟩ :=
        (hready.sound id hid).exists_flushClient sendSize sendSize send now
      obtain ⟨rfl, rfl⟩ := Prod.mk.inj (Option.some.inj (hflush.symm.trans hc'))
      intro hfresh
      change Fresh (descriptors (s.log ++ sendEvent _ _)) at hfresh
      change Owned (s.setClient id c).fds
        (descriptors (s.log ++ sendEvent _ _))
      rw [fds_setClient_of_fd hkeep]
      rw [descriptors_append] at hfresh ⊢
      have howned := h (hfresh.of_prefix (List.prefix_append _ _))
      unfold sendEvent
      split
      next =>
        have hnil : descriptors [] = [] := rfl
        rw [hnil, List.append_nil]
        exact howned
      next =>
        rw [hfd]
        exact howned.use hfd

theorem Ready.balanced (hready : s.Ready) (h : s.Balanced)
    (hmoves : Moves getPhase s s') : s'.Balanced :=
  hready.moves_induction (P := Balanced)
    (fun _ _ hs hmove hb => hb.move hs hmove) hmoves h

/-! ## The end of the server -/

theorem closeSlot_owned {id fd : ℕ} (hfd : (s.clients id).fd = some fd)
    (howned : Owned s.fds (descriptors s.log)) :
    Owned (s.closeSlot id).fds (descriptors (s.closeSlot id).log) ∧
      (s.closeSlot id).fds = Function.update s.fds id none := by
  have hfds : (s.closeSlot id).fds = Function.update s.fds id none :=
    fds_setClient s id _
  have hlog : (s.closeSlot id).log = s.log ++ [.disconnect fd] := by
    unfold closeSlot
    rw [hfd]
    rfl
  refine ⟨?_, hfds⟩
  rw [hfds, hlog, descriptors_append]
  exact howned.release hfd

/-- Closing the clients `ids`. -/
theorem closeSlots_owned (ids : List ℕ)
    (howned : Owned s.fds (descriptors s.log)) :
    let s' := ids.foldl
      (fun s id => if (s.clients id).fd = none then s else s.closeSlot id) s
    Owned s'.fds (descriptors s'.log) ∧
      ∀ id, s'.fds id = if id ∈ ids then none else s.fds id := by
  induction ids generalizing s with
  | nil => exact ⟨howned, fun id => by simp⟩
  | cons id ids ih =>
      obtain ⟨s₁, hs₁, howned₁, hfds⟩ : ∃ s₁ : Server,
          (if (s.clients id).fd = none then s else s.closeSlot id) = s₁ ∧
          Owned s₁.fds (descriptors s₁.log) ∧
          s₁.fds = Function.update s.fds id none := by
        split
        next hfd =>
          refine ⟨s, rfl, howned, ?_⟩
          rw [← hfd]
          exact (Function.update_eq_self id s.fds).symm
        next hfd =>
          obtain ⟨fd, hfd⟩ := Option.ne_none_iff_exists'.mp hfd
          exact ⟨_, rfl, closeSlot_owned hfd howned⟩
      rw [List.foldl_cons, hs₁]
      obtain ⟨hrest, hclosed⟩ := ih howned₁
      refine ⟨hrest, fun j => ?_⟩
      rw [hclosed j, hfds, Function.update_apply]
      by_cases hself : j = id
      · rw [if_pos hself, ite_self, if_pos (hself ▸ List.mem_cons_self)]
      · rw [if_neg hself]
        exact if_congr (by rw [List.mem_cons, or_iff_right hself]) rfl rfl

theorem cleanUp_owned (hready : s.Ready)
    (howned : Owned s.fds (descriptors s.log)) :
    Safe (descriptors s.cleanUp.log) ∧ live (descriptors s.cleanUp.log) = ∅ := by
  obtain ⟨hend, hclosed⟩ :=
    closeSlots_owned (List.range numclients) howned
  refine ⟨hend.safe, Finset.eq_empty_of_forall_notMem fun fd hfd => ?_⟩
  obtain ⟨id, hid⟩ := (hend.live_iff fd).mp hfd
  rw [hclosed] at hid
  split at hid
  next => cases hid
  next hout =>
    have hunused := hready.unused id (by simpa using hout)
    rw [fds, hunused] at hid
    cases hid

end Server

/-- In every run the server does not exit.  If `accept()` returned no descriptor
that was open, the open ones are those of the clients, each held by one; every
call was made on an open one, and the end of the server closes them all. -/
theorem descriptors_balanced (getPhase : BitVec 32 → BitVec 32)
    (malloc : ℕ → ℕ → Bits.Byte) (rxFreq : ℕ → BitVec 32) (time : ℤ)
    (ts : List Turn) :
    ∃ s, (Server.start malloc rxFreq time).run getPhase ts = some s ∧
      (Fresh (descriptors s.log) →
        Safe (descriptors s.log) ∧
        (∀ fd, fd ∈ live (descriptors s.log) ↔
          ∃! id, id < numclients ∧ (s.clients id).fd = some fd) ∧
        Safe (descriptors s.cleanUp.log) ∧
        live (descriptors s.cleanUp.log) = ∅) := by
  have hstart := Server.ready_start malloc rxFreq time
  obtain ⟨s, hrun, hmoves⟩ := hstart.run_moves getPhase ts
  have hready := hstart.moves hmoves
  refine ⟨s, hrun, fun hfresh => ?_⟩
  have howned := hstart.balanced
    (Server.balanced_start malloc rxFreq time) hmoves hfresh
  refine ⟨howned.safe, fun fd => ?_, Server.cleanUp_owned hready howned⟩
  rw [howned.live_iff]
  constructor
  · rintro ⟨id, hid⟩
    have hlt : id < numclients := by
      by_contra hout
      have hunused := hready.unused id (Nat.not_lt.mp hout)
      rw [Server.fds, hunused] at hid
      cases hid
    exact ⟨id, ⟨hlt, hid⟩, fun j hj => howned.unique j id fd hj.2 hid⟩
  · rintro ⟨id, ⟨-, hid⟩, -⟩
    exact ⟨id, hid⟩

/-- A client connects and a second one is refused. -/
theorem idleTurn_descriptors :
    ((Server.start (fun _ _ => 0) (fun _ => 0) 0).run id
      [idleTurn 1 none, idleTurn 2 (some 5)]).map
        (fun s => descriptors s.log) =
      some [.acquire 5, .acquire 6, .release 6, .use 5] := by
  decide +kernel

theorem descriptors_balanced_connected :
    ∃ s, (Server.start (fun _ _ => 0) (fun _ => 0) 0).run id
        [idleTurn 1 none, idleTurn 2 (some 5)] = some s ∧
      Safe (descriptors s.log) ∧ live (descriptors s.log) = {5} ∧
      live (descriptors s.cleanUp.log) = ∅ := by
  obtain ⟨s, hrun, h⟩ := descriptors_balanced id (fun _ _ => 0) (fun _ => 0) 0
    [idleTurn 1 none, idleTurn 2 (some 5)]
  have hlog := idleTurn_descriptors
  rw [hrun, Option.map_some, Option.some_inj] at hlog
  have hlive : live (descriptors s.log) = {5} := by
    rw [hlog]
    decide
  have hfresh : Fresh (descriptors s.log) := by
    rw [hlog]
    exact (((fresh_nil.snoc (a := .acquire 5) (by simp)).snoc
      (a := .acquire 6) (by simp [live, Action.apply])).snoc
      (a := .release 6) (by simp)).snoc (a := .use 5) (by simp)
  obtain ⟨hsafe, -, -, hclosed⟩ := h hfresh
  exact ⟨s, hrun, hsafe, hlive, hclosed⟩

end RedPitayaNotes.HfdlReceiver
