import RedPitayaNotes.HfdlReceiver.Moves
import RedPitayaNotes.Support.RoundRobin

/-!
# What a turn does

A turn either copies chunks, sets the attenuator or visits one client for
maintenance, or it comes to the flush.  Only the maintenance and the flush move
the static counters of `main`.
-/

namespace RedPitayaNotes.HfdlReceiver

open Bits Memory RoundRobin

/-- What decides when each client is served. -/
structure Schedule where
  now : ℤ
  nextNetworkMaintenance : ℤ
  maintenanceId : ℕ
  flushId : ℕ
  visits : List (ℕ × ℤ)
  flushes : ℕ
deriving DecidableEq, Repr

/-- What a visit of the maintenance makes of the schedule. -/
def Schedule.maintained (x : Schedule) (time : ℤ) : Schedule :=
  { x with
    now := time
    nextNetworkMaintenance :=
      if x.maintenanceId = numclients then time + 100 * 1000
      else x.nextNetworkMaintenance
    maintenanceId := head numclients x.maintenanceId + 1
    visits := x.visits ++ [(head numclients x.maintenanceId, time)] }

namespace Server

variable {getPhase : BitVec 32 → BitVec 32} {s s' : Server} {t : Turn}

def schedule (s : Server) : Schedule where
  now := s.now
  nextNetworkMaintenance := s.nextNetworkMaintenance
  maintenanceId := s.maintenanceId
  flushId := s.flushId
  visits := s.visits
  flushes := s.flushes

@[simp] theorem schedule_setClient (s : Server) (id : ℕ) (c : Client) :
    (s.setClient id c).schedule = s.schedule := rfl

@[simp] theorem schedule_emit (s : Server) (events : List Event) :
    (s.emit events).schedule = s.schedule := rfl

@[simp] theorem schedule_closeSlot (s : Server) (id : ℕ) :
    (s.closeSlot id).schedule = s.schedule := rfl

@[simp] theorem schedule_adjustAtt (s : Server) (t : Turn) :
    (s.adjustAtt t).1.schedule = s.schedule := by
  rcases s.adjustAtt_cases t with h | ⟨-, -, -, h⟩ | ⟨-, -, -, h⟩ <;>
    rw [h] <;> rfl

theorem Ready.schedule_copyChunk (h : s.Ready) {buffer : ℕ → BitVec 32}
    (hcopy : s.copyChunk buffer = some s') : s'.schedule = s.schedule := by
  obtain ⟨clients, hfold, -, -⟩ := appendTo_foldlM buffer
    (List.nodup_range (n := numclients)) (s := s.emit [.chunk buffer])
    (h.congr rfl) fun id hid => List.mem_range.mp hid
  rw [← Option.some.inj (hfold.symm.trans hcopy)]
  rfl

theorem Ready.schedule_readLoop (h : s.Ready) {fifo : ℕ → ℕ → BitVec 32}
    {n rxSamples : ℕ} (hread : s.readLoop fifo n rxSamples = some s') :
    s'.schedule = s.schedule := by
  induction rxSamples using Nat.strong_induction_on generalizing s n with
  | _ rxSamples ih =>
      rw [readLoop] at hread
      split at hread
      next hmore =>
        have hpos : 0 < chunkSamples := by decide
        obtain ⟨s₁, hcopy, hmove⟩ := h.copyChunk_move id (fifo n)
        rw [hcopy] at hread
        have hrest := ih (rxSamples - chunkSamples) (by omega)
          (h.move hmove) hread
        exact hrest.trans (h.schedule_copyChunk hcopy)
      next => rw [Option.some.inj hread]

theorem schedule_readFrequency (getPhase : BitVec 32 → BitVec 32)
    (s : Server) (t : Turn) (id : ℕ) :
    (s.readFrequency getPhase t id).schedule = s.schedule := by
  unfold readFrequency
  cases t.frequency id <;> rfl

theorem schedule_acceptClientDiscard (s : Server) (fd : Option ℕ) :
    (s.acceptClientDiscard fd).schedule = s.schedule := by
  cases fd <;> rfl

/-- A visit makes a system call, so that the loop ends after it. -/
theorem schedule_maintainClient (getPhase : BitVec 32 → BitVec 32)
    (s : Server) (t : Turn) (id sysCalls : ℕ) :
    (s.maintainClient getPhase t id sysCalls).1.schedule = s.schedule ∧
      sysCalls < (s.maintainClient getPhase t id sysCalls).2 := by
  unfold maintainClient
  obtain ⟨s₁, calls, hs₁, hschedule, hcalls⟩ : ∃ s₁ calls,
      (if (s.clients id).fd = none then (s.acceptSlot t id, sysCalls + 1)
        else (s, sysCalls)) = (s₁, calls) ∧ s₁.schedule = s.schedule ∧
      (calls = sysCalls + 1 ∨ calls = sysCalls ∧ (s₁.clients id).fd ≠ none) := by
    split
    next => exact ⟨_, _, rfl, rfl, Or.inl rfl⟩
    next hfd => exact ⟨s, sysCalls, rfl, rfl, Or.inr ⟨rfl, hfd⟩⟩
  rw [hs₁]
  dsimp only
  split
  next hfd =>
    refine ⟨hschedule, ?_⟩
    rcases hcalls with rfl | ⟨-, hne⟩
    · exact Nat.lt_succ_self _
    · exact absurd hfd hne
  next =>
    have hdiscard := schedule_acceptClientDiscard s₁ (t.discard id)
    split
    · exact ⟨hdiscard.trans hschedule, by omega⟩
    · refine ⟨(schedule_readFrequency getPhase _ t id).trans ?_, by omega⟩
      exact hdiscard.trans hschedule

/-! ## The maintenance -/

theorem schedule_maintainLoop (getPhase : BitVec 32 → BitVec 32)
    (s : Server) (t : Turn) {id : ℕ}
    (hid : id < numclients) :
    (s.maintainLoop getPhase t id 0).1.schedule =
        { s.schedule with
          maintenanceId := id + 1
          visits := s.visits ++ [(id, s.now)] } ∧
      0 < (s.maintainLoop getPhase t id 0).2 := by
  obtain ⟨hschedule, hcalls⟩ :=
    schedule_maintainClient getPhase (s.visit id) t id 0
  have hstop : ¬(id + 1 < numclients ∧
      ((s.visit id).maintainClient getPhase t id 0).2 < syscallsPerLoop) :=
    fun hmore => absurd hmore.2 (Nat.not_lt.mpr hcalls)
  rw [maintainLoop, if_pos ⟨hid, Nat.one_pos⟩]
  dsimp only
  rw [maintainLoop, if_neg hstop]
  refine ⟨?_, hcalls⟩
  change { ((s.visit id).maintainClient getPhase t id 0).1.schedule with
    maintenanceId := id + 1 } = _
  rw [hschedule]
  rfl

theorem schedule_maintain (getPhase : BitVec 32 → BitVec 32) (s : Server)
    (t : Turn)     (hid : s.maintenanceId ≤ numclients) :
    (s.maintain getPhase t).1.schedule =
        s.schedule.maintained t.maintenanceTime ∧
      0 < (s.maintain getPhase t).2 := by
  unfold maintain
  dsimp only
  by_cases hend : s.maintenanceId = numclients
  · rw [if_pos hend]
    obtain ⟨hschedule, hcalls⟩ := schedule_maintainLoop getPhase
      { s with
        now := t.maintenanceTime
        nextNetworkMaintenance := t.maintenanceTime + 100 * 1000
        maintenanceId := 0 } t (show 0 < numclients by decide)
    refine ⟨hschedule.trans ?_, hcalls⟩
    simp [schedule, Schedule.maintained, head, hend]
  · rw [if_neg hend]
    obtain ⟨hschedule, hcalls⟩ := schedule_maintainLoop getPhase
      { s with now := t.maintenanceTime } t (Nat.lt_of_le_of_ne hid hend)
    refine ⟨hschedule.trans ?_, hcalls⟩
    simp [schedule, Schedule.maintained, head, hend]

/-! ## The flush -/

theorem schedule_flushSlot {id : ℕ} {r : Server × ℕ × ℕ}
    (hslot : s.flushSlot t id = some r) : r.1.schedule = s.schedule := by
  unfold flushSlot at hslot
  obtain ⟨x, -, hx⟩ := Option.map_eq_some_iff.mp hslot
  rw [← hx]
  dsimp only
  repeat' split
  all_goals rfl

theorem schedule_flushLoop {id sysCalls totalWritten : ℕ} {r : Server × ℕ}
    (hid : id ≤ numclients)
    (hloop : s.flushLoop t id sysCalls totalWritten = some r) :
    r.1.schedule = { s.schedule with flushId := r.1.flushId } ∧
      id ≤ r.1.flushId ∧ r.1.flushId ≤ numclients ∧
      (id < numclients → sysCalls = 0 → id < r.1.flushId) := by
  induction hn : numclients - id
    generalizing s id sysCalls totalWritten with
  | zero =>
      rw [flushLoop, if_neg (by omega)] at hloop
      obtain rfl := Option.some.inj hloop
      exact ⟨rfl, le_refl _, hid, fun hlt => by omega⟩
  | succ n ih =>
      rw [flushLoop] at hloop
      split at hloop
      next hmore =>
        have hnext : id + 1 ≤ numclients := hmore.1
        split at hloop
        next =>
          obtain ⟨hschedule, hlow, hhigh, -⟩ := ih hnext hloop (by omega)
          exact ⟨hschedule, by omega, hhigh, fun _ _ => hlow⟩
        next =>
          obtain ⟨x, hslot, hrest⟩ := Option.bind_eq_some_iff.mp hloop
          obtain ⟨hschedule, hlow, hhigh, -⟩ := ih hnext hrest (by omega)
          rw [schedule_flushSlot hslot] at hschedule
          exact ⟨hschedule, by omega, hhigh, fun _ _ => hlow⟩
      next hdone =>
        obtain rfl := Option.some.inj hloop
        refine ⟨rfl, le_refl _, hid, fun hlt hcalls => ?_⟩
        exact absurd ⟨hlt, hcalls ▸ Nat.one_pos⟩ hdone

/-- A flush makes a pass over the clients. -/
theorem schedule_flush (hflush : s.flush t = some s')
    (hid : s.flushId ≤ numclients) :
    s'.schedule =
        { s.schedule with
          now := t.flushTime
          flushId := s'.flushId
          flushes := s.flushes + 1 } ∧
      head numclients s.flushId < s'.flushId ∧ s'.flushId ≤ numclients := by
  obtain ⟨r, hloop, rfl⟩ := Option.map_eq_some_iff.mp hflush
  have hhead : head numclients s.flushId < numclients :=
    head_lt (by decide) hid
  obtain ⟨hschedule, -, hhigh, hpass⟩ :=
    schedule_flushLoop (le_of_lt hhead) hloop
  exact ⟨hschedule, hpass hhead rfl, hhigh⟩

/-! ## The three kinds of turns -/

/-- A turn leaves the schedule, or visits one client for maintenance, or comes
to the flush. -/
theorem Ready.turn_cases (h : s.Ready) (hid : s.maintenanceId ≤ numclients)
    (hturn : s.turn getPhase t = some s') :
    s'.schedule = s.schedule ∨
      (s.nextNetworkMaintenance < s.now ∧
        s'.schedule = s.schedule.maintained t.maintenanceTime) ∨
      ∃ s₁, Moves getPhase s s₁ ∧ s₁.schedule = s.schedule ∧
        s₁.flush t = some s' := by
  have hadjust : Moves getPhase s (s.adjustAtt t).1 :=
    Relation.ReflTransGen.single (Move.adjust s t)
  have hready := h.moves hadjust
  obtain ⟨s₁, hread, hmoves⟩ :=
    hready.readLoop_moves getPhase t.fifo 0 (rxSamples t)
  have hschedule : s₁.schedule = s.schedule :=
    (hready.schedule_readLoop hread).trans (schedule_adjustAtt s t)
  unfold turn at hturn
  dsimp only at hturn
  rw [hread, Option.bind_eq_bind, Option.bind_some] at hturn
  have hnow : s₁.now = s.now := congrArg Schedule.now hschedule
  have hnext : s₁.nextNetworkMaintenance = s.nextNetworkMaintenance :=
    congrArg Schedule.nextNetworkMaintenance hschedule
  have hid₁ : s₁.maintenanceId ≤ numclients :=
    le_of_eq_of_le (congrArg Schedule.maintenanceId hschedule) hid
  split at hturn
  next =>
    rw [← Option.some.inj hturn]
    exact Or.inl hschedule
  next =>
    by_cases hdue : s₁.now > s₁.nextNetworkMaintenance
    · obtain ⟨hvisit, hcalls⟩ :=
        schedule_maintain getPhase s₁ t hid₁
      simp only [if_pos hdue] at hturn
      rw [if_pos hcalls] at hturn
      rw [← Option.some.inj hturn, hvisit, hschedule]
      rw [hnow, hnext] at hdue
      exact Or.inr (Or.inl ⟨hdue, rfl⟩)
    · simp only [if_neg hdue, gt_iff_lt, Nat.lt_irrefl, if_false] at hturn
      exact Or.inr (Or.inr ⟨s₁, hadjust.trans hmoves, hschedule, hturn⟩)

/-- The counters stay within the clients. -/
theorem Ready.turn_counters (h : s.Ready) (hturn : s.turn getPhase t = some s')
    (hids : s.maintenanceId ≤ numclients ∧ s.flushId ≤ numclients) :
    s'.maintenanceId ≤ numclients ∧ s'.flushId ≤ numclients := by
  rcases h.turn_cases hids.1 hturn with hsame | ⟨-, hvisit⟩ |
    ⟨s₁, -, hsame, hflush⟩
  · have hm := congrArg Schedule.maintenanceId hsame
    have hf := congrArg Schedule.flushId hsame
    exact ⟨le_of_eq_of_le hm hids.1, le_of_eq_of_le hf hids.2⟩
  · have hm := congrArg Schedule.maintenanceId hvisit
    have hf := congrArg Schedule.flushId hvisit
    have hhead : head numclients s.maintenanceId < numclients :=
      head_lt (by decide) hids.1
    exact ⟨le_of_eq_of_le hm hhead, le_of_eq_of_le hf hids.2⟩
  · have hf : s₁.flushId = s.flushId := congrArg Schedule.flushId hsame
    obtain ⟨hschedule, -, hhigh⟩ := schedule_flush hflush (hf ▸ hids.2)
    have hm : s'.maintenanceId = s₁.maintenanceId :=
      congrArg Schedule.maintenanceId hschedule
    have hm₁ : s₁.maintenanceId = s.maintenanceId :=
      congrArg Schedule.maintenanceId hsame
    exact ⟨hm ▸ hm₁ ▸ hids.1, hhigh⟩

end Server

end RedPitayaNotes.HfdlReceiver
