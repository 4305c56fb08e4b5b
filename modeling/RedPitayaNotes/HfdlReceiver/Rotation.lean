import Mathlib.Data.List.Chain
import RedPitayaNotes.HfdlReceiver.Schedule

/-!
# The rotation of the maintenance

The maintenance visits one client each time it is due.  The visits go round the
clients in order, and a client is not visited again within 100 ms.
-/

namespace RedPitayaNotes.HfdlReceiver

open RoundRobin

/-- `microtime()` does not run backwards from turn to turn. -/
structure Clocked (now : ℤ) (ts : List Turn) : Prop where
  turn : ∀ t ∈ ts, now ≤ t.maintenanceTime ∧ t.maintenanceTime ≤ t.flushTime
  next : ts.Pairwise fun t t' => t.flushTime ≤ t'.maintenanceTime

/-- The visits so far, `n` of them. -/
structure Rotates (x : Schedule) : Prop where
  id : x.maintenanceId =
    if x.visits.length = 0 then 0 else (x.visits.length - 1) % numclients + 1
  slot : ∀ (k : ℕ) (v : ℕ × ℤ), x.visits[k]? = some v → v.1 = k % numclients
  past : ∀ (k : ℕ) (v : ℕ × ℤ), x.visits[k]? = some v → v.2 ≤ x.now
  sorted : ∀ (j k : ℕ) (v w : ℕ × ℤ), j ≤ k → x.visits[j]? = some v →
    x.visits[k]? = some w → v.2 ≤ w.2
  /-- The start of the last round sets the time of the next visit. -/
  due : ∀ (k : ℕ) (v : ℕ × ℤ), 0 < k → numclients ∣ k →
    x.visits.length ≤ k + numclients → x.visits[k]? = some v →
    x.nextNetworkMaintenance = v.2 + 100 * 1000
  pace : ∀ (k : ℕ) (v w : ℕ × ℤ), 0 < k → x.visits[k]? = some v →
    x.visits[k + numclients]? = some w → v.2 + 100 * 1000 < w.2

namespace Rotates

variable {x y : Schedule}

theorem maintenanceId_le (h : Rotates x) : x.maintenanceId ≤ numclients := by
  have hmod := Nat.mod_lt (x.visits.length - 1) (show 0 < numclients by decide)
  rw [h.id]
  split <;> omega

/-- The next visit is that of the client whose turn it is. -/
theorem head_eq (h : Rotates x) :
    head numclients x.maintenanceId = x.visits.length % numclients := by
  have hmod := Nat.mod_lt (x.visits.length - 1) (show 0 < numclients by decide)
  unfold head
  rw [h.id]
  rw [Server.numclients_eq] at hmod ⊢
  split <;> split <;> omega

theorem eq_numclients_iff (h : Rotates x) :
    x.maintenanceId = numclients ↔
      0 < x.visits.length ∧ numclients ∣ x.visits.length := by
  rw [h.id, Server.numclients_eq]
  split <;> omega

/-- Later times of the flush. -/
theorem later (h : Rotates x) (hnow : x.now ≤ y.now)
    (hnext : y.nextNetworkMaintenance = x.nextNetworkMaintenance)
    (hid : y.maintenanceId = x.maintenanceId) (hvisits : y.visits = x.visits) :
    Rotates y where
  id := by rw [hid, hvisits, h.id]
  slot := hvisits ▸ h.slot
  past := by
    rw [hvisits]
    exact fun k v hk => (h.past k v hk).trans hnow
  sorted := hvisits ▸ h.sorted
  due := by
    rw [hnext, hvisits]
    exact h.due
  pace := hvisits ▸ h.pace

theorem getElem?_snoc_cases {α : Type*} {xs : List α} {a v : α} {k : ℕ}
    (hk : (xs ++ [a])[k]? = some v) :
    k < xs.length ∧ xs[k]? = some v ∨ k = xs.length ∧ v = a := by
  rcases Nat.lt_or_ge k xs.length with hlt | hge
  · rw [List.getElem?_append_left hlt] at hk
    exact Or.inl ⟨hlt, hk⟩
  · rw [List.getElem?_append_right hge, List.getElem?_singleton] at hk
    split at hk
    next hzero => exact Or.inr ⟨by omega, (Option.some.inj hk).symm⟩
    next => cases hk

theorem maintained (h : Rotates x) {time : ℤ} (htime : x.now ≤ time)
    (hdue : x.nextNetworkMaintenance < x.now) :
    Rotates (x.maintained time) where
  id := by
    simp only [Schedule.maintained, h.head_eq, List.length_append,
      List.length_singleton, Nat.add_sub_cancel]
    rw [if_neg (Nat.succ_ne_zero _)]
  slot := by
    intro k v hk
    rcases getElem?_snoc_cases hk with ⟨-, hold⟩ | ⟨rfl, rfl⟩
    · exact h.slot k v hold
    · exact h.head_eq
  past := by
    intro k v hk
    rcases getElem?_snoc_cases hk with ⟨-, hold⟩ | ⟨-, rfl⟩
    · exact (h.past k v hold).trans htime
    · exact le_refl time
  sorted := by
    intro j k v w hjk hj hk
    rcases getElem?_snoc_cases hj with ⟨-, hj⟩ | ⟨rfl, rfl⟩ <;>
      rcases getElem?_snoc_cases hk with ⟨hlt, hk⟩ | ⟨-, rfl⟩
    · exact h.sorted j k v w hjk hj hk
    · exact (h.past j v hj).trans htime
    · omega
    · exact le_refl time
  due := by
    intro k v hpos hdvd hlast hk
    simp only [Schedule.maintained, List.length_append, List.length_singleton]
      at hlast ⊢
    rcases getElem?_snoc_cases hk with ⟨hlt, hold⟩ | ⟨rfl, rfl⟩
    · have hmid : x.maintenanceId ≠ numclients := by
        rw [Ne, h.eq_numclients_iff]
        rintro ⟨-, hend⟩
        have hgap := Nat.le_of_dvd (by omega) (Nat.dvd_sub hend hdvd)
        omega
      rw [if_neg hmid]
      exact h.due k v hpos hdvd (by omega) hold
    · rw [if_pos (h.eq_numclients_iff.mpr ⟨hpos, hdvd⟩)]
  pace := by
    intro k v w hpos hk hnext
    rcases getElem?_snoc_cases hnext with ⟨hlt, hold⟩ | ⟨hend, rfl⟩
    · rcases getElem?_snoc_cases hk with ⟨-, hk⟩ | ⟨rfl, -⟩
      · exact h.pace k v w hpos hk hold
      · omega
    · rcases getElem?_snoc_cases hk with ⟨hlt, hk⟩ | ⟨rfl, -⟩
      · -- the round that starts at `m` has begun since visit `k`
        obtain ⟨m, hm⟩ : ∃ m, m = (k + 25) / 26 * 26 := ⟨_, rfl⟩
        have hclients := Server.numclients_eq
        have hin : m < x.visits.length := by omega
        obtain ⟨u, hu⟩ : ∃ u, x.visits[m]? = some u :=
          ⟨_, List.getElem?_eq_getElem hin⟩
        have hstart := h.due m u (by omega)
          (hclients ▸ hm ▸ Nat.dvd_mul_left _ _) (by omega) hu
        have hle := h.sorted k m v u (by omega) hk hu
        change v.2 + 100 * 1000 < time
        omega
      · have hclients := Server.numclients_eq
        omega

end Rotates

namespace Server

variable {getPhase : BitVec 32 → BitVec 32} {s s' : Server} {t : Turn}

theorem rotates_start (malloc : ℕ → ℕ → Bits.Byte) (rxFreq : ℕ → BitVec 32)
    (time : ℤ) : Rotates (start malloc rxFreq time).schedule := by
  constructor <;> simp [start, schedule]

theorem Ready.rotates_turn (h : s.Ready) (hrotates : Rotates s.schedule)
    (hflushId : s.flushId ≤ numclients) (hnow : s.now ≤ t.maintenanceTime)
    (htime : t.maintenanceTime ≤ t.flushTime)
    (hturn : s.turn getPhase t = some s') :
    Rotates s'.schedule ∧ s'.now ≤ t.flushTime := by
  rcases h.turn_cases hrotates.maintenanceId_le hturn with hsame |
    ⟨hdue, hvisit⟩ | ⟨s₁, -, hsame, hflush⟩
  · have hlast : s'.now = s.now := congrArg Schedule.now hsame
    exact ⟨hsame ▸ hrotates, by omega⟩
  · have hlast : s'.now = t.maintenanceTime := congrArg Schedule.now hvisit
    exact ⟨hvisit ▸ hrotates.maintained hnow hdue, by omega⟩
  · have hid : s₁.flushId = s.flushId := congrArg Schedule.flushId hsame
    obtain ⟨hschedule, -, -⟩ := schedule_flush hflush (hid ▸ hflushId)
    have hlast : s'.now = t.flushTime := congrArg Schedule.now hschedule
    refine ⟨?_, hlast.le⟩
    rw [hschedule, hsame]
    exact hrotates.later (hnow.trans htime) rfl rfl rfl

theorem Ready.rotates_run (h : s.Ready) (hrotates : Rotates s.schedule)
    (hflushId : s.flushId ≤ numclients) {ts : List Turn}
    (hclock : Clocked s.now ts) (hrun : s.run getPhase ts = some s') :
    Rotates s'.schedule := by
  induction ts generalizing s with
  | nil =>
      rw [← Option.some.inj hrun]
      exact hrotates
  | cons t ts ih =>
      obtain ⟨hnow, htime⟩ := hclock.turn t List.mem_cons_self
      obtain ⟨hlater, hrest⟩ := List.pairwise_cons.mp hclock.next
      obtain ⟨s₁, hturn, hmoves⟩ := h.turn_moves getPhase t
      rw [run, List.foldlM_cons, hturn] at hrun
      obtain ⟨hrotates₁, hnow₁⟩ := h.rotates_turn hrotates hflushId hnow htime hturn
      obtain ⟨-, hflushId₁⟩ :=
        h.turn_counters hturn ⟨hrotates.maintenanceId_le, hflushId⟩
      refine ih (h.moves hmoves) hrotates₁ hflushId₁ ⟨fun t' ht' => ?_, hrest⟩ hrun
      exact ⟨hnow₁.trans (hlater t' ht'),
        (hclock.turn t' (List.mem_cons_of_mem t ht')).2⟩

end Server

/-- The visits of the maintenance go round the clients.  From the second visit
on, more than 100 ms pass between two visits to one client. -/
theorem maintenance_rotates (getPhase : BitVec 32 → BitVec 32)
    (malloc : ℕ → ℕ → Bits.Byte) (rxFreq : ℕ → BitVec 32) (time : ℤ)
    (ts : List Turn) (hclock : Clocked 0 ts) :
    ∃ s, (Server.start malloc rxFreq time).run getPhase ts = some s ∧
      (∀ (k : ℕ) (v : ℕ × ℤ), s.visits[k]? = some v → v.1 = k % numclients) ∧
      (∀ (k : ℕ) (v w : ℕ × ℤ), 0 < k → s.visits[k]? = some v →
        s.visits[k + numclients]? = some w → v.2 + 100 * 1000 < w.2) := by
  have hready := Server.ready_start malloc rxFreq time
  obtain ⟨s, hrun, -⟩ := hready.run_moves getPhase ts
  have h := hready.rotates_run (Server.rotates_start malloc rxFreq time)
    (Nat.zero_le _) hclock hrun
  exact ⟨s, hrun, h.slot, h.pace⟩

/-- Nobody connects; after 30 turns the clock is 200 ms further. -/
def roundTurns : List Turn :=
  (List.range 33).map fun k => idleTurn (if k < 30 then k else 200000 + k) none

theorem roundTurns_visits :
    ((Server.start (fun _ _ => 0) (fun _ => 0) 0).run id roundTurns).map
        (fun s => (s.visits.length, s.visits[1]?, s.visits[27]?)) =
      some (29, some (1, 3), some (1, 200031)) := by
  decide +kernel

/-- Client 1 is visited at the third microsecond, and again in the round after
the next 100 ms. -/
theorem maintenance_rotates_round :
    ∃ s, (Server.start (fun _ _ => 0) (fun _ => 0) 0).run id roundTurns = some s ∧
      s.visits[1]? = some (1, 3) ∧ s.visits[27]? = some (1, 200031) ∧
      s.visits.length = 29 ∧
      (∀ (k : ℕ) (v : ℕ × ℤ), s.visits[k]? = some v → v.1 = k % numclients) ∧
      3 + 100 * 1000 < (200031 : ℤ) := by
  have hclock : Clocked 0 roundTurns := ⟨by decide, by decide⟩
  obtain ⟨s, hrun, hslot, hpace⟩ :=
    maintenance_rotates id (fun _ _ => 0) (fun _ => 0) 0 _ hclock
  have hvisits := roundTurns_visits
  rw [hrun, Option.map_some, Option.some_inj] at hvisits
  obtain ⟨hlength, hrest⟩ := Prod.mk.inj hvisits
  obtain ⟨hfirst, hsecond⟩ := Prod.mk.inj hrest
  exact ⟨s, hrun, hfirst, hsecond, hlength, hslot,
    hpace 1 (1, 3) (1, 200031) Nat.one_pos hfirst hsecond⟩

end RedPitayaNotes.HfdlReceiver
