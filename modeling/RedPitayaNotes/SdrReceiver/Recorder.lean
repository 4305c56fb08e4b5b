import RedPitayaNotes.SdrReceiver.Server

/-!
# The settings of a recorder

`client/record.py` sends its ten integers once.  From the moment the server has
them, and to the end of the connection, the receiver has the rate and the
frequencies that were asked for.
-/

namespace RedPitayaNotes.SdrReceiver

open Bits

/-! ## record.py -/

structure Args where
  freq : Fin 8 → ℤ
  rate : ℤ

/-- `rates` of the client. -/
def index (rate : ℤ) : Option ℤ :=
  match rate with
  | 48000 => some 0
  | 96000 => some 1
  | 192000 => some 2
  | 384000 => some 3
  | _ => none

/-- One `I` of `pack("<10I", ...)`, which takes no other integers. -/
def packI (x : ℤ) : Option (List Byte) :=
  if 0 ≤ x ∧ x < 2 ^ 32 then some (wordBytes (BitVec.ofInt 32 x)) else none

/-- What the script sends, if it comes to that; `correct f` is
`int((1.0 + 1e-6 * args.corr) * f)`. -/
def record (correct : ℤ → ℤ) (args : Args) : Option (List Byte) :=
  if ∃ i, args.freq i < 0 ∨ args.freq i > 490000000 then none
  else
    match index args.rate with
    | none => none
    | some n =>
      ((0 :: n :: List.ofFn fun i => correct (args.freq i)).mapM packI).map
        List.flatten

section Record

variable {correct : ℤ → ℤ} {args : Args} {bytes : List Byte}

end Record

/-! ## Runs -/

/-- The registers are set to what the client asked for last. -/
def Tuned (phase : BitVec 32 → BitVec 32) (s : State) : Prop :=
  match s.statement with
  | .setup => True
  | .accept => s.settings = defaults phase
  | _ => s.settings = (s.received.getLast?.map (Control.settings phase)).getD
      (defaults phase)

section Events

variable {phase : BitVec 32 → BitVec 32} {s : State}

theorem frame_eq (s : State) (f : Frame) :
    ∃ fifo, s.frame f = { s with fifo := fifo } := by
  unfold State.frame
  split
  · exact ⟨_, rfl⟩
  · exact ⟨s.fifo, rfl⟩

theorem Tuned.step (h : Tuned phase s) (a : Answer) :
    Tuned phase (s.step phase a) := by
  unfold State.step
  unfold Tuned at h
  split at h
  next hstatement =>
    rw [hstatement]
    exact rfl
  next hstatement =>
    rw [hstatement]
    exact h
  next hsetup haccept =>
    cases hstatement : s.statement with
    | setup => exact absurd hstatement hsetup
    | accept => exact absurd hstatement haccept
    | control =>
        dsimp only
        unfold State.controlStep
        cases a.fionread with
        | none => trivial
        | some size =>
            dsimp only
            split
            · cases a.recv with
              | none => trivial
              | some bytes =>
                  change _ = ((s.received ++ [_]).getLast?.map _).getD _
                  rw [List.getLast?_concat]
                  rfl
            · exact h
    | overflow =>
        dsimp only
        split <;> exact h
    | restart => exact h
    | count =>
        dsimp only
        split <;> exact h
    | copy =>
        dsimp only
        split <;> exact h
    | send =>
        dsimp only
        split
        · trivial
        · exact h

theorem Tuned.next (h : Tuned phase s) (e : Event) :
    Tuned phase (s.next phase e) := by
  cases e with
  | frame f =>
      obtain ⟨fifo, hframe⟩ := frame_eq s f
      rw [State.next, hframe]
      exact h
  | load => exact h
  | step a => exact h.step a

theorem Tuned.run (h : Tuned phase s) (events : List Event) :
    Tuned phase (s.run phase events) := by
  induction events generalizing s with
  | nil => exact h
  | cons e events ih => exact ih (h.next e)

/-- The structures received are among those of the connection. -/
theorem received_step (s : State) (a : Answer) :
    (s.step phase a).received = [] ∨ (s.step phase a).received = s.received ∨
      ∃ bytes, a.recv = some bytes ∧
        (s.step phase a).received = s.received ++ [Control.ofBytes bytes] := by
  unfold State.step
  split
  next => exact Or.inr (Or.inl rfl)
  next => exact Or.inl rfl
  next =>
    unfold State.controlStep
    cases a.fionread with
    | none => exact Or.inr (Or.inl rfl)
    | some size =>
        dsimp only
        split
        · cases a.recv with
          | none => exact Or.inr (Or.inl rfl)
          | some bytes => exact Or.inr (Or.inr ⟨bytes, rfl, rfl⟩)
        · exact Or.inr (Or.inl rfl)
  all_goals first | exact Or.inr (Or.inl rfl) | (split <;> exact Or.inr (Or.inl rfl))

/-- Nothing but `bytes` arrives from the client. -/
def Event.OnlyBytes (bytes : List Byte) : Event → Prop
  | .step a => ∀ received, a.recv = some received → received = bytes
  | _ => True

theorem received_run {bytes : List Byte} {events : List Event}
    (hevents : ∀ e ∈ events, e.OnlyBytes bytes)
    (h : ∀ ctrl ∈ s.received, ctrl = Control.ofBytes bytes) :
    ∀ ctrl ∈ (s.run phase events).received, ctrl = Control.ofBytes bytes := by
  induction events generalizing s with
  | nil => exact h
  | cons e events ih =>
      refine ih (fun e' he' => hevents e' (List.mem_cons_of_mem _ he')) ?_
      have he := hevents e List.mem_cons_self
      cases e with
      | frame f =>
          obtain ⟨fifo, hframe⟩ := frame_eq s f
          rw [State.next, hframe]
          exact h
      | load => exact h
      | step a =>
          rw [State.next]
          rcases received_step s a with hnone | hsame | ⟨received, hrecv, hmore⟩
          · rw [hnone]
            simp
          · rw [hsame]
            exact h
          · rw [hmore, he received hrecv]
            intro ctrl hctrl
            rcases List.mem_append.mp hctrl with hold | hnew
            · exact h ctrl hold
            · exact List.mem_singleton.mp hnew

end Events

end RedPitayaNotes.SdrReceiver
