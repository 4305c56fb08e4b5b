import Mathlib.Logic.Function.Basic
import RedPitayaNotes.SdrTransceiverWide.Control
import RedPitayaNotes.Support.Clocked
import RedPitayaNotes.Support.Threads

/-!
# The connections of the wide transceiver

`main` of `sdr-transceiver-wide.c` accepts connections and claims one of four
slots of `sock_thread` for each; the detached thread it starts gives the slot
back as its last act.  There are no locks.  The slot of the transmit control
thread is free only while the PTT pin is low and no such thread is alive.

A step is a statement of `main` or of a thread that touches `sock_thread` or the
PTT register, together with those around it that touch neither.
-/

namespace RedPitayaNotes.SdrTransceiverWide

open Bits Clocked

/-- The index of a handler in `handler[4]`, and of its slot. -/
abbrev Handler := Fin 4

/-- The index of `tx_ctrl_handler`. -/
def txCtrlSlot : Handler := 2

/-- What `main` does next. -/
inductive MainStatement where
  | accept
  | recv (sockClient : ℕ)
  /-- `sock_thread[command] = sock_client` -/
  | claim (slot : Handler) (sockClient : ℕ)
  | pthreadCreate (slot : Handler)
  | exited
deriving DecidableEq

/-- What a thread does next. -/
inductive ThreadStatement where
  /-- `sock_client = sock_thread[...]` -/
  | start
  | setDefaults
  | loop
  | cleanUp
  | close
  /-- `sock_thread[...] = -1` -/
  | release
  | finished
deriving DecidableEq

structure Thread where
  handler : Handler
  statement : ThreadStatement
  sockClient : Option ℕ
deriving DecidableEq

structure Server where
  txRegs : TxRegs
  sockThread : SockThread
  main : MainStatement
  /-- The variable `command` of `main`. -/
  command : BitVec 32
  threads : List Thread

/-- After `main` has set the registers and before its loop; the variable is not
initialized. -/
def Server.start (command : BitVec 32) : Server where
  txRegs := .default
  sockThread _ := none
  main := .accept
  command := command
  threads := []

inductive Event where
  /-- `accept` returns a descriptor or fails. -/
  | accept (fd : Option ℕ)
  /-- `recv` of the connection command, with what the client sends. -/
  | recv (stream : List Byte)
  /-- The assignment that claims a slot. -/
  | claim
  | pthreadCreate (result : ℤ)
  /-- The next statement of a thread; in the loop of a control handler a command
  is received or the loop ends. -/
  | thread (i : ℕ) (received : Option (BitVec 32))

namespace Thread

/-- The transmit registers, as the thread sets their defaults. -/
def setDefaults (t : Thread) (r : TxRegs) : TxRegs :=
  if t.handler = txCtrlSlot then .default else r

/-- The transmit registers, as the thread executes a command. -/
def execute (t : Thread) (r : TxRegs) (command : BitVec 32) : TxRegs :=
  if t.handler = txCtrlSlot then r.txCommand command else r

end Thread

namespace Server

variable (s : Server)

def accept (fd : Option ℕ) : Server :=
  match s.main, fd with
  | .accept, some fd => { s with main := .recv fd }
  | .accept, none => { s with main := .exited }
  | _, _ => s

/-- The connection is closed or goes on to a slot. -/
def recv (stream : List Byte) : Server :=
  match s.main with
  | .recv sockClient =>
    { s with
      command := (recvCommand s.command stream).2.1
      main :=
        match claimedSlot s.sockThread s.command stream with
        | none => .accept
        | some slot => .claim slot sockClient }
  | _ => s

def claim : Server :=
  match s.main with
  | .claim slot sockClient =>
    { s with
      sockThread := Function.update s.sockThread slot (some sockClient)
      main := .pthreadCreate slot }
  | _ => s

/-- `pthread_create` gives a positive number when it fails; the test is for a
negative one. -/
def pthreadCreate (result : ℤ) : Server :=
  match s.main with
  | .pthreadCreate slot =>
    if result < 0 then { s with main := .exited }
    else
      { s with
        main := .accept
        threads :=
          if result = 0 then s.threads ++ [⟨slot, .start, none⟩] else s.threads }
  | _ => s

/-- Thread `i`, which is `t`, executes its next statement. -/
def threadStep (i : ℕ) (t : Thread) (received : Option (BitVec 32)) : Server :=
  match t.statement with
  | .start =>
    { s with
      threads := s.threads.set i
        { t with statement := .setDefaults, sockClient := s.sockThread t.handler } }
  | .setDefaults =>
    { s with
      txRegs := t.setDefaults s.txRegs
      threads := s.threads.set i { t with statement := .loop } }
  | .loop =>
    match received with
    | some command => { s with txRegs := t.execute s.txRegs command }
    | none =>
      { s with threads := s.threads.set i { t with statement := .cleanUp } }
  | .cleanUp =>
    { s with
      txRegs := t.setDefaults s.txRegs
      threads := s.threads.set i { t with statement := .close } }
  | .close =>
    { s with threads := s.threads.set i { t with statement := .release } }
  | .release =>
    { s with
      sockThread := Function.update s.sockThread t.handler none
      threads := s.threads.set i { t with statement := .finished } }
  | .finished => s

/-- An event that does not fit the state changes nothing; when `main` returns,
the threads end. -/
def next : Event → Server
  | .accept fd => s.accept fd
  | .recv stream => s.recv stream
  | .claim => s.claim
  | .pthreadCreate result => s.pthreadCreate result
  | .thread i received =>
    if s.main = .exited then s
    else
      match s.threads[i]? with
      | none => s
      | some t => s.threadStep i t received

end Server

/-- The thread has been created and has not given its slot back. -/
def Thread.alive (slot : Handler) (t : Thread) : Bool :=
  t.handler = slot && t.statement ≠ .finished

/-- The thread is past the commands and still holds its slot. -/
def Thread.leaving (t : Thread) : Prop :=
  t.statement = .close ∨ t.statement = .release

/-- The transmitter is off while no controller is connected, and there is one
controller at most. -/
structure PttSafe (s : Server) : Prop where
  off : s.sockThread txCtrlSlot = none → s.txRegs.gpio = 0
  one : s.threads.countP (Thread.alive txCtrlSlot) ≤ 1

/-! ## The slots -/

namespace Server

/-- `main` is about to start the thread of the slot. -/
def creating (s : Server) (slot : Handler) : Bool := s.main = .pthreadCreate slot

/-- A slot is free, or it is for one thread, which is alive or about to be
created; the PTT pin is low before and after the life of a controller. -/
structure Sound (s : Server) : Prop where
  claim_free : ∀ slot sockClient, s.main = .claim slot sockClient →
    s.sockThread slot = none
  held : ∀ slot, s.threads.countP (Thread.alive slot) +
    (s.creating slot).toNat ≤ (s.sockThread slot).isSome.toNat
  off : s.sockThread txCtrlSlot = none → s.txRegs.gpio = 0
  created : s.creating txCtrlSlot = true → s.txRegs.gpio = 0
  left : ∀ t ∈ s.threads, t.handler = txCtrlSlot → t.leaving → s.txRegs.gpio = 0

theorem sound_start (command : BitVec 32) : (start command).Sound where
  claim_free := fun _ _ _ => rfl
  held := fun _ => le_refl 0
  off := fun _ => rfl
  created := fun _ => rfl
  left := fun _ ht => absurd ht List.not_mem_nil

namespace Sound

variable {s : Server} {t : Thread} {xs ys : List Thread}

/-- A thread that is alive holds its slot, and no other thread or `main` does. -/
theorem alive_cases (h : s.Sound) (hsplit : s.threads = xs ++ t :: ys)
    (halive : t.statement ≠ .finished) :
    (s.sockThread t.handler).isSome = true ∧ s.creating t.handler = false ∧
      ∀ x ∈ xs ++ ys, x.alive t.handler = false := by
  have hheld := h.held t.handler
  have ht : t.alive t.handler = true := by
    simp [Thread.alive, halive]
  rw [hsplit] at hheld
  obtain ⟨hslot, hcreating, hothers⟩ := Threads.alone hheld ht
  refine ⟨hslot, hcreating, fun x hx => ?_⟩
  exact eq_false_of_ne_true (List.countP_eq_zero.mp hothers x hx)

/-- A thread goes on, and sets registers only if they are its own. -/
theorem replace (h : s.Sound) (hsplit : s.threads = xs ++ t :: ys)
    (halive : t.statement ≠ .finished) {t' : Thread} {txRegs : TxRegs}
    (hhandler : t'.handler = t.handler) (halive' : t'.statement ≠ .finished)
    (hown : t.handler ≠ txCtrlSlot → txRegs = s.txRegs)
    (hleft : t.handler = txCtrlSlot → t'.leaving → txRegs.gpio = 0) :
    Sound { s with txRegs, threads := xs ++ t' :: ys } := by
  obtain ⟨hslot, hcreating, halone⟩ := h.alive_cases hsplit halive
  refine ⟨h.claim_free, ?_, ?_, ?_, ?_⟩
  · intro slot
    have hsame : t'.alive slot = t.alive slot := by
      simp [Thread.alive, hhandler, halive, halive']
    have hheld := h.held slot
    rw [hsplit, Threads.countP_split, ← hsame, ← Threads.countP_split] at hheld
    exact hheld
  · intro hfree
    have hne : t.handler ≠ txCtrlSlot := by
      intro heq
      rw [heq] at hslot
      exact absurd hfree (Option.isSome_iff_ne_none.mp hslot)
    rw [hown hne]
    exact h.off hfree
  · intro hcreates
    have hne : t.handler ≠ txCtrlSlot := by
      intro heq
      rw [heq] at hcreating
      exact Bool.noConfusion (hcreating.symm.trans hcreates)
    rw [hown hne]
    exact h.created hcreates
  · change ∀ x ∈ xs ++ t' :: ys,
      x.handler = txCtrlSlot → x.leaving → txRegs.gpio = 0
    rw [Threads.forall_split]
    refine ⟨fun htx => hleft (hhandler ▸ htx), fun x hx hxtx hxleft => ?_⟩
    by_cases htx : t.handler = txCtrlSlot
    · -- another controller would hold the same slot
      have hdead := halone x hx
      have hne : x.statement ≠ .finished := by
        rcases hxleft with hclose | hrelease <;> rw [‹x.statement = _›] <;>
          decide
      have hx' : x.alive t.handler = true := by
        simp [Thread.alive, hxtx, htx, hne]
      exact Bool.noConfusion (hdead.symm.trans hx')
    · rw [hown htx]
      have hpool := Threads.forall_split.mp (hsplit ▸ h.left)
      exact hpool.2 x hx hxtx hxleft

/-- The last act of a thread frees its slot. -/
theorem release (h : s.Sound) (hsplit : s.threads = xs ++ t :: ys)
    (hrelease : t.statement = .release) :
    Sound { s with
      sockThread := Function.update s.sockThread t.handler none
      threads := xs ++ { t with statement := .finished } :: ys } := by
  have halive : t.statement ≠ .finished := by
    rw [hrelease]
    decide
  obtain ⟨hslot, hcreating, halone⟩ := h.alive_cases hsplit halive
  have hpool := Threads.forall_split.mp (hsplit ▸ h.left)
  refine ⟨?_, ?_, ?_, h.created, ?_⟩
  · intro slot sockClient hmain
    by_cases heq : slot = t.handler
    · rw [heq]
      exact Function.update_self _ _ _
    · exact (Function.update_of_ne heq _ _).trans
        (h.claim_free slot sockClient hmain)
  · intro slot
    have hdead : Thread.alive slot { t with statement := .finished } = false := by
      simp [Thread.alive]
    by_cases heq : slot = t.handler
    · subst heq
      have hnone : (xs ++ ys).countP (Thread.alive t.handler) = 0 := by
        rw [List.countP_eq_zero]
        intro x hx
        exact ne_true_of_eq_false (halone x hx)
      have hfree : s.creating t.handler = false := hcreating
      change (xs ++ _ :: ys).countP _ + (s.creating t.handler).toNat ≤ _
      rw [Threads.countP_split, hdead, hnone, hfree]
      exact Nat.zero_le _
    · have hother : t.alive slot = false := by
        simp [Thread.alive, Ne.symm heq]
      have hheld := h.held slot
      rw [hsplit, Threads.countP_split, hother, ← hdead,
        ← Threads.countP_split] at hheld
      change _ ≤ (Function.update s.sockThread t.handler none slot).isSome.toNat
      rw [Function.update_of_ne heq]
      exact hheld
  · intro hfree
    by_cases heq : txCtrlSlot = t.handler
    · exact hpool.1 heq.symm (Or.inr hrelease)
    · exact h.off ((Function.update_of_ne heq _ _).symm.trans hfree)
  · change ∀ x ∈ xs ++ _ :: ys,
      x.handler = txCtrlSlot → x.leaving → s.txRegs.gpio = 0
    rw [Threads.forall_split]
    refine ⟨fun _ hleft => ?_, hpool.2⟩
    rcases hleft with hclose | hleft
    · cases hclose
    · cases hleft

theorem gpio_setDefaults (t : Thread) (r : TxRegs) (htx : t.handler = txCtrlSlot) :
    (t.setDefaults r).gpio = 0 := by
  rw [Thread.setDefaults, if_pos htx]
  rfl

theorem threadStep (h : s.Sound) {i : ℕ} (ht : s.threads[i]? = some t)
    (received : Option (BitVec 32)) : (s.threadStep i t received).Sound := by
  obtain ⟨xs, ys, hsplit, hset⟩ := Threads.exists_split ht
  have hkeep : t.handler ≠ txCtrlSlot → t.setDefaults s.txRegs = s.txRegs :=
    fun hne => if_neg hne
  by_cases halive : t.statement = .finished
  · have hstay : s.threadStep i t received = s := by
      simp only [Server.threadStep, halive]
    rw [hstay]
    exact h
  · unfold Server.threadStep
    split <;> rename_i hstatement
    · rw [hset]
      refine h.replace hsplit halive rfl nofun (fun _ => rfl) ?_
      rintro - (hleft | hleft) <;> cases hleft
    · rw [hset]
      refine h.replace hsplit halive rfl nofun hkeep ?_
      rintro - (hleft | hleft) <;> cases hleft
    · split
      next command =>
        have hloop : Sound { s with
            txRegs := t.execute s.txRegs command
            threads := xs ++ t :: ys } := by
          refine h.replace hsplit halive rfl halive (fun hne => if_neg hne) ?_
          rintro - (hleft | hleft) <;> rw [hstatement] at hleft <;> cases hleft
        rwa [← hsplit] at hloop
      next =>
        rw [hset]
        refine h.replace hsplit halive rfl nofun (fun _ => rfl) ?_
        rintro - (hleft | hleft) <;> cases hleft
    · rw [hset]
      refine h.replace hsplit halive rfl nofun hkeep ?_
      exact fun htx _ => gpio_setDefaults t s.txRegs htx
    · rw [hset]
      refine h.replace hsplit halive rfl nofun (fun _ => rfl) ?_
      intro htx _
      exact h.left t (List.mem_of_getElem? ht) htx (Or.inl hstatement)
    · rw [hset]
      exact h.release hsplit hstatement
    · exact h

theorem claimedSlot_free {sockThread : SockThread} {command : BitVec 32}
    {stream : List Byte} {slot : Handler}
    (h : claimedSlot sockThread command stream = some slot) :
    sockThread slot = none := by
  unfold claimedSlot connectionSlot at h
  split at h
  next => cases h
  next =>
    split at h
    next =>
      split at h
      next => cases h
      next hfree =>
        obtain rfl := Option.some.inj h
        exact Option.not_isSome_iff_eq_none.mp hfree
    next => cases h

/-- A statement of `main` between two claims. -/
theorem of_main (h : s.Sound) {main : MainStatement} (command : BitVec 32)
    (hclaim : ∀ slot sockClient, main = .claim slot sockClient →
      s.sockThread slot = none)
    (hcreate : ∀ slot, main ≠ .pthreadCreate slot) :
    Sound { s with main, command } := by
  have hidle : ∀ slot, creating { s with main, command } slot = false :=
    fun slot => decide_eq_false (hcreate slot)
  refine ⟨hclaim, ?_, h.off, ?_, h.left⟩
  · intro slot
    rw [hidle, Bool.toNat_false, Nat.add_zero]
    exact (Nat.le_add_right _ _).trans (h.held slot)
  · intro hcreates
    rw [hidle] at hcreates
    exact Bool.noConfusion hcreates

theorem recv (h : s.Sound) (stream : List Byte) : (s.recv stream).Sound := by
  unfold Server.recv
  split
  next sockClient hmain =>
    refine h.of_main _ ?_ ?_
    · intro slot sockClient' heq
      split at heq
      next => cases heq
      next slot' hslot =>
        obtain ⟨rfl, -⟩ := MainStatement.claim.inj heq
        exact claimedSlot_free hslot
    · intro slot
      split <;> exact nofun
  next => exact h

/-- The slot is free until `main` claims it, and then there is no thread yet. -/
theorem claim (h : s.Sound) : s.claim.Sound := by
  unfold Server.claim
  split
  next slot sockClient hmain =>
    have hfree := h.claim_free slot sockClient hmain
    have hidle : ∀ slot', s.creating slot' = false := by
      intro slot'
      rw [creating, hmain]
      exact decide_eq_false nofun
    refine ⟨nofun, ?_, ?_, ?_, h.left⟩
    · intro slot'
      have hheld := h.held slot'
      rw [hidle, Bool.toNat_false, Nat.add_zero] at hheld
      by_cases heq : slot' = slot
      · subst heq
        rw [hfree] at hheld
        have hnone : s.threads.countP (Thread.alive slot') = 0 :=
          Nat.le_zero.mp hheld
        change s.threads.countP _ + _ ≤
          (Function.update s.sockThread slot' _ slot').isSome.toNat
        rw [Function.update_self, hnone, Nat.zero_add]
        exact Bool.toNat_le _
      · have hother : creating { s with
            sockThread := Function.update s.sockThread slot (some sockClient)
            main := .pthreadCreate slot } slot' = false := by
          apply decide_eq_false
          intro hsame
          exact heq (MainStatement.pthreadCreate.inj hsame).symm
        rw [hother, Bool.toNat_false, Nat.add_zero]
        change _ ≤ (Function.update s.sockThread slot _ slot').isSome.toNat
        rw [Function.update_of_ne heq]
        exact hheld
    · intro hnone
      by_cases heq : txCtrlSlot = slot
      · rw [← heq] at hnone
        change Function.update s.sockThread txCtrlSlot (some sockClient)
          txCtrlSlot = none at hnone
        rw [Function.update_self] at hnone
        cases hnone
      · exact h.off ((Function.update_of_ne heq _ _).symm.trans hnone)
    · intro hcreates
      obtain rfl : slot = txCtrlSlot :=
        MainStatement.pthreadCreate.inj (of_decide_eq_true hcreates)
      exact h.off hfree
  next => exact h

theorem pthreadCreate (h : s.Sound) (result : ℤ) :
    (s.pthreadCreate result).Sound := by
  unfold Server.pthreadCreate
  split
  next slot hmain =>
    split
    next => exact h.of_main s.command nofun nofun
    next =>
      split
      next =>
        -- the new thread is the one that the slot was claimed for
        refine ⟨nofun, ?_, h.off, nofun, ?_⟩
        · intro slot'
          have hheld := h.held slot'
          have hnew : Thread.alive slot' ⟨slot, .start, none⟩ =
              s.creating slot' := by
            rw [creating, hmain]
            simp [Thread.alive]
          change (s.threads ++ [_]).countP _ + (false : Bool).toNat ≤ _
          rw [Threads.countP_snoc, hnew]
          exact hheld
        · change ∀ x ∈ s.threads ++ [_],
            x.handler = txCtrlSlot → x.leaving → s.txRegs.gpio = 0
          rw [Threads.forall_split, List.append_nil]
          refine ⟨?_, h.left⟩
          rintro - (hleft | hleft) <;> cases hleft
      next => exact h.of_main s.command nofun nofun
  next => exact h

theorem next (h : s.Sound) (event : Event) : (s.next event).Sound := by
  cases event with
  | accept fd =>
      change (s.accept fd).Sound
      unfold Server.accept
      split
      next => exact h.of_main s.command nofun nofun
      next => exact h.of_main s.command nofun nofun
      next => exact h
  | recv stream => exact h.recv stream
  | claim => exact h.claim
  | pthreadCreate result => exact h.pthreadCreate result
  | thread i received =>
      change (if s.main = .exited then s else _ : Server).Sound
      split
      next => exact h
      next =>
        split
        next => exact h
        next t ht => exact h.threadStep ht received

theorem pttSafe (h : s.Sound) : PttSafe s := by
  refine ⟨h.off, ?_⟩
  exact (Nat.le_add_right _ _).trans
    ((h.held txCtrlSlot).trans (Bool.toNat_le _))

end Sound

end Server

/-- In every run of `main` and its threads, whatever the clients send and
however the connections end, the transmitter is off while no controller holds
its slot, and there is never more than one. -/
theorem pttSafe_run (command : BitVec 32) (events : List Event) :
    PttSafe (run Server.next (Server.start command) events) :=
  (run_invariant Server.Sound (fun _ event h => h.next event)
    (Server.sound_start command) events).pttSafe

end RedPitayaNotes.SdrTransceiverWide
