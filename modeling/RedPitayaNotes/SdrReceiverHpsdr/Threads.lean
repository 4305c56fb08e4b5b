import RedPitayaNotes.SdrReceiverHpsdr.Datagrams
import RedPitayaNotes.Support.Threads

/-!
# The streaming threads of the HPSDR server

`main` of `sdr-receiver-hpsdr.c` starts a thread that streams samples and ends
it with two flags: the thread runs while `enable_thread` is set, and `main` waits
until the thread has cleared `active_thread`.  Here `main` and the threads take
their statements in any order.  Seen from `main` between two datagrams, Stop and
Start are then the single actions that `receive` makes of them.
-/

namespace RedPitayaNotes.SdrReceiverHpsdr

open Bits Memory Clocked

/-- `struct sockaddr_in` -/
structure SockAddr where
  sinFamily : BitVec 16
  sinAddr : BitVec 32
  sinPort : BitVec 16
deriving DecidableEq

/-- `AF_INET` -/
def afInet : BitVec 16 := 2

/-- What `main` does next; `start` is the sender of a Start command, and `none`
stands for Stop. -/
inductive MainStatement where
  | recvfrom
  /-- `enable_thread = 0` -/
  | disable (start : Option SockAddr)
  /-- `while (active_thread) usleep(1000)` -/
  | wait (start : Option SockAddr)
  /-- `memset(&addr_ep6, 0, sizeof(addr_ep6))` -/
  | clearAddr (addrFrom : SockAddr)
  | setAddr (addrFrom : SockAddr)
  /-- `enable_thread = 1` -/
  | enable
  /-- `active_thread = 1` -/
  | activate
  | pthreadCreate
  | exited
deriving DecidableEq

/-- What a thread in `handler_ep6` does next. -/
inductive ThreadStatement where
  | start
  /-- `while (enable_thread)` -/
  | test
  | sendmmsg
  /-- `active_thread = 0` -/
  | deactivate
  | finished
deriving DecidableEq

structure Machine where
  server : Server
  addrEp6 : SockAddr
  main : MainStatement
  threads : List ThreadStatement
  /-- Where the batches of datagrams of all threads went. -/
  streamed : List SockAddr

def Machine.start (buffer : ℕ → Byte) : Machine where
  server := .start buffer
  addrEp6 := ⟨0, 0, 0⟩
  main := .recvfrom
  threads := []
  streamed := []

inductive Event where
  /-- `recvfrom` returns a datagram and its sender, or fails. -/
  | recvfrom (received : Option (Datagram × SockAddr))
  /-- Any other statement of `main` but the last of a Start. -/
  | main
  | pthreadCreate (result : ℤ)
  /-- The next statement of a thread. -/
  | thread (i : ℕ)

/-- The first word of the buffer after a datagram. -/
def codeAfter (s : Server) (d : Datagram) : BitVec 32 :=
  word (store s.buffer 0 d.bytes) 0

def IsStop (code : BitVec 32) : Prop := code = 0x0004feef

def IsStart (code : BitVec 32) : Prop :=
  code = 0x0104feef ∨ code = 0x0204feef ∨ code = 0x0304feef

instance (code : BitVec 32) : Decidable (IsStop code) :=
  inferInstanceAs (Decidable (code = _))

instance (code : BitVec 32) : Decidable (IsStart code) :=
  inferInstanceAs (Decidable (_ ∨ _))

namespace Machine

variable (mac : Fin 6 → Byte) (s : Machine)

def recvfrom (received : Option (Datagram × SockAddr)) : Machine :=
  match s.main, received with
  | .recvfrom, none => { s with main := .exited }
  | .recvfrom, some (d, addrFrom) =>
    if IsStop (codeAfter s.server d) then
      { s with
        server := { s.server with buffer := store s.server.buffer 0 d.bytes }
        main := .disable none }
    else if IsStart (codeAfter s.server d) then
      { s with
        server := { s.server with buffer := store s.server.buffer 0 d.bytes }
        main := .disable (some addrFrom) }
    else { s with server := receive mac s.server d }
  | _, _ => s

def mainStep : Machine :=
  match s.main with
  | .disable start =>
    { s with
      server := { s.server with enableThread := 0 }
      main := .wait start }
  | .wait start =>
    if s.server.activeThread ≠ 0 then s
    else
      match start with
      | none => { s with main := .recvfrom }
      | some addrFrom => { s with main := .clearAddr addrFrom }
  | .clearAddr addrFrom =>
    { s with addrEp6 := ⟨0, 0, 0⟩, main := .setAddr addrFrom }
  | .setAddr addrFrom =>
    { s with
      addrEp6 := { s.addrEp6 with
        sinFamily := afInet
        sinAddr := addrFrom.sinAddr
        sinPort := addrFrom.sinPort }
      main := .enable }
  | .enable =>
    { s with
      server := { s.server with enableThread := 1 }
      main := .activate }
  | .activate =>
    { s with
      server := { s.server with activeThread := 1 }
      main := .pthreadCreate }
  | _ => s

/-- `pthread_create` gives a positive number when it fails; the test is for a
negative one. -/
def pthreadCreate (result : ℤ) : Machine :=
  match s.main with
  | .pthreadCreate =>
    if result < 0 then { s with main := .exited }
    else
      { s with
        main := .recvfrom
        threads := if result = 0 then s.threads ++ [.start] else s.threads }
  | _ => s

def threadStep (i : ℕ) : ThreadStatement → Machine
  | .start => { s with threads := s.threads.set i .test }
  | .test =>
    { s with
      threads := s.threads.set i
        (if s.server.enableThread ≠ 0 then .sendmmsg else .deactivate) }
  | .sendmmsg =>
    { s with
      streamed := s.streamed ++ [s.addrEp6]
      threads := s.threads.set i .test }
  | .deactivate =>
    { s with
      server := { s.server with activeThread := 0 }
      threads := s.threads.set i .finished }
  | .finished => s

/-- An event that does not fit the state changes nothing; when `main` returns,
the threads end. -/
def next : Event → Machine
  | .recvfrom received => s.recvfrom mac received
  | .main => s.mainStep
  | .pthreadCreate result => s.pthreadCreate result
  | .thread i =>
    if s.main = .exited then s
    else
      match s.threads[i]? with
      | none => s
      | some t => s.threadStep i t

end Machine

/-- The thread has been created and has not cleared `active_thread`. -/
def ThreadStatement.alive (t : ThreadStatement) : Bool := t ≠ .finished

namespace Machine

def aliveCount (s : Machine) : ℕ := s.threads.countP ThreadStatement.alive

/-- `main` is in the middle of a change of `addr_ep6`. -/
def settingAddr (s : Machine) : Bool :=
  match s.main with
  | .clearAddr _ => true
  | .setAddr _ => true
  | _ => false

end Machine

/-- The cycle completes a Stop command. -/
def StopsIn (c : Cycle Machine Event) : Prop :=
  c.state.main = .wait none ∧ c.state.server.activeThread = 0 ∧ c.input = .main

/-- The cycle receives a Start command. -/
def StartsIn (c : Cycle Machine Event) : Prop :=
  c.state.main = .recvfrom ∧
    ∃ d addrFrom, c.input = .recvfrom (some (d, addrFrom)) ∧
      IsStart (codeAfter c.state.server d)

/-- Stop has been processed; while no Start is received, the threads send
nothing more. -/
def QuietAfterStop (mac : Fin 6 → Byte) (s : Machine) : Prop :=
  ∀ event later, StopsIn ⟨s, event⟩ →
    (∀ c ∈ trace (Machine.next mac) (s.next mac event) later, ¬StartsIn c) →
    (run (Machine.next mac) (s.next mac event) later).streamed = s.streamed

structure NeverOverlap (mac : Fin 6 → Byte) (s : Machine) : Prop where
  one : s.aliveCount ≤ 1
  addrEp6 : ∀ event, (s.next mac event).addrEp6 ≠ s.addrEp6 → s.aliveCount = 0
  setting : s.settingAddr = true → s.aliveCount = 0
  quiet : QuietAfterStop mac s

/-! ## The handshake -/

section Receive

variable (mac : Fin 6 → Byte) {s : Server} {d : Datagram}

theorem receive_of_stop (h : IsStop (codeAfter s d)) :
    receive mac s d =
      { s with
        buffer := store s.buffer 0 d.bytes
        enableThread := 0
        activeThread := 0 } := by
  have hcode : word (store s.buffer 0 d.bytes) 0 = 0x0004feef := h
  simp only [receive, hcode]
  rfl

theorem receive_of_start (h : IsStart (codeAfter s d)) :
    receive mac s d =
      { s with
        buffer := store s.buffer 0 d.bytes
        enableThread := 1
        activeThread := 1 } := by
  rcases h with hcode | hcode | hcode <;>
    (change word (store s.buffer 0 d.bytes) 0 = _ at hcode
     simp only [receive, hcode]
     rfl)

/-- The flags are only for Stop and Start. -/
theorem receive_flags (hstop : ¬IsStop (codeAfter s d))
    (hstart : ¬IsStart (codeAfter s d)) :
    (receive mac s d).enableThread = s.enableThread ∧
      (receive mac s d).activeThread = s.activeThread := by
  unfold IsStop codeAfter at hstop
  unfold IsStart codeAfter at hstart
  simp only [receive]
  rw [if_neg hstop, if_neg hstart]
  split_ifs <;> exact ⟨rfl, rfl⟩

theorem Server.flags_eq {e a : ℕ} (henable : s.enableThread = e)
    (hactive : s.activeThread = a) :
    { s with enableThread := e, activeThread := a } = s := by
  subst henable hactive
  rfl

end Receive

namespace Machine

/-- `main` is about to create a thread. -/
def creating (s : Machine) : Bool := s.main = .pthreadCreate

/-- The statements of a Start before the thread is active. -/
def restarting (s : Machine) : Bool :=
  s.settingAddr || s.main = .enable || s.main = .activate

/-- While a thread is alive or about to be created `active_thread` is set; the
other flag tells it whether to go on. -/
structure Sound (s : Machine) : Prop where
  held : s.aliveCount + s.creating.toNat ≤
    (s.server.activeThread ≠ 0 : Bool).toNat
  restarting : s.restarting = true → s.aliveCount = 0
  waiting : ∀ start, s.main = .wait start → s.server.enableThread = 0
  enabled : s.main = .activate ∨ s.main = .pthreadCreate →
    s.server.enableThread = 1
  activated : s.main = .pthreadCreate → s.server.activeThread = 1
  streaming : s.main = .recvfrom → s.server.enableThread = 0 →
    s.aliveCount = 0
  leaving : .deactivate ∈ s.threads → s.server.enableThread = 0

theorem sound_start (buffer : ℕ → Byte) : (start buffer).Sound where
  held := le_refl 0
  restarting := nofun
  waiting := nofun
  enabled := nofun
  activated := nofun
  streaming := fun _ _ => rfl
  leaving := nofun

theorem settingAddr_restarting {s : Machine} (h : s.settingAddr = true) :
    s.restarting = true := by
  rw [restarting, h]
  rfl

namespace Sound

variable {s : Machine} {t : ThreadStatement} {xs ys : List ThreadStatement}

theorem aliveCount_le_one (h : s.Sound) : s.aliveCount ≤ 1 :=
  (Nat.le_add_right _ _).trans (h.held.trans (Bool.toNat_le _))

theorem none_alive (h : s.Sound) (hactive : s.server.activeThread = 0) :
    s.aliveCount = 0 ∧ s.creating = false := by
  have hheld := h.held
  rw [hactive] at hheld
  cases hcreating : s.creating with
  | false => exact ⟨by simpa [hcreating] using hheld, rfl⟩
  | true => simp [hcreating] at hheld

/-- Without living threads no thread is about to clear `active_thread`. -/
theorem no_deactivate (hnone : s.aliveCount = 0) : .deactivate ∉ s.threads := by
  intro hmem
  have hdead := List.countP_eq_zero.mp hnone _ hmem
  exact hdead rfl

/-- A living thread is the only one, and `main` is creating no other. -/
theorem alive_cases (h : s.Sound) (hsplit : s.threads = xs ++ t :: ys)
    (halive : t.alive = true) :
    (xs ++ ys).countP ThreadStatement.alive = 0 ∧ s.creating = false ∧
      s.restarting = false ∧ s.aliveCount = 1 := by
  have hheld := h.held
  rw [aliveCount, hsplit] at hheld
  obtain ⟨-, hcreating, hothers⟩ := Threads.alone hheld halive
  have hone : s.aliveCount = 1 := by
    rw [aliveCount, hsplit, Threads.countP_split, halive, hothers]
    rfl
  refine ⟨hothers, hcreating, ?_, hone⟩
  by_contra hrestarting
  have hnone := h.restarting (eq_true_of_ne_false hrestarting)
  omega

/-- A thread goes on, and leaves its loop only when it is told to. -/
theorem replace (h : s.Sound) (hsplit : s.threads = xs ++ t :: ys)
    (halive : t.alive = true) {t' : ThreadStatement} (halive' : t'.alive = true)
    (hleaving : t' = .deactivate → s.server.enableThread = 0)
    (streamed : List SockAddr) :
    Sound { s with threads := xs ++ t' :: ys, streamed } := by
  have hcount : aliveCount { s with threads := xs ++ t' :: ys, streamed } =
      s.aliveCount := by
    rw [aliveCount, aliveCount, hsplit, Threads.countP_split,
      Threads.countP_split, halive, halive']
  refine ⟨?_, ?_, h.waiting, h.enabled, h.activated, ?_, ?_⟩
  · rw [hcount]
    exact h.held
  · rw [hcount]
    exact h.restarting
  · rw [hcount]
    exact h.streaming
  · intro hmem
    change .deactivate ∈ xs ++ t' :: ys at hmem
    rw [List.mem_append, List.mem_cons] at hmem
    rcases hmem with hxs | ht' | hys
    · exact h.leaving (hsplit ▸ List.mem_append_left _ hxs)
    · exact hleaving ht'.symm
    · exact h.leaving
        (hsplit ▸ List.mem_append_right _ (List.mem_cons_of_mem _ hys))

/-- The last act of a thread leaves no thread alive. -/
theorem deactivate (h : s.Sound)
    (hsplit : s.threads = xs ++ .deactivate :: ys) :
    Sound { s with
      server := { s.server with activeThread := 0 }
      threads := xs ++ .finished :: ys } := by
  obtain ⟨hothers, hcreating, hrestarting, -⟩ := h.alive_cases hsplit rfl
  have hnone : (xs ++ .finished :: ys).countP ThreadStatement.alive = 0 := by
    rw [Threads.countP_split, hothers]
    rfl
  refine ⟨?_, fun _ => hnone, h.waiting, h.enabled, ?_, fun _ _ => hnone, ?_⟩
  · change (xs ++ .finished :: ys).countP ThreadStatement.alive +
      s.creating.toNat ≤ _
    rw [hnone, hcreating]
    exact Nat.zero_le _
  · intro hmain
    have htrue : s.creating = true := decide_eq_true hmain
    exact Bool.noConfusion (hcreating.symm.trans htrue)
  · intro hmem
    have hdead := List.countP_eq_zero.mp hnone _ hmem
    exact absurd rfl hdead

theorem threadStep (h : s.Sound) {i : ℕ} (ht : s.threads[i]? = some t) :
    (s.threadStep i t).Sound := by
  obtain ⟨xs, ys, hsplit, hset⟩ := Threads.exists_split ht
  cases t with
  | start =>
      rw [Machine.threadStep, hset]
      refine h.replace hsplit rfl rfl ?_ _
      exact nofun
  | test =>
      rw [Machine.threadStep, hset]
      split_ifs with henable
      · refine h.replace hsplit rfl rfl ?_ _
        exact nofun
      · exact h.replace hsplit rfl rfl (fun _ => not_ne_iff.mp henable) _
  | sendmmsg =>
      rw [Machine.threadStep, hset]
      refine h.replace hsplit rfl rfl ?_ _
      exact nofun
  | deactivate =>
      rw [Machine.threadStep, hset]
      exact h.deactivate hsplit
  | finished => exact h

/-- Without living threads `main` may go to a statement that is not part of the
start of a thread. -/
theorem of_none_alive (hnone : s.aliveCount = 0)
    (hcreating : s.main ≠ .pthreadCreate)
    (hwaiting : ∀ start, s.main = .wait start → s.server.enableThread = 0)
    (henabled : s.main = .activate → s.server.enableThread = 1) : s.Sound where
  held := by
    have hidle : s.creating = false := decide_eq_false hcreating
    rw [hnone, hidle]
    exact Nat.zero_le _
  restarting := fun _ => hnone
  waiting := hwaiting
  enabled := fun h => henabled (h.resolve_right hcreating)
  activated := fun h => absurd h hcreating
  streaming := fun _ _ => hnone
  leaving := fun h => absurd h (no_deactivate hnone)

theorem mainStep (h : s.Sound) : s.mainStep.Sound := by
  unfold Machine.mainStep
  split
  next start hmain =>
    refine ⟨?_, nofun, fun _ _ => rfl, ?_, nofun, nofun, fun _ => rfl⟩
    · exact (Nat.le_add_right _ _).trans h.held
    · rintro (hmain' | hmain') <;> cases hmain'
  next start hmain =>
    split
    next => exact h
    next hactive =>
      have hnone := (h.none_alive (not_ne_iff.mp hactive)).1
      split
      next => exact of_none_alive hnone nofun nofun nofun
      next => exact of_none_alive hnone nofun nofun nofun
  next addrFrom hmain =>
    have hnone := h.restarting (settingAddr_restarting (by rw [settingAddr, hmain]))
    exact of_none_alive hnone nofun nofun nofun
  next addrFrom hmain =>
    have hnone := h.restarting (settingAddr_restarting (by rw [settingAddr, hmain]))
    exact of_none_alive hnone nofun nofun nofun
  next hmain =>
    have hnone := h.restarting (by simp [Machine.restarting, hmain])
    exact of_none_alive hnone nofun nofun fun _ => rfl
  next hmain =>
    have hnone := h.restarting (by simp [Machine.restarting, hmain])
    refine ⟨?_, ?_, nofun, ?_, fun _ => rfl, nofun, ?_⟩
    · change s.aliveCount + _ ≤ 1
      rw [hnone, Nat.zero_add]
      exact Bool.toNat_le _
    · exact fun _ => hnone
    · exact fun _ => h.enabled (Or.inl hmain)
    · exact fun hmem => absurd hmem (no_deactivate hnone)
  next => exact h

theorem pthreadCreate (h : s.Sound) (result : ℤ) :
    (s.pthreadCreate result).Sound := by
  unfold Machine.pthreadCreate
  split
  next hmain =>
    have hcreating : s.creating = true := decide_eq_true hmain
    have hheld := h.held
    have hbound := Bool.toNat_le (s.server.activeThread ≠ 0 : Bool)
    rw [hcreating, Bool.toNat_true] at hheld
    have hnone : s.aliveCount = 0 := by omega
    have henabled := h.enabled (Or.inr hmain)
    split
    next => exact of_none_alive hnone nofun nofun nofun
    next =>
      split
      next =>
        refine ⟨?_, nofun, nofun, nofun, nofun, ?_, ?_⟩
        · change (s.threads ++ [_]).countP ThreadStatement.alive + 0 ≤
            (s.server.activeThread ≠ 0 : Bool).toNat
          rw [Threads.countP_snoc, h.activated hmain]
          change s.aliveCount + 1 ≤ 1
          rw [hnone]
        · intro _ hzero
          exact absurd (henabled.symm.trans hzero) (by decide)
        · intro hmem
          change .deactivate ∈ s.threads ++ [.start] at hmem
          rw [List.mem_append, List.mem_singleton] at hmem
          rcases hmem with hmem | hnew
          · exact absurd hmem (no_deactivate hnone)
          · cases hnew
      next => exact of_none_alive hnone nofun nofun nofun
  next => exact h

theorem of_flags (h : s.Sound) {server : Server}
    (henable : server.enableThread = s.server.enableThread)
    (hactive : server.activeThread = s.server.activeThread) :
    Sound { s with server } := by
  refine ⟨?_, h.restarting, ?_, ?_, ?_, ?_, ?_⟩
  · change _ ≤ (server.activeThread ≠ 0 : Bool).toNat
    rw [hactive]
    exact h.held
  · exact fun start hmain => henable.trans (h.waiting start hmain)
  · exact fun hmain => henable.trans (h.enabled hmain)
  · exact fun hmain => hactive.trans (h.activated hmain)
  · exact fun hmain hzero => h.streaming hmain (henable.symm.trans hzero)
  · exact fun hmem => henable.trans (h.leaving hmem)

theorem recvfrom (h : s.Sound) (mac : Fin 6 → Byte)
    (received : Option (Datagram × SockAddr)) :
    (s.recvfrom mac received).Sound := by
  have hheld := (Nat.le_add_right _ _).trans h.held
  unfold Machine.recvfrom
  split
  next hmain => exact ⟨hheld, nofun, nofun, nofun, nofun, nofun, h.leaving⟩
  next d addrFrom hmain =>
    split_ifs with hstop hstart
    · exact ⟨hheld, nofun, nofun, nofun, nofun, nofun, h.leaving⟩
    · exact ⟨hheld, nofun, nofun, nofun, nofun, nofun, h.leaving⟩
    · obtain ⟨henable, hactive⟩ := receive_flags mac hstop hstart
      exact h.of_flags henable hactive
  next => exact h

theorem next (h : s.Sound) (mac : Fin 6 → Byte) (event : Event) :
    (s.next mac event).Sound := by
  cases event with
  | recvfrom received => exact h.recvfrom mac received
  | main => exact h.mainStep
  | pthreadCreate result => exact h.pthreadCreate result
  | thread i =>
      change (if s.main = .exited then s else _ : Machine).Sound
      split
      next => exact h
      next =>
        split
        next => exact h
        next t ht => exact h.threadStep ht

theorem addrEp6_recvfrom (mac : Fin 6 → Byte) (s : Machine)
    (received : Option (Datagram × SockAddr)) :
    (s.recvfrom mac received).addrEp6 = s.addrEp6 := by
  unfold Machine.recvfrom
  split
  next => rfl
  next => split_ifs <;> rfl
  next => rfl

theorem addrEp6_mainStep {s : Machine} (hsetting : s.settingAddr = false) :
    s.mainStep.addrEp6 = s.addrEp6 := by
  unfold Machine.mainStep
  split
  next => rfl
  next =>
    split
    next => rfl
    next => split <;> rfl
  next hmain => rw [settingAddr, hmain] at hsetting; cases hsetting
  next hmain => rw [settingAddr, hmain] at hsetting; cases hsetting
  next => rfl
  next => rfl
  next => rfl

theorem addrEp6_pthreadCreate (s : Machine) (result : ℤ) :
    (s.pthreadCreate result).addrEp6 = s.addrEp6 := by
  unfold Machine.pthreadCreate
  split
  next => split_ifs <;> rfl
  next => rfl

/-- Only the statements of a Start change the address. -/
theorem addrEp6 (h : s.Sound) (mac : Fin 6 → Byte) (event : Event)
    (hchange : (s.next mac event).addrEp6 ≠ s.addrEp6) : s.aliveCount = 0 := by
  cases event with
  | recvfrom received => exact absurd (addrEp6_recvfrom mac s received) hchange
  | main =>
      by_contra halive
      refine hchange (addrEp6_mainStep ?_)
      by_contra hsetting
      exact halive (h.restarting
        (settingAddr_restarting (eq_true_of_ne_false hsetting)))
  | pthreadCreate result => exact absurd (addrEp6_pthreadCreate s result) hchange
  | thread i =>
      refine absurd ?_ hchange
      change (if s.main = .exited then s else _ : Machine).addrEp6 = _
      split
      next => rfl
      next =>
        split
        next => rfl
        next t ht => cases t <;> rfl

end Sound

/-! ## After a Stop -/

/-- No thread is alive and `main` is not about to start one. -/
structure Quiet (s : Machine) : Prop where
  disabled : s.server.enableThread = 0
  none_alive : s.aliveCount = 0
  main : s.main = .recvfrom ∨ s.main = .disable none ∨ s.main = .wait none ∨
    s.main = .exited

namespace Quiet

variable {s : Machine}

theorem of_stopsIn (h : s.Sound) (mac : Fin 6 → Byte) {event : Event}
    (hstop : StopsIn ⟨s, event⟩) :
    (s.next mac event).Quiet ∧ (s.next mac event).streamed = s.streamed := by
  obtain ⟨hmain, hactive, rfl⟩ := hstop
  change s.main = .wait none at hmain
  change s.server.activeThread = 0 at hactive
  have hnext : s.next mac .main = { s with main := .recvfrom } := by
    change s.mainStep = _
    simp only [mainStep, hmain, hactive]
    rfl
  rw [hnext]
  exact ⟨⟨h.waiting none hmain, (h.none_alive hactive).1, Or.inl rfl⟩, rfl⟩

theorem recvfrom (h : s.Quiet) (mac : Fin 6 → Byte)
    {received : Option (Datagram × SockAddr)}
    (hstart : ¬StartsIn ⟨s, .recvfrom received⟩) :
    (s.recvfrom mac received).Quiet ∧
      (s.recvfrom mac received).streamed = s.streamed := by
  unfold Machine.recvfrom
  split
  next =>
    exact ⟨⟨h.disabled, h.none_alive, Or.inr (Or.inr (Or.inr rfl))⟩, rfl⟩
  next d addrFrom hmain =>
    split_ifs with hcode hcode'
    · exact ⟨⟨h.disabled, h.none_alive, Or.inr (Or.inl rfl)⟩, rfl⟩
    · exact absurd ⟨hmain, d, addrFrom, rfl, hcode'⟩ hstart
    · have henable := (receive_flags mac hcode hcode').1
      exact ⟨⟨henable.trans h.disabled, h.none_alive, Or.inl hmain⟩, rfl⟩
  next => exact ⟨h, rfl⟩

theorem mainStep (h : s.Quiet) :
    s.mainStep.Quiet ∧ s.mainStep.streamed = s.streamed := by
  rcases h.main with hmain | hmain | hmain | hmain
  · simp only [Machine.mainStep, hmain]
    exact ⟨h, trivial⟩
  · simp only [Machine.mainStep, hmain]
    exact ⟨⟨rfl, h.none_alive, Or.inr (Or.inr (Or.inl rfl))⟩, trivial⟩
  · simp only [Machine.mainStep, hmain]
    split
    next => exact ⟨h, rfl⟩
    next => exact ⟨⟨h.disabled, h.none_alive, Or.inl rfl⟩, rfl⟩
  · simp only [Machine.mainStep, hmain]
    exact ⟨h, trivial⟩

theorem next (h : s.Quiet) (mac : Fin 6 → Byte) {event : Event}
    (hstart : ¬StartsIn ⟨s, event⟩) :
    (s.next mac event).Quiet ∧ (s.next mac event).streamed = s.streamed := by
  cases event with
  | recvfrom received => exact h.recvfrom mac hstart
  | main => exact h.mainStep
  | pthreadCreate result =>
      change (s.pthreadCreate result).Quiet ∧
        (s.pthreadCreate result).streamed = s.streamed
      unfold Machine.pthreadCreate
      split
      next hmain =>
        rcases h.main with h' | h' | h' | h' <;> cases hmain.symm.trans h'
      next => exact ⟨h, rfl⟩
  | thread i =>
      change (if s.main = .exited then s else _ : Machine).Quiet ∧
        (if s.main = .exited then s else _ : Machine).streamed = _
      split
      next => exact ⟨h, rfl⟩
      next =>
        split
        next => exact ⟨h, rfl⟩
        next t ht =>
          -- every thread has finished
          have hdead := List.countP_eq_zero.mp h.none_alive t
            (List.mem_of_getElem? ht)
          cases t with
          | finished => exact ⟨h, rfl⟩
          | start => exact absurd rfl hdead
          | test => exact absurd rfl hdead
          | sendmmsg => exact absurd rfl hdead
          | deactivate => exact absurd rfl hdead

end Quiet

theorem Sound.quietAfterStop {s : Machine} (h : s.Sound) (mac : Fin 6 → Byte) :
    QuietAfterStop mac s := by
  intro event later hstop hlater
  have hrun := run_invariant_of
    (fun s' => s'.Quiet ∧ s'.streamed = s.streamed) (fun c => ¬StartsIn c)
    (fun s' event hs' hstart => by
      obtain ⟨hquiet, hsame⟩ := hs'.1.next mac hstart
      exact ⟨hquiet, hsame.trans hs'.2⟩)
    (Quiet.of_stopsIn h mac hstop) later hlater
  exact hrun.2

theorem Sound.neverOverlap {s : Machine} (h : s.Sound) (mac : Fin 6 → Byte) :
    NeverOverlap mac s where
  one := h.aliveCount_le_one
  addrEp6 := h.addrEp6 mac
  setting := fun hsetting => h.restarting (settingAddr_restarting hsetting)
  quiet := h.quietAfterStop mac

/-! ## The main loop without threads -/

/-- The server when `main` is done with the command it is executing. -/
def settled (s : Machine) : Server :=
  match s.main with
  | .recvfrom => s.server
  | .exited => s.server
  | .disable none => { s.server with enableThread := 0, activeThread := 0 }
  | .wait none => { s.server with enableThread := 0, activeThread := 0 }
  | _ => { s.server with enableThread := 1, activeThread := 1 }

/-- The datagram that the cycle receives. -/
def received (c : Cycle Machine Event) : List Datagram :=
  match c.input, c.state.main with
  | .recvfrom (some (d, _)), .recvfrom => [d]
  | _, _ => []

theorem settled_recvfrom (s : Machine) (mac : Fin 6 → Byte)
    (r : Option (Datagram × SockAddr)) :
    (s.recvfrom mac r).settled =
      run (receive mac) s.settled (received ⟨s, .recvfrom r⟩) := by
  by_cases hmain : s.main = .recvfrom
  · cases r with
    | none => simp only [Machine.recvfrom, received, hmain, settled, run_nil]
    | some sender =>
        obtain ⟨d, addrFrom⟩ := sender
        have hreceived : received ⟨s, .recvfrom (some (d, addrFrom))⟩ = [d] := by
          simp only [received, hmain]
        have hserver : s.settled = s.server := by
          simp only [settled, hmain]
        rw [hreceived, hserver]
        change _ = receive mac s.server d
        simp only [Machine.recvfrom, hmain]
        split_ifs with hstop hstart
        · rw [receive_of_stop mac hstop]
          rfl
        · rw [receive_of_start mac hstart]
          rfl
        · simp only [settled]
  · have hstutter : s.recvfrom mac r = s := by
      unfold Machine.recvfrom
      split
      next h => exact absurd h hmain
      next h => exact absurd h hmain
      next => rfl
    have hreceived : received ⟨s, .recvfrom r⟩ = [] := by
      unfold received
      split
      next h => exact absurd h hmain
      next => rfl
    rw [hstutter, hreceived, run_nil]

theorem settled_mainStep {s : Machine} (h : s.Sound) :
    s.mainStep.settled = s.settled := by
  unfold Machine.mainStep
  split
  next start hmain => cases start <;> simp only [settled, hmain]
  next start hmain =>
    split_ifs with hactive
    · rfl
    · cases start with
      | none =>
          simp only [settled, hmain]
          exact (Server.flags_eq (h.waiting none hmain)
            (not_ne_iff.mp hactive)).symm
      | some addrFrom => simp only [settled, hmain]
  next hmain => simp only [settled, hmain]
  next hmain => simp only [settled, hmain]
  next hmain => simp only [settled, hmain]
  next hmain => simp only [settled, hmain]
  next => rfl

theorem settled_pthreadCreate {s : Machine} (h : s.Sound) (result : ℤ) :
    (s.pthreadCreate result).settled = s.settled := by
  unfold Machine.pthreadCreate
  split
  next hmain =>
    have hflags := Server.flags_eq (h.enabled (Or.inr hmain)) (h.activated hmain)
    split_ifs <;> simp only [settled, hmain] <;> exact hflags.symm
  next => rfl

/-- While `main` receives, no thread ends. -/
theorem settled_threadStep {s : Machine} (h : s.Sound)
    (hexited : s.main ≠ .exited) {i : ℕ} {t : ThreadStatement}
    (ht : s.threads[i]? = some t) : (s.threadStep i t).settled = s.settled := by
  cases t with
  | start => rfl
  | test => rfl
  | sendmmsg => rfl
  | finished => rfl
  | deactivate =>
      have hmem : .deactivate ∈ s.threads := List.mem_of_getElem? ht
      have hmain : s.main ≠ .recvfrom := by
        intro hmain
        have hnone := h.streaming hmain (h.leaving hmem)
        exact Sound.no_deactivate hnone hmem
      cases hmain' : s.main with
      | recvfrom => exact absurd hmain' hmain
      | exited => exact absurd hmain' hexited
      | disable start =>
          cases start <;> simp only [settled, Machine.threadStep, hmain']
      | wait start =>
          cases start <;> simp only [settled, Machine.threadStep, hmain']
      | _ => simp only [settled, Machine.threadStep, hmain']

theorem settled_next {s : Machine} (h : s.Sound) (mac : Fin 6 → Byte)
    (event : Event) :
    (s.next mac event).settled =
      run (receive mac) s.settled (received ⟨s, event⟩) := by
  cases event with
  | recvfrom r => exact settled_recvfrom s mac r
  | main => exact settled_mainStep h
  | pthreadCreate result => exact settled_pthreadCreate h result
  | thread i =>
      change (if s.main = .exited then s else _ : Machine).settled = s.settled
      split
      next => rfl
      next hexited =>
        split
        next => rfl
        next t ht => exact settled_threadStep h hexited ht

/-- The threads change nothing about what the datagrams do. -/
theorem settled_run (mac : Fin 6 → Byte) (buffer : ℕ → Byte)
    (events : List Event) :
    (run (next mac) (start buffer) events).settled =
      run (receive mac) (.start buffer)
        ((trace (next mac) (start buffer) events).flatMap received) :=
  run_refines Sound settled received (fun _ event h => h.next mac event)
    (fun _ event h => settled_next h mac event) (sound_start buffer) events

end Machine

/-- Whatever datagrams arrive and however `main` and its threads are
interleaved, there is never more than one streaming thread, `addr_ep6` changes
only while there is none, and after a Stop nothing is sent until a Start. -/
theorem neverOverlap_run (mac : Fin 6 → Byte) (buffer : ℕ → Byte)
    (events : List Event) :
    NeverOverlap mac (run (Machine.next mac) (Machine.start buffer) events) :=
  (run_invariant Machine.Sound (fun _ event h => h.next mac event)
    (Machine.sound_start buffer) events).neverOverlap mac

/-- A client starts the stream, gets one batch and stops it. -/
example :
    let client : SockAddr := ⟨afInet, 0xc0a80102, 1024⟩
    let start : Datagram := ⟨[0xef, 0xfe, 0x04, 0x01], by decide⟩
    let stop : Datagram := ⟨[0xef, 0xfe, 0x04, 0x00], by decide⟩
    let s := run (Machine.next fun _ => 0) (Machine.start fun _ => 0)
      [.recvfrom (some (start, client)), .main, .main, .main, .main, .main,
        .main, .pthreadCreate 0, .thread 0, .thread 0, .thread 0,
        .recvfrom (some (stop, client)), .main, .main, .thread 0, .thread 0]
    s.streamed = [client] ∧ s.threads = [.finished] ∧
      s.main = .wait none ∧ s.server.activeThread = 0 := by
  decide

end RedPitayaNotes.SdrReceiverHpsdr
