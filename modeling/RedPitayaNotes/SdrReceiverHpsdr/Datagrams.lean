import RedPitayaNotes.SdrReceiverHpsdr.Tuning

/-!
# The datagrams of the HPSDR server

The main loop of `sdr-receiver-hpsdr.c` receives every datagram into the same
buffer and does not look at its size.  Where a datagram ends early the server
reads what an earlier one, or the reply to a discovery, has left there.
-/

namespace RedPitayaNotes.SdrReceiverHpsdr

open Bits Memory Clocked

/-- What `recvfrom` gives: at most the 1032 bytes asked for. -/
structure Datagram where
  bytes : List Byte
  le : bytes.length ≤ 1032

/-- `reply`, with the hardware address filled in. -/
def reply (mac : Fin 6 → Byte) : List Byte :=
  [0xef, 0xfe, 0x02] ++ List.ofFn mac ++ [73, 0x06] ++
    List.replicate 8 0 ++ [6, 0, 0]

/-- The variables of the main loop, and the datagrams sent by it. -/
structure Server extends Ep2 where
  buffer : ℕ → Byte
  enableThread : ℕ
  activeThread : ℕ
  sent : List (List Byte)

/-- Before the first datagram; `buffer` is not initialized. -/
def Server.start (buffer : ℕ → Byte) : Server where
  toEp2 := Ep2.start
  buffer := buffer
  enableThread := 0
  activeThread := 0
  sent := []

/-- `process_ep2(buffer + 11)` and `process_ep2(buffer + 523)` -/
def Ep2.processFrames (s : Ep2) (buffer : ℕ → Byte) : Ep2 :=
  (s.processEp2 fun k => buffer (11 + k)).processEp2
    fun k => buffer (523 + k)

/-- One turn of the main loop.  Stop and Start wait until the thread that was
active has ended. -/
def receive (mac : Fin 6 → Byte) (s : Server) (d : Datagram) : Server :=
  let s := { s with buffer := store s.buffer 0 d.bytes }
  let code := word s.buffer 0
  if code = 0x0201feef then
    { s with toEp2 := s.toEp2.processFrames s.buffer }
  else if code = 0x0002feef then
    let buffer := store s.buffer 0 (reply mac)
    let buffer := store buffer 22 (List.replicate (63 - 22) 0)
    let buffer := store buffer 2 [BitVec.ofNat 8 (2 + s.activeThread)]
    { s with buffer := buffer, sent := s.sent ++ [read buffer 0 63] }
  else if code = 0x0004feef then
    { s with enableThread := 0, activeThread := 0 }
  else if code = 0x0104feef ∨ code = 0x0204feef ∨ code = 0x0304feef then
    { s with enableThread := 1, activeThread := 1 }
  else s

/-- Whatever was received before, the registers after the datagram follow from
the registers before it. -/
def NoHiddenInput (mac : Fin 6 → Byte) (d : Datagram) : Prop :=
  ∀ buffer₁ buffer₂ past₁ past₂,
    (run (receive mac) (.start buffer₁) past₁).toRegisters =
        (run (receive mac) (.start buffer₂) past₂).toRegisters →
      (run (receive mac) (.start buffer₁) (past₁ ++ [d])).toRegisters =
        (run (receive mac) (.start buffer₂) (past₂ ++ [d])).toRegisters

/-! ## Short datagrams -/

namespace Datagram

variable (d : Datagram)

/-- The bytes received are the first four, or fewer, of an EP2 datagram. -/
def MayBeEp2 : Prop := d.bytes.take 4 <+: [0xef, 0xfe, 0x01, 0x02]

/-- The datagram with `fill` for the bytes that were not received. -/
def padded (fill : Byte) : ℕ → Byte := store (fun _ => fill) 0 d.bytes

/-- The second frame ignores the bytes that were not received. -/
def SecondSettled : Prop :=
  command (fun k => d.padded 0 (523 + k)) ≠ 0 ∧
    command (fun k => d.padded 0 (523 + k)) ≠ 10 ∧
    ∀ ch : Channel, command (fun k => d.padded 0 (523 + k)) = ch + 2 →
      freqMax.toNat < requested (fun k => d.padded 0 (523 + k)) ∨
      requested (fun k => d.padded 0xff (523 + k)) < freqMin.toNat ∨
      requested (fun k => d.padded 0 (523 + k)) = freqMax.toNat ∧
        Tunes ch (fun k => d.padded 0 (11 + k)) ∧
        freq2Phase (requested fun k => d.padded 0 (11 + k)) =
          freq2Phase freqMax.toNat

/-- All bytes that the server uses were received. -/
def Settled : Prop :=
  ¬d.MayBeEp2 ∨ 528 ≤ d.bytes.length ∨
    524 ≤ d.bytes.length ∧ d.SecondSettled

end Datagram

/-! ## Registers only depend on registers -/

namespace Ep2

variable {s s' : Ep2}

theorem setAdcReg_toRegisters (s : Ep2) (adc : Byte) :
    (s.setAdcReg adc).toRegisters = { s.toRegisters with adcReg := adc } := by
  simp only [setAdcReg]
  split_ifs <;> rfl

theorem setAtt_toRegisters (s : Ep2) (att : Byte) :
    (s.setAtt att).toRegisters = { s.toRegisters with attPrev := att } := by
  rw [setAtt]
  split_ifs with h
  · rfl
  · rw [not_ne_iff.mp h]

theorem tune_toRegisters_congr (h : s.toRegisters = s'.toRegisters)
    (ch : Channel) (phase : BitVec 32) :
    (s.tune ch phase).toRegisters = (s'.tune ch phase).toRegisters := by
  rw [tune, tune, ← h]
  split_ifs
  · simp only [h]
  · exact h

theorem processChangeFreq_toRegisters_congr
    (h : s.toRegisters = s'.toRegisters) (ch : ℕ) (data : BitVec 32) :
    (s.processChangeFreq ch data).toRegisters =
      (s'.processChangeFreq ch data).toRegisters := by
  simp only [processChangeFreq]
  split_ifs
  · exact h
  · exact tune_toRegisters_congr h _ _
  · exact h

/-- Two servers with the same registers treat a frame alike. -/
theorem processEp2_toRegisters_congr (h : s.toRegisters = s'.toRegisters)
    {frame frame' : ℕ → Byte} (hframe : ∀ k < 5, frame k = frame' k) :
    (s.processEp2 frame).toRegisters =
      (s'.processEp2 frame').toRegisters := by
  have hcommand : command frame = command frame' := by
    rw [command, command, hframe 0 (by omega)]
  have hword : word frame 1 = word frame' 1 := by
    rw [word, word, hframe 1 (by omega), hframe (1 + 1) (by omega),
      hframe (1 + 2) (by omega), hframe (1 + 3) (by omega)]
  simp only [processEp2]
  rw [hcommand, hword, hframe 1 (by omega), hframe 3 (by omega),
    hframe 4 (by omega)]
  split_ifs
  · simp only [setRxRate, setAdcReg_toRegisters, h]
  · exact processChangeFreq_toRegisters_congr h _ _
  · rw [setAtt_toRegisters, setAtt_toRegisters, h]
  · exact h

end Ep2

/-! ## The buffer -/

theorem store_congr_of_lt {mem mem' : ℕ → Byte} {bytes : List Byte} {k : ℕ}
    (hk : k < bytes.length) : store mem 0 bytes k = store mem' 0 bytes k := by
  have hmem := store_add hk mem 0
  have hmem' := store_add hk mem' 0
  rw [Nat.zero_add] at hmem hmem'
  rw [hmem, hmem']

theorem word_eq_ep2_iff (buffer : ℕ → Byte) :
    word buffer 0 = 0x0201feef ↔
      buffer 0 = 0xef ∧ buffer 1 = 0xfe ∧ buffer 2 = 0x01 ∧
        buffer 3 = 0x02 := by
  have h0 := (buffer 0).isLt
  have h1 := (buffer 1).isLt
  have h2 := (buffer 2).isLt
  have h3 := (buffer 3).isLt
  have hword := toNat_word buffer 0
  simp only [Nat.zero_add] at hword
  simp only [← BitVec.toNat_inj, hword, BitVec.reduceToNat]
  omega

namespace Datagram

variable {d : Datagram}

/-- The bytes of an EP2 datagram, where `g` has them, are not changed by a
datagram that may be its start. -/
theorem mayBeEp2_iff {g : ℕ → Byte} (hg : word g 0 = 0x0201feef) :
    d.MayBeEp2 ↔ word (store g 0 d.bytes) 0 = 0x0201feef := by
  rw [word_eq_ep2_iff] at hg
  obtain ⟨h0, h1, h2, h3⟩ := hg
  obtain ⟨bytes, hle⟩ := d
  rw [MayBeEp2, word_eq_ep2_iff]
  match bytes with
  | [] => simp [store, h0, h1, h2, h3]
  | [b0] => simp [store, h1, h2, h3, List.cons_prefix_cons]
  | [b0, b1] => simp [store, h2, h3, List.cons_prefix_cons]
  | [b0, b1, b2] => simp [store, h3, List.cons_prefix_cons]
  | b0 :: b1 :: b2 :: b3 :: rest => simp [store, List.cons_prefix_cons]

/-- A datagram that is not the start of an EP2 datagram is not taken for one. -/
theorem word_ne_ep2 (h : ¬d.MayBeEp2) (mem : ℕ → Byte) :
    word (store mem 0 d.bytes) 0 ≠ 0x0201feef := by
  intro hword
  apply h
  rw [mayBeEp2_iff hword]
  have hsame : store (store mem 0 d.bytes) 0 d.bytes = store mem 0 d.bytes := by
    funext k
    by_cases hk : k < d.bytes.length
    · exact store_congr_of_lt hk
    · exact store_of_ge (by omega) _
  rw [hsame]
  exact hword

end Datagram

section Receive

variable (mac : Fin 6 → Byte) {s : Server} {d : Datagram}

theorem receive_of_ep2 (h : word (store s.buffer 0 d.bytes) 0 = 0x0201feef) :
    (receive mac s d).toEp2 =
      s.toEp2.processFrames (store s.buffer 0 d.bytes) := by
  simp only [receive]
  rw [if_pos h]

theorem receive_of_not_ep2
    (h : word (store s.buffer 0 d.bytes) 0 ≠ 0x0201feef) :
    (receive mac s d).toEp2 = s.toEp2 := by
  simp only [receive]
  rw [if_neg h]
  split_ifs <;> rfl

end Receive

/-! ## Settled datagrams -/

theorem Tunes.congr {ch : Channel} {frame frame' : ℕ → Byte}
    (h : Tunes ch frame) (hframe : ∀ k < 5, frame k = frame' k) :
    Tunes ch frame' ∧ requested frame' = requested frame := by
  have hrequested : requested frame' = requested frame := by
    rw [requested_eq, requested_eq, hframe 1 (by omega), hframe 2 (by omega),
      hframe 3 (by omega), hframe 4 (by omega)]
  rw [Tunes, command, hframe 0 (by omega), ← hrequested] at h
  exact ⟨h, hrequested⟩

namespace Datagram

variable {d : Datagram}

theorem requested_mono {frame frame' : ℕ → Byte}
    (h : ∀ k, 1 ≤ k → k < 5 → (frame k).toNat ≤ (frame' k).toNat) :
    requested frame ≤ requested frame' := by
  have h1 := h 1 (by omega) (by omega)
  have h2 := h 2 (by omega) (by omega)
  have h3 := h 3 (by omega) (by omega)
  have h4 := h 4 (by omega) (by omega)
  rw [requested_eq, requested_eq]
  omega

/-- Any frequency in the buffer lies between those of the padded datagrams. -/
theorem requested_bounds (d : Datagram) (mem : ℕ → Byte) :
    requested (fun k => d.padded 0 (523 + k)) ≤
        requested (fun k => store mem 0 d.bytes (523 + k)) ∧
      requested (fun k => store mem 0 d.bytes (523 + k)) ≤
        requested (fun k => d.padded 0xff (523 + k)) := by
  constructor
  · apply requested_mono
    intro k _ _
    by_cases hk : 523 + k < d.bytes.length
    · rw [padded, store_congr_of_lt hk]
    · rw [padded, store_of_ge (by omega)]
      exact Nat.zero_le _
  · apply requested_mono
    intro k _ _
    by_cases hk : 523 + k < d.bytes.length
    · rw [padded, store_congr_of_lt hk]
    · rw [padded, store_of_ge (by omega) (fun _ => 0xff)]
      exact Nat.le_of_lt_succ (BitVec.isLt _)

/-- The second frame of a settled datagram has one effect, if any, whatever the
bytes that were not received. -/
theorem SecondSettled.processEp2 (h : d.SecondSettled)
    (hlen : 524 ≤ d.bytes.length) (s : Ep2) (mem : ℕ → Byte) :
    let s' := s.processEp2 fun k => store mem 0 d.bytes (11 + k)
    (s'.processEp2 fun k => store mem 0 d.bytes (523 + k)).toRegisters =
      s'.toRegisters := by
  intro s'
  obtain ⟨hzero, hten, htuned⟩ := h
  obtain ⟨hlow, hhigh⟩ := d.requested_bounds mem
  have hcommand : command (fun k => d.padded 0 (523 + k)) =
      command fun k => store mem 0 d.bytes (523 + k) := by
    rw [command, command, padded, store_congr_of_lt (by omega)]
  rw [hcommand] at hzero hten
  by_cases hidle : ∃ ch, Tunes ch fun k => store mem 0 d.bytes (523 + k)
  · obtain ⟨ch, hch⟩ := hidle
    obtain ⟨hself, hmin, hmax⟩ := hch
    rcases htuned ch (hcommand.trans hself) with habove | hbelow |
        ⟨htop, hfirst, hphase⟩
    · omega
    · omega
    · -- the only frequency in range is the one tuned to by the first frame
      have hrequested : requested (fun k => store mem 0 d.bytes (523 + k)) =
          freqMax.toNat := by omega
      have hreceived : ∀ k < 5, d.padded 0 (11 + k) =
          store mem 0 d.bytes (11 + k) :=
        fun k hk => store_congr_of_lt (by omega)
      obtain ⟨hfirst', hsame⟩ := hfirst.congr hreceived
      have hcached : s'.phases ch = freq2Phase freqMax.toNat := by
        rw [← hphase, ← hsame]
        change (s.processEp2 _).phases ch = _
        rw [Ep2.processEp2_of_tunes hfirst', Ep2.tune_phases,
          Function.update_self]
      rw [Ep2.processEp2_of_tunes ⟨hself, hmin, hmax⟩, hrequested, Ep2.tune,
        if_neg (not_ne_iff.mpr hcached)]
  · rw [Ep2.processEp2_of_idle hzero hten (not_exists.mp hidle)]

/-- A settled datagram has the same effect on the same registers. -/
theorem Settled.receive_congr (h : d.Settled) {mac : Fin 6 → Byte}
    {s s' : Server} (hregs : s.toRegisters = s'.toRegisters) :
    (receive mac s d).toRegisters = (receive mac s' d).toRegisters := by
  by_cases hmay : d.MayBeEp2
  · have hlen : 524 ≤ d.bytes.length := by
      rcases h with hno | hfull | ⟨hlen, -⟩
      · exact absurd hmay hno
      · omega
      · exact hlen
    have hsame : ∀ k < 524, store s.buffer 0 d.bytes k =
        store s'.buffer 0 d.bytes k :=
      fun k hk => store_congr_of_lt (by omega)
    have hfirst : (s.processEp2 fun k =>
        store s.buffer 0 d.bytes (11 + k)).toRegisters =
          (s'.processEp2 fun k =>
            store s'.buffer 0 d.bytes (11 + k)).toRegisters :=
      Ep2.processEp2_toRegisters_congr hregs fun k hk => hsame _ (by omega)
    have hcode : word (store s.buffer 0 d.bytes) 0 =
        word (store s'.buffer 0 d.bytes) 0 := by
      rw [word, word, hsame _ (by omega), hsame _ (by omega),
        hsame _ (by omega), hsame 0 (by omega)]
    by_cases hep2 : word (store s.buffer 0 d.bytes) 0 = 0x0201feef
    · rw [receive_of_ep2 mac hep2, receive_of_ep2 mac (hcode ▸ hep2)]
      rcases h with hno | hfull | ⟨-, hsecond⟩
      · exact absurd hmay hno
      · exact Ep2.processEp2_toRegisters_congr hfirst
          fun k hk => store_congr_of_lt (by omega)
      · exact (hsecond.processEp2 hlen _ _).trans
          (hfirst.trans (hsecond.processEp2 hlen _ _).symm)
    · rw [receive_of_not_ep2 mac hep2,
        receive_of_not_ep2 mac (hcode ▸ hep2)]
      exact hregs
  · rw [receive_of_not_ep2 mac (word_ne_ep2 hmay _),
      receive_of_not_ep2 mac (word_ne_ep2 hmay _)]
    exact hregs

end Datagram

/-! ## Two histories -/

/-- A datagram that is for nobody and leaves `g` in the buffer. -/
def leftover (g : ℕ → Byte) : Datagram where
  bytes := read (Function.update g 0 0) 0 1032
  le := by rw [length_read]

theorem store_leftover (mem g : ℕ → Byte) {k : ℕ} (hk : k < 1032) :
    store mem 0 (leftover g).bytes k = Function.update g 0 0 k := by
  have hlen : k < (leftover g).bytes.length := by
    rw [leftover, length_read]
    exact hk
  have hstore := store_add hlen mem 0
  rw [Nat.zero_add] at hstore
  rw [hstore]
  simp [leftover]

theorem receive_leftover (mac : Fin 6 → Byte) (s : Server) (g : ℕ → Byte) :
    receive mac s (leftover g) =
      { s with buffer := store s.buffer 0 (leftover g).bytes } := by
  have hcode := toNat_word (store s.buffer 0 (leftover g).bytes) 0
  rw [store_leftover _ g (k := 0) (by omega), Function.update_self] at hcode
  simp only [receive]
  rw [if_neg, if_neg, if_neg, if_neg]
  all_goals
    simp only [← BitVec.toNat_inj, hcode, BitVec.reduceToNat]
    omega

section TwoHistories

variable {mac : Fin 6 → Byte} {d : Datagram}

/-- After a leftover, an EP2 datagram meets the bytes that were left. -/
theorem receive_after_leftover (hd : d.bytes ≠ []) (hmay : d.MayBeEp2)
    {g : ℕ → Byte} (hg : word g 0 = 0x0201feef) (mem : ℕ → Byte) :
    (run (receive mac) (.start mem) ([leftover g] ++ [d])).toRegisters =
      (Ep2.start.processFrames (store g 0 d.bytes)).toRegisters := by
  have hpos : 0 < d.bytes.length := List.length_pos_of_ne_nil hd
  have hbuffer : ∀ k < 1032,
      store (store mem 0 (leftover g).bytes) 0 d.bytes k =
        store g 0 d.bytes k := by
    intro k hk
    by_cases hlt : k < d.bytes.length
    · exact store_congr_of_lt hlt
    · have hge : 0 + d.bytes.length ≤ k := by omega
      rw [store_of_ge hge, store_of_ge hge, store_leftover mem g hk,
        Function.update_of_ne (by omega)]
  have hcode : word (store (store mem 0 (leftover g).bytes) 0 d.bytes) 0 =
      0x0201feef := by
    rw [← (Datagram.mayBeEp2_iff hg).mp hmay, word, word,
      hbuffer _ (by omega), hbuffer _ (by omega), hbuffer _ (by omega),
      hbuffer 0 (by omega)]
  have hframes := receive_of_ep2 mac (d := d)
    (s := { Server.start mem with
      buffer := store mem 0 (leftover g).bytes }) hcode
  rw [run_append, run_cons, run_nil, run_cons, run_nil, receive_leftover]
  refine (congrArg Ep2.toRegisters hframes).trans ?_
  apply Ep2.processEp2_toRegisters_congr
  · apply Ep2.processEp2_toRegisters_congr
    · rfl
    · exact fun k hk => hbuffer _ (by omega)
  · exact fun k hk => hbuffer _ (by omega)

theorem NoHiddenInput.agree (h : NoHiddenInput mac d) (hd : d.bytes ≠ [])
    (hmay : d.MayBeEp2) {g g' : ℕ → Byte} (hg : word g 0 = 0x0201feef)
    (hg' : word g' 0 = 0x0201feef) :
    (Ep2.start.processFrames (store g 0 d.bytes)).toRegisters =
      (Ep2.start.processFrames (store g' 0 d.bytes)).toRegisters := by
  have hregs : (run (receive mac) (.start fun _ => 0) [leftover g]).toRegisters
      = (run (receive mac) (.start fun _ => 0) [leftover g']).toRegisters := by
    rw [run_cons, run_cons, run_nil, run_nil, receive_leftover,
      receive_leftover]
  have hafter := h _ _ _ _ hregs
  rwa [receive_after_leftover hd hmay hg,
    receive_after_leftover hd hmay hg'] at hafter

/-- An EP2 header in front of `g`. -/
def withHeader (g : ℕ → Byte) : ℕ → Byte :=
  store g 0 [0xef, 0xfe, 0x01, 0x02]

theorem word_withHeader (g : ℕ → Byte) : word (withHeader g) 0 = 0x0201feef :=
  (word_eq_ep2_iff _).mpr ⟨rfl, rfl, rfl, rfl⟩

theorem withHeader_of_le (g : ℕ → Byte) {k : ℕ} (hk : 4 ≤ k) :
    withHeader g k = g k :=
  store_of_ge (by simpa using hk) g

/-! ### The last byte of the second frame -/

/-- An EP2 datagram of empty frames, with `x` as the last byte that the second
frame can use. -/
def withLast (x : Byte) : ℕ → Byte :=
  withHeader fun k => if k = 527 then x else 0

theorem command_withLast (x : Byte) :
    command (fun k => store (withLast x) 0 d.bytes (523 + k)) =
      command fun k => d.padded 0 (523 + k) := by
  have hbyte : store (withLast x) 0 d.bytes 523 = d.padded 0 523 := by
    rw [Datagram.padded]
    by_cases hlt : 523 < d.bytes.length
    · exact store_congr_of_lt hlt
    · have hge : 0 + d.bytes.length ≤ 523 := by omega
      rw [store_of_ge hge, store_of_ge hge, withLast,
        withHeader_of_le _ (by decide), if_neg (by decide)]
  rw [command, command]
  exact congrArg (fun b : Byte => (b >>> 1).toNat) hbyte

theorem store_withLast (hlen : d.bytes.length < 528) (x : Byte) :
    store (withLast x) 0 d.bytes (523 + 4) = x := by
  rw [store_of_ge (by omega), withLast, withHeader_of_le _ (by decide),
    if_pos rfl]

theorem processEp2_receivers {s : Ep2} {frame : ℕ → Byte}
    (h : command frame = 0) :
    (s.processEp2 frame).receivers = receiversOf (frame 4) := by
  simp only [Ep2.processEp2, if_pos h, Ep2.setRxRate,
    Ep2.setAdcReg_toRegisters]

theorem processEp2_attPrev {s : Ep2} {frame : ℕ → Byte}
    (h : command frame = 10) :
    (s.processEp2 frame).attPrev = Ep2.attCal (frame 4) := by
  have hatt := Ep2.setAtt_toRegisters s (Ep2.attCal (frame 4))
  simp only [Ep2.processEp2]
  rw [if_neg (by omega), if_neg (by omega), if_pos h, hatt]

/-- The commands 0 and 10 use the last byte. -/
theorem NoHiddenInput.command_ne (h : NoHiddenInput mac d)
    (hd : d.bytes ≠ []) (hmay : d.MayBeEp2) (hlen : d.bytes.length < 528) :
    command (fun k => d.padded 0 (523 + k)) ≠ 0 ∧
      command (fun k => d.padded 0 (523 + k)) ≠ 10 := by
  have hep2 : ∀ x, word (withLast x) 0 = 0x0201feef :=
    fun _ => word_withHeader _
  have hagree := h.agree hd hmay (hep2 0) (hep2 0x48)
  constructor
  · intro hzero
    have hreceivers := congrArg (fun r => r.receivers.val) hagree
    simp only [Ep2.processFrames] at hreceivers
    rw [processEp2_receivers ((command_withLast _).trans hzero),
      processEp2_receivers ((command_withLast _).trans hzero),
      store_withLast hlen, store_withLast hlen] at hreceivers
    exact absurd hreceivers (by decide)
  · intro hten
    have hatt := congrArg (fun r => r.attPrev) hagree
    simp only [Ep2.processFrames] at hatt
    rw [processEp2_attPrev ((command_withLast _).trans hten),
      processEp2_attPrev ((command_withLast _).trans hten),
      store_withLast hlen, store_withLast hlen] at hatt
    exact absurd hatt (by decide)

/-! ### The frequency in the second frame -/

/-- An EP2 datagram with a frequency in its second frame. -/
def withFreq (f : ℕ) : ℕ → Byte :=
  withHeader fun k => BitVec.ofNat 8 (f / 2 ^ (8 * (527 - k)))

/-- A byte of the second frame, received or not. -/
theorem store_withFreq (d : Datagram) (f : ℕ) {k : ℕ} (hk : 4 ≤ k) :
    (k < d.bytes.length ∧
        store (withFreq f) 0 d.bytes k = d.padded 0 k ∧
        d.padded 0xff k = d.padded 0 k) ∨
      (d.bytes.length ≤ k ∧
        store (withFreq f) 0 d.bytes k =
          BitVec.ofNat 8 (f / 2 ^ (8 * (527 - k))) ∧
        d.padded 0 k = 0 ∧ d.padded 0xff k = 0xff) := by
  by_cases hlt : k < d.bytes.length
  · left
    exact ⟨hlt, store_congr_of_lt hlt, store_congr_of_lt hlt⟩
  · right
    have hge : 0 + d.bytes.length ≤ k := by omega
    refine ⟨by omega, ?_, store_of_ge hge _, store_of_ge hge _⟩
    rw [store_of_ge hge, withFreq, withHeader_of_le _ hk]

/-- A datagram completed by a frequency between the bounds of its bytes has
that frequency. -/
theorem requested_withFreq (d : Datagram) {f : ℕ}
    (hlow : requested (fun k => d.padded 0 (523 + k)) ≤ f)
    (hhigh : f ≤ requested fun k => d.padded 0xff (523 + k)) :
    requested (fun k => store (withFreq f) 0 d.bytes (523 + k)) = f := by
  rw [requested_eq] at hlow hhigh ⊢
  simp only [Nat.reduceAdd] at hlow hhigh ⊢
  have hdigits : f = f / 2 ^ 24 % 2 ^ 8 * 2 ^ 24 +
      f / 2 ^ 16 % 2 ^ 8 * 2 ^ 16 + f / 2 ^ 8 % 2 ^ 8 * 2 ^ 8 + f % 2 ^ 8 :=
    eq_bytes (by omega)
  have h1 := store_withFreq d f (k := 524) (by decide)
  have h2 := store_withFreq d f (k := 525) (by decide)
  have h3 := store_withFreq d f (k := 526) (by decide)
  have h4 := store_withFreq d f (k := 527) (by decide)
  simp only [← BitVec.toNat_inj, BitVec.toNat_ofNat, Nat.reduceSub,
    Nat.reduceMul, BitVec.reduceToNat, Nat.pow_zero, Nat.div_one] at h1 h2 h3 h4
  generalize f / 2 ^ 24 % 2 ^ 8 = f1 at *
  generalize f / 2 ^ 16 % 2 ^ 8 = f2 at *
  generalize f / 2 ^ 8 % 2 ^ 8 = f3 at *
  generalize f % 2 ^ 8 = f4 at *
  omega

/-- The last byte of the frequency was not received. -/
theorem requested_padded (hlen : d.bytes.length < 528) :
    requested (fun k => d.padded 0 (523 + k)) % 256 = 0 ∧
      requested (fun k => d.padded 0 (523 + k)) + 255 ≤
        requested (fun k => d.padded 0xff (523 + k)) ∧
      requested (fun k => d.padded 0xff (523 + k)) % 256 = 255 := by
  have h1 := store_withFreq d 0 (k := 524) (by decide)
  have h2 := store_withFreq d 0 (k := 525) (by decide)
  have h3 := store_withFreq d 0 (k := 526) (by decide)
  have hge : 0 + d.bytes.length ≤ 527 := by omega
  have hlow : d.padded 0 527 = 0 := store_of_ge hge _
  have hhigh : d.padded 0xff 527 = 0xff := store_of_ge hge _
  rw [requested_eq, requested_eq]
  simp only [← BitVec.toNat_inj, BitVec.reduceToNat, Nat.reduceAdd]
    at h1 h2 h3 hlow hhigh ⊢
  omega

/-- The phase increment of a channel after a datagram that leaves the frequency
in its second frame open. -/
theorem phases_withFreq (hlen : 524 ≤ d.bytes.length) {ch : Channel}
    (hch : command (fun k => d.padded 0 (523 + k)) = ch + 2) {f : ℕ}
    (hlow : requested (fun k => d.padded 0 (523 + k)) ≤ f)
    (hhigh : f ≤ requested fun k => d.padded 0xff (523 + k)) :
    (Ep2.start.processFrames (store (withFreq f) 0 d.bytes)).phases ch =
      if freqMin.toNat ≤ f ∧ f ≤ freqMax.toNat then freq2Phase f
      else (Ep2.start.processEp2 fun k => d.padded 0 (11 + k)).phases ch := by
  have hrequested := requested_withFreq d hlow hhigh
  have hcommand : command (fun k => store (withFreq f) 0 d.bytes (523 + k)) =
      ch + 2 := by
    rw [← hch, command, command, Datagram.padded,
      store_congr_of_lt (show 523 + 0 < d.bytes.length by omega)]
  have hfirst := congrArg (fun r => r.phases ch)
    (Ep2.processEp2_toRegisters_congr (s := Ep2.start) rfl
      fun k hk => (store_congr_of_lt (by omega) :
        store (withFreq f) 0 d.bytes (11 + k) = d.padded 0 (11 + k)))
  have htunes : Tunes ch (fun k => store (withFreq f) 0 d.bytes (523 + k)) ↔
      freqMin.toNat ≤ f ∧ f ≤ freqMax.toNat := by
    rw [Tunes, hcommand, hrequested]
    exact and_iff_right rfl
  rw [Ep2.processFrames, Ep2.phases_processEp2, if_congr htunes rfl rfl,
    hrequested, hfirst]
  rfl

theorem NoHiddenInput.secondSettled (h : NoHiddenInput mac d)
    (hd : d.bytes ≠ []) (hmay : d.MayBeEp2) (hlen : 524 ≤ d.bytes.length)
    (hshort : d.bytes.length < 528) : d.SecondSettled := by
  obtain ⟨hzero, hten⟩ := h.command_ne hd hmay hshort
  refine ⟨hzero, hten, fun ch hch => ?_⟩
  obtain ⟨hlow, hgap, hhigh⟩ := requested_padded hshort
  have hep2 : ∀ f, word (withFreq f) 0 = 0x0201feef :=
    fun _ => word_withHeader _
  have hphases : ∀ f g,
      requested (fun k => d.padded 0 (523 + k)) ≤ f → f ≤ g →
      g ≤ requested (fun k => d.padded 0xff (523 + k)) →
      (if freqMin.toNat ≤ f ∧ f ≤ freqMax.toNat then freq2Phase f
        else (Ep2.start.processEp2 fun k => d.padded 0 (11 + k)).phases ch) =
      if freqMin.toNat ≤ g ∧ g ≤ freqMax.toNat then freq2Phase g
        else (Ep2.start.processEp2 fun k => d.padded 0 (11 + k)).phases ch := by
    intro f g hf hfg hg
    rw [← phases_withFreq hlen hch hf (hfg.trans hg),
      ← phases_withFreq hlen hch (hf.trans hfg) hg]
    exact congrArg (fun r => r.phases ch) (h.agree hd hmay (hep2 f) (hep2 g))
  by_contra hnot
  rw [not_or, not_or, not_lt, not_lt] at hnot
  obtain ⟨hbelow, habove, htop⟩ := hnot
  have hmin : freqMin.toNat = 1000 := rfl
  have hmax : freqMax.toNat = 61440000 := rfl
  rcases Nat.eq_or_lt_of_le hbelow with heq | hlt
  · -- above the largest frequency the channel keeps what it had
    have hkept := hphases freqMax.toNat (freqMax.toNat + 1) heq.le (by omega)
      (by omega)
    rw [if_pos (by omega), if_neg (by omega), Ep2.phases_processEp2] at hkept
    split_ifs at hkept with hfirst
    · exact htop ⟨heq, hfirst, hkept.symm⟩
    · exact freq2Phase_ne le_rfl (by omega : 7100000 + 9 ≤ freqMax.toNat)
        hkept.symm
  · -- two frequencies in range have different increments
    obtain ⟨f, hf, hfmin, hg, hgmax⟩ : ∃ f,
        requested (fun k => d.padded 0 (523 + k)) ≤ f ∧
          freqMin.toNat ≤ f ∧
          f + 9 ≤ requested (fun k => d.padded 0xff (523 + k)) ∧
          f + 9 ≤ freqMax.toNat := by
      by_cases hsmall : requested (fun k => d.padded 0 (523 + k)) < 1000
      · exact ⟨1000, hsmall.le, le_rfl, by omega, by omega⟩
      · exact ⟨_, le_rfl, by omega, by omega, by omega⟩
    have hsame := hphases f (f + 9) hf (by omega) hg
    rw [if_pos (by omega), if_pos (by omega)] at hsame
    exact freq2Phase_ne hgmax le_rfl hsame

/-- A datagram that may be an EP2 datagram is settled if it hides nothing. -/
theorem NoHiddenInput.settled (h : NoHiddenInput mac d)
    (hd : d.bytes ≠ []) : d.Settled := by
  by_cases hmay : d.MayBeEp2
  · by_cases hfull : 528 ≤ d.bytes.length
    · exact Or.inr (Or.inl hfull)
    · have hlen : 524 ≤ d.bytes.length := by
        by_contra hshort
        refine (h.command_ne hd hmay (by omega)).1 ?_
        rw [command, Datagram.padded, store_of_ge (by omega)]
        rfl
      exact Or.inr (Or.inr
        ⟨hlen, h.secondSettled hd hmay hlen (by omega)⟩)
  · exact Or.inl hmay

end TwoHistories

/-! ## The hidden input -/

/-- The registers after a datagram follow from those before it exactly if all
bytes that the server uses were received. -/
theorem noHiddenInput_iff (mac : Fin 6 → Byte) {d : Datagram}
    (hd : d.bytes ≠ []) : NoHiddenInput mac d ↔ d.Settled := by
  constructor
  · intro h
    exact h.settled hd
  · intro h buffer₁ buffer₂ past₁ past₂ hregs
    rw [run_append, run_append, run_cons, run_cons, run_nil, run_nil]
    exact h.receive_congr hregs

/-- A datagram of 1032 zeros but for its header. -/
def fullDatagram : Datagram where
  bytes := [0xef, 0xfe, 0x01, 0x02] ++ List.replicate 1028 0
  le := by
    rw [List.length_append, List.length_replicate]
    rfl

theorem noHiddenInput_fullDatagram :
    NoHiddenInput (fun _ => 0) fullDatagram := by
  have hne : fullDatagram.bytes ≠ [] := List.cons_ne_nil _ _
  refine (noHiddenInput_iff _ hne).mpr (Or.inr (Or.inl ?_))
  rw [fullDatagram, List.length_append, List.length_replicate]
  decide

/-- The header alone. -/
def headerDatagram : Datagram where
  bytes := [0xef, 0xfe, 0x01, 0x02]
  le := by decide

/-- Four bytes make the server process what an earlier datagram has left. -/
theorem not_noHiddenInput_headerDatagram :
    ¬NoHiddenInput (fun _ => 0) headerDatagram := by
  intro h
  rcases h.settled (List.cons_ne_nil _ _) with hno | hlen | ⟨hlen, -⟩
  · exact hno List.prefix_rfl
  · exact absurd hlen (by decide)
  · exact absurd hlen (by decide)

end RedPitayaNotes.SdrReceiverHpsdr
