import Mathlib.Algebra.BigOperators.Group.List.Basic
import RedPitayaNotes.HfdlReceiver.Client

/-!
# Stream integrity of the HFDL clients

The queue of a client is the window between its cursors.  In every run the
bytes sent so far and the bytes queued are together a concatenation of whole
chunks, those that were not dropped; a drop only takes chunks off its end that
`send()` has not begun.
-/

namespace RedPitayaNotes.HfdlReceiver

open Bits Memory RingQueue

/-! ## The copy loop -/

theorem chunkChannelBytes_eq : chunkChannelBytes = 1024 := rfl

theorem copyLoop_eq (emit : ℕ → List Byte) (target : ℕ) {k n : ℕ}
    (hin : n = 0 ∨ k + numchans * (n - 1) < chunkBytes / sampleSize)
    (hout : chunkBytes / sampleSize ≤ k + numchans * n)
    (t : ℕ) (sendq : ℕ → Byte) :
    copyLoop emit target k t sendq =
      (store sendq (target + t) ((List.range' k n numchans).flatMap emit),
        t + ((List.range' k n numchans).flatMap emit).length) := by
  induction n generalizing k t sendq with
  | zero =>
      rw [copyLoop, if_neg (by omega)]
      simp
  | succ n ih =>
      rw [Nat.add_sub_cancel] at hin
      rw [Nat.mul_succ] at hout
      have hmore : n = 0 ∨
          k + numchans + numchans * (n - 1) < chunkBytes / sampleSize := by
        cases n with
        | zero => exact Or.inl rfl
        | succ n =>
            rw [Nat.mul_succ] at hin
            rw [Nat.add_sub_cancel]
            omega
      rw [copyLoop, if_pos (by omega), ih hmore (by omega)]
      rw [List.range'_succ, List.flatMap_cons, ← Nat.add_assoc, store_store,
        List.length_append, Nat.add_assoc]

theorem length_emit (format : Format) (buffer : ℕ → BitVec 32) (k : ℕ) :
    (format.emit buffer k).length = format.chunkSize / 256 := by
  cases format <;>
    simp [Format.emit, wordBytes, Format.chunkSize, chunkChannelBytes_eq]

theorem length_chunk (format : Format) (channel : ℕ)
    (buffer : ℕ → BitVec 32) :
    (chunk format channel buffer).length = format.chunkSize := by
  rw [chunk, List.length_flatMap]
  simp only [length_emit]
  rw [List.map_const', List.sum_replicate_nat, List.length_range']
  cases format <;> rfl

/-- The loop of `main` writes the chunk at the write cursor. -/
theorem copyLoop_chunk (format : Format) {channel : ℕ}
    (hchannel : channel < numchans) (buffer : ℕ → BitVec 32) (target : ℕ)
    (sendq : ℕ → Byte) :
    copyLoop (fun k => format.emit buffer k) target channel 0 sendq =
      (store sendq target (chunk format channel buffer), format.chunkSize) := by
  have hchans : numchans = 13 := rfl
  have hsamples : chunkBytes / sampleSize = 3328 := rfl
  have hloop := copyLoop_eq (fun k => format.emit buffer k) target
    (k := channel) (n := 256) (by omega) (by omega) 0 sendq
  rw [hloop, Nat.zero_add, Nat.add_zero]
  exact congrArg _ (length_chunk format channel buffer)

/-! ## The ring buffer -/

namespace Client

variable {c : Client}

theorem sendqLen_eq_used (c : Client) :
    c.sendqLen = used c.sendqMax c.sendqStart c.sendqEnd := rfl

/-- The bytes waiting to be sent, oldest first. -/
def queued (c : Client) : List Byte :=
  window c.sendqMax c.sendq c.sendqStart c.sendqLen

@[simp] theorem length_queued (c : Client) :
    c.queued.length = c.sendqLen :=
  length_window _ _ _ _

/-- What holds whenever no function of the queue is running. -/
structure Sound (c : Client) : Prop where
  large : 8192 ≤ c.sendqMax
  max_dvd : chunkChannelBytes ∣ c.sendqMax
  start_lt : c.sendqStart < c.sendqMax
  end_lt : c.sendqEnd < c.sendqMax
  end_dvd : c.format.chunkSize ∣ c.sendqEnd
  room : c.sendqLen + 2 * chunkChannelBytes < c.sendqMax
  channel_lt : c.channel < numchans

theorem dropBytes_le (c : Client) : c.dropBytes ≤ c.sendqMax / 2 :=
  Nat.div_mul_le_self _ _

theorem chunkSize_dvd (format : Format) :
    format.chunkSize ∣ chunkChannelBytes := by
  cases format <;> decide

theorem chunkSize_le (format : Format) :
    format.chunkSize ≤ chunkChannelBytes :=
  Nat.le_of_dvd (by decide) (chunkSize_dvd format)

theorem chunkSize_pos (format : Format) : 0 < format.chunkSize := by
  cases format <;> decide

/-- The bytes left of `n` once `normalizeSendq` has made room. -/
def retained (c : Client) (n : ℕ) : ℕ :=
  if n + 2 * chunkChannelBytes ≥ c.sendqMax then n - c.dropBytes else n

theorem retained_le (c : Client) (n : ℕ) : c.retained n ≤ n := by
  unfold retained
  split <;> omega

theorem retained_of_lt {n : ℕ} (h : n + 2 * chunkChannelBytes < c.sendqMax) :
    c.retained n = n :=
  if_neg (by omega)

theorem wrapEnd_eq (h : c.sendqEnd ≤ c.sendqMax) :
    c.wrapEnd = { c with sendqEnd := c.sendqEnd % c.sendqMax } := by
  unfold wrapEnd
  split
  next hend => rw [hend, Nat.mod_self]
  next hend => rw [Nat.mod_eq_of_lt (by omega)]

theorem wrapStart_eq (h : c.sendqStart ≤ c.sendqMax) :
    c.wrapStart = { c with sendqStart := c.sendqStart % c.sendqMax } := by
  unfold wrapStart
  split
  next hstart => rw [hstart, Nat.mod_self]
  next hstart => rw [Nat.mod_eq_of_lt (by omega)]

/-- Moving the write cursor back drops from the end of the queue. -/
theorem dropHalf_eq {n : ℕ} (hend : (c.sendqStart + n) % c.sendqMax = c.sendqEnd)
    (hdrop : c.dropBytes ≤ n) (hn : n < c.sendqMax)
    (hstart : c.sendqStart < c.sendqMax) :
    c.dropHalf =
      { c with
        bytesDropped := c.bytesDropped + c.dropBytes
        sendqEnd := (c.sendqStart + (n - c.dropBytes)) % c.sendqMax } := by
  have hcursor : (if (c.sendqEnd : ℤ) - c.dropBytes < 0
        then (c.sendqEnd : ℤ) - c.dropBytes + c.sendqMax
        else (c.sendqEnd : ℤ) - c.dropBytes).toNat =
      (c.sendqStart + (n - c.dropBytes)) % c.sendqMax := by
    by_cases hwrap : c.sendqStart + n < c.sendqMax
    · rw [Nat.mod_eq_of_lt hwrap] at hend
      rw [Nat.mod_eq_of_lt (by omega), if_neg (by omega)]
      omega
    · rw [Nat.mod_eq_sub_mod (by omega), Nat.mod_eq_of_lt (by omega)] at hend
      by_cases hback : c.sendqStart + (n - c.dropBytes) < c.sendqMax
      · rw [Nat.mod_eq_of_lt hback]
        split <;> omega
      · rw [Nat.mod_eq_sub_mod (by omega), Nat.mod_eq_of_lt (by omega),
          if_neg (by omega)]
        omega
  simp only [dropHalf, hcursor]

theorem normalizeSendq_of_le (hstart : c.sendqStart ≤ c.sendqMax)
    (hend : c.sendqEnd ≤ c.sendqMax) :
    c.normalizeSendq =
      let d : Client :=
        { c with
          sendqStart := c.sendqStart % c.sendqMax
          sendqEnd := c.sendqEnd % c.sendqMax }
      some (if d.sendqLen + 2 * chunkChannelBytes ≥ d.sendqMax then d.dropHalf
        else d) := by
  rw [normalizeSendq, if_neg (Nat.not_lt.mpr hend), wrapEnd_eq hend]
  dsimp only
  rw [if_neg (Nat.not_lt.mpr hstart), wrapStart_eq]
  exact hstart

/-- With `n` bytes between the cursors, either of which may be at the end of
the buffer, `normalizeSendq` does not exit and keeps the first `retained n`. -/
theorem normalizeSendq_eq {n : ℕ} (hlarge : 8192 ≤ c.sendqMax)
    (hstart : c.sendqStart ≤ c.sendqMax) (hend : c.sendqEnd ≤ c.sendqMax)
    (hn : n < c.sendqMax)
    (hfill : (c.sendqStart + n) % c.sendqMax = c.sendqEnd % c.sendqMax) :
    ∃ dropped, c.normalizeSendq = some
      { c with
        sendqStart := c.sendqStart % c.sendqMax
        sendqEnd := (c.sendqStart + c.retained n) % c.sendqMax
        bytesDropped := dropped } := by
  have hmod : c.sendqStart % c.sendqMax < c.sendqMax :=
    Nat.mod_lt _ (by omega)
  have hfill' : (c.sendqStart % c.sendqMax + n) % c.sendqMax =
      c.sendqEnd % c.sendqMax := by
    rw [Nat.mod_add_mod, hfill]
  have hlen : used c.sendqMax (c.sendqStart % c.sendqMax)
      (c.sendqEnd % c.sendqMax) = n :=
    used_eq hmod hn hfill'
  have hchunk := chunkChannelBytes_eq
  rw [normalizeSendq_of_le hstart hend]
  simp only [sendqLen_eq_used, hlen]
  by_cases hfull : n + 2 * chunkChannelBytes ≥ c.sendqMax
  · have hdrop : c.dropBytes ≤ n := by
      have := c.dropBytes_le
      omega
    rw [if_pos hfull, dropHalf_eq (n := n)
      (c := { c with
        sendqStart := c.sendqStart % c.sendqMax
        sendqEnd := c.sendqEnd % c.sendqMax })
      hfill' hdrop hn hmod]
    refine ⟨c.bytesDropped + c.dropBytes, ?_⟩
    simp only [retained, if_pos hfull, Nat.mod_add_mod]
    rfl
  · refine ⟨c.bytesDropped, ?_⟩
    rw [if_neg hfull, retained_of_lt (by omega), hfill]

/-! ## One call on a sound queue -/

namespace Sound

theorem start_add_len (h : c.Sound) :
    (c.sendqStart + c.sendqLen) % c.sendqMax = c.sendqEnd :=
  add_used_mod h.start_lt h.end_lt

theorem chunkSize_dvd_max (h : c.Sound) : c.format.chunkSize ∣ c.sendqMax :=
  (chunkSize_dvd c.format).trans h.max_dvd

/-- The copy loop of `main` needs no wrap. -/
theorem end_add_chunkSize_le (h : c.Sound) :
    c.sendqEnd + c.format.chunkSize ≤ c.sendqMax :=
  Nat.le_of_lt_add_of_dvd (Nat.add_lt_add_right h.end_lt _)
    (Nat.dvd_add h.end_dvd dvd_rfl) h.chunkSize_dvd_max

theorem retained_add_lt (h : c.Sound) {n : ℕ}
    (hn : n + chunkChannelBytes < c.sendqMax) :
    c.retained n + 2 * chunkChannelBytes < c.sendqMax := by
  have hlarge := h.large
  rw [chunkChannelBytes_eq] at hn ⊢
  unfold retained dropBytes
  rw [chunkChannelBytes_eq]
  split <;> omega

/-- A drop leaves two chunks and takes whole chunks only. -/
theorem retained_cases (h : c.Sound) {n : ℕ}
    (hn : c.format.chunkSize ≤ n) :
    c.format.chunkSize ≤ c.retained n ∧
      c.format.chunkSize ∣ n - c.retained n := by
  have hlarge := h.large
  have hsmall := chunkSize_le c.format
  have hdvd : c.format.chunkSize ∣ c.dropBytes :=
    (chunkSize_dvd c.format).trans (Nat.dvd_mul_left _ _)
  have hdrop := c.dropBytes_le
  rw [chunkChannelBytes_eq] at hsmall
  unfold retained
  rw [chunkChannelBytes_eq]
  split
  next hfull =>
    rw [Nat.sub_sub_self (by omega)]
    exact ⟨by omega, hdvd⟩
  next =>
    rw [Nat.sub_self]
    exact ⟨hn, Nat.dvd_zero _⟩

/-- A drop of whole chunks leaves the write cursor between two chunks. -/
theorem cursor_dvd (h : c.Sound) {r : ℕ}
    (hr : r ≤ c.sendqLen + c.format.chunkSize)
    (hdvd : c.format.chunkSize ∣ c.sendqLen + c.format.chunkSize - r) :
    c.format.chunkSize ∣ c.sendqStart + r := by
  have hend : c.format.chunkSize ∣ c.sendqStart + c.sendqLen := by
    rw [← Nat.dvd_mod_iff h.chunkSize_dvd_max, h.start_add_len]
    exact h.end_dvd
  have hsum : c.sendqStart + r + (c.sendqLen + c.format.chunkSize - r) =
      c.sendqStart + c.sendqLen + c.format.chunkSize := by
    omega
  exact (Nat.dvd_add_left hdvd).mp (hsum ▸ Nat.dvd_add hend dvd_rfl)

/-- A write cursor that leaves `n` bytes in the queue. -/
theorem fill {n : ℕ} (h : c.Sound) (hn : n + 2 * chunkChannelBytes < c.sendqMax)
    (hdvd : c.format.chunkSize ∣ c.sendqStart + n) (sendq : ℕ → Byte)
    (dropped : ℕ) :
    let d : Client :=
      { c with
        sendq
        sendqEnd := (c.sendqStart + n) % c.sendqMax
        bytesDropped := dropped }
    d.Sound ∧ d.sendqLen = n := by
  have hlen : used c.sendqMax c.sendqStart
      ((c.sendqStart + n) % c.sendqMax) = n :=
    used_add_mod h.start_lt (by omega)
  refine ⟨⟨h.large, h.max_dvd, h.start_lt, ?_, ?_, ?_, h.channel_lt⟩, hlen⟩
  · exact Nat.mod_lt _ (Nat.zero_lt_of_lt h.start_lt)
  · exact (Nat.dvd_mod_iff h.chunkSize_dvd_max).mpr hdvd
  · exact lt_of_eq_of_lt (congrArg (· + _) hlen) hn

theorem appendChunk_eq (h : c.Sound) (buffer : ℕ → BitVec 32) :
    ∃ dropped, c.appendChunk buffer = some
      { c with
        sendq := store c.sendq c.sendqEnd (chunk c.format c.channel buffer)
        sendqEnd := (c.sendqStart +
          c.retained (c.sendqLen + c.format.chunkSize)) % c.sendqMax
        bytesDropped := dropped } := by
  have hsmall := chunkSize_le c.format
  have hroom := h.room
  obtain ⟨dropped, hnormal⟩ := normalizeSendq_eq
    (n := c.sendqLen + c.format.chunkSize)
    (c := { c with
      sendq := store c.sendq c.sendqEnd (chunk c.format c.channel buffer)
      sendqEnd := c.sendqEnd + c.format.chunkSize })
    h.large (le_of_lt h.start_lt) h.end_add_chunkSize_le
    (show _ < c.sendqMax by omega)
    (by rw [← Nat.add_assoc, Nat.add_mod, h.start_add_len, Nat.add_mod_mod])
  refine ⟨dropped, ?_⟩
  rw [appendChunk, copyLoop_chunk c.format h.channel_lt]
  dsimp only
  rw [if_neg (not_not_intro rfl), hnormal]
  simp only [Nat.mod_eq_of_lt h.start_lt]
  rfl

theorem toWrite_le (h : c.Sound) (limit : ℕ) :
    c.toWrite limit ≤ c.sendqLen ∧
      c.sendqStart + c.toWrite limit ≤ c.sendqMax := by
  have hstart := h.start_lt
  unfold toWrite
  dsimp only
  constructor <;> split <;> split <;> omega

/-- Moving the read cursor over queued bytes drops nothing. -/
theorem normalizeSendq_advance (h : c.Sound) {k : ℕ} (hk : k ≤ c.sendqLen)
    (hfit : c.sendqStart + k ≤ c.sendqMax) :
    ∃ dropped,
      normalizeSendq { c with sendqStart := c.sendqStart + k } = some
        { c with
          sendqStart := (c.sendqStart + k) % c.sendqMax
          bytesDropped := dropped } := by
  have hroom := h.room
  have hrest : c.sendqStart + k + (c.sendqLen - k) =
      c.sendqStart + c.sendqLen := by
    omega
  have hkeep : retained { c with sendqStart := c.sendqStart + k }
      (c.sendqLen - k) = c.sendqLen - k :=
    retained_of_lt (show _ < c.sendqMax by omega)
  obtain ⟨dropped, hnormal⟩ := normalizeSendq_eq (n := c.sendqLen - k)
    (c := { c with sendqStart := c.sendqStart + k })
    h.large hfit (le_of_lt h.end_lt) (show _ < c.sendqMax by omega)
    (by rw [hrest, h.start_add_len, Nat.mod_eq_of_lt h.end_lt])
  refine ⟨dropped, hnormal.trans ?_⟩
  simp only [hkeep, hrest, h.start_add_len]

/-- `flushClient` leaves the client, or moves the read cursor over the bytes
that `send()` took. -/
theorem flushClient_cases (h : c.Sound) (min limit : ℕ)
    (send : (n : ℕ) → SendResult n) (now : ℤ) :
    ∃ c' bytesWritten, c.flushClient min limit send now =
        some (c', bytesWritten) ∧
      (c' = c ∧ bytesWritten ≤ 0 ∨
        ∃ k dropped, bytesWritten = (k : ℕ) ∧ k ≤ c.toWrite limit ∧
          c' = { c with
            sendqStart := (c.sendqStart + k) % c.sendqMax
            bytesDropped := dropped
            lastProgress := now }) := by
  unfold flushClient
  split
  next => exact ⟨c, 0, rfl, Or.inl ⟨rfl, le_rfl⟩⟩
  next =>
    split
    next => exact ⟨c, -2, rfl, Or.inl ⟨rfl, by decide⟩⟩
    next => exact ⟨c, -1, rfl, Or.inl ⟨rfl, by decide⟩⟩
    next bytesWritten _ =>
      by_cases hpos : bytesWritten.val > 0
      · have hbytes : bytesWritten.val ≤ c.toWrite limit :=
          Nat.le_of_lt_succ bytesWritten.isLt
        obtain ⟨hlen, hfit⟩ := h.toWrite_le limit
        obtain ⟨dropped, hnormal⟩ := h.normalizeSendq_advance
          (hbytes.trans hlen) (by omega)
        rw [if_pos hpos, hnormal]
        exact ⟨_, _, rfl, Or.inr ⟨bytesWritten.val, dropped, rfl, hbytes, rfl⟩⟩
      · rw [if_neg hpos]
        exact ⟨c, _, rfl, Or.inl ⟨rfl, by omega⟩⟩

theorem queued_append (h : c.Sound) {xs : List Byte} {n : ℕ}
    (hxs : xs.length = c.format.chunkSize)
    (hn : n ≤ c.sendqLen + c.format.chunkSize) :
    window c.sendqMax (store c.sendq c.sendqEnd xs) c.sendqStart n =
      (c.queued ++ xs).take n := by
  have hsmall := chunkSize_le c.format
  have hroom := h.room
  have hpush : window c.sendqMax (store c.sendq c.sendqEnd xs) c.sendqStart
      (c.sendqLen + xs.length) = _ ++ xs :=
    window_push h.start_lt h.start_add_len (hxs ▸ h.end_add_chunkSize_le)
      (by omega)
  rw [queued, ← hpush, take_window (by omega)]

/-- The bytes at the read cursor come first. -/
theorem queued_advance (h : c.Sound) {k : ℕ} (hk : k ≤ c.sendqLen)
    (hfit : c.sendqStart + k ≤ c.sendqMax) (dropped : ℕ) (now : ℤ) :
    let d : Client :=
      { c with
        sendqStart := (c.sendqStart + k) % c.sendqMax
        bytesDropped := dropped
        lastProgress := now }
    d.Sound ∧ c.queued = read c.sendq c.sendqStart k ++ d.queued := by
  have hpos : 0 < c.sendqMax := Nat.zero_lt_of_lt h.start_lt
  have hroom := h.room
  have hlen : used c.sendqMax ((c.sendqStart + k) % c.sendqMax) c.sendqEnd =
      c.sendqLen - k := by
    apply used_eq (Nat.mod_lt _ hpos) (by omega)
    rw [Nat.mod_add_mod, Nat.add_assoc, Nat.add_sub_cancel' hk,
      h.start_add_len]
  refine ⟨⟨h.large, h.max_dvd, Nat.mod_lt _ hpos, h.end_lt, h.end_dvd, ?_,
    h.channel_lt⟩, ?_⟩
  · refine lt_of_eq_of_lt (congrArg (· + _) hlen) ?_
    exact lt_of_le_of_lt (Nat.add_le_add_right (Nat.sub_le _ _) _) hroom
  · simp only [queued, sendqLen_eq_used, hlen]
    rw [← sendqLen_eq_used, window_split hk, window_eq_read hfit]

theorem of_fd (h : c.Sound) (fd : Option ℕ) : Sound { c with fd } :=
  ⟨h.large, h.max_dvd, h.start_lt, h.end_lt, h.end_dvd, h.room, h.channel_lt⟩

end Sound

/-- An empty queue is sound. -/
theorem sound_of_empty (hlarge : 8192 ≤ c.sendqMax)
    (hdvd : chunkChannelBytes ∣ c.sendqMax) (hstart : c.sendqStart = 0)
    (hend : c.sendqEnd = 0) (hchannel : c.channel < numchans) : c.Sound := by
  refine ⟨hlarge, hdvd, ?_, ?_, ?_, ?_, hchannel⟩
  · omega
  · omega
  · rw [hend]
    exact Nat.dvd_zero _
  · rw [sendqLen, hstart, hend, if_pos le_rfl, chunkChannelBytes_eq]
    omega

/-- The bytes `flushClient` hands to `send()`. -/
def offered (c : Client) (limit : ℕ) : List Byte :=
  read c.sendq c.sendqStart (c.toWrite limit)

theorem Sound.offered_isPrefix (h : c.Sound) (limit : ℕ) :
    c.offered limit <+: c.queued := by
  obtain ⟨hlen, hfit⟩ := h.toWrite_le limit
  rw [queued, window_split hlen, window_eq_read hfit]
  exact List.prefix_append _ _

end Client

/-! ## The books of a run -/

/-- Taking lists of one length takes a multiple of it from the concatenation. -/
theorem flatten_take {α : Type*} {xss : List (List α)} {size : ℕ}
    (hsize : ∀ xs ∈ xss, xs.length = size) {n : ℕ} (hn : n ≤ xss.length) :
    (xss.take n).flatten = xss.flatten.take (n * size) := by
  have hlengths : xss.map List.length = List.replicate xss.length size :=
    List.eq_replicate_iff.mpr ⟨by simp, by simpa using hsize⟩
  rw [← List.take_sum_flatten, hlengths, List.take_replicate,
    List.sum_replicate_nat, Nat.min_eq_left hn]

namespace Session

/-- What the client gets is the concatenation of `kept`, some of the chunks
appended. -/
structure Carries (s : Session) (kept : List (List Byte)) : Prop where
  sublist : kept.Sublist s.appended
  sent : s.sent <+: kept.flatten

/-- `kept` are the chunks not dropped.  The chunks of `base` are the first of
them, and some of the bytes of each have been sent. -/
structure Books (base kept : List (List Byte)) (s : Session) : Prop where
  sound : s.client.Sound
  sublist : kept.Sublist s.appended
  whole : ∀ xs ∈ s.appended, xs.length = s.client.format.chunkSize
  flatten : kept.flatten = s.sent ++ s.client.queued
  held : base <+: kept
  begun : base.length * s.client.format.chunkSize <
    s.sent.length + s.client.format.chunkSize

namespace Books

variable {base kept : List (List Byte)} {s : Session}

theorem length_kept (h : Books base kept s) :
    kept.length * s.client.format.chunkSize =
      s.sent.length + s.client.sendqLen := by
  have hwhole : kept.map List.length =
      List.replicate kept.length s.client.format.chunkSize :=
    List.eq_replicate_iff.mpr ⟨by simp, by
      simpa using fun xs hxs => h.whole xs (h.sublist.subset hxs)⟩
  have hlen := congrArg List.length h.flatten
  rwa [List.length_flatten, hwhole, List.sum_replicate_nat,
    List.length_append, Client.length_queued] at hlen

theorem start {c : Client} (h : c.Sound) (hempty : c.sendqLen = 0) :
    Books [] [] (start c) where
  sound := h
  sublist := List.Sublist.refl _
  whole := by simp [Session.start]
  flatten := by
    rw [Session.start, Client.queued, hempty]
    rfl
  held := List.prefix_rfl
  begun := by simpa [Session.start] using Client.chunkSize_pos c.format

/-- What a drop leaves is a number of whole chunks, enough for `base`. -/
theorem exists_take_length (h : Books base kept s) {n r : ℕ}
    (hn : n = s.client.sendqLen + s.client.format.chunkSize) (hle : r ≤ n)
    (hroom : s.client.format.chunkSize ≤ r)
    (hdvd : s.client.format.chunkSize ∣ n - r) :
    ∃ m ≤ kept.length + 1, base.length ≤ m ∧
      m * s.client.format.chunkSize = s.sent.length + r := by
  obtain ⟨e, he⟩ := hdvd
  have hkept := h.length_kept
  have hbegun := h.begun
  have hpos := Client.chunkSize_pos s.client.format
  generalize s.client.format.chunkSize = size at *
  have htotal : (kept.length + 1) * size = s.sent.length + r + e * size := by
    rw [Nat.add_one_mul, hkept, Nat.mul_comm e]
    omega
  have hfit : (kept.length + 1 - e) * size = s.sent.length + r := by
    rw [Nat.sub_mul, htotal, Nat.add_sub_cancel]
  refine ⟨kept.length + 1 - e, Nat.sub_le _ _, ?_, hfit⟩
  have hlt : base.length * size < (kept.length + 1 - e) * size := by
    omega
  exact le_of_lt (Nat.lt_of_mul_lt_mul_right hlt)

/-- A drop takes whole chunks off the end, none of those begun. -/
theorem append (h : Books base kept s) (buffer : ℕ → BitVec 32) :
    ∃ s' kept', s.step (.append buffer) = some s' ∧ Books base kept' s' := by
  obtain ⟨dropped, happend⟩ := h.sound.appendChunk_eq buffer
  have hlen := length_chunk s.client.format s.client.channel buffer
  have hsmall := Client.chunkSize_le s.client.format
  have hsoundRoom := h.sound.room
  obtain ⟨hroom, hdvd⟩ := h.sound.retained_cases
    (Nat.le_add_left s.client.format.chunkSize s.client.sendqLen)
  have hle := s.client.retained_le
    (s.client.sendqLen + s.client.format.chunkSize)
  have hlt := h.sound.retained_add_lt
    (n := s.client.sendqLen + s.client.format.chunkSize) (by omega)
  obtain ⟨m, hm, hbase, hcount⟩ := h.exists_take_length rfl hle hroom hdvd
  generalize s.client.retained
    (s.client.sendqLen + s.client.format.chunkSize) = r at *
  generalize hxs : chunk s.client.format s.client.channel buffer = xs at *
  obtain ⟨hsound, hfill⟩ := h.sound.fill hlt (h.sound.cursor_dvd hle hdvd)
    (store s.client.sendq s.client.sendqEnd xs) dropped
  have hwhole : ∀ ys ∈ s.appended ++ [xs],
      ys.length = s.client.format.chunkSize := by
    rw [List.forall_mem_append, List.forall_mem_singleton]
    exact ⟨h.whole, hlen⟩
  have hsub : (kept ++ [xs]).Sublist (s.appended ++ [xs]) :=
    h.sublist.append (List.Sublist.refl _)
  refine ⟨_, (kept ++ [xs]).take m, by rw [step, happend, hxs]; rfl, hsound,
    (List.take_sublist _ _).trans hsub, hwhole, ?_, ?_, ?_⟩
  · rw [flatten_take (fun ys hys => hwhole ys (hsub.subset hys)) (by simpa),
      List.flatten_append, h.flatten, List.flatten_singleton, hcount,
      List.append_assoc, List.take_length_add_append]
    simp only [Client.queued, hfill]
    rw [h.sound.queued_append hlen hle]
    rfl
  · rw [List.prefix_take_iff]
    exact ⟨h.held.trans (List.prefix_append _ _), hbase⟩
  · exact h.begun

theorem flush (h : Books base kept s) (min limit : ℕ)
    (send : (n : ℕ) → SendResult n) (now : ℤ) :
    ∃ s', s.step (.flush min limit send now) = some s' ∧
      Books base kept s' := by
  obtain ⟨c', bytesWritten, hflush, hcases⟩ :=
    h.sound.flushClient_cases min limit send now
  refine ⟨_, by rw [step, hflush]; rfl, ?_⟩
  rcases hcases with ⟨rfl, hneg⟩ | ⟨k, dropped, rfl, hk, rfl⟩
  · dsimp only
    rw [Int.toNat_of_nonpos hneg]
    refine ⟨h.sound, h.sublist, h.whole, ?_, h.held, ?_⟩
    · rw [h.flatten]
      exact congrArg (· ++ _) (List.append_nil _).symm
    · simpa [Memory.read] using h.begun
  · obtain ⟨hlen, hfit⟩ := h.sound.toWrite_le limit
    obtain ⟨hsound, hqueued⟩ := h.sound.queued_advance (hk.trans hlen)
      (by omega) dropped now
    refine ⟨hsound, h.sublist, h.whole, ?_, h.held, ?_⟩
    · rw [h.flatten, hqueued, List.append_assoc, Int.toNat_natCast]
    · have hbegun := h.begun
      rw [List.length_append]
      exact lt_of_lt_of_le hbegun
        (Nat.add_le_add_right (Nat.le_add_right _ _) _)

theorem of_fd (h : Books base kept s) (fd : Option ℕ) :
    Books base kept { s with client := { s.client with fd } } :=
  ⟨h.sound.of_fd fd, h.sublist, h.whole, h.flatten, h.held, h.begun⟩

/-- Every operation keeps the books; only a new connection closes them. -/
theorem step (h : Books base kept s) (op : Op)
    (hop : base = [] ∨ op.connects = false) :
    ∃ s' kept', s.step op = some s' ∧ Books base kept' s' := by
  cases op with
  | accept fd now =>
      cases fd with
      | none => exact ⟨_, kept, rfl, h.of_fd none⟩
      | some fd =>
          obtain rfl : base = [] := by
            rcases hop with rfl | hop
            · rfl
            · simp [Op.connects] at hop
          refine ⟨_, [], rfl, start ?_ rfl⟩
          exact Client.sound_of_empty h.sound.large h.sound.max_dvd rfl rfl
            h.sound.channel_lt
  | append buffer => exact h.append buffer
  | flush min limit send now =>
      obtain ⟨s', hstep, hs'⟩ := h.flush min limit send now
      exact ⟨s', kept, hstep, hs'⟩
  | close => exact ⟨_, kept, rfl, h.of_fd none⟩

theorem run (h : Books base kept s) (ops : List Op)
    (hops : base = [] ∨ ∀ op ∈ ops, op.connects = false) :
    ∃ s' kept', s.run ops = some s' ∧ Books base kept' s' := by
  induction ops generalizing s kept with
  | nil => exact ⟨s, kept, rfl, h⟩
  | cons op ops ih =>
      have hhead : base = [] ∨ op.connects = false :=
        hops.imp_right fun hall => hall op List.mem_cons_self
      have htail : base = [] ∨ ∀ op ∈ ops, op.connects = false :=
        hops.imp_right fun hall op hop => hall op (List.mem_cons_of_mem _ hop)
      obtain ⟨s₁, kept₁, hstep, h₁⟩ := h.step op hhead
      obtain ⟨s₂, kept₂, hrun, h₂⟩ := ih h₁ htail
      refine ⟨s₂, kept₂, ?_, h₂⟩
      rw [Session.run, List.foldlM_cons, hstep]
      exact hrun

theorem carries (h : Books base kept s) : s.Carries kept :=
  ⟨h.sublist, h.flatten ▸ List.prefix_append _ _⟩

/-- The chunks of which a byte has been sent are the first of `kept`. -/
theorem exists_begun (h : Books base kept s) :
    ∃ begun, s.Carries begun ∧ Books begun kept s := by
  have hpos := Client.chunkSize_pos s.client.format
  have hkept := h.length_kept
  obtain ⟨m, hlow, hhigh⟩ : ∃ m,
      s.sent.length ≤ m * s.client.format.chunkSize ∧
        m * s.client.format.chunkSize <
          s.sent.length + s.client.format.chunkSize := by
    generalize s.client.format.chunkSize = size at *
    have hdiv := Nat.div_add_mod' (s.sent.length + size - 1) size
    have hmod := Nat.mod_lt (s.sent.length + size - 1) hpos
    exact ⟨(s.sent.length + size - 1) / size, by omega, by omega⟩
  have hle : m ≤ kept.length := by
    refine Nat.le_of_lt_succ (Nat.lt_of_mul_lt_mul_right
      (a := s.client.format.chunkSize) ?_)
    rw [Nat.succ_mul]
    omega
  refine ⟨kept.take m, ⟨(List.take_sublist _ _).trans h.sublist, ?_⟩,
    h.sound, h.sublist, h.whole, h.flatten, List.take_prefix _ _, ?_⟩
  · rw [flatten_take (fun xs hxs => h.whole xs (h.sublist.subset hxs)) hle,
      List.prefix_take_iff]
    exact ⟨h.carries.sent, hlow⟩
  · rwa [List.length_take, Nat.min_eq_left hle]

end Books

end Session

theorem sound_openClient (malloc : ℕ → Byte) {sendqMax : ℕ}
    (hmax : 8192 ≤ sendqMax) (format : Format) {channel : ℕ}
    (hchannel : channel < numchans) :
    (openClient malloc sendqMax format channel).Sound := by
  refine Client.sound_of_empty ?_ (Nat.dvd_mul_left _ _) rfl rfl hchannel
  change 8192 ≤ sendqMax / chunkChannelBytes * chunkChannelBytes
  rw [chunkChannelBytes_eq]
  omega

/-- In every run the server does not exit, the bytes sent since the last
`accept()` are the first bytes of a concatenation of chunks appended since
then, and so are the bytes next offered to `send()`.  While the connection
lasts, the chunks begun stay the first ones of it. -/
theorem stream_integrity (malloc : ℕ → Byte) {sendqMax : ℕ}
    (hmax : 8192 ≤ sendqMax) (format : Format) {channel : ℕ}
    (hchannel : channel < numchans) (before after : List Op) :
    ∃ s₁ s₂,
      (Session.start (openClient malloc sendqMax format channel)).run before =
        some s₁ ∧
      s₁.run after = some s₂ ∧
      (∃ kept, s₂.Carries kept ∧
        ∀ limit, s₂.sent ++ s₂.client.offered limit <+: kept.flatten) ∧
      ((∀ op ∈ after, op.connects = false) →
        ∃ begun kept, s₁.Carries begun ∧ s₂.Carries kept ∧ begun <+: kept) := by
  have hsound := sound_openClient malloc hmax format hchannel
  obtain ⟨s₁, kept₁, hrun₁, h₁⟩ :=
    (Session.Books.start hsound rfl).run before (Or.inl rfl)
  obtain ⟨s₂, kept₂, hrun₂, h₂⟩ := h₁.run after (Or.inl rfl)
  refine ⟨s₁, s₂, hrun₁, hrun₂, ⟨kept₂, h₂.carries, fun limit => ?_⟩,
    fun hafter => ?_⟩
  · rw [h₂.flatten, List.prefix_append_right_inj]
    exact h₂.sound.offered_isPrefix limit
  · obtain ⟨begun, hcarries, hbegun⟩ := h₁.exists_begun
    obtain ⟨s, kept, hrun, h⟩ := hbegun.run after (Or.inr hafter)
    obtain rfl : s₂ = s := Option.some.inj (hrun₂.symm.trans hrun)
    exact ⟨begun, kept, hcarries, h.carries, h.held⟩

/-- The smaller queue `main` allocates, one chunk and a send that is cut. -/
theorem stream_integrity_cu8 :
    ∃ s₁ s₂,
      (Session.start (openClient (fun _ => 0) (totalNetBuffer / 4 / numchans)
        .cu8 12)).run [.accept (some 5) 0, .append fun _ => 0x12345678] =
          some s₁ ∧
      s₁.run [.flush 100 300 (fun n => .wrote (Fin.last n)) 1] = some s₂ ∧
      ∃ begun kept, s₁.Carries begun ∧ s₂.Carries kept ∧ begun <+: kept := by
  obtain ⟨s₁, s₂, h₁, h₂, -, hlater⟩ := stream_integrity (fun _ => 0)
    (show 8192 ≤ totalNetBuffer / 4 / numchans by decide) .cu8
    (show 12 < numchans by decide)
    [.accept (some 5) 0, .append fun _ => 0x12345678]
    [.flush 100 300 (fun n => .wrote (Fin.last n)) 1]
  exact ⟨s₁, s₂, h₁, h₂, hlater (by simp [Op.connects])⟩

end RedPitayaNotes.HfdlReceiver
