import RedPitayaNotes.HfdlReceiver.Stream

/-!
# The send queues stay within their buffers

The copy loops of `main` store to a queue without looking at its bounds or at
the read cursor.  Both are kept by the alignment of the write cursor and by the
room that `normalizeSendq` restores after every append and every send.
-/

namespace RedPitayaNotes.HfdlReceiver

open Bits Memory RingQueue

/-! ## The bytes stored -/

/-- The offsets that the copy loop stores to, in its order. -/
def copyStores (emit : ℕ → List Byte) (target k t : ℕ) : List ℕ :=
  if k < chunkBytes / sampleSize then
    List.range' (target + t) (emit k).length ++
      copyStores emit target (k + numchans) (t + (emit k).length)
  else []
termination_by chunkBytes / sampleSize - k
decreasing_by
  have : numchans = 13 := rfl
  omega

section CopyLoop

variable (emit : ℕ → List Byte) (target k t : ℕ) (sendq : ℕ → Byte)

/-- The loop changes no other byte. -/
theorem copyLoop_of_not_mem {n : ℕ} (hn : n ∉ copyStores emit target k t) :
    (copyLoop emit target k t sendq).1 n = sendq n := by
  induction k, t using copyStores.induct emit generalizing sendq with
  | case1 k t hk ih =>
      rw [copyStores, if_pos hk, List.mem_append, not_or] at hn
      obtain ⟨hhere, hrest⟩ := hn
      rw [copyLoop, if_pos hk, ih _ hrest]
      rw [List.mem_range'_1, not_and_or] at hhere
      rcases hhere with hlow | hhigh
      · exact store_of_lt (by omega) _ _
      · exact store_of_ge (by omega) _
  | case2 k t hk => rw [copyLoop, if_neg hk]

theorem le_copyLoop : t ≤ (copyLoop emit target k t sendq).2 := by
  induction k, t using copyStores.induct emit generalizing sendq with
  | case1 k t hk ih =>
      rw [copyLoop, if_pos hk]
      exact (Nat.le_add_right _ _).trans (ih _)
  | case2 k t hk => rw [copyLoop, if_neg hk]

/-- The stores lie between the write cursor before the loop and after it. -/
theorem mem_copyStores {n : ℕ} (hn : n ∈ copyStores emit target k t) :
    target + t ≤ n ∧ n < target + (copyLoop emit target k t sendq).2 := by
  induction k, t using copyStores.induct emit generalizing sendq with
  | case1 k t hk ih =>
      rw [copyStores, if_pos hk, List.mem_append] at hn
      rw [copyLoop, if_pos hk]
      have hle := le_copyLoop emit target (k + numchans)
        (t + (emit k).length) (store sendq (target + t) (emit k))
      rcases hn with hhere | hrest
      · rw [List.mem_range'_1] at hhere
        omega
      · obtain ⟨hlow, hhigh⟩ :=
          ih (store sendq (target + t) (emit k)) hrest
        exact ⟨by omega, hhigh⟩
  | case2 k t hk =>
      rw [copyStores, if_neg hk] at hn
      exact absurd hn List.not_mem_nil

end CopyLoop

/-! ## Queued and free bytes -/

namespace Client

variable {c : Client}

/-- The offsets of the bytes waiting to be sent, oldest first. -/
def queuedOffsets (c : Client) : List ℕ :=
  (List.range' c.sendqStart c.sendqLen).map (· % c.sendqMax)

theorem queued_eq (c : Client) : c.queued = c.queuedOffsets.map c.sendq := by
  rw [queued, window, queuedOffsets, List.map_map]
  rfl

/-- The stores of the loop that appends `buffer` to the queue. -/
def appendStores (c : Client) (buffer : ℕ → BitVec 32) : List ℕ :=
  copyStores (fun k => c.format.emit buffer k) c.sendqEnd c.channel 0

/-- The range that `flushClient` passes to `send()`, if it gets there. -/
def sendRange (c : Client) (limit : ℕ) : List ℕ :=
  List.range' c.sendqStart (c.toWrite limit)

/-- What the functions of the queue rely on. -/
structure InBounds (c : Client) : Prop where
  start_lt : c.sendqStart < c.sendqMax
  end_lt : c.sendqEnd < c.sendqMax
  room : c.sendqLen + 2 * chunkChannelBytes < c.sendqMax
  append : ∀ buffer, ∀ n ∈ c.appendStores buffer,
    n < c.sendqMax ∧ n ∉ c.queuedOffsets
  flush : ∀ limit, ∀ n ∈ c.sendRange limit,
    n < c.sendqMax ∧ n ∈ c.queuedOffsets

namespace Sound

theorem appendStores_bound (h : c.Sound) {buffer : ℕ → BitVec 32} {n : ℕ}
    (hn : n ∈ c.appendStores buffer) :
    c.sendqEnd ≤ n ∧ n < c.sendqEnd + c.format.chunkSize := by
  have hmem := mem_copyStores _ _ _ _ c.sendq hn
  rw [copyLoop_chunk c.format h.channel_lt] at hmem
  exact hmem

/-- The chunk after the write cursor is free. -/
theorem not_mem_queuedOffsets (h : c.Sound) {n : ℕ} (hlow : c.sendqEnd ≤ n)
    (hhigh : n < c.sendqEnd + c.format.chunkSize) : n ∉ c.queuedOffsets := by
  have hstart := h.start_lt
  have hroom := h.room
  have hsmall := chunkSize_le c.format
  have hend := h.start_add_len
  intro hn
  obtain ⟨m, hm, rfl⟩ := List.mem_map.mp hn
  rw [List.mem_range'_1] at hm
  by_cases hwrap : c.sendqStart + c.sendqLen < c.sendqMax
  · -- the queue ends where the free bytes start
    rw [Nat.mod_eq_of_lt hwrap] at hend
    rw [Nat.mod_eq_of_lt (by omega)] at hlow
    omega
  · rw [Nat.mod_eq_sub_mod (by omega), Nat.mod_eq_of_lt (by omega)] at hend
    by_cases hm' : m < c.sendqMax
    · rw [Nat.mod_eq_of_lt hm'] at hhigh
      omega
    · rw [Nat.mod_eq_sub_mod (by omega), Nat.mod_eq_of_lt (by omega)] at hlow
      omega

theorem sendRange_queued (h : c.Sound) {limit n : ℕ}
    (hn : n ∈ c.sendRange limit) : n < c.sendqMax ∧ n ∈ c.queuedOffsets := by
  obtain ⟨hlen, hfit⟩ := h.toWrite_le limit
  rw [sendRange, List.mem_range'_1] at hn
  have hlt : n < c.sendqMax := by omega
  refine ⟨hlt, List.mem_map.mpr ⟨n, ?_, Nat.mod_eq_of_lt hlt⟩⟩
  rw [List.mem_range'_1]
  omega

theorem inBounds (h : c.Sound) : c.InBounds where
  start_lt := h.start_lt
  end_lt := h.end_lt
  room := h.room
  append := by
    intro buffer n hn
    obtain ⟨hlow, hhigh⟩ := h.appendStores_bound hn
    exact ⟨lt_of_lt_of_le hhigh h.end_add_chunkSize_le,
      h.not_mem_queuedOffsets hlow hhigh⟩
  flush := fun _ _ => h.sendRange_queued

end Sound

end Client

/-- In every run the server does not exit, and before each operation the copy
loop would store to free bytes of the buffer only and `flushClient` would send
queued bytes only. -/
theorem sendq_inBounds (malloc : ℕ → Byte) {sendqMax : ℕ}
    (hmax : 8192 ≤ sendqMax) (format : Format) {channel : ℕ}
    (hchannel : channel < numchans) (ops : List Op) :
    ∃ s, (Session.start (openClient malloc sendqMax format channel)).run ops =
      some s ∧ s.client.InBounds := by
  have hsound := sound_openClient malloc hmax format hchannel
  obtain ⟨s, kept, hrun, hbooks⟩ :=
    (Session.Books.start hsound rfl).run ops (Or.inl rfl)
  exact ⟨s, hrun, hbooks.sound.inBounds⟩

/-- The larger queue `main` allocates, with a chunk and a send of odd length. -/
theorem sendq_inBounds_cs16 :
    ∃ s, (Session.start (openClient (fun _ => 0) (totalNetBuffer / numchans)
        .cs16 0)).run
      [.accept (some 5) 0, .append fun _ => 0x12345678,
        .flush 100 301 (fun n => .wrote (Fin.last n)) 1] = some s ∧
      s.client.InBounds :=
  sendq_inBounds (fun _ => 0)
    (show 8192 ≤ totalNetBuffer / numchans by decide) .cs16
    (show 0 < numchans by decide) _

end RedPitayaNotes.HfdlReceiver
