import Mathlib.Data.List.Range
import RedPitayaNotes.HfdlReceiver.Tcp

/-!
# Order of the fan-out

The queue of a channel holds the numbers, modulo the ring, of consecutive
chunks.  As long as the receiver fills no buffer that is on the queue or in the
hands of the transmit thread, those buffers keep the chunks they were queued
with, and the client gets whole chunks in order.
-/

namespace RedPitayaNotes.Tcp

open Clocked

variable {p : Params}

/-- The message is made of the samples that the channel has in chunk `k`, and of
nothing else. -/
def Message.OfChunk (p : Params) (channel : ℕ) (received : List (List Sample))
    (m : Message) (k : ℕ) : Prop :=
  ∃ data, received[k]? = some data ∧
    m = message p channel ⟨some k, slice 0 2 data⟩ ⟨some k, slice 1 2 data⟩

/-- What the client of a channel has been sent since it connected: whole chunks,
by increasing number. -/
def InOrder (s : State p) (i : Fin p.numChannels) : Prop :=
  ∃ ks : List ℕ, ks.Pairwise (· < ·) ∧
    List.Forall₂ (Message.OfChunk p i s.receiver.received)
      (s.channels i).sent ks

/-- The number is on the queue, or the transmit thread has taken it and has not
read both halves of the buffer. -/
def Channel.Uses (c : Channel) (bufferIdx : ℕ) : Prop :=
  bufferIdx ∈ c.queue ∨ c.thread.held = some bufferIdx

/-- The next statement fills a half of the buffer `write_index`. -/
def Receiver.fills (r : Receiver) : Bool :=
  match r.statement with
  | .fillReal _ _ => true
  | .fillImag _ _ => true
  | _ => false

/-- If the receiver fills a half of a buffer, the channel is not using it. -/
def Spares (s : State p) (i : Fin p.numChannels) : Event p → Prop
  | .receiver => s.receiver.fills = true →
      ¬(s.channels i).Uses s.receiver.writeIndex
  | _ => True

instance (c : Channel) (bufferIdx : ℕ) : Decidable (c.Uses bufferIdx) :=
  inferInstanceAs (Decidable (_ ∨ _))

instance (s : State p) (i : Fin p.numChannels) :
    (e : Event p) → Decidable (Spares s i e)
  | .recv _ => isTrue trivial
  | .receiver => inferInstanceAs (Decidable (_ → _))
  | .transmit _ _ => isTrue trivial

/-! ## The receiver -/

/-- The chunks whose buffers are filled, and the chunks queued on a channel. -/
def filled (r : Receiver) : ℕ :=
  match r.statement with
  | .recv => r.received.length
  | _ => r.received.length - 1

def queued (r : Receiver) (channel : ℕ) : ℕ :=
  match r.statement with
  | .recv => r.received.length
  | .put i => r.received.length - if channel < i then 0 else 1
  | _ => r.received.length - 1

/-- The halves of the buffer of chunk `k` hold that chunk. -/
structure RealIntact (p : Params) (r : Receiver) (k : ℕ) (data : List Sample) :
    Prop where
  received : r.received[k]? = some data
  real : r.realBuffers (k % p.numBuffers) = ⟨some k, slice 0 2 data⟩

structure Intact (p : Params) (r : Receiver) (k : ℕ) (data : List Sample) :
    Prop extends RealIntact p r k data where
  imag : r.imagBuffers (k % p.numBuffers) = ⟨some k, slice 1 2 data⟩

/-- The chunk in hand is the last one, and its halves are filled as far as the
statement says. -/
def InHand (p : Params) (r : Receiver) : Prop :=
  match r.statement with
  | .recv => True
  | .fillReal k data => k + 1 = r.received.length ∧ r.received[k]? = some data
  | .fillImag k data => k + 1 = r.received.length ∧ RealIntact p r k data
  | .put i => i ≤ p.numChannels ∧
      ∃ k data, k + 1 = r.received.length ∧ Intact p r k data

structure ReceiverBooks (p : Params) (r : Receiver) : Prop where
  index : r.writeIndex = filled r % p.numBuffers
  hand : InHand p r

theorem ReceiverBooks.recv {r : Receiver} (h : ReceiverBooks p r)
    (data : List Sample) : ReceiverBooks p (r.recv p data) := by
  unfold Receiver.recv
  cases hr : r.statement with
  | recv =>
      simp only
      split
      · exact h
      · have hindex := h.index
        rw [filled, hr] at hindex
        refine ⟨?_, ?_, List.getElem?_concat_length⟩
        · change r.writeIndex = ((r.received ++ [data]).length - 1) % _
          rw [List.length_append]
          exact hindex
        · rw [List.length_append]
          rfl
  | fillReal k d => exact h
  | fillImag k d => exact h
  | put i => exact h

theorem ReceiverBooks.next {r : Receiver} (h : ReceiverBooks p r) :
    ReceiverBooks p (r.next p) := by
  obtain ⟨hindex, hhand⟩ := h
  unfold InHand at hhand
  unfold filled at hindex
  unfold Receiver.next
  cases hr : r.statement with
  | recv =>
      rw [hr] at hindex
      exact ⟨by simpa only [filled, hr] using hindex, by simp only [InHand, hr]⟩
  | fillReal k data =>
      rw [hr] at hindex hhand
      obtain ⟨hlast, hreceived⟩ := hhand
      have hk : r.writeIndex = k % p.numBuffers := by
        rw [hindex, ← hlast]
        rfl
      refine ⟨hindex, hlast, hreceived, ?_⟩
      rw [hk]
      exact Function.update_self _ _ _
  | fillImag k data =>
      rw [hr] at hindex hhand
      obtain ⟨hlast, hintact⟩ := hhand
      have hk : r.writeIndex = k % p.numBuffers := by
        rw [hindex, ← hlast]
        rfl
      refine ⟨hindex, Nat.zero_le _, k, data, hlast,
        ⟨hintact.received, hintact.real⟩, ?_⟩
      rw [hk]
      exact Function.update_self _ _ _
  | put i =>
      rw [hr] at hindex hhand
      obtain ⟨hle, k, data, hlast, hintact⟩ := hhand
      dsimp only
      by_cases hi : i < p.numChannels
      · rw [if_pos hi]
        exact ⟨hindex, hi, k, data, hlast,
          ⟨hintact.received, hintact.real⟩, hintact.imag⟩
      · rw [if_neg hi]
        refine ⟨?_, trivial⟩
        change (r.writeIndex + 1) % p.numBuffers = r.received.length % _
        rw [hindex, ← hlast, Nat.add_sub_cancel, Nat.mod_add_mod]

/-! ## The queue -/

/-- The buffer numbers of the chunks from `t` up to `q`. -/
def ring (p : Params) (t q : ℕ) : List ℕ :=
  (List.range' t (q - t)).map (· % p.numBuffers)

theorem ring_self (t : ℕ) : ring p t t = [] := by
  rw [ring, Nat.sub_self]
  rfl

theorem ring_cons {t q : ℕ} (h : t < q) :
    ring p t q = t % p.numBuffers :: ring p (t + 1) q := by
  obtain ⟨n, rfl⟩ := Nat.exists_eq_add_of_lt h
  have hn : t + n + 1 - t = n + 1 := by omega
  have hrest : t + n + 1 - (t + 1) = n := by omega
  rw [ring, ring, hn, hrest, List.range'_succ, List.map_cons]

theorem ring_snoc {t q : ℕ} (h : t ≤ q) :
    ring p t (q + 1) = ring p t q ++ [q % p.numBuffers] := by
  obtain ⟨n, rfl⟩ := Nat.exists_eq_add_of_le h
  have hn : t + n + 1 - t = n + 1 := by omega
  rw [ring, ring, hn, Nat.add_sub_cancel_left, List.range'_1_concat,
    List.map_append]
  rfl

theorem mem_ring {t q k : ℕ} (ht : t ≤ k) (hk : k < q) :
    k % p.numBuffers ∈ ring p t q := by
  refine List.mem_map_of_mem (List.mem_range'_1.mpr ⟨ht, ?_⟩)
  omega

/-! ## A channel -/

/-- What the transmit thread has in hand, after the chunks up to `t` were taken
from the queue and the chunks `ks` sent. -/
def Holds (p : Params) (r : Receiver) (t : ℕ) (ks : List ℕ) :
    Transmitter → Prop
  | .readReal bufferIdx => ∃ k data, k + 1 = t ∧ bufferIdx = k % p.numBuffers ∧
      Intact p r k data ∧ ∀ m ∈ ks, m < k
  | .readImag bufferIdx real => ∃ k data, k + 1 = t ∧
      bufferIdx = k % p.numBuffers ∧ r.received[k]? = some data ∧
      real = ⟨some k, slice 0 2 data⟩ ∧
      r.imagBuffers bufferIdx = ⟨some k, slice 1 2 data⟩ ∧ ∀ m ∈ ks, m < k
  | _ => True

/-- The chunks from `t` on are on the queue and intact; the chunks `ks` before
them have been sent. -/
structure ChannelBooks (p : Params) (channel : ℕ) (r : Receiver) (c : Channel)
    (t : ℕ) (ks : List ℕ) : Prop where
  le : t ≤ queued r channel
  queue : c.queue = ring p t (queued r channel)
  intact : ∀ k, t ≤ k → k < queued r channel → ∃ data, Intact p r k data
  holds : Holds p r t ks c.thread
  sorted : ks.Pairwise (· < ·)
  before : ∀ k ∈ ks, k < t
  sent : List.Forall₂ (Message.OfChunk p channel r.received) c.sent ks

section Channel

variable {channel : ℕ} {r r' : Receiver} {c : Channel} {t : ℕ} {ks : List ℕ}

theorem Intact.frame {k : ℕ} {data : List Sample} (h : Intact p r k data)
    (hreceived : r'.received[k]? = some data)
    (hreal : r'.realBuffers (k % p.numBuffers) =
      r.realBuffers (k % p.numBuffers))
    (himag : r'.imagBuffers (k % p.numBuffers) =
      r.imagBuffers (k % p.numBuffers)) :
    Intact p r' k data := by
  refine ⟨⟨hreceived, ?_⟩, ?_⟩
  · rw [hreal, h.real]
  · rw [himag, h.imag]

theorem Holds.frame (h : Holds p r t ks c.thread)
    (hreceived : ∀ (k : ℕ) (data), r.received[k]? = some data →
      r'.received[k]? = some data)
    (hreal : ∀ n, c.Uses n → r'.realBuffers n = r.realBuffers n)
    (himag : ∀ n, c.Uses n → r'.imagBuffers n = r.imagBuffers n) :
    Holds p r' t ks c.thread := by
  cases hthread : c.thread with
  | readReal bufferIdx =>
      have huses : c.Uses bufferIdx := Or.inr (by rw [hthread]; rfl)
      rw [hthread] at h
      obtain ⟨k, data, hk, rfl, hintact, hks⟩ := h
      exact ⟨k, data, hk, rfl, hintact.frame
        (hreceived k data hintact.received) (hreal _ huses) (himag _ huses),
        hks⟩
  | readImag bufferIdx real =>
      have huses : c.Uses bufferIdx := Or.inr (by rw [hthread]; rfl)
      rw [hthread] at h
      obtain ⟨k, data, hk, hidx, hdata, hhalf, hother, hks⟩ := h
      refine ⟨k, data, hk, hidx, hreceived k data hdata, hhalf, ?_, hks⟩
      rw [himag bufferIdx huses, hother]
  | listen => trivial
  | get => trivial
  | sendall => trivial

/-- Statements of the receiver that leave the buffers in use alone. -/
theorem ChannelBooks.frame (h : ChannelBooks p channel r c t ks)
    (hreceived : ∀ (k : ℕ) (data), r.received[k]? = some data →
      r'.received[k]? = some data)
    (hreal : ∀ n, c.Uses n → r'.realBuffers n = r.realBuffers n)
    (himag : ∀ n, c.Uses n → r'.imagBuffers n = r.imagBuffers n)
    (hqueued : queued r' channel = queued r channel) :
    ChannelBooks p channel r' c t ks := by
  refine ⟨?_, ?_, ?_, h.holds.frame hreceived hreal himag, h.sorted, h.before,
    ?_⟩
  · rw [hqueued]
    exact h.le
  · rw [hqueued]
    exact h.queue
  · intro k ht hk
    rw [hqueued] at hk
    have huses : c.Uses (k % p.numBuffers) := by
      refine Or.inl ?_
      rw [h.queue]
      exact mem_ring ht hk
    obtain ⟨data, hdata⟩ := h.intact k ht hk
    exact ⟨data, hdata.frame (hreceived k data hdata.received)
      (hreal _ huses) (himag _ huses)⟩
  · exact h.sent.imp fun m k hm => by
      obtain ⟨data, hdata, hmessage⟩ := hm
      exact ⟨data, hreceived k data hdata, hmessage⟩

theorem getElem?_snoc {α : Type*} {xs : List α} {k : ℕ} {x : α}
    (h : xs[k]? = some x) (y : α) : (xs ++ [y])[k]? = some x := by
  obtain ⟨hk, -⟩ := List.getElem?_eq_some_iff.mp h
  rw [List.getElem?_append_left hk]
  exact h

theorem ChannelBooks.recv (h : ChannelBooks p channel r c t ks)
    (data : List Sample) : ChannelBooks p channel (r.recv p data) c t ks := by
  unfold Receiver.recv
  cases hr : r.statement with
  | recv =>
      dsimp only
      split
      · exact h
      · refine h.frame (fun k d hk => getElem?_snoc hk data) (fun _ _ => rfl)
          (fun _ _ => rfl) ?_
        rw [queued, queued, hr, List.length_append]
        rfl
  | fillReal k d => exact h
  | fillImag k d => exact h
  | put i => exact h

/-- The receiver puts the chunk in hand on the queue. -/
theorem ChannelBooks.put (h : ChannelBooks p channel r c t ks)
    (hr : ReceiverBooks p r) (hput : r.statement = .put channel) :
    ChannelBooks p channel { r with statement := .put (channel + 1) }
      { c with queue := c.queue ++ [r.writeIndex] } t ks := by
  have hindex := hr.index
  have hhand := hr.hand
  rw [filled, hput] at hindex
  rw [InHand, hput] at hhand
  obtain ⟨-, k, data, hlast, hk⟩ := hhand
  have hbefore : queued r channel = k := by
    rw [queued, hput, ← hlast]
    dsimp only
    rw [if_neg (Nat.lt_irrefl _), Nat.add_sub_cancel]
  have hafter : queued { r with statement := .put (channel + 1) } channel =
      k + 1 := by
    rw [queued, hlast]
    dsimp only
    rw [if_pos (Nat.lt_succ_self _), Nat.sub_zero]
  have hle := h.le
  have hqueue := h.queue
  rw [hbefore] at hle hqueue
  refine ⟨?_, ?_, ?_, h.holds.frame (fun _ _ hk => hk) (fun _ _ => rfl)
    (fun _ _ => rfl), h.sorted, h.before, h.sent⟩
  · rw [hafter]
    exact le_trans hle (Nat.le_succ k)
  · rw [hafter, ring_snoc hle, hqueue, hindex, ← hlast, Nat.add_sub_cancel]
  · intro m ht hm
    rw [hafter, Nat.lt_succ_iff_lt_or_eq] at hm
    rcases hm with hold | rfl
    · rw [← hbefore] at hold
      obtain ⟨d, hd⟩ := h.intact m ht hold
      exact ⟨d, hd.frame hd.received rfl rfl⟩
    · exact ⟨data, hk.frame hk.received rfl rfl⟩

theorem ChannelBooks.next (h : ChannelBooks p channel r c t ks)
    (hr : ReceiverBooks p r) (hchannel : channel < p.numChannels)
    (hspares : r.fills = true → ¬c.Uses r.writeIndex) :
    ChannelBooks p channel (r.next p) (r.put channel c) t ks := by
  have hsame : ∀ {buffers : ℕ → Half} {half : Half}, ¬c.Uses r.writeIndex →
      ∀ n, c.Uses n →
        Function.update buffers r.writeIndex half n = buffers n := by
    intro buffers half hfree n huses
    apply Function.update_of_ne
    rintro rfl
    exact hfree huses
  unfold Receiver.fills at hspares
  unfold Receiver.next Receiver.put
  cases hstatement : r.statement with
  | recv => exact h
  | fillReal k data =>
      rw [hstatement] at hspares
      refine h.frame (fun _ _ hk => hk) (hsame (hspares rfl)) (fun _ _ => rfl) ?_
      rw [queued, queued, hstatement]
  | fillImag k data =>
      rw [hstatement] at hspares
      refine h.frame (fun _ _ hk => hk) (fun _ _ => rfl) (hsame (hspares rfl)) ?_
      rw [queued, queued, hstatement]
      rfl
  | put i =>
      dsimp only
      by_cases hi : i = channel
      · rw [if_pos hi, if_pos (hi ▸ hchannel), hi]
        exact h.put hr (by rw [hstatement, hi])
      · rw [if_neg hi]
        split
        · refine h.frame (fun _ _ hk => hk) (fun _ _ => rfl) (fun _ _ => rfl) ?_
          have hlt : channel < i + 1 ↔ channel < i := by omega
          rw [queued, queued, hstatement]
          simp only [hlt]
        · refine h.frame (fun _ _ hk => hk) (fun _ _ => rfl) (fun _ _ => rfl) ?_
          have hlt : channel < i := by omega
          rw [queued, queued, hstatement]
          simp only [hlt, if_true, Nat.sub_zero]

/-- A number taken from the queue is that of the next chunk. -/
theorem ChannelBooks.pop (h : ChannelBooks p channel r c t ks)
    {bufferIdx : ℕ} {rest : List ℕ} (hqueue : c.queue = bufferIdx :: rest) :
    t < queued r channel ∧ bufferIdx = t % p.numBuffers ∧
      rest = ring p (t + 1) (queued r channel) := by
  have hring := h.queue
  rcases Nat.lt_or_eq_of_le h.le with hlt | heq
  · rw [hqueue, ring_cons hlt] at hring
    obtain ⟨hidx, hrest⟩ := List.cons.inj hring
    exact ⟨hlt, hidx, hrest⟩
  · rw [hqueue, heq, ring_self] at hring
    exact absurd hring (List.cons_ne_nil _ _)

theorem ChannelBooks.drain (h : ChannelBooks p channel r c t ks)
    (hthread : c.thread = .listen) :
    ∃ t, ChannelBooks p channel r { c with queue := c.queue.tail } t ks := by
  cases hqueue : c.queue with
  | nil =>
      refine ⟨t, h.le, ?_, h.intact, h.holds, h.sorted, h.before, h.sent⟩
      rw [← h.queue, hqueue]
      rfl
  | cons bufferIdx rest =>
      obtain ⟨hlt, -, hrest⟩ := h.pop hqueue
      refine ⟨t + 1, hlt, hrest, ?_, ?_, h.sorted, ?_, h.sent⟩
      · exact fun k hk => h.intact k (Nat.le_of_succ_le hk)
      · rw [hthread]
        trivial
      · exact fun k hk => Nat.lt_succ_of_lt (h.before k hk)

theorem ChannelBooks.get (h : ChannelBooks p channel r c t ks)
    {bufferIdx : ℕ} {rest : List ℕ} (hqueue : c.queue = bufferIdx :: rest) :
    ChannelBooks p channel r
      { c with queue := rest, thread := .readReal bufferIdx } (t + 1) ks := by
  obtain ⟨hlt, hidx, hrest⟩ := h.pop hqueue
  obtain ⟨data, hdata⟩ := h.intact t (le_refl t) hlt
  refine ⟨hlt, hrest, ?_, ⟨t, data, rfl, hidx, hdata, h.before⟩, h.sorted, ?_,
    h.sent⟩
  · exact fun k hk => h.intact k (Nat.le_of_succ_le hk)
  · exact fun k hk => Nat.lt_succ_of_lt (h.before k hk)

theorem ChannelBooks.readReal (h : ChannelBooks p channel r c t ks)
    {bufferIdx : ℕ} (hthread : c.thread = .readReal bufferIdx) :
    ChannelBooks p channel r
      { c with thread := .readImag bufferIdx (r.realBuffers bufferIdx) }
      t ks := by
  have hholds := h.holds
  rw [hthread] at hholds
  obtain ⟨k, data, hk, rfl, hdata, hks⟩ := hholds
  exact ⟨h.le, h.queue, h.intact, ⟨k, data, hk, rfl, hdata.received, hdata.real,
    hdata.imag, hks⟩, h.sorted, h.before, h.sent⟩

theorem ChannelBooks.readImag (h : ChannelBooks p channel r c t ks)
    {bufferIdx : ℕ} {half : Half}
    (hthread : c.thread = .readImag bufferIdx half) :
    ∃ k, ChannelBooks p channel r
      { c with
        thread := .sendall
        sent := c.sent ++ [message p channel half (r.imagBuffers bufferIdx)] }
      t (ks ++ [k]) := by
  have hholds := h.holds
  rw [hthread] at hholds
  obtain ⟨k, data, hk, -, hreceived, rfl, himag, hks⟩ := hholds
  refine ⟨k, h.le, h.queue, h.intact, trivial, ?_, ?_, ?_⟩
  · rw [List.pairwise_append]
    refine ⟨h.sorted, List.pairwise_singleton _ k, ?_⟩
    intro m hm n hn
    rw [List.mem_singleton.mp hn]
    exact hks m hm
  · rw [List.forall_mem_append]
    refine ⟨h.before, fun m hm => ?_⟩
    rw [List.mem_singleton.mp hm, ← hk]
    exact Nat.lt_succ_self k
  · refine List.rel_append h.sent (List.Forall₂.cons ?_ List.Forall₂.nil)
    exact ⟨data, hreceived, by rw [himag]⟩

/-- A thread that has nothing in hand. -/
theorem ChannelBooks.idle (h : ChannelBooks p channel r c t ks)
    {thread : Transmitter} (hidle : Holds p r t ks thread) :
    ChannelBooks p channel r { c with thread := thread } t ks :=
  ⟨h.le, h.queue, h.intact, hidle, h.sorted, h.before, h.sent⟩

theorem ChannelBooks.transmit (h : ChannelBooks p channel r c t ks)
    (action : Action) :
    ∃ t ks, ChannelBooks p channel r (c.next p channel r action) t ks := by
  have hsame : ∃ t ks, ChannelBooks p channel r c t ks := ⟨t, ks, h⟩
  cases action with
  | drain =>
      unfold Channel.next
      cases hthread : c.thread with
      | listen =>
          obtain ⟨t, ht⟩ := h.drain hthread
          rw [hthread] at ht
          exact ⟨t, ks, ht⟩
      | _ => exact hsame
  | accept =>
      unfold Channel.next
      cases hthread : c.thread with
      | listen =>
          exact ⟨t, [], h.le, h.queue, h.intact, trivial, List.Pairwise.nil,
            fun k hk => absurd hk List.not_mem_nil, List.Forall₂.nil⟩
      | _ => exact hsame
  | get =>
      unfold Channel.next
      cases hthread : c.thread with
      | get =>
          cases hqueue : c.queue with
          | nil => exact hsame
          | cons bufferIdx rest => exact ⟨t + 1, ks, h.get hqueue⟩
      | _ => exact hsame
  | read =>
      unfold Channel.next
      cases hthread : c.thread with
      | readReal bufferIdx => exact ⟨t, ks, h.readReal hthread⟩
      | readImag bufferIdx half =>
          obtain ⟨k, hk⟩ := h.readImag hthread
          exact ⟨t, ks ++ [k], hk⟩
      | _ => exact hsame
  | sent =>
      unfold Channel.next
      cases hthread : c.thread with
      | sendall => exact ⟨t, ks, h.idle trivial⟩
      | _ => exact hsame
  | fail => exact ⟨t, ks, h.idle trivial⟩

end Channel

/-! ## Runs -/

/-- The books of the receiver and of one channel. -/
structure Books (i : Fin p.numChannels) (s : State p) : Prop where
  receiver : ReceiverBooks p s.receiver
  channel : ∃ t ks, ChannelBooks p i s.receiver (s.channels i) t ks

theorem books_init (i : Fin p.numChannels) : Books i (State.init p) := by
  refine ⟨⟨(Nat.zero_mod _).symm, trivial⟩, 0, [], ?_⟩
  exact ⟨le_refl 0, rfl, fun k _ hk => absurd hk (Nat.not_lt_zero k), trivial,
    List.Pairwise.nil, fun k hk => absurd hk List.not_mem_nil,
    List.Forall₂.nil⟩

theorem Books.next {i : Fin p.numChannels} {s : State p} (h : Books i s)
    {e : Event p} (hspares : Spares s i e) : Books i (Tcp.next s e) := by
  obtain ⟨hreceiver, t, ks, hchannel⟩ := h
  cases e with
  | recv data => exact ⟨hreceiver.recv data, t, ks, hchannel.recv data⟩
  | receiver =>
      exact ⟨hreceiver.next, t, ks, hchannel.next hreceiver i.isLt hspares⟩
  | transmit j action =>
      refine ⟨hreceiver, ?_⟩
      change ∃ t ks, ChannelBooks p i s.receiver
        (Function.update s.channels j _ i) t ks
      by_cases hij : i = j
      · rw [← hij, Function.update_self]
        exact hchannel.transmit action
      · rw [Function.update_of_ne hij]
        exact ⟨t, ks, hchannel⟩

/-- A client gets whole chunks in order as long as the receiver fills no buffer
that its channel is using. -/
theorem inOrder_of_spares (i : Fin p.numChannels) {events : List (Event p)}
    (h : ∀ c ∈ trace next (State.init p) events, Spares c.state i c.input) :
    ∀ before, before <+: events →
      InOrder (run next (State.init p) before) i := by
  rintro before ⟨after, rfl⟩
  rw [trace_append, List.forall_mem_append] at h
  have hbooks := run_invariant_of (Books i)
    (fun c => Spares c.state i c.input) (fun _ _ hs hok => hs.next hok)
    (books_init i) before h.1
  obtain ⟨t, ks, hchannel⟩ := hbooks.channel
  exact ⟨ks, hchannel.sorted, hchannel.sent⟩

theorem filterMap_real {channel : ℕ} {received : List (List Sample)}
    {sent : List Message} {ks : List ℕ}
    (h : List.Forall₂ (Message.OfChunk p channel received) sent ks) :
    sent.filterMap Message.real = ks := by
  induction h with
  | nil => rfl
  | cons hm _ ih =>
      obtain ⟨data, -, rfl⟩ := hm
      rw [List.filterMap_cons, ih]
      rfl

/-- The chunk numbers that the messages carry increase. -/
theorem InOrder.pairwise {s : State p} {i : Fin p.numChannels}
    (h : InOrder s i) :
    ((s.channels i).sent.filterMap Message.real).Pairwise (· < ·) := by
  obtain ⟨ks, hsorted, hsent⟩ := h
  rw [filterMap_real hsent]
  exact hsorted

/-! ## A client that falls behind -/

/-- One channel, two buffers of one sample. -/
def smallParams : Params where
  bufferSize := 1
  numChannels := 1
  numBuffers := 2
  buffers_pos := by decide

def client : Fin smallParams.numChannels := ⟨0, by decide⟩

/-- A chunk is received, its halves are filled, it is queued, and the index
advances. -/
def chunk (sample : Sample) : List (Event smallParams) :=
  [.recv [sample, sample], .receiver, .receiver, .receiver, .receiver]

/-- A number is taken and the buffer sent. -/
def serve : List (Event smallParams) :=
  [.transmit client .get, .transmit client .read, .transmit client .read,
    .transmit client .sent]

/-- A client that connects, and `chunks` before the first is taken. -/
def slowClient (chunks : List Sample) : List (Event smallParams) :=
  .transmit client .accept :: (chunks.flatMap chunk ++ serve ++ serve)

theorem inOrder_slowClient :
    InOrder (run next (State.init smallParams) (slowClient [1, 2])) client :=
  inOrder_of_spares client (by decide) _ List.prefix_rfl

/-- With a chunk more than there are buffers the client gets chunk 2 before
chunk 1. -/
theorem not_inOrder_slowClient :
    ¬InOrder (run next (State.init smallParams) (slowClient [1, 2, 3]))
      client := by
  intro h
  have hsorted := h.pairwise
  revert hsorted
  decide

end RedPitayaNotes.Tcp
