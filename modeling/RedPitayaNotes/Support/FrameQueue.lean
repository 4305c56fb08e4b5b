import Mathlib.Data.List.Basic
import Mathlib.Data.List.TakeDrop

/-!
# Queues written by frames and read by words

A source puts frames in a queue and loses those for which there is no room.  A
reader takes words off the front.  If the frames have one size and the reader
takes a number of whole frames that were there when it started, what it gets are
frames of the source, in order.
-/

namespace FrameQueue

variable {α : Type*}

theorem length_flatten {size : ℕ} {frames : List (List α)}
    (h : ∀ frame ∈ frames, frame.length = size) :
    frames.flatten.length = frames.length * size := by
  rw [List.length_flatten, List.map_congr_left h, List.map_const',
    List.sum_replicate_nat]

/-- What is left of the frame that is being read, and the frames behind it. -/
structure Queue (α : Type*) where
  part : List α
  frames : List (List α)

namespace Queue

def empty : Queue α := ⟨[], []⟩

/-- The words, in the order in which they are read. -/
def words (q : Queue α) : List α := q.part ++ q.frames.flatten

/-- A frame is lost if the queue is full. -/
def write (depth : ℕ) (q : Queue α) (frame : List α) : Queue α :=
  if q.frames.length < depth then { q with frames := q.frames ++ [frame] } else q

/-- The first frame is taken out of the queue once its predecessor is read. -/
def load : Queue α → Queue α
  | ⟨[], frame :: frames⟩ => ⟨frame, frames⟩
  | q => q

/-- The word in front, `none` if there is none. -/
def read (q : Queue α) : Option α × Queue α :=
  match q.load with
  | ⟨x :: part, frames⟩ => (some x, ⟨part, frames⟩)
  | q => (none, q)

variable (q : Queue α)

@[simp] theorem words_empty : (empty : Queue α).words = [] := rfl

theorem words_write (depth : ℕ) (frame : List α) :
    (q.write depth frame).words =
      q.words ++ if q.frames.length < depth then frame else [] := by
  unfold write
  split
  · simp [words]
  · rw [List.append_nil]

@[simp] theorem words_load : q.load.words = q.words := by
  rcases q with ⟨_ | ⟨x, part⟩, _ | ⟨frame, frames⟩⟩ <;> rfl

theorem frames_load_subset : q.load.frames ⊆ q.frames := by
  rcases q with ⟨_ | ⟨x, part⟩, _ | ⟨frame, frames⟩⟩ <;> simp [load]

/-- The word in front is read if there is one. -/
theorem read_eq {q : Queue α} (hframes : ∀ frame ∈ q.frames, frame ≠ []) {x : α}
    {xs : List α} (h : q.words = x :: xs) :
    ∃ q', q.read = (some x, q') ∧ q'.words = xs ∧ q'.frames ⊆ q.frames := by
  have hsub := q.frames_load_subset
  have hwords := q.words_load
  have hpart : q.load.part ≠ [] := by
    rcases q with ⟨_ | ⟨y, part⟩, _ | ⟨frame, frames⟩⟩
    · cases h
    · exact hframes frame List.mem_cons_self
    · exact List.cons_ne_nil y part
    · exact List.cons_ne_nil y part
  unfold read
  rcases hload : q.load with ⟨_ | ⟨y, part⟩, frames⟩
  · rw [hload] at hpart
    exact absurd rfl hpart
  · rw [hload] at hwords hsub
    rw [← hwords, words, List.cons_append] at h
    obtain ⟨rfl, rfl⟩ := List.cons_eq_cons.mp h
    exact ⟨_, rfl, rfl, hsub⟩

/-- The queue without the next `n` words. -/
def skip (q : Queue α) : ℕ → Queue α
  | 0 => q
  | n + 1 => skip q.read.2 n

theorem skip_add (q : Queue α) (m n : ℕ) : q.skip (m + n) = (q.skip m).skip n := by
  induction m generalizing q with
  | zero => rw [Nat.zero_add, skip]
  | succ m ih => rw [Nat.add_right_comm, skip, skip, ih]

theorem skip_part (part : List α) (frames : List (List α)) :
    skip ⟨part, frames⟩ part.length = ⟨[], frames⟩ := by
  induction part with
  | nil => rfl
  | cons x part ih => exact ih

theorem skip_frames {size n : ℕ} (hpos : 0 < size) {frames : List (List α)}
    (hsize : ∀ frame ∈ frames, frame.length = size) (hn : n ≤ frames.length) :
    skip ⟨[], frames⟩ (n * size) = ⟨[], frames.drop n⟩ := by
  induction n generalizing frames with
  | zero =>
      rw [Nat.zero_mul]
      rfl
  | succ n ih =>
      obtain ⟨frame, frames, rfl⟩ := List.exists_cons_of_length_pos
        (show 0 < frames.length by omega)
      obtain ⟨hframe, hrest⟩ := List.forall_mem_cons.mp hsize
      obtain ⟨x, part, rfl⟩ := List.exists_cons_of_length_pos (hframe ▸ hpos)
      -- the first word of the frame is read after it is loaded
      have hfirst : skip ⟨[], (x :: part) :: frames⟩ size = ⟨[], frames⟩ := by
        rw [← hframe, List.length_cons]
        exact skip_part part frames
      rw [Nat.succ_mul, Nat.add_comm, skip_add, hfirst,
        ih hrest (by simpa using hn), List.drop_succ_cons]

end Queue

/-! ## What a reader takes -/

/-- The words `taken` and those in the queue are together the frames `whole`. -/
structure Pending (size : ℕ) (q : Queue α) (taken : List α)
    (whole : List (List α)) : Prop where
  words : taken ++ q.words = whole.flatten
  whole_size : ∀ frame ∈ whole, frame.length = size
  frames_size : ∀ frame ∈ q.frames, frame.length = size

namespace Pending

variable {size : ℕ} {q : Queue α} {taken : List α} {whole : List (List α)}

theorem empty : Pending size (Queue.empty : Queue α) [] [] where
  words := rfl
  whole_size := by simp
  frames_size := by simp [Queue.empty]

theorem write (h : Pending size q taken whole) (depth : ℕ) {frame : List α}
    (hframe : frame.length = size) :
    Pending size (q.write depth frame) taken
      (whole ++ if q.frames.length < depth then [frame] else []) where
  words := by
    rw [Queue.words_write, ← List.append_assoc, h.words, List.flatten_append]
    split <;> simp
  whole_size := by
    intro f hf
    rcases List.mem_append.mp hf with hold | hnew
    · exact h.whole_size f hold
    · split at hnew
      · exact List.mem_singleton.mp hnew ▸ hframe
      · cases hnew
  frames_size := by
    intro f hf
    unfold Queue.write at hf
    split at hf
    · rcases List.mem_append.mp hf with hold | hnew
      · exact h.frames_size f hold
      · exact List.mem_singleton.mp hnew ▸ hframe
    · exact h.frames_size f hf

theorem load (h : Pending size q taken whole) :
    Pending size q.load taken whole where
  words := by rw [Queue.words_load, h.words]
  whole_size := h.whole_size
  frames_size := fun f hf => h.frames_size f (q.frames_load_subset hf)

theorem length_flatten (h : Pending size q taken whole) :
    whole.flatten.length = whole.length * size :=
  FrameQueue.length_flatten h.whole_size

/-- The frames in the queue are not more than those left. -/
theorem count_le (h : Pending size q taken whole) :
    taken.length + q.frames.length * size ≤ whole.length * size := by
  have hlen := congrArg List.length h.words
  rw [List.length_append, Queue.words, List.length_append,
    FrameQueue.length_flatten h.frames_size, h.length_flatten] at hlen
  omega

/-- A reader that has not taken all of the frames gets their next word. -/
theorem read (h : Pending size q taken whole) (hpos : 0 < size)
    (hlt : taken.length < whole.length * size) :
    ∃ x q', q.read = (some x, q') ∧ Pending size q' (taken ++ [x]) whole := by
  have hlen := congrArg List.length h.words
  rw [List.length_append, h.length_flatten] at hlen
  obtain ⟨x, xs, hwords⟩ := List.exists_cons_of_length_pos
    (show 0 < q.words.length by omega)
  have hne : ∀ f ∈ q.frames, f ≠ [] := fun f hf =>
    List.ne_nil_of_length_pos (by rw [h.frames_size f hf]; exact hpos)
  obtain ⟨q', hread, hrest, hsub⟩ := Queue.read_eq hne hwords
  refine ⟨x, q', hread, ?_, h.whole_size, fun f hf => h.frames_size f (hsub hf)⟩
  rw [hrest, List.append_assoc, List.singleton_append, ← hwords, h.words]

/-- Once the words of `n` frames are taken they are the first `n`. -/
theorem finish (h : Pending size q taken whole) {n : ℕ}
    (htaken : taken.length = n * size) (hn : n ≤ whole.length) :
    taken = (whole.take n).flatten ∧ Pending size q [] (whole.drop n) := by
  have htake : (whole.take n).flatten.length = n * size := by
    rw [FrameQueue.length_flatten fun f hf => h.whole_size f (List.mem_of_mem_take hf),
      List.length_take, Nat.min_eq_left hn]
  have hsplit : taken ++ q.words =
      (whole.take n).flatten ++ (whole.drop n).flatten := by
    rw [h.words, ← List.flatten_append, List.take_append_drop]
  obtain ⟨hfront, hback⟩ := List.append_inj hsplit (htaken.trans htake.symm)
  exact ⟨hfront, by rw [List.nil_append, hback],
    fun f hf => h.whole_size f (List.mem_of_mem_drop hf), h.frames_size⟩

end Pending

/-! ## What a reader has been given -/

/-- A queue with its history: the frames written, and whether any of them was
lost. -/
structure Feed (α : Type*) where
  queue : Queue α
  written : List (List α)
  gaps : Bool

namespace Feed

def start : Feed α := ⟨Queue.empty, [], false⟩

def write (depth : ℕ) (s : Feed α) (frame : List α) : Feed α where
  queue := s.queue.write depth frame
  written := s.written ++ [frame]
  gaps := s.gaps || decide (depth ≤ s.queue.frames.length)

def load (s : Feed α) : Feed α := { s with queue := s.queue.load }

/-- What is in the queue is lost. -/
def clear (s : Feed α) : Feed α := { s with queue := Queue.empty, gaps := true }

/-- The word in front and the queue without it. -/
def read (s : Feed α) : Option α × Feed α :=
  (s.queue.read.1, { s with queue := s.queue.read.2 })

/-- Frames that are written while there is room. -/
theorem foldl_write {σ ι : Type*} (next : σ → ι → σ) (frame : ι → List α)
    (state : Feed α → σ) {depth : ℕ}
    (hnext : ∀ s i, next (state s) i = state (s.write depth (frame i)))
    {s : Feed α} {inputs : List ι}
    (hroom : s.queue.frames.length + inputs.length ≤ depth) :
    inputs.foldl next (state s) =
      state
        { s with
          queue := { s.queue with frames := s.queue.frames ++ inputs.map frame }
          written := s.written ++ inputs.map frame } := by
  induction inputs generalizing s with
  | nil => simp
  | cons i inputs ih =>
      rw [List.length_cons] at hroom
      have hfree : s.queue.frames.length < depth := by omega
      have hwrite : s.write depth (frame i) =
          { s with
            queue := { s.queue with frames := s.queue.frames ++ [frame i] }
            written := s.written ++ [frame i] } := by
        unfold write Queue.write
        rw [if_pos hfree, decide_eq_false (Nat.not_le.mpr hfree), Bool.or_false]
      rw [List.foldl_cons, hnext, hwrite, ih (by
        rw [List.length_append, List.length_singleton]
        omega)]
      simp

end Feed

/-- Of the frames written `out` were read, and those of `whole` are in the queue
but for the words in `taken`. -/
structure Stream (size : ℕ) (s : Feed α) (taken : List α)
    (out whole : List (List α)) : Prop where
  out_size : ∀ frame ∈ out, frame.length = size
  pending : Pending size s.queue taken whole
  order : (out ++ whole).Sublist s.written
  gapless : s.gaps = false → out ++ whole = s.written

/-- The words are those of the frames `kept`, sent `n` frames at a time. -/
structure Sent (n : ℕ) (words : List α) (kept : List (List α)) : Prop where
  words_eq : words = kept.flatten
  dvd : n ∣ kept.length

/-- The words sent are frames of the history, in order; none is missing in
between unless a frame was lost. -/
def Delivered (size n : ℕ) (s : Feed α) (sent : List α) : Prop :=
  ∃ kept, Sent n sent kept ∧ (∀ frame ∈ kept, frame.length = size) ∧
    kept.Sublist s.written ∧ (s.gaps = false → kept <+: s.written)

theorem Delivered.write {size n : ℕ} {s : Feed α} {sent : List α}
    (h : Delivered size n s sent) (depth : ℕ) (frame : List α) :
    Delivered size n (s.write depth frame) sent := by
  obtain ⟨kept, hsent, hsize, horder, hgapless⟩ := h
  refine ⟨kept, hsent, hsize, horder.trans (List.sublist_append_left _ _),
    fun hgaps => ?_⟩
  obtain ⟨hbefore, -⟩ := Bool.or_eq_false_iff.mp hgaps
  exact (hgapless hbefore).trans (List.prefix_append _ _)

theorem Sent.nil (n : ℕ) : Sent n ([] : List α) [] := ⟨rfl, Nat.dvd_zero _⟩

theorem Sent.append {n : ℕ} {sent words : List α} {kept block : List (List α)}
    (h : Sent n sent kept) (hwords : words = block.flatten)
    (hblock : block.length = n) : Sent n (sent ++ words) (kept ++ block) where
  words_eq := by rw [h.words_eq, hwords, List.flatten_append]
  dvd := by
    rw [List.length_append, hblock]
    exact Nat.dvd_add h.dvd (Nat.dvd_refl _)

namespace Stream

variable {size n : ℕ} {s : Feed α} {taken : List α} {out whole : List (List α)}

theorem start : Stream size (Feed.start : Feed α) [] [] [] where
  out_size := by simp
  pending := Pending.empty
  order := List.Sublist.refl _
  gapless := fun _ => rfl

/-- The frames that were sent are the first of those read. -/
theorem delivered_append {kept block : List (List α)} {sent : List α}
    (h : Stream size s taken (kept ++ block) whole) (hsent : Sent n sent kept) :
    Delivered size n s sent := by
  refine ⟨kept, hsent, fun f hf => h.out_size f (List.mem_append_left _ hf), ?_,
    fun hgaps => ?_⟩
  · refine List.Sublist.trans ?_ h.order
    rw [List.append_assoc]
    exact List.sublist_append_left _ _
  · rw [← h.gapless hgaps, List.append_assoc]
    exact List.prefix_append _ _

theorem delivered {sent : List α} (h : Stream size s taken out whole)
    (hsent : Sent n sent out) : Delivered size n s sent := by
  rw [← List.append_nil out] at h
  exact h.delivered_append hsent

theorem write (h : Stream size s taken out whole) (depth : ℕ) {frame : List α}
    (hframe : frame.length = size) :
    ∃ whole', Stream size (s.write depth frame) taken out whole' ∧
      whole <+: whole' := by
  refine ⟨_, ⟨h.out_size, h.pending.write depth hframe, ?_, fun hgaps => ?_⟩,
    List.prefix_append _ _⟩
  · rw [← List.append_assoc]
    refine h.order.append ?_
    split
    · exact List.Sublist.refl _
    · exact List.nil_sublist _
  · obtain ⟨hbefore, hroom⟩ := Bool.or_eq_false_iff.mp hgaps
    rw [if_pos (Nat.not_le.mp (of_decide_eq_false hroom)), ← List.append_assoc,
      h.gapless hbefore]
    rfl

theorem load (h : Stream size s taken out whole) :
    Stream size s.load taken out whole :=
  ⟨h.out_size, h.pending.load, h.order, h.gapless⟩

/-- The frames read before stay read. -/
theorem clear (h : Stream size s taken out whole) :
    Stream size s.clear [] out [] where
  out_size := h.out_size
  pending := Pending.empty
  order := by
    rw [List.append_nil]
    exact (List.sublist_append_left _ _).trans h.order
  gapless := by simp [Feed.clear]

theorem read (h : Stream size s taken out whole) (hpos : 0 < size)
    (hlt : taken.length < whole.length * size) :
    ∃ x, s.read.1 = some x ∧ Stream size s.read.2 (taken ++ [x]) out whole := by
  obtain ⟨x, q, hread, hpending⟩ := h.pending.read hpos hlt
  have hqueue : s.read.2.queue = q := congrArg Prod.snd hread
  refine ⟨x, congrArg Prod.fst hread, h.out_size, ?_, h.order, h.gapless⟩
  rw [hqueue]
  exact hpending

/-- Once the words of `n` frames are taken they are the next `n`. -/
theorem finish (h : Stream size s taken out whole)
    (htaken : taken.length = n * size) (hn : n ≤ whole.length) :
    ∃ block rest, taken = block.flatten ∧ block.length = n ∧
      Stream size s [] (out ++ block) rest := by
  obtain ⟨hblock, hpending⟩ := h.pending.finish htaken hn
  have hsplit : out ++ whole.take n ++ whole.drop n = out ++ whole := by
    rw [List.append_assoc, List.take_append_drop]
  refine ⟨whole.take n, whole.drop n, hblock, ?_, ?_, hpending, hsplit ▸ h.order,
    hsplit ▸ h.gapless⟩
  · rw [List.length_take, Nat.min_eq_left hn]
  · intro f hf
    rcases List.mem_append.mp hf with hold | hnew
    · exact h.out_size f hold
    · exact h.pending.whole_size f (List.mem_of_mem_take hnew)

/-- The frames in the queue are some of those that are left. -/
theorem count_le (h : Stream size s [] out whole) (hpos : 0 < size) :
    s.queue.frames.length ≤ whole.length := by
  have hle := h.pending.count_le
  rw [List.length_nil, Nat.zero_add] at hle
  exact Nat.le_of_mul_le_mul_right hle hpos

end Stream

end FrameQueue
