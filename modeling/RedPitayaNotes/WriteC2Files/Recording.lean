import Mathlib.Data.List.Nodup
import RedPitayaNotes.Support.Clocked
import RedPitayaNotes.Support.RowMajor
import RedPitayaNotes.WriteC2Files.Loops

/-!
# What the files of a recording hold

The buffer has a row for each channel, and the programs read the FIFO frame after
frame.  In every run the file of a band is its header, the samples of its channel
in the order in which they were written to the FIFO, and zeros up to its size.
-/

namespace RedPitayaNotes.WriteC2Files

open Bits FrameQueue RowMajor Strides

/-! ## Samples -/

/-- The integers of 64 bits that are read as these words. -/
def pairs : List (BitVec 32) → List (BitVec 64)
  | low :: high :: ws => (high ++ low) :: pairs ws
  | _ => []

theorem pairs_append {ws : List (BitVec 32)} (h : 2 ∣ ws.length)
    (vs : List (BitVec 32)) : pairs (ws ++ vs) = pairs ws ++ pairs vs := by
  induction ws using pairs.induct with
  | case1 low high ws ih =>
      have hrest : 2 ∣ ws.length := by
        simp only [List.length_cons] at h
        omega
      change (high ++ low) :: pairs (ws ++ vs) = _
      rw [ih hrest]
      rfl
  | case2 ws hshort =>
      rcases ws with _ | ⟨x, _ | ⟨y, ws⟩⟩
      · rfl
      · simp only [List.length_cons, List.length_nil] at h
        omega
      · exact absurd rfl (hshort x y ws)

theorem length_pairs (ws : List (BitVec 32)) : (pairs ws).length = ws.length / 2 := by
  induction ws using pairs.induct with
  | case1 low high ws ih =>
      rw [pairs, List.length_cons, ih]
      simp only [List.length_cons]
      omega
  | case2 ws hshort =>
      rcases ws with _ | ⟨x, _ | ⟨y, ws⟩⟩
      · rfl
      · simp [pairs]
      · exact absurd rfl (hshort x y ws)

/-- Sample `i` of a frame. -/
def sample (i : ℕ) (frame : List (BitVec 32)) : BitVec 64 :=
  frame.getD (2 * i + 1) 0 ++ frame.getD (2 * i) 0

variable {p : Program} {date : String} {settings : Settings}

/-- The frames `kept` are all that the programs read. -/
structure Recorded (p : Program) (fifo : Feed (BitVec 32))
    (buffer : List (BitVec 64)) (kept : List (List (BitVec 32))) : Prop where
  length_eq : kept.length = p.stop
  size : ∀ f ∈ kept, f.length = 16
  order : kept.Sublist fifo.written
  gapless : fifo.gaps = false → kept <+: fifo.written
  filled : Filled 8 p.room 0 (pairs kept.flatten) buffer

/-- The files of the first `n` bands. -/
def filesOf (p : Program) (date : String) (settings : Settings)
    (buffer : List (BitVec 64)) (n : ℕ) : List (String × List Byte) :=
  (settings.freq.take n).zipIdx.map fun x =>
    (p.name date x.2 x.1, p.content buffer x.2 x.1)

/-- The frames `out` are in the buffer, and the words `taken` of the next ones. -/
structure Reading (p : Program) (fifo : Feed (BitVec 32)) (offset : ℕ)
    (buffer : List (BitVec 64)) (taken : List (BitVec 32))
    (out whole : List (List (BitVec 32))) : Prop where
  stream : Stream 16 fifo taken out whole
  length_eq : out.length = offset
  filled : Filled 8 p.room 0 (pairs (out.flatten ++ taken)) buffer
  round : 250 ∣ offset

/-- What holds before each statement. -/
def Books (p : Program) (date : String) (settings : Settings) (s : State) : Prop :=
  match s.statement with
  | .reset => s.files = []
  | .enable => s.files = [] ∧ s.rst = false ∧ s.fifo = Feed.start
  | .test => s.files = [] ∧ s.offset ≤ p.stop ∧
      ∃ out whole, Reading p s.fifo s.offset s.buffer [] out whole
  | .wait => s.files = [] ∧ s.offset < p.stop ∧
      ∃ out whole, Reading p s.fifo s.offset s.buffer [] out whole
  | .copy i j => s.files = [] ∧ s.offset < p.stop ∧ i < 250 ∧ j < 8 ∧
      ∃ taken out whole, Reading p s.fifo s.offset s.buffer taken out whole ∧
        taken.length = 2 * (8 * i + j) ∧ 250 ≤ whole.length
  | .file i => i ≤ settings.freq.length ∧
      s.files = filesOf p date settings s.buffer i ∧
        ∃ kept, Recorded p s.fifo s.buffer kept
  | .success => s.files = filesOf p date settings s.buffer settings.freq.length ∧
      ∃ kept, Recorded p s.fifo s.buffer kept
  | .failure => ∃ i ≤ settings.freq.length,
      s.files = filesOf p date settings s.buffer i ∧
        ∃ kept, Recorded p s.fifo s.buffer kept

section Reading

variable {fifo : Feed (BitVec 32)} {offset : ℕ} {buffer : List (BitVec 64)}
  {taken : List (BitVec 32)} {out whole : List (List (BitVec 32))}

theorem Reading.write (h : Reading p fifo offset buffer taken out whole)
    (f : Frame) :
    ∃ whole', Reading p (fifo.write writeDepth f.words) offset buffer taken out
      whole' ∧ whole <+: whole' := by
  obtain ⟨whole', hstream, hle⟩ := h.stream.write writeDepth f.length_eq
  exact ⟨whole', ⟨hstream, h.length_eq, h.filled, h.round⟩, hle⟩

theorem Reading.load (h : Reading p fifo offset buffer taken out whole) :
    Reading p fifo.load offset buffer taken out whole :=
  ⟨h.stream.load, h.length_eq, h.filled, h.round⟩

/-- A sample goes to the row of its channel. -/
theorem Reading.copy {s : State}
    (h : Reading p s.fifo s.offset s.buffer taken out whole) {i j : ℕ}
    (hoffset : s.offset < p.stop) (hi : i < 250) (hj : j < 8)
    (htaken : taken.length = 2 * (8 * i + j)) (hwhole : 250 ≤ whole.length) :
    ∃ x y, Reading p (s.copy p i j).fifo s.offset (s.copy p i j).buffer
      (taken ++ [x] ++ [y]) out whole := by
  obtain ⟨x, hx, hone⟩ := h.stream.read (by decide)
    (show taken.length < whole.length * 16 by omega)
  obtain ⟨y, hy, htwo⟩ := hone.read (by decide)
    (show (taken ++ [x]).length < whole.length * 16 by
      rw [List.length_append, List.length_singleton]
      omega)
  have hroom : s.offset + i < p.room := by
    have hstop := p.stop_le
    have hdvd := p.stop_dvd
    have hround := h.round
    omega
  have hlen : (out.flatten ++ taken).length = 16 * s.offset + 2 * (8 * i + j) := by
    rw [List.length_append, FrameQueue.length_flatten h.stream.out_size, h.length_eq,
      htaken, Nat.mul_comm]
  refine ⟨x, y, htwo, h.length_eq, ?_, h.round⟩
  unfold State.copy
  dsimp only
  rw [hx, hy]
  have hfilled := h.filled.snoc hj hroom (by rw [length_pairs, hlen]; omega) (y ++ x)
  rw [← Nat.add_assoc] at hfilled
  have hpairs : pairs (out.flatten ++ (taken ++ [x] ++ [y])) =
      pairs (out.flatten ++ taken) ++ [y ++ x] := by
    rw [List.append_assoc taken, ← List.append_assoc,
      pairs_append (by rw [hlen]; omega)]
    rfl
  rw [hpairs]
  exact hfilled

/-- After the last sample of a round its frames are in the buffer. -/
theorem Reading.finish (h : Reading p fifo offset buffer taken out whole)
    (hoffset : offset < p.stop) (htaken : taken.length = 250 * 16)
    (hwhole : 250 ≤ whole.length) :
    offset + 250 ≤ p.stop ∧
      ∃ out' whole', Reading p fifo (offset + 250) buffer [] out' whole' := by
  obtain ⟨block, rest, hblock, hlen, hstream⟩ := h.stream.finish htaken hwhole
  refine ⟨?_, out ++ block, rest, hstream, ?_, ?_, ?_⟩
  · have hdvd := p.stop_dvd
    have hround := h.round
    omega
  · rw [List.length_append, h.length_eq, hlen]
  · rw [List.flatten_append, List.append_nil, ← hblock]
    exact h.filled
  · exact Nat.dvd_add h.round (Nat.dvd_refl _)

/-- At the end of the loop all the frames are in the buffer. -/
theorem Reading.recorded (h : Reading p fifo offset buffer [] out whole)
    (hoffset : offset = p.stop) : Recorded p fifo buffer out where
  length_eq := h.length_eq.trans hoffset
  size := h.stream.out_size
  order := (List.sublist_append_left _ _).trans h.stream.order
  gapless hgaps := (h.stream.gapless hgaps) ▸ List.prefix_append _ _
  filled := by
    have hfilled := h.filled
    rw [List.append_nil] at hfilled
    exact hfilled

end Reading

theorem filesOf_succ (buffer : List (BitVec 64)) {n : ℕ}
    (hn : n < settings.freq.length) :
    filesOf p date settings buffer (n + 1) = filesOf p date settings buffer n ++
      [(p.name date n settings.freq[n], p.content buffer n settings.freq[n])] := by
  have htake : (settings.freq.take n).length = n := by
    rw [List.length_take, Nat.min_eq_left hn.le]
  rw [filesOf, filesOf, List.take_succ_eq_append_getElem hn, List.zipIdx_append,
    List.map_append, htake, Nat.zero_add]
  rfl

section Events

variable {s : State}

theorem Books.frame (h : Books p date settings s) (f : Frame) :
    Books p date settings (s.frame f) := by
  unfold State.frame
  split
  next hwrite =>
    obtain ⟨hrst, hreads⟩ := Bool.and_eq_true_iff.mp hwrite
    unfold Books at h ⊢
    dsimp only
    cases hstatement : s.statement with
    | reset =>
        rw [hstatement] at h
        exact h
    | enable =>
        rw [hstatement] at h
        exact absurd (hrst.symm.trans h.2.1) (by decide)
    | test =>
        rw [hstatement] at h
        obtain ⟨hfiles, hoffset, out, whole, hreading⟩ := h
        obtain ⟨whole', hreading', -⟩ := hreading.write f
        exact ⟨hfiles, hoffset, out, whole', hreading'⟩
    | wait =>
        rw [hstatement] at h
        obtain ⟨hfiles, hoffset, out, whole, hreading⟩ := h
        obtain ⟨whole', hreading', -⟩ := hreading.write f
        exact ⟨hfiles, hoffset, out, whole', hreading'⟩
    | copy i j =>
        rw [hstatement] at h
        obtain ⟨hfiles, hoffset, hi, hj, taken, out, whole, hreading, htaken,
          hwhole⟩ := h
        obtain ⟨whole', hreading', hle⟩ := hreading.write f
        exact ⟨hfiles, hoffset, hi, hj, taken, out, whole', hreading', htaken,
          hwhole.trans hle.length_le⟩
    | file i => simp [hstatement, Statement.recorded] at hreads
    | success => simp [hstatement, Statement.recorded] at hreads
    | failure => simp [hstatement, Statement.recorded] at hreads
  next => exact h

theorem Recorded.load {fifo : Feed (BitVec 32)} {buffer : List (BitVec 64)}
    {kept : List (List (BitVec 32))} (h : Recorded p fifo buffer kept) :
    Recorded p fifo.load buffer kept :=
  ⟨h.length_eq, h.size, h.order, h.gapless, h.filled⟩

theorem Books.load (h : Books p date settings s) :
    Books p date settings { s with fifo := s.fifo.load } := by
  unfold Books at h ⊢
  dsimp only
  split at h
  next => exact h
  next =>
    obtain ⟨hfiles, hrst, hfifo⟩ := h
    refine ⟨hfiles, hrst, ?_⟩
    rw [hfifo]
    rfl
  next =>
    obtain ⟨hfiles, hoffset, out, whole, hreading⟩ := h
    exact ⟨hfiles, hoffset, out, whole, hreading.load⟩
  next =>
    obtain ⟨hfiles, hoffset, out, whole, hreading⟩ := h
    exact ⟨hfiles, hoffset, out, whole, hreading.load⟩
  next =>
    obtain ⟨hfiles, hoffset, hi, hj, taken, out, whole, hreading, hrest⟩ := h
    exact ⟨hfiles, hoffset, hi, hj, taken, out, whole, hreading.load, hrest⟩
  next =>
    obtain ⟨hi, hfiles, kept, hkept⟩ := h
    exact ⟨hi, hfiles, kept, hkept.load⟩
  next =>
    obtain ⟨hfiles, kept, hkept⟩ := h
    exact ⟨hfiles, kept, hkept.load⟩
  next =>
    obtain ⟨i, hi, hfiles, kept, hkept⟩ := h
    exact ⟨i, hi, hfiles, kept, hkept.load⟩

theorem Books.step (h : Books p date settings s) (a : Answer) :
    Books p date settings (s.step p date settings a) := by
  unfold State.step
  unfold Books at h
  cases hstatement : s.statement with
  | reset =>
      rw [hstatement] at h
      exact ⟨h, rfl, rfl⟩
  | enable =>
      rw [hstatement] at h
      obtain ⟨hfiles, -, hfifo⟩ := h
      refine ⟨hfiles, Nat.zero_le _, [], [], ?_, rfl, ?_, Nat.dvd_zero _⟩
      · change Stream 16 s.fifo [] [] []
        rw [hfifo]
        exact Stream.start
      · exact Filled.start 8 p.room 0
  | test =>
      rw [hstatement] at h
      obtain ⟨hfiles, hoffset, out, whole, hreading⟩ := h
      dsimp only
      split
      next hlt => exact ⟨hfiles, hlt, out, whole, hreading⟩
      next hge =>
        exact ⟨Nat.zero_le _, hfiles, out,
          hreading.recorded (Nat.le_antisymm hoffset (Nat.not_lt.mp hge))⟩
  | wait =>
      rw [hstatement] at h
      obtain ⟨hfiles, hoffset, out, whole, hreading⟩ := h
      dsimp only
      split
      next =>
        unfold Books
        rw [hstatement]
        exact ⟨hfiles, hoffset, out, whole, hreading⟩
      next hready =>
        have hcount := hreading.stream.count_le (by decide)
        refine ⟨hfiles, hoffset, by decide, by decide, [], out, whole, hreading,
          rfl, ?_⟩
        unfold State.cntr at hready
        omega
  | copy i j =>
      rw [hstatement] at h
      obtain ⟨hfiles, hoffset, hi, hj, taken, out, whole, hreading, htaken,
        hwhole⟩ := h
      obtain ⟨x, y, hnext⟩ := hreading.copy hoffset hi hj htaken hwhole
      have hlen : (taken ++ [x] ++ [y]).length = 2 * (8 * i + j + 1) := by
        rw [List.length_append, List.length_append, htaken]
        rfl
      dsimp only
      split
      next hrow =>
        exact ⟨hfiles, hoffset, hi, hrow, _, out, whole, hnext, hlen, hwhole⟩
      next hrow =>
        split
        next hcolumn =>
          exact ⟨hfiles, hoffset, hcolumn, by decide, _, out, whole, hnext,
            by rw [hlen]; omega, hwhole⟩
        next hcolumn =>
          obtain ⟨hle, out', whole', hround⟩ :=
            hnext.finish hoffset (by rw [hlen]; omega) hwhole
          exact ⟨hfiles, hle, out', whole', hround⟩
  | file i =>
      rw [hstatement] at h
      obtain ⟨hi, hfiles, hkept⟩ := h
      dsimp only
      split
      next hlt =>
        split
        next => exact ⟨i, hi, hfiles, hkept⟩
        next =>
          refine ⟨hlt, ?_, hkept⟩
          dsimp only
          rw [hfiles, filesOf_succ _ hlt]
      next hge =>
        have hlast : i = settings.freq.length := by omega
        subst hlast
        exact ⟨hfiles, hkept⟩
  | success =>
      unfold Books
      rw [hstatement] at h ⊢
      exact h
  | failure =>
      unfold Books
      rw [hstatement] at h ⊢
      exact h

theorem Books.next (h : Books p date settings s) (e : Event) :
    Books p date settings (s.next p date settings e) := by
  cases e with
  | frame f => exact h.frame f
  | load => exact h.load
  | step a => exact h.step a

end Events

/-! ## The files -/

/-- What holds of the files at any time. -/
theorem Books.files {s : State} (h : Books p date settings s) :
    (s.files = [] ∧ s.statement ≠ .success) ∨ ∃ n ≤ settings.freq.length,
      (s.statement = .success → n = settings.freq.length) ∧
        s.files = filesOf p date settings s.buffer n ∧
          ∃ kept, Recorded p s.fifo s.buffer kept := by
  unfold Books at h
  split at h
  next hstatement => exact Or.inl ⟨h, by simp [hstatement]⟩
  next hstatement => exact Or.inl ⟨h.1, by simp [hstatement]⟩
  next hstatement => exact Or.inl ⟨h.1, by simp [hstatement]⟩
  next hstatement => exact Or.inl ⟨h.1, by simp [hstatement]⟩
  next hstatement => exact Or.inl ⟨h.1, by simp [hstatement]⟩
  next i hstatement => exact Or.inr ⟨i, h.1, by simp [hstatement], h.2⟩
  next => exact Or.inr ⟨_, le_refl _, fun _ => rfl, h⟩
  next hstatement =>
    obtain ⟨i, hi, hrest⟩ := h
    exact Or.inr ⟨i, hi, by simp [hstatement], hrest⟩

/-- A frame in which every word is different. -/
def numbered (k : ℕ) : Frame where
  words := (List.range 16).map fun i => BitVec.ofNat 32 (100 * k + i)
  length_eq := by rw [List.length_map, List.length_range]

end RedPitayaNotes.WriteC2Files
