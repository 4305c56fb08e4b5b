import RedPitayaNotes.Support.Bits

/-!
# Three-wire serial registers

A device with a data, a clock and a latch pin shifts its data pin in at each
rising edge of the clock.  It shows the register while the latch pin is high,
and what it showed last while the pin is low.  A sender that shifts a whole
value in with the latch low changes what the device shows in one step.
-/

namespace ThreeWire

open Bits

inductive Pin where
  | data
  | clk
  | le
deriving DecidableEq, Repr

structure Device (w : ℕ) where
  data : Bool
  clk : Bool
  le : Bool
  shift : BitVec w
  /-- What is shown while `le` is low. -/
  held : BitVec w
deriving DecidableEq, Repr

namespace Device

variable {w : ℕ}

def output (d : Device w) : BitVec w :=
  if d.le then d.shift else d.held

def write (d : Device w) : Pin × Bool → Device w
  | (.data, b) => { d with data := b }
  | (.clk, b) =>
      { d with
        clk := b
        shift := if b && !d.clk then shiftIn d.shift d.data else d.shift }
  | (.le, b) => { d with le := b, held := d.output }

def writes (d : Device w) (ws : List (Pin × Bool)) : Device w :=
  ws.foldl write d

theorem writes_append (d : Device w) (ws ws' : List (Pin × Bool)) :
    d.writes (ws ++ ws') = (d.writes ws).writes ws' :=
  List.foldl_append

/-- With the latch low the device shows what it showed. -/
theorem output_writes_of_low {d : Device w} {ws : List (Pin × Bool)}
    (hlow : d.le = false) (hws : ∀ x ∈ ws, x ≠ (.le, true)) :
    (d.writes ws).le = false ∧ (d.writes ws).output = d.output := by
  induction ws generalizing d with
  | nil => exact ⟨hlow, rfl⟩
  | cons x ws ih =>
      obtain ⟨hx, hrest⟩ := List.forall_mem_cons.mp hws
      have hstep : (d.write x).le = false ∧ (d.write x).output = d.output := by
        obtain ⟨pin, b⟩ := x
        cases pin with
        | data => exact ⟨hlow, by simp only [output, write, hlow]⟩
        | clk => exact ⟨hlow, by simp [output, write, hlow]⟩
        | le =>
            cases b with
            | false => exact ⟨rfl, by simp [output, write]⟩
            | true => exact absurd rfl hx
      obtain ⟨hle, hout⟩ := ih hstep.1 hrest
      exact ⟨hle, hout.trans hstep.2⟩

end Device

/-! ## The sender -/

/-- The writes for one bit. -/
def bit (b : Bool) : List (Pin × Bool) :=
  [(.data, b), (.clk, true), (.clk, false)]

/-- The writes for one value, its first bit first. -/
def send (bits : List Bool) : List (Pin × Bool) :=
  (.clk, false) :: (.le, false) :: bits.flatMap bit ++ [(.le, true)]

namespace Device

variable {w : ℕ}

theorem writes_bits {d : Device w} (hclk : d.clk = false) (bits : List Bool) :
    (d.writes (bits.flatMap bit)).shift = bits.foldl shiftIn d.shift := by
  induction bits generalizing d with
  | nil => rfl
  | cons b bits ih =>
      rw [List.flatMap_cons, writes_append, ih rfl, List.foldl_cons]
      simp [writes, bit, write, hclk]

/-- The low levels at the start of a value change nothing that is shown. -/
theorem output_writes_start (d : Device w) :
    (d.writes [(.clk, false)]).output = d.output ∧
      (d.writes [(.clk, false), (.le, false)]).output = d.output := by
  simp [writes, write, output]

/-- Until the latch is raised the device shows what it showed; then it shows
the bits sent, if there are as many as it holds. -/
theorem output_send (d : Device w) (bits : List Bool) :
    (∀ ws, ws <+: send bits → ws ≠ send bits →
      (d.writes ws).output = d.output) ∧
    (d.writes (send bits)).output = bits.foldl shiftIn d.shift := by
  constructor
  · intro ws hpast hne
    obtain ⟨hfirst, hsecond⟩ := d.output_writes_start
    rcases List.prefix_concat_iff.mp hpast with hall | hpast
    · exact absurd hall hne
    rcases ws with _ | ⟨x, _ | ⟨y, ws⟩⟩
    · rfl
    · obtain ⟨hx, -⟩ := List.cons_prefix_cons.mp hpast
      rw [hx]
      exact hfirst
    · obtain ⟨hx, hpast⟩ := List.cons_prefix_cons.mp hpast
      obtain ⟨hy, hpast⟩ := List.cons_prefix_cons.mp hpast
      rw [hx, hy]
      have hlow : ∀ x ∈ ws, x ≠ (.le, true) := by
        intro x hx
        obtain ⟨b, -, hb⟩ := List.mem_flatMap.mp (hpast.subset hx)
        rintro rfl
        simp [bit] at hb
      have hrest := output_writes_of_low
        (d := d.writes [(.clk, false), (.le, false)]) rfl hlow
      exact hrest.2.trans hsecond
  · have hshift := writes_bits
      (d := d.writes [(.clk, false), (.le, false)]) rfl bits
    have hsplit : send bits =
        [(.clk, false), (.le, false)] ++ bits.flatMap bit ++ [(.le, true)] :=
      rfl
    rw [hsplit, writes_append, writes_append]
    simp only [writes, List.foldl_cons, List.foldl_nil, write, output] at hshift ⊢
    simpa using hshift

/-- A register that is sent as many bits as it holds holds those bits. -/
theorem foldl_shiftIn_eq {v x : BitVec w} {bits : List Bool}
    (hlen : bits.length = w)
    (hbits : ∀ j (hj : j < bits.length), bits[j] = x.getLsbD (w - 1 - j)) :
    bits.foldl shiftIn v = x := by
  apply BitVec.eq_of_getLsbD_eq
  intro j hj
  rw [getLsbD_foldl_shiftIn bits v hj (by omega), hbits _ (by omega)]
  congr 1
  omega

end Device

end ThreeWire
