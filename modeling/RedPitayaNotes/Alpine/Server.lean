import Mathlib.Data.BitVec
import Mathlib.Data.List.Chain
import RedPitayaNotes.Support.Bits
import RedPitayaNotes.Support.CString

/-!
# The web server of the applications

`alpine/apps/server/server.c` answers one request: the path of the request line
is appended to a directory, and what is found there is started and sent.  The
line is read into a buffer that holds anything before, and the name of the file
is built in an array of 291 bytes.
-/

namespace RedPitayaNotes.Alpine.Server

open Bits Memory

def ascii (cs : List Char) : List Byte := cs.map fun c => BitVec.ofNat 8 c.toNat

/-- `"/media/mmcblk0p1/apps"` -/
def directory : List Byte :=
  ascii ['/', 'm', 'e', 'd', 'i', 'a', '/', 'm', 'm', 'c', 'b', 'l', 'k', '0',
    'p', '1', '/', 'a', 'p', 'p', 's']

/-- `"/start.sh"` -/
def startSh : List Byte := ascii ['/', 's', 't', 'a', 'r', 't', '.', 's', 'h']

/-- `"/index.html"` -/
def indexHtml : List Byte :=
  ascii ['/', 'i', 'n', 'd', 'e', 'x', '.', 'h', 't', 'm', 'l']

def slash : Byte := 47

def dot : Byte := 46

def space : Byte := 32

def newline : Byte := 10

/-- What is written to the client. -/
inductive Reply where
  | forbidden
  | redirect
  | okheader
  | temperature
  | file
deriving DecidableEq

inductive Event where
  /-- Bytes stored in `path` from an offset on. -/
  | store (offset : ℕ) (bytes : List Byte)
  | stat (path : ℕ → Byte)
  | detach (path : ℕ → Byte)
  | fopen (path : ℕ → Byte)
  | reply (reply : Reply)

/-- What the program finds: the two arrays before anything is stored in them,
and what the calls of the system return. -/
structure System where
  opensMem : Bool
  stdin : List Byte
  buffer : ℕ → Byte
  path : ℕ → Byte
  /-- `none` if there is no such file, or whether it is a directory. -/
  stat : Option Bool
  opensFile : Bool

/-! ## The request line -/

/-- `fgets(buffer, size, stdin)`: to the end of the line, if there is room. -/
def fgets (size : ℕ) (stdin : List Byte) : Option (List Byte) :=
  if stdin = [] then none
  else some (stdin.take (min (size - 1) (stdin.findIdx (· = newline) + 1)))

/-- `strncmp` with a string of that length finds no difference. -/
def startsWith (mem : ℕ → Byte) (start : ℕ) (s : List Byte) : Bool :=
  read mem start s.length = s

/-- `i` after the first loop. -/
def pathEnd (buffer : ℕ → Byte) : ℕ :=
  ((List.range' 5 250).find? fun i => buffer i = space).getD 255

/-- The buffer after the first loop. -/
def cut (buffer : ℕ → Byte) : ℕ → Byte :=
  if pathEnd buffer < 255 then store buffer (pathEnd buffer) [0] else buffer

/-- The second loop finds two dots. -/
def hasDots (buffer : ℕ → Byte) (i : ℕ) : Bool :=
  (List.range' 5 (i - 1 - 5)).any fun j =>
    buffer j = dot && buffer (j + 1) = dot

/-! ## The file -/

def openFile (sys : System) (path : ℕ → Byte) : List Event :=
  .fopen path ::
    if sys.opensFile then [.reply .okheader, .reply .file]
    else [.reply .redirect]

/-- From the construction of the path on. -/
def serve (sys : System) (buffer : ℕ → Byte) (i : ℕ) : List Event :=
  let copied := read buffer 4 (i - 3)
  let path := store (store sys.path 0 directory) 21 copied
  [.store 0 directory, .store 21 copied, .stat path] ++
    match sys.stat with
    | none => [.reply .redirect]
    | some false => openFile sys path
    | some true =>
      let started := store path (21 + i - 4) (startSh ++ [0])
      let opened := store started (21 + i - 4) (indexHtml ++ [0])
      [.store (21 + i - 4) (startSh ++ [0]), .detach started,
        .store (21 + i - 4) (indexHtml ++ [0])] ++ openFile sys opened

def main (sys : System) : List Event :=
  if sys.opensMem = false then [.reply .forbidden]
  else
    match fgets 256 sys.stdin with
    | none => [.reply .forbidden]
    | some line =>
      let buffer := store sys.buffer 0 (line ++ [0])
      if buffer 4 ≠ slash then [.reply .forbidden]
      else if startsWith buffer 0 (ascii ['G', 'E', 'T', ' ']) = false ∧
          startsWith buffer 0 (ascii ['g', 'e', 't', ' ']) = false then
        [.reply .forbidden]
      else
        let i := pathEnd buffer
        let buffer := cut buffer
        if hasDots buffer i then [.reply .forbidden]
        else if i = 10 ∧ startsWith buffer 5 (ascii ['t', 'e', 'm', 'p', '0']) then
          [.reply .okheader, .reply .temperature]
        else serve sys buffer i

/-! ## Confinement -/

/-- The path is a string in its array, below the directory. -/
def Confined (path : ℕ → Byte) : Prop :=
  ∃ s, IsString path 0 s ∧ s.length < 291 ∧ directory ++ [slash] <+: s ∧
    ¬[dot, dot] <:+: s

/-- What holds of one string at the start of the array holds of the only one. -/
theorem Confined.of_isString {path : ℕ → Byte} (h : Confined path)
    {s : List Byte} (hs : IsString path 0 s) :
    s.length < 291 ∧ directory ++ [slash] <+: s ∧ ¬[dot, dot] <:+: s := by
  obtain ⟨t, ht, hconfined⟩ := h
  rwa [hs.unique ht]

def Event.Safe : Event → Prop
  | .store offset bytes => offset + bytes.length ≤ 291
  | .stat path => Confined path
  | .detach path => Confined path
  | .fopen path => Confined path
  | .reply _ => True

/-- No cell and the next are both dots. -/
def NoDots (xs : List Byte) : Prop :=
  xs.IsChain fun x y => ¬(x = dot ∧ y = dot)

theorem NoDots.not_infix {xs : List Byte} (h : NoDots xs) :
    ¬[dot, dot] <:+: xs := by
  intro hinfix
  have hchain : NoDots [dot, dot] := List.IsChain.infix h hinfix
  have hpair := List.isChain_pair.mp hchain
  exact hpair ⟨rfl, rfl⟩

/-- A name that starts with a slash may be appended. -/
theorem NoDots.append {xs ys : List Byte} (hxs : NoDots xs) (hys : NoDots ys)
    (hslash : ∀ y ∈ ys.head?, y = slash) : NoDots (xs ++ ys) := by
  refine List.IsChain.append hxs hys ?_
  rintro x - y hy ⟨-, hdot⟩
  rw [hslash y hy] at hdot
  exact absurd hdot (by decide)

/-- What was stored at the start of the array, up to one cell that may be the
first zero. -/
theorem confined_of_holds {path : ℕ → Byte} {xs : List Byte} {z : Byte}
    (hholds : Holds path 0 (xs ++ [z])) (hzero : 0 ∈ xs ∨ z = 0)
    (hdirectory : directory ++ [slash] <+: xs) (hdots : NoDots xs)
    (hlen : xs.length < 291) : Confined path := by
  have hle := List.takeWhile_prefix (· ≠ (0 : Byte)) (l := xs)
  refine ⟨_, isString_of_holds_snoc hholds hzero, ?_, ?_, ?_⟩
  · exact lt_of_le_of_lt hle.length_le hlen
  · obtain ⟨rest, rfl⟩ := hdirectory
    have hne : ∀ x ∈ directory ++ [slash], decide (x ≠ 0) = true := by decide
    rw [List.takeWhile_append_of_pos hne]
    exact List.prefix_append _ _
  · have hchain : NoDots (xs.takeWhile (· ≠ 0)) :=
      List.IsChain.prefix hdots hle
    exact hchain.not_infix

/-! ## The checks of the request line -/

/-- What is known of the buffer where the path is built. -/
structure Checked (buffer : ℕ → Byte) (i : ℕ) : Prop where
  five_le : 5 ≤ i
  le : i ≤ 255
  four_eq : buffer 4 = slash
  dots : ∀ j, 4 ≤ j → j + 1 < i → ¬(buffer j = dot ∧ buffer (j + 1) = dot)
  terminated : (∃ j, 4 ≤ j ∧ j < i ∧ buffer j = 0) ∨ buffer i = 0

theorem pathEnd_bounds (buffer : ℕ → Byte) :
    5 ≤ pathEnd buffer ∧ pathEnd buffer ≤ 255 := by
  rw [pathEnd]
  cases hfind : (List.range' 5 250).find? fun i => buffer i = space with
  | none => exact ⟨by decide, le_rfl⟩
  | some i =>
      have hmem := List.mem_range'_1.mp (List.mem_of_find?_eq_some hfind)
      rw [Option.getD_some]
      omega

theorem cut_of_ne {buffer : ℕ → Byte} {n : ℕ} (h : n ≠ pathEnd buffer) :
    cut buffer n = buffer n := by
  rw [cut]
  split_ifs with hroom
  · rcases Nat.lt_or_gt_of_ne h with hlt | hgt
    · exact store_of_lt hlt _ _
    · exact store_of_ge hgt _
  · rfl

theorem cut_pathEnd {buffer : ℕ → Byte} (h : pathEnd buffer < 255) :
    cut buffer (pathEnd buffer) = 0 := by
  rw [cut, if_pos h]
  have hzero : 0 < [(0 : Byte)].length := Nat.zero_lt_one
  exact store_add hzero buffer (pathEnd buffer)

theorem ne_zero_of_startsWith {mem : ℕ → Byte} {start : ℕ} {s : List Byte}
    (h : startsWith mem start s = true) (hs : 0 ∉ s) {n : ℕ}
    (hn : n < s.length) : mem (start + n) ≠ 0 := by
  have hread : read mem start s.length = s := of_decide_eq_true h
  intro hzero
  rw [holds_iff_getElem.mp hread n hn] at hzero
  exact hs (hzero ▸ List.getElem_mem hn)

theorem length_fgets {size : ℕ} {stdin line : List Byte}
    (h : fgets size stdin = some line) : line.length ≤ size - 1 := by
  rw [fgets] at h
  split_ifs at h
  rw [← Option.some.inj h, List.length_take]
  omega

/-- A line that passes the checks leaves a zero where the first loop stopped or
before: its own one or that of `fgets`. -/
theorem checked_cut {rest : ℕ → Byte} {line : List Byte}
    (hlen : line.length ≤ 255) {verb : List Byte} (hverb : verb.length = 4)
    (hnonzero : 0 ∉ verb) :
    let buffer := store rest 0 (line ++ [0])
    buffer 4 = slash → startsWith buffer 0 verb = true →
      hasDots (cut buffer) (pathEnd buffer) = false →
      Checked (cut buffer) (pathEnd buffer) := by
  intro buffer hslash hstart hdots
  obtain ⟨hfive, hle⟩ := pathEnd_bounds buffer
  have hfour : cut buffer 4 = slash := by
    rw [cut_of_ne (by omega), hslash]
  have hend : buffer line.length = 0 := by
    have h := holds_iff_getElem.mp (holds_store_self rest 0 (line ++ [0]))
      line.length (by simp)
    rw [Nat.zero_add, List.getElem_concat_length rfl] at h
    exact h
  have hlong : 4 ≤ line.length := by
    by_contra hshort
    apply ne_zero_of_startsWith hstart hnonzero (n := line.length) (by omega)
    rw [Nat.zero_add, hend]
  refine ⟨hfive, hle, hfour, ?_, ?_⟩
  · rintro j hj hlt ⟨hdot, hnext⟩
    rcases Nat.eq_or_lt_of_le hj with rfl | hgt
    · rw [hfour] at hdot
      exact absurd hdot (by decide)
    · rw [hasDots, List.any_eq_false] at hdots
      apply hdots j (List.mem_range'_1.mpr (by omega))
      rw [hdot, hnext]
      rfl
  · rcases Nat.eq_or_lt_of_le hle with hfull | hroom
    · rcases Nat.eq_or_lt_of_le hlen with hmax | hshort
      · -- the longest line, without a space
        right
        rw [cut, if_neg (by omega), hfull, ← hmax, hend]
      · left
        refine ⟨line.length, hlong, by omega, ?_⟩
        rw [cut_of_ne (by omega), hend]
    · exact Or.inr (cut_pathEnd hroom)

/-! ## The path -/

section Path

variable {buffer : ℕ → Byte} {i : ℕ} (h : Checked buffer i)

include h

/-- The part of the request that is copied, without its last byte. -/
theorem Checked.segment :
    ∃ tail, read buffer 4 (i - 4) = slash :: tail := by
  have hfive := h.five_le
  have hlen : i - 4 = 1 + (i - 5) := by omega
  refine ⟨read buffer 5 (i - 5), ?_⟩
  rw [hlen, read_add, Memory.read, List.range'_one, List.map_singleton, h.four_eq]
  rfl

theorem Checked.noDots_segment : NoDots (read buffer 4 (i - 4)) := by
  rw [NoDots, List.isChain_iff_getElem]
  intro k hk
  rw [length_read] at hk
  rw [getElem_read, getElem_read]
  exact h.dots (4 + k) (by omega) (by omega)

theorem Checked.noDots_base :
    NoDots (directory ++ read buffer 4 (i - 4)) := by
  have hdirectory : NoDots directory := by
    rw [NoDots]
    decide
  apply hdirectory.append h.noDots_segment
  obtain ⟨tail, htail⟩ := h.segment
  rw [htail]
  rintro y ⟨⟩
  rfl

theorem Checked.directory_le :
    directory ++ [slash] <+: directory ++ read buffer 4 (i - 4) := by
  obtain ⟨tail, htail⟩ := h.segment
  rw [htail]
  exact ⟨tail, by simp⟩

theorem Checked.length_base :
    (directory ++ read buffer 4 (i - 4)).length = 21 + i - 4 := by
  have hfive := h.five_le
  have hdirectory : directory.length = 21 := rfl
  rw [List.length_append, length_read, hdirectory]
  omega

/-- The directory and what is copied from the buffer. -/
theorem Checked.holds_base (path : ℕ → Byte) :
    Holds (store (store path 0 directory) 21 (read buffer 4 (i - 3))) 0
      ((directory ++ read buffer 4 (i - 4)) ++ [buffer i]) := by
  have hfive := h.five_le
  have hlen : i - 3 = (i - 4) + 1 := by omega
  have hcopied : read buffer 4 (i - 3) = read buffer 4 (i - 4) ++ [buffer i] := by
    have hi : 4 + (i - 4) = i := by omega
    rw [hlen, read_add, hi]
    rfl
  have hdirectory : 21 = 0 + directory.length := rfl
  rw [hcopied, hdirectory, store_store, List.append_assoc]
  exact holds_store_self _ _ _

theorem Checked.confined_base (path : ℕ → Byte) :
    Confined (store (store path 0 directory) 21 (read buffer 4 (i - 3))) := by
  have hle := h.le
  apply confined_of_holds (h.holds_base path) _ h.directory_le h.noDots_base
  · rw [h.length_base]
    omega
  · rcases h.terminated with ⟨j, hj, hlt, hzero⟩ | hzero
    · left
      have hmem : buffer j ∈ read buffer 4 (i - 4) :=
        List.mem_map_of_mem (List.mem_range'_1.mpr (by omega))
      rw [hzero] at hmem
      exact List.mem_append_right _ hmem
    · exact Or.inr hzero

/-- The end of the path replaced by a name. -/
theorem Checked.confined_store {path : ℕ → Byte} {z : List Byte}
    (hholds : Holds path 0 ((directory ++ read buffer 4 (i - 4)) ++ z))
    (name : List Byte) (hslash : ∀ y ∈ name.head?, y = slash)
    (hdots : NoDots name) (hlen : name.length ≤ 11) :
    Confined (store path (21 + i - 4) (name ++ [0])) ∧
      Holds (store path (21 + i - 4) (name ++ [0])) 0
        ((directory ++ read buffer 4 (i - 4)) ++ (name ++ [0])) := by
  have hle := h.le
  have hlength := h.length_base
  have hnew : Holds (store path (21 + i - 4) (name ++ [0])) 0
      ((directory ++ read buffer 4 (i - 4)) ++ (name ++ [0])) := by
    refine holds_append.mpr ⟨?_, ?_⟩
    · exact (holds_append.mp hholds).1.store (Or.inl (by omega))
    · rw [Nat.zero_add, hlength]
      exact holds_store_self _ _ _
  refine ⟨?_, hnew⟩
  rw [← List.append_assoc] at hnew
  apply confined_of_holds hnew (Or.inr rfl)
  · exact h.directory_le.trans (List.prefix_append _ _)
  · exact h.noDots_base.append hdots hslash
  · rw [List.length_append, hlength]
    omega

end Path

/-! ## The events -/

theorem safe_openFile (sys : System) {path : ℕ → Byte} (h : Confined path) :
    ∀ e ∈ openFile sys path, e.Safe := by
  intro e he
  rw [openFile, List.mem_cons] at he
  rcases he with rfl | he
  · exact h
  · split_ifs at he <;> simp at he
    · rcases he with rfl | rfl <;> trivial
    · rw [he]
      trivial

theorem safe_serve (sys : System) {buffer : ℕ → Byte} {i : ℕ}
    (h : Checked buffer i) : ∀ e ∈ serve sys buffer i, e.Safe := by
  have hfive := h.five_le
  have hle := h.le
  have hbase := h.confined_base sys.path
  have hstart := h.confined_store (h.holds_base sys.path) startSh
    (by decide) (by rw [NoDots]; decide) (by decide)
  have hindex := h.confined_store hstart.2 indexHtml (by decide)
    (by rw [NoDots]; decide) (by decide)
  have hparts : ∀ e ∈ [Event.store 0 directory,
      .store 21 (read buffer 4 (i - 3)),
      .stat (store (store sys.path 0 directory) 21 (read buffer 4 (i - 3)))],
      e.Safe := by
    simp only [List.forall_mem_cons, Event.Safe, length_read]
    refine ⟨by decide, by omega, hbase, by simp⟩
  rw [serve, List.forall_mem_append]
  refine ⟨hparts, ?_⟩
  cases sys.stat with
  | none => simp [Event.Safe]
  | some directory =>
      cases directory with
      | false => exact safe_openFile sys hbase
      | true =>
          rw [List.forall_mem_append]
          refine ⟨?_, safe_openFile sys hindex.1⟩
          have hsh : (startSh ++ [0]).length = 10 := rfl
          have hhtml : (indexHtml ++ [0]).length = 12 := rfl
          simp only [List.forall_mem_cons, Event.Safe, hsh, hhtml]
          exact ⟨by omega, hstart.1, by omega, by simp⟩

/-- Whatever the request and the arrays hold, every path that is looked up,
started or opened is a string below the directory without two dots in a row, and
every store is inside the array. -/
theorem main_safe (sys : System) : ∀ e ∈ main sys, e.Safe := by
  have hreply : ∀ reply, ∀ e ∈ [Event.reply reply], e.Safe := by
    intro reply e he
    rw [List.mem_singleton.mp he]
    trivial
  rw [main]
  split_ifs with hmem
  · exact hreply _
  · cases hline : fgets 256 sys.stdin with
    | none => exact hreply _
    | some line =>
        have hlen : line.length ≤ 255 := length_fgets hline
        dsimp only
        split_ifs with hslash hverb hdots htemp
        · exact hreply _
        · exact hreply _
        · exact hreply _
        · rw [List.forall_mem_cons]
          exact ⟨trivial, hreply _⟩
        · apply safe_serve
          have hslash := not_not.mp hslash
          have hdots := Bool.eq_false_iff.mpr hdots
          by_cases hget : startsWith (store sys.buffer 0 (line ++ [0])) 0
              (ascii ['G', 'E', 'T', ' ']) = true
          · exact checked_cut hlen rfl (by decide) hslash hget hdots
          · have hget := Bool.eq_false_iff.mpr hget
            have hlower : startsWith (store sys.buffer 0 (line ++ [0])) 0
                (ascii ['g', 'e', 't', ' ']) = true := by
              by_contra hnot
              exact hverb ⟨hget, Bool.eq_false_iff.mpr hnot⟩
            exact checked_cut hlen rfl (by decide) hslash hlower hdots

/-- `"GET /led/ HTTP/1.0"` for a directory. -/
def sampleSystem : System where
  opensMem := true
  stdin := ascii ['G', 'E', 'T', ' ', '/', 'l', 'e', 'd', '/', ' ', 'H', 'T', 'T',
    'P', '/', '1', '.', '0'] ++ [newline]
  buffer _ := dot
  path _ := dot
  stat := some true
  opensFile := true

theorem main_safe_led :
    ∃ path, .detach path ∈ main sampleSystem ∧ Confined path := by
  have hmem : ∃ path, .detach path ∈ main sampleSystem :=
    ⟨_, List.mem_of_getElem? (i := 4) rfl⟩
  obtain ⟨path, hpath⟩ := hmem
  exact ⟨path, hpath, main_safe sampleSystem _ hpath⟩

end RedPitayaNotes.Alpine.Server
