import RedPitayaNotes.Support.Clocked

/-!
# The cma kernel module

`patches/cma.c` gives one buffer of coherent memory at a time to the programs
that open `/dev/cma`.  The buffer is described by three global variables that
all file handles share: `CMA_ALLOC` replaces it, `mmap` maps it, and the release
of any handle frees it.  The kernel around the module is modelled by the events
it delivers, with the answers of the functions that the module calls.
-/

namespace RedPitayaNotes.Cma

open Clocked

/-! ## The module -/

/-- A range of memory, in bytes. -/
structure Region where
  addr : ℕ
  size : ℕ
deriving DecidableEq

def Region.Contains (r : Region) (b : ℕ) : Prop :=
  r.addr ≤ b ∧ b < r.addr + r.size

/-- Every byte of the region is in an allocated one. -/
def Region.Live (r : Region) (allocated : List Region) : Prop :=
  ∀ b, r.Contains b → ∃ a ∈ allocated, a.Contains b

/-- The global variables, `none` for a NULL pointer, and the memory that the
device has from the kernel. -/
structure Module where
  dmaSize : ℕ
  cpuAddr : Option ℕ
  dmaAddr : ℕ
  allocated : List Region

/-- The module as loaded. -/
def Module.init : Module where
  dmaSize := 0
  cpuAddr := none
  dmaAddr := 0
  allocated := []

/-- `dma_free_coherent` gives back `dma_size` bytes at `dma_addr`. -/
def cmaFree (m : Module) : Module :=
  match m.cpuAddr with
  | none => m
  | some _ =>
    { m with
      allocated := m.allocated.erase ⟨m.dmaAddr, m.dmaSize⟩
      cpuAddr := none }

/-- What `dma_alloc_coherent` returns, and the value of `dma_addr` after it. -/
inductive Allocation where
  | memory (cpuAddr dmaAddr : ℕ)
  | null (dmaAddr : ℕ)
  | error (errno : ℕ) (dmaAddr : ℕ)

/-- A call of `ioctl` with the answers of the functions it calls: the bytes that
`copy_from_user` and `copy_to_user` could not copy, the word read, and the
allocation. -/
structure Call where
  cmd : BitVec 32
  copyFromUser : ℕ
  buffer : BitVec 32
  allocation : Allocation
  copyToUser : ℕ

/-- `_IOWR('Z', 0, u32)` -/
def cmaAlloc : BitVec 32 := 0xC0045A00

def enotty : ℤ := 25

def enomem : ℤ := 12

/-- The module after the call, its return value, and the word for the user. -/
def cmaIoctl (m : Module) (c : Call) : Module × ℤ × Option (BitVec 32) :=
  if c.cmd ≠ cmaAlloc then (m, -enotty, none)
  else if c.copyFromUser ≠ 0 then (m, c.copyFromUser, none)
  else
    let m := { cmaFree m with dmaSize := c.buffer.toNat }
    match c.allocation with
    | .null dmaAddr => ({ m with cpuAddr := none, dmaAddr }, -enomem, none)
    | .error errno dmaAddr =>
      ({ m with cpuAddr := none, dmaAddr }, -errno, none)
    | .memory cpuAddr dmaAddr =>
      ({ m with
          cpuAddr := some cpuAddr
          dmaAddr
          allocated := ⟨dmaAddr, m.dmaSize⟩ :: m.allocated },
        c.copyToUser, some (BitVec.ofNat 32 dmaAddr))

/-- The memory that `dma_mmap_coherent` maps: `cpu_addr` does not matter. -/
def cmaMmap (m : Module) : Region := ⟨m.dmaAddr, m.dmaSize⟩

def cmaRelease (m : Module) : Module × ℤ := (cmaFree m, 0)

/-! ## The kernel around it -/

structure Mapping where
  file : ℕ
  region : Region
deriving DecidableEq

structure System where
  module : Module
  /-- The open file handles. -/
  files : List ℕ
  mappings : List Mapping

def System.init : System where
  module := Module.init
  files := []
  mappings := []

inductive Event where
  | openFile (file : ℕ)
  | ioctl (file : ℕ) (call : Call)
  /-- `dma_mmap_coherent` may fail. -/
  | mmap (file : ℕ) (mapped : Bool)
  | munmap (mapping : Mapping)
  /-- The last reference to the handle goes. -/
  | close (file : ℕ)

/-- The handle can be released: it is open and has no mappings. -/
def System.Idle (s : System) (file : ℕ) : Prop :=
  file ∈ s.files ∧ ∀ m ∈ s.mappings, m.file ≠ file

instance (s : System) (file : ℕ) : Decidable (s.Idle file) := by
  unfold System.Idle
  infer_instance

/-- An event that the kernel does not deliver changes nothing. -/
def next (s : System) : Event → System
  | .openFile file =>
    if file ∈ s.files then s else { s with files := file :: s.files }
  | .ioctl file call =>
    if file ∈ s.files then { s with module := (cmaIoctl s.module call).1 }
    else s
  | .mmap file mapped =>
    if file ∈ s.files ∧ mapped = true then
      { s with mappings := ⟨file, cmaMmap s.module⟩ :: s.mappings }
    else s
  | .munmap mapping => { s with mappings := s.mappings.erase mapping }
  | .close file =>
    if s.Idle file then
      { s with
        module := (cmaRelease s.module).1
        files := s.files.erase file }
    else s

/-- Every mapping refers to allocated memory. -/
def System.Live (s : System) : Prop :=
  ∀ m ∈ s.mappings, m.region.Live s.module.allocated

/-- Mappings refer to allocated memory throughout a run, and no mapping of any
other memory is made. -/
structure MappingsLive (events : List Event) : Prop where
  live : ∀ before, before <+: events → (run next System.init before).Live
  mmaps : ∀ c ∈ trace next System.init events, ∀ file,
    c.input = .mmap file true → file ∈ c.state.files →
      (cmaMmap c.state.module).Live c.state.module.allocated

/-! ## What keeps mappings live -/

/-- The memory that the allocation adds. -/
def Call.block (c : Call) : List Region :=
  match c.allocation with
  | .memory _ dmaAddr => [⟨dmaAddr, c.buffer.toNat⟩]
  | _ => []

/-- The event does not take memory away from a mapping and does not map memory
that there is not: `CMA_ALLOC` gives a buffer that covers the mappings there
are, a mapping is made while there is a buffer, and a handle is released when
there is no buffer or nothing is mapped. -/
def Keeps (s : System) : Event → Prop
  | .ioctl file call =>
    file ∈ s.files → call.cmd = cmaAlloc → call.copyFromUser = 0 →
      ∀ m ∈ s.mappings, m.region.Live call.block
  | .mmap file mapped =>
    file ∈ s.files → mapped = true →
      s.module.cpuAddr ≠ none ∨ s.module.dmaSize = 0
  | .close file =>
    s.Idle file → s.module.cpuAddr = none ∨
      ∀ m ∈ s.mappings, m.region.size = 0
  | .openFile _ => True
  | .munmap _ => True

/-! ## One buffer at a time -/

/-- The memory that the global variables describe. -/
def Module.buffer (m : Module) : List Region :=
  match m.cpuAddr with
  | none => []
  | some _ => [cmaMmap m]

/-- The module has that memory and no other. -/
def Module.OneBuffer (m : Module) : Prop := m.allocated = m.buffer

theorem oneBuffer_init : Module.init.OneBuffer := rfl

theorem cmaFree_eq {m : Module} (h : m.OneBuffer) :
    cmaFree m = { m with allocated := [], cpuAddr := none } := by
  obtain ⟨dmaSize, cpuAddr, dmaAddr, allocated⟩ := m
  cases cpuAddr with
  | none =>
      have hnone : allocated = [] := h
      rw [hnone]
      rfl
  | some cpuAddr =>
      have hone : allocated = [⟨dmaAddr, dmaSize⟩] := h
      rw [hone, cmaFree, List.erase_cons_head]

theorem OneBuffer.cmaFree {m : Module} (h : m.OneBuffer) :
    (Cma.cmaFree m).OneBuffer := by
  rw [cmaFree_eq h]
  rfl

/-- A call either is refused before it touches the buffer or replaces the buffer
by what it allocates. -/
theorem cmaIoctl_cases {m : Module} (h : m.OneBuffer) (c : Call) :
    ((cmaIoctl m c).1 = m ∧ ¬(c.cmd = cmaAlloc ∧ c.copyFromUser = 0)) ∨
      ((c.cmd = cmaAlloc ∧ c.copyFromUser = 0) ∧
        (cmaIoctl m c).1.allocated = c.block ∧
        (cmaIoctl m c).1.OneBuffer) := by
  by_cases hcmd : c.cmd = cmaAlloc
  · by_cases hcopy : c.copyFromUser = 0
    · refine Or.inr ⟨⟨hcmd, hcopy⟩, ?_⟩
      rw [cmaIoctl, if_neg (not_not.mpr hcmd), if_neg (not_not.mpr hcopy),
        cmaFree_eq h, Call.block]
      cases c.allocation <;> exact ⟨rfl, rfl⟩
    · refine Or.inl ⟨?_, fun hc => hcopy hc.2⟩
      rw [cmaIoctl, if_neg (not_not.mpr hcmd), if_pos hcopy]
  · refine Or.inl ⟨?_, fun hc => hcmd hc.1⟩
    rw [cmaIoctl, if_pos hcmd]

theorem oneBuffer_next {s : System} (h : s.module.OneBuffer) (e : Event) :
    (next s e).module.OneBuffer := by
  cases e with
  | openFile file =>
      rw [next]
      split <;> exact h
  | ioctl file call =>
      rw [next]
      split
      · rcases cmaIoctl_cases h call with ⟨hsame, -⟩ | ⟨-, -, hone⟩
        · rw [hsame]
          exact h
        · exact hone
      · exact h
  | mmap file mapped =>
      rw [next]
      split <;> exact h
  | munmap mapping => exact h
  | close file =>
      rw [next]
      split
      · exact OneBuffer.cmaFree h
      · exact h

/-! ## Steps -/

theorem Region.live_of_size_eq_zero {r : Region} (h : r.size = 0)
    (allocated : List Region) : r.Live allocated := by
  intro b hb
  rw [Region.Contains, h] at hb
  omega

theorem Region.live_nil_iff {r : Region} : r.Live [] ↔ r.size = 0 := by
  constructor
  · intro hlive
    by_contra hsize
    obtain ⟨a, ha, -⟩ := hlive r.addr ⟨le_refl _, by omega⟩
    exact absurd ha List.not_mem_nil
  · intro hsize
    exact live_of_size_eq_zero hsize []

theorem Region.live_singleton (r : Region) : r.Live [r] := by
  intro b hb
  exact ⟨r, List.mem_singleton_self r, hb⟩

/-- What `mmap` maps is allocated if there is a buffer. -/
theorem cmaMmap_live_iff {m : Module} (h : m.OneBuffer) :
    (cmaMmap m).Live m.allocated ↔ m.cpuAddr ≠ none ∨ m.dmaSize = 0 := by
  rw [h, Module.buffer]
  cases m.cpuAddr with
  | none =>
      rw [Region.live_nil_iff]
      simp [cmaMmap]
  | some cpuAddr =>
      have hlive := Region.live_singleton (cmaMmap m)
      simp [hlive]

section Step

variable {s : System}

theorem live_ioctl_iff (h : s.module.OneBuffer) (hlive : s.Live) (file : ℕ)
    (call : Call) :
    (next s (.ioctl file call)).Live ↔ Keeps s (.ioctl file call) := by
  rw [next, Keeps]
  by_cases hfile : file ∈ s.files
  · rw [if_pos hfile]
    rcases cmaIoctl_cases h call with ⟨hsame, hrefused⟩ | ⟨hcall, hblock, -⟩
    · rw [hsame]
      exact ⟨fun _ _ hcmd hcopy => absurd ⟨hcmd, hcopy⟩ hrefused,
        fun _ => hlive⟩
    · rw [System.Live, hblock]
      exact ⟨fun hlive' _ _ _ => hlive',
        fun hkeeps => hkeeps hfile hcall.1 hcall.2⟩
  · rw [if_neg hfile]
    exact ⟨fun _ hopen => absurd hopen hfile, fun _ => hlive⟩

theorem live_mmap_iff (h : s.module.OneBuffer) (hlive : s.Live) (file : ℕ)
    (mapped : Bool) :
    (next s (.mmap file mapped)).Live ↔ Keeps s (.mmap file mapped) := by
  rw [next, Keeps]
  by_cases hmap : file ∈ s.files ∧ mapped = true
  · rw [if_pos hmap, ← cmaMmap_live_iff h, System.Live, List.forall_mem_cons]
    exact ⟨fun hlive' _ _ => hlive'.1, fun hkeeps =>
      ⟨hkeeps hmap.1 hmap.2, hlive⟩⟩
  · rw [if_neg hmap]
    exact ⟨fun _ hfile hmapped => absurd ⟨hfile, hmapped⟩ hmap, fun _ => hlive⟩

theorem live_close_iff (h : s.module.OneBuffer) (hlive : s.Live) (file : ℕ) :
    (next s (.close file)).Live ↔ Keeps s (.close file) := by
  rw [next, Keeps]
  by_cases hidle : s.Idle file
  · have hfree : (cmaRelease s.module).1.allocated = [] := by
      rw [cmaRelease, cmaFree_eq h]
    rw [if_pos hidle, System.Live, hfree]
    simp only [Region.live_nil_iff]
    refine ⟨fun hempty _ => Or.inr hempty, fun hkeeps m hm => ?_⟩
    rcases hkeeps hidle with hnone | hempty
    · have hallocated : s.module.allocated = [] := by
        rw [h, Module.buffer, hnone]
      have hm' := hlive m hm
      rwa [hallocated, Region.live_nil_iff] at hm'
    · exact hempty m hm
  · rw [if_neg hidle]
    exact ⟨fun _ hopen => absurd hopen hidle, fun _ => hlive⟩

/-- A step keeps the mappings live exactly if it meets the condition. -/
theorem live_next_iff (h : s.module.OneBuffer) (hlive : s.Live) (e : Event) :
    (next s e).Live ↔ Keeps s e := by
  cases e with
  | openFile file =>
      refine iff_of_true ?_ trivial
      rw [next]
      split <;> exact hlive
  | ioctl file call => exact live_ioctl_iff h hlive file call
  | mmap file mapped => exact live_mmap_iff h hlive file mapped
  | munmap mapping =>
      exact iff_of_true (fun m hm => hlive m (List.mem_of_mem_erase hm)) trivial
  | close file => exact live_close_iff h hlive file

end Step

/-! ## Runs -/

/-- A handle with a mapping is open: it is not released before its mappings are
gone. -/
theorem file_mem_run (events : List Event) :
    ∀ m ∈ (run next System.init events).mappings,
      m.file ∈ (run next System.init events).files := by
  apply run_invariant (fun s : System => ∀ m ∈ s.mappings, m.file ∈ s.files)
  · intro s e h
    cases e with
    | openFile file =>
        rw [next]
        split
        · exact h
        · exact fun m hm => List.mem_cons_of_mem _ (h m hm)
    | ioctl file call =>
        rw [next]
        split <;> exact h
    | mmap file mapped =>
        rw [next]
        split
        next hmap => exact List.forall_mem_cons.mpr ⟨hmap.1, h⟩
        next => exact h
    | munmap mapping =>
        exact fun m hm => h m (List.mem_of_mem_erase hm)
    | close file =>
        rw [next]
        split
        next hidle =>
          intro m hm
          exact (List.mem_erase_of_ne (hidle.2 m hm)).mpr (h m hm)
        next => exact h
  · intro m hm
    exact absurd hm List.not_mem_nil

theorem oneBuffer_run (events : List Event) :
    (run next System.init events).module.OneBuffer :=
  run_invariant (fun s : System => s.module.OneBuffer)
    (fun _ e h => oneBuffer_next h e) oneBuffer_init events

/-- Mappings refer to allocated memory exactly in the runs whose every step
leaves them their memory. -/
theorem mappingsLive_iff (events : List Event) :
    MappingsLive events ↔
      ∀ c ∈ trace next System.init events, Keeps c.state c.input := by
  constructor
  · intro h c hc
    obtain ⟨before, after, rfl, hstate⟩ := exists_before_of_mem hc
    have hlive := h.live before (List.prefix_append _ _)
    have hnext := h.live (before ++ [c.input]) ⟨after, by simp⟩
    rw [run_append, run_cons, run_nil] at hnext
    rw [hstate]
    exact (live_next_iff (oneBuffer_run before) hlive c.input).mp hnext
  · intro h
    have hlive : ∀ before, before <+: events →
        (run next System.init before).Live := by
      rintro before ⟨after, rfl⟩
      rw [trace_append, List.forall_mem_append] at h
      have hboth := run_invariant_of
        (fun s : System => s.module.OneBuffer ∧ s.Live)
        (fun c => Keeps c.state c.input)
        (fun s e hs hkeeps => ⟨oneBuffer_next hs.1 e,
          (live_next_iff hs.1 hs.2 e).mpr hkeeps⟩)
        ⟨oneBuffer_init, fun m hm => absurd hm List.not_mem_nil⟩ before h.1
      exact hboth.2
    refine ⟨hlive, fun c hc file hmmap hfile => ?_⟩
    obtain ⟨before, after, rfl, hstate⟩ := exists_before_of_mem hc
    have hkeeps := h c hc
    rw [hmmap, Keeps] at hkeeps
    have hone := oneBuffer_run before
    rw [← hstate] at hone
    exact (cmaMmap_live_iff hone).mpr (hkeeps hfile rfl)

/-! ## A second handle -/

/-- A successful allocation of a page. -/
def pageCall : Call where
  cmd := cmaAlloc
  copyFromUser := 0
  buffer := 4096
  allocation := .memory 0xE0000000 0x1E000000
  copyToUser := 0

/-- One program allocates and maps a page; another opens the device and closes
it. -/
def twoHandles : List Event :=
  [.openFile 0, .ioctl 0 pageCall, .mmap 0 true, .openFile 1, .close 1]

/-- The close of the second handle frees the page under the mapping of the
first. -/
theorem not_mappingsLive_twoHandles : ¬MappingsLive twoHandles := by
  intro h
  have hlive := h.live twoHandles List.prefix_rfl
  have hmapped := hlive ⟨0, ⟨0x1E000000, 4096⟩⟩ (by decide)
  have hsize := Region.live_nil_iff.mp hmapped
  exact absurd hsize (by decide)

end RedPitayaNotes.Cma
