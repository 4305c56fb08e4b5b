import Mathlib.Data.List.Nodup
import Mathlib.Logic.Function.Basic
import RedPitayaNotes.Support.Bits
import RedPitayaNotes.Support.Clocked
import RedPitayaNotes.Support.Threads

/-!
# The clocks of the programmable logic

The attributes `fclk_export` and `fclk_unexport` of `patches/xilinx_devcfg.c` make
and remove a device for each of four clocks, and the attribute `enable` of such a
device switches its clock.  The clock framework counts the calls: a clock that is
released more often than it was taken draws a warning.  The calls do not overlap.
-/

namespace RedPitayaNotes.XilinxDevcfg.Fclk

open Bits

abbrev Clk := Fin 4

/-- `fclk_name[i]` -/
def fclkName (i : Clk) : List Byte :=
  [0x66, 0x63, 0x6C, 0x6B, 0x30 + BitVec.ofNat 8 i]

/-- The first name that the text begins with. -/
def matchName (buf : List Byte) : Option Clk :=
  (List.finRange 4).find? fun i => (fclkName i).isPrefixOf buf

structure FclkData where
  clk : Clk
  enabled : Bool
deriving DecidableEq

/-- The driver data of a device of the class: a null pointer, one to memory that
was given back, or one to a structure. -/
inductive DevData where
  | null
  | freed
  | live (fdata : FclkData)
deriving DecidableEq

/-- The devices stand in the order in which they were created.  `warned` is set
when a count would drop below zero, `oops` when memory is used that is not there,
and `failed` when an export comes to an end halfway. -/
structure State where
  exported : Clk → Bool
  subdevs : List DevData
  prepares : Clk → ℕ
  enables : Clk → ℕ
  warned : Bool
  oops : Bool
  failed : Bool

def State.start : State := ⟨fun _ => false, [], fun _ => 0, fun _ => 0, false, false, false⟩

/-- What the calls of `fclk_export_store` return. -/
structure ExportAnswers where
  deviceCreate : ℤ
  clkPrepare : ℤ
  kzallocFails : Bool
  sysfsCreateGroup : ℤ

def einval : ℤ := 22

def enomem : ℤ := 12

/-- `class_find_device` with `match_fclk`. -/
inductive Found where
  | found (fdata : FclkData) (others : List DevData)
  | missing
  | oops

def findDevice (clk : Clk) : List DevData → Found
  | [] => .missing
  | .live fdata :: subdevs =>
    if fdata.clk = clk then .found fdata subdevs
    else
      match findDevice clk subdevs with
      | .found fdata' others => .found fdata' (.live fdata :: others)
      | .missing => .missing
      | .oops => .oops
  | _ :: _ => .oops

namespace State

variable (s : State)

def clkPrepare (i : Clk) : State :=
  { s with prepares := Function.update s.prepares i (s.prepares i + 1) }

def clkUnprepare (i : Clk) : State :=
  { s with
    prepares := Function.update s.prepares i (s.prepares i - 1)
    warned := s.warned || decide (s.prepares i = 0) }

def clkEnable (i : Clk) : State :=
  { s with enables := Function.update s.enables i (s.enables i + 1) }

def clkDisable (i : Clk) : State :=
  { s with
    enables := Function.update s.enables i (s.enables i - 1)
    warned := s.warned || decide (s.enables i = 0) }

def addSubdev (data : DevData) : State := { s with subdevs := s.subdevs ++ [data] }

def fail : State := { s with failed := true }

def setExported (i : Clk) (exported : Bool) : State :=
  { s with exported := Function.update s.exported i exported }

def exportStore (buf : List Byte) (a : ExportAnswers) : State × ℤ :=
  match matchName buf with
  | none => (s, -einval)
  | some i =>
    if s.exported i then (s, -einval)
    else
      let s := s.setExported i true
      if a.deviceCreate ≠ 0 then (s.fail, a.deviceCreate)
      else if a.clkPrepare ≠ 0 then ((s.addSubdev .null).fail, a.clkPrepare)
      else if a.kzallocFails then
        ((((s.clkPrepare i).addSubdev .null).clkUnprepare i).fail, -enomem)
      else if a.sysfsCreateGroup ≠ 0 then
        ((((s.clkPrepare i).addSubdev .freed).clkUnprepare i).fail,
          a.sysfsCreateGroup)
      else ((s.clkPrepare i).addSubdev (.live ⟨i, false⟩), buf.length)

/-- What `fclk_unexport_store` and `fclk_remove` do with an exported clock. -/
def unexport (i : Clk) : State :=
  let s := s.setExported i false
  match findDevice i s.subdevs with
  | .found fdata others =>
    let s := if fdata.enabled then s.clkDisable fdata.clk else s
    { s.clkUnprepare fdata.clk with subdevs := others }
  | _ => { s with oops := true }

def unexportStore (buf : List Byte) : State × ℤ :=
  match matchName buf with
  | none => (s, -einval)
  | some i => if s.exported i then (s.unexport i, buf.length) else (s, -einval)

/-- `fclk_enable_store` of device `k`; `value` is what `kstrtoul` reads, `ret` what
`clk_enable` returns.  Only a device with its structure has the file. -/
def enableStore (k : ℕ) (value : Option ℕ) (ret : ℤ) : State :=
  match s.subdevs[k]? with
  | some (.live fdata) =>
    match value with
    | none => s
    | some value =>
      let enable := decide (value ≠ 0)
      if enable = fdata.enabled then s
      else if enable then
        if ret ≠ 0 then s
        else
          { s.clkEnable fdata.clk with
            subdevs := s.subdevs.set k (.live { fdata with enabled := true }) }
      else
        { s.clkDisable fdata.clk with
          subdevs := s.subdevs.set k (.live { fdata with enabled := false }) }
  | _ => s

/-- The loop of `fclk_remove`. -/
def remove : State :=
  (List.finRange 4).foldl (fun s i => if s.exported i then s.unexport i else s) s

end State

inductive Event where
  | exportStore (buf : List Byte) (a : ExportAnswers)
  | unexportStore (buf : List Byte)
  | enableStore (k : ℕ) (value : Option ℕ) (ret : ℤ)
  | remove

/-- Nothing happens after an oops. -/
def State.next (s : State) (e : Event) : State :=
  if s.oops then s
  else
    match e with
    | .exportStore buf a => (s.exportStore buf a).1
    | .unexportStore buf => (s.unexportStore buf).1
    | .enableStore k value ret => s.enableStore k value ret
    | .remove => s.remove

/-! ## Balance -/

/-- Each exported clock has a device, and its counts are those of the device. -/
structure Balanced (s : State) (fs : List FclkData) : Prop where
  subdevs : s.subdevs = fs.map .live
  nodup : (fs.map FclkData.clk).Nodup
  exported : ∀ i, s.exported i = true ↔ i ∈ fs.map FclkData.clk
  prepares : ∀ i, s.prepares i = (s.exported i).toNat
  enables : ∀ i, s.enables i = fs.countP fun f => f.clk = i && f.enabled
  quiet : s.warned = false ∧ s.oops = false

theorem findDevice_live {fs : List FclkData} {i : Clk}
    (h : i ∈ fs.map FclkData.clk) :
    ∃ xs f ys, fs = xs ++ f :: ys ∧ f.clk = i ∧
      findDevice i (fs.map .live) = .found f ((xs ++ ys).map .live) := by
  induction fs with
  | nil => cases h
  | cons f fs ih =>
      by_cases hf : f.clk = i
      · exact ⟨[], f, fs, rfl, hf, if_pos hf⟩
      · have hrest : i ∈ fs.map FclkData.clk := by
          rcases List.mem_cons.mp h with hhead | htail
          · exact absurd hhead.symm hf
          · exact htail
        obtain ⟨xs, g, ys, hsplit, hg, hfind⟩ := ih hrest
        refine ⟨f :: xs, g, ys, congrArg (f :: ·) hsplit, hg, ?_⟩
        rw [List.map_cons, findDevice, if_neg hf, hfind]
        rfl

section Steps

variable {s : State} {fs : List FclkData}

/-- The counter of enabled devices, when one of them stands aside. -/
theorem enabled_split (xs ys : List FclkData) (f : FclkData) (j : Clk) :
    (xs ++ f :: ys).countP (fun g => g.clk = j && g.enabled) =
      (xs ++ ys).countP (fun g => g.clk = j && g.enabled) +
        (decide (f.clk = j) && f.enabled).toNat :=
  Threads.countP_split _ xs ys f

theorem Balanced.exportOk (h : Balanced s fs) {i : Clk} (hi : s.exported i = false) :
    Balanced (((s.setExported i true).clkPrepare i).addSubdev (.live ⟨i, false⟩))
      (fs ++ [⟨i, false⟩]) := by
  have hnew : i ∉ fs.map FclkData.clk := by
    rw [← h.exported i, hi]
    decide
  refine ⟨?_, ?_, fun j => ?_, fun j => ?_, fun j => ?_, h.quiet⟩
  · rw [List.map_append, ← h.subdevs]
    rfl
  · rw [List.map_append]
    exact h.nodup.append (List.nodup_singleton i) (List.disjoint_singleton.mpr hnew)
  · change Function.update s.exported i true j = true ↔ _
    rw [List.map_append, List.mem_append, ← h.exported j]
    by_cases hij : j = i
    · simp [hij]
    · simp [hij]
  · change Function.update s.prepares i (s.prepares i + 1) j =
      (Function.update s.exported i true j).toNat
    by_cases hij : j = i
    · rw [hij, Function.update_self, Function.update_self, h.prepares i, hi]
      rfl
    · rw [Function.update_of_ne hij, Function.update_of_ne hij, h.prepares j]
  · change s.enables j = _
    rw [List.countP_append, h.enables j]
    simp

/-- Removing a device gives back what is held for its clock. -/
theorem Balanced.unexport (h : Balanced s fs) {i : Clk} (hi : s.exported i = true) :
    ∃ fs', Balanced (s.unexport i) fs' ∧
      (s.unexport i).exported = Function.update s.exported i false := by
  obtain ⟨xs, f, ys, rfl, hf, hfind⟩ := findDevice_live ((h.exported i).mp hi)
  have hsubdevs : (s.setExported i false).subdevs = (xs ++ f :: ys).map .live :=
    h.subdevs
  have hclks : ((xs ++ f :: ys).map FclkData.clk).Perm
      (f.clk :: (xs ++ ys).map FclkData.clk) :=
    List.perm_middle.map FclkData.clk
  have hnodup := hclks.nodup_iff.mp h.nodup
  obtain ⟨hother, hrest⟩ := List.nodup_cons.mp hnodup
  have hmem : ∀ j, j ∈ (xs ++ f :: ys).map FclkData.clk ↔
      j = f.clk ∨ j ∈ (xs ++ ys).map FclkData.clk := fun j => by
    rw [hclks.mem_iff, List.mem_cons]
  have hexported : ∀ j, Function.update s.exported i false j = true ↔
      j ∈ (xs ++ ys).map FclkData.clk := by
    intro j
    by_cases hij : j = i
    · rw [hij, Function.update_self, ← hf]
      exact ⟨by simp, fun hin => absurd hin hother⟩
    · rw [Function.update_of_ne hij, h.exported j, hmem j, hf]
      exact ⟨fun hor => hor.resolve_left hij, Or.inr⟩
  have hprepares : ∀ j, Function.update s.prepares i (s.prepares i - 1) j =
      (Function.update s.exported i false j).toNat := by
    intro j
    by_cases hij : j = i
    · rw [hij, Function.update_self, Function.update_self, h.prepares i, hi]
      rfl
    · rw [Function.update_of_ne hij, Function.update_of_ne hij, h.prepares j]
  have hheld : s.prepares i ≠ 0 := by
    rw [h.prepares i, hi]
    decide
  obtain ⟨hwarned, hoops⟩ := h.quiet
  unfold State.unexport
  dsimp only
  rw [hsubdevs, hfind]
  dsimp only
  rw [hf]
  cases henabled : f.enabled with
  | false =>
      refine ⟨xs ++ ys, ⟨rfl, hrest, hexported, hprepares, fun j => ?_, ?_⟩, rfl⟩
      · change s.enables j = _
        rw [h.enables j, enabled_split, henabled, Bool.and_false]
        rfl
      · refine ⟨?_, hoops⟩
        change (s.warned || decide (s.prepares i = 0)) = false
        rw [hwarned, decide_eq_false hheld]
        rfl
  | true =>
      have hcount : ∀ j, s.enables j =
          (xs ++ ys).countP (fun g => g.clk = j && g.enabled) +
            (decide (i = j)).toNat := fun j => by
        rw [h.enables j, enabled_split, henabled, Bool.and_true, hf]
      refine ⟨xs ++ ys, ⟨rfl, hrest, hexported, hprepares, fun j => ?_, ?_⟩, rfl⟩
      · change Function.update s.enables i (s.enables i - 1) j = _
        by_cases hij : j = i
        · rw [hij, Function.update_self, hcount i, decide_eq_true rfl]
          exact Nat.add_sub_cancel _ _
        · rw [Function.update_of_ne hij, hcount j,
            decide_eq_false (Ne.symm hij)]
          rfl
      · refine ⟨?_, hoops⟩
        change ((s.warned || decide (s.enables i = 0)) ||
          decide (s.prepares i = 0)) = false
        have hon : s.enables i ≠ 0 := by
          rw [hcount i, decide_eq_true rfl]
          exact Nat.succ_ne_zero _
        rw [hwarned, decide_eq_false hon, decide_eq_false hheld]
        rfl

/-- A device is replaced by one for the same clock. -/
theorem Balanced.replace (h : Balanced s fs) {k : ℕ} {f : FclkData}
    (hk : fs[k]? = some f) (enabled warned : Bool) (enables : Clk → ℕ)
    (hwarned : warned = false)
    (henables : ∀ j, enables j + (decide (f.clk = j) && f.enabled).toNat =
      s.enables j + (decide (f.clk = j) && enabled).toNat) :
    Balanced
      { s with
        subdevs := s.subdevs.set k (.live { f with enabled := enabled })
        enables := enables
        warned := warned }
      (fs.set k { f with enabled := enabled }) := by
  obtain ⟨xs, ys, hsplit, hset⟩ := Threads.exists_split hk
  have hclks : (fs.set k { f with enabled := enabled }).map FclkData.clk =
      fs.map FclkData.clk := by
    rw [hset, hsplit, List.map_append, List.map_append]
    rfl
  refine ⟨?_, hclks ▸ h.nodup, hclks ▸ h.exported, h.prepares, fun j => ?_,
    hwarned, h.quiet.2⟩
  · rw [h.subdevs, List.map_set]
  · have hcount := henables j
    rw [h.enables j, hsplit, enabled_split] at hcount
    rw [hset, enabled_split]
    dsimp only at hcount ⊢
    omega

theorem Balanced.enableStore (h : Balanced s fs) (k : ℕ) (value : Option ℕ) (ret : ℤ) :
    ∃ fs', Balanced (s.enableStore k value ret) fs' := by
  have hsame : ∃ fs', Balanced s fs' := ⟨fs, h⟩
  have hget : s.subdevs[k]? = fs[k]?.map .live := by
    rw [h.subdevs, List.getElem?_map]
  unfold State.enableStore
  rw [hget]
  cases hk : fs[k]? with
  | none => exact hsame
  | some f =>
      cases value with
      | none => exact hsame
      | some value =>
          dsimp only [Option.map_some]
          split
          next => exact hsame
          next hchange =>
            split
            next hon =>
              split
              next => exact hsame
              next =>
                have hoff : f.enabled = false :=
                  eq_false_of_ne_true fun hf => hchange (hon.trans hf.symm)
                refine ⟨_, h.replace hk true s.warned _ h.quiet.1 fun j => ?_⟩
                change Function.update s.enables f.clk (s.enables f.clk + 1) j + _ = _
                rw [hoff, Bool.and_false, Bool.and_true]
                by_cases hij : j = f.clk
                · rw [hij, Function.update_self, decide_eq_true rfl]
                  rfl
                · rw [Function.update_of_ne hij, decide_eq_false (Ne.symm hij)]
            next hoff =>
              have hon : f.enabled = true := by
                by_contra hf
                exact hchange ((eq_false_of_ne_true hoff).trans
                  (eq_false_of_ne_true hf).symm)
              have hheld : 0 < s.enables f.clk := by
                obtain ⟨xs, ys, hsplit, -⟩ := Threads.exists_split hk
                rw [h.enables, hsplit, enabled_split, hon, decide_eq_true rfl]
                exact Nat.succ_pos _
              refine ⟨_, h.replace hk false _ _ ?_ fun j => ?_⟩
              · change (s.warned || decide (s.enables f.clk = 0)) = false
                rw [h.quiet.1, decide_eq_false (Nat.ne_of_gt hheld)]
                rfl
              · change Function.update s.enables f.clk (s.enables f.clk - 1) j + _ = _
                rw [hon, Bool.and_false, Bool.and_true]
                by_cases hij : j = f.clk
                · rw [hij, Function.update_self, decide_eq_true rfl]
                  exact Nat.sub_add_cancel hheld
                · rw [Function.update_of_ne hij, decide_eq_false (Ne.symm hij)]

/-- The books balance, unless an export failed halfway. -/
def Books (s : State) : Prop := s.failed = true ∨ ∃ fs, Balanced s fs

theorem Balanced.exportStore (h : Balanced s fs) (buf : List Byte) (a : ExportAnswers) :
    Books (s.exportStore buf a).1 := by
  unfold State.exportStore
  split
  next => exact Or.inr ⟨fs, h⟩
  next i _ =>
    split
    next => exact Or.inr ⟨fs, h⟩
    next hi =>
      dsimp only
      split
      next => exact Or.inl rfl
      next =>
        split
        next => exact Or.inl rfl
        next =>
          split
          next => exact Or.inl rfl
          next =>
            split
            next => exact Or.inl rfl
            next => exact Or.inr ⟨_, h.exportOk (eq_false_of_ne_true hi)⟩

theorem Balanced.unexportStore (h : Balanced s fs) (buf : List Byte) :
    ∃ fs', Balanced (s.unexportStore buf).1 fs' := by
  unfold State.unexportStore
  split
  next => exact ⟨fs, h⟩
  next i _ =>
    split
    next hi =>
      obtain ⟨fs', h', -⟩ := h.unexport hi
      exact ⟨fs', h'⟩
    next => exact ⟨fs, h⟩

/-- What the loop of `fclk_remove` has gone through is not exported. -/
theorem Balanced.removeLoop (h : Balanced s fs) (clks : List Clk) :
    ∃ s' fs', clks.foldl (fun s i => if s.exported i then s.unexport i else s) s = s' ∧
      Balanced s' fs' ∧ (∀ i ∈ clks, s'.exported i = false) ∧
        ∀ i, s.exported i = false → s'.exported i = false := by
  induction clks generalizing s fs with
  | nil => exact ⟨s, fs, rfl, h, by simp, fun _ => id⟩
  | cons i clks ih =>
      obtain ⟨t, fs', ht, hbalanced, hgone, hkeep⟩ :
          ∃ t fs', (if s.exported i then s.unexport i else s) = t ∧ Balanced t fs' ∧
            t.exported i = false ∧ ∀ j, s.exported j = false → t.exported j = false := by
        cases hi : s.exported i with
        | true =>
            obtain ⟨fs', h', hexported⟩ := h.unexport hi
            refine ⟨s.unexport i, fs', rfl, h', ?_, fun j hj => ?_⟩
            · rw [hexported, Function.update_self]
            · rw [hexported]
              by_cases hij : j = i
              · rw [hij, Function.update_self]
              · rw [Function.update_of_ne hij, hj]
        | false => exact ⟨s, fs, rfl, h, hi, fun _ => id⟩
      obtain ⟨s', fs'', hs', hbalanced', hnone, hkeep'⟩ := ih hbalanced
      rw [List.foldl_cons, ht]
      refine ⟨s', fs'', hs', hbalanced', ?_, fun j hj => hkeep' j (hkeep j hj)⟩
      intro j hj
      rcases List.mem_cons.mp hj with rfl | hrest
      · exact hkeep' j hgone
      · exact hnone j hrest

theorem Balanced.remove (h : Balanced s fs) :
    (∃ fs', Balanced s.remove fs') ∧ ∀ i, s.remove.exported i = false := by
  obtain ⟨s', fs', hs', hbalanced, hnone, -⟩ := h.removeLoop (List.finRange 4)
  unfold State.remove
  rw [hs']
  exact ⟨⟨fs', hbalanced⟩, fun i => hnone i (List.mem_finRange i)⟩

end Steps

/-! ### What failed stays failed -/

section Failed

variable (s : State)

theorem exportStore_failed (h : s.failed = true) (buf : List Byte)
    (a : ExportAnswers) : (s.exportStore buf a).1.failed = true := by
  unfold State.exportStore
  split
  next => exact h
  next =>
    split
    next => exact h
    next =>
      dsimp only
      split
      next => rfl
      next =>
        split
        next => rfl
        next =>
          split
          next => rfl
          next =>
            split
            next => rfl
            next => exact h

theorem unexport_failed (i : Clk) : (s.unexport i).failed = s.failed := by
  unfold State.unexport
  dsimp only
  split
  next => split <;> rfl
  next => rfl

theorem unexportStore_failed (buf : List Byte) :
    (s.unexportStore buf).1.failed = s.failed := by
  unfold State.unexportStore
  split
  next => rfl
  next =>
    split
    next => exact unexport_failed s _
    next => rfl

theorem enableStore_failed (k : ℕ) (value : Option ℕ) (ret : ℤ) :
    (s.enableStore k value ret).failed = s.failed := by
  unfold State.enableStore
  split
  next =>
    split
    next => rfl
    next =>
      dsimp only
      split
      next => rfl
      next =>
        split
        next => split <;> rfl
        next => rfl
  next => rfl

theorem remove_failed : s.remove.failed = s.failed := by
  unfold State.remove
  generalize List.finRange 4 = clks
  induction clks generalizing s with
  | nil => rfl
  | cons i clks ih =>
      rw [List.foldl_cons, ih]
      split
      · exact unexport_failed s i
      · rfl

end Failed

theorem Books.next {s : State} (h : Books s) (e : Event) : Books (s.next e) := by
  unfold State.next
  split
  next => exact h
  next =>
    rcases h with hfailed | ⟨fs, hs⟩
    · left
      cases e with
      | exportStore buf a => exact exportStore_failed s hfailed buf a
      | unexportStore buf => exact (unexportStore_failed s buf).trans hfailed
      | enableStore k value ret => exact (enableStore_failed s k value ret).trans hfailed
      | remove => exact (remove_failed s).trans hfailed
    · cases e with
      | exportStore buf a => exact hs.exportStore buf a
      | unexportStore buf => exact Or.inr (hs.unexportStore buf)
      | enableStore k value ret => exact Or.inr (hs.enableStore k value ret)
      | remove => exact Or.inr hs.remove.1

theorem balanced_start : Balanced State.start [] where
  subdevs := rfl
  nodup := List.nodup_nil
  exported i := by simp [State.start]
  prepares _ := rfl
  enables _ := rfl
  quiet := ⟨rfl, rfl⟩

end RedPitayaNotes.XilinxDevcfg.Fclk
