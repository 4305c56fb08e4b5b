import RedPitayaNotes.Helpers.FpgaBitToBin
import RedPitayaNotes.Patches.XilinxDevcfg.Stream

/-!
# Loading bit files and bin files

The driver takes a bit file as it is, and the bin file made from it.  The
configuration port gets the same words from both, however they are cut into
writes.
-/

namespace RedPitayaNotes.XilinxDevcfg

open Bits Blocks FpgaBitToBin

/-- What stands at a place does not change when more follows. -/
theorem SyncAt.append {xs : List Byte} {j : ℕ} (h : SyncAt xs j)
    (ys : List Byte) : SyncAt (xs ++ ys) j := by
  obtain ⟨endianSwap, hsync⟩ := h
  have hlen : ((xs.drop j).take 4).length = 4 := by
    rw [hsync]
    cases endianSwap <;> rfl
  rw [List.length_take, List.length_drop] at hlen
  refine ⟨endianSwap, ?_⟩
  rw [List.drop_append_of_le_length (by omega),
    List.take_append_of_le_length (by rw [List.length_drop]; omega), hsync]

end RedPitayaNotes.XilinxDevcfg
