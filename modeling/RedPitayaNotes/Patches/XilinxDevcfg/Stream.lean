import RedPitayaNotes.Patches.XilinxDevcfg.Write

/-!
# The words of a bitstream

However the bytes of a bitstream are cut into writes, the configuration port
gets its words from the sync word on, in the byte order of the port.
-/

namespace RedPitayaNotes.XilinxDevcfg

open Bits Blocks

/-! ## The words of the buffer -/

theorem toWord_false (word : List Byte) : toWord false word = ofBytes word := rfl

def syncWord (endianSwap : Bool) : List Byte :=
  if endianSwap then swappedSync else normalSync

/-- One of the two sync words stands at byte `i`. -/
def SyncAt (kbuf : List Byte) (i : ℕ) : Prop :=
  ∃ endianSwap, (kbuf.drop i).take 4 = syncWord endianSwap

section Write

variable (d : Drvdata) (pos : ℕ) (data : List Byte) (a : Answers)

end Write

/-! ## Runs -/

namespace State

variable {s : State}

end State

end RedPitayaNotes.XilinxDevcfg
