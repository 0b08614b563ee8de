import Mathlib.Order.Fin.Basic
import QDNix.Lib.X86

/-!
# The exception stubs of the i386

`sys/i386/isr.S`, and the delivery of an exception in kernel mode, without a change of stacks: the CPU pushes
EFLAGS, CS and EIP, for some vectors an error code too, and goes on at the vector's stub with what the gate
puts into CS and EFLAGS.
-/

namespace QDNix.I386

open X86

inductive Label
  | isrCommon
deriving DecidableEq, Repr

/-- `__isr_common` -/
def isrCommon : List (Instr Label) :=
  [.pusha,
    .movFromSeg .eax .ds,
    .push .eax,
    .movImm16 .eax 0x10,
    .movToSeg .ds .eax,
    .movToSeg .es .eax,
    .movToSeg .fs .eax,
    .movToSeg .gs .eax,
    .pop .eax,
    .movToSeg .ds .eax,
    .movToSeg .es .eax,
    .movToSeg .fs .eax,
    .movToSeg .gs .eax,
    .popa,
    .addImm .esp 8,
    .iret]

def isrCode : Label → List (Instr Label)
  | .isrCommon => isrCommon

/-- `ISR_NO_ERR(x, name)` -/
def isrNoErr (x : Word) : List (Instr Label) := [.cli, .pushImm 0, .pushImm x, .jmp .isrCommon]

/-- `ISR_ERR(x, name)` -/
def isrErr (x : Word) : List (Instr Label) := [.cli, .pushImm x, .jmp .isrCommon]

/-- `isr_list` -/
def isrList : Vector (List (Instr Label)) 32 :=
  #v[isrNoErr 0, -- DivisionByZero
    isrNoErr 1, -- Debug
    isrNoErr 2, -- NonMaskableInterrupt
    isrNoErr 3, -- Breakpoint
    isrNoErr 4, -- Overflow
    isrNoErr 5, -- BoundRangeExceeded
    isrNoErr 6, -- InvalidOpcode
    isrNoErr 7, -- DeviceNotAvailable
    isrErr 8, -- DoubleFault
    isrNoErr 9, -- CoprocessorSegmentOverrun
    isrErr 10, -- InvalidTSS
    isrErr 11, -- SegmentNotPresent
    isrErr 12, -- StackSegmentFault
    isrErr 13, -- GeneralProtectionFault
    isrErr 14, -- PageFault
    isrNoErr 15, -- Reserved15
    isrNoErr 16, -- X87FLoatingPointException
    isrNoErr 17, -- AlignementCheck
    isrNoErr 18, -- MachineCheck
    isrNoErr 19, -- SIMDFloatingPointException
    isrNoErr 20, -- VirtualizationException
    isrNoErr 21, -- Reserved21
    isrNoErr 22, -- Reserved22
    isrNoErr 23, -- Reserved23
    isrNoErr 24, -- Reserved24
    isrNoErr 25, -- Reserved25
    isrNoErr 26, -- Reserved26
    isrNoErr 27, -- Reserved27
    isrNoErr 28, -- Reserved28
    isrNoErr 29, -- Reserved29
    isrNoErr 30, -- SecurityException
    isrNoErr 31] -- Reserved31

/-! ### Delivery -/

/-- The vectors for which the CPU pushes an error code. -/
def PushesError (vector : Fin 32) : Prop :=
  vector = 8 ∨ (10 ≤ vector ∧ vector ≤ 14) ∨ vector = 17 ∨ vector = 21

instance (vector : Fin 32) : Decidable (PushesError vector) := inferInstanceAs (Decidable (_ ∨ _))

/-- What the gate of a vector leaves in CS and EFLAGS. -/
structure Gate where
  cs : Selector
  eflags : Word

/-- The machine as the stub of `vector` starts; `eip` is the address to resume at. -/
def deliver (vector : Fin 32) (gate : Gate) (error eip : Word) (s : Cpu) : Cpu :=
  let t := ((s.push s.eflags).push ((s.sreg .cs).setWidth 32)).push eip
  let t := if PushesError vector then t.push error else t
  { t.setSeg .cs gate.cs with eflags := gate.eflags }

/-- The stub resumes the interrupted program at `eip` with all its registers. -/
def Transparent (vector : Fin 32) (gate : Gate) (error eip : Word) (s : Cpu) : Prop :=
  ∃ fuel s', run isrCode fuel (isrList.get vector) (deliver vector gate error eip s) = some (eip, s') ∧
    s'.gpr = s.gpr ∧ s'.eflags = s.eflags ∧ s'.sreg = s.sreg

end QDNix.I386
