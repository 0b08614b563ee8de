import QDNix.Dev.Device
import QDNix.Lib.Transmit

/-!
# The 8250 driver and its UART

`serial_8250_write` of `dev/tty/serial/8250.c` as a machine that stops at each bus access, and the transmit
side of the UART it talks to. The two run interleaved: a `Choice` lets either the CPU or the UART take its
next step, so a list of choices is a schedule.

Register addresses are computed as in the source, `io_base + (reg << reg_offset)`, in the width of
`uintptr_t`; `Bus.addr` is what `mmio.h` makes of them, the low 16 bits as a port number on the i386 and the
address itself elsewhere.
-/

namespace QDNix.Dev

open Transmit

variable {W : Nat}

def UART8250_THR : Nat := 0x0

def UART8250_LSR : Nat := 0x5

/-- The two branches of `mmio.h`. -/
inductive Bus
  | port | memory
deriving DecidableEq, Repr

def Bus.addr : Bus → BitVec W → BitVec W
  | .port, addr => (addr.setWidth 16).setWidth W
  | .memory, addr => addr

/-- The address of a register, on the bus. -/
def regAddr (bus : Bus) (dev : SerialDevice W) (reg : Nat) : BitVec W :=
  bus.addr (dev.ioBase + (BitVec.ofNat W reg <<< dev.regOffset.toNat))

/-! ### The UART -/

/-- The line status: bit 5 is set exactly when the holding register is empty, the others are anything. -/
def lineStatus (p : Port Byte) (other : Byte) : Byte :=
  if p.holding = none then other ||| 0x20 else other &&& ~~~0x20

def uartRead (bus : Bus) (dev : SerialDevice W) (p : Port Byte) (other : Byte) (addr : BitVec W) : Byte :=
  if addr = regAddr bus dev UART8250_LSR then lineStatus p other else other

def uartWrite (bus : Bus) (dev : SerialDevice W) (p : Port Byte) (addr : BitVec W) (v : Byte) : Port Byte :=
  if addr = regAddr bus dev UART8250_THR then p.store v else p

/-! ### The driver -/

/-- The arguments of a call: `size` bytes can be read at `str`. -/
structure WriteArgs where
  str : List Byte
  size : Nat
  fits : size ≤ str.length

/-- The bytes to write. -/
def WriteArgs.text (a : WriteArgs) : List Byte := a.str.take a.size

/-- Where `serial_8250_write` stands: at the loop test, polling for or storing the carriage return, polling
for or storing the character. -/
inductive Pc
  | test | pollCr | storeCr | pollChar | storeChar
deriving DecidableEq, Repr

structure Frame where
  args : WriteArgs
  idx : Nat
  pc : Pc

/-- `str[idx]`; the loop test bounds `idx` by `size`. -/
def Frame.char (f : Frame) : Byte := f.args.str.getD f.idx 0

/-- What the CPU does next. -/
inductive Access (W : Nat)
  | internal (next : Frame)
  | read (addr : BitVec W) (next : Byte → Frame)
  | write (addr : BitVec W) (v : Byte) (next : Frame)
  | ret (value : Nat)

/-- `while (serial_8250_is_buffer_empty(dev) == 0);`, one read of the line status. -/
def pollBufferEmpty (bus : Bus) (dev : SerialDevice W) (f : Frame) (ready : Pc) : Access W :=
  .read (regAddr bus dev UART8250_LSR) fun status =>
    if status &&& 0x20 = 0 then f else { f with pc := ready }

/-- `serial_8250_write`, up to its next bus access. -/
def serial8250Write (bus : Bus) (dev : SerialDevice W) (f : Frame) : Access W :=
  match f.pc with
  | .test =>
    if f.idx < f.args.size then
      if f.char = ch '\n' then .internal { f with pc := .pollCr } else .internal { f with pc := .pollChar }
    else .ret f.idx
  | .pollCr => pollBufferEmpty bus dev f .storeCr
  | .storeCr => .write (regAddr bus dev UART8250_THR) (ch '\r') { f with pc := .pollChar }
  | .pollChar => pollBufferEmpty bus dev f .storeChar
  | .storeChar => .write (regAddr bus dev UART8250_THR) f.char { f with idx := f.idx + 1, pc := .test }

/-! ### Interleaved runs -/

/-- The calls still to be made, the one running, the values returned, and the port. -/
structure Sys where
  calls : List WriteArgs
  frame : Option Frame
  returned : List Nat
  port : Port Byte

/-- Who moves next. A read by the CPU finds `other` in the bits the UART leaves open. -/
inductive Choice
  | uart
  | cpu (other : Byte)

def cpuStep (bus : Bus) (dev : SerialDevice W) (s : Sys) (other : Byte) : Sys :=
  match s.frame with
  | none =>
    match s.calls with
    | [] => s
    | args :: calls => { s with calls := calls, frame := some ⟨args, 0, .test⟩ }
  | some f =>
    match serial8250Write bus dev f with
    | .internal f' => { s with frame := some f' }
    | .read addr next => { s with frame := some (next (uartRead bus dev s.port other addr)) }
    | .write addr v f' => { s with frame := some f', port := uartWrite bus dev s.port addr v }
    | .ret value => { s with frame := none, returned := s.returned ++ [value] }

def sysStep (bus : Bus) (dev : SerialDevice W) (s : Sys) : Choice → Sys
  | .uart => { s with port := s.port.drain }
  | .cpu other => cpuStep bus dev s other

def sysRun (bus : Bus) (dev : SerialDevice W) (s : Sys) (schedule : List Choice) : Sys :=
  schedule.foldl (sysStep bus dev) s

/-- No call begun, the register empty. -/
def Sys.start (calls : List WriteArgs) : Sys := ⟨calls, none, [], .idle⟩

/-- All calls have returned. -/
def Sys.Finished (s : Sys) : Prop := s.calls = [] ∧ s.frame = none

instance (s : Sys) : Decidable s.Finished := inferInstanceAs (Decidable (_ ∧ _))

end QDNix.Dev
