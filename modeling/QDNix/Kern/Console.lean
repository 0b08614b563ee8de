import QDNix.Dev.Device
import QDNix.Lib.Traced

/-!
# The kernel console

`sys/kern/console.c` in both builds, with `N = CONFIG_CONSOLE_BUFFER_SIZE`. A run shows two kinds of event:
the index of each store to `console_buffer`, and each call made through `console->write`. A store outside
the buffer is undefined behaviour and ends the run, after its event.

Devices are read from `mem`, which `console_setup` does not change. The interior pointer
`&(dev->drivers.serial)` is represented by `dev`.
-/

namespace QDNix.Kern

open Dev Traced

variable {N W : Nat}

/-- `CONFIG_BUFFERED_CONSOLE` set, or not. -/
inductive Build
  | buffered | unbuffered
deriving DecidableEq, Repr

structure Console where
  write : Option FnPtr
  read : Option FnPtr
  device : Option DevPtr
deriving DecidableEq, Repr

/-- A call of `fn(device, str, size)`; `str` holds the bytes readable there, up to `size`. -/
structure WriteCall where
  fn : FnPtr
  device : Option DevPtr
  str : List Byte
  size : Nat
deriving DecidableEq, Repr

/-- The bytes handed over by a call. -/
def WriteCall.block (call : WriteCall) : List Byte := call.str.take call.size

inductive Event
  | store (idx : Nat)
  | write (call : WriteCall)
deriving DecidableEq, Repr

/-- The static variables of `console.c`. `attached` is false while `console` is `NULL`; otherwise it points
to `cons`. The unbuffered build has neither buffer nor index. -/
structure State (N : Nat) where
  consoleBuffer : Vector Byte N
  consoleBufferIdx : Nat
  cons : Console
  attached : Bool

/-- Static storage as the kernel starts. -/
def State.boot : State N where
  consoleBuffer := Vector.replicate N 0
  consoleBufferIdx := 0
  cons := ⟨none, none, none⟩
  attached := false

/-- `if (console != NULL && console->write != NULL) console->write(console->device, str, size)` -/
def consoleWrite (s : State N) (str : List Byte) (size : Nat) : Traced Event (State N) :=
  match s.attached, s.cons.write with
  | true, some write => do
    emit (.write ⟨write, s.cons.device, str, size⟩)
    pure s
  | _, _ => pure s

def consoleFlush (b : Build) (s : State N) : Traced Event (State N) :=
  match b with
  | .buffered =>
    if 0 < s.consoleBufferIdx then
      consoleWrite s (filled s.consoleBuffer s.consoleBufferIdx) s.consoleBufferIdx
    else pure s
  | .unbuffered => pure s

def consolePutchar (b : Build) (s : State N) (c : Byte) : Traced Event (State N) :=
  match b with
  | .buffered => do
    let s ← if N < s.consoleBufferIdx then consoleFlush .buffered s else pure s
    emit (.store s.consoleBufferIdx)
    let buffer ← store s.consoleBuffer s.consoleBufferIdx c
    pure { s with consoleBuffer := buffer, consoleBufferIdx := s.consoleBufferIdx + 1 }
  | .unbuffered => consoleWrite s [c] 1

/-- The record update of `console_setup`: only a TTY brings its own functions. -/
def setupCons (mem : DevPtr → Device W) (cons : Console) (dev : DevPtr) : Console :=
  let cons :=
    if (mem dev).deviceClass = .tty then
      { cons with write := (mem dev).drivers.serial.write, read := (mem dev).drivers.serial.read }
    else cons
  { cons with device := some dev }

def consoleSetup (mem : DevPtr → Device W) (b : Build) (s : State N) (dev : DevPtr) :
    Traced Event (State N) :=
  let s := { s with cons := setupCons mem s.cons dev, attached := true }
  match b with
  | .buffered => if 0 < s.consoleBufferIdx then consoleFlush .buffered s else pure s
  | .unbuffered => pure s

/-! ### Runs -/

inductive Op
  | putchar (c : Byte)
  | flush
  | setup (dev : DevPtr)
deriving DecidableEq, Repr

def step (mem : DevPtr → Device W) (b : Build) (s : State N) : Op → Traced Event (State N)
  | .putchar c => consolePutchar b s c
  | .flush => consoleFlush b s
  | .setup dev => consoleSetup mem b s dev

def run (mem : DevPtr → Device W) (b : Build) (s : State N) (ops : List Op) : Traced Event (State N) :=
  ops.foldlM (step mem b) s

/-- The characters put by a list of calls. -/
def puts : List Op → List Byte
  | [] => []
  | .putchar c :: ops => c :: puts ops
  | _ :: ops => puts ops

/-- The calls made through `console->write`. -/
def writes : List Event → List WriteCall
  | [] => []
  | .store _ :: es => writes es
  | .write call :: es => call :: writes es

/-- The byte stream handed to the driver. -/
def stream (es : List Event) : List Byte := (writes es).flatMap WriteCall.block

end QDNix.Kern
