import Mathlib.Data.List.Basic

/-!
# Devices

`dev/device.h` and `dev/tty/serial/serial.h`. A function pointer is a code address and a pointer to a
`Device` is the address of the object, so two devices with equal contents are still two devices; `none` is
`NULL`. `W` is the width of `uintptr_t`.
-/

namespace QDNix

/-- A `char` or an `uint8_t`. -/
abbrev Byte := BitVec 8

/-- The byte of an ASCII character. -/
def ch (c : Char) : Byte := BitVec.ofNat 8 c.toNat

abbrev FnPtr := Nat

abbrev DevPtr := Nat

namespace Dev

inductive DeviceClass
  | cpu | tty | net | disk | audio | video | bus | null
deriving DecidableEq, Repr

structure SerialDevice (W : Nat) where
  init : Option FnPtr
  write : Option FnPtr
  read : Option FnPtr
  ioBase : BitVec W
  regOffset : BitVec 8
  beaudrate : BitVec 32
deriving DecidableEq, Repr

/-- The `drivers` union of a device. -/
structure Drivers (W : Nat) where
  serial : SerialDevice W
deriving DecidableEq, Repr

structure Device (W : Nat) where
  deviceClass : DeviceClass
  drivers : Drivers W
deriving DecidableEq, Repr

/-- The port device of `i386/init.c` once `serial_8250_init` has set its functions, given their addresses. -/
def i386Serial (init write read : FnPtr) : Device 32 where
  deviceClass := .tty
  drivers := ⟨{
    init := some init
    write := some write
    read := some read
    ioBase := 0x3F8
    regOffset := 0
    beaudrate := 9600 }⟩

end Dev

end QDNix
