import Mathlib.Algebra.Group.Nat.Defs
import QDNix.Dev.Serial8250
import QDNix.Lib.Traced

/-!
# Setting up the 8250

`serial_8250_init` and the registers it stores to. The device answers at eight addresses; what offsets 0 and 1
mean depends on DLAB, bit 7 of the LCR.

The driver never sets DLAB: the store that should goes to the FCR. It leaves `0x08` in the LCR, which enables
parity, on every path (`lcr_init`), so it never programs the line it was asked for (`not_programsLine`).
Where DLAB was clear before the call the stores meant for the divisor are transmitted (`sent_init`).
-/

namespace QDNix.Dev

open Traced

variable {W : Nat}

def UART8250_IER : Nat := 0x1

def UART8250_IIR : Nat := 0x2

def UART8250_LCR : Nat := 0x3

def UART8250_MCR : Nat := 0x4

def UART8250_DLL : Nat := 0x0

def UART8250_DLH : Nat := 0x1

/-! ### The driver -/

inductive ByteOrder
  | little | big
deriving DecidableEq, Repr

/-- A byte stored at an address, on the bus. -/
structure BusWrite (W : Nat) where
  addr : BitVec W
  value : Byte
deriving DecidableEq, Repr

/-- `dev->io_base + reg`, without the register offset. -/
def baseAddr (bus : Bus) (dev : SerialDevice W) (reg : Nat) : BitVec W :=
  bus.addr (dev.ioBase + BitVec.ofNat W reg)

/-- `divisor >> 8`, multiplied by `0xFF` and cut to a byte. -/
def divisorHigh (divisor : BitVec 16) : Byte := ((divisor >>> 8) * 0xFF).setWidth 8

/-- `divisor & 0xFF` -/
def divisorLow (divisor : BitVec 16) : Byte := (divisor &&& 0xFF).setWidth 8

/-- `serial_8250_init`, with `clock` for `CONFIG_CLOCK` and `write` and `read` for the addresses of
`serial_8250_write` and `serial_8250_read`. Division by zero is undefined. -/
def serial8250Init (bus : Bus) (order : ByteOrder) (clock : BitVec 32) (write read : FnPtr)
    (dev : SerialDevice W) : Traced (BusWrite W) (SerialDevice W) := do
  let dev := { dev with write := some write, read := some read }
  emit ⟨regAddr bus dev UART8250_IER, 0x00⟩
  emit ⟨regAddr bus dev UART8250_IIR, 0x80⟩
  if dev.beaudrate * 16 = 0 then undef
  else do
    let divisor : BitVec 16 := (clock / (dev.beaudrate * 16)).setWidth 16
    match order with
    | .little => do
      emit ⟨baseAddr bus dev UART8250_DLL, divisorHigh divisor⟩
      emit ⟨regAddr bus dev UART8250_DLH, divisorLow divisor⟩
    | .big => do
      emit ⟨baseAddr bus dev UART8250_DLL, divisorLow divisor⟩
      emit ⟨regAddr bus dev UART8250_DLH, divisorHigh divisor⟩
    emit ⟨baseAddr bus dev UART8250_DLL, 0x0C⟩
    emit ⟨baseAddr bus dev UART8250_DLH, 0x00⟩
    emit ⟨regAddr bus dev UART8250_LCR, 0x08⟩
    emit ⟨regAddr bus dev UART8250_IIR, 0xC7⟩
    emit ⟨regAddr bus dev UART8250_MCR, 0x0B⟩
    pure dev

/-! ### The registers -/

structure Regs where
  dll : Byte
  dlm : Byte
  ier : Byte
  fcr : Byte
  lcr : Byte
  mcr : Byte
  scr : Byte
deriving DecidableEq, Repr

def Regs.dlab (r : Regs) : Bool := r.lcr.getLsbD 7

/-- Parity is enabled. -/
def Regs.parity (r : Regs) : Bool := r.lcr.getLsbD 3

/-- The device: its registers, the bytes stored to the THR, the addresses stored to that are not its own. -/
structure Uart (W : Nat) where
  regs : Regs
  sent : List Byte
  stray : List (BitVec W)

/-- A store to the register at offset `reg`; those at 5 and 6 cannot be written. -/
def Uart.store (u : Uart W) (reg : Nat) (v : Byte) : Uart W :=
  match reg with
  | 0 => if u.regs.dlab then { u with regs := { u.regs with dll := v } } else { u with sent := u.sent ++ [v] }
  | 1 =>
    if u.regs.dlab then { u with regs := { u.regs with dlm := v } }
    else { u with regs := { u.regs with ier := v } }
  | 2 => { u with regs := { u.regs with fcr := v } }
  | 3 => { u with regs := { u.regs with lcr := v } }
  | 4 => { u with regs := { u.regs with mcr := v } }
  | 7 => { u with regs := { u.regs with scr := v } }
  | _ => u

/-- The register at an address. -/
def regOf (bus : Bus) (dev : SerialDevice W) (addr : BitVec W) : Option Nat :=
  (List.range 8).find? fun reg => addr = regAddr bus dev reg

def Uart.step (bus : Bus) (dev : SerialDevice W) (u : Uart W) (w : BusWrite W) : Uart W :=
  match regOf bus dev w.addr with
  | some reg => u.store reg w.value
  | none => { u with stray := u.stray ++ [w.addr] }

def Uart.run (bus : Bus) (dev : SerialDevice W) (u : Uart W) (ws : List (BusWrite W)) : Uart W :=
  ws.foldl (step bus dev) u

/-- The device after `serial_8250_init`, with the registers `regs` before it. -/
def uartAfter (bus : Bus) (order : ByteOrder) (clock : BitVec 32) (write read : FnPtr) (dev : SerialDevice W)
    (regs : Regs) : Uart W :=
  Uart.run bus dev ⟨regs, [], []⟩ (serial8250Init bus order clock write read dev).events

/-- `serial_8250_init` programs the line: it returns, the divisor latch holds the quotient, DLAB and parity
are off, nothing is transmitted and every store is to the device. -/
structure ProgramsLine (bus : Bus) (order : ByteOrder) (clock : BitVec 32) (write read : FnPtr)
    (dev : SerialDevice W) (regs : Regs) : Prop where
  returns : (serial8250Init bus order clock write read dev).Defined
  low : (uartAfter bus order clock write read dev regs).regs.dll.toNat =
    clock.toNat / (16 * dev.beaudrate.toNat) % 256
  high : (uartAfter bus order clock write read dev regs).regs.dlm.toNat =
    clock.toNat / (16 * dev.beaudrate.toNat) / 256
  dlab : (uartAfter bus order clock write read dev regs).regs.dlab = false
  parity : (uartAfter bus order clock write read dev regs).regs.parity = false
  sent : (uartAfter bus order clock write read dev regs).sent = []
  stray : (uartAfter bus order clock write read dev regs).stray = []

/-! ### Addresses -/

section Addresses

variable (bus : Bus) (dev : SerialDevice W) (hW : 16 ≤ W) (hoff : dev.regOffset.toNat ≤ 2)

include hW

theorem addr_inj_low {x y : BitVec W} (h : bus.addr x = bus.addr y) : x.toNat % 2 ^ 16 = y.toNat % 2 ^ 16 := by
  cases bus with
  | memory => rw [show x = y from h]
  | port =>
    have hlow := congrArg BitVec.toNat h
    have hfit : ∀ n, n % 2 ^ 16 < 2 ^ W := fun n =>
      Nat.lt_of_lt_of_le (Nat.mod_lt n (by decide)) (Nat.pow_le_pow_right (by decide) hW)
    simpa only [Bus.addr, BitVec.toNat_setWidth, Nat.mod_eq_of_lt (hfit _)] using hlow

theorem toNat_base_add (off : BitVec W) :
    (dev.ioBase + off).toNat % 2 ^ 16 = (dev.ioBase.toNat + off.toNat) % 2 ^ 16 := by
  rw [BitVec.toNat_add, Nat.mod_mod_of_dvd _ (Nat.pow_dvd_pow 2 hW)]

include hoff

theorem toNat_regOffset {reg : Nat} (hreg : reg < 8) :
    (BitVec.ofNat W reg <<< dev.regOffset.toNat).toNat = reg * 2 ^ dev.regOffset.toNat ∧
      reg * 2 ^ dev.regOffset.toNat < 32 := by
  have hpow : 2 ^ dev.regOffset.toNat ≤ 2 ^ 2 := Nat.pow_le_pow_right (by decide) hoff
  have hwidth : 2 ^ 16 ≤ 2 ^ W := Nat.pow_le_pow_right (by decide) hW
  have hsmall : reg * 2 ^ dev.regOffset.toNat < 32 :=
    calc reg * 2 ^ dev.regOffset.toNat ≤ 7 * 2 ^ 2 := Nat.mul_le_mul (by omega) hpow
      _ < 32 := by decide
  refine ⟨?_, hsmall⟩
  rw [BitVec.toNat_shiftLeft, BitVec.toNat_ofNat, Nat.mod_eq_of_lt (show reg < 2 ^ W by omega), Nat.shiftLeft_eq,
    Nat.mod_eq_of_lt (by omega)]

theorem regAddr_inj {j k : Nat} (hj : j < 8) (hk : k < 8) (h : regAddr bus dev j = regAddr bus dev k) : j = k := by
  obtain ⟨hoffj, hsmallj⟩ := toNat_regOffset dev hW hoff hj
  obtain ⟨hoffk, hsmallk⟩ := toNat_regOffset dev hW hoff hk
  have hlow := addr_inj_low bus hW h
  rw [toNat_base_add dev hW, toNat_base_add dev hW, hoffj, hoffk] at hlow
  have hmul : j * 2 ^ dev.regOffset.toNat = k * 2 ^ dev.regOffset.toNat := by omega
  exact Nat.eq_of_mul_eq_mul_right (Nat.two_pow_pos _) hmul

theorem regOf_regAddr {reg : Nat} (hreg : reg < 8) : regOf bus dev (regAddr bus dev reg) = some reg := by
  rw [regOf, List.find?_range_eq_some]
  refine ⟨decide_eq_true rfl, List.mem_range.mpr hreg, fun j hj => ?_⟩
  rw [Bool.not_eq_true', decide_eq_false_iff_not]
  exact fun h => absurd (regAddr_inj bus dev hW hoff hreg (by omega) h) (by omega)

omit hW hoff in
theorem baseAddr_dll : baseAddr bus dev UART8250_DLL = regAddr bus dev 0 := by
  simp [baseAddr, regAddr, UART8250_DLL]

theorem baseAddr_dlh_ne : baseAddr bus dev UART8250_DLH ≠ regAddr bus dev 0 := by
  intro h
  obtain ⟨hzero, -⟩ := toNat_regOffset dev hW hoff (show 0 < 8 by decide)
  have hlow := addr_inj_low bus hW h
  have hone : (BitVec.ofNat W UART8250_DLH).toNat = 1 := Nat.mod_eq_of_lt (Nat.one_lt_two_pow (by omega))
  rw [toNat_base_add dev hW, toNat_base_add dev hW, hone, hzero] at hlow
  omega

theorem step_regAddr {reg : Nat} (hreg : reg < 8) (u : Uart W) (v : Byte) :
    u.step bus dev ⟨regAddr bus dev reg, v⟩ = u.store reg v := by
  rw [Uart.step]
  simp only [regOf_regAddr bus dev hW hoff hreg]

omit hW hoff in
theorem sent_store (u : Uart W) {reg : Nat} (h : reg ≠ 0) (v : Byte) : (u.store reg v).sent = u.sent := by
  unfold Uart.store
  split
  · exact absurd rfl h
  · split <;> rfl
  all_goals rfl

theorem sent_step_dlh (u : Uart W) (v : Byte) :
    (u.step bus dev ⟨baseAddr bus dev UART8250_DLH, v⟩).sent = u.sent := by
  have hne := baseAddr_dlh_ne bus dev hW hoff
  rw [Uart.step]
  split
  · next reg hreg =>
    have haddr : baseAddr bus dev UART8250_DLH = regAddr bus dev reg := by
      rw [regOf] at hreg
      simpa using List.find?_some hreg
    exact sent_store u (fun hzero => hne (hzero ▸ haddr)) v
  · rfl

end Addresses

/-! ### What is left in the registers -/

section Registers

variable (bus : Bus) (order : ByteOrder) (clock : BitVec 32) (write read : FnPtr) (dev : SerialDevice W)
  (regs : Regs)

/-- The bytes stored for the divisor, in the order of the stores. -/
def divisorBytes (order : ByteOrder) (divisor : BitVec 16) : Byte × Byte :=
  match order with
  | .little => (divisorHigh divisor, divisorLow divisor)
  | .big => (divisorLow divisor, divisorHigh divisor)

theorem init_eq (hrate : dev.beaudrate * 16 ≠ 0) :
    let divisor := divisorBytes order ((clock / (dev.beaudrate * 16)).setWidth 16)
    serial8250Init bus order clock write read dev =
      ⟨[⟨regAddr bus dev UART8250_IER, 0x00⟩, ⟨regAddr bus dev UART8250_IIR, 0x80⟩,
          ⟨baseAddr bus dev UART8250_DLL, divisor.1⟩, ⟨regAddr bus dev UART8250_DLH, divisor.2⟩,
          ⟨baseAddr bus dev UART8250_DLL, 0x0C⟩, ⟨baseAddr bus dev UART8250_DLH, 0x00⟩,
          ⟨regAddr bus dev UART8250_LCR, 0x08⟩, ⟨regAddr bus dev UART8250_IIR, 0xC7⟩,
          ⟨regAddr bus dev UART8250_MCR, 0x0B⟩],
        some { dev with write := some write, read := some read }⟩ := by
  unfold serial8250Init
  simp only [if_neg hrate]
  cases order <;> rfl

theorem rate_ne_zero (h : (serial8250Init bus order clock write read dev).Defined) : dev.beaudrate * 16 ≠ 0 := by
  intro hzero
  unfold serial8250Init at h
  simp only [if_pos hzero] at h
  cases h

variable (hW : 16 ≤ W) (hoff : dev.regOffset.toNat ≤ 2)

include hW hoff

/-- Parity is left enabled: the last stores are those to the LCR, the FCR and the MCR. -/
theorem lcr_init (hrate : dev.beaudrate * 16 ≠ 0) :
    (uartAfter bus order clock write read dev regs).regs.lcr = 0x08 := by
  have hstep := fun (reg : Nat) (hreg : reg < 8) u v => step_regAddr bus dev hW hoff hreg u v
  rw [uartAfter, init_eq bus order clock write read dev hrate]
  simp only [Uart.run, List.foldl_cons, List.foldl_nil]
  rw [hstep UART8250_MCR (by decide), hstep UART8250_IIR (by decide), hstep UART8250_LCR (by decide)]
  rfl

/-- With DLAB clear, what is stored for the divisor is transmitted. -/
theorem sent_init (hrate : dev.beaudrate * 16 ≠ 0) (hdlab : regs.dlab = false) :
    (uartAfter bus order clock write read dev regs).sent =
      [(divisorBytes order ((clock / (dev.beaudrate * 16)).setWidth 16)).1, 0x0C] := by
  have hstep := fun (reg : Nat) (hreg : reg < 8) u v => step_regAddr bus dev hW hoff hreg u v
  have hlast := sent_step_dlh bus dev hW hoff
  have hbit : regs.lcr[7] = false := hdlab
  rw [uartAfter, init_eq bus order clock write read dev hrate]
  simp only [Uart.run, List.foldl_cons, List.foldl_nil, baseAddr_dll]
  rw [hstep UART8250_MCR (by decide), hstep UART8250_IIR (by decide), hstep UART8250_LCR (by decide),
    sent_store _ (by decide), sent_store _ (by decide), sent_store _ (by decide)]
  rw [hlast, hstep 0 (by decide), hstep UART8250_DLH (by decide), hstep 0 (by decide), hstep UART8250_IIR (by decide),
    hstep UART8250_IER (by decide)]
  simp [Uart.store, UART8250_IER, UART8250_IIR, UART8250_DLH, Regs.dlab, hbit]

/-- **`serial_8250_init` never programs the line it was asked for**: it leaves parity enabled. -/
theorem not_programsLine : ¬ ProgramsLine bus order clock write read dev regs := by
  intro h
  have hparity := h.parity
  rw [Regs.parity, lcr_init bus order clock write read dev regs hW hoff
    (rate_ne_zero bus order clock write read dev h.returns)] at hparity
  exact absurd hparity (by decide)

end Registers

theorem not_programsLine_stride :
    ¬ ProgramsLine .memory .big 8000000 2 3 ⟨none, none, none, (0x10000000 : BitVec 32), 2, 9600⟩
      ⟨0, 0, 0, 0, 0, 0, 0⟩ :=
  not_programsLine _ _ _ _ _ _ _ (by decide) (by decide)

/-- The port of the i386 at 9600 baud from 8 MHz: parity is enabled, and two bytes are transmitted. -/
theorem not_programsLine_i386 :
    let uart := uartAfter .port .little 8000000 2 3 (i386Serial 1 2 3).drivers.serial ⟨0, 0, 0, 0, 0, 0, 0⟩
    uart.regs.parity = true ∧ uart.sent = [0x00, 0x0C] ∧
      ¬ ProgramsLine .port .little 8000000 2 3 (i386Serial 1 2 3).drivers.serial ⟨0, 0, 0, 0, 0, 0, 0⟩ := by
  intro uart
  have hparity : uart.regs.parity = true := by decide
  exact ⟨hparity, by decide, fun h => absurd (h.parity.symm.trans hparity) (by decide)⟩

end QDNix.Dev
