import QDNix.Dev.SerialBoot
import QDNix.Kern.ConsoleDriver

/-!
# A boot log on the serial line

What the machines with an 8250 have in common: `serial_8250_init` on a TTY, `console_setup` on it, and then
nothing but characters and flushes. `bootStart` is the system of `SerialBoot` for that, `boot_text_line` what
becomes of it under a fair schedule. The line does not begin with the log, but with a byte the transmit register held
from before, and with DLAB clear the stores meant for the divisor are transmitted (`StrayBytes`). Of all these only
the last is certain.
-/

namespace QDNix.Kern

open Dev Traced Fairness Transmit

/-! ### The bytes of the initialisation -/

section Strays

variable {W : Nat} (bus : Bus) (order : ByteOrder) (clock : BitVec 32) (write read : FnPtr) (dev : SerialDevice W)
  (regs : Regs) (held : Option Byte)

/-- What may be on the line behind `serial_8250_init`, where `held` was in the transmit register: with DLAB set that
alone, else the second of the two bytes stored to offset 0 and perhaps some of what came before it. -/
def StrayBytes (stray : List Byte) : Prop :=
  if regs.dlab then stray = held.toList
  else ∃ kept : List Byte, stray = kept ++ [0x0C] ∧
    kept.Sublist (held.toList ++ [(divisorBytes order ((clock / (dev.beaudrate * 16)).setWidth 16)).1])

theorem lossy_concat {stored sent : List Byte} {b : Byte} (h : Port.Lossy (stored ++ [b]) sent) :
    ∃ kept, sent = kept ++ [b] ∧ kept.Sublist stored := by
  obtain ⟨hsub, hlast⟩ := h
  rw [List.getLast?_concat] at hlast
  obtain ⟨kept, rfl⟩ := List.getLast?_eq_some_iff.mp hlast
  exact ⟨kept, rfl, (List.append_sublist_append_right [b]).mp hsub⟩

theorem lossy_toList {sent : List Byte} (h : Port.Lossy held.toList sent) : sent = held.toList := by
  obtain ⟨hsub, hlast⟩ := h
  cases held with
  | none => exact List.sublist_nil.mp hsub
  | some b =>
    rcases List.sublist_singleton.mp hsub with rfl | rfl
    · cases hlast
    · rfl

variable (hW : 16 ≤ W) (hoff : dev.regOffset.toNat ≤ 2)

include hW hoff

theorem sent_init_dlab (hrate : dev.beaudrate * 16 ≠ 0) (hdlab : regs.dlab = true) :
    (uartAfter bus order clock write read dev regs).sent = [] := by
  have hstep := fun (reg : Nat) (hreg : reg < 8) u v => step_regAddr bus dev hW hoff hreg u v
  have hlast := sent_step_dlh bus dev hW hoff
  have hbit : regs.lcr[7] = true := hdlab
  rw [uartAfter, init_eq bus order clock write read dev hrate]
  simp only [Uart.run, List.foldl_cons, List.foldl_nil, baseAddr_dll]
  rw [hstep UART8250_MCR (by decide), hstep UART8250_IIR (by decide), hstep UART8250_LCR (by decide),
    sent_store _ (by decide), sent_store _ (by decide), sent_store _ (by decide)]
  rw [hlast, hstep 0 (by decide), hstep UART8250_DLH (by decide), hstep 0 (by decide), hstep UART8250_IIR (by decide),
    hstep UART8250_IER (by decide)]
  simp [Uart.store, UART8250_IER, UART8250_IIR, UART8250_DLH, Regs.dlab, hbit]

theorem strayBytes_of_lossy (hrate : dev.beaudrate * 16 ≠ 0) {stray : List Byte}
    (h : Port.Lossy (held.toList ++ (uartAfter bus order clock write read dev regs).sent) stray) :
    StrayBytes order clock dev regs held stray := by
  unfold StrayBytes
  by_cases hdlab : regs.dlab = true
  · rw [if_pos hdlab]
    rw [sent_init_dlab bus order clock write read dev regs hW hoff hrate hdlab, List.append_nil] at h
    exact lossy_toList held h
  · rw [if_neg hdlab]
    rw [sent_init bus order clock write read dev regs hW hoff hrate (Bool.eq_false_iff.mpr hdlab),
      List.append_cons] at h
    exact lossy_concat h

theorem dlab_init (hrate : dev.beaudrate * 16 ≠ 0) :
    (uartAfter bus order clock write read dev regs).regs.dlab = false := by
  rw [Regs.dlab, lcr_init bus order clock write read dev regs hW hoff hrate]
  decide

end Strays

/-! ### The log -/

variable {W : Nat} (bus : Bus) (order : ByteOrder) (clock : BitVec 32) (write read : FnPtr) (dev : Device W)

/-- A device after `serial_8250_init`. -/
def driven (write read : FnPtr) (dev : Device W) : Device W :=
  { dev with drivers := ⟨{ dev.drivers.serial with write := some write, read := some read }⟩ }

/-- The boot of a machine whose `dev` is at `addr`: the stores of `serial_8250_init`, then the calls of the
driver that the unbuffered console makes for `ops` once it is set up. -/
def bootStart (addr : DevPtr) (regs : Regs) (held : Option Byte) (ops : List Op) : Boot W :=
  Boot.start (serial8250Init bus order clock write read dev.drivers.serial).events regs held
    (driverCalls (run (fun _ => driven write read dev) .unbuffered (State.boot : State 0) (.setup addr :: ops)).events)

variable (hW : 16 ≤ W) (hoff : dev.drivers.serial.regOffset.toNat ≤ 2)
  (hrate : dev.drivers.serial.beaudrate * 16 ≠ 0) (htty : dev.deviceClass = .tty)

include htty in
theorem boot_calls (addr : DevPtr) (ops : List Op) (hops : NoSetup ops) :
    (∀ e ∈ (run (fun _ => driven write read dev) .unbuffered (State.boot : State 0) (.setup addr :: ops)).events,
      e.Calls write (some addr)) ∧
    (driverCalls (run (fun _ => driven write read dev) .unbuffered (State.boot : State 0)
      (.setup addr :: ops)).events).flatMap WriteArgs.text = puts ops := by
  obtain ⟨s, hstep, hready, hdevice⟩ : ∃ s : State 0,
      step (fun _ => driven write read dev) .unbuffered State.boot (.setup addr) = pure s ∧ s.Ready write ∧
        s.cons.device = some addr := by
    refine ⟨_, rfl, ⟨rfl, ?_⟩, rfl⟩
    simp [setupCons, driven, htty]
  have hrun : run (fun _ => driven write read dev) .unbuffered State.boot (.setup addr :: ops) =
      run (fun _ => driven write read dev) .unbuffered s ops := by
    rw [run, List.foldlM_cons, hstep, pure_bind]
    rfl
  have hcalls := unbuffered_calls (fun _ => driven write read dev) hready ops hops
  obtain ⟨es, hes, hstream⟩ := unbuffered_stream (fun _ => driven write read dev) hready ops hops
  rw [hrun]
  rw [hdevice] at hcalls
  exact ⟨hcalls, by rw [text_driverCalls hcalls, hes, hstream]⟩

include hW hoff hrate htty

/-- **Under every fair schedule a boot finishes and its log reaches the line**, behind what was on its way before. -/
theorem boot_text_line (addr : DevPtr) (regs : Regs) (held : Option Byte) (ops : List Op) (hops : NoSetup ops)
    {f : Nat → Choice} (hf : Fair (· = .uart) (· ≠ .uart) f) :
    ∃ stray, StrayBytes order clock dev.drivers.serial regs held stray ∧ ∃ n, ∀ m, n ≤ m →
      (after (Boot.step bus dev.drivers.serial)
        (bootStart bus order clock write read dev addr regs held ops) f m).Finished ∧
      (after (Boot.step bus dev.drivers.serial)
        (bootStart bus order clock write read dev addr regs held ops) f m).sys.port =
        ⟨none, stray ++ crlf (puts ops)⟩ := by
  have hclear := dlab_init bus order clock write read dev.drivers.serial regs hW hoff hrate
  obtain ⟨stray, hlossy, n, hn⟩ := boot_line bus dev.drivers.serial held
    (driverCalls (run (fun _ => driven write read dev) .unbuffered (State.boot : State 0)
      (.setup addr :: ops)).events) hclear hW hoff hf
  have hstray := strayBytes_of_lossy bus order clock write read dev.drivers.serial regs held hW hoff hrate hlossy
  refine ⟨stray, hstray, n, fun m hnm => ?_⟩
  obtain ⟨hdone, hport⟩ := hn m hnm
  rw [(boot_calls write read dev htty addr ops hops).2] at hport
  exact ⟨hdone, hport⟩

end QDNix.Kern
