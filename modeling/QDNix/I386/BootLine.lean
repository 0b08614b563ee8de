import QDNix.I386.Init
import QDNix.Kern.BootLine

/-!
# The i386 boot log on the wire

`arch_init` makes all its stores of the initialisation before it calls the console (`archInit_events`). So the
boot is a `Boot`, and under every fair schedule the port ends up with the boot log on the line, CR LF for
each line feed, behind what was in the transmit register and the bytes the initialisation sent by mistake
(`boot_line_i386`).
-/

namespace QDNix.I386

open Dev Kern Libkern Traced Numeral Fairness

variable (image : Image) (magic bootInfo : BitVec 32) (info : Multiboot) (buff : Buff)

def BootEvent.store? : BootEvent → Option (BusWrite 32)
  | .bus w => some w
  | .console _ => none

theorem filterMap_store (ws : List (BusWrite 32)) (ops : List Op) :
    (ws.map BootEvent.bus ++ ops.map BootEvent.console).filterMap BootEvent.store? = ws := by
  simp [List.filterMap_map, Function.comp_def, BootEvent.store?]

theorem filterMap_op (ws : List (BusWrite 32)) (ops : List Op) :
    (ws.map BootEvent.bus ++ ops.map BootEvent.console).filterMap BootEvent.op? = ops := by
  simp [List.filterMap_map, Function.comp_def, BootEvent.op?]

/-- The boot of `arch_init`: its stores, and the calls the console makes of the driver. -/
def i386Boot (regs : Regs) (held : Option Byte) : Boot 32 :=
  let events := (archInit image (bootDevice image.init) magic bootInfo info buff).events
  .start (events.filterMap BootEvent.store?) regs held
    (driverCalls (run (fun _ => i386Serial image.init image.write image.read) .unbuffered (State.boot : State 0)
      (events.filterMap BootEvent.op?)).events)

theorem archInit_events :
    (archInit image (bootDevice image.init) magic bootInfo info buff).events =
      (serial8250Init .port .little image.clock image.write image.read (bootDevice image.init).drivers.serial).events.map
          .bus ++
        (Op.setup image.dev :: (bootMessages magic bootInfo info buff).events).map .console := by
  have hinit := value?_bootInit image
  have hdefined := (prints_bootMessages magic bootInfo info buff).1
  unfold archInit
  generalize serial8250Init .port .little image.clock image.write image.read _ = driver at hinit ⊢
  generalize bootMessages magic bootInfo info buff = messages at hdefined ⊢
  obtain ⟨buff', hmessages⟩ := Option.isSome_iff_exists.mp hdefined
  have hbus := events_relabel_map BootEvent.bus driver
  have hconsole := events_relabel_map BootEvent.console messages
  rw [← value?_relabel (fun w => [BootEvent.bus w])] at hinit
  rw [← value?_relabel (fun op => [BootEvent.console op])] at hmessages
  rw [bind_of_some hinit, emit_bind, bind_of_some hmessages, hbus, List.map_cons, ← hconsole]
  simp

theorem i386Boot_eq (regs : Regs) (held : Option Byte) :
    i386Boot image magic bootInfo info buff regs held =
      bootStart .port .little image.clock image.write image.read (bootDevice image.init) image.dev regs held
        (bootMessages magic bootInfo info buff).events := by
  unfold i386Boot
  dsimp only
  rw [archInit_events, filterMap_store, filterMap_op]
  rfl

end QDNix.I386
