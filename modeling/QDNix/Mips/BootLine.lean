import QDNix.I386.BootLine
import QDNix.Mips.Init

/-!
# The boot log of the MIPS boards on the wire

`_entry` calls `platform_init` and then `arch_init`. The first sets up the port and says so, and so does the
second, so the line ends up with that message twice, around the greeting (`boot_line_mips`).
-/

namespace QDNix.Mips

open Dev Kern Libkern Traced Numeral Fairness
open I386 (ascii literal Prints prints_text BootEvent Image filterMap_store filterMap_op)

variable (board : Board) (order : ByteOrder) (image : Image)

/-- `platform_init`, on the device `dev` holds. -/
def platformInit (dev : Device 32) (buff : Buff) : Traced BootEvent (Device 32 × Buff) := do
  let serial ← relabel (fun w => [.bus w])
    (serial8250Init .memory order image.clock image.write image.read dev.drivers.serial)
  emit (.console (.setup image.dev))
  let buff ← relabel (fun op => [.console op]) (printk (literal "serial initialized\n") ([] : List Va) buff)
  pure ({ dev with drivers := ⟨serial⟩ }, buff)

/-- `platform_init`, then `arch_init` with what the loader left. -/
def kernelBoot (argc argv envp memsize : BitVec 32) (args env : List (Option (List Byte))) (buff : Buff) :
    Traced BootEvent (Device 32 × Buff) := do
  let (dev, buff) ← platformInit order image (board.device image.init) buff
  let buff ← relabel (fun op => [.console op]) (archInit argc argv envp memsize args env buff)
  pure (dev, buff)

/-- The boot: its stores, and the calls the console makes of the driver. -/
def mipsBoot (regs : Regs) (held : Option Byte) (argc argv envp memsize : BitVec 32)
    (args env : List (Option (List Byte))) (buff : Buff) : Boot 32 :=
  let events := (kernelBoot board order image argc argv envp memsize args env buff).events
  .start (events.filterMap BootEvent.store?) regs held
    (driverCalls (run (fun _ => driven image.write image.read (board.device image.init)) .unbuffered
      (State.boot : State 0) (events.filterMap BootEvent.op?)).events)

theorem rate_ne_zero : (board.device image.init).drivers.serial.beaudrate * 16 ≠ 0 := by
  show (9600 : BitVec 32) * 16 ≠ 0
  decide

theorem platformInit_eq {buff buff' : Buff}
    (hprintk : (printk (literal "serial initialized\n") ([] : List Va) buff).value? = some buff') :
    ∃ dev, platformInit order image (board.device image.init) buff =
      ⟨(serial8250Init .memory order image.clock image.write image.read
          (board.device image.init).drivers.serial).events.map .bus ++
            (Op.setup image.dev :: (printk (literal "serial initialized\n") ([] : List Va) buff).events).map .console,
        some (dev, buff')⟩ := by
  have hinit := init_eq .memory order image.clock image.write image.read
    (board.device image.init).drivers.serial (rate_ne_zero board image)
  obtain ⟨serial, hserial⟩ : ∃ serial, (serial8250Init .memory order image.clock image.write image.read
      (board.device image.init).drivers.serial).value? = some serial := ⟨_, congrArg Traced.value? hinit⟩
  unfold platformInit
  generalize serial8250Init .memory order image.clock image.write image.read _ = driver at hserial ⊢
  generalize printk (literal "serial initialized\n") ([] : List Va) buff = ready at hprintk ⊢
  have hbus := events_relabel_map BootEvent.bus driver
  have hconsole := events_relabel_map BootEvent.console ready
  rw [← value?_relabel (fun w => [BootEvent.bus w])] at hserial
  rw [← value?_relabel (fun op => [BootEvent.console op])] at hprintk
  refine ⟨{ board.device image.init with drivers := ⟨serial⟩ }, ?_⟩
  rw [bind_of_some hserial, emit_bind, bind_of_some hprintk, hbus, hconsole, List.map_cons]
  simp

theorem kernelBoot_events (argc argv envp memsize : BitVec 32) (args : List (Option CStr))
    (hargc : argc.toInt ≤ args.length) (env : List CStr) (rest : List (Option (List Byte))) (buff : Buff) :
    ∃ ops, (kernelBoot board order image argc argv envp memsize (args.map (Option.map CStr.bytes))
        (env.map (fun s => some s.bytes) ++ none :: rest) buff).events =
      (serial8250Init .memory order image.clock image.write image.read
        (board.device image.init).drivers.serial).events.map .bus ++ (Op.setup image.dev :: ops).map .console ∧
      NoSetup ops ∧
      puts ops = ascii "serial initialized\n" ++ archLog argc argv envp memsize args env := by
  obtain ⟨hdefined, hsetup, hputs⟩ := prints_text (s := "serial initialized\n") (by decide) (by decide) buff
  obtain ⟨buff₁, hvalue⟩ := Option.isSome_iff_exists.mp hdefined
  obtain ⟨dev, hplatform⟩ := platformInit_eq board order image hvalue
  obtain ⟨hdefined', hsetup', hputs'⟩ := prints_archInit argc argv envp memsize args hargc env rest buff₁
  obtain ⟨buff₂, hvalue'⟩ := Option.isSome_iff_exists.mp hdefined'
  unfold kernelBoot
  rw [hplatform, bind_of_some (a := (dev, buff₁)) rfl]
  dsimp only
  generalize archInit argc argv envp memsize _ _ buff₁ = messages at hsetup' hputs' hvalue' ⊢
  generalize printk (literal "serial initialized\n") ([] : List Va) buff = ready at hsetup hputs ⊢
  have hconsole := events_relabel_map BootEvent.console messages
  rw [← value?_relabel (fun op => [BootEvent.console op])] at hvalue'
  rw [bind_of_some hvalue', hconsole]
  refine ⟨ready.events ++ messages.events, by simp, fun dev hdev => ?_, ?_⟩
  · rcases List.mem_append.mp hdev with hdev | hdev
    · exact hsetup dev hdev
    · exact hsetup' dev hdev
  · rw [puts_append, hputs, hputs']

/-- The log of that boot, in full. -/
example : archLog 2 0x80001000 0x80002000 2048 [some ⟨[ch 'k', 0], by decide⟩, none] [⟨[ch 'e', 0, ch 'x'], by decide⟩] =
    ascii "QDNX hello\nserial initialized\nmemsize: 2048\ncmdline:\n\t0: k\n\t1: (null)\nenv:\n\te\n2 0x80001000 0x80002004\nmemsize: 2KiB\n" := by
  decide +kernel

end QDNix.Mips
