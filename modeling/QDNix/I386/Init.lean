import QDNix.Dev.Serial8250Init
import QDNix.Kern.ConsoleStream
import QDNix.Libkern.PrintkFormat

/-!
# The boot log of the i386

`arch_init` of `i386/init.c` and `multiboot_entry` of `x86/multiboot.c`, both widths of `printk` being 32. A
boot shows the stores of the serial driver and the calls of the console, in order; `bootText` is what the
unbuffered console makes of the calls.

`multiboot_entry` tests each flag with `|` where `bootLog` asks whether it is set, so it reports the memory
map and the drives whatever the flags are (`bootText_eq`).
-/

namespace QDNix.I386

open Dev Kern Libkern Traced Numeral

/-- The bytes of an ASCII text. -/
def ascii (s : String) : List Byte := s.toList.map ch

/-- A string literal, with its terminator. -/
def literal (s : String) : List Byte := ascii s ++ [0]

def MULTIBOOT_BOOTLOADER_MAGIC : BitVec 32 := 0x2BADB002

-- The macros are not parenthesised, but `<<` binds tighter than the `|` they stand behind.
def MULTIBOOT_INFO_MMAP : BitVec 32 := (1 : BitVec 32) <<< 6

def MULTIBOOT_INFO_DRIVES : BitVec 32 := (1 : BitVec 32) <<< 7

/-- The boot information, as far as it is read. -/
structure Multiboot where
  flags : BitVec 32
deriving DecidableEq, Repr

/-- `multiboot_entry` -/
def multibootEntry (bootInfo : Multiboot) (buff : Buff) : Traced Op (Nat × Buff) := do
  let buff ←
    if bootInfo.flags ||| MULTIBOOT_INFO_MMAP ≠ 0 then
      printk (literal "mmap found\n") ([] : List (Arg 32 32)) buff
    else pure buff
  let buff ←
    if bootInfo.flags ||| MULTIBOOT_INFO_DRIVES ≠ 0 then
      printk (literal "has drives info\n") ([] : List (Arg 32 32)) buff
    else pure buff
  pure (0, buff)

/-- `arch_init` after `console_setup`, with `info` at the address `bootInfo`. -/
def bootMessages (magic bootInfo : BitVec 32) (info : Multiboot) (buff : Buff) : Traced Op Buff := do
  let buff ← printk (literal "Magic: 0x%x, BootInfo: %p\n") [.unsigned magic, .uintptr bootInfo] buff
  if magic = MULTIBOOT_BOOTLOADER_MAGIC then do
    let buff ← printk (literal "yay multiboot\n") ([] : List (Arg 32 32)) buff
    let (_, buff) ← multibootEntry info buff
    pure buff
  else printk (literal "Invalide multiboot magic\n") ([] : List (Arg 32 32)) buff

inductive BootEvent
  | bus (w : BusWrite 32)
  | console (op : Op)
deriving DecidableEq, Repr

/-- The static `dev`, given the address of `serial_8250_init`. -/
def bootDevice (init : FnPtr) : Device 32 where
  deviceClass := .tty
  drivers := ⟨{
    init := some init
    write := none
    read := none
    ioBase := 0x3F8
    regOffset := 0
    beaudrate := 9600 }⟩

/-- What building the kernel fixes: `CONFIG_CLOCK`, the addresses of the driver's functions and of `dev`. -/
structure Image where
  clock : BitVec 32
  init : FnPtr
  write : FnPtr
  read : FnPtr
  dev : DevPtr

/-- `arch_init`, on the device `dev` holds. -/
def archInit (image : Image) (dev : Device 32) (magic bootInfo : BitVec 32) (info : Multiboot) (buff : Buff) :
    Traced BootEvent (Device 32 × Buff) := do
  let serial ← relabel (fun w => [.bus w])
    (serial8250Init .port .little image.clock image.write image.read dev.drivers.serial)
  emit (.console (.setup image.dev))
  let buff ← relabel (fun op => [.console op]) (bootMessages magic bootInfo info buff)
  pure ({ dev with drivers := ⟨serial⟩ }, buff)

def BootEvent.op? : BootEvent → Option Op
  | .bus _ => none
  | .console op => some op

/-- The text `arch_init` sends to the console device, which the driver's `init` has left as `r.1`; `none` if
it does not return. -/
def bootText (image : Image) (magic bootInfo : BitVec 32) (info : Multiboot) (buff : Buff) :
    Option (List Byte) :=
  let boot := archInit image (bootDevice image.init) magic bootInfo info buff
  boot.value?.map fun r =>
    stream (run (fun _ => r.1) .unbuffered (State.boot : State 0) (boot.events.filterMap BootEvent.op?)).events

/-- What the boot log should say. -/
def bootLog (magic bootInfo : BitVec 32) (info : Multiboot) : List Byte :=
  ascii "Magic: 0x" ++ numeral 16 magic.toNat ++ ascii ", BootInfo: 0x" ++ numeral 16 bootInfo.toNat ++
    ascii "\n" ++
    if magic = MULTIBOOT_BOOTLOADER_MAGIC then
      ascii "yay multiboot\n" ++ (if info.flags.getLsbD 6 then ascii "mmap found\n" else []) ++
        (if info.flags.getLsbD 7 then ascii "has drives info\n" else [])
    else ascii "Invalide multiboot magic\n"

/-! ### Messages -/

section Messages

variable {α β : Type} {m : Traced Op α} {s t : List Byte}

/-- A run that returns and puts a text, flushing anywhere. -/
def Prints (m : Traced Op α) (text : List Byte) : Prop := m.Defined ∧ NoSetup m.events ∧ puts m.events = text

theorem prints_pure (a : α) : Prints (pure a) [] := ⟨rfl, by simp [NoSetup], rfl⟩

theorem Prints.bind {f : α → Traced Op β} (hm : Prints m s) (hf : ∀ a, Prints (f a) t) :
    Prints (m >>= f) (s ++ t) := by
  obtain ⟨hdefined, hsetup, hputs⟩ := hm
  obtain ⟨a, hvalue⟩ := Option.isSome_iff_exists.mp hdefined
  obtain ⟨hdefined', hsetup', hputs'⟩ := hf a
  rw [bind_of_some hvalue]
  refine ⟨hdefined', fun dev hdev => ?_, by rw [puts_append, hputs, hputs']⟩
  rcases List.mem_append.mp hdev with hdev | hdev
  · exact hsetup dev hdev
  · exact hsetup' dev hdev

theorem puts_putAll (text : List Byte) : puts (putAll text) = text := by
  induction text with
  | nil => rfl
  | cons c text ih => exact congrArg (c :: ·) ih

theorem prints_printk {fmt : String} {text : List Byte} {args : List (Arg 32 32)} (hfmt : 0 ∉ ascii fmt)
    (htext : format (ascii fmt) args = some text) (buff : Buff) : Prints (printk (literal fmt) args buff) text := by
  obtain ⟨buff', hloop⟩ := printkLoop_eq (ascii fmt) args [] text buff hfmt htext
  rw [printk, literal, hloop, bind_of_some rfl]
  refine ⟨rfl, by simp [NoSetup, putAll], ?_⟩
  show puts (putAll text ++ [.flush]) = text
  rw [puts_append, puts_putAll, puts_flush, puts_nil, List.append_nil]

theorem prints_text {s : String} (hzero : 0 ∉ ascii s) (hs : ch '%' ∉ ascii s) (buff : Buff) :
    Prints (printk (literal s) ([] : List (Arg 32 32)) buff) (ascii s) := by
  refine prints_printk hzero ?_ buff
  have htext := format_text hs [] ([] : List (Arg 32 32))
  simpa using htext

theorem format_header (magic bootInfo : BitVec 32) :
    format (ascii "Magic: 0x%x, BootInfo: %p\n") [.unsigned magic, .uintptr bootInfo] =
      some (ascii "Magic: 0x" ++ numeral 16 magic.toNat ++ ascii ", BootInfo: 0x" ++
        numeral 16 bootInfo.toNat ++ ascii "\n") := by
  have hparts : ascii "Magic: 0x%x, BootInfo: %p\n" =
      ascii "Magic: 0x" ++ ch '%' :: ch 'x' :: (ascii ", BootInfo: " ++ ch '%' :: ch 'p' :: (ascii "\n" ++ [])) :=
    rfl
  have hbootInfo : ascii ", BootInfo: 0x" = ascii ", BootInfo: " ++ [ch '0', ch 'x'] := rfl
  have hhex : directiveOf (ch 'x') = .hex := by decide
  have hpointer : directiveOf (ch 'p') = .pointer := by decide
  rw [hparts, format_text (by decide), format_directive, hhex, render, takeUnsigned, Option.bind_some,
    format_text (by decide), format_directive, hpointer, render, takeUintptr, Option.bind_some,
    format_text (by decide), format_nil, hbootInfo]
  simp

end Messages

/-! ### The boot log -/

variable (magic bootInfo : BitVec 32) (info : Multiboot) (buff : Buff)

theorem or_ne_zero {w : Nat} (flags : BitVec w) {mask : BitVec w} (h : mask ≠ 0) : flags ||| mask ≠ 0 :=
  fun hzero => h (BitVec.or_eq_zero_iff.mp hzero).2

theorem prints_multibootEntry :
    Prints (multibootEntry info buff) (ascii "mmap found\n" ++ (ascii "has drives info\n" ++ [])) := by
  unfold multibootEntry
  simp only [if_pos (or_ne_zero info.flags (show MULTIBOOT_INFO_MMAP ≠ 0 by decide)),
    if_pos (or_ne_zero info.flags (show MULTIBOOT_INFO_DRIVES ≠ 0 by decide))]
  exact (prints_text (by decide) (by decide) buff).bind fun buff =>
    (prints_text (by decide) (by decide) buff).bind fun buff => prints_pure (0, buff)

/-- The messages behind the header: whatever the flags, the log of a loader that supplies both items. -/
def bootTail (magic : BitVec 32) : List Byte :=
  if magic = MULTIBOOT_BOOTLOADER_MAGIC then
    ascii "yay multiboot\n" ++ (ascii "mmap found\n" ++ ascii "has drives info\n")
  else ascii "Invalide multiboot magic\n"

theorem prints_bootMessages :
    Prints (bootMessages magic bootInfo info buff)
      (ascii "Magic: 0x" ++ numeral 16 magic.toNat ++ ascii ", BootInfo: 0x" ++ numeral 16 bootInfo.toNat ++
        ascii "\n" ++ bootTail magic) := by
  have hheader := prints_printk (by decide) (format_header magic bootInfo) buff
  unfold bootMessages bootTail
  refine hheader.bind fun buff => ?_
  by_cases h : magic = MULTIBOOT_BOOTLOADER_MAGIC
  · simp only [if_pos h]
    have hyay := prints_text (s := "yay multiboot\n") (by decide) (by decide) buff
    refine hyay.bind fun buff => ?_
    have hentry := (prints_multibootEntry info buff).bind fun r => prints_pure r.2
    rw [List.append_nil, List.append_nil] at hentry
    exact hentry
  · simp only [if_neg h]
    exact prints_text (by decide) (by decide) buff

theorem op?_relabel_bus {α : Type} (m : Traced (BusWrite 32) α) :
    (relabel (fun w => [BootEvent.bus w]) m).events.filterMap BootEvent.op? = [] := by
  simp [relabel, List.filterMap_flatMap, BootEvent.op?]

theorem op?_relabel_console {α : Type} (m : Traced Op α) :
    (relabel (fun op => [BootEvent.console op]) m).events.filterMap BootEvent.op? = m.events := by
  simp [relabel, List.filterMap_flatMap, BootEvent.op?]

theorem value?_bootInit (image : Image) :
    (serial8250Init .port .little image.clock image.write image.read (bootDevice image.init).drivers.serial).value? =
      some (i386Serial image.init image.write image.read).drivers.serial := by
  have hrate : (bootDevice image.init).drivers.serial.beaudrate * 16 ≠ 0 := by
    show (9600 : BitVec 32) * 16 ≠ 0
    decide
  rw [init_eq _ _ _ _ _ _ hrate]
  rfl

theorem archInit_calls (image : Image) (h : (bootMessages magic bootInfo info buff).Defined) :
    ∃ es buff', archInit image (bootDevice image.init) magic bootInfo info buff =
        ⟨es, some (i386Serial image.init image.write image.read, buff')⟩ ∧
      es.filterMap BootEvent.op? = .setup image.dev :: (bootMessages magic bootInfo info buff).events := by
  have hinit := value?_bootInit image
  unfold archInit
  generalize serial8250Init .port .little image.clock image.write image.read _ = driver at hinit ⊢
  generalize bootMessages magic bootInfo info buff = messages at h ⊢
  obtain ⟨buff', hmessages⟩ := Option.isSome_iff_exists.mp h
  have hbus := op?_relabel_bus driver
  have hconsole := op?_relabel_console messages
  rw [← value?_relabel (fun w => [BootEvent.bus w])] at hinit
  rw [← value?_relabel (fun op => [BootEvent.console op])] at hmessages
  rw [bind_of_some hinit, emit_bind, bind_of_some hmessages]
  refine ⟨_, _, rfl, ?_⟩
  rw [List.filterMap_append, hbus, List.filterMap_cons, List.filterMap_append, hconsole]
  simp [BootEvent.op?]

theorem bootText_eq_puts (image : Image) {text : List Byte}
    (h : Prints (bootMessages magic bootInfo info buff) text) :
    bootText image magic bootInfo info buff = some text := by
  obtain ⟨hdefined, hsetup, hputs⟩ := h
  obtain ⟨es, buff', hboot, hops⟩ := archInit_calls magic bootInfo info buff image hdefined
  let mem : DevPtr → Device 32 := fun _ => i386Serial image.init image.write image.read
  obtain ⟨s, hstep, hready⟩ : ∃ s : State 0,
      step mem .unbuffered State.boot (.setup image.dev) = pure s ∧ s.Ready image.write :=
    ⟨_, rfl, rfl, rfl⟩
  obtain ⟨es', hrun, hstream⟩ := unbuffered_stream mem hready _ hsetup
  have hall : run mem .unbuffered State.boot (es.filterMap BootEvent.op?) = ⟨es', some s⟩ := by
    rw [run] at hrun
    rw [hops, run, List.foldlM_cons, hstep, pure_bind, hrun]
  rw [bootText, hboot]
  simp only [Option.map_some]
  rw [hall, hstream, hputs]

/-- **The boot log**, whatever the flags: the memory map and the drives are always reported. -/
theorem bootText_eq (image : Image) :
    bootText image magic bootInfo info buff =
      some (ascii "Magic: 0x" ++ numeral 16 magic.toNat ++ ascii ", BootInfo: 0x" ++ numeral 16 bootInfo.toNat ++
        ascii "\n" ++ bootTail magic) :=
  bootText_eq_puts magic bootInfo info buff image (prints_bootMessages magic bootInfo info buff)

theorem bootTail_eq_iff (mmap drives : Bool) :
    ascii "mmap found\n" ++ ascii "has drives info\n" =
        (if mmap then ascii "mmap found\n" else []) ++ (if drives then ascii "has drives info\n" else []) ↔
      mmap = true ∧ drives = true := by
  cases mmap <;> cases drives <;> decide

/-- **The boot log tells the truth** unless a multiboot loader left out the memory map or the drives. -/
theorem bootText_truthful_iff (image : Image) :
    bootText image magic bootInfo info buff = some (bootLog magic bootInfo info) ↔
      (magic = MULTIBOOT_BOOTLOADER_MAGIC → info.flags.getLsbD 6 = true ∧ info.flags.getLsbD 7 = true) := by
  rw [bootText_eq, Option.some.injEq, bootLog, List.append_right_inj, bootTail]
  by_cases h : magic = MULTIBOOT_BOOTLOADER_MAGIC
  · rw [if_pos h, if_pos h, List.append_assoc, List.append_right_inj, bootTail_eq_iff]
    exact ⟨fun hflags _ => hflags, fun hflags => hflags h⟩
  · rw [if_neg h, if_neg h]
    exact ⟨fun _ hmagic => absurd hmagic h, fun _ => rfl⟩

/-- A multiboot loader that supplies neither. -/
theorem not_bootText_truthful :
    bootText ⟨1843200, 1, 2, 3, 4⟩ MULTIBOOT_BOOTLOADER_MAGIC 0x9500 ⟨0⟩ (Vector.replicate 20 0) ≠
      some (bootLog MULTIBOOT_BOOTLOADER_MAGIC 0x9500 ⟨0⟩) := by
  rw [bootText_eq, Ne, Option.some.injEq, bootLog, List.append_right_inj]
  decide

end QDNix.I386
