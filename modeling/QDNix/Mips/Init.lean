import QDNix.I386.Init
import QDNix.Kern.BootLine

/-!
# The boot log of the MIPS boards

`arch_init` of `mips/init.c` and `platform_init` of the two boards. `arch_init` gets what the boot loader left in
four registers: a count, two arrays of strings and a size. A string is what its pointer can reach; reading an
array beyond its last entry is undefined. `uintptr_t` is an `unsigned` there, so it is fetched as one by `%u`.

`prints_archInit` is the log for every count and all strings: the count bounds the first array, the null
pointer ends the second, and where the second is printed its pointer has gone to that end.
-/

namespace QDNix.Mips

open Dev Kern Libkern Traced Numeral
open I386 (ascii literal Prints prints_printk prints_text prints_pure)

/-! ### The boards -/

def MMIO_BASE_ADDR : BitVec 32 := 0x18000000

def UART_BASE_ADDR : BitVec 32 := 0x3f8

def KSEG1_BASE_ADDR : BitVec 32 := 0xA0000000

/-- `PHYS_TO_KSEG1` -/
def physToKseg1 (x : BitVec 32) : BitVec 32 := x ||| KSEG1_BASE_ADDR

/-- `UART` -/
def uart (x : BitVec 32) : BitVec 32 := physToKseg1 (MMIO_BASE_ADDR + UART_BASE_ADDR + x)

inductive Board
  | malta | mipssim
deriving DecidableEq, Repr

/-- `.io_base` of the board's `dev`. -/
def Board.ioBase : Board → BitVec 32
  | .malta => uart 0
  | .mipssim => physToKseg1 (0x1FD00000 + UART_BASE_ADDR)

/-- The board's static `dev`, given the address of `serial_8250_init`. -/
def Board.device (board : Board) (init : FnPtr) : Device 32 where
  deviceClass := .tty
  drivers := ⟨{
    init := some init
    write := none
    read := none
    ioBase := board.ioBase
    regOffset := 0
    beaudrate := 9600 }⟩

/-! ### `arch_init` -/

/-- An argument of `printk` on this machine. -/
abbrev Va := Arg 32 32

/-- The loop over `argv`, with `left` rounds to go. -/
def cmdlineLoop (argv : List (Option (List Byte))) : ℕ → ℕ → Buff → Traced Op Buff
  | 0, _, buff => pure buff
  | left + 1, idx, buff =>
    match argv[idx]? with
    | none => undef
    | some s => do
      let buff ← printk (literal "\t%d: %s\n") ([.int (BitVec.ofNat 32 idx), .str s] : List Va) buff
      cmdlineLoop argv left (idx + 1) buff

/-- The loop over `envp`, and how many entries it has passed. -/
def envLoop : List (Option (List Byte)) → Buff → Traced Op (ℕ × Buff)
  | [], _ => undef
  | none :: _, buff => pure (0, buff)
  | some s :: envp, buff => do
    let buff ← printk (literal "\t%s\n") ([.str (some s)] : List Va) buff
    let (passed, buff) ← envLoop envp buff
    pure (passed + 1, buff)

/-- `arch_init`, with the arrays found at the addresses `argv` and `envp`. -/
def archInit (argc argv envp memsize : BitVec 32) (args env : List (Option (List Byte))) (buff : Buff) :
    Traced Op Buff := do
  let buff ← printk (literal "QDNX hello\n") ([] : List Va) buff
  let buff ← printk (literal "serial initialized\n") ([] : List Va) buff
  let buff ← printk (literal "memsize: %u\n") ([.unsigned memsize] : List Va) buff
  let buff ← printk (literal "cmdline:\n") ([] : List Va) buff
  let buff ← cmdlineLoop args argc.toInt.toNat 0 buff
  let buff ← printk (literal "env:\n") ([] : List Va) buff
  let (passed, buff) ← envLoop env buff
  let buff ← printk (literal "%d %p %p\n")
    ([.int argc, .uintptr argv, .uintptr (envp + 4 * BitVec.ofNat 32 passed)] : List Va) buff
  printk (literal "memsize: %uKiB\n") ([.unsigned (memsize / 1024)] : List Va) buff

/-! ### The text -/

/-- A string whose terminator can be reached. -/
structure CStr where
  bytes : List Byte
  closed : 0 ∈ bytes

def CStr.text (s : CStr) : List Byte := s.bytes.takeWhile (· ≠ 0)

/-- What `%s` makes of a pointer. -/
def shown (s : Option CStr) : List Byte := s.elim nullText CStr.text

theorem cText_bytes (s : Option CStr) :
    (s.map CStr.bytes).elim (some nullText) cText = some (shown s) := by
  cases s with
  | none => rfl
  | some s => exact if_pos s.closed

/-- A line of the command line. -/
def cmdlineLine (s : Option CStr) (idx : ℕ) : List Byte :=
  ascii "\t" ++ (numeral 10 idx ++ (ascii ": " ++ (shown s ++ ascii "\n")))

def envLine (s : CStr) : List Byte := ascii "\t" ++ (s.text ++ ascii "\n")

/-- The lines of the command line from number `idx` on. -/
def cmdlineText : ℕ → List (Option CStr) → List Byte
  | _, [] => []
  | idx, s :: args => cmdlineLine s idx ++ cmdlineText (idx + 1) args

/-- The log of `arch_init`. -/
def archLog (argc argv envp memsize : BitVec 32) (args : List (Option CStr)) (env : List CStr) : List Byte :=
  ascii "QDNX hello\n" ++ (ascii "serial initialized\n" ++
    ((ascii "memsize: " ++ (numeral 10 memsize.toNat ++ ascii "\n")) ++ (ascii "cmdline:\n" ++
      (cmdlineText 0 (args.take argc.toInt.toNat) ++ (ascii "env:\n" ++ (env.flatMap envLine ++
        ((decimal argc.toInt ++ (ascii " " ++ (ascii "0x" ++ numeral 16 argv.toNat ++ (ascii " " ++
          (ascii "0x" ++ numeral 16 (envp + 4 * BitVec.ofNat 32 env.length).toNat ++ ascii "\n"))))) ++
            (ascii "memsize: " ++ (numeral 10 (memsize.toNat / 1024) ++ ascii "KiB\n")))))))))

theorem prints_memsize (memsize : BitVec 32) (buff : Buff) :
    Prints (printk (literal "memsize: %u\n") ([.unsigned memsize] : List Va) buff)
      (ascii "memsize: " ++ (numeral 10 memsize.toNat ++ ascii "\n")) := by
  refine prints_printk (by decide) ?_ buff
  exact format_piece (s := ascii "memsize: ") (by decide) (render_u memsize [])
    (format_rest (s := ascii "\n") (by decide) [])

theorem toInt_ofNat_idx {idx : ℕ} (h : idx < 2 ^ 31) : (BitVec.ofNat 32 idx).toInt = idx := by
  rw [BitVec.toInt_eq_toNat_cond, BitVec.toNat_ofNat, Nat.mod_eq_of_lt (by omega), if_pos (by omega)]

theorem prints_cmdlineLine (s : Option CStr) {idx : ℕ} (h : idx < 2 ^ 31) (buff : Buff) :
    Prints (printk (literal "\t%d: %s\n") ([.int (BitVec.ofNat 32 idx), .str (s.map CStr.bytes)] : List Va) buff)
      (cmdlineLine s idx) := by
  refine prints_printk (by decide) ?_ buff
  have hint := render_d (BitVec.ofNat 32 idx) ([.str (s.map CStr.bytes)] : List Va)
  rw [toInt_ofNat_idx h, decimal_natCast] at hint
  exact format_piece (s := ascii "\t") (by decide) hint
    (format_piece (s := ascii ": ") (by decide) (render_s (cText_bytes s) [])
      (format_rest (s := ascii "\n") (by decide) []))

theorem prints_envLine (s : CStr) (buff : Buff) :
    Prints (printk (literal "\t%s\n") ([.str (some s.bytes)] : List Va) buff) (envLine s) := by
  refine prints_printk (by decide) ?_ buff
  exact format_piece (s := ascii "\t") (by decide) (render_s (cText_bytes (some s)) [])
    (format_rest (s := ascii "\n") (by decide) [])

theorem prints_pointers (argc argv envp : BitVec 32) (buff : Buff) :
    Prints (printk (literal "%d %p %p\n") ([.int argc, .uintptr argv, .uintptr envp] : List Va) buff)
      (decimal argc.toInt ++ (ascii " " ++ (ascii "0x" ++ numeral 16 argv.toNat ++ (ascii " " ++
        (ascii "0x" ++ numeral 16 envp.toNat ++ ascii "\n"))))) := by
  refine prints_printk (by decide) ?_ buff
  exact format_piece (s := []) (by decide) (render_d argc _)
    (format_piece (s := ascii " ") (by decide) (render_p argv _)
      (format_piece (s := ascii " ") (by decide) (render_p envp []) (format_rest (s := ascii "\n") (by decide) [])))

theorem prints_memsizeKiB (memsize : BitVec 32) (buff : Buff) :
    Prints (printk (literal "memsize: %uKiB\n") ([.unsigned (memsize / 1024)] : List Va) buff)
      (ascii "memsize: " ++ (numeral 10 (memsize.toNat / 1024) ++ ascii "KiB\n")) := by
  refine prints_printk (by decide) ?_ buff
  have hdiv : (memsize / 1024).toNat = memsize.toNat / 1024 := BitVec.toNat_udiv
  rw [← hdiv]
  exact format_piece (s := ascii "memsize: ") (by decide) (render_u (memsize / 1024) [])
    (format_rest (s := ascii "KiB\n") (by decide) [])

/-! ### The loops -/

theorem prints_cmdlineLoop (args : List (Option CStr)) (left idx : ℕ) (hleft : idx + left ≤ args.length)
    (hidx : idx + left ≤ 2 ^ 31) (buff : Buff) :
    Prints (cmdlineLoop (args.map (Option.map CStr.bytes)) left idx buff)
      (cmdlineText idx ((args.drop idx).take left)) := by
  induction left generalizing idx buff with
  | zero => exact prints_pure buff
  | succ left ih =>
    obtain ⟨s, hs⟩ : ∃ s, args[idx]? = some s := ⟨_, List.getElem?_eq_getElem (by omega)⟩
    have hdrop : args.drop idx = s :: args.drop (idx + 1) := by
      rw [List.drop_eq_getElem_cons (by omega)]
      congr 1
      exact Option.some.inj ((List.getElem?_eq_getElem (by omega)).symm.trans hs)
    rw [hdrop, List.take_succ_cons, cmdlineText, cmdlineLoop, List.getElem?_map, hs]
    refine (prints_cmdlineLine s (by omega) buff).bind fun buff => ?_
    exact ih (idx + 1) (by omega) (by omega) buff

theorem envLoop_eq (env : List CStr) (rest : List (Option (List Byte))) (buff : Buff) :
    ∃ es buff', envLoop (env.map (fun s => some s.bytes) ++ none :: rest) buff = ⟨es, some (env.length, buff')⟩ ∧
      NoSetup es ∧ puts es = env.flatMap envLine := by
  induction env generalizing buff with
  | nil => exact ⟨[], buff, rfl, by simp [NoSetup], rfl⟩
  | cons s env ih =>
    obtain ⟨hdefined, hsetup, hputs⟩ := prints_envLine s buff
    obtain ⟨buff₁, hvalue⟩ := Option.isSome_iff_exists.mp hdefined
    obtain ⟨es, buff', hloop, hsetup', hputs'⟩ := ih buff₁
    generalize hline : printk (literal "\t%s\n") ([.str (some s.bytes)] : List Va) buff = line at hsetup hputs hvalue
    refine ⟨line.events ++ es, buff', ?_, ?_, ?_⟩
    · rw [List.map_cons, List.cons_append, envLoop, hline, bind_of_some hvalue, hloop, bind_of_some rfl]
      simp
    · intro dev hdev
      rcases List.mem_append.mp hdev with hdev | hdev
      · exact hsetup dev hdev
      · exact hsetup' dev hdev
    · rw [puts_append, hputs, hputs']
      rfl

theorem prints_envLoop (env : List CStr) (rest : List (Option (List Byte))) (buff : Buff)
    {k : ℕ × Buff → Traced Op Buff} {text : List Byte} (hk : ∀ buff', Prints (k (env.length, buff')) text) :
    Prints (envLoop (env.map (fun s => some s.bytes) ++ none :: rest) buff >>= k) (env.flatMap envLine ++ text) := by
  obtain ⟨es, buff', hloop, hsetup, hputs⟩ := envLoop_eq env rest buff
  obtain ⟨hdefined, hsetup', hputs'⟩ := hk buff'
  rw [hloop, bind_of_some rfl]
  refine ⟨hdefined, fun dev hdev => ?_, by rw [puts_append, hputs, hputs']⟩
  rcases List.mem_append.mp hdev with hdev | hdev
  · exact hsetup dev hdev
  · exact hsetup' dev hdev

/-! ### The log -/

/-- **The log of `arch_init`** for every count the array covers, null pointers in it included, and all strings. -/
theorem prints_archInit (argc argv envp memsize : BitVec 32) (args : List (Option CStr))
    (hargc : argc.toInt ≤ args.length) (env : List CStr) (rest : List (Option (List Byte))) (buff : Buff) :
    Prints (archInit argc argv envp memsize (args.map (Option.map CStr.bytes))
      (env.map (fun s => some s.bytes) ++ none :: rest) buff) (archLog argc argv envp memsize args env) := by
  have hcount : argc.toInt.toNat ≤ 2 ^ 31 := by
    have hlt := BitVec.toInt_lt (x := argc)
    omega
  unfold archInit archLog
  apply Prints.bind (prints_text (s := "QDNX hello\n") (by decide) (by decide) buff)
  intro buff
  apply Prints.bind (prints_text (s := "serial initialized\n") (by decide) (by decide) buff)
  intro buff
  apply Prints.bind (prints_memsize memsize buff)
  intro buff
  apply Prints.bind (prints_text (s := "cmdline:\n") (by decide) (by decide) buff)
  intro buff
  apply Prints.bind (prints_cmdlineLoop args argc.toInt.toNat 0 (by omega) (by omega) buff)
  intro buff
  apply Prints.bind (prints_text (s := "env:\n") (by decide) (by decide) buff)
  intro buff
  apply prints_envLoop env rest buff
  intro buff
  apply Prints.bind (prints_pointers argc argv (envp + 4 * BitVec.ofNat 32 env.length) buff)
  exact prints_memsizeKiB memsize

end QDNix.Mips
