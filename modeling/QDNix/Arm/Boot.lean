import QDNix.Arm.Uart
import QDNix.Lib.Cores
import QDNix.Libkern.String

/-!
# The Cortex-A7 cores booting

All cores of the chip start at `_entry` (`entry.S`). The one whose CPU number is 0 clears `.bss` and calls
`arch_init` (`init.c`), which starts the PLL (`ccu.c`) and sends four characters; the others go to `spinlock`.
The cores, the PLL and the UART are interleaved in any way. A step is an instruction, or an access to memory
or to a device of the C code.

Of the devices only what the code uses is modelled: the PLL locks at some time after it was enabled, and bit 28
of its control register tells. `.bss` is memory, apart from the device registers. The C code has its frames below
`_entry`; with every step of it that memory may hold anything.
-/

namespace QDNix.Arm

open Libkern Memory Transmit Fairness Cores

/-! ### The clock control unit -/

def CCU_BASE_ADDR : BitVec 32 := 0x01C20000

def PPL_PERIPH0_CTRL_REG : BitVec 32 := 0x0028

structure Pll where
  ctrl : BitVec 32
  locked : Bool

/-- The lock bit tells the state, whatever was written to it. -/
def Pll.read (p : Pll) : BitVec 32 :=
  if p.locked then p.ctrl ||| (1 <<< 28) else p.ctrl &&& ~~~((1 : BitVec 32) <<< 28)

/-- A PLL that is set up anew has to lock anew. -/
def Pll.write (_ : Pll) (v : BitVec 32) : Pll := ⟨v, false⟩

/-- The PLL locks, if bit 31 enables it. -/
def Pll.lock (p : Pll) : Pll := { p with locked := p.locked || p.ctrl.getLsbD 31 }

structure Soc where
  mem : Memory 32
  pll : Pll
  uart : Port Byte

/-- What the devices do by themselves. -/
inductive DeviceMove
  | lock | drain
deriving DecidableEq

def Soc.move (s : Soc) : DeviceMove → Soc
  | .lock => { s with pll := s.pll.lock }
  | .drain => { s with uart := s.uart.drain }

def PLL : BitVec 32 := CCU_BASE_ADDR + PPL_PERIPH0_CTRL_REG

/-- `mmio_read32` and `mmio_write32` -/
def soc : Polled.Device Soc (BitVec 32) (BitVec 32) (BitVec 32) DeviceMove where
  move := Soc.move
  read s addr other := (if addr = PLL then s.pll.read else (uart0.read s.uart addr other).1, s)
  write s addr v :=
    if addr = PLL then { s with pll := s.pll.write v } else { s with uart := uart0.write s.uart addr v }

/-! ### The cores -/

/-- Where the linker puts `_entry` and `.bss`: the text comes first. -/
structure Layout where
  entry : BitVec 32
  bssBegin : BitVec 32
  bssEnd : BitVec 32
  entry_le : entry ≤ bssBegin
  begin_le : bssBegin ≤ bssEnd

/-- The memories agree off the stack, from `_entry` on. -/
abbrev OffStack (l : Layout) (m m' : Memory 32) : Prop := AgreeOff 0 l.entry.toNat m m'

/-- What a step finds in the bits the devices leave open, and what the C code leaves on the stack. -/
structure Found where
  bits : BitVec 32
  frames : ℕ → BitVec 8

/-- The machine, with what the C code has on the stack. -/
def Soc.scribble (l : Layout) (other : Found) (s : Soc) : Soc :=
  { s with mem := blit 0 l.entry.toNat other.frames s.mem }

/-- The instruction, or the C code, that is next. -/
inductive Pc
  | mrc | and | cmp | bne
  | ldrEntry | movSp | ldrBegin | ldrEnd | sub | mov | blMemset
  | memset
  | blArchInit
  | ccuWrite | ccuPoll
  | putchar (todo : List Byte) (pc : Polled.Pc)
  | wfi
  | wfe | b
deriving DecidableEq

/-- `ptr` is the local variable of `memset`. -/
structure Core where
  pc : Pc
  r0 : BitVec 32
  r1 : BitVec 32
  r2 : BitVec 32
  sp : BitVec 32
  z : Bool
  ptr : BitVec 32

/-- What `arch_init` sends. -/
def greeting : List Byte := [ch 'c', ch 'o', ch '\r', ch '\n']

/-- One step of a core whose MPIDR is `mpidr`. After `wfi` a core goes on into `spinlock`. -/
def coreStep (l : Layout) (mpidr : BitVec 32) (c : Core) (s : Soc) (other : Found) : Core × Soc :=
  match c.pc with
  | .mrc => ({ c with r0 := mpidr, pc := .and }, s)
  | .and => ({ c with r0 := c.r0 &&& 3, pc := .cmp }, s)
  | .cmp => ({ c with z := c.r0 = 0, pc := .bne }, s)
  | .bne => ({ c with pc := if c.z then .ldrEntry else .wfe }, s)
  | .ldrEntry => ({ c with r0 := l.entry, pc := .movSp }, s)
  | .movSp => ({ c with sp := c.r0, pc := .ldrBegin }, s)
  | .ldrBegin => ({ c with r0 := l.bssBegin, pc := .ldrEnd }, s)
  | .ldrEnd => ({ c with r1 := l.bssEnd, pc := .sub }, s)
  | .sub => ({ c with r2 := c.r1 - c.r0, pc := .mov }, s)
  | .mov => ({ c with r1 := 0, pc := .blMemset }, s)
  | .blMemset => ({ c with ptr := c.r0, pc := .memset }, s)
  | .memset =>
    match memsetTurn (c.r0 + c.r2) c.r1.toInt ⟨c.ptr, s.mem⟩ with
    | some (turn, again) =>
      ({ c with ptr := turn.ptr, pc := if again then .memset else .blArchInit },
        Soc.scribble l other { s with mem := turn.mem })
    | none => (c, s)
  | .blArchInit => ({ c with pc := .ccuWrite }, s)
  | .ccuWrite => ({ c with pc := .ccuPoll }, soc.write (s.scribble l other) PLL 0x90041811)
  | .ccuPoll =>
    let ready := (soc.read s PLL other.bits).1 &&& (1 <<< 28)
    ({ c with pc := if ready = 0 then .ccuPoll else .putchar greeting .poll }, s.scribble l other)
  | .putchar [] _ => ({ c with pc := .wfi }, s.scribble l other)
  | .putchar (b :: todo) pc =>
    let sys := Polled.cpuStep soc uartPutchar ⟨b :: todo, pc, s⟩ other.bits
    ({ c with pc := .putchar sys.todo sys.pc }, sys.dev.scribble l other)
  | .wfi => ({ c with pc := .wfe }, s)
  | .wfe => ({ c with pc := .b }, s)
  | .b => ({ c with pc := .wfe }, s)

/-- Core `i` has its number in its MPIDR. -/
abbrev bootStep {ι : Type} [DecidableEq ι] (l : Layout) (mpidr : ι → BitVec 32) :
    Machine ι Core Soc → Choice ι Found DeviceMove → Machine ι Core Soc :=
  Cores.step (fun i => coreStep l (mpidr i)) Soc.move

/-! ### The other cores -/

/-- On the way to `spinlock`, or there. -/
def Spins (mpidr : BitVec 32) (c : Core) : Prop :=
  match c.pc with
  | .mrc => True
  | .and => c.r0 = mpidr
  | .cmp => c.r0 = mpidr &&& 3
  | .bne => c.z = false
  | .wfe => True
  | .b => True
  | _ => False

theorem quiet_spins {ι : Type} (l : Layout) (mpidr : ι → BitVec 32) {i : ι} (hi : mpidr i &&& 3 ≠ 0) :
    Quiet (fun i => coreStep l (mpidr i)) i (Spins (mpidr i)) := by
  intro c s other hc
  obtain ⟨pc, r0, r1, r2, sp, z, ptr⟩ := c
  cases pc with
  | mrc => exact ⟨rfl, rfl⟩
  | and =>
    obtain rfl : r0 = mpidr i := hc
    exact ⟨rfl, rfl⟩
  | cmp =>
    obtain rfl : r0 = mpidr i &&& 3 := hc
    exact ⟨decide_eq_false hi, rfl⟩
  | bne =>
    obtain rfl : z = false := hc
    exact ⟨trivial, rfl⟩
  | wfe => exact ⟨trivial, rfl⟩
  | b => exact ⟨trivial, rfl⟩
  | _ => exact hc.elim

/-! ### The boot core -/

section BootCore

variable (l : Layout) (mpidr : BitVec 32) (mem : Memory 32)

/-- The size of `.bss`. -/
def Layout.size : ℕ := (l.bssEnd - l.bssBegin).toNat

/-- What the boot core has done when it gets to each place. The first call of `uart_putchar` is the last. -/
def Booting (c : Core) (s : Soc) : Prop :=
  match c.pc with
  | .mrc => s.mem = mem
  | .and => s.mem = mem ∧ c.r0 = mpidr
  | .cmp => s.mem = mem ∧ c.r0 = 0
  | .bne => s.mem = mem ∧ c.z = true
  | .ldrEntry => s.mem = mem
  | .movSp => s.mem = mem ∧ c.r0 = l.entry
  | .ldrBegin => s.mem = mem ∧ c.sp = l.entry
  | .ldrEnd => s.mem = mem ∧ c.sp = l.entry ∧ c.r0 = l.bssBegin
  | .sub => s.mem = mem ∧ c.sp = l.entry ∧ c.r0 = l.bssBegin ∧ c.r1 = l.bssEnd
  | .mov => s.mem = mem ∧ c.sp = l.entry ∧ c.r0 = l.bssBegin ∧ c.r2 = l.bssEnd - l.bssBegin
  | .blMemset => s.mem = mem ∧ c.sp = l.entry ∧ c.r0 = l.bssBegin ∧ c.r2 = l.bssEnd - l.bssBegin ∧ c.r1 = 0
  | .memset => c.sp = l.entry ∧ c.r0 = l.bssBegin ∧ c.r2 = l.bssEnd - l.bssBegin ∧ c.r1 = 0 ∧
      ∃ i ≤ l.size, c.ptr = l.bssBegin + BitVec.ofNat 32 i ∧ OffStack l s.mem (fill l.bssBegin i 0 mem)
  | .blArchInit => c.sp = l.entry ∧ OffStack l s.mem (fill l.bssBegin l.size 0 mem)
  | .ccuWrite => c.sp = l.entry ∧ OffStack l s.mem (fill l.bssBegin l.size 0 mem)
  | .ccuPoll => c.sp = l.entry ∧ OffStack l s.mem (fill l.bssBegin l.size 0 mem) ∧ s.pll.ctrl = 0x90041811
  | .putchar todo pc => c.sp = l.entry ∧ OffStack l s.mem (fill l.bssBegin l.size 0 mem) ∧ todo = greeting ∧ pc = .poll
  | _ => False

/-- How many steps the boot core has to the first call of `uart_putchar`. -/
def stepsLeft (c : Core) : ℕ :=
  match c.pc with
  | .mrc => l.size + 15
  | .and => l.size + 14
  | .cmp => l.size + 13
  | .bne => l.size + 12
  | .ldrEntry => l.size + 11
  | .movSp => l.size + 10
  | .ldrBegin => l.size + 9
  | .ldrEnd => l.size + 8
  | .sub => l.size + 7
  | .mov => l.size + 6
  | .blMemset => l.size + 5
  | .memset => (l.bssEnd - c.ptr).toNat + 4
  | .blArchInit => 3
  | .ccuWrite => 2
  | .ccuPoll => 1
  | _ => 0

/-- The boot core waits for the PLL. -/
def Waits (r : Core × Soc) : Prop := r.1.pc = .ccuPoll ∧ r.2.pll.locked = false

/-- The boot core is in its first call of `uart_putchar`. -/
def Greets (c : Core) : Prop := c.pc = .putchar greeting .poll

theorem read_pll_of_locked {p : Pll} (h : p.locked = true) : p.read &&& (1 <<< 28) ≠ 0 := by
  intro hzero
  rw [Pll.read, if_pos h] at hzero
  have hbit := congrArg (fun b : BitVec 32 => b.getLsbD 28) hzero
  simp at hbit

theorem read_pll_of_not_locked {p : Pll} (h : p.locked = false) : p.read &&& (1 <<< 28) = 0 := by
  have hread : p.read = p.ctrl &&& ~~~((1 : BitVec 32) <<< 28) := if_neg (by simp [h])
  rw [hread, BitVec.and_assoc]
  exact BitVec.and_zero

variable {l mpidr mem} {c : Core} {s : Soc}

theorem toNat_size (l : Layout) : l.bssBegin.toNat + l.size = l.bssEnd.toNat := by
  rw [Layout.size, BitVec.toNat_sub_of_le l.begin_le]
  exact Nat.add_sub_cancel' l.begin_le

theorem left_memset {i : ℕ} (hi : i ≤ l.size) :
    (l.bssEnd - (l.bssBegin + BitVec.ofNat 32 i)).toNat = l.size - i := by
  have hsize := toNat_size l
  have hend := l.bssEnd.isLt
  have hptr : (l.bssBegin + BitVec.ofNat 32 i).toNat = l.bssBegin.toNat + i := toNat_add_ofNat (by omega)
  rw [BitVec.toNat_sub_of_le (BitVec.le_def.mpr (by omega)), hptr]
  omega

theorem memsetTurn_bss {i : ℕ} (hi : i ≤ l.size) (m : Memory 32) :
    memsetTurn (l.bssBegin + (l.bssEnd - l.bssBegin)) 0 ⟨l.bssBegin + BitVec.ofNat 32 i, m⟩ =
      if i < l.size then
        some (⟨l.bssBegin + BitVec.ofNat 32 (i + 1), put (l.bssBegin + BitVec.ofNat 32 i) 0 m⟩, true)
      else some (⟨l.bssBegin + BitVec.ofNat 32 i, m⟩, false) := by
  have hsize := toNat_size l
  have hend := l.bssEnd.isLt
  have hbound : l.bssBegin + (l.bssEnd - l.bssBegin) = l.bssEnd := by
    rw [BitVec.add_comm, BitVec.sub_add_cancel]
  have hptr : (l.bssBegin + BitVec.ofNat 32 i).toNat = l.bssBegin.toNat + i := toNat_add_ofNat (by omega)
  have htest : l.bssBegin + BitVec.ofNat 32 i < l.bssEnd ↔ i < l.size := by
    rw [BitVec.lt_def, hptr]
    omega
  rw [memsetTurn, hbound]
  refine if_congr htest ?_ rfl
  exact congrArg (fun p => some (MemsetLoop.mk p _, true)) (add_ofNat_add (n := i) (k := 1))

theorem offStack_put {i : ℕ} (hi : i < l.size) {m : Memory 32} (h : OffStack l m (fill l.bssBegin i 0 mem)) :
    OffStack l (put (l.bssBegin + BitVec.ofNat 32 i) 0 m) (fill l.bssBegin (i + 1) 0 mem) := by
  have hlt : l.size < 2 ^ 32 := (l.bssEnd - l.bssBegin).isLt
  have hnext : put (l.bssBegin + BitVec.ofNat 32 i) 0 (fill l.bssBegin i 0 mem) = fill l.bssBegin (i + 1) 0 mem :=
    put_blit (f := fun _ => 0) (by omega)
  rw [← hnext]
  exact h.same_blit _ _ _

theorem coreStep_memset {other : Found} {turn : MemsetLoop 32} {again : Bool} (hpc : c.pc = .memset)
    (hturn : memsetTurn (c.r0 + c.r2) c.r1.toInt ⟨c.ptr, s.mem⟩ = some (turn, again)) :
    coreStep l mpidr c s other = ({ c with ptr := turn.ptr, pc := if again then .memset else .blArchInit },
      Soc.scribble l other { s with mem := turn.mem }) := by
  simp only [coreStep, hpc, hturn]

theorem coreStep_ccuPoll {other : Found} (hpc : c.pc = .ccuPoll) :
    coreStep l mpidr c s other =
      ({ c with pc := if (soc.read s PLL other.bits).1 &&& (1 <<< 28) = 0 then .ccuPoll else .putchar greeting .poll },
        s.scribble l other) := by
  simp only [coreStep, hpc]

theorem coreStep_booting (hmpidr : mpidr &&& 3 = 0) {line : List Byte} (hs : s.uart = ⟨none, line⟩)
    (h : Booting l mpidr mem c s) (other : Found) :
    (coreStep l mpidr c s other).2.uart = s.uart ∧
      Booting l mpidr mem (coreStep l mpidr c s other).1 (coreStep l mpidr c s other).2 ∧
      (stepsLeft l (coreStep l mpidr c s other).1 < stepsLeft l c ∨
        coreStep l mpidr c s other = (c, s.scribble l other) ∧ (Waits (c, s) ∨ Greets c)) := by
  obtain ⟨pc, r0, r1, r2, sp, z, ptr⟩ := c
  obtain ⟨m, pll, uart⟩ := s
  obtain rfl : uart = ⟨none, line⟩ := hs
  cases pc with
  | mrc => exact ⟨rfl, ⟨h, rfl⟩, .inl (Nat.lt_succ_self _)⟩
  | and =>
    obtain ⟨hmem, hr0⟩ := h
    obtain rfl : r0 = mpidr := hr0
    exact ⟨rfl, ⟨hmem, hmpidr⟩, .inl (Nat.lt_succ_self _)⟩
  | cmp =>
    obtain ⟨hmem, hr0⟩ := h
    exact ⟨rfl, ⟨hmem, decide_eq_true hr0⟩, .inl (Nat.lt_succ_self _)⟩
  | bne =>
    obtain ⟨hmem, hz⟩ := h
    obtain rfl : z = true := hz
    exact ⟨rfl, hmem, .inl (Nat.lt_succ_self _)⟩
  | ldrEntry => exact ⟨rfl, ⟨h, rfl⟩, .inl (Nat.lt_succ_self _)⟩
  | movSp => exact ⟨rfl, h, .inl (Nat.lt_succ_self _)⟩
  | ldrBegin => exact ⟨rfl, ⟨h.1, h.2, rfl⟩, .inl (Nat.lt_succ_self _)⟩
  | ldrEnd => exact ⟨rfl, ⟨h.1, h.2.1, h.2.2, rfl⟩, .inl (Nat.lt_succ_self _)⟩
  | sub =>
    obtain ⟨hmem, hsp, hr0, hr1⟩ := h
    obtain rfl : r0 = l.bssBegin := hr0
    obtain rfl : r1 = l.bssEnd := hr1
    exact ⟨rfl, ⟨hmem, hsp, rfl, rfl⟩, .inl (Nat.lt_succ_self _)⟩
  | mov => exact ⟨rfl, ⟨h.1, h.2.1, h.2.2.1, h.2.2.2, rfl⟩, .inl (Nat.lt_succ_self _)⟩
  | blMemset =>
    obtain ⟨hmem, hsp, hr0, hr2, hr1⟩ := h
    obtain rfl : r0 = l.bssBegin := hr0
    refine ⟨rfl, ⟨hsp, rfl, hr2, hr1, 0, Nat.zero_le _, (BitVec.add_zero _).symm, ?_⟩, .inl (Nat.lt_succ_self _)⟩
    exact agreeOff_of_eq (hmem.trans blit_zero.symm)
  | memset =>
    obtain ⟨hsp, hr0, hr2, hr1, i, hi, hptr, hoff⟩ := h
    obtain rfl : r0 = l.bssBegin := hr0
    obtain rfl : r2 = l.bssEnd - l.bssBegin := hr2
    obtain rfl : r1 = 0 := hr1
    obtain rfl : ptr = l.bssBegin + BitVec.ofNat 32 i := hptr
    have hleft := left_memset (l := l) hi
    have hturn := memsetTurn_bss (l := l) hi m
    by_cases hlt : i < l.size
    · rw [if_pos hlt] at hturn
      rw [coreStep_memset rfl hturn]
      refine ⟨rfl, ⟨hsp, rfl, rfl, rfl, i + 1, hlt, rfl, (offStack_put hlt hoff).scribble other.frames⟩, .inl ?_⟩
      have hleft' := left_memset (l := l) (i := i + 1) hlt
      show (l.bssEnd - (l.bssBegin + BitVec.ofNat 32 (i + 1))).toNat + 4 <
        (l.bssEnd - (l.bssBegin + BitVec.ofNat 32 i)).toNat + 4
      omega
    · rw [if_neg hlt] at hturn
      rw [coreStep_memset rfl hturn]
      obtain rfl : i = l.size := by omega
      refine ⟨rfl, ⟨hsp, hoff.scribble other.frames⟩, .inl ?_⟩
      show 3 < (l.bssEnd - (l.bssBegin + BitVec.ofNat 32 l.size)).toNat + 4
      omega
  | blArchInit => exact ⟨rfl, h, .inl (Nat.lt_succ_self _)⟩
  | ccuWrite => exact ⟨rfl, ⟨h.1, h.2.scribble other.frames, rfl⟩, .inl (Nat.lt_succ_self _)⟩
  | ccuPoll =>
    have hread : (soc.read ⟨m, pll, ⟨none, line⟩⟩ PLL other.bits).1 = pll.read := rfl
    have hoff := h.2.1.scribble other.frames
    cases hlocked : pll.locked with
    | true =>
      have hready := read_pll_of_locked hlocked
      rw [coreStep_ccuPoll rfl, hread, if_neg hready]
      exact ⟨rfl, ⟨h.1, hoff, rfl, rfl⟩, .inl (Nat.lt_succ_self _)⟩
    | false =>
      have hready := read_pll_of_not_locked hlocked
      rw [coreStep_ccuPoll rfl, hread, if_pos hready]
      exact ⟨rfl, ⟨h.1, hoff, h.2.2⟩, .inr ⟨rfl, .inl ⟨rfl, hlocked⟩⟩⟩
  | putchar todo pc =>
    obtain ⟨hsp, hmem, htodo, hpc⟩ := h
    obtain rfl : todo = greeting := htodo
    obtain rfl : pc = .poll := hpc
    have hread : (soc.read ⟨m, pll, ⟨none, line⟩⟩ (uartPutchar (ch 'c')).statusAddr other.bits).1 =
        lineStatus ⟨none, line⟩ other.bits := rfl
    have hbusy := (busy_iff ⟨none, line⟩ (ch 'c') other.bits).mpr rfl
    have hstep : coreStep l mpidr ⟨.putchar greeting .poll, r0, r1, r2, sp, z, ptr⟩ ⟨m, pll, ⟨none, line⟩⟩ other =
        (⟨.putchar greeting .poll, r0, r1, r2, sp, z, ptr⟩, Soc.scribble l other ⟨m, pll, ⟨none, line⟩⟩) := by
      simp only [coreStep, greeting, Polled.cpuStep, hread, hbusy, if_true]
      rfl
    rw [hstep]
    exact ⟨rfl, ⟨hsp, hmem.scribble other.frames, rfl, rfl⟩, .inr ⟨rfl, .inr rfl⟩⟩
  | _ => exact h.elim

end BootCore

/-! ### All together -/

variable {ι : Type} {l : Layout} {mpidr : ι → BitVec 32} {boot : ι}

/-- The boot core alone, with the devices. -/
abbrev aloneStep (l : Layout) (mpidr : ι → BitVec 32) (boot : ι) :
    Core × Soc → SoloChoice Found DeviceMove → Core × Soc :=
  soloStep (fun i => coreStep l (mpidr i)) Soc.move boot

/-- The boot core has got somewhere, and the register of the UART is still empty. -/
def Alone (l : Layout) (mpidr : BitVec 32) (mem : Memory 32) (line : List Byte) (r : Core × Soc) : Prop :=
  r.2.uart = ⟨none, line⟩ ∧ Booting l mpidr mem r.1 r.2

theorem move_booting {mem : Memory 32} {c : Core} {s : Soc} {mpidr : BitVec 32} (h : Booting l mpidr mem c s)
    (e : DeviceMove) : Booting l mpidr mem c (s.move e) := by
  obtain ⟨pc, r0, r1, r2, sp, z, ptr⟩ := c
  cases e with
  | lock => cases pc <;> exact h
  | drain => cases pc <;> exact h

theorem ctrl_of_poll {mem : Memory 32} {c : Core} {s : Soc} {mpidr : BitVec 32} (h : Booting l mpidr mem c s)
    (hpc : c.pc = .ccuPoll) : s.pll.ctrl = 0x90041811 := by
  rw [Booting, hpc] at h
  exact h.2.2

theorem mem_of_booting {mem : Memory 32} {c : Core} {s : Soc} {mpidr : BitVec 32} (h : Booting l mpidr mem c s) :
    ∃ k ≤ l.size, OffStack l s.mem (fill l.bssBegin k 0 mem) := by
  have hnone : ∀ m : Memory 32, m = mem → ∃ k ≤ l.size, OffStack l m (fill l.bssBegin k 0 mem) :=
    fun m hm => ⟨0, Nat.zero_le _, agreeOff_of_eq (hm.trans blit_zero.symm)⟩
  obtain ⟨pc, r0, r1, r2, sp, z, ptr⟩ := c
  cases pc with
  | mrc => exact hnone _ h
  | ldrEntry => exact hnone _ h
  | memset =>
    obtain ⟨-, -, -, -, i, hi, -, hoff⟩ := h
    exact ⟨i, hi, hoff⟩
  | blArchInit => exact ⟨l.size, Nat.le_refl _, h.2⟩
  | ccuWrite => exact ⟨l.size, Nat.le_refl _, h.2⟩
  | ccuPoll => exact ⟨l.size, Nat.le_refl _, h.2.1⟩
  | putchar => exact ⟨l.size, Nat.le_refl _, h.2.1⟩
  | wfi => exact h.elim
  | wfe => exact h.elim
  | b => exact h.elim
  | _ => exact hnone _ h.1

theorem booting_done {mem : Memory 32} {c : Core} {s : Soc} {mpidr : BitVec 32} (h : Booting l mpidr mem c s)
    (hleft : stepsLeft l c = 0) : Greets c ∧ c.sp = l.entry ∧ OffStack l s.mem (fill l.bssBegin l.size 0 mem) := by
  obtain ⟨pc, r0, r1, r2, sp, z, ptr⟩ := c
  cases pc with
  | putchar todo pc =>
    obtain ⟨hsp, hmem, htodo, hpc⟩ := h
    obtain rfl : todo = greeting := htodo
    obtain rfl : pc = .poll := hpc
    exact ⟨rfl, hsp, hmem⟩
  | wfi => exact h.elim
  | wfe => exact h.elim
  | b => exact h.elim
  | _ => exact absurd hleft (Nat.succ_ne_zero _)

theorem drives_alone (hboot : mpidr boot &&& 3 = 0) (mem : Memory 32) (line : List Byte) :
    Drives (aloneStep l mpidr boot) (· = .env .lock) (fun k => ∃ other, k = .own other)
      (Alone l (mpidr boot) mem line) Waits (fun r => stepsLeft l r.1) where
  inv := by
    rintro ⟨c, s⟩ k ⟨huart, hbooting⟩
    cases k with
    | own other =>
      obtain ⟨hsame, hnext, -⟩ := coreStep_booting hboot huart hbooting other
      exact ⟨hsame.trans huart, hnext⟩
    | env e =>
      refine ⟨?_, move_booting hbooting e⟩
      cases e with
      | lock => exact huart
      | drain => exact congrArg Port.drain huart
    | rest => exact ⟨huart, hbooting⟩
  mono := by
    rintro ⟨c, s⟩ k ⟨huart, hbooting⟩
    cases k with
    | own other =>
      obtain ⟨-, -, hless | ⟨hsame, -⟩⟩ := coreStep_booting hboot huart hbooting other
      · exact Nat.le_of_lt hless
      · have hcore := congrArg (fun r : Core × Soc => stepsLeft l r.1) hsame
        exact Nat.le_of_eq hcore
    | env e => exact Nat.le_refl _
    | rest => exact Nat.le_refl _
  frees := by
    rintro ⟨c, s⟩ k ⟨-, hbooting⟩ rfl
    rintro ⟨hpc, hlocked⟩
    have henabled := ctrl_of_poll hbooting hpc
    have hlock : (s.pll.locked || s.pll.ctrl.getLsbD 31) = false := hlocked
    rw [henabled, Bool.or_eq_false_iff] at hlock
    exact absurd hlock.2 (by decide)
  moves := by
    rintro ⟨c, s⟩ k ⟨huart, hbooting⟩ ⟨other, rfl⟩ hfree hpos
    obtain ⟨-, -, hless | ⟨-, hwaits | hgreets⟩⟩ := coreStep_booting hboot huart hbooting other
    · exact hless
    · exact absurd hwaits hfree
    · rw [stepsLeft, hgreets] at hpos
      exact absurd hpos (Nat.lt_irrefl 0)
  stays := by
    rintro ⟨c, s⟩ k ⟨huart, hbooting⟩ hfree hsame
    cases k with
    | own other =>
      obtain ⟨-, -, hless | ⟨hstep, -⟩⟩ := coreStep_booting hboot huart hbooting other
      · exact absurd hsame (Nat.ne_of_lt hless)
      · intro hwaits
        have hnext : aloneStep l mpidr boot (c, s) (.own other) = (c, s.scribble l other) := hstep
        rw [hnext] at hwaits
        exact hfree hwaits
    | env e =>
      rintro ⟨hpc, hlocked⟩
      refine hfree ⟨hpc, ?_⟩
      cases e with
      | lock => exact (Bool.or_eq_false_iff.mp hlocked).1
      | drain => exact hlocked
    | rest => exact hfree

/-- What no run of the chip gets out of. -/
structure Contained (l : Layout) (mpidr : ι → BitVec 32) (boot : ι) (m t : Machine ι Core Soc) : Prop where
  others : ∀ i, i ≠ boot → Spins (mpidr i) (t.core i)
  memory : ∃ k ≤ l.size, OffStack l t.shared.mem (fill l.bssBegin k 0 m.shared.mem)
  uart : t.shared.uart = m.shared.uart
  running : (t.core boot).pc ≠ .wfi

/-- **The chip boots, and falls silent**, for any number of cores of which one has CPU number 0, and an UART
with nothing to send. Whatever the interleaving, the other cores keep to `spinlock`, memory from `_entry` on changes
in `.bss` alone, nothing is sent and `arch_init` does not return. If the boot core keeps running and the PLL locks,
the whole of `.bss` gets cleared, and the first `uart_putchar` waits for ever. -/
theorem boot_cores [DecidableEq ι] (hboot : ∀ i, mpidr i &&& 3 = 0 ↔ i = boot) (m : Machine ι Core Soc)
    (hstart : ∀ i, (m.core i).pc = .mrc) (hidle : m.shared.uart.holding = none)
    (f : ℕ → Choice ι Found DeviceMove) :
    (∀ n, Contained l mpidr boot m (after (bootStep l mpidr) m f n)) ∧
    (Fair (· = .env .lock) (fun k => ∃ other, k = .core boot other) f →
      ∃ n, ∀ k, n ≤ k →
        Greets ((after (bootStep l mpidr) m f k).core boot) ∧
        ((after (bootStep l mpidr) m f k).core boot).sp = l.entry ∧
        OffStack l (after (bootStep l mpidr) m f k).shared.mem (fill l.bssBegin l.size 0 m.shared.mem)) := by
  have hquiet : ∀ i, i ≠ boot → Quiet (fun i => coreStep l (mpidr i)) i (Spins (mpidr i)) :=
    fun i hi => quiet_spins l mpidr fun hzero => hi ((hboot i).mp hzero)
  have hspins : ∀ i, i ≠ boot → Spins (mpidr i) (m.core i) := by
    intro i _
    rw [Spins, hstart]
    trivial
  have halone : Alone l (mpidr boot) m.shared.mem m.shared.uart.line (m.solo boot) := by
    constructor
    · show m.shared.uart = _
      rw [← hidle]
    · rw [Booting]
      simp only [Machine.solo, hstart]
  have hdrives := drives_alone (l := l) ((hboot boot).mpr rfl) m.shared.mem m.shared.uart.line
  have hsolo := fun n => after_solo Soc.move hquiet hspins f n
  constructor
  · intro n
    obtain ⟨hsame, hothers⟩ := hsolo n
    obtain ⟨huart, hbooting⟩ := hdrives.inv_after halone (fun n => (f n).solo boot) n
    rw [← hsame] at huart hbooting
    refine ⟨hothers, mem_of_booting hbooting, huart.trans ?_, fun hwfi => ?_⟩
    · rw [← hidle]
    · rw [Booting, Machine.solo, hwfi] at hbooting
      exact hbooting
  · intro hf
    have hf' : Fair (· = .env .lock) (fun k => ∃ other, k = .own other) fun n => (f n).solo boot := by
      refine hf.map (fun k hk => by rw [hk]; rfl) ?_
      rintro k ⟨other, rfl⟩
      exact ⟨other, if_pos rfl⟩
    obtain ⟨n, hn⟩ := hdrives.done halone hf'
    refine ⟨n, fun k hk => ?_⟩
    obtain ⟨-, hbooting⟩ := hdrives.inv_after halone (fun n => (f n).solo boot) k
    have hleft := (hn k hk).1
    rw [← (hsolo k).1] at hleft hbooting
    exact booting_done hbooting hleft

theorem boot_cores_four :
    let l : Layout := ⟨0x8000, 0x9000, 0xA000, by decide, by decide⟩
    let mpidr : Fin 4 → BitVec 32 := fun i => 0x80000F00 + BitVec.ofNat 32 i
    let m : Machine (Fin 4) Core Soc := ⟨fun _ => ⟨.mrc, 0, 0, 0, 0, false, 0⟩, fun _ => 0xFF, ⟨0x9, false⟩, .idle⟩
    let f : ℕ → Choice (Fin 4) Found DeviceMove :=
      fun n => if n % 2 = 0 then .env .lock else .core (Fin.ofNat 4 (n / 2)) ⟨0, fun i => BitVec.ofNat 8 i⟩
    ∃ n, ∀ k, n ≤ k →
      Greets ((after (bootStep l mpidr) m f k).core 0) ∧
      OffStack l (after (bootStep l mpidr) m f k).shared.mem (fill 0x9000 0x1000 0 fun _ => 0xFF) := by
  intro l mpidr m f
  have hf : Fair (· = .env .lock) (fun k => ∃ other, k = .core 0 other) f := by
    constructor
    · intro n
      exact ⟨2 * n, by omega, if_pos (by omega)⟩
    · intro n
      refine ⟨8 * n + 1, by omega, ⟨0, fun i => BitVec.ofNat 8 i⟩, (if_neg (by omega)).trans ?_⟩
      rw [show (8 * n + 1) / 2 = 4 * n by omega]
      congr 1
      exact Fin.ext (Nat.mul_mod_right 4 n)
  have hsize : l.size = 0x1000 := show ((0xA000 : BitVec 32) - 0x9000).toNat = 0x1000 by decide
  have hboot : ∀ i, mpidr i &&& 3 = 0 ↔ i = 0 := by decide
  obtain ⟨n, hn⟩ := (boot_cores hboot m (fun _ => rfl) rfl f).2 hf
  refine ⟨n, fun k hk => ⟨(hn k hk).1, ?_⟩⟩
  rw [← hsize]
  exact (hn k hk).2.2

end QDNix.Arm
