import QDNix.Lib.Fairness
import QDNix.Riscv.Entry
import QDNix.Riscv.Uart

/-!
# A hart booting

`_entry` of `riscv/entry.S` and `arch_init` of `riscv/init.c`, one hart against the UART, which takes the bytes
it was given and gets others whenever it likes. Every call of `uart_putchar` reads the receive register until it
finds a zero there, so the boot ends if the input does, and the bytes that came before are gone; none of them
looks whether the UART has taken the last character. So of `Hello` the line may get less, and the last letter
for certain (`boot_hart`).

The compiled code has its frames on the stack; with every step of it the whole stack may hold anything. The fetch of
`interrupt_handler` and what follows the `wfi` are left out.
-/

namespace QDNix.Riscv

open Memory Transmit Polled Fairness

/-- Where the linker puts what `_entry` names. -/
structure Layout where
  globalPtr : BitVec 64
  stackTop : BitVec 64
  bssBegin : BitVec 64
  bssEnd : BitVec 64
  interruptHandler : BitVec 64

/-- The begin of the section `.stack`. -/
def Layout.stackBegin (l : Layout) : BitVec 64 := l.stackTop - 0x4000

/-- The memories agree off the stack. -/
abbrev OffStack (l : Layout) (m m' : Memory 64) : Prop := AgreeOff l.stackBegin 0x4000 m m'

/-- `CSR_STATUS_REG_IE`, with and without `CONFIG_M_MODE` -/
def statusRegIe (mMode : Bool) : BitVec 64 := if mMode then 0x8 else 0x2

/-- The instruction, or the C code, that is next. -/
inductive Pc
  | laGp | csrwSatp | laSp | laBegin | laEnd | bltu
  | clear
  | laHandler | csrwTvec | csrsStatus | tail
  | putchar (todo : List Byte) (pc : Polled.Pc)
  | wfi

/-- A hart, its memory and the UART. -/
structure Board where
  pc : Pc
  gp : BitVec 64
  sp : BitVec 64
  t0 : BitVec 64
  t1 : BitVec 64
  satp : BitVec 64
  tvec : BitVec 64
  status : BitVec 64
  mem : Memory 64
  uart : Uart

/-- What a step finds in the bits the UART leaves open, and what the compiled code leaves on the stack. -/
structure Found where
  bits : Byte
  frames : ℕ → Byte

def hello : List Byte := [ch 'H', ch 'e', ch 'l', ch 'l', ch 'o']

/-- One step of the hart. A turn of the loop at `1:` is one step, since its `sd` is the only access. -/
def hartStep (l : Layout) (mMode : Bool) (b : Board) (other : Found) : Board :=
  match b.pc with
  | .laGp => { b with gp := l.globalPtr, pc := .csrwSatp }
  | .csrwSatp => { b with satp := 0, pc := .laSp }
  | .laSp => { b with sp := l.stackTop, pc := .laBegin }
  | .laBegin => { b with t0 := l.bssBegin, pc := .laEnd }
  | .laEnd => { b with t1 := l.bssEnd, pc := .bltu }
  | .bltu => { b with pc := if b.t1 < b.t0 then .laHandler else .clear }
  | .clear =>
    match clearTurn ⟨b.t0, b.t1, b.mem⟩ with
    | some (turn, again) => { b with t0 := turn.t0, mem := turn.mem, pc := if again then .clear else .laHandler }
    | none => b
  | .laHandler => { b with t0 := l.interruptHandler, pc := .csrwTvec }
  | .csrwTvec => { b with tvec := b.t0, pc := .csrsStatus }
  | .csrsStatus => { b with status := b.status ||| statusRegIe mMode, pc := .tail }
  | .tail => { b with pc := .putchar hello .poll }
  | .putchar [] _ => { b with pc := .wfi, mem := blit l.stackBegin 0x4000 other.frames b.mem }
  | .putchar (c :: todo) pc =>
    let sys := Polled.cpuStep ns16550 uartPutchar ⟨c :: todo, pc, b.uart⟩ other.bits
    { b with
      pc := .putchar sys.todo sys.pc
      uart := sys.dev
      mem := blit l.stackBegin 0x4000 other.frames b.mem }
  | .wfi => b

def step (l : Layout) (mMode : Bool) (b : Board) : Choice Found Move → Board
  | .device e => { b with uart := ns16550.move b.uart e }
  | .cpu other => hartStep l mMode b other

/-! ### What has been done -/

section Booting

variable (l : Layout) (mMode : Bool) (status : BitVec 64) (mem : Memory 64)

def Layout.size : ℕ := l.bssEnd.toNat - l.bssBegin.toNat

/-- The bytes the loop clears. -/
def Layout.reach : ℕ := 8 * Loop.strides 8 l.size

/-- The registers from the loop on. -/
def Pointers (b : Board) : Prop := b.gp = l.globalPtr ∧ b.sp = l.stackTop ∧ b.satp = 0

/-- What `arch_init` finds, and keeps. -/
def Entered (b : Board) : Prop :=
  Pointers l b ∧ OffStack l b.mem (fill l.bssBegin l.reach 0 mem) ∧ b.tvec = l.interruptHandler ∧
    b.status = status ||| statusRegIe mMode

/-- What the hart has done when it gets to each place. -/
def Booting (b : Board) : Prop :=
  match b.pc with
  | .laGp => b.status = status ∧ b.uart.port.sent = [] ∧ b.mem = mem
  | .csrwSatp => b.status = status ∧ b.uart.port.sent = [] ∧ b.mem = mem ∧ b.gp = l.globalPtr
  | .laSp => b.status = status ∧ b.uart.port.sent = [] ∧ b.mem = mem ∧ b.gp = l.globalPtr ∧ b.satp = 0
  | .laBegin => b.status = status ∧ b.uart.port.sent = [] ∧ b.mem = mem ∧ Pointers l b
  | .laEnd => b.status = status ∧ b.uart.port.sent = [] ∧ b.mem = mem ∧ Pointers l b ∧ b.t0 = l.bssBegin
  | .bltu => b.status = status ∧ b.uart.port.sent = [] ∧ b.mem = mem ∧ Pointers l b ∧ b.t0 = l.bssBegin ∧ b.t1 = l.bssEnd
  | .clear => b.status = status ∧ b.uart.port.sent = [] ∧ Pointers l b ∧ ∃ i < Loop.strides 8 l.size,
      (⟨b.t0, b.t1, b.mem⟩ : RvClear) = cleared l.bssBegin l.bssEnd mem i
  | .laHandler => b.status = status ∧ b.uart.port.sent = [] ∧ Pointers l b ∧ b.mem = fill l.bssBegin l.reach 0 mem
  | .csrwTvec => b.status = status ∧ b.uart.port.sent = [] ∧ Pointers l b ∧ b.mem = fill l.bssBegin l.reach 0 mem ∧
      b.t0 = l.interruptHandler
  | .csrsStatus => b.status = status ∧ b.uart.port.sent = [] ∧ Pointers l b ∧ b.mem = fill l.bssBegin l.reach 0 mem ∧
      b.tvec = l.interruptHandler
  | .tail => b.uart.port.sent = [] ∧ Entered l mMode status mem b
  | .putchar todo _ => Entered l mMode status mem b ∧
      ∃ stored, stored ++ todo = hello ∧ Port.Lossy stored b.uart.port.sent
  | .wfi => Entered l mMode status mem b ∧ Port.Lossy hello b.uart.port.sent

/-- How many steps the hart has to its `wfi` at most, if no byte arrives. -/
def stepsLeft (b : Board) : ℕ :=
  match b.pc with
  | .laGp => b.uart.rx.length + l.size + 22
  | .csrwSatp => b.uart.rx.length + l.size + 21
  | .laSp => b.uart.rx.length + l.size + 20
  | .laBegin => b.uart.rx.length + l.size + 19
  | .laEnd => b.uart.rx.length + l.size + 18
  | .bltu => b.uart.rx.length + l.size + 17
  | .clear => b.uart.rx.length + (l.bssEnd.toNat - b.t0.toNat) + 16
  | .laHandler => b.uart.rx.length + 15
  | .csrwTvec => b.uart.rx.length + 14
  | .csrsStatus => b.uart.rx.length + 13
  | .tail => b.uart.rx.length + 12
  | .putchar (_ :: todo) .poll => b.uart.rx.length + 2 * todo.length + 3
  | .putchar (_ :: todo) .store => b.uart.rx.length + 2 * todo.length + 2
  | .putchar [] _ => b.uart.rx.length + 1
  | .wfi => 0

variable {l mMode status mem} {b : Board}

theorem cpuStep_putchar (c : Byte) (todo : List Byte) (pc : Polled.Pc) (u : Uart) (other : Byte) :
    (pc = .store ∧ Polled.cpuStep ns16550 uartPutchar ⟨c :: todo, pc, u⟩ other =
      ⟨todo, .poll, { u with port := u.port.store c }⟩) ∨
    (pc = .poll ∧ Polled.cpuStep ns16550 uartPutchar ⟨c :: todo, pc, u⟩ other =
      ⟨c :: todo, if u.rx.headD 0 ≠ 0 then .poll else .store, { u with rx := u.rx.tail }⟩) := by
  cases pc with
  | store => exact .inl ⟨rfl, rfl⟩
  | poll =>
    refine .inr ⟨rfl, ?_⟩
    have hread := read_rx u c other
    simp only [Polled.cpuStep, hread]
    simp [uartPutchar]

theorem hartStep_booting (hl : Placed l.bssBegin l.bssEnd) (hb : Booting l mMode status mem b) (other : Found) :
    Booting l mMode status mem (hartStep l mMode b other) ∧
      (stepsLeft l (hartStep l mMode b other) < stepsLeft l b ∨ b.pc = .wfi ∧ hartStep l mMode b other = b) := by
  have hle : l.bssBegin.toNat ≤ l.bssEnd.toNat := hl.le
  obtain ⟨pc, gp, sp, t0, t1, satp, tvec, st, m, u⟩ := b
  cases pc with
  | laGp =>
    obtain ⟨hst, hsent, hmem⟩ := hb
    exact ⟨⟨hst, hsent, hmem, rfl⟩, .inl (Nat.lt_succ_self _)⟩
  | csrwSatp =>
    obtain ⟨hst, hsent, hmem, hgp⟩ := hb
    exact ⟨⟨hst, hsent, hmem, hgp, rfl⟩, .inl (Nat.lt_succ_self _)⟩
  | laSp =>
    obtain ⟨hst, hsent, hmem, hgp, hsatp⟩ := hb
    exact ⟨⟨hst, hsent, hmem, ⟨hgp, rfl, hsatp⟩⟩, .inl (Nat.lt_succ_self _)⟩
  | laBegin =>
    obtain ⟨hst, hsent, hmem, hgp, hsp, hsatp⟩ := hb
    exact ⟨⟨hst, hsent, hmem, ⟨hgp, hsp, hsatp⟩, rfl⟩, .inl (Nat.lt_succ_self _)⟩
  | laEnd =>
    obtain ⟨hst, hsent, hmem, ⟨hgp, hsp, hsatp⟩, ht0⟩ := hb
    exact ⟨⟨hst, hsent, hmem, ⟨hgp, hsp, hsatp⟩, ht0, rfl⟩, .inl (Nat.lt_succ_self _)⟩
  | bltu =>
    obtain ⟨hst, hsent, hmem, ⟨hgp, hsp, hsatp⟩, ht0, ht1⟩ := hb
    obtain rfl : t0 = l.bssBegin := ht0
    obtain rfl : t1 = l.bssEnd := ht1
    have hlow : ¬ l.bssEnd < l.bssBegin := BitVec.not_lt.mpr hl.le
    have hstep : hartStep l mMode ⟨.bltu, gp, sp, l.bssBegin, l.bssEnd, satp, tvec, st, m, u⟩ other =
        ⟨.clear, gp, sp, l.bssBegin, l.bssEnd, satp, tvec, st, m, u⟩ := by
      simp only [hartStep, if_neg hlow]
    rw [hstep]
    refine ⟨⟨hst, hsent, ⟨hgp, hsp, hsatp⟩, 0, ?_, ?_⟩, .inl ?_⟩
    · rw [Loop.strides]
      omega
    · rw [cleared, Nat.mul_zero, fill, blit_zero, BitVec.add_zero]
      exact congrArg _ hmem
    · show u.rx.length + (l.bssEnd.toNat - l.bssBegin.toNat) + 16 < u.rx.length + l.size + 17
      rw [Layout.size]
      omega
  | clear =>
    obtain ⟨hst, hsent, ⟨hgp, hsp, hsatp⟩, i, hi, hhead⟩ := hb
    have hsize : l.size = l.bssEnd.toNat - l.bssBegin.toNat := rfl
    have hhigh := hl.high
    have hturn := @clearTurn_cleared l.bssBegin l.bssEnd mem hl i hi
    have hhead' : (⟨t0, t1, m⟩ : RvClear) = cleared l.bssBegin l.bssEnd mem i := hhead
    have hsmall : i = 0 ∨ 8 * i < l.size := by
      rcases Nat.eq_zero_or_pos i with hzero | hpos
      · exact .inl hzero
      · have := (Loop.succ_lt_strides_iff (n := l.size) (w := 8) (i := i - 1) (by decide)).mp
          (by rwa [Nat.sub_add_cancel hpos])
        exact .inr (by omega)
    have hptr : t0.toNat = l.bssBegin.toNat + 8 * i := by
      rw [show t0 = l.bssBegin + BitVec.ofNat 64 (8 * i) from congrArg RvClear.t0 hhead']
      exact toNat_add_ofNat (by omega)
    rw [← hhead'] at hturn
    have hstep : hartStep l mMode ⟨.clear, gp, sp, t0, t1, satp, tvec, st, m, u⟩ other =
        ⟨if 8 * (i + 1) < l.size then .clear else .laHandler, gp, sp, l.bssBegin + BitVec.ofNat 64 (8 * (i + 1)), t1,
          satp, tvec, st, fill l.bssBegin (8 * (i + 1)) 0 mem, u⟩ := by
      simp only [hartStep, hturn, decide_eq_true_eq]
      rfl
    have ht1 : t1 = l.bssEnd := congrArg RvClear.t1 hhead'
    rw [hstep]
    by_cases hmore : 8 * (i + 1) < l.size
    · rw [if_pos hmore]
      refine ⟨⟨hst, hsent, ⟨hgp, hsp, hsatp⟩, i + 1, (Loop.succ_lt_strides_iff (by decide)).mpr hmore, ?_⟩, .inl ?_⟩
      · rw [ht1]
        rfl
      · have hptr' : (l.bssBegin + BitVec.ofNat 64 (8 * (i + 1))).toNat = l.bssBegin.toNat + 8 * (i + 1) :=
          toNat_add_ofNat (by omega)
        show u.rx.length + (l.bssEnd.toNat - (l.bssBegin + BitVec.ofNat 64 (8 * (i + 1))).toNat) + 16 <
          u.rx.length + (l.bssEnd.toNat - t0.toNat) + 16
        omega
    · rw [if_neg hmore]
      have hlast : i + 1 = Loop.strides 8 l.size := by
        have := mt (Loop.succ_lt_strides_iff (n := l.size) (w := 8) (i := i) (by decide)).mp hmore
        omega
      refine ⟨⟨hst, hsent, ⟨hgp, hsp, hsatp⟩, ?_⟩, .inl ?_⟩
      · rw [Layout.reach, ← hlast]
      · show u.rx.length + 15 < u.rx.length + (l.bssEnd.toNat - t0.toNat) + 16
        omega
  | laHandler =>
    obtain ⟨hst, hsent, ⟨hgp, hsp, hsatp⟩, hmem⟩ := hb
    exact ⟨⟨hst, hsent, ⟨hgp, hsp, hsatp⟩, hmem, rfl⟩, .inl (Nat.lt_succ_self _)⟩
  | csrwTvec =>
    obtain ⟨hst, hsent, ⟨hgp, hsp, hsatp⟩, hmem, ht0⟩ := hb
    exact ⟨⟨hst, hsent, ⟨hgp, hsp, hsatp⟩, hmem, ht0⟩, .inl (Nat.lt_succ_self _)⟩
  | csrsStatus =>
    obtain ⟨hst, hsent, ⟨hgp, hsp, hsatp⟩, hmem, htvec⟩ := hb
    obtain rfl : st = status := hst
    exact ⟨⟨hsent, ⟨hgp, hsp, hsatp⟩, agreeOff_of_eq hmem, htvec, rfl⟩, .inl (Nat.lt_succ_self _)⟩
  | tail =>
    obtain ⟨hsent, ⟨hgp, hsp, hsatp⟩, hmem, htvec, hst⟩ := hb
    have hsent : u.port.sent = [] := hsent
    refine ⟨⟨⟨⟨hgp, hsp, hsatp⟩, hmem, htvec, hst⟩, [], rfl, ?_⟩, .inl (Nat.lt_succ_self _)⟩
    show Port.Lossy [] u.port.sent
    rw [hsent]
    exact Port.lossy_refl []
  | putchar todo pc =>
    obtain ⟨⟨⟨hgp, hsp, hsatp⟩, hmem, htvec, hst⟩, stored, hstored, hlossy⟩ := hb
    cases todo with
    | nil =>
      obtain rfl : stored = hello := (List.append_nil stored).symm.trans hstored
      exact ⟨⟨⟨⟨hgp, hsp, hsatp⟩, hmem.scribble other.frames, htvec, hst⟩, hlossy⟩, .inl (Nat.succ_pos _)⟩
    | cons c todo =>
      have hmem := hmem.scribble other.frames
      have hstep : hartStep l mMode ⟨.putchar (c :: todo) pc, gp, sp, t0, t1, satp, tvec, st, m, u⟩ other =
          let sys := Polled.cpuStep ns16550 uartPutchar ⟨c :: todo, pc, u⟩ other.bits
          ⟨.putchar sys.todo sys.pc, gp, sp, t0, t1, satp, tvec, st, blit l.stackBegin 0x4000 other.frames m,
            sys.dev⟩ := rfl
      rcases cpuStep_putchar c todo pc u other.bits with ⟨rfl, hcpu⟩ | ⟨rfl, hcpu⟩
      · rw [hstep, hcpu]
        refine ⟨⟨⟨⟨hgp, hsp, hsatp⟩, hmem, htvec, hst⟩, stored ++ [c], ?_, ?_⟩, .inl ?_⟩
        · rw [List.append_assoc]
          exact hstored
        · exact Port.lossy_store hlossy c
        · cases todo with
          | nil => exact Nat.lt_succ_self _
          | cons d todo => exact Nat.lt_succ_self _
      · rw [hstep, hcpu]
        refine ⟨⟨⟨⟨hgp, hsp, hsatp⟩, hmem, htvec, hst⟩, stored, hstored, hlossy⟩, .inl ?_⟩
        obtain ⟨port, rx⟩ := u
        cases rx with
        | nil =>
          show 0 + 2 * todo.length + 2 < 0 + 2 * todo.length + 3
          omega
        | cons x rx =>
          by_cases hx : x = 0
          · show stepsLeft l ⟨.putchar (c :: todo) (if x ≠ 0 then .poll else .store), gp, sp, t0, t1, satp, tvec, st, _,
              ⟨port, rx⟩⟩ < rx.length + 1 + 2 * todo.length + 3
            rw [if_neg (not_not.mpr hx)]
            show rx.length + 2 * todo.length + 2 < _
            omega
          · show stepsLeft l ⟨.putchar (c :: todo) (if x ≠ 0 then .poll else .store), gp, sp, t0, t1, satp, tvec, st, _,
              ⟨port, rx⟩⟩ < rx.length + 1 + 2 * todo.length + 3
            rw [if_pos hx]
            show rx.length + 2 * todo.length + 3 < _
            omega
  | wfi => exact ⟨hb, .inr ⟨rfl, rfl⟩⟩

theorem sent_move (u : Uart) (e : Move) : (ns16550.move u e).port.sent = u.port.sent := by
  cases e with
  | drain => exact Port.sent_drain u.port
  | arrive => rfl

theorem move_booting (hb : Booting l mMode status mem b) (e : Move) :
    Booting l mMode status mem { b with uart := ns16550.move b.uart e } := by
  have hsent := sent_move b.uart e
  obtain ⟨pc, gp, sp, t0, t1, satp, tvec, st, m, u⟩ := b
  cases pc <;> simp only [Booting, hsent] at hb ⊢ <;> exact hb

theorem mem_of_booting (hb : Booting l mMode status mem b) :
    ∃ k ≤ Loop.strides 8 l.size, OffStack l b.mem (fill l.bssBegin (8 * k) 0 mem) := by
  have hnone : ∀ m : Memory 64, m = mem → ∃ k ≤ Loop.strides 8 l.size, OffStack l m (fill l.bssBegin (8 * k) 0 mem) :=
    fun m hm => ⟨0, Nat.zero_le _, agreeOff_of_eq (hm.trans blit_zero.symm)⟩
  have hall : ∀ m : Memory 64, m = fill l.bssBegin l.reach 0 mem →
      ∃ k ≤ Loop.strides 8 l.size, OffStack l m (fill l.bssBegin (8 * k) 0 mem) :=
    fun m hm => ⟨_, Nat.le_refl _, agreeOff_of_eq hm⟩
  obtain ⟨pc, gp, sp, t0, t1, satp, tvec, st, m, u⟩ := b
  cases pc with
  | laGp => exact hnone _ hb.2.2
  | csrwSatp => exact hnone _ hb.2.2.1
  | laSp => exact hnone _ hb.2.2.1
  | laBegin => exact hnone _ hb.2.2.1
  | laEnd => exact hnone _ hb.2.2.1
  | bltu => exact hnone _ hb.2.2.1
  | clear =>
    obtain ⟨-, -, -, i, hi, hhead⟩ := hb
    exact ⟨i, Nat.le_of_lt hi, agreeOff_of_eq (congrArg RvClear.mem hhead)⟩
  | laHandler => exact hall _ hb.2.2.2
  | csrwTvec => exact hall _ hb.2.2.2.1
  | csrsStatus => exact hall _ hb.2.2.2.1
  | tail => exact ⟨_, Nat.le_refl _, hb.2.2.1⟩
  | putchar => exact ⟨_, Nat.le_refl _, hb.1.2.1⟩
  | wfi => exact ⟨_, Nat.le_refl _, hb.1.2.1⟩

theorem sent_of_booting (hb : Booting l mMode status mem b) : b.uart.port.sent.Sublist hello := by
  have hnone : b.uart.port.sent = [] → b.uart.port.sent.Sublist hello := fun h => h ▸ List.nil_sublist hello
  obtain ⟨pc, gp, sp, t0, t1, satp, tvec, st, m, u⟩ := b
  cases pc with
  | tail => exact hnone hb.1
  | putchar todo pc =>
    obtain ⟨-, stored, hstored, hlossy⟩ := hb
    exact List.Sublist.trans hlossy.1 (hstored ▸ List.sublist_append_left stored todo)
  | wfi => exact hb.2.1
  | _ => exact hnone hb.2.1

theorem wfi_of_left (hb : Booting l mMode status mem b) (hleft : stepsLeft l b = 0) : b.pc = .wfi := by
  obtain ⟨pc, gp, sp, t0, t1, satp, tvec, st, m, u⟩ := b
  cases pc with
  | wfi => rfl
  | putchar todo pc =>
    cases todo with
    | nil => exact absurd hleft (Nat.succ_ne_zero _)
    | cons c todo => cases pc <;> exact absurd hleft (Nat.succ_ne_zero _)
  | _ => exact absurd hleft (Nat.succ_ne_zero _)

end Booting

/-! ### The run -/

variable {l : Layout} {mMode : Bool}

/-- The system while nothing arrives. -/
def quietStep (l : Layout) (mMode : Bool) (b : Board) : Choice Found Move → Board
  | .device (.arrive _) => b
  | k => step l mMode b k

theorem drives (hl : Placed l.bssBegin l.bssEnd) (status : BitVec 64) (mem : Memory 64) :
    Drives (quietStep l mMode) (· = .device .drain) (fun k => ∃ other, k = .cpu other) (Booting l mMode status mem)
      (fun b => b.uart.port.holding ≠ none) (stepsLeft l) where
  inv b k hb := by
    cases k with
    | cpu other => exact (hartStep_booting hl hb other).1
    | device e =>
      cases e with
      | drain => exact move_booting hb .drain
      | arrive => exact hb
  mono b k hb := by
    cases k with
    | cpu other =>
      rcases (hartStep_booting hl hb other).2 with hless | ⟨-, hsame⟩
      · exact Nat.le_of_lt hless
      · exact Nat.le_of_eq (congrArg (stepsLeft l) hsame)
    | device e => cases e <;> exact Nat.le_refl _
  frees b k hb hdrain := by
    rw [hdrain, not_not]
    exact Port.holding_drain _
  moves b k hb hcpu _ hpos := by
    obtain ⟨other, rfl⟩ := hcpu
    rcases (hartStep_booting hl hb other).2 with hless | ⟨hwfi, -⟩
    · exact hless
    · rw [stepsLeft, hwfi] at hpos
      exact absurd hpos (Nat.lt_irrefl 0)
  stays b k hb hempty hsame := by
    cases k with
    | cpu other =>
      rcases (hartStep_booting hl hb other).2 with hless | ⟨-, hstep⟩
      · exact absurd hsame (Nat.ne_of_lt hless)
      · exact fun hfull => hempty (hstep ▸ hfull)
    | device e =>
      cases e with
      | drain =>
        rw [not_not]
        exact Port.holding_drain _
      | arrive => exact hempty

theorem step_booting (hl : Placed l.bssBegin l.bssEnd) {status : BitVec 64} {mem : Memory 64} {b : Board}
    (hb : Booting l mMode status mem b) (f : ℕ → Choice Found Move) (n : ℕ) :
    Booting l mMode status mem (after (step l mMode) b f n) := by
  induction n with
  | zero => exact hb
  | succ n ih =>
    rw [after]
    cases f n with
    | cpu other => exact (hartStep_booting hl ih other).1
    | device e => exact move_booting ih e

/-- **A hart boots**, from `_entry`, with nothing sent. Whatever the UART does, memory off the stack is cleared from the
begin of `.bss` on in double words and stays as it was elsewhere, and what is sent is a part of `Hello` in order. If the
input ends, the hart comes to the `wfi` behind `arch_init`, with the registers set; a fair UART then has put the
part on the line, and its last letter is that of `Hello`. -/
theorem boot_hart (hl : Placed l.bssBegin l.bssEnd) (b : Board) (hstart : b.pc = .laGp)
    (hidle : b.uart.port.sent = []) (f : ℕ → Choice Found Move) :
    (∀ n, (∃ k ≤ Loop.strides 8 l.size,
        OffStack l (after (step l mMode) b f n).mem (fill l.bssBegin (8 * k) 0 b.mem)) ∧
      (after (step l mMode) b f n).uart.port.sent.Sublist hello) ∧
    (Fair (· = .device .drain) (fun k => ∃ other, k = .cpu other) f →
      (∃ N, ∀ n, N ≤ n → ∀ c, f n ≠ .device (.arrive c)) →
      ∃ n, ∀ k, n ≤ k →
        (after (step l mMode) b f k).pc = .wfi ∧
        Entered l mMode b.status b.mem (after (step l mMode) b f k) ∧
        (after (step l mMode) b f k).uart.port.holding = none ∧
        Port.Lossy hello (after (step l mMode) b f k).uart.port.line) := by
  have hb : Booting l mMode b.status b.mem b := by
    rw [Booting, hstart]
    exact ⟨rfl, hidle, rfl⟩
  refine ⟨fun n => ?_, fun hf hends => ?_⟩
  · have hn := step_booting hl hb f n
    exact ⟨mem_of_booting hn, sent_of_booting hn⟩
  · obtain ⟨N, hN⟩ := hends
    have hquiet : ∀ n s, step l mMode s (f (N + n)) = quietStep l mMode s (f (N + n)) := by
      intro n s
      cases hk : f (N + n) with
      | cpu other => rfl
      | device e =>
        cases e with
        | drain => rfl
        | arrive c => exact absurd hk (hN _ (by omega) c)
    have hfair : Fair (· = .device .drain) (fun k => ∃ other, k = .cpu other) fun n => f (N + n) := hf.shift N
    obtain ⟨n, hn⟩ := (drives hl b.status b.mem).done (step_booting hl hb f N) hfair
    refine ⟨N + n, fun k hk => ?_⟩
    obtain ⟨d, rfl⟩ := Nat.exists_eq_add_of_le hk
    have hlast := step_booting hl hb f (N + n + d)
    obtain ⟨hleft, hempty⟩ := hn (n + d) (by omega)
    rw [← after_congr hquiet, ← after_add, ← Nat.add_assoc] at hleft hempty
    have hempty := not_not.mp hempty
    generalize after (step l mMode) b f (N + n + d) = last at hlast hleft hempty ⊢
    have hwfi := wfi_of_left hlast hleft
    rw [Booting, hwfi] at hlast
    obtain ⟨hentered, hlossy⟩ := hlast
    refine ⟨hwfi, hentered, hempty, ?_⟩
    rw [Port.sent, hempty] at hlossy
    simpa using hlossy

theorem boot_hart_turns :
    let l : Layout := ⟨0x80100800, 0x80105000, 0x80101000, 0x80101008, 0x80100040⟩
    let b : Board := ⟨.laGp, 7, 7, 7, 7, 7, 7, 0, fun _ => 0xFF, ⟨.idle, [1, 2, 0, 3]⟩⟩
    let f : ℕ → Choice Found Move := fun n => if n % 2 = 0 then .device .drain else .cpu ⟨0, fun i => BitVec.ofNat 8 i⟩
    ∃ n, ∀ k, n ≤ k →
      Entered l true 0 (fun _ => 0xFF) (after (step l true) b f k) ∧
      Port.Lossy hello (after (step l true) b f k).uart.port.line := by
  intro l b f
  have hl : Placed l.bssBegin l.bssEnd := ⟨by decide, by decide, by decide, by decide⟩
  have hf : Fair (· = .device .drain) (fun k => ∃ other, k = .cpu other) f := fair_turns rfl ⟨_, rfl⟩
  have hends : ∃ N, ∀ n, N ≤ n → ∀ c, f n ≠ .device (.arrive c) := by
    refine ⟨0, fun n _ c h => ?_⟩
    by_cases hn : n % 2 = 0
    · rw [show f n = .device .drain from if_pos hn] at h
      cases h
    · rw [show f n = .cpu _ from if_neg hn] at h
      cases h
  obtain ⟨n, hn⟩ := (boot_hart hl b rfl rfl f).2 hf hends
  exact ⟨n, fun k hk => ⟨(hn k hk).2.1, (hn k hk).2.2.2⟩⟩

end QDNix.Riscv
