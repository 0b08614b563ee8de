import QDNix.Dev.Serial8250
import QDNix.Lib.Polled

/-!
# The RISC-V console

`uart_putchar` of `riscv/uart.c` and the NS16550-compatible UART at `UART_BASE_ADDR`. Where the 8250 driver
polls the line status, this one reads offset 0, which is the receive register: the call takes bytes out of the
receive queue until it finds a zero or the queue is empty, and never learns whether the transmit register is.

A run whose calls return is clean exactly when its schedule is `paced` (`clean_iff`): no byte arrives before
the last poll, since that poll or one before it would take it (`rx_lt`), and the UART drains its register
between any two stores.
-/

namespace QDNix.Riscv

open Transmit Polled

open Dev (UART8250_LSR lineStatus)

def UART_BASE_ADDR : BitVec 64 := 0x10000000

/-- `uart_putchar` -/
def uartPutchar (c : Byte) : PollStore (BitVec 64) Byte where
  statusAddr := UART_BASE_ADDR
  busy value := value ≠ 0
  dataAddr := UART_BASE_ADDR
  value := c

/-! ### The UART -/

structure Uart where
  port : Port Byte
  rx : List Byte
deriving DecidableEq, Repr

inductive Move
  | drain
  | arrive (b : Byte)
deriving DecidableEq, Repr

/-- Offset 0 is the receive queue to a read and the transmit register to a write. -/
def ns16550 : Device Uart (BitVec 64) Byte Byte Move where
  move u
    | .drain => { u with port := u.port.drain }
    | .arrive b => { u with rx := u.rx ++ [b] }
  read u addr other :=
    if addr = UART_BASE_ADDR then (u.rx.headD 0, { u with rx := u.rx.tail })
    else if addr = UART_BASE_ADDR + BitVec.ofNat 64 UART8250_LSR then (lineStatus u.port other, u)
    else (other, u)
  write u addr v := if addr = UART_BASE_ADDR then { u with port := u.port.store v } else u

abbrev Schedule := List (Choice Byte Move)

/-- The bytes that arrive. -/
def arrivals : Schedule → List Byte
  | [] => []
  | .device (.arrive b) :: cs => b :: arrivals cs
  | _ :: cs => arrivals cs

@[simp] theorem arrivals_arrive (b : Byte) (cs : Schedule) : arrivals (.device (.arrive b) :: cs) = b :: arrivals cs := rfl

@[simp] theorem arrivals_drain (cs : Schedule) : arrivals (.device .drain :: cs) = arrivals cs := rfl

@[simp] theorem arrivals_cpu (other : Byte) (cs : Schedule) : arrivals (.cpu other :: cs) = arrivals cs := rfl

/-- No call begun, both directions empty. -/
def start (chars : List Byte) : Sys Byte Uart := ⟨chars, .poll, ⟨.idle, []⟩⟩

/-- A run sends the characters, overwrites none, and leaves what arrived in the queue. -/
structure Clean (chars : List Byte) (schedule : Schedule) : Prop where
  safe : Safe ns16550 uartPutchar Uart.port (start chars) schedule
  sent : (run ns16550 uartPutchar (start chars) schedule).dev.port.sent = chars
  received : (run ns16550 uartPutchar (start chars) schedule).dev.rx = arrivals schedule

/-- The timing that hides the wrong register, for `n` characters to go: no byte arrives before the last poll,
and the register has drained (`full` is false) by the next store. -/
def paced (full : Bool) (pc : Pc) (n : Nat) : Schedule → Bool
  | [] => true
  | c :: cs =>
    match n, c, pc with
    | 0, _, _ => true
    | n + 1, .device .drain, pc => paced false pc (n + 1) cs
    | n + 1, .device (.arrive _), pc => pc = .store && n = 0 && paced full pc (n + 1) cs
    | n + 1, .cpu _, .poll => paced full .store (n + 1) cs
    | n + 1, .cpu _, .store => !full && paced true .poll n cs

/-! ### One access -/

theorem transmits : Transmits ns16550 uartPutchar Uart.port where
  move u e := by
    cases e with
    | drain => exact .inr rfl
    | arrive b => exact .inl rfl
  read u addr other := by
    simp only [ns16550]
    split
    · rfl
    · split <;> rfl
  write u c := rfl

theorem read_rx (u : Uart) (c other : Byte) :
    ns16550.read u (uartPutchar c).statusAddr other = (u.rx.headD 0, { u with rx := u.rx.tail }) := rfl

variable {s : Sys Byte Uart}

theorem step_drain (s : Sys Byte Uart) :
    step ns16550 uartPutchar s (.device .drain) = ⟨s.todo, s.pc, ⟨s.dev.port.drain, s.dev.rx⟩⟩ := rfl

theorem step_arrive (s : Sys Byte Uart) (b : Byte) :
    step ns16550 uartPutchar s (.device (.arrive b)) = ⟨s.todo, s.pc, ⟨s.dev.port, s.dev.rx ++ [b]⟩⟩ := rfl

theorem poll_empty {c : Byte} {todo : List Byte} (htodo : s.todo = c :: todo) (hpc : s.pc = .poll)
    (hrx : s.dev.rx = []) (other : Byte) :
    step ns16550 uartPutchar s (.cpu other) = { s with pc := .store } := by
  obtain ⟨_, _, port, rx⟩ := s
  obtain rfl : rx = [] := hrx
  rw [step_poll ns16550 uartPutchar htodo hpc, read_rx]
  rfl

/-! ### Eating input -/

/-- A poll is still to come. -/
def PollLeft (s : Sys Byte Uart) : Prop := s.todo ≠ [] ∧ (s.pc = .poll ∨ 1 < s.todo.length)

theorem not_pollLeft {c : Byte} {todo : List Byte} {pc : Pc} {u : Uart} :
    ¬ PollLeft ⟨c :: todo, pc, u⟩ ↔ pc = .store ∧ todo.length = 0 := by
  cases pc <;> simp [PollLeft]

theorem rx_step_cpu_le (s : Sys Byte Uart) (other : Byte) :
    (step ns16550 uartPutchar s (.cpu other)).dev.rx.length ≤ s.dev.rx.length := by
  cases htodo : s.todo with
  | nil => exact Nat.le_of_eq (by rw [step_finished _ _ htodo])
  | cons c todo =>
    cases hpc : s.pc with
    | poll =>
      rw [step_poll _ _ htodo hpc, read_rx]
      simp
    | store =>
      rw [step_store _ _ htodo hpc]
      exact Nat.le_refl _

theorem rx_le (schedule : Schedule) : ∀ s : Sys Byte Uart,
    (run ns16550 uartPutchar s schedule).dev.rx.length ≤ s.dev.rx.length + (arrivals schedule).length := by
  induction schedule with
  | nil => exact fun s => Nat.le_refl _
  | cons c cs ih =>
    intro s
    cases c with
    | device e =>
      cases e with
      | drain => exact ih _
      | arrive b =>
        have hrest := ih ⟨s.todo, s.pc, ⟨s.dev.port, s.dev.rx ++ [b]⟩⟩
        rw [run_cons, step_arrive, arrivals_arrive, List.length_cons]
        rw [List.length_append, List.length_singleton] at hrest
        omega
    | cpu other =>
      have hstep := rx_step_cpu_le s other
      have hrest := ih (step ns16550 uartPutchar s (.cpu other))
      rw [run_cons, arrivals_cpu]
      omega

/-- **A byte in the queue at a poll does not survive it.** -/
theorem rx_lt (schedule : Schedule) : ∀ s : Sys Byte Uart, PollLeft s → s.dev.rx ≠ [] →
    (run ns16550 uartPutchar s schedule).todo = [] →
      (run ns16550 uartPutchar s schedule).dev.rx.length < s.dev.rx.length + (arrivals schedule).length := by
  induction schedule with
  | nil => exact fun s hleft _ hdone => absurd hdone hleft.1
  | cons c cs ih =>
    intro s hleft hrx hdone
    cases c with
    | device e =>
      cases e with
      | drain => exact ih _ hleft hrx hdone
      | arrive b =>
        rw [run_cons, step_arrive] at hdone ⊢
        have hrest := ih ⟨s.todo, s.pc, ⟨s.dev.port, s.dev.rx ++ [b]⟩⟩ hleft (by simp) hdone
        rw [List.length_append, List.length_singleton] at hrest
        rw [arrivals_arrive, List.length_cons]
        omega
    | cpu other =>
      obtain ⟨hne, hpoll⟩ := hleft
      obtain ⟨c, todo, htodo⟩ := List.exists_cons_of_ne_nil hne
      cases hpc : s.pc with
      | poll =>
        have hpos := List.length_pos_iff.mpr hrx
        have hrest := rx_le cs (step ns16550 uartPutchar s (.cpu other))
        rw [step_poll _ _ htodo hpc, read_rx] at hrest
        rw [run_cons, step_poll _ _ htodo hpc, read_rx]
        simp only [List.length_tail, arrivals_cpu] at hrest ⊢
        omega
      | store =>
        have hlen : 1 < s.todo.length := hpoll.resolve_left (by simp [hpc])
        rw [run_cons, step_store _ _ htodo hpc] at hdone ⊢
        refine ih _ ⟨?_, .inl rfl⟩ hrx hdone
        rw [htodo] at hlen
        exact List.length_pos_iff.mp (Nat.lt_of_succ_lt_succ hlen)

/-! ### Clean runs -/

/-- A run overwrites nothing and eats nothing. -/
def Unharmed (s : Sys Byte Uart) (schedule : Schedule) : Prop :=
  Safe ns16550 uartPutchar Uart.port s schedule ∧
    (run ns16550 uartPutchar s schedule).dev.rx = s.dev.rx ++ arrivals schedule

theorem unharmed_nil (s : Sys Byte Uart) : Unharmed s [] := ⟨trivial, (List.append_nil _).symm⟩

theorem unharmed_drain (s : Sys Byte Uart) (cs : Schedule) :
    Unharmed s (.device .drain :: cs) ↔ Unharmed ⟨s.todo, s.pc, ⟨s.dev.port.drain, s.dev.rx⟩⟩ cs := by
  rw [Unharmed, safe_device, step_drain, run_cons, step_drain, arrivals_drain]
  rfl

theorem unharmed_arrive (s : Sys Byte Uart) (b : Byte) (cs : Schedule) :
    Unharmed s (.device (.arrive b) :: cs) ↔ Unharmed ⟨s.todo, s.pc, ⟨s.dev.port, s.dev.rx ++ [b]⟩⟩ cs := by
  rw [Unharmed, safe_device, step_arrive, run_cons, step_arrive, arrivals_arrive, Unharmed, List.append_assoc]
  rfl

theorem unharmed_poll {s : Sys Byte Uart} (htodo : s.todo ≠ []) (hpc : s.pc = .poll) (hrx : s.dev.rx = [])
    (other : Byte) (cs : Schedule) : Unharmed s (.cpu other :: cs) ↔ Unharmed { s with pc := .store } cs := by
  obtain ⟨c, todo, htodo⟩ := List.exists_cons_of_ne_nil htodo
  rw [Unharmed, safe_poll _ _ _ hpc, run_cons, poll_empty htodo hpc hrx, arrivals_cpu]
  rfl

theorem unharmed_store {c : Byte} {todo : List Byte} {u : Uart} (other : Byte) (cs : Schedule) :
    Unharmed ⟨c :: todo, .store, u⟩ (.cpu other :: cs) ↔
      u.port.holding = none ∧ Unharmed ⟨todo, .poll, ⟨u.port.store c, u.rx⟩⟩ cs := by
  have hstep : step ns16550 uartPutchar ⟨c :: todo, .store, u⟩ (.cpu other) =
      ⟨todo, .poll, ⟨u.port.store c, u.rx⟩⟩ := step_store _ _ rfl rfl other
  rw [Unharmed, safe_store _ _ _ (List.cons_ne_nil c todo) rfl, run_cons, hstep, arrivals_cpu, and_assoc]
  rfl

theorem unharmed_finished (schedule : Schedule) : ∀ s : Sys Byte Uart, s.todo = [] → Unharmed s schedule := by
  induction schedule with
  | nil => exact fun s _ => unharmed_nil s
  | cons c cs ih =>
    intro s htodo
    cases c with
    | device e =>
      cases e with
      | drain => exact (unharmed_drain s cs).mpr (ih _ htodo)
      | arrive b => exact (unharmed_arrive s b cs).mpr (ih _ htodo)
    | cpu other =>
      obtain ⟨hsafe, hrx⟩ := ih s htodo
      have hstep : step ns16550 uartPutchar s (.cpu other) = s := step_finished _ _ htodo other
      refine ⟨⟨fun hover => hover.1 htodo, hstep.symm ▸ hsafe⟩, ?_⟩
      rw [run_cons, hstep, hrx, arrivals_cpu]

theorem not_unharmed {s : Sys Byte Uart} {schedule : Schedule} (hleft : PollLeft s) (hrx : s.dev.rx ≠ [])
    (hdone : (run ns16550 uartPutchar s schedule).todo = []) : ¬ Unharmed s schedule := by
  intro h
  have hlt := rx_lt schedule s hleft hrx hdone
  rw [h.2, List.length_append] at hlt
  exact absurd hlt (Nat.lt_irrefl _)

/-- A run whose calls return does no harm exactly when its schedule is paced. At each step the queue is empty
or no poll is left. -/
theorem unharmed_iff (schedule : Schedule) : ∀ s : Sys Byte Uart, (PollLeft s → s.dev.rx = []) →
    (run ns16550 uartPutchar s schedule).todo = [] →
    (Unharmed s schedule ↔ paced s.dev.port.holding.isSome s.pc s.todo.length schedule = true) := by
  induction schedule with
  | nil => exact fun s _ _ => ⟨fun _ => rfl, fun _ => unharmed_nil s⟩
  | cons c cs ih =>
    rintro ⟨todo, pc, port, rx⟩ hrx hdone
    cases todo with
    | nil => exact ⟨fun _ => rfl, fun _ => unharmed_finished (c :: cs) _ rfl⟩
    | cons x todo =>
      cases c with
      | device e =>
        cases e with
        | drain =>
          rw [unharmed_drain, ih ⟨x :: todo, pc, ⟨port.drain, rx⟩⟩ hrx hdone, Port.holding_drain]
          rfl
        | arrive b =>
          rw [unharmed_arrive]
          show _ ↔ (decide (pc = .store) && decide (todo.length = 0) && paced _ _ _ cs) = true
          rw [Bool.and_eq_true, Bool.and_eq_true, decide_eq_true_eq, decide_eq_true_eq, ← not_pollLeft]
          by_cases hleft : PollLeft ⟨x :: todo, pc, ⟨port, rx⟩⟩
          · have hharm := not_unharmed (s := ⟨x :: todo, pc, ⟨port, rx ++ [b]⟩⟩) hleft (by simp) hdone
            exact ⟨fun h => absurd h hharm, fun h => absurd hleft h.1⟩
          · rw [ih ⟨x :: todo, pc, ⟨port, rx ++ [b]⟩⟩ (fun h => absurd h hleft) hdone]
            exact (and_iff_right hleft).symm
      | cpu other =>
        cases pc with
        | poll =>
          have hempty : rx = [] := hrx ⟨List.cons_ne_nil x todo, .inl rfl⟩
          have hstep : step ns16550 uartPutchar ⟨x :: todo, .poll, ⟨port, rx⟩⟩ (.cpu other) =
              ⟨x :: todo, .store, ⟨port, rx⟩⟩ := poll_empty rfl rfl hempty other
          rw [run_cons, hstep] at hdone
          rw [unharmed_poll (List.cons_ne_nil x todo) rfl hempty, ih _ (fun _ => hempty) hdone]
          rfl
        | store =>
          have hstep : step ns16550 uartPutchar ⟨x :: todo, .store, ⟨port, rx⟩⟩ (.cpu other) =
              ⟨todo, .poll, ⟨port.store x, rx⟩⟩ := step_store _ _ rfl rfl other
          rw [run_cons, hstep] at hdone
          have hnext : PollLeft ⟨todo, .poll, ⟨port.store x, rx⟩⟩ → rx = [] := fun hleft =>
            hrx ⟨List.cons_ne_nil x todo, .inr (Nat.succ_lt_succ (List.length_pos_iff.mpr hleft.1))⟩
          rw [unharmed_store, ih _ hnext hdone]
          show _ ↔ (!port.holding.isSome && paced true .poll todo.length cs) = true
          rw [Bool.and_eq_true, Bool.not_eq_true', Option.isSome_eq_false_iff, Option.isNone_iff_eq_none]
          rfl

/-- **A run whose calls return is clean exactly when its schedule is paced.** -/
theorem clean_iff (chars : List Byte) (schedule : Schedule)
    (hdone : (run ns16550 uartPutchar (start chars) schedule).todo = []) :
    Clean chars schedule ↔ paced false .poll chars.length schedule = true := by
  have hiff := unharmed_iff schedule (start chars) (fun _ => rfl) hdone
  rw [← show _ ↔ paced false .poll chars.length schedule = true from hiff]
  constructor
  · rintro ⟨hsafe, -, hreceived⟩
    exact ⟨hsafe, hreceived⟩
  · rintro ⟨hsafe, hrx⟩
    have hsent := sent_run transmits schedule _ hsafe
    rw [hdone, List.append_nil] at hsent
    exact ⟨hsafe, hsent, hrx⟩

theorem clean_iff_hi : Clean [ch 'h', ch 'i']
    [.cpu 0, .cpu 0, .device .drain, .cpu 0, .device (.arrive 7), .cpu 0] :=
  (clean_iff [ch 'h', ch 'i'] [.cpu 0, .cpu 0, .device .drain, .cpu 0, .device (.arrive 7), .cpu 0]
    (by decide)).mpr (by decide)

/-- Two characters sent as fast as the loop allows, and one byte received: the first character is
overwritten. -/
theorem not_clean_burst :
    let schedule : Schedule := [.device (.arrive 7), .cpu 0, .cpu 0, .cpu 0, .cpu 0, .cpu 0]
    let s := run ns16550 uartPutchar (start [ch 'h', ch 'i']) schedule
    s.todo = [] ∧ s.dev.port.sent = [ch 'i'] ∧ s.dev.rx = [] ∧ ¬ Clean [ch 'h', ch 'i'] schedule := by
  refine ⟨by decide, by decide, by decide, fun h => ?_⟩
  exact absurd h.sent (by decide)

end QDNix.Riscv
