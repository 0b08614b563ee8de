import QDNix.Dev.Device
import QDNix.Lib.Polled

/-!
# The UART of the Cortex-A7

`uart_putchar` of `arm/soc/cortex-a7/uart.c` and the UART0 it talks to, whose registers have 32 bits. The
8250 driver polls until bit 5 of the line status is set; here the test is the other way round, and a call
waits for the register to fill. From an empty register it waits for ever: no schedule moves the system
(`run_start`). So the protocol is followed only for as long as the CPU has not come to a poll
(`follows_iff`).
-/

namespace QDNix.Arm

open Transmit Polled

def UART0_BASE_ADDR : BitVec 32 := 0x01C28000

def UART0 (x : BitVec 32) : BitVec 32 := UART0_BASE_ADDR + x

def UART_TRANSMIT_HOLDING_REG : BitVec 32 := 0x00

def UART_LINE_STATUS_REG : BitVec 32 := 0x14

/-- `uart_putchar` -/
def uartPutchar (c : Byte) : PollStore (BitVec 32) (BitVec 32) where
  statusAddr := UART0 UART_LINE_STATUS_REG
  busy status := status &&& ((1 : BitVec 32) <<< 5) > (0 : BitVec 32)
  dataAddr := UART0 UART_TRANSMIT_HOLDING_REG
  value := c.setWidth 32

/-- The line status: bit 5 is set exactly when the holding register is empty, the others are anything. -/
def lineStatus (p : Port Byte) (other : BitVec 32) : BitVec 32 :=
  if p.holding = none then other ||| 0x20 else other &&& ~~~0x20

def uart0 : Device (Port Byte) (BitVec 32) (BitVec 32) (BitVec 32) Unit where
  move p _ := p.drain
  read p addr other := (if addr = UART0 UART_LINE_STATUS_REG then lineStatus p other else other, p)
  write p addr v := if addr = UART0 UART_TRANSMIT_HOLDING_REG then p.store (v.setWidth 8) else p

/-- No call begun, the register empty. -/
def start (chars : List Byte) : Sys Byte (Port Byte) := ⟨chars, .poll, .idle⟩

/-- The next step is a status read that finds the register empty. -/
def FindsEmpty (s : Sys Byte (Port Byte)) : Choice (BitVec 32) Unit → Prop
  | .device _ => False
  | .cpu _ => s.todo ≠ [] ∧ s.pc = .poll ∧ s.dev.holding = none

/-- The protocol of the 8250 driver, along a run: no store to a full register, the characters in order and
none lost, and a call goes on to its store once it has found the register empty. -/
structure Follows (chars : List Byte) (schedule : List (Choice (BitVec 32) Unit)) : Prop where
  safe : Safe uart0 uartPutchar id (start chars) schedule
  delivers : (run uart0 uartPutchar (start chars) schedule).dev.sent ++
    (run uart0 uartPutchar (start chars) schedule).todo = chars
  proceeds : Always uart0 uartPutchar (fun s c => FindsEmpty s c → (step uart0 uartPutchar s c).pc = .store)
    (start chars) schedule

theorem busy_iff (p : Port Byte) (c : Byte) (other : BitVec 32) :
    (uartPutchar c).busy (lineStatus p other) = true ↔ p.holding = none := by
  have hpos : (uartPutchar c).busy (lineStatus p other) = true ↔ lineStatus p other &&& 0x20 ≠ 0 := by
    rw [uartPutchar, decide_eq_true_eq, gt_iff_lt, BitVec.lt_def, Ne, ← BitVec.toNat_inj]
    exact Nat.pos_iff_ne_zero
  rw [hpos, lineStatus]
  by_cases h : p.holding = none
  · simp only [h, if_true, iff_true]
    intro hzero
    have hbit := congrArg (fun b : BitVec 32 => b.getLsbD 5) hzero
    simp at hbit
  · simp only [h, if_false, iff_false, ne_eq, Classical.not_not]
    rw [BitVec.and_assoc]
    exact BitVec.and_zero

theorem step_start (chars : List Byte) (choice : Choice (BitVec 32) Unit) :
    step uart0 uartPutchar (start chars) choice = start chars := by
  cases choice with
  | device => rfl
  | cpu other =>
    cases chars with
    | nil => exact step_finished uart0 uartPutchar rfl other
    | cons c chars =>
      have hread : uart0.read .idle (uartPutchar c).statusAddr other = (lineStatus .idle other, .idle) := rfl
      have hbusy := (busy_iff .idle c other).mpr rfl
      rw [step_poll uart0 uartPutchar rfl rfl]
      simp only [start, hread, hbusy, if_true]

/-- **From an empty register nothing ever happens**, whatever is to be sent. -/
theorem run_start (chars : List Byte) (schedule : List (Choice (BitVec 32) Unit)) :
    run uart0 uartPutchar (start chars) schedule = start chars :=
  run_fixed (step_start chars) schedule

/-- **The protocol is followed while the CPU makes no access**, or if there is nothing to send. -/
theorem follows_iff (chars : List Byte) (schedule : List (Choice (BitVec 32) Unit)) :
    Follows chars schedule ↔ chars = [] ∨ ∀ choice ∈ schedule, choice = .device () := by
  constructor
  · rintro ⟨-, -, hproceeds⟩
    rw [always_fixed (step_start chars)] at hproceeds
    by_cases hchars : chars = []
    · exact .inl hchars
    · refine .inr fun choice hchoice => ?_
      cases choice with
      | device => rfl
      | cpu other =>
        have hstore := hproceeds _ hchoice ⟨hchars, rfl, rfl⟩
        rw [step_start] at hstore
        cases hstore
  · intro h
    refine ⟨?_, by rw [run_start]; rfl, ?_⟩
    · refine (always_fixed (step_start chars) schedule).mpr fun choice _ => ?_
      cases choice with
      | device => exact id
      | cpu other => exact fun hover => Pc.noConfusion hover.2.1
    · refine (always_fixed (step_start chars) schedule).mpr fun choice hchoice hfinds => ?_
      rcases h with rfl | h
      · cases choice with
        | device => exact hfinds.elim
        | cpu other => exact absurd rfl hfinds.1
      · rw [h choice hchoice] at hfinds
        exact hfinds.elim

/-- One character and one access: the register is found empty, and the call goes on waiting. -/
theorem not_follows_poll : ¬ Follows [ch 'c'] [.cpu 0] := by
  rintro ⟨-, -, hproceeds, -⟩
  exact absurd (hproceeds ⟨by decide, rfl, rfl⟩) (by decide)

end QDNix.Arm
