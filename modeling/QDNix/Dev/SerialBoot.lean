import QDNix.Dev.Serial8250Init
import QDNix.Dev.Serial8250Live

/-!
# A boot on the serial line

The CPU first makes the stores of `serial_8250_init`, without a look at the line status, and then the calls of
the driver; the UART moves whenever it likes. Here a store to offset 0 goes to the transmit register only
with DLAB clear. Once `serial_8250_init` is through DLAB is clear, so from there on the system is the one of
the driver alone (`cpuStep_sys`).

The transmit register may hold a byte from before. What that and the stores of the initialisation leave on the line
is `Lossy`: a byte stored before the UART took the one before it replaces it. The text of the calls follows unharmed
(`boot_line`).
-/

namespace QDNix.Dev

open Transmit Fairness Traced

variable {W : Nat} (bus : Bus) (dev : SerialDevice W)

/-- The stores of `serial_8250_init` still to be made, the calls behind them with the transmit register, and the
other registers. -/
structure Boot (W : Nat) where
  pending : List (BusWrite W)
  sys : Sys
  uart : Uart W

/-- The transmit register after a store. -/
def thrStore (u : Uart W) (p : Port Byte) (w : BusWrite W) : Port Byte :=
  if regOf bus dev w.addr = some 0 ∧ u.regs.dlab = false then p.store w.value else p

def Boot.cpuStep (b : Boot W) (other : Byte) : Boot W :=
  match b.pending with
  | w :: ws =>
    { pending := ws
      sys := { b.sys with port := thrStore bus dev b.uart b.sys.port w }
      uart := b.uart.step bus dev w }
  | [] =>
    match b.sys.frame with
    | none => { b with sys := Dev.cpuStep bus dev b.sys other }
    | some f =>
      match serial8250Write bus dev f with
      | .write addr v f' =>
        { b with
          sys := { b.sys with frame := some f', port := thrStore bus dev b.uart b.sys.port ⟨addr, v⟩ }
          uart := b.uart.step bus dev ⟨addr, v⟩ }
      | _ => { b with sys := Dev.cpuStep bus dev b.sys other }

def Boot.step (b : Boot W) : Choice → Boot W
  | .uart => { b with sys := { b.sys with port := b.sys.port.drain } }
  | .cpu other => b.cpuStep bus dev other

/-- The registers as they are found, the transmit register included, and everything still to be done. -/
def Boot.start (stores : List (BusWrite W)) (regs : Regs) (held : Option Byte) (calls : List WriteArgs) : Boot W :=
  ⟨stores, { Sys.start calls with port := ⟨held, []⟩ }, ⟨regs, [], []⟩⟩

def Boot.Finished (b : Boot W) : Prop := b.pending = [] ∧ b.sys.Finished

/-! ### With DLAB clear -/

theorem write_addr {f f' : Frame} {addr : BitVec W} {v : Byte} (h : serial8250Write bus dev f = .write addr v f') :
    addr = regAddr bus dev UART8250_THR := by
  unfold serial8250Write pollBufferEmpty at h
  cases hpc : f.pc with
  | test =>
    rw [hpc] at h
    simp only at h
    split at h
    · split at h <;> cases h
    · cases h
  | pollCr => simp [hpc] at h
  | pollChar => simp [hpc] at h
  | storeCr =>
    simp only [hpc, Access.write.injEq] at h
    exact h.1.symm
  | storeChar =>
    simp only [hpc, Access.write.injEq] at h
    exact h.1.symm

section Driver

variable (hW : 16 ≤ W) (hoff : dev.regOffset.toNat ≤ 2)

include hW hoff

/-- **Behind the initialisation the boot is the driver's system**, and DLAB stays clear. -/
theorem cpuStep_sys {b : Boot W} (hpending : b.pending = []) (hdlab : b.uart.regs.dlab = false) (other : Byte) :
    (b.cpuStep bus dev other).pending = [] ∧ (b.cpuStep bus dev other).sys = Dev.cpuStep bus dev b.sys other ∧
      (b.cpuStep bus dev other).uart.regs.dlab = false := by
  obtain ⟨pending, sys, uart⟩ := b
  simp only at hpending hdlab
  subst hpending
  unfold Boot.cpuStep
  cases hframe : sys.frame with
  | none => exact ⟨rfl, rfl, hdlab⟩
  | some f =>
    simp only
    cases hwrite : serial8250Write bus dev f with
    | internal f' => exact ⟨rfl, rfl, hdlab⟩
    | read addr next => exact ⟨rfl, rfl, hdlab⟩
    | ret value => exact ⟨rfl, rfl, hdlab⟩
    | write addr v f' =>
      obtain rfl := write_addr bus dev hwrite
      have hreg : regOf bus dev (regAddr bus dev UART8250_THR) = some 0 :=
        regOf_regAddr bus dev hW hoff (show UART8250_THR < 8 by decide)
      have hstep := step_regAddr bus dev hW hoff (show UART8250_THR < 8 by decide) uart v
      have hstore : (uart.store UART8250_THR v).regs.dlab = false := by simp [Uart.store, UART8250_THR, hdlab]
      refine ⟨rfl, ?_, (congrArg (fun u : Uart W => u.regs.dlab) hstep).trans hstore⟩
      simp [Dev.cpuStep, hframe, hwrite, uartWrite, thrStore, hreg, hdlab]

end Driver

/-! ### The run -/

variable (stores : List (BusWrite W)) (regs : Regs) (held : Option Byte) (calls : List WriteArgs)

/-- The device once the stores are through. -/
def uartSet : Uart W := Uart.run bus dev ⟨regs, [], []⟩ stores

/-- Either some stores are pending, and what the register held and the others stored is on the line or in the register
except for what was replaced; or all are through, and the line, the register and what the driver has still to send
make up such a remainder and the text. -/
inductive Boot.Inv (b : Boot W) : Prop
  | setting (past : List (BusWrite W)) (port : Port Byte) (hpast : past ++ b.pending = stores)
      (hpending : b.pending ≠ []) (huart : b.uart = Uart.run bus dev ⟨regs, [], []⟩ past)
      (hsys : b.sys = ⟨calls, none, [], port⟩) (hlossy : Port.Lossy (held.toList ++ b.uart.sent) port.sent)
  | sending (stray : List Byte) (hpending : b.pending = []) (hdlab : b.uart.regs.dlab = false)
      (hinv : b.sys.Inv calls) (hlossy : Port.Lossy (held.toList ++ (uartSet bus dev stores regs).sent) stray)
      (hsent : b.sys.port.sent ++ b.sys.sender.todo = stray ++ crlf (calls.flatMap WriteArgs.text))

theorem sent_step (u : Uart W) (w : BusWrite W) :
    (u.step bus dev w).sent = if regOf bus dev w.addr = some 0 ∧ u.regs.dlab = false then u.sent ++ [w.value]
      else u.sent := by
  unfold Uart.step
  cases hreg : regOf bus dev w.addr with
  | none => simp
  | some reg =>
    by_cases hzero : reg = 0
    · subst hzero
      by_cases hdlab : u.regs.dlab = false <;> simp [Uart.store, hdlab]
    · rw [if_neg (by simp [hzero])]
      exact sent_store u hzero w.value

theorem lossy_thrStore {before : List Byte} {u : Uart W} {p : Port Byte} (h : Port.Lossy (before ++ u.sent) p.sent)
    (w : BusWrite W) : Port.Lossy (before ++ (u.step bus dev w).sent) (thrStore bus dev u p w).sent := by
  rw [sent_step, thrStore]
  by_cases hthr : regOf bus dev w.addr = some 0 ∧ u.regs.dlab = false
  · rw [if_pos hthr, if_pos hthr, ← List.append_assoc]
    exact Port.lossy_store h w.value
  · rw [if_neg hthr, if_neg hthr]
    exact h

theorem inv_waiting (port : Port Byte) : Sys.Inv calls ⟨calls, none, [], port⟩ :=
  ⟨by simp, by simp, by simp, by simp⟩

variable {stores regs held calls} (hclear : (uartSet bus dev stores regs).regs.dlab = false)

theorem inv_setting {past pending : List (BusWrite W)} {port : Port Byte} (hpast : past ++ pending = stores)
    (hclear : (uartSet bus dev stores regs).regs.dlab = false)
    (hlossy : Port.Lossy (held.toList ++ (Uart.run bus dev ⟨regs, [], []⟩ past).sent) port.sent) :
    Boot.Inv bus dev stores regs held calls ⟨pending, ⟨calls, none, [], port⟩, Uart.run bus dev ⟨regs, [], []⟩ past⟩ := by
  cases pending with
  | nil =>
    rw [List.append_nil] at hpast
    subst hpast
    refine .sending port.sent rfl hclear (inv_waiting calls port) hlossy ?_
    simp [Sys.sender, crlf_flatMap]
  | cons w ws => exact .setting past port hpast (List.cons_ne_nil w ws) rfl rfl hlossy

include hclear

variable (held calls) in
theorem inv_boot : (Boot.start stores regs held calls).Inv bus dev stores regs held calls := by
  apply inv_setting bus dev (List.nil_append stores) hclear
  have hnone : held.toList ++ (Uart.run bus dev ⟨regs, [], []⟩ []).sent = held.toList := List.append_nil _
  rw [hnone]
  exact Port.lossy_refl held.toList

variable (hW : 16 ≤ W) (hoff : dev.regOffset.toNat ≤ 2)

include hW hoff

theorem boot_step_inv {b : Boot W} (hb : b.Inv bus dev stores regs held calls) (choice : Choice) :
    (b.step bus dev choice).Inv bus dev stores regs held calls := by
  cases hb with
  | setting past port hpast hpending huart hsys hlossy =>
    obtain ⟨pending, sys, uart⟩ := b
    simp only at hpast hpending huart hsys hlossy
    subst hsys huart
    cases choice with
    | uart => exact .setting past port.drain hpast hpending rfl rfl (by rwa [Port.sent_drain])
    | cpu other =>
      cases pending with
      | nil => exact absurd rfl hpending
      | cons w ws =>
        have hrun : (Uart.run bus dev ⟨regs, [], []⟩ past).step bus dev w =
            Uart.run bus dev ⟨regs, [], []⟩ (past ++ [w]) := by
          rw [Uart.run, Uart.run, List.foldl_append, List.foldl_cons, List.foldl_nil]
        have hlossy' := lossy_thrStore bus dev hlossy w
        simp only [Boot.step, Boot.cpuStep, hrun] at hlossy' ⊢
        exact inv_setting bus dev (by simpa using hpast) hclear hlossy'
  | sending stray hpending hdlab hinv hlossy hsent =>
    cases choice with
    | uart =>
      refine .sending stray hpending hdlab (sysStep_sends bus dev hinv .uart).1 hlossy ?_
      simp only [Boot.step, Port.sent_drain]
      exact hsent
    | cpu other =>
      obtain ⟨hpending', hsys, hdlab'⟩ := cpuStep_sys bus dev hW hoff hpending hdlab other
      obtain ⟨hinv', hsends⟩ := sysStep_sends bus dev hinv (.cpu other)
      have hkept := Sender.steps_conserve hsends
      refine .sending stray hpending' hdlab' ?_ hlossy ?_
      · rw [Boot.step, hsys]
        exact hinv'
      · rw [Boot.step, hsys]
        exact hkept.trans hsent

/-! ### Fair schedules -/

/-- What the CPU has still to do, stores and driver. -/
def Boot.left (b : Boot W) : Nat := b.pending.length + b.sys.left

omit hclear hW hoff in
theorem boot_left_eq_zero {b : Boot W} : b.left = 0 ↔ b.Finished := by
  unfold Boot.left Boot.Finished
  rw [← left_eq_zero, ← List.length_eq_zero_iff]
  omega

/-- Waiting for the register; the initialisation never does. -/
def Boot.Waits (b : Boot W) : Prop := b.pending = [] ∧ b.sys.port.holding ≠ none

omit hclear hW hoff in
theorem left_setting {b : Boot W} {w : BusWrite W} {ws : List (BusWrite W)} (hpending : b.pending = w :: ws)
    (other : Byte) : (b.cpuStep bus dev other).left + 1 = b.left := by
  unfold Boot.cpuStep
  rw [Boot.left, Boot.left, hpending]
  simp only [List.length_cons, Sys.left]
  omega

omit hclear in
theorem left_sending {b : Boot W} (hpending : b.pending = []) (hdlab : b.uart.regs.dlab = false) (other : Byte) :
    b.left = b.sys.left ∧ (b.cpuStep bus dev other).left = (Dev.cpuStep bus dev b.sys other).left ∧
      ((b.cpuStep bus dev other).Waits ↔ (Dev.cpuStep bus dev b.sys other).port.holding ≠ none) := by
  obtain ⟨hpending', hsys, -⟩ := cpuStep_sys bus dev hW hoff hpending hdlab other
  refine ⟨?_, ?_, ?_⟩
  · simp [Boot.left, hpending]
  · simp [Boot.left, hpending', hsys]
  · simp [Boot.Waits, hpending', hsys]

theorem boot_drives :
    Drives (Boot.step bus dev) (· = .uart) (· ≠ .uart) (Boot.Inv bus dev stores regs held calls) Boot.Waits Boot.left where
  inv b choice hb := boot_step_inv bus dev hclear hW hoff hb choice
  mono b choice hb := by
    cases choice with
    | uart => exact Nat.le_refl _
    | cpu other =>
      rw [Boot.step]
      cases hb with
      | setting past port _ hpending _ _ _ =>
        obtain ⟨w, ws, hcons⟩ := List.exists_cons_of_ne_nil hpending
        have hleft := left_setting bus dev hcons other
        omega
      | sending stray hpending hdlab hinv _ _ =>
        obtain ⟨hleft, hleft', -⟩ := left_sending bus dev hW hoff hpending hdlab other
        rw [hleft, hleft']
        exact (drives bus dev calls).mono b.sys (.cpu other) hinv
  frees b choice _ huart hwaits := by
    rw [huart] at hwaits
    exact hwaits.2 (Port.holding_drain _)
  moves b choice hb hcpu hfree hpos := by
    cases choice with
    | uart => exact absurd rfl hcpu
    | cpu other =>
      rw [Boot.step]
      cases hb with
      | setting past port _ hpending _ _ _ =>
        obtain ⟨w, ws, hcons⟩ := List.exists_cons_of_ne_nil hpending
        have hleft := left_setting bus dev hcons other
        omega
      | sending stray hpending hdlab hinv _ _ =>
        obtain ⟨hleft, hleft', -⟩ := left_sending bus dev hW hoff hpending hdlab other
        rw [hleft] at hpos
        rw [hleft, hleft']
        exact (drives bus dev calls).moves b.sys (.cpu other) hinv hcpu (fun hfull => hfree ⟨hpending, hfull⟩) hpos
  stays b choice hb hfree hleft := by
    cases choice with
    | uart => exact fun hwaits => hwaits.2 (Port.holding_drain _)
    | cpu other =>
      rw [Boot.step] at hleft ⊢
      cases hb with
      | setting past port _ hpending _ _ _ =>
        obtain ⟨w, ws, hcons⟩ := List.exists_cons_of_ne_nil hpending
        have hlower := left_setting bus dev hcons other
        omega
      | sending stray hpending hdlab hinv _ _ =>
        obtain ⟨hsame, hsame', hwaits⟩ := left_sending bus dev hW hoff hpending hdlab other
        rw [hwaits]
        rw [hsame, hsame'] at hleft
        exact (drives bus dev calls).stays b.sys (.cpu other) hinv (fun hfull => hfree ⟨hpending, hfull⟩) hleft

omit hclear hW hoff in
theorem boot_fixed {b : Boot W} (hdone : b.Finished) (hempty : b.sys.port.holding = none) (choice : Choice) :
    b.step bus dev choice = b := by
  obtain ⟨pending, ⟨calls, frame, returned, holding, line⟩, uart⟩ := b
  obtain ⟨rfl, rfl, rfl⟩ := hdone
  obtain rfl : holding = none := hempty
  cases choice with
  | uart => rfl
  | cpu other => rfl

variable (held calls) in
/-- **Under every fair schedule a boot finishes**, and the line ends up with what the THR held and the initialisation
stored there, less what was replaced before the UART took it, and then the text of the calls with CR LF for each
line feed. -/
theorem boot_line {f : Nat → Choice} (hf : Fair (· = .uart) (· ≠ .uart) f) :
    ∃ stray, Port.Lossy (held.toList ++ (uartSet bus dev stores regs).sent) stray ∧ ∃ n, ∀ m, n ≤ m →
      (after (Boot.step bus dev) (Boot.start stores regs held calls) f m).Finished ∧
      (after (Boot.step bus dev) (Boot.start stores regs held calls) f m).sys.port =
        ⟨none, stray ++ crlf (calls.flatMap WriteArgs.text)⟩ := by
  have hdrives : Drives (Boot.step bus dev) (· = .uart) (· ≠ .uart) (Boot.Inv bus dev stores regs held calls) _ _ :=
    boot_drives bus dev hclear hW hoff
  have hstart := inv_boot bus dev held calls hclear
  obtain ⟨n, hn⟩ := hdrives.done hstart hf
  have hinv := hdrives.inv_after hstart f n
  have hstop : ∀ m, n ≤ m → after (Boot.step bus dev) (Boot.start stores regs held calls) f m =
      after (Boot.step bus dev) (Boot.start stores regs held calls) f n := by
    intro m hnm
    obtain ⟨hleft, hfree⟩ := hn n (Nat.le_refl n)
    have hdone := boot_left_eq_zero.mp hleft
    refine after_fixed hnm (boot_fixed bus dev hdone ?_)
    exact Classical.not_not.mp fun hfull => hfree ⟨hdone.1, hfull⟩
  obtain ⟨hleft, hfree⟩ := hn n (Nat.le_refl n)
  have hdone := boot_left_eq_zero.mp hleft
  cases hinv with
  | setting past port _ hpending _ _ _ => exact absurd hdone.1 hpending
  | sending stray hpending hdlab hinv hlossy hsent =>
    refine ⟨stray, hlossy, n, fun m hnm => ?_⟩
    rw [hstop m hnm]
    refine ⟨hdone, ?_⟩
    generalize after (Boot.step bus dev) (Boot.start stores regs held calls) f n = b at hdone hfree hsent
    have hempty : b.sys.port.holding = none := Classical.not_not.mp fun hfull => hfree ⟨hdone.1, hfull⟩
    simp only [Sys.sender, hdone.2.1, hdone.2.2, Option.map_none, Option.getD_none, List.flatMap_nil,
      List.append_nil, Port.sent, hempty, Option.toList_none] at hsent
    generalize b.sys.port = port at hempty hsent ⊢
    obtain ⟨holding, line⟩ := port
    simp only at hempty hsent
    rw [hempty, hsent]

end QDNix.Dev
