import QDNix.Dev.Serial8250Stream
import QDNix.Lib.Fairness

/-!
# The 8250 driver returns

`serial_8250_write` waits for the UART before each byte, so whether it returns is up to the schedule. `Sys.left`
counts the steps the CPU has still to make; each of its steps lowers the count by one, except a poll that
finds the register full (`cpuStep_gains`). The UART empties the register whenever it moves, so under every
fair schedule all calls return and their whole text reaches the line (`write_finishes`).
-/

namespace QDNix.Dev

open Transmit Fairness

variable {W : Nat} (bus : Bus) (dev : SerialDevice W)

/-! ### Steps left -/

/-- The loop test, and a poll and a store for each byte. -/
def charSteps (c : Byte) : Nat := if c = ch '\n' then 5 else 3

def textSteps : List Byte → Nat
  | [] => 0
  | c :: text => charSteps c + textSteps text

/-- What the running call has still to do, its return included. -/
def Frame.left (f : Frame) : Nat :=
  match f.pc with
  | .test => textSteps (f.args.text.drop f.idx) + 1
  | .pollCr => textSteps (f.args.text.drop (f.idx + 1)) + 5
  | .storeCr => textSteps (f.args.text.drop (f.idx + 1)) + 4
  | .pollChar => textSteps (f.args.text.drop (f.idx + 1)) + 3
  | .storeChar => textSteps (f.args.text.drop (f.idx + 1)) + 2

def callsLeft : List WriteArgs → Nat
  | [] => 0
  | args :: calls => textSteps args.text + 2 + callsLeft calls

def Sys.left (s : Sys) : Nat := (s.frame.map Frame.left).getD 0 + callsLeft s.calls

theorem left_running {s : Sys} {f : Frame} (hframe : s.frame = some f) : s.left = f.left + callsLeft s.calls := by
  simp [Sys.left, hframe]

theorem Frame.left_pos (f : Frame) : 0 < f.left := by
  unfold Frame.left
  split <;> omega

theorem left_eq_zero {s : Sys} : s.left = 0 ↔ s.Finished := by
  unfold Sys.left Sys.Finished
  constructor
  · intro hzero
    cases hframe : s.frame with
    | none =>
      cases hcalls : s.calls with
      | nil => exact ⟨rfl, rfl⟩
      | cons args calls =>
        rw [hcalls, callsLeft] at hzero
        omega
    | some f =>
      have hpos := f.left_pos
      rw [hframe, Option.map_some, Option.getD_some] at hzero
      omega
  · rintro ⟨hcalls, hframe⟩
    simp [hcalls, hframe, callsLeft]

/-! ### One step -/

/-- A step of the CPU does one step of its work, or is a poll that finds the register full. -/
def Gains (s s' : Sys) : Prop := s'.left + 1 = s.left ∨ s' = s ∧ s.port.holding ≠ none

theorem gains_internal {s : Sys} {f f' : Frame} (hframe : s.frame = some f) (hleft : f'.left + 1 = f.left) :
    Gains s { s with frame := some f' } := by
  refine .inl ?_
  rw [left_running hframe, left_running (f := f') rfl]
  simp only
  omega

theorem gains_store {s : Sys} {f f' : Frame} {port : Port Byte} (hframe : s.frame = some f)
    (hleft : f'.left + 1 = f.left) : Gains s { s with frame := some f', port := port } := by
  refine .inl ?_
  rw [left_running hframe, left_running (f := f') rfl]
  simp only
  omega

theorem gains_poll {s : Sys} {f : Frame} (hframe : s.frame = some f) (ready : Pc)
    (hpoll : serial8250Write bus dev f = pollBufferEmpty bus dev f ready)
    (hleft : Frame.left { f with pc := ready } + 1 = f.left) (other : Byte) :
    Gains s (cpuStep bus dev s other) := by
  have hstep : cpuStep bus dev s other =
      if lineStatus s.port other &&& 0x20 = 0 then s else { s with frame := some { f with pc := ready } } := by
    simp only [cpuStep, hframe, hpoll, pollBufferEmpty, uartRead, if_true]
    split
    · rw [← hframe]
    · rfl
  rw [hstep]
  by_cases hbit : lineStatus s.port other &&& 0x20 = 0
  · rw [if_pos hbit]
    exact .inr ⟨rfl, (lineStatus_ready s.port other).mp hbit⟩
  · rw [if_neg hbit]
    exact gains_internal hframe hleft

theorem gains_test {s : Sys} {f : Frame} (hframe : s.frame = some f) (hpc : f.pc = .test)
    (hle : f.idx ≤ f.args.size) (other : Byte) : Gains s (cpuStep bus dev s other) := by
  by_cases hidx : f.idx < f.args.size
  · have hdrop := drop_text hidx
    obtain ⟨pc, hinternal, hleft⟩ : ∃ pc, serial8250Write bus dev f = .internal { f with pc := pc } ∧
        Frame.left { f with pc := pc } + 1 = f.left := by
      by_cases hlf : f.char = ch '\n'
      · refine ⟨.pollCr, by simp [serial8250Write, hpc, hidx, hlf], ?_⟩
        simp only [Frame.left, hpc, hdrop, textSteps, charSteps, if_pos hlf]
        omega
      · refine ⟨.pollChar, by simp [serial8250Write, hpc, hidx, hlf], ?_⟩
        simp only [Frame.left, hpc, hdrop, textSteps, charSteps, if_neg hlf]
        omega
    have hstep : cpuStep bus dev s other = { s with frame := some { f with pc := pc } } := by
      simp [cpuStep, hframe, hinternal]
    rw [hstep]
    exact gains_internal hframe hleft
  · have hend : f.idx = f.args.size := by omega
    have hstep : cpuStep bus dev s other =
        { s with frame := none, returned := s.returned ++ [f.args.size] } := by
      simp [cpuStep, hframe, serial8250Write, hpc, hend]
    have hleft : f.left = 1 := by
      simp [Frame.left, hpc, hend, ← length_text, textSteps]
    rw [hstep]
    refine .inl ?_
    rw [left_running hframe, hleft]
    simp only [Sys.left, Option.map_none, Option.getD_none]
    omega

theorem cpuStep_gains {calls : List WriteArgs} {s : Sys} (hinv : s.Inv calls) (hmore : ¬ s.Finished)
    (other : Byte) : Gains s (cpuStep bus dev s other) := by
  cases hframe : s.frame with
  | none =>
    cases hcalls : s.calls with
    | nil => exact absurd ⟨hcalls, hframe⟩ hmore
    | cons args rest =>
      have hstep : cpuStep bus dev s other = { s with calls := rest, frame := some ⟨args, 0, .test⟩ } := by
        simp [cpuStep, hframe, hcalls]
      rw [hstep]
      refine .inl ?_
      simp only [Sys.left, hframe, hcalls, Option.map_some, Option.map_none, Option.getD_some, Option.getD_none,
        Frame.left, List.drop_zero, callsLeft]
      omega
  | some f =>
    have hle := hinv.idx_le f hframe
    cases hpc : f.pc with
    | test => exact gains_test bus dev hframe hpc hle other
    | pollCr =>
      exact gains_poll bus dev hframe .storeCr (by simp [serial8250Write, hpc]) (by simp [Frame.left, hpc]) other
    | pollChar =>
      exact gains_poll bus dev hframe .storeChar (by simp [serial8250Write, hpc]) (by simp [Frame.left, hpc]) other
    | storeCr =>
      have hstep : cpuStep bus dev s other =
          { s with frame := some { f with pc := .pollChar }, port := s.port.store (ch '\r') } := by
        simp [cpuStep, hframe, serial8250Write, hpc, uartWrite]
      rw [hstep]
      exact gains_store hframe (by simp [Frame.left, hpc])
    | storeChar =>
      have hstep : cpuStep bus dev s other =
          { s with frame := some { f with idx := f.idx + 1, pc := .test }, port := s.port.store f.char } := by
        simp [cpuStep, hframe, serial8250Write, hpc, uartWrite]
      rw [hstep]
      exact gains_store hframe (by simp [Frame.left, hpc])

theorem cpuStep_finished {s : Sys} (hdone : s.Finished) (other : Byte) : cpuStep bus dev s other = s := by
  simp [cpuStep, hdone.1, hdone.2]

/-! ### Fair schedules -/

theorem cpuStep_stays {calls : List WriteArgs} {s : Sys} (hinv : s.Inv calls) (hempty : s.port.holding = none)
    {other : Byte} (hleft : (cpuStep bus dev s other).left = s.left) : cpuStep bus dev s other = s := by
  by_cases hdone : s.Finished
  · exact cpuStep_finished bus dev hdone other
  · rcases cpuStep_gains bus dev hinv hdone other with hgain | ⟨-, hfull⟩
    · omega
    · exact absurd hempty hfull

theorem drives (calls : List WriteArgs) :
    Drives (sysStep bus dev) (· = .uart) (· ≠ .uart) (Sys.Inv calls) (fun s => s.port.holding ≠ none) Sys.left where
  inv s choice hinv := (sysStep_sends bus dev hinv choice).1
  mono s choice hinv := by
    cases choice with
    | uart => exact Nat.le_refl _
    | cpu other =>
      by_cases hdone : s.Finished
      · exact Nat.le_of_eq (congrArg Sys.left (cpuStep_finished bus dev hdone other))
      · rcases cpuStep_gains bus dev hinv hdone other with hgain | ⟨hsame, -⟩
        · rw [sysStep]
          omega
        · exact Nat.le_of_eq (congrArg Sys.left hsame)
  frees s choice _ huart := by
    rw [huart, not_not]
    exact Port.holding_drain _
  moves s choice hinv hcpu hempty hpos := by
    cases choice with
    | uart => exact absurd rfl hcpu
    | cpu other =>
      have hmore : ¬ s.Finished := fun hdone => by
        rw [left_eq_zero.mpr hdone] at hpos
        omega
      rcases cpuStep_gains bus dev hinv hmore other with hgain | ⟨-, hfull⟩
      · rw [sysStep]
        omega
      · exact absurd hfull hempty
  stays s choice hinv hempty hleft := by
    cases choice with
    | uart =>
      rw [not_not]
      exact Port.holding_drain _
    | cpu other =>
      rw [sysStep, cpuStep_stays bus dev hinv (not_not.mp hempty) hleft]
      exact hempty

theorem finishes {calls : List WriteArgs} {s : Sys} (hinv : s.Inv calls) {f : Nat → Choice}
    (hf : Fair (· = .uart) (· ≠ .uart) f) :
    ∃ n, ∀ m, n ≤ m →
      (after (sysStep bus dev) s f m).Finished ∧
      (after (sysStep bus dev) s f m).port = ⟨none, s.port.sent ++ s.sender.todo⟩ ∧
      (after (sysStep bus dev) s f m).returned = calls.map WriteArgs.size := by
  obtain ⟨n, hn⟩ := (drives bus dev calls).done hinv hf
  refine ⟨n, fun m hnm => ?_⟩
  obtain ⟨hleft, hempty⟩ := hn m hnm
  have hdone := left_eq_zero.mp hleft
  have hsizes := ((drives bus dev calls).inv_after hinv f m).sizes
  have hsent := Sender.steps_conserve (sysRun_sends bus dev hinv ((List.range m).map f)).2
  rw [sysRun, ← after_eq_foldl] at hsent
  refine ⟨hdone, ?_, by simpa [hdone.1, hdone.2] using hsizes⟩
  simp only [Sys.sender, hdone.1, hdone.2, Option.map_none, Option.getD_none, List.flatMap_nil, List.append_nil]
    at hsent
  generalize (after (sysStep bus dev) s f m).port = port at hempty hsent
  obtain ⟨holding, line⟩ := port
  obtain rfl : holding = none := not_not.mp hempty
  simpa [Port.sent, Sys.sender] using hsent

/-- **Every fair schedule finishes the calls**: from some point on all have returned, each its size, and the line
has their whole text with CR LF for each line feed. Fairness is needed: a UART that never moves is polled
for ever. -/
theorem write_finishes (bus : Bus) (dev : SerialDevice W) (calls : List WriteArgs) (f : Nat → Choice)
    (hf : Fair (· = .uart) (· ≠ .uart) f) :
    ∃ n, ∀ m, n ≤ m →
      (after (sysStep bus dev) (.start calls) f m).Finished ∧
      (after (sysStep bus dev) (.start calls) f m).port = ⟨none, crlf (calls.flatMap WriteArgs.text)⟩ ∧
      (after (sysStep bus dev) (.start calls) f m).returned = calls.map WriteArgs.size := by
  obtain ⟨n, hn⟩ := finishes bus dev (inv_start calls) hf
  refine ⟨n, fun m hnm => ?_⟩
  obtain ⟨hdone, hport, hreturned⟩ := hn m hnm
  refine ⟨hdone, ?_, hreturned⟩
  rw [hport]
  simp [Sys.sender, Sys.start, crlf_flatMap]

theorem write_finishes_turns :
    ∃ n, ∀ m, n ≤ m →
      (after (sysStep .port (i386Serial 1 2 3).drivers.serial)
        (.start [⟨[ch 'a', ch '\n'], 2, by decide⟩, ⟨[], 0, by decide⟩])
        (fun n => if n % 2 = 0 then .uart else .cpu 0) m).port.line = [ch 'a', ch '\r', ch '\n'] := by
  obtain ⟨n, hn⟩ := write_finishes .port (i386Serial 1 2 3).drivers.serial
    [⟨[ch 'a', ch '\n'], 2, by decide⟩, ⟨[], 0, by decide⟩] _ (fair_turns (c := .cpu 0) rfl (by simp))
  refine ⟨n, fun m hnm => ?_⟩
  rw [(hn m hnm).2.1]
  decide

end QDNix.Dev
