import QDNix.Dev.Serial8250

/-!
# The 8250 driver delivers its text

A state of the interleaved system is seen as a `Sender`: the port, and the bytes the CPU has still to store,
in the running call and in the calls to come (`Sys.sender`). Every step of either party is a step of that
sender or does not show in it (`sysStep_sends`), because the driver stands at a store only after it has found
the register empty and nobody else fills it (`Sys.Inv`). The rest is the sender's conservation law.
-/

namespace QDNix.Dev

open Transmit Relation

variable {W : Nat} (bus : Bus) (dev : SerialDevice W)

/-! ### The text on the line -/

/-- The text with each line feed replaced by CR LF. -/
def crlf (text : List Byte) : List Byte :=
  text.flatMap fun c => if c = ch '\n' then [ch '\r', ch '\n'] else [c]

@[simp] theorem crlf_nil : crlf [] = [] := rfl

theorem crlf_cons (c : Byte) (text : List Byte) :
    crlf (c :: text) = if c = ch '\n' then ch '\r' :: c :: crlf text else c :: crlf text := by
  by_cases h : c = ch '\n' <;> simp [crlf, h]

theorem crlf_flatMap (calls : List WriteArgs) :
    calls.flatMap (fun args => crlf args.text) = crlf (calls.flatMap WriteArgs.text) := by
  simp [crlf, List.flatMap_assoc]

@[simp] theorem char_pc (f : Frame) (pc : Pc) : Frame.char { f with pc := pc } = f.char := rfl

theorem length_text (args : WriteArgs) : args.text.length = args.size := by
  simp [WriteArgs.text, args.fits]

theorem drop_text {f : Frame} (h : f.idx < f.args.size) :
    f.args.text.drop f.idx = f.char :: f.args.text.drop (f.idx + 1) := by
  have hstr : f.idx < f.args.str.length := Nat.lt_of_lt_of_le h f.args.fits
  rw [List.drop_eq_getElem_cons (by rwa [length_text])]
  simp [Frame.char, WriteArgs.text, hstr]

/-! ### The system as a sender -/

/-- What the running call has still to store. -/
def Frame.todo (f : Frame) : List Byte :=
  match f.pc with
  | .test => crlf (f.args.text.drop f.idx)
  | .pollCr | .storeCr => ch '\r' :: f.char :: crlf (f.args.text.drop (f.idx + 1))
  | .pollChar | .storeChar => f.char :: crlf (f.args.text.drop (f.idx + 1))

def Sys.sender (s : Sys) : Sender Byte where
  port := s.port
  todo := (s.frame.map Frame.todo).getD [] ++ s.calls.flatMap fun args => crlf args.text

/-- The driver is about to store. -/
def Pc.Storing (pc : Pc) : Prop := pc = .storeCr ∨ pc = .storeChar

/-- The index stays in the text, the register is empty where the driver stores, and the calls return their
sizes in order. -/
structure Sys.Inv (calls : List WriteArgs) (s : Sys) : Prop where
  idx_le : ∀ f, s.frame = some f → f.idx ≤ f.args.size
  idx_lt : ∀ f, s.frame = some f → f.pc ≠ .test → f.idx < f.args.size
  ready : ∀ f, s.frame = some f → f.pc.Storing → s.port.holding = none
  sizes : s.returned ++ (s.frame.map (·.args.size)).toList ++ s.calls.map WriteArgs.size =
    calls.map WriteArgs.size

theorem inv_start (calls : List WriteArgs) : (Sys.start calls).Inv calls :=
  ⟨by simp [Sys.start], by simp [Sys.start], by simp [Sys.start], by simp [Sys.start]⟩

theorem inv_running {calls : List WriteArgs} {s : Sys} {f : Frame} (hframe : s.frame = some f)
    (hle : f.idx ≤ f.args.size) (hlt : f.pc ≠ .test → f.idx < f.args.size)
    (hready : f.pc.Storing → s.port.holding = none)
    (hsizes : s.returned ++ f.args.size :: s.calls.map WriteArgs.size = calls.map WriteArgs.size) :
    s.Inv calls := by
  refine ⟨?_, ?_, ?_, by simpa [hframe] using hsizes⟩
  all_goals
    intro f' hf'
    obtain rfl : f = f' := Option.some.inj (hframe.symm.trans hf')
    assumption

theorem lineStatus_ready (p : Port Byte) (other : Byte) :
    lineStatus p other &&& 0x20 = 0 ↔ p.holding ≠ none := by
  unfold lineStatus
  by_cases h : p.holding = none
  · simp only [h, if_true, ne_eq, not_true_eq_false, iff_false]
    intro hzero
    have hbit := congrArg (fun b : Byte => b.getLsbD 5) hzero
    simp at hbit
  · simp only [h, if_false, ne_eq, not_false_eq_true, iff_true]
    rw [BitVec.and_assoc]
    exact BitVec.and_zero

/-! ### One step -/

/-- A step from `s` to `s'` keeps the invariant and is none, or one, of the sender's. -/
def Sends (calls : List WriteArgs) (s s' : Sys) : Prop :=
  s'.Inv calls ∧ ReflTransGen Sender.Step s.sender s'.sender

theorem sends_internal {calls : List WriteArgs} {s : Sys} {f f' : Frame} (hinv : s.Inv calls)
    (hframe : s.frame = some f) (hargs : f'.args = f.args) (hlt : f'.idx < f.args.size)
    (hready : f'.pc.Storing → s.port.holding = none) (htodo : f'.todo = f.todo) :
    Sends calls s { s with frame := some f' } := by
  have hsizes := hinv.sizes
  have hsender : Sys.sender { s with frame := some f' } = s.sender := by
    simp [Sys.sender, hframe, htodo]
  rw [← hargs] at hlt
  refine ⟨inv_running rfl (Nat.le_of_lt hlt) (fun _ => hlt) hready ?_, by rw [hsender]⟩
  simpa [hframe, hargs] using hsizes

theorem cpuStep_poll {calls : List WriteArgs} {s : Sys} {f : Frame} (hinv : s.Inv calls)
    (hframe : s.frame = some f) (ready : Pc)
    (hpoll : serial8250Write bus dev f = pollBufferEmpty bus dev f ready)
    (hidx : f.idx < f.args.size) (htodo : Frame.todo { f with pc := ready } = f.todo) (other : Byte) :
    Sends calls s (cpuStep bus dev s other) := by
  have hstep : cpuStep bus dev s other =
      if lineStatus s.port other &&& 0x20 = 0 then s else { s with frame := some { f with pc := ready } } := by
    simp only [cpuStep, hframe, hpoll, pollBufferEmpty, uartRead, if_true]
    split
    · rw [← hframe]
    · rfl
  rw [hstep]
  split
  · exact ⟨hinv, .refl⟩
  · next hbit =>
    have hempty : s.port.holding = none := by rwa [lineStatus_ready, not_not] at hbit
    exact sends_internal hinv hframe rfl hidx (fun _ => hempty) htodo

theorem cpuStep_store {calls : List WriteArgs} {s : Sys} {f : Frame} (hinv : s.Inv calls)
    (hframe : s.frame = some f) (b : Byte) (f' : Frame)
    (hwrite : serial8250Write bus dev f = .write (regAddr bus dev UART8250_THR) b f')
    (hstoring : f.pc.Storing) (hargs : f'.args = f.args) (hle : f'.idx ≤ f.args.size)
    (hlt : f'.pc ≠ .test → f'.idx < f.args.size) (hnext : ¬ f'.pc.Storing) (htodo : f.todo = b :: f'.todo)
    (other : Byte) : Sends calls s (cpuStep bus dev s other) := by
  have hsizes := hinv.sizes
  have hempty := hinv.ready f hframe hstoring
  have hstep : cpuStep bus dev s other = { s with frame := some f', port := s.port.store b } := by
    simp [cpuStep, hframe, hwrite, uartWrite]
  have hsender : s.sender = ⟨s.port, b :: (f'.todo ++ s.calls.flatMap fun args => crlf args.text)⟩ := by
    simp [Sys.sender, hframe, htodo]
  rw [← hargs] at hle hlt
  rw [hstep]
  refine ⟨inv_running rfl hle hlt (fun h => absurd h hnext) ?_, ?_⟩
  · simpa [hframe, hargs] using hsizes
  · rw [hsender]
    exact .single (.send s.port b _ hempty)

theorem cpuStep_begin {calls rest : List WriteArgs} {args : WriteArgs} {s : Sys} (hinv : s.Inv calls)
    (hframe : s.frame = none) (hcalls : s.calls = args :: rest) (other : Byte) :
    Sends calls s (cpuStep bus dev s other) := by
  have hsizes := hinv.sizes
  have hstep : cpuStep bus dev s other = { s with calls := rest, frame := some ⟨args, 0, .test⟩ } := by
    simp [cpuStep, hframe, hcalls]
  have hsender : Sys.sender { s with calls := rest, frame := some ⟨args, 0, .test⟩ } = s.sender := by
    simp [Sys.sender, hframe, hcalls, Frame.todo]
  rw [hstep]
  refine ⟨inv_running rfl (Nat.zero_le _) (fun h => absurd rfl h) (by simp [Pc.Storing]) ?_, by rw [hsender]⟩
  simpa [hframe, hcalls] using hsizes

theorem cpuStep_return {calls : List WriteArgs} {s : Sys} {f : Frame} (hinv : s.Inv calls)
    (hframe : s.frame = some f) (hpc : f.pc = .test) (hend : f.idx = f.args.size) (other : Byte) :
    Sends calls s (cpuStep bus dev s other) := by
  have hsizes := hinv.sizes
  have hstep : cpuStep bus dev s other =
      { s with frame := none, returned := s.returned ++ [f.args.size] } := by
    simp [cpuStep, hframe, serial8250Write, hpc, hend]
  have hsender : Sys.sender { s with frame := none, returned := s.returned ++ [f.args.size] } = s.sender := by
    simp [Sys.sender, hframe, Frame.todo, hpc, hend, ← length_text]
  rw [hstep]
  refine ⟨⟨by simp, by simp, by simp, ?_⟩, by rw [hsender]⟩
  simpa [hframe] using hsizes

theorem cpuStep_sends {calls : List WriteArgs} {s : Sys} (hinv : s.Inv calls) (other : Byte) :
    Sends calls s (cpuStep bus dev s other) := by
  cases hframe : s.frame with
  | none =>
    cases hcalls : s.calls with
    | nil =>
      have hstep : cpuStep bus dev s other = s := by simp [cpuStep, hframe, hcalls]
      rw [hstep]
      exact ⟨hinv, .refl⟩
    | cons args rest => exact cpuStep_begin bus dev hinv hframe hcalls other
  | some f =>
    have hle := hinv.idx_le f hframe
    have hlt := hinv.idx_lt f hframe
    cases hpc : f.pc with
    | test =>
      by_cases hidx : f.idx < f.args.size
      · -- the line feed takes the extra round through the carriage return
        obtain ⟨pc, hpc', hinternal, htodo⟩ : ∃ pc : Pc, ¬ pc.Storing ∧
            serial8250Write bus dev f = .internal { f with pc := pc } ∧
            Frame.todo { f with pc := pc } = f.todo := by
          by_cases hlf : f.char = ch '\n'
          · exact ⟨.pollCr, by simp [Pc.Storing], by simp [serial8250Write, hpc, hidx, hlf],
              by simp [Frame.todo, hpc, drop_text hidx, crlf_cons, hlf]⟩
          · exact ⟨.pollChar, by simp [Pc.Storing], by simp [serial8250Write, hpc, hidx, hlf],
              by simp [Frame.todo, hpc, drop_text hidx, crlf_cons, hlf]⟩
        have hstep : cpuStep bus dev s other = { s with frame := some { f with pc := pc } } := by
          simp [cpuStep, hframe, hinternal]
        rw [hstep]
        exact sends_internal hinv hframe rfl hidx (fun h => absurd h hpc') htodo
      · exact cpuStep_return bus dev hinv hframe hpc (by omega) other
    | pollCr =>
      exact cpuStep_poll bus dev hinv hframe .storeCr (by simp [serial8250Write, hpc])
        (hlt (by simp [hpc])) (by simp [Frame.todo, hpc]) other
    | pollChar =>
      exact cpuStep_poll bus dev hinv hframe .storeChar (by simp [serial8250Write, hpc])
        (hlt (by simp [hpc])) (by simp [Frame.todo, hpc]) other
    | storeCr =>
      have hidx : f.idx < f.args.size := hlt (by simp [hpc])
      exact cpuStep_store bus dev hinv hframe (ch '\r') { f with pc := .pollChar }
        (by simp [serial8250Write, hpc]) (by simp [Pc.Storing, hpc]) rfl hle (fun _ => hidx) (by simp [Pc.Storing])
        (by simp [Frame.todo, hpc]) other
    | storeChar =>
      have hidx : f.idx < f.args.size := hlt (by simp [hpc])
      exact cpuStep_store bus dev hinv hframe f.char { f with idx := f.idx + 1, pc := .test }
        (by simp [serial8250Write, hpc]) (by simp [Pc.Storing, hpc]) rfl hidx (fun h => absurd rfl h)
        (by simp [Pc.Storing]) (by simp [Frame.todo, hpc]) other

theorem sysStep_sends {calls : List WriteArgs} {s : Sys} (hinv : s.Inv calls) (choice : Choice) :
    Sends calls s (sysStep bus dev s choice) := by
  cases choice with
  | uart =>
    exact ⟨⟨hinv.idx_le, hinv.idx_lt, fun _ _ _ => Port.holding_drain _, hinv.sizes⟩, .single (.drain s.sender)⟩
  | cpu other => exact cpuStep_sends bus dev hinv other

theorem sysRun_sends {calls : List WriteArgs} {s : Sys} (hinv : s.Inv calls) (schedule : List Choice) :
    Sends calls s (sysRun bus dev s schedule) := by
  induction schedule generalizing s with
  | nil => exact ⟨hinv, .refl⟩
  | cons choice schedule ih =>
    obtain ⟨hinv', hstep⟩ := sysStep_sends bus dev hinv choice
    obtain ⟨hinv'', hrun⟩ := ih hinv'
    exact ⟨hinv'', hstep.trans hrun⟩

/-! ### The stream -/

/-- The CPU is about to store into a full register. -/
def Sys.Clobbers (s : Sys) : Prop :=
  ∃ f addr v f', s.frame = some f ∧ serial8250Write bus dev f = .write addr v f' ∧ s.port.holding ≠ none

theorem write_storing {f f' : Frame} {addr : BitVec W} {v : Byte}
    (h : serial8250Write bus dev f = .write addr v f') : f.pc.Storing := by
  unfold serial8250Write pollBufferEmpty at h
  cases hpc : f.pc with
  | test =>
    simp only [hpc] at h
    split at h
    · split at h <;> cases h
    · cases h
  | pollCr => simp [hpc] at h
  | pollChar => simp [hpc] at h
  | storeCr => exact .inl rfl
  | storeChar => exact .inr rfl

theorem finished_stream {calls : List WriteArgs} {schedule : List Choice}
    (hdone : (sysRun bus dev (.start calls) schedule).Finished) :
    (sysRun bus dev (.start calls) schedule).port.sent = crlf (calls.flatMap WriteArgs.text) := by
  obtain ⟨hcalls, hframe⟩ := hdone
  have hsent := Sender.steps_conserve (sysRun_sends bus dev (inv_start calls) schedule).2
  have hstart : (Sys.start calls).sender = ⟨.idle, crlf (calls.flatMap WriteArgs.text)⟩ := by
    simp [Sys.sender, Sys.start, crlf_flatMap]
  rw [hstart] at hsent
  simpa [Sys.sender, hcalls, hframe] using hsent

/-- **The driver loses, repeats and reorders nothing under any timing.** No store finds the register full;
once the calls have returned, the line and the register hold their texts with CR LF for each line feed, and
each call has returned its size. So the stream does not depend on the split into calls. -/
theorem write_delivers (bus : Bus) (dev : SerialDevice W) (calls : List WriteArgs) (schedule : List Choice) :
    ¬ (sysRun bus dev (.start calls) schedule).Clobbers bus dev ∧
    ((sysRun bus dev (.start calls) schedule).Finished →
      (sysRun bus dev (.start calls) schedule).port.sent = crlf (calls.flatMap WriteArgs.text) ∧
      (sysRun bus dev (.start calls) schedule).returned = calls.map WriteArgs.size ∧
      ∀ (calls' : List WriteArgs) (schedule' : List Choice),
        calls'.flatMap WriteArgs.text = calls.flatMap WriteArgs.text →
        (sysRun bus dev (.start calls') schedule').Finished →
        (sysRun bus dev (.start calls') schedule').port.sent =
          (sysRun bus dev (.start calls) schedule).port.sent) := by
  have hinv := (sysRun_sends bus dev (inv_start calls) schedule).1
  constructor
  · rintro ⟨f, addr, v, f', hframe, hwrite, hfull⟩
    exact hfull (hinv.ready f hframe (write_storing bus dev hwrite))
  · intro hdone
    refine ⟨finished_stream bus dev hdone, ?_, fun calls' schedule' htext hdone' => ?_⟩
    · have hsizes := hinv.sizes
      simpa [hdone.1, hdone.2] using hsizes
    · rw [finished_stream bus dev hdone, finished_stream bus dev hdone', htext]

theorem write_delivers_lf :
    let serial := (i386Serial 1 2 3).drivers.serial
    let whole := [⟨[ch 'a', ch '\n'], 2, by decide⟩]
    let split := [⟨[ch 'a'], 1, by decide⟩, ⟨[ch '\n'], 1, by decide⟩]
    let cpu := Choice.cpu 0
    let store := [cpu, cpu, cpu, .uart]
    let s := sysRun .port serial (.start whole) ([cpu] ++ store ++ [cpu, cpu, cpu, cpu, .uart, cpu, cpu, cpu])
    let s' := sysRun .port serial (.start split) ([cpu] ++ store ++ [cpu, cpu] ++ store ++ [cpu, cpu, cpu])
    ¬ s.Clobbers .port serial ∧ s.port.sent = [ch 'a', ch '\r', ch '\n'] ∧ s.returned = [2] ∧
      s'.port.sent = s.port.sent := by
  intro serial whole split cpu store s s'
  obtain ⟨hclobbers, hdone⟩ := write_delivers .port serial whole
    ([cpu] ++ store ++ [cpu, cpu, cpu, cpu, .uart, cpu, cpu, cpu])
  obtain ⟨hsent, hreturned, hsplit⟩ := hdone (by decide)
  exact ⟨hclobbers, hsent.trans (by decide), hreturned, hsplit split _ rfl (by decide)⟩

end QDNix.Dev
