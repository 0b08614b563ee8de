import Mathlib.Data.List.Infix
import QDNix.Kern.ConsoleDriver
import QDNix.Libkern.PrintkFormat

/-!
# From `printk` to the line

The whole way of a message: `printk` turns it into console operations, the console into calls of the driver, the
driver into stores to the UART, which moves when it likes. Under every fair schedule the unbuffered build
puts the texts of the messages on the line, each once and in order, with CR LF for each line feed (`log_line`).

The buffered build flushes at the end of each message and never forgets a character, so it sends with each
message all the messages before it as well (`log_line_buffered`): the line gets the text of every initial
part of the log.
-/

namespace QDNix.Libkern

open Dev Kern Traced Fairness Transmit

/-- A call of `printk` whose arguments match its format string, with the text it stands for. -/
structure Message where
  fmt : List Byte
  args : List (Arg 32 32)
  text : List Byte
  closed : 0 ∉ fmt
  stands : format fmt args = some text

/-- Some messages, one call after the other. -/
def printkAll : List Message → Buff → Traced Op Buff
  | [], buff => pure buff
  | m :: ms, buff => do
    let buff ← printk (m.fmt ++ [0]) m.args buff
    printkAll ms buff

/-- The operations the console gets. -/
def logOps (ms : List Message) : List Op := ms.flatMap fun m => putAll m.text ++ [.flush]

def logText (ms : List Message) : List Byte := ms.flatMap Message.text

theorem printkAll_eq (ms : List Message) (buff : Buff) :
    ∃ buff', printkAll ms buff = ⟨logOps ms, some buff'⟩ := by
  induction ms generalizing buff with
  | nil => exact ⟨buff, rfl⟩
  | cons m ms ih =>
    obtain ⟨buff₁, hloop⟩ := printkLoop_eq m.fmt m.args [] m.text buff m.closed m.stands
    obtain ⟨buff', hrest⟩ := ih buff₁
    refine ⟨buff', ?_⟩
    have hprintk : printk (m.fmt ++ [0]) m.args buff = ⟨putAll m.text ++ [.flush], some buff₁⟩ := by
      rw [printk, hloop, bind_of_some rfl]
      rfl
    rw [printkAll, hprintk, bind_of_some rfl, hrest]
    rfl

theorem noSetup_logOps (ms : List Message) : NoSetup (logOps ms) := by
  intro dev hdev
  rw [logOps, List.mem_flatMap] at hdev
  obtain ⟨m, -, hm⟩ := hdev
  simp [putAll] at hm

theorem puts_put (text : List Byte) (ops : List Op) : puts (putAll text ++ ops) = text ++ puts ops := by
  induction text with
  | nil => rfl
  | cons c text ih => exact congrArg (c :: ·) ih

theorem puts_logOps (ms : List Message) : puts (logOps ms) = logText ms := by
  induction ms with
  | nil => rfl
  | cons m ms ih =>
    rw [logOps] at ih
    rw [logOps, List.flatMap_cons, List.append_assoc, puts_put, List.singleton_append, puts_flush, ih]
    rfl

/-! ### The line -/

/-- The system of the driver, about to make the calls the console makes of it for some messages. -/
def logSys {N W : Nat} (mem : DevPtr → Device W) (b : Build) (s : State N) (ms : List Message) (buff : Buff) : Sys :=
  .start (driverCalls (run mem b s (printkAll ms buff).events).events)

variable {N W : Nat} (mem : DevPtr → Device W) (bus : Bus) (dev : SerialDevice W)

/-- **The unbuffered log reaches the line** under every fair schedule: all messages once, in order. The console
calls nothing but its write function, on its device. -/
theorem log_line (fn : FnPtr) (s : State N) (hs : s.Ready fn) (ms : List Message) (buff : Buff) (f : Nat → Choice)
    (hf : Fair (· = .uart) (· ≠ .uart) f) :
    (∀ e ∈ (run mem .unbuffered s (printkAll ms buff).events).events, e.Calls fn s.cons.device) ∧
    ∃ n, ∀ m, n ≤ m →
      (after (sysStep bus dev) (logSys mem .unbuffered s ms buff) f m).Finished ∧
      (after (sysStep bus dev) (logSys mem .unbuffered s ms buff) f m).port = ⟨none, crlf (logText ms)⟩ := by
  obtain ⟨buff', hprintk⟩ := printkAll_eq ms buff
  obtain ⟨es, hrun, hstream⟩ := unbuffered_stream mem hs (logOps ms) (noSetup_logOps ms)
  have hcalls := unbuffered_calls mem hs (logOps ms) (noSetup_logOps ms)
  rw [hrun] at hcalls
  obtain ⟨n, hn⟩ := finishes bus dev (inv_start (driverCalls es)) hf
  rw [logSys, hprintk, hrun]
  refine ⟨hcalls, n, fun m hnm => ?_⟩
  obtain ⟨hdone, hport, -⟩ := hn m hnm
  refine ⟨hdone, hport.trans ?_⟩
  simp [Sys.sender, Sys.start, crlf_flatMap, text_driverCalls hcalls, hstream, puts_logOps]

/-- `printk("%d\n", 7)` -/
def seven : Message := ⟨[ch '%', ch 'd', ch '\n'], [.int 7], [ch '7', ch '\n'], by decide, rfl⟩

theorem log_line_seven :
    ∃ n, ∀ m, n ≤ m →
      (after (sysStep .port (i386Serial 1 2 3).drivers.serial)
        (logSys (fun _ => i386Serial 1 2 3) .unbuffered (ready 0) [seven, seven] (Vector.replicate 20 0))
        (fun n => if n % 2 = 0 then .uart else .cpu 0) m).port.line =
      [ch '7', ch '\r', ch '\n', ch '7', ch '\r', ch '\n'] := by
  obtain ⟨-, n, hn⟩ := log_line (fun _ => i386Serial 1 2 3) .port (i386Serial 1 2 3).drivers.serial 2 (ready 0)
    ⟨rfl, rfl⟩ [seven, seven] (Vector.replicate 20 0) _ (fair_turns (c := .cpu 0) rfl (by simp))
  refine ⟨n, fun m hnm => ?_⟩
  rw [(hn m hnm).2]
  decide

/-- The texts of all initial parts of the log, one after the other. -/
def replays (ms : List Message) : List Byte := ms.inits.flatMap logText

theorem stream_putAll {t : Transcript} (text : List Byte) (ops : List Op) :
    stream (t.trace mem (putAll text ++ ops)) = stream (({ t with chars := t.chars ++ text }).trace mem ops) := by
  induction text generalizing t with
  | nil => simp [putAll]
  | cons c text ih =>
    have hnext := ih (t := { t with chars := t.chars ++ [c] })
    rw [List.append_assoc, List.singleton_append] at hnext
    exact (Transcript.stream_putchar mem c (putAll text ++ ops)).trans hnext

theorem stream_logOps {fn : FnPtr} {t : Transcript} (ht : t.Ready fn) (ms : List Message) :
    stream (t.trace mem (logOps ms)) = (ms.inits.tail).flatMap fun part => t.chars ++ logText part := by
  induction ms generalizing t with
  | nil => rfl
  | cons m ms ih =>
    have ht' : Transcript.Ready fn { t with chars := t.chars ++ m.text } := ht
    have hrest := ih ht'
    have hops : logOps (m :: ms) = putAll m.text ++ (.flush :: logOps ms) := by simp [logOps]
    have hfirst : ms.inits = [] :: ms.inits.tail := by cases ms <;> simp
    have hmore : ∀ part, logText (m :: part) = m.text ++ logText part := fun part => rfl
    rw [hops, stream_putAll, Transcript.stream_flush mem ht', hrest, List.inits_cons, List.tail_cons,
      List.flatMap_map, hfirst, List.flatMap_cons, List.tail_cons]
    simp only [hmore, List.append_assoc]
    rw [show logText ([] : List Message) = [] from rfl, List.nil_append]

/-- **The buffered log repeats itself**: as long as it fits in the buffer, the line gets the text of every initial
part of the log. -/
theorem log_line_buffered (fn : FnPtr) (s : State N) (hs : s.Ready fn) (hempty : s.consoleBufferIdx = 0)
    (ms : List Message) (hfits : (logText ms).length ≤ N) (buff : Buff) (f : Nat → Choice)
    (hf : Fair (· = .uart) (· ≠ .uart) f) :
    (∀ e ∈ (run mem .buffered s (printkAll ms buff).events).events, e.Calls fn s.cons.device) ∧
    ∃ n, ∀ m, n ≤ m →
      (after (sysStep bus dev) (logSys mem .buffered s ms buff) f m).Finished ∧
      (after (sysStep bus dev) (logSys mem .buffered s ms buff) f m).port = ⟨none, crlf (replays ms)⟩ := by
  obtain ⟨buff', hprintk⟩ := printkAll_eq ms buff
  have hfits' : Fits (logOps ms) s := by rwa [Fits, puts_logOps, hempty, Nat.zero_add]
  obtain ⟨s', hrun, -, -⟩ := run_refines mem (logOps ms) s hfits'
  have hcalls := buffered_calls mem hs (logOps ms) (noSetup_logOps ms) hfits'
  rw [hrun] at hcalls
  have hchars : s.transcript.chars = [] := by simp [State.transcript, hempty]
  have hstream : stream (s.transcript.trace mem (logOps ms)) = replays ms := by
    have hfirst : ms.inits = [] :: ms.inits.tail := by cases ms <;> simp
    rw [stream_logOps mem (show s.transcript.Ready fn from hs), hchars, replays, hfirst, List.flatMap_cons]
    rfl
  obtain ⟨n, hn⟩ := finishes bus dev (inv_start (driverCalls (s.transcript.trace mem (logOps ms)))) hf
  rw [logSys, hprintk, hrun]
  refine ⟨hcalls, n, fun m hnm => ?_⟩
  obtain ⟨hdone, hport, -⟩ := hn m hnm
  refine ⟨hdone, hport.trans ?_⟩
  simp [Sys.sender, Sys.start, crlf_flatMap, text_driverCalls hcalls, hstream]

theorem log_line_buffered_seven :
    ∃ n, ∀ m, n ≤ m →
      (after (sysStep .port (i386Serial 1 2 3).drivers.serial)
        (logSys (fun _ => i386Serial 1 2 3) .buffered (ready 4) [seven, seven] (Vector.replicate 20 0))
        (fun n => if n % 2 = 0 then .uart else .cpu 0) m).port.line =
      [ch '7', ch '\r', ch '\n', ch '7', ch '\r', ch '\n', ch '7', ch '\r', ch '\n'] := by
  obtain ⟨-, n, hn⟩ := log_line_buffered (fun _ => i386Serial 1 2 3) .port (i386Serial 1 2 3).drivers.serial 2
    (ready 4) ⟨rfl, rfl⟩ rfl [seven, seven] (by decide) (Vector.replicate 20 0) _
    (fair_turns (c := .cpu 0) rfl (by simp))
  refine ⟨n, fun m hnm => ?_⟩
  rw [(hn m hnm).2]
  decide

end QDNix.Libkern
