import QDNix.Dev.Serial8250Live
import QDNix.Kern.ConsoleStream

/-!
# The console's calls of the driver

Every call `console.c` makes through `console->write` goes to the function and the device `console_setup` found,
and asks for no more bytes than it supplies (`Event.Calls`), in either build. So the calls can be handed to the
driver as they are (`driverCalls`), and their texts are the stream of the run.
-/

namespace QDNix.Kern

open Dev Traced

variable {N W : Nat} (mem : DevPtr → Device W)

/-- A call to `fn` on `device` for at most the bytes at hand; a store to the buffer is none. -/
def Event.Calls (fn : FnPtr) (device : Option DevPtr) : Event → Prop
  | .store _ => True
  | .write call => call.fn = fn ∧ call.device = device ∧ call.size ≤ call.str.length

/-- The arguments the driver gets, if as many bytes can be read as the call says. -/
def WriteCall.args? (call : WriteCall) : Option WriteArgs :=
  if h : call.size ≤ call.str.length then some ⟨call.str, call.size, h⟩ else none

def driverCalls (es : List Event) : List WriteArgs := (writes es).filterMap WriteCall.args?

theorem text_driverCalls {fn : FnPtr} {device : Option DevPtr} {es : List Event}
    (h : ∀ e ∈ es, e.Calls fn device) : (driverCalls es).flatMap WriteArgs.text = stream es := by
  induction es with
  | nil => rfl
  | cons e es ih =>
    have hrest := ih fun e' he' => h e' (List.mem_cons_of_mem e he')
    cases e with
    | store idx => exact hrest
    | write call =>
      have hfits : call.size ≤ call.str.length := (h (.write call) List.mem_cons_self).2.2
      have hargs : call.args? = some ⟨call.str, call.size, hfits⟩ := dif_pos hfits
      rw [driverCalls] at hrest
      rw [driverCalls, writes, List.filterMap_cons_some hargs, List.flatMap_cons, hrest]
      rfl

/-! ### The unbuffered build -/

theorem unbuffered_calls {fn : FnPtr} {s : State N} (hs : s.Ready fn) (ops : List Op) (hops : NoSetup ops) :
    ∀ e ∈ (run mem .unbuffered s ops).events, e.Calls fn s.cons.device := by
  have hstep : ∀ op ops' s', (s' = s ∧ NoSetup (op :: ops')) →
      Sat (Event.Calls fn s.cons.device) (fun s'' => s'' = s ∧ NoSetup ops') (step mem .unbuffered s' op) := by
    rintro op ops' s' ⟨rfl, hop⟩
    cases op with
    | putchar c =>
      simp only [step, consolePutchar, consoleWrite, hs.1, hs.2]
      exact sat_emit ⟨rfl, rfl, Nat.le_refl _⟩ (sat_pure ⟨rfl, hop.tail⟩)
    | flush => exact sat_pure ⟨rfl, hop.tail⟩
    | setup dev => exact absurd List.mem_cons_self (hop dev)
  exact (sat_foldlM (I := fun ops' s' => s' = s ∧ NoSetup ops') hstep ops s ⟨rfl, hops⟩).1

/-! ### The buffered build -/

namespace Transcript

variable {fn : FnPtr} {t : Transcript}

theorem replay_calls (ht : t.Ready fn) : ∀ e ∈ t.replay, e.Calls fn t.cons.device := by
  unfold replay
  rw [ht.1, ht.2]
  by_cases hchars : t.chars = []
  · simp [hchars]
  · simp [hchars, Event.Calls]

theorem trace_calls (ht : t.Ready fn) {ops : List Op} (hops : NoSetup ops) :
    ∀ e ∈ t.trace mem ops, e.Calls fn t.cons.device := by
  induction ops generalizing t with
  | nil => simp [trace]
  | cons op ops ih =>
    intro e he
    rw [trace] at he
    rcases List.mem_append.mp he with he | he
    · cases op with
      | putchar c =>
        obtain rfl := List.mem_singleton.mp he
        exact trivial
      | flush => exact replay_calls ht e he
      | setup dev => exact absurd List.mem_cons_self (hops dev)
    · cases op with
      | putchar c => exact ih (t := t.next mem (.putchar c)) ht hops.tail e he
      | flush => exact ih ht hops.tail e he
      | setup dev => exact absurd List.mem_cons_self (hops dev)

end Transcript

theorem buffered_calls {fn : FnPtr} {s : State N} (hs : s.Ready fn) (ops : List Op) (hops : NoSetup ops)
    (hfits : Fits ops s) : ∀ e ∈ (run mem .buffered s ops).events, e.Calls fn s.cons.device := by
  obtain ⟨s', hrun, -, -⟩ := run_refines mem ops s hfits
  rw [hrun]
  exact Transcript.trace_calls mem (t := s.transcript) hs hops

end QDNix.Kern
