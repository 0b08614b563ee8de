import Mathlib.Order.Nat
import QDNix.Kern.Console

/-!
# The buffered console as a transcript

Nothing in `console.c` ever lowers `console_buffer_idx`, so until the buffer overflows the buffered build is
a transcript: it appends each character and replays everything from the start at each flush. `Transcript` is
that machine without a buffer, and `run_refines` says that the code is a refinement of it for as long as the
characters put fit in the buffer (`Fits`). The first store beyond the buffer is `run_overflow`.
-/

namespace QDNix.Kern

open Dev Traced

variable {N W : Nat} (mem : DevPtr → Device W)

/-! ### Characters put -/

@[simp] theorem puts_nil : puts [] = [] := rfl

@[simp] theorem puts_putchar (c : Byte) (ops : List Op) : puts (.putchar c :: ops) = c :: puts ops := rfl

@[simp] theorem puts_flush (ops : List Op) : puts (.flush :: ops) = puts ops := rfl

@[simp] theorem puts_setup (dev : DevPtr) (ops : List Op) : puts (.setup dev :: ops) = puts ops := rfl

@[simp] theorem puts_append (ops ops' : List Op) : puts (ops ++ ops') = puts ops ++ puts ops' := by
  induction ops with
  | nil => rfl
  | cons op ops ih => cases op <;> simp [ih]

/-- No call of `console_setup`. -/
def NoSetup (ops : List Op) : Prop := ∀ dev, Op.setup dev ∉ ops

theorem NoSetup.tail {op : Op} {ops : List Op} (h : NoSetup (op :: ops)) : NoSetup ops :=
  fun dev hdev => h dev (List.mem_cons_of_mem _ hdev)

theorem NoSetup.left {ops ops' : List Op} (h : NoSetup (ops ++ ops')) : NoSetup ops :=
  fun dev hdev => h dev (List.mem_append_left _ hdev)

@[simp] theorem writes_append (es es' : List Event) : writes (es ++ es') = writes es ++ writes es' := by
  induction es with
  | nil => rfl
  | cons e es ih => cases e <;> simp [writes, ih]

@[simp] theorem stream_nil : stream [] = [] := rfl

@[simp] theorem stream_append (es es' : List Event) : stream (es ++ es') = stream es ++ stream es' := by
  simp [stream]

/-! ### The machine -/

/-- All characters put so far, and the console record. -/
structure Transcript where
  chars : List Byte
  cons : Console
  attached : Bool
deriving DecidableEq, Repr

namespace Transcript

def next (t : Transcript) : Op → Transcript
  | .putchar c => { t with chars := t.chars ++ [c] }
  | .flush => t
  | .setup dev => { t with cons := setupCons mem t.cons dev, attached := true }

/-- The call a flush makes: everything, from the start. -/
def replay (t : Transcript) : List Event :=
  match t.attached, t.cons.write with
  | true, some write =>
    if t.chars = [] then [] else [.write ⟨write, t.cons.device, t.chars, t.chars.length⟩]
  | _, _ => []

def shows (t : Transcript) : Op → List Event
  | .putchar _ => [.store t.chars.length]
  | .flush => t.replay
  | .setup dev => (t.next mem (.setup dev)).replay

def step (t : Transcript) (op : Op) : Traced Event Transcript := ⟨t.shows mem op, some (t.next mem op)⟩

def after (t : Transcript) (ops : List Op) : Transcript := ops.foldl (next mem) t

def trace (t : Transcript) : List Op → List Event
  | [] => []
  | op :: ops => t.shows mem op ++ trace (t.next mem op) ops

@[simp] theorem after_nil (t : Transcript) : t.after mem [] = t := rfl

@[simp] theorem after_cons (t : Transcript) (op : Op) (ops : List Op) :
    t.after mem (op :: ops) = (t.next mem op).after mem ops := rfl

theorem after_append (t : Transcript) (ops ops' : List Op) :
    t.after mem (ops ++ ops') = (t.after mem ops).after mem ops' := List.foldl_append

theorem trace_append (t : Transcript) (ops ops' : List Op) :
    t.trace mem (ops ++ ops') = t.trace mem ops ++ (t.after mem ops).trace mem ops' := by
  induction ops generalizing t with
  | nil => rfl
  | cons op ops ih => simp [trace, ih]

theorem foldlM_step (t : Transcript) (ops : List Op) :
    ops.foldlM (step mem) t = ⟨t.trace mem ops, some (t.after mem ops)⟩ := by
  induction ops generalizing t with
  | nil => rfl
  | cons op ops ih => rw [List.foldlM_cons, bind_of_some rfl, ih]; rfl

@[simp] theorem chars_after (t : Transcript) (ops : List Op) : (t.after mem ops).chars = t.chars ++ puts ops := by
  induction ops generalizing t with
  | nil => simp
  | cons op ops ih => cases op <;> simp [ih, next]

end Transcript

/-! ### The refinement -/

/-- The transcript held in the buffer. -/
def State.transcript (s : State N) : Transcript :=
  ⟨filled s.consoleBuffer s.consoleBufferIdx, s.cons, s.attached⟩

/-- The characters still to be put fit in what is left of the buffer. -/
def Fits (ops : List Op) (s : State N) : Prop := s.consoleBufferIdx + (puts ops).length ≤ N

theorem Fits.idx_le {ops : List Op} {s : State N} (h : Fits ops s) : s.consoleBufferIdx ≤ N :=
  le_trans (Nat.le_add_right _ _) h

theorem Fits.length_chars {ops : List Op} {s : State N} (h : Fits ops s) :
    s.transcript.chars.length = s.consoleBufferIdx := length_filled _ h.idx_le

@[simp] theorem boot_transcript : (State.boot : State N).transcript = ⟨[], ⟨none, none, none⟩, false⟩ := rfl

theorem fits_boot {ops : List Op} : Fits ops (State.boot : State N) ↔ (puts ops).length ≤ N := by
  simp [Fits, State.boot]

theorem flush_refines (s : State N) (h : s.consoleBufferIdx ≤ N) :
    consoleFlush .buffered s = ⟨s.transcript.replay, some s⟩ := by
  have hlen : s.transcript.chars.length = s.consoleBufferIdx := length_filled _ h
  have hnil : s.transcript.chars = [] ↔ ¬ 0 < s.consoleBufferIdx := by
    rw [← List.length_eq_zero_iff, hlen]
    omega
  unfold consoleFlush consoleWrite Transcript.replay
  simp only [hnil, hlen]
  cases hatt : s.attached <;> cases hwrite : s.cons.write <;> by_cases hpos : 0 < s.consoleBufferIdx <;>
    simp [State.transcript, hatt, hwrite, hpos] <;> rfl

theorem putchar_refines (s : State N) (c : Byte) (h : s.consoleBufferIdx < N) :
    consolePutchar .buffered s c = ⟨[.store s.consoleBufferIdx], some { s with
      consoleBuffer := s.consoleBuffer.set s.consoleBufferIdx c h
      consoleBufferIdx := s.consoleBufferIdx + 1 }⟩ := by
  simp only [consolePutchar, if_neg (show ¬ N < s.consoleBufferIdx by omega), pure_bind, emit_bind,
    store_of_lt s.consoleBuffer h c]
  rfl

theorem setup_refines (s : State N) (dev : DevPtr) (h : s.consoleBufferIdx ≤ N) :
    consoleSetup mem .buffered s dev =
      ⟨(s.transcript.next mem (.setup dev)).replay,
        some { s with cons := setupCons mem s.cons dev, attached := true }⟩ := by
  have hflush := flush_refines { s with cons := setupCons mem s.cons dev, attached := true } h
  simp only [consoleSetup]
  split
  · exact hflush
  · next hzero =>
    -- the index is 0: the call to `console_flush` is skipped, and would have done nothing
    rw [consoleFlush, if_neg hzero] at hflush
    exact hflush

theorem step_refines (op : Op) (ops : List Op) (s : State N) (h : Fits (op :: ops) s) :
    ∃ s', Kern.step mem .buffered s op = ⟨s.transcript.shows mem op, some s'⟩ ∧
      s'.transcript = s.transcript.next mem op ∧ Fits ops s' := by
  cases op with
  | putchar c =>
    simp only [Fits, puts_putchar, List.length_cons] at h
    have hlt : s.consoleBufferIdx < N := by omega
    have hlen : s.transcript.chars.length = s.consoleBufferIdx := length_filled _ hlt.le
    refine ⟨{ s with
      consoleBuffer := s.consoleBuffer.set s.consoleBufferIdx c hlt
      consoleBufferIdx := s.consoleBufferIdx + 1 }, ?_, ?_, ?_⟩
    · rw [Transcript.shows, hlen]
      exact putchar_refines s c hlt
    · simp only [State.transcript, Transcript.next, filled_set]
    · simp only [Fits]
      omega
  | flush => exact ⟨s, flush_refines s h.idx_le, rfl, h⟩
  | setup dev => exact ⟨_, setup_refines mem s dev h.idx_le, rfl, h⟩

theorem run_fits (ops : List Op) (s : State N) (h : Fits ops s) :
    Sat (fun _ => True) (Fits []) (run mem .buffered s ops) := by
  refine sat_foldlM (fun op ops s h => ?_) ops s h
  obtain ⟨s', hstep, -, hfits⟩ := step_refines mem op ops s h
  rw [hstep]
  exact ⟨fun _ _ => trivial, s', rfl, hfits⟩

/-- **The buffered build refines the transcript** while the characters put fit in its buffer. -/
theorem run_refines (ops : List Op) (s : State N) (h : Fits ops s) :
    ∃ s', run mem .buffered s ops = ⟨s.transcript.trace mem ops, some s'⟩ ∧
      s'.transcript = s.transcript.after mem ops ∧ Fits [] s' := by
  have hsim : State.transcript <$> run mem .buffered s ops =
      ⟨s.transcript.trace mem ops, some (s.transcript.after mem ops)⟩ := by
    rw [← Transcript.foldlM_step]
    refine map_foldlM (I := Fits) (fun op ops s h => ?_) (fun op ops s s' h hs => ?_) ops s h
    · obtain ⟨s', hstep, htr, -⟩ := step_refines mem op ops s h
      rw [hstep, Transcript.step, ← htr]
      exact ext' (events_map _ _) (value?_map _ _)
    · obtain ⟨s'', hstep, -, hfits⟩ := step_refines mem op ops s h
      rw [hstep] at hs
      obtain rfl : s'' = s' := Option.some.inj hs
      exact hfits
  obtain ⟨-, s', hvalue, hfits⟩ := run_fits mem ops s h
  have hafter := congrArg Traced.value? hsim
  have hevents := congrArg Traced.events hsim
  rw [value?_map, hvalue] at hafter
  rw [events_map] at hevents
  exact ⟨s', ext' hevents hvalue, Option.some.inj hafter, hfits⟩

/-! ### Beyond the buffer -/

theorem run_append (b : Build) (s : State N) (ops ops' : List Op) :
    run mem b s (ops ++ ops') = run mem b s ops >>= fun s => run mem b s ops' := List.foldlM_append

theorem run_singleton (b : Build) (s : State N) (op : Op) : run mem b s [op] = Kern.step mem b s op := by
  simp [run]

theorem exists_put {n : Nat} {ops : List Op} (h : n < (puts ops).length) :
    ∃ pre c post, ops = pre ++ .putchar c :: post ∧ (puts pre).length = n := by
  induction ops generalizing n with
  | nil => simp at h
  | cons op ops ih =>
    cases op with
    | putchar c =>
      cases n with
      | zero => exact ⟨[], c, ops, rfl, rfl⟩
      | succ n =>
        obtain ⟨pre, c', post, rfl, hn⟩ := ih (by simpa using h : n < (puts ops).length)
        exact ⟨.putchar c :: pre, c', post, rfl, by simp [hn]⟩
    | flush =>
      obtain ⟨pre, c', post, rfl, hn⟩ := ih (by simpa using h)
      exact ⟨.flush :: pre, c', post, rfl, by simp [hn]⟩
    | setup dev =>
      obtain ⟨pre, c', post, rfl, hn⟩ := ih (by simpa using h)
      exact ⟨.setup dev :: pre, c', post, rfl, by simp [hn]⟩

/-- With the buffer exactly full the next character is stored one past its end: the fullness test lets the
index `N` through. -/
theorem putchar_overflow (s : State N) (c : Byte) (h : s.consoleBufferIdx = N) :
    consolePutchar .buffered s c = ⟨[.store N], none⟩ := by
  simp only [consolePutchar, if_neg (show ¬ N < s.consoleBufferIdx by omega), pure_bind, emit_bind,
    store_of_le s.consoleBuffer h.ge c, undef_bind]
  rw [h]
  rfl

theorem run_overflow (s : State N) (ops : List Op) (hidx : s.consoleBufferIdx ≤ N)
    (h : ¬ Fits ops s) : ∃ es, run mem .buffered s ops = ⟨es ++ [.store N], none⟩ := by
  have hmany : N - s.consoleBufferIdx < (puts ops).length := by
    simp only [Fits] at h
    omega
  obtain ⟨pre, c, post, rfl, hpre⟩ := exists_put hmany
  obtain ⟨s', hrun, htr, hfits⟩ := run_refines mem pre s (by simp only [Fits]; omega)
  have hfull : s'.consoleBufferIdx = N := by
    rw [← hfits.length_chars, htr, Transcript.chars_after, List.length_append, hpre]
    rw [show s.transcript.chars.length = s.consoleBufferIdx from length_filled _ hidx]
    omega
  refine ⟨s.transcript.trace mem pre, ?_⟩
  rw [run_append, hrun, bind_of_some rfl, run, List.foldlM_cons]
  rw [show Kern.step mem .buffered s' (.putchar c) = _ from putchar_overflow s' c hfull, bind_of_none rfl]

end QDNix.Kern
