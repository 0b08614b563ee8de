import QDNix.Kern.Transcript

/-!
# The byte stream of the two builds

With a TTY attached the unbuffered build writes each character as it is put (`unbuffered_stream`). The
buffered build replays its transcript at every flush, so the characters put before one flush come out again
at the next. Its stream is the unbuffered one exactly when no flush but the last follows a character and
the characters fit in the buffer (`delivers_iff`).

The stream of a transcript run is empty exactly when no flush found a character (`stream_eq_nil_iff`), and a
run that ends with a flush shows what came before followed by all characters put.
-/

namespace QDNix.Kern

open Dev Traced

variable {M N W : Nat} (mem : DevPtr → Device W)

/-- The console is attached, with `fn` as its write function. -/
def State.Ready (fn : FnPtr) (s : State N) : Prop := s.attached = true ∧ s.cons.write = some fn

/-! ### The unbuffered build -/

theorem unbuffered_step {fn : FnPtr} {s : State N} (hs : s.Ready fn) {op : Op} (hop : ∀ dev, op ≠ .setup dev) :
    ∃ es, step mem .unbuffered s op = ⟨es, some s⟩ ∧ stream es = puts [op] := by
  cases op with
  | putchar c =>
    refine ⟨[.write ⟨fn, s.cons.device, [c], 1⟩], ?_, rfl⟩
    simp only [step, consolePutchar, consoleWrite, hs.1, hs.2]
    rfl
  | flush => exact ⟨[], rfl, rfl⟩
  | setup dev => exact absurd rfl (hop dev)

theorem unbuffered_stream {fn : FnPtr} {s : State N} (hs : s.Ready fn) (ops : List Op) (hops : NoSetup ops) :
    ∃ es, run mem .unbuffered s ops = ⟨es, some s⟩ ∧ stream es = puts ops := by
  induction ops with
  | nil => exact ⟨[], rfl, rfl⟩
  | cons op ops ih =>
    have hop : ∀ dev, op ≠ .setup dev := fun dev h => hops dev (h ▸ List.mem_cons_self)
    obtain ⟨es, hstep, hes⟩ := unbuffered_step mem hs hop
    obtain ⟨es', hrun, hes'⟩ := ih hops.tail
    refine ⟨es ++ es', ?_, ?_⟩
    · rw [run] at hrun
      rw [run, List.foldlM_cons, hstep, bind_of_some rfl, hrun]
    · rw [stream_append, hes, hes']
      exact (puts_append [op] ops).symm

/-! ### The transcript -/

/-- The transcript has a console to replay to. -/
def Transcript.Ready (fn : FnPtr) (t : Transcript) : Prop := t.attached = true ∧ t.cons.write = some fn

namespace Transcript

variable {fn : FnPtr} {t : Transcript}

theorem stream_replay (ht : t.Ready fn) : stream t.replay = t.chars := by
  unfold replay
  rw [ht.1, ht.2]
  by_cases h : t.chars = []
  · simp [h]
  · simp [h, stream, writes, WriteCall.block]

theorem stream_putchar (c : Byte) (ops : List Op) :
    stream (t.trace mem (.putchar c :: ops)) = stream (({ t with chars := t.chars ++ [c] }).trace mem ops) := by
  rw [trace, stream_append]
  rfl

theorem stream_flush (ht : t.Ready fn) (ops : List Op) :
    stream (t.trace mem (.flush :: ops)) = t.chars ++ stream (t.trace mem ops) := by
  rw [trace, stream_append, ← stream_replay ht]
  rfl

theorem Ready.put (ht : t.Ready fn) (c : Byte) : Ready fn { t with chars := t.chars ++ [c] } := ht

theorem stream_eq_nil_of_chars (ht : t.Ready fn) (hchars : t.chars ≠ []) {ops : List Op} (hops : NoSetup ops) :
    stream (t.trace mem ops) = [] ↔ ops = (puts ops).map .putchar := by
  induction ops generalizing t with
  | nil => simp [trace]
  | cons op ops ih =>
    cases op with
    | putchar c =>
      rw [stream_putchar, ih (ht.put c) (by simp) hops.tail]
      simp
    | flush =>
      rw [stream_flush mem ht]
      refine ⟨fun h => absurd (List.append_eq_nil_iff.mp h).1 hchars, fun h => ?_⟩
      cases hputs : puts ops with
      | nil => simp [hputs] at h
      | cons c cs => simp [hputs] at h
    | setup dev => exact absurd List.mem_cons_self (hops dev)

theorem stream_eq_nil_iff (ht : t.Ready fn) (hchars : t.chars = []) {ops : List Op} (hops : NoSetup ops) :
    stream (t.trace mem ops) = [] ↔ ∃ k, ops = List.replicate k .flush ++ (puts ops).map .putchar := by
  induction ops with
  | nil => exact ⟨fun _ => ⟨0, rfl⟩, fun _ => rfl⟩
  | cons op ops ih =>
    cases op with
    | putchar c =>
      rw [stream_putchar, stream_eq_nil_of_chars mem (ht.put c) (by simp) hops.tail]
      constructor
      · exact fun h => ⟨0, by simpa using h⟩
      · rintro ⟨k, hk⟩
        cases k with
        | zero => simpa using hk
        | succ k => simp [List.replicate_succ] at hk
    | flush =>
      rw [stream_flush mem ht, hchars, List.nil_append, ih hops.tail]
      constructor
      · rintro ⟨k, hk⟩
        exact ⟨k + 1, by rw [List.replicate_succ, List.cons_append, puts_flush, ← hk]⟩
      · rintro ⟨k, hk⟩
        cases k with
        | zero =>
          cases hputs : puts ops with
          | nil => simp [hputs] at hk
          | cons c cs => simp [hputs] at hk
        | succ k => exact ⟨k, by simpa [List.replicate_succ] using hk⟩
    | setup dev => exact absurd List.mem_cons_self (hops dev)

theorem ready_after (ht : t.Ready fn) {ops : List Op} (hops : NoSetup ops) : (t.after mem ops).Ready fn := by
  induction ops generalizing t with
  | nil => exact ht
  | cons op ops ih =>
    cases op with
    | putchar c => exact ih (t := t.next mem (.putchar c)) ht hops.tail
    | flush => exact ih ht hops.tail
    | setup dev => exact absurd List.mem_cons_self (hops dev)

theorem stream_append_flush (ht : t.Ready fn) {ops : List Op} (hops : NoSetup ops) :
    stream (t.trace mem (ops ++ [.flush])) = stream (t.trace mem ops) ++ (t.chars ++ puts ops) := by
  rw [trace_append, stream_append, stream_flush mem (ready_after mem ht hops), chars_after]
  simp [trace]

end Transcript

/-! ### The two builds -/

/-- Both builds hand the driver every character put, once and in order. -/
def Delivers (s : State N) (u : State M) (ops : List Op) : Prop :=
  (run mem .buffered s ops).Defined ∧
    stream (run mem .buffered s ops).events = stream (run mem .unbuffered u ops).events ∧
    stream (run mem .unbuffered u ops).events = puts ops

/-- A TTY just set up, nothing put. -/
def ready (N : Nat) : State N where
  consoleBuffer := Vector.replicate N 0
  consoleBufferIdx := 0
  cons := ⟨some 2, some 3, some 0⟩
  attached := true

/-- **The buffered build delivers the unbuffered stream exactly in the runs that flush once, at the end, after
at most `N` characters**: a flush before the first character does no harm, any other replays. -/
theorem delivers_iff (s : State N) (u : State M) (fn : FnPtr) (hs : s.Ready fn) (hu : u.Ready fn)
    (hempty : s.consoleBufferIdx = 0) (ops : List Op) (hops : NoSetup (ops ++ [.flush])) :
    Delivers mem s u (ops ++ [.flush]) ↔
      (puts ops).length ≤ N ∧ ∃ k, ops = List.replicate k .flush ++ (puts ops).map .putchar := by
  obtain ⟨es, hrun, hes⟩ := unbuffered_stream mem hu (ops ++ [.flush]) hops
  rw [puts_append, puts_flush, puts_nil, List.append_nil] at hes
  have hfits : Fits (ops ++ [.flush]) s ↔ (puts ops).length ≤ N := by simp [Fits, hempty]
  have hchars : s.transcript.chars = [] := by simp [State.transcript, hempty]
  rw [Delivers, hrun, puts_append, puts_flush, puts_nil, List.append_nil]
  by_cases hfit : (puts ops).length ≤ N
  · obtain ⟨s', hbuf, -, -⟩ := run_refines mem _ s (hfits.mpr hfit)
    have hready : s.transcript.Ready fn := hs
    rw [hbuf, Transcript.stream_append_flush mem hready hops.left, hchars, List.nil_append, hes,
      ← Transcript.stream_eq_nil_iff mem hready hchars hops.left]
    simp [Defined, hfit]
  · obtain ⟨es', hbuf⟩ := run_overflow mem s _ (by omega) (fun h => hfit (hfits.mp h))
    simp [hbuf, Defined, hfit]

theorem delivers_iff_hi : Delivers (fun _ => i386Serial 1 2 3) (ready 2) (ready 0)
    ([.flush, .putchar (ch 'h'), .putchar (ch 'i')] ++ [.flush]) :=
  (delivers_iff (fun _ => i386Serial 1 2 3) (ready 2) (ready 0) 2 ⟨rfl, rfl⟩ ⟨rfl, rfl⟩ rfl
    [.flush, .putchar (ch 'h'), .putchar (ch 'i')] (by intro dev h; simp at h)).mpr ⟨by decide, 1, rfl⟩

/-- One character and two flushes: it is written twice. -/
theorem not_delivers_twice :
    ¬ Delivers (fun _ => i386Serial 1 2 3) (ready 512) (ready 0) [.putchar (ch 'a'), .flush, .flush] := by
  rintro ⟨-, h, -⟩
  exact absurd h (by decide)

end QDNix.Kern
