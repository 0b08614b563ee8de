import Mathlib.Data.List.Induction
import QDNix.Kern.Transcript

/-!
# Driver and device

`console_setup` always takes the new device's state, but only a TTY's functions. After a TTY, setting up any
other device leaves the TTY's `write` beside a foreign state (`Strays`), and the next output call passes one
to the other. `paired_iff`: in both builds driver and device stay paired exactly in the runs that make no
output in such a state, and that do not overflow the buffer.

The record is a function of the history alone and the same in both builds (`record_after`): its state is that
of the last device set up, its `write` that of the last TTY.
-/

namespace QDNix.Kern

open Dev Traced

variable {N W : Nat} (mem : DevPtr → Device W)

/-! ### The record and its history -/

/-- The devices set up, in order. -/
def setups : List Op → List DevPtr
  | [] => []
  | .setup dev :: ops => dev :: setups ops
  | _ :: ops => setups ops

def lastSetup (ops : List Op) : Option DevPtr := (setups ops).getLast?

def lastTty (ops : List Op) : Option DevPtr :=
  ((setups ops).filter fun dev => (mem dev).deviceClass = .tty).getLast?

theorem setups_append (ops ops' : List Op) : setups (ops ++ ops') = setups ops ++ setups ops' := by
  induction ops with
  | nil => rfl
  | cons op ops ih => cases op <;> simp [setups, ih]

@[simp] theorem lastSetup_putchar (ops : List Op) (c : Byte) : lastSetup (ops ++ [.putchar c]) = lastSetup ops := by
  simp [lastSetup, setups_append, setups]

@[simp] theorem lastSetup_flush (ops : List Op) : lastSetup (ops ++ [.flush]) = lastSetup ops := by
  simp [lastSetup, setups_append, setups]

@[simp] theorem lastSetup_setup (ops : List Op) (dev : DevPtr) : lastSetup (ops ++ [.setup dev]) = some dev := by
  simp [lastSetup, setups_append, setups]

@[simp] theorem lastTty_putchar (ops : List Op) (c : Byte) :
    lastTty mem (ops ++ [.putchar c]) = lastTty mem ops := by
  simp [lastTty, setups_append, setups]

@[simp] theorem lastTty_flush (ops : List Op) : lastTty mem (ops ++ [.flush]) = lastTty mem ops := by
  simp [lastTty, setups_append, setups]

theorem lastTty_setup (ops : List Op) (dev : DevPtr) : lastTty mem (ops ++ [.setup dev]) =
    if (mem dev).deviceClass = .tty then some dev else lastTty mem ops := by
  by_cases h : (mem dev).deviceClass = .tty <;> simp [lastTty, setups_append, setups, h]

/-- The console record as the boot state and the calls so far leave it. -/
def record (ops : List Op) : Transcript := Transcript.after mem ⟨[], ⟨none, none, none⟩, false⟩ ops

theorem record_concat (ops : List Op) (op : Op) : record mem (ops ++ [op]) = (record mem ops).next mem op :=
  Transcript.after_append mem _ ops [op]

theorem record_after (ops : List Op) :
    (record mem ops).attached = (lastSetup ops).isSome ∧ (record mem ops).cons.device = lastSetup ops ∧
      (record mem ops).cons.write = (lastTty mem ops).bind fun dev => (mem dev).drivers.serial.write := by
  induction ops using List.reverseRecOn with
  | nil => exact ⟨rfl, rfl, rfl⟩
  | append_singleton ops op ih =>
    rw [record_concat]
    cases op with
    | putchar c => simpa [Transcript.next] using ih
    | flush => simpa [Transcript.next] using ih
    | setup dev =>
      by_cases h : (mem dev).deviceClass = .tty
      · simp [Transcript.next, setupCons, lastTty_setup, h]
      · simp [Transcript.next, setupCons, lastTty_setup, h, ih.2.2]

/-! ### Calls made by one operation -/

/-- The build makes output at `op`, when a console is attached: after the calls `pre`. -/
def Outputs (b : Build) (pre : List Op) (op : Op) : Prop :=
  match b, op with
  | .unbuffered, .putchar _ => True
  | .buffered, .flush => puts pre ≠ []
  | .buffered, .setup _ => puts pre ≠ []
  | _, _ => False

/-- Some call passes `device` to `fn`. -/
def Calls (es : List Event) (fn : FnPtr) (device : Option DevPtr) : Prop :=
  ∃ call ∈ writes es, call.fn = fn ∧ call.device = device

theorem value?_consoleWrite (s : State N) (str : List Byte) (size : Nat) :
    (consoleWrite s str size).value? = some s := by
  unfold consoleWrite
  split <;> rfl

theorem calls_consoleWrite (s : State N) (str : List Byte) (size : Nat) (fn : FnPtr) (device : Option DevPtr) :
    Calls (consoleWrite s str size).events fn device ↔
      s.attached = true ∧ s.cons.write = some fn ∧ s.cons.device = device := by
  unfold consoleWrite Calls
  split
  · next hatt hfn => simp [writes, hatt, hfn]
  · next hne =>
    simp only [events_pure, writes, List.not_mem_nil, false_and, exists_false, false_iff]
    rintro ⟨hatt, hfn, -⟩
    exact hne _ hatt hfn

theorem calls_flush (s : State N) (fn : FnPtr) (device : Option DevPtr) :
    Calls (consoleFlush .buffered s).events fn device ↔
      0 < s.consoleBufferIdx ∧ s.attached = true ∧ s.cons.write = some fn ∧ s.cons.device = device := by
  unfold consoleFlush
  by_cases h : 0 < s.consoleBufferIdx
  · simp only [h, if_true, calls_consoleWrite, true_and]
  · simp [h, Calls, writes]

/-- What the state of a run holds of its history: as many characters as were put, and the record. -/
structure Holds (b : Build) (pre : List Op) (s : State N) : Prop where
  idx : b = .buffered → s.consoleBufferIdx = (puts pre).length
  cons : s.cons = (record mem pre).cons
  attached : s.attached = (record mem pre).attached

variable {mem}

theorem Holds.pos_iff {pre : List Op} {s : State N} (h : Holds mem .buffered pre s) :
    0 < s.consoleBufferIdx ↔ puts pre ≠ [] := by
  rw [h.idx rfl, List.length_pos_iff]

theorem Holds.calls_step {b : Build} {pre : List Op} {s : State N} (h : Holds mem b pre s) (op : Op)
    (hfit : b = .buffered → (puts (pre ++ [op])).length ≤ N) (fn : FnPtr) (device : Option DevPtr) :
    Calls (step mem b s op).events fn device ↔ Outputs b pre op ∧ (record mem (pre ++ [op])).attached = true ∧
      (record mem (pre ++ [op])).cons.write = some fn ∧ (record mem (pre ++ [op])).cons.device = device := by
  rw [record_concat]
  cases b with
  | unbuffered =>
    cases op with
    | putchar c =>
      refine (calls_consoleWrite s [c] 1 fn device).trans ?_
      simp [Outputs, Transcript.next, h.cons, h.attached]
    | flush => simp [step, consoleFlush, Calls, writes, Outputs]
    | setup dev => simp [step, consoleSetup, Calls, writes, Outputs]
  | buffered =>
    cases op with
    | putchar c =>
      have hlt : s.consoleBufferIdx < N := by
        have := hfit rfl
        rw [puts_append, List.length_append] at this
        rw [h.idx rfl]
        exact this
      simp [step, putchar_refines s c hlt, Calls, writes, Outputs]
    | flush =>
      refine (calls_flush s fn device).trans ?_
      rw [h.pos_iff, h.cons, h.attached]
      rfl
    | setup dev =>
      have hflush := calls_flush { s with cons := setupCons mem s.cons dev, attached := true } fn device
      have hsetup : Calls (step mem .buffered s (.setup dev)).events fn device ↔
          Calls (consoleFlush .buffered { s with cons := setupCons mem s.cons dev, attached := true }).events
            fn device := by
        simp only [step, consoleSetup]
        split
        · rfl
        · next hzero => simp [consoleFlush, hzero]
      rw [hsetup, hflush]
      simp only [h.pos_iff, h.cons, Outputs, Transcript.next]

theorem Holds.step {b : Build} {pre : List Op} {s : State N} (h : Holds mem b pre s) (op : Op)
    (hfit : b = .buffered → (puts (pre ++ [op])).length ≤ N) :
    ∃ s', (step mem b s op).value? = some s' ∧ Holds mem b (pre ++ [op]) s' := by
  obtain ⟨hidx, hcons, hatt⟩ := h
  cases b with
  | unbuffered =>
    cases op with
    | putchar c =>
      exact ⟨s, value?_consoleWrite s [c] 1, nofun, by simp [record_concat, Transcript.next, hcons],
        by simp [record_concat, Transcript.next, hatt]⟩
    | flush => exact ⟨s, rfl, nofun, by simp [record_concat, Transcript.next, hcons],
        by simp [record_concat, Transcript.next, hatt]⟩
    | setup dev =>
      exact ⟨{ s with cons := setupCons mem s.cons dev, attached := true }, rfl, nofun,
        by simp [record_concat, Transcript.next, hcons], by simp [record_concat, Transcript.next]⟩
  | buffered =>
    have hfit' := hfit rfl
    rw [puts_append, List.length_append, ← hidx rfl] at hfit'
    obtain ⟨s', hstep, htr, hfits⟩ := step_refines mem op [] s hfit'
    refine ⟨s', by rw [hstep], fun _ => ?_, ?_, ?_⟩
    · have hchars := Transcript.chars_after mem s.transcript [op]
      rw [Transcript.after_cons, Transcript.after_nil, ← htr] at hchars
      rw [← hfits.length_chars, hchars, List.length_append, puts_append, List.length_append, ← hidx rfl]
      rw [show s.transcript.chars.length = s.consoleBufferIdx from length_filled _ (by omega)]
    · rw [record_concat]
      refine (congrArg Transcript.cons htr).trans ?_
      cases op <;> simp [Transcript.next, State.transcript, hcons]
    · rw [record_concat]
      refine (congrArg Transcript.attached htr).trans ?_
      cases op <;> simp [Transcript.next, State.transcript, hatt]

variable (mem)

theorem holds_boot (b : Build) : Holds mem b [] (State.boot : State N) := ⟨fun _ => rfl, rfl, rfl⟩

theorem holds_run (b : Build) (ops : List Op) (hfit : b = .buffered → (puts ops).length ≤ N) :
    ∃ s : State N, (run mem b .boot ops).value? = some s ∧ Holds mem b ops s := by
  induction ops using List.reverseRecOn with
  | nil => exact ⟨_, rfl, holds_boot mem b⟩
  | append_singleton ops op ih =>
    obtain ⟨s, hs, hholds⟩ := ih fun hb => by
      have := hfit hb
      rw [puts_append, List.length_append] at this
      omega
    obtain ⟨s', hs', hholds'⟩ := hholds.step op hfit
    refine ⟨s', ?_, hholds'⟩
    rw [run_append, bind_of_some hs, run_singleton, hs']

/-! ### Pairing -/

/-- The state passed to `fn` belongs to a device whose own write function is `fn`, and not to `last` unless
that is a TTY. -/
def PairedCall (last : Option DevPtr) (call : WriteCall) : Prop :=
  (∃ dev, call.device = some dev ∧ (mem dev).drivers.serial.write = some call.fn) ∧
    ∀ dev, last = some dev → (mem dev).deviceClass ≠ .tty → call.device ≠ some dev

/-- A run from the boot state is free of undefined behaviour and every call it makes is paired. -/
def Paired (b : Build) (N : Nat) (ops : List Op) : Prop :=
  (run mem b (State.boot : State N) ops).Defined ∧
    ∀ pre op, pre ++ [op] <+: ops → ∀ s : State N, (run mem b .boot pre).value? = some s →
      ∀ call ∈ writes (step mem b s op).events, PairedCall mem (lastSetup (pre ++ [op])) call

/-- The device set up last is no TTY, and the TTY set up last has a write function. -/
def Strays (ops : List Op) : Prop :=
  ∃ dev tty fn, lastSetup ops = some dev ∧ (mem dev).deviceClass ≠ .tty ∧ lastTty mem ops = some tty ∧
    (mem tty).drivers.serial.write = some fn

/-- No output is made after a stray set-up. -/
def NoStrayOutput (b : Build) (ops : List Op) : Prop :=
  ∀ pre op, pre ++ [op] <+: ops → Outputs b pre op → ¬ Strays mem (pre ++ [op])

theorem prefix_fits {b : Build} {pre ops : List Op} (hpre : pre <+: ops)
    (hfit : b = .buffered → (puts ops).length ≤ N) : b = .buffered → (puts pre).length ≤ N := by
  intro hb
  obtain ⟨post, rfl⟩ := hpre
  have := hfit hb
  rw [puts_append, List.length_append] at this
  omega

theorem lastTty_of_tty {ops : List Op} {dev : DevPtr} (hlast : lastSetup ops = some dev)
    (htty : (mem dev).deviceClass = .tty) : lastTty mem ops = some dev := by
  obtain ⟨pre, hpre⟩ := List.getLast?_eq_some_iff.mp hlast
  simp [lastTty, hpre, htty]

/-- **Driver and device stay paired exactly in the runs without a stray output** and, in the buffered build,
without overflow. -/
theorem paired_iff (b : Build) (N : Nat) (ops : List Op) :
    Paired mem b N ops ↔ (b = .buffered → (puts ops).length ≤ N) ∧ NoStrayOutput mem b ops := by
  constructor
  · rintro ⟨hdef, hpaired⟩
    have hfit : b = .buffered → (puts ops).length ≤ N := by
      rintro rfl
      by_contra hmany
      obtain ⟨es, hrun⟩ := run_overflow mem (State.boot : State N) ops (Nat.zero_le N) (by rwa [fits_boot])
      rw [hrun] at hdef
      exact absurd hdef (by simp [Defined])
    refine ⟨hfit, ?_⟩
    rintro pre op hpre hout ⟨dev, tty, fn, hlast, hclass, htty, hfn⟩
    have hpre' : pre <+: ops := (List.prefix_append pre [op]).trans hpre
    obtain ⟨s, hs, hholds⟩ := holds_run mem b pre (prefix_fits hpre' hfit)
    obtain ⟨hatt, hdevice, hwrite⟩ := record_after mem (pre ++ [op])
    -- the record carries the TTY's function and the other device's state: `op` calls one with the other
    obtain ⟨call, hcall, -, hstate⟩ := (hholds.calls_step op (prefix_fits hpre hfit) fn (some dev)).mpr
      ⟨hout, by simp [hatt, hlast], by simp [hwrite, htty, hfn], by rw [hdevice, hlast]⟩
    exact (hpaired pre op hpre s hs call hcall).2 dev hlast hclass hstate
  · rintro ⟨hfit, hstray⟩
    obtain ⟨s, hs, -⟩ := holds_run mem b ops hfit
    refine ⟨by simp [Defined, hs], ?_⟩
    intro pre op hpre s hs call hcall
    have hpre' : pre <+: ops := (List.prefix_append pre [op]).trans hpre
    obtain ⟨s', hs', hholds⟩ := holds_run (N := N) mem b pre (prefix_fits hpre' hfit)
    obtain rfl : s' = s := Option.some.inj (hs'.symm.trans hs)
    obtain ⟨hout, hatt, hfn, hstate⟩ := (hholds.calls_step op (prefix_fits hpre hfit) call.fn call.device).mp
      ⟨call, hcall, rfl, rfl⟩
    obtain ⟨hatt', hdevice, hwrite⟩ := record_after mem (pre ++ [op])
    obtain ⟨dev, hlast⟩ := Option.isSome_iff_exists.mp (hatt'.symm.trans hatt)
    have htty : (mem dev).deviceClass = .tty := by
      by_contra hclass
      obtain ⟨tty, htty, hfn'⟩ := Option.bind_eq_some_iff.mp (hwrite.symm.trans hfn)
      exact hstray pre op hpre hout ⟨dev, tty, call.fn, hlast, hclass, htty, hfn'⟩
    rw [lastTty_of_tty mem hlast htty, Option.bind_some] at hwrite
    refine ⟨⟨dev, by rw [← hstate, hdevice, hlast], by rw [← hwrite, hfn]⟩, fun dev' hlast' hclass => ?_⟩
    obtain rfl : dev = dev' := Option.some.inj (hlast.symm.trans hlast')
    exact absurd htty hclass

/-- A serial console, then a disk, which has no write function: the next character goes to the serial driver
with the disk's state. -/
def serialAndDisk : DevPtr → Device 32
  | 0 => i386Serial 1 2 3
  | _ => ⟨.disk, ⟨none, none, none, 0, 0, 0⟩⟩

theorem not_paired_disk : ¬ Paired serialAndDisk .unbuffered 0 [.setup 0, .setup 1, .putchar (ch 'a')] := by
  rintro ⟨-, h⟩
  obtain ⟨⟨dev, hdev, hfn⟩, -⟩ := h [.setup 0, .setup 1] (.putchar (ch 'a')) (by simp) _ rfl
    ⟨2, some 1, [ch 'a'], 1⟩ (by decide)
  obtain rfl : 1 = dev := Option.some.inj hdev
  exact absurd hfn (by decide)

end QDNix.Kern
