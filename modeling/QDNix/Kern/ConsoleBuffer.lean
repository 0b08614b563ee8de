import QDNix.Kern.Transcript

/-!
# The console buffer: bounds and the early boot log

`inBounds_iff`: a run from the boot state keeps inside the buffer exactly when it puts at most `N`
characters, whatever set-ups and flushes it contains: no flush makes room. Up to there the events are those
of the transcript (`trace_within`); character `N + 1` is stored at index `N` (`run_overflow`).

`setup_delivers`: before the first set-up nothing is written and nothing is lost, and the set-up of a TTY
hands it everything in one call.
-/

namespace QDNix.Kern

open Dev Traced

variable {N W : Nat} (mem : DevPtr → Device W)

/-- A store lies inside a buffer of `N` bytes; a write hands over at most `N`. -/
def Event.Within (N : Nat) : Event → Prop
  | .store idx => idx < N
  | .write call => call.size ≤ N

/-- A run of the buffered build from the boot state stays inside its buffer. -/
structure InBounds (N : Nat) (ops : List Op) : Prop where
  idx_le : ∀ pre, pre <+: ops → ∀ s : State N, (run mem .buffered .boot pre).value? = some s →
    s.consoleBufferIdx ≤ N
  events_within : ∀ e ∈ (run mem .buffered (.boot : State N) ops).events, e.Within N

theorem replay_within {t : Transcript} (h : t.chars.length ≤ N) : ∀ e ∈ t.replay, e.Within N := by
  intro e he
  unfold Transcript.replay at he
  split at he
  · split at he
    · simp at he
    · rw [List.mem_singleton] at he
      subst he
      exact h
  · simp at he

theorem trace_within (ops : List Op) (t : Transcript) (h : t.chars.length + (puts ops).length ≤ N) :
    ∀ e ∈ t.trace mem ops, e.Within N := by
  induction ops generalizing t with
  | nil => simp [Transcript.trace]
  | cons op ops ih =>
    intro e he
    have hchars : t.chars.length ≤ N := by omega
    rcases List.mem_append.mp he with he | he
    · cases op with
      | putchar c =>
        rw [Transcript.shows, List.mem_singleton] at he
        subst he
        simp only [puts_putchar, List.length_cons] at h
        exact show t.chars.length < N by omega
      | flush => exact replay_within hchars e he
      | setup dev => exact replay_within (t := t.next mem (.setup dev)) hchars e he
    · refine ih (t.next mem op) ?_ e he
      cases op with
      | putchar c =>
        simp only [Transcript.next, List.length_append, List.length_singleton]
        simp only [puts_putchar, List.length_cons] at h
        omega
      | flush => exact h
      | setup dev => exact h

/-- **The buffered console stays inside its buffer exactly in the runs that put at most `N` characters.** -/
theorem inBounds_iff (N : Nat) (ops : List Op) : InBounds mem N ops ↔ (puts ops).length ≤ N := by
  constructor
  · rintro ⟨-, hevents⟩
    by_contra hfit
    obtain ⟨es, hrun⟩ := run_overflow mem (State.boot : State N) ops (Nat.zero_le N) (by rwa [fits_boot])
    have hstore : Event.Within N (.store N) := hevents _ (by simp [hrun])
    exact absurd hstore (lt_irrefl N)
  · intro hfit
    refine ⟨fun pre hpre s hs => ?_, ?_⟩
    · obtain ⟨post, rfl⟩ := hpre
      have hfits : Fits pre (State.boot : State N) := by
        rw [fits_boot]
        rw [puts_append, List.length_append] at hfit
        omega
      obtain ⟨s', hrun, -, hfits'⟩ := run_refines mem pre _ hfits
      rw [hrun, Option.some.injEq] at hs
      subst hs
      exact hfits'.idx_le
    · obtain ⟨s', hrun, -, -⟩ := run_refines mem ops (State.boot : State N) (fits_boot.mpr hfit)
      rw [hrun]
      exact trace_within mem ops _ (by simpa using hfit)

/-- Two characters and a buffer of one: the second is stored at index 1. -/
theorem not_inBounds_two : ¬ InBounds (fun _ => i386Serial 1 2 3) 1 [.putchar (ch 'a'), .putchar (ch 'b')] :=
  fun h => absurd (h.events_within (.store 1) (by decide)) (lt_irrefl 1)

/-! ### The early boot log -/

theorem after_noSetup {ops : List Op} (h : NoSetup ops) (t : Transcript) :
    t.after mem ops = { t with chars := t.chars ++ puts ops } := by
  induction ops generalizing t with
  | nil => simp
  | cons op ops ih =>
    rw [Transcript.after_cons, ih h.tail]
    cases op with
    | putchar c => simp [Transcript.next]
    | flush => rfl
    | setup dev => exact absurd List.mem_cons_self (h dev)

theorem writes_detached {ops : List Op} (h : NoSetup ops) {t : Transcript} (ht : t.attached = false) :
    writes (t.trace mem ops) = [] := by
  induction ops generalizing t with
  | nil => rfl
  | cons op ops ih =>
    rw [Transcript.trace, writes_append]
    cases op with
    | putchar c => exact ih h.tail (t := t.next mem (.putchar c)) ht
    | flush =>
      rw [ih h.tail (t := t.next mem .flush) ht]
      simp [Transcript.shows, Transcript.replay, ht, writes]
    | setup dev => exact absurd List.mem_cons_self (h dev)

/-- **No early boot message is lost.** Before the set-up of a TTY nothing is written and the buffer holds
every character put; the set-up writes them in one call, or makes no call when there are none. -/
theorem setup_delivers (N : Nat) (ops : List Op) (hquiet : NoSetup ops) (hfit : (puts ops).length ≤ N)
    (dev : DevPtr) (fn : FnPtr) (htty : (mem dev).deviceClass = .tty)
    (hwrite : (mem dev).drivers.serial.write = some fn) :
    (∃ (es : List Event) (s : State N), run mem .buffered .boot ops = ⟨es, some s⟩ ∧ writes es = [] ∧
      filled s.consoleBuffer s.consoleBufferIdx = puts ops) ∧
    ∃ (es : List Event) (s : State N), run mem .buffered .boot (ops ++ [.setup dev]) = ⟨es, some s⟩ ∧
      writes es = if puts ops = [] then [] else [⟨fn, some dev, puts ops, (puts ops).length⟩] := by
  have hafter := after_noSetup mem hquiet ⟨[], ⟨none, none, none⟩, false⟩
  have hbefore := writes_detached mem hquiet (t := ⟨[], ⟨none, none, none⟩, false⟩) rfl
  constructor
  · obtain ⟨s, hrun, htr, -⟩ := run_refines mem ops (State.boot : State N) (fits_boot.mpr hfit)
    refine ⟨_, s, hrun, hbefore, ?_⟩
    rw [boot_transcript, hafter] at htr
    exact congrArg Transcript.chars htr
  · have hfits : Fits (ops ++ [.setup dev]) (State.boot : State N) := fits_boot.mpr (by simpa using hfit)
    obtain ⟨s, hrun, -, -⟩ := run_refines mem _ _ hfits
    refine ⟨_, s, hrun, ?_⟩
    rw [boot_transcript, Transcript.trace_append, writes_append, hbefore, hafter, List.nil_append]
    simp only [Transcript.trace, Transcript.shows, Transcript.next, Transcript.replay, setupCons, htty, hwrite,
      if_true, List.append_nil, List.nil_append]
    split <;> rfl

theorem setup_delivers_hi :
    (∃ (es : List Event) (s : State 2), run (fun _ => i386Serial 1 2 3) .buffered .boot
        [.putchar (ch 'h'), .flush, .putchar (ch 'i')] = ⟨es, some s⟩ ∧ writes es = [] ∧
      filled s.consoleBuffer s.consoleBufferIdx = [ch 'h', ch 'i']) ∧
    ∃ (es : List Event) (s : State 2), run (fun _ => i386Serial 1 2 3) .buffered .boot
        [.putchar (ch 'h'), .flush, .putchar (ch 'i'), .setup 0] = ⟨es, some s⟩ ∧
      writes es = [⟨2, some 0, [ch 'h', ch 'i'], 2⟩] :=
  setup_delivers (fun _ => i386Serial 1 2 3) 2 [.putchar (ch 'h'), .flush, .putchar (ch 'i')]
    (by intro dev h; simp at h) (by decide) 0 2 rfl rfl

end QDNix.Kern
