import Mathlib.Data.Finset.Basic

/-!
# Processes and descriptors

The part of POSIX a forking server rests on. A process runs a program, which says for each of its states what
is called next; a `Move` says which process goes and what its call returns. A fork copies the descriptors. A
process that exits stays in the table, unreaped, until its parent waits for it: SIGCHLD has its default
disposition.

What one call changes is `call_changes`. So in a program that never waits, an unreaped process stays for ever
(`unreaped_run`). Not modelled: descriptors shared with processes outside the table, and what becomes of the
children of a process that exits.
-/

universe u

namespace Posix

abbrev Pid := Nat

abbrev Fd := Nat

/-- The next call of a process, and where it goes on for each result. -/
inductive Request (σ : Type u)
  | accept (sock : Fd) (next : Option Fd → σ)
  | close (fd : Fd) (next : σ)
  | fork (next : Option Pid → σ) (child : σ)
  | wait (next : Option Pid → σ)
  | library (next : Bool → σ)
  | exit

/-- What a call returns; `none` is a failure. -/
inductive Result
  | fd (fd? : Option Fd)
  | pid (pid? : Option Pid)
  | done (ok : Bool)
deriving DecidableEq, Repr

structure Move where
  pid : Pid
  result : Result
deriving DecidableEq, Repr

inductive Status (σ : Type u)
  | running (pc : σ)
  | unreaped
deriving DecidableEq, Repr

/-- `parent` is `none` where the parent is not in the table. -/
structure Proc (σ : Type u) where
  parent : Option Pid
  fds : Finset Fd
  status : Status σ
deriving DecidableEq

abbrev Table (σ : Type u) := Pid → Option (Proc σ)

variable {σ : Type u}

def Table.put (t : Table σ) (pid : Pid) (proc? : Option (Proc σ)) : Table σ :=
  fun q => if q = pid then proc? else t q

@[simp] theorem Table.put_self (t : Table σ) (pid : Pid) (proc? : Option (Proc σ)) :
    t.put pid proc? pid = proc? := if_pos rfl

theorem Table.put_other (t : Table σ) {pid q : Pid} (proc? : Option (Proc σ)) (h : q ≠ pid) :
    t.put pid proc? q = t q := if_neg h

/-- A process goes on at `pc`. -/
def Proc.resume (proc : Proc σ) (pc : σ) : Proc σ := { proc with status := .running pc }

/-- One call of the process `proc`, number `pid`; `none` if it cannot return this result. -/
def call (t : Table σ) (pid : Pid) (proc : Proc σ) : Request σ → Result → Option (Table σ)
  | .accept _ next, .fd none => some (t.put pid (proc.resume (next none)))
  | .accept sock next, .fd (some fd) =>
    if sock ∈ proc.fds ∧ fd ∉ proc.fds then
      some (t.put pid (some { proc.resume (next (some fd)) with fds := insert fd proc.fds }))
    else none
  | .close fd next, .done _ => some (t.put pid (some { proc.resume next with fds := proc.fds.erase fd }))
  | .fork next _, .pid none => some (t.put pid (proc.resume (next none)))
  | .fork next child, .pid (some c) =>
    if (t c).isNone then
      some ((t.put pid (proc.resume (next (some c)))).put c (some ⟨some pid, proc.fds, .running child⟩))
    else none
  | .wait next, .pid none => some (t.put pid (proc.resume (next none)))
  | .wait next, .pid (some c) =>
    match t c with
    | some ⟨some parent, _, .unreaped⟩ =>
      if parent = pid then some ((t.put pid (proc.resume (next (some c)))).put c none) else none
    | _ => none
  | .library next, .done ok => some (t.put pid (proc.resume (next ok)))
  | .exit, .done _ => some (t.put pid (some ⟨proc.parent, ∅, .unreaped⟩))
  | _, _ => none

def step (program : σ → Request σ) (t : Table σ) (m : Move) : Option (Table σ) :=
  match t m.pid with
  | some proc =>
    match proc.status with
    | .running pc => call t m.pid proc (program pc) m.result
    | .unreaped => none
  | none => none

def run (program : σ → Request σ) (t : Table σ) (moves : List Move) : Option (Table σ) :=
  moves.foldlM (step program) t

/-! ### What one call changes -/

/-- From `t` to `t'`, process `pid` changes; a fork adds another, and a wait removes one that is unreaped. -/
def Changes (t t' : Table σ) (pid : Pid) (request : Request σ) : Prop :=
  ∃ self, t' = t.put pid self ∨
    (∃ c child, t c = none ∧ t' = (t.put pid self).put c child) ∨
    (∃ c dead next, t c = some dead ∧ dead.status = .unreaped ∧ request = .wait next ∧
      t' = (t.put pid self).put c none)

theorem changes_self {t t' : Table σ} {pid : Pid} {request : Request σ} {self : Option (Proc σ)}
    (h : some (t.put pid self) = some t') : Changes t t' pid request :=
  ⟨self, .inl (Option.some.inj h).symm⟩

theorem call_changes {t t' : Table σ} {pid : Pid} {proc : Proc σ} {request : Request σ} {result : Result}
    (h : call t pid proc request result = some t') : Changes t t' pid request := by
  unfold call at h
  split at h
  · exact changes_self h
  · obtain ⟨-, h⟩ := Option.ite_none_right_eq_some.mp h
    exact changes_self h
  · exact changes_self h
  · exact changes_self h
  · next c =>
    obtain ⟨hfresh, h⟩ := Option.ite_none_right_eq_some.mp h
    exact ⟨_, .inr (.inl ⟨c, _, Option.isNone_iff_eq_none.mp hfresh, (Option.some.inj h).symm⟩)⟩
  · exact changes_self h
  · next next c =>
    split at h
    · next hdead =>
      obtain ⟨-, h⟩ := Option.ite_none_right_eq_some.mp h
      exact ⟨_, .inr (.inr ⟨c, _, next, hdead, rfl, rfl, (Option.some.inj h).symm⟩)⟩
    · cases h
  · exact changes_self h
  · exact changes_self h
  · cases h

section OwnProcess

variable {t t' : Table σ} {pid : Pid} {proc : Proc σ} {result : Result}

theorem call_accept {sock : Fd} {next : Option Fd → σ}
    (h : call t pid proc (.accept sock next) result = some t') :
    t' pid = some (proc.resume (next none)) ∨
      ∃ fd, fd ∉ proc.fds ∧ t' pid = some { proc.resume (next (some fd)) with fds := insert fd proc.fds } := by
  cases result with
  | fd fd? =>
    cases fd? with
    | none =>
      obtain rfl := Option.some.inj h
      exact .inl (t.put_self _ _)
    | some fd =>
      obtain ⟨⟨-, hfresh⟩, h⟩ := Option.ite_none_right_eq_some.mp h
      obtain rfl := Option.some.inj h
      exact .inr ⟨fd, hfresh, t.put_self _ _⟩
  | pid => cases h
  | done => cases h

theorem call_close {fd : Fd} {next : σ} (h : call t pid proc (.close fd next) result = some t') :
    t' pid = some { proc.resume next with fds := proc.fds.erase fd } := by
  cases result with
  | fd => cases h
  | pid => cases h
  | done =>
    obtain rfl := Option.some.inj h
    exact t.put_self _ _

theorem call_fork {next : Option Pid → σ} {child : σ} (hproc : t pid = some proc)
    (h : call t pid proc (.fork next child) result = some t') :
    result = .pid none ∧ t' pid = some (proc.resume (next none)) ∨
      ∃ c, result = .pid (some c) ∧ t' pid = some (proc.resume (next (some c))) := by
  cases result with
  | fd => cases h
  | pid pid? =>
    cases pid? with
    | none =>
      obtain rfl := Option.some.inj h
      exact .inl ⟨rfl, t.put_self _ _⟩
    | some c =>
      obtain ⟨hfresh, h⟩ := Option.ite_none_right_eq_some.mp h
      obtain rfl := Option.some.inj h
      have hne : pid ≠ c := fun heq => by simp [← heq, hproc] at hfresh
      exact .inr ⟨c, rfl, (Table.put_other _ _ hne).trans (t.put_self _ _)⟩
  | done => cases h

end OwnProcess

theorem step_eq_some {program : σ → Request σ} {t t' : Table σ} {m : Move} (h : step program t m = some t') :
    ∃ proc pc, t m.pid = some proc ∧ proc.status = .running pc ∧
      call t m.pid proc (program pc) m.result = some t' := by
  unfold step at h
  split at h
  · next proc hproc =>
    split at h
    · next pc hpc => exact ⟨proc, pc, hproc, hpc, h⟩
    · cases h
  · cases h

theorem step_other {program : σ → Request σ} {t t' : Table σ} {m : Move} {q : Pid} {proc : Proc σ}
    (h : step program t m = some t') (hq : q ≠ m.pid) (hproc : t q = some proc) :
    t' q = some proc ∨ proc.status = .unreaped ∧ ∃ pc next, program pc = .wait next := by
  obtain ⟨_, pc, -, -, hcall⟩ := step_eq_some h
  obtain ⟨self, rfl | ⟨c, child, hfresh, rfl⟩ | ⟨c, dead, next, hdead, hunreaped, hwait, rfl⟩⟩ :=
    call_changes hcall
  · exact .inl ((t.put_other self hq).trans hproc)
  · have hc : q ≠ c := fun hqc => by simp [← hqc, hproc] at hfresh
    exact .inl (((Table.put_other _ _ hc).trans (t.put_other self hq)).trans hproc)
  · by_cases hc : q = c
    · obtain rfl := Option.some.inj ((hc ▸ hproc).symm.trans hdead)
      exact .inr ⟨hunreaped, pc, next, hwait⟩
    · exact .inl (((Table.put_other _ _ hc).trans (t.put_other self hq)).trans hproc)

/-! ### Runs -/

theorem run_cons_eq_some {program : σ → Request σ} {t t' : Table σ} {m : Move} {ms : List Move} :
    run program t (m :: ms) = some t' ↔ ∃ t₁, step program t m = some t₁ ∧ run program t₁ ms = some t' := by
  rw [run, List.foldlM_cons]
  exact Option.bind_eq_some_iff

theorem run_append_eq_some {program : σ → Request σ} {t t' : Table σ} {ms ms' : List Move} :
    run program t (ms ++ ms') = some t' ↔ ∃ t₁, run program t ms = some t₁ ∧ run program t₁ ms' = some t' := by
  rw [run, List.foldlM_append]
  exact Option.bind_eq_some_iff

theorem run_invariant {program : σ → Request σ} {I : Table σ → Prop} {ok : Move → Prop}
    (hmove : ∀ t t' m, ok m → step program t m = some t' → I t → I t') (ms : List Move) : ∀ t t' : Table σ,
    (∀ m ∈ ms, ok m) → run program t ms = some t' → I t → I t' := by
  induction ms with
  | nil =>
    intro t t' _ h hinv
    obtain rfl := Option.some.inj h
    exact hinv
  | cons m ms ih =>
    intro t t' hok h hinv
    obtain ⟨t₁, hstep, hrest⟩ := run_cons_eq_some.mp h
    rw [List.forall_mem_cons] at hok
    exact ih t₁ t' hok.2 hrest (hmove t t₁ m hok.1 hstep hinv)

theorem unreaped_step {program : σ → Request σ} (hwait : ∀ pc next, program pc ≠ .wait next) {t t' : Table σ}
    {m : Move} {q : Pid} {proc : Proc σ} (hunreaped : proc.status = .unreaped)
    (hstep : step program t m = some t') (hproc : t q = some proc) : t' q = some proc := by
  by_cases hq : q = m.pid
  · obtain ⟨proc', pc, hproc', hrunning, -⟩ := step_eq_some hstep
    obtain rfl := Option.some.inj ((hq ▸ hproc).symm.trans hproc')
    cases hunreaped.symm.trans hrunning
  · rcases step_other hstep hq hproc with hsame | ⟨-, pc, next, hnext⟩
    · exact hsame
    · exact absurd hnext (hwait pc next)

/-- **Where nobody waits, an unreaped process stays.** -/
theorem unreaped_run {program : σ → Request σ} (hwait : ∀ pc next, program pc ≠ .wait next) {q : Pid}
    {proc : Proc σ} (hunreaped : proc.status = .unreaped) (ms : List Move) (t t' : Table σ)
    (hrun : run program t ms = some t') (hproc : t q = some proc) : t' q = some proc :=
  run_invariant (I := fun t => t q = some proc) (fun _ _ _ _ => unreaped_step hwait hunreaped) ms t t'
    (fun _ _ => trivial) hrun hproc

/-! ### More calls -/

section MoreCalls

variable {t t' : Table σ} {pid : Pid} {proc : Proc σ} {result : Result}

theorem call_library {next : Bool → σ} (h : call t pid proc (.library next) result = some t') :
    ∃ ok, t' pid = some (proc.resume (next ok)) := by
  cases result with
  | fd => cases h
  | pid => cases h
  | done ok =>
    obtain rfl := Option.some.inj h
    exact ⟨ok, t.put_self _ _⟩

theorem call_exit (h : call t pid proc .exit result = some t') : t' pid = some ⟨proc.parent, ∅, .unreaped⟩ := by
  cases result with
  | fd => cases h
  | pid => cases h
  | done =>
    obtain rfl := Option.some.inj h
    exact t.put_self _ _

theorem call_fork_child {next : Option Pid → σ} {child : σ} {c : Pid}
    (h : call t pid proc (.fork next child) (.pid (some c)) = some t') :
    t' c = some ⟨some pid, proc.fds, .running child⟩ := by
  obtain ⟨-, h⟩ := Option.ite_none_right_eq_some.mp h
  obtain rfl := Option.some.inj h
  exact Table.put_self _ _ _

theorem call_pid {request : Request σ} {pid? : Option Pid} (h : call t pid proc request (.pid pid?) = some t')
    (hwait : ∀ next, request ≠ .wait next) : ∃ next child, request = .fork next child := by
  cases request with
  | fork next child => exact ⟨next, child, rfl⟩
  | wait next => exact absurd rfl (hwait next)
  | accept => cases h
  | close => cases h
  | library => cases h
  | exit => cases h

end MoreCalls

/-! ### Who is in the table -/

/-- The process a call has started. In a program that never waits a number is returned by a fork only. -/
def Result.forked : Result → List Pid
  | .pid (some c) => [c]
  | _ => []

def forked (ms : List Move) : List Pid := ms.flatMap fun m => m.result.forked

def failedForks (ms : List Move) : ℕ := (ms.filter fun m => decide (m.result = .pid none)).length

theorem forked_snoc (ms : List Move) (m : Move) : forked (ms ++ [m]) = forked ms ++ m.result.forked := by
  simp [forked]

theorem failedForks_snoc (ms : List Move) (m : Move) :
    failedForks (ms ++ [m]) = failedForks ms + if m.result = .pid none then 1 else 0 := by
  by_cases h : m.result = .pid none <;> simp [failedForks, h]

theorem isSome_put {t : Table σ} {pid : Pid} {proc : Proc σ} (hpid : (t pid).isSome) (q : Pid) :
    (t.put pid (some proc) q).isSome ↔ (t q).isSome := by
  by_cases hq : q = pid
  · subst hq
    rw [Table.put_self]
    exact iff_of_true rfl hpid
  · rw [Table.put_other _ _ hq]

theorem call_domain {t t' : Table σ} {pid : Pid} {proc : Proc σ} {request : Request σ} {result : Result}
    (h : call t pid proc request result = some t') (hwait : ∀ next, request ≠ .wait next) (hpid : (t pid).isSome) :
    (∀ c ∈ result.forked, t c = none) ∧ ∀ q, (t' q).isSome ↔ (t q).isSome ∨ q ∈ result.forked := by
  have hsame : ∀ {proc' : Proc σ} {result : Result}, result.forked = [] → some (t.put pid (some proc')) = some t' →
      (∀ c ∈ result.forked, t c = none) ∧ ∀ q, (t' q).isSome ↔ (t q).isSome ∨ q ∈ result.forked := by
    intro proc' result hforked hput
    obtain rfl := Option.some.inj hput
    rw [hforked]
    refine ⟨fun c hc => absurd hc List.not_mem_nil, fun q => ?_⟩
    rw [isSome_put hpid]
    simp
  unfold call at h
  split at h
  · exact hsame rfl h
  · obtain ⟨-, h⟩ := Option.ite_none_right_eq_some.mp h
    exact hsame rfl h
  · exact hsame rfl h
  · exact hsame rfl h
  · next c =>
    obtain ⟨hfresh, h⟩ := Option.ite_none_right_eq_some.mp h
    obtain rfl := Option.some.inj h
    refine ⟨fun d hd => ?_, fun q => ?_⟩
    · obtain rfl : d = c := List.mem_singleton.mp hd
      exact Option.isNone_iff_eq_none.mp hfresh
    · by_cases hq : q = c
      · subst hq
        simp [Result.forked]
      · rw [Table.put_other _ _ hq, isSome_put hpid]
        simp [Result.forked, hq]
  · exact absurd rfl (hwait _)
  · exact absurd rfl (hwait _)
  · exact hsame rfl h
  · exact hsame rfl h
  · cases h

theorem domain_run {program : σ → Request σ} (hwait : ∀ pc next, program pc ≠ .wait next) {t : Table σ}
    (ms : List Move) : ∀ t', run program t ms = some t' →
      (forked ms).Nodup ∧ (∀ c ∈ forked ms, t c = none) ∧ ∀ q, (t' q).isSome ↔ (t q).isSome ∨ q ∈ forked ms := by
  induction ms using List.reverseRecOn with
  | nil =>
    intro t' hrun
    obtain rfl := Option.some.inj hrun
    exact ⟨List.nodup_nil, fun c hc => absurd hc List.not_mem_nil, fun q => by simp [forked]⟩
  | append_singleton ms m ih =>
    intro t' hrun
    obtain ⟨t₁, hfirst, hlast⟩ := run_append_eq_some.mp hrun
    obtain ⟨t₂, hstep, hnil⟩ := run_cons_eq_some.mp hlast
    obtain rfl := Option.some.inj hnil
    obtain ⟨hnodup, hfresh, hdomain⟩ := ih t₁ hfirst
    obtain ⟨proc, pc, hproc, -, hcall⟩ := step_eq_some hstep
    obtain ⟨hnew, hdomain'⟩ := call_domain hcall (hwait pc) (by simp [hproc])
    have hother : ∀ c ∈ m.result.forked, t c = none ∧ c ∉ forked ms := by
      intro c hc
      have hnone := hnew c hc
      have hout : ¬ ((t c).isSome ∨ c ∈ forked ms) := fun hin => by simpa [hnone] using (hdomain c).mpr hin
      rw [not_or] at hout
      exact ⟨by simpa using hout.1, hout.2⟩
    rw [forked_snoc]
    refine ⟨?_, fun c hc => ?_, fun q => ?_⟩
    · rw [List.nodup_append]
      refine ⟨hnodup, ?_, fun a ha b hb hab => (hother b hb).2 (hab ▸ ha)⟩
      cases m.result with
      | pid pid? => cases pid? <;> simp [Result.forked]
      | fd => exact List.nodup_nil
      | done => exact List.nodup_nil
    · rcases List.mem_append.mp hc with hc | hc
      · exact hfresh c hc
      · exact (hother c hc).1
    · rw [hdomain', hdomain, List.mem_append, or_assoc]

end Posix
