import QDNix.Lib.Processes

/-!
# The accept loop

`server` and `client_handler` of `geminid/server.c`, as a program for processes. The parent closes the client
socket behind a fork that succeeds, so where no fork fails it is back at the head of the loop with the
descriptors it came with (`parent_run`). Neither waits for a child, and `main` changes no disposition but that
of SIGPIPE: every child that exits stays unreaped (`server_keeps`).
-/

namespace QDNix.Geminid

open Posix

/-- Where a process stands. The first three are the parent's, the others the child's. -/
inductive Pc
  | accept
  | fork (clientSock : Fd)
  | closeClient (clientSock : Fd)
  | closeServer (clientSock : Fd)
  | sslAccept (sock : Fd)
  | protocolHandler (sock : Fd)
  | closeSock (sock : Fd)
  | exit
deriving DecidableEq, Repr

/-- The loop of `server`; a child goes through `client_handler` and exits. -/
def server (serverSock : Fd) : Pc → Request Pc
  | .accept =>
    .accept serverSock fun
      | some clientSock => .fork clientSock
      | none => .accept
  | .fork clientSock =>
    -- the branch of a failed fork leaves `client_sock` open
    .fork (fun
      | some _ => .closeClient clientSock
      | none => .accept) (.closeServer clientSock)
  | .closeClient clientSock => .close clientSock .accept
  | .closeServer clientSock => .close serverSock (.sslAccept clientSock)
  | .sslAccept sock => .library fun ok => if ok then .protocolHandler sock else .closeSock sock
  | .protocolHandler sock => .library fun _ => .closeSock sock
  | .closeSock sock => .close sock .exit
  | .exit => .exit

/-- The server at the head of its loop, with the descriptors `fds`. -/
def entry (pid : Pid) (fds : Finset Fd) : Table Pc :=
  fun q => if q = pid then some ⟨none, fds, .running .accept⟩ else none

/-- The parent is at the head of the loop. -/
def AtHead (pid : Pid) (t : Table Pc) : Prop := (t pid).map Proc.status = some (.running .accept)

def Unreaped (q : Pid) (t : Table Pc) : Prop := (t q).map Proc.status = some .unreaped

/-- Back at the head of the loop, the parent has the descriptors it came with. -/
def KeepsNoDescriptor (serverSock : Fd) (pid : Pid) (fds : Finset Fd) (moves : List Move) : Prop :=
  ∀ t, run (server serverSock) (entry pid fds) moves = some t → AtHead pid t → (t pid).map Proc.fds = some fds

/-- Once a child has exited and the parent has gone round the loop again, the child is no longer unreaped. -/
def KeepsNoChild (serverSock : Fd) (pid : Pid) (fds : Finset Fd) (moves : List Move) : Prop :=
  ∀ ms ms' ms'' t₁ t₂ t₃ q, moves = ms ++ ms' ++ ms'' →
    run (server serverSock) (entry pid fds) ms = some t₁ → Unreaped q t₁ →
    run (server serverSock) t₁ ms' = some t₂ → AtHead pid t₂ →
    run (server serverSock) t₂ ms'' = some t₃ → AtHead pid t₃ → (∃ m ∈ ms'', m.pid = pid) → ¬ Unreaped q t₃

variable {serverSock : Fd} {pid : Pid} {fds : Finset Fd}

/-- The descriptors the parent should have. -/
def Expected (fds : Finset Fd) : Pc → Finset Fd → Prop
  | .accept, held => held = fds
  | .fork clientSock, held | .closeClient clientSock, held => clientSock ∉ fds ∧ held = insert clientSock fds
  | _, _ => False

/-- The parent runs, with the descriptors it should have. -/
def ParentInv (pid : Pid) (fds : Finset Fd) (t : Table Pc) : Prop :=
  ∃ held pc, t pid = some ⟨none, held, .running pc⟩ ∧ Expected fds pc held

theorem server_ne_wait (serverSock : Fd) (pc : Pc) (next : Option Pid → Pc) :
    server serverSock pc ≠ .wait next := by
  cases pc <;> simp [server]

theorem parent_step {t t' : Table Pc} {m : Move} (hinv : ParentInv pid fds t)
    (hstep : step (server serverSock) t m = some t') (hfork : m.result ≠ .pid none) : ParentInv pid fds t' := by
  obtain ⟨held, pc, hproc, hheld⟩ := hinv
  by_cases hpid : pid = m.pid
  · subst hpid
    obtain ⟨proc, pc', hproc', hrunning, hcall⟩ := step_eq_some hstep
    obtain rfl := Option.some.inj (hproc.symm.trans hproc')
    obtain rfl := Status.running.inj hrunning
    cases pc with
    | accept =>
      obtain rfl := hheld
      rcases call_accept hcall with hself | ⟨fd, hfresh, hself⟩
      · exact ⟨held, .accept, hself, rfl⟩
      · exact ⟨insert fd held, .fork fd, hself, hfresh, rfl⟩
    | fork clientSock =>
      rcases call_fork hproc hcall with ⟨hfailed, -⟩ | ⟨c, -, hself⟩
      · exact absurd hfailed hfork
      · exact ⟨held, .closeClient clientSock, hself, hheld⟩
    | closeClient clientSock =>
      obtain ⟨hfresh, rfl⟩ := hheld
      exact ⟨_, .accept, call_close hcall, Finset.erase_insert hfresh⟩
    | _ => exact hheld.elim
  · rcases step_other hstep hpid hproc with hsame | ⟨hunreaped, -⟩
    · exact ⟨held, pc, hsame, hheld⟩
    · cases hunreaped

theorem parent_run {moves : List Move} {t t' : Table Pc} (hinv : ParentInv pid fds t)
    (hrun : run (server serverSock) t moves = some t') (hfork : ∀ m ∈ moves, m.result ≠ .pid none) :
    ParentInv pid fds t' :=
  run_invariant (fun _ _ _ hm hstep hinv => parent_step hinv hstep hm) moves t t' hfork hrun hinv

/-- **The parent keeps no descriptor of a connection, as long as no fork fails; a child that has exited stays
unreaped** for the rest of the run. -/
theorem server_keeps {moves : List Move} {t : Table Pc}
    (hrun : run (server serverSock) (entry pid fds) moves = some t) :
    ((∀ m ∈ moves, m.result ≠ .pid none) → AtHead pid t → (t pid).map Proc.fds = some fds) ∧
      ∀ ms ms' t₁ q, moves = ms ++ ms' → run (server serverSock) (entry pid fds) ms = some t₁ →
        Unreaped q t₁ → Unreaped q t := by
  constructor
  · intro hfork hhead
    have hentry : ParentInv pid fds (entry pid fds) := ⟨fds, .accept, if_pos rfl, rfl⟩
    obtain ⟨held, pc, hproc, hheld⟩ := parent_run hentry hrun hfork
    rw [AtHead, hproc, Option.map_some, Option.some.injEq, Status.running.injEq] at hhead
    subst hhead
    rw [hproc, Option.map_some]
    exact congrArg some hheld
  · rintro ms ms' t₁ q rfl hfirst hunreaped
    obtain ⟨t₁', hfirst', hrest⟩ := run_append_eq_some.mp hrun
    obtain rfl := Option.some.inj (hfirst.symm.trans hfirst')
    obtain ⟨proc, hproc, hstatus⟩ := Option.map_eq_some_iff.mp hunreaped
    have hlast := unreaped_run (server_ne_wait serverSock) hstatus ms' _ _ hrest hproc
    rw [Unreaped, hlast, Option.map_some, hstatus]

/-- A connection accepted on `sock` and served by process 101. -/
def connection (sock : Fd) : List Move :=
  [⟨100, .fd (some sock)⟩, ⟨100, .pid (some 101)⟩, ⟨101, .done true⟩, ⟨100, .done true⟩, ⟨101, .done true⟩,
    ⟨101, .done true⟩, ⟨101, .done true⟩, ⟨101, .done true⟩]

theorem server_keeps_connection :
    ∃ t, run (server 3) (entry 100 {0, 1, 2, 3}) (connection 4 ++ [⟨100, .fd none⟩]) = some t ∧
      (t 100).map Proc.fds = some {0, 1, 2, 3} ∧ Unreaped 101 t := by
  have hserved : run (server 3) (entry 100 {0, 1, 2, 3}) (connection 4) = some _ := rfl
  have hrun : run (server 3) (entry 100 {0, 1, 2, 3}) (connection 4 ++ [⟨100, .fd none⟩]) = some _ := rfl
  obtain ⟨hfds, hchild⟩ := server_keeps hrun
  exact ⟨_, hrun, hfds (by decide) rfl, hchild _ _ _ 101 rfl hserved rfl⟩

/-- The fork for a first connection fails, a second one is served. -/
def forkFailure : List Move := [⟨100, .fd (some 4)⟩, ⟨100, .pid none⟩] ++ connection 5

/-- After another round of the loop the parent still has descriptor 4, and the child that served the second
connection is still unreaped. -/
theorem not_keepsNothing :
    ¬ KeepsNoDescriptor 3 100 {0, 1, 2, 3} (forkFailure ++ [] ++ [⟨100, .fd none⟩]) ∧
      ¬ KeepsNoChild 3 100 {0, 1, 2, 3} (forkFailure ++ [] ++ [⟨100, .fd none⟩]) := by
  constructor
  · intro h
    have hfds := h _ rfl rfl
    exact absurd hfds (by decide)
  · intro h
    have hserved : run (server 3) (entry 100 {0, 1, 2, 3}) forkFailure = some _ := rfl
    exact h forkFailure [] [⟨100, .fd none⟩] _ _ _ 101 rfl hserved rfl rfl rfl rfl rfl (by decide) rfl

end QDNix.Geminid
