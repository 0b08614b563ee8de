import QDNix.Geminid.Server
import Mathlib.Data.Finset.Card

/-!
# What the server holds

`server_keeps` says when the accept loop keeps nothing. Here is the account of what it does keep, for every
interleaving of the parent and its children and for every outcome of the calls: a process for every fork, since
nobody waits, and a descriptor for every fork that failed (`server_accounts`). The children are in order: from
`client_handler` on none has the listening socket, and each has the socket of its client until it closes it.
-/

namespace QDNix.Geminid

open Posix

/-- What the parent holds after so many failed forks. -/
def ParentHolds (fds : Finset Fd) (failures : ℕ) : Pc → Finset Fd → Prop
  | .accept, held => fds ⊆ held ∧ held.card = fds.card + failures
  | .fork clientSock, held | .closeClient clientSock, held =>
    clientSock ∈ held ∧ clientSock ∉ fds ∧ fds ⊆ held ∧ held.card = fds.card + failures + 1
  | _, _ => False

/-- What a child holds. -/
def ChildHolds (serverSock : Fd) : Status Pc → Finset Fd → Prop
  | .running (.closeServer clientSock), held => clientSock ∈ held ∧ clientSock ≠ serverSock
  | .running (.sslAccept sock), held => sock ∈ held ∧ serverSock ∉ held
  | .running (.protocolHandler sock), held => sock ∈ held ∧ serverSock ∉ held
  | .running (.closeSock sock), held => sock ∈ held ∧ serverSock ∉ held
  | .running .exit, held => serverSock ∉ held
  | .unreaped, held => held = ∅
  | _, _ => False

structure Accounted (serverSock : Fd) (pid : Pid) (fds : Finset Fd) (moves : List Move) (t : Table Pc) : Prop where
  nodup : (pid :: forked moves).Nodup
  processes : ∀ q, (t q).isSome ↔ q ∈ pid :: forked moves
  parent : ∃ held pc, t pid = some ⟨none, held, .running pc⟩ ∧ ParentHolds fds (failedForks moves) pc held
  children : ∀ q ∈ forked moves, ∃ child, t q = some child ∧ child.parent = some pid ∧
    ChildHolds serverSock child.status child.fds

variable {serverSock : Fd} {pid : Pid} {fds : Finset Fd} {t t' : Table Pc} {m : Move}

theorem step_same {q : Pid} {proc : Proc Pc} (hstep : step (server serverSock) t m = some t') (hq : q ≠ m.pid)
    (hproc : t q = some proc) : t' q = some proc :=
  (step_other hstep hq hproc).resolve_right fun ⟨_, pc, next, hwait⟩ => server_ne_wait serverSock pc next hwait

theorem child_step {child : Proc Pc} (hstep : step (server serverSock) t m = some t') (hchild : t m.pid = some child)
    (hparent : child.parent = some pid) (hholds : ChildHolds serverSock child.status child.fds) :
    (∀ pid?, m.result ≠ .pid pid?) ∧ ∃ child', t' m.pid = some child' ∧ child'.parent = some pid ∧
      ChildHolds serverSock child'.status child'.fds := by
  obtain ⟨proc, pc, hproc, hrunning, hcall⟩ := step_eq_some hstep
  obtain rfl := Option.some.inj (hchild.symm.trans hproc)
  rw [hrunning] at hholds
  have hfork : (∀ next c, server serverSock pc ≠ .fork next c) → ∀ pid?, m.result ≠ .pid pid? := by
    intro hne pid? hresult
    rw [hresult] at hcall
    obtain ⟨next, c, hforks⟩ := call_pid hcall (server_ne_wait serverSock pc)
    exact hne next c hforks
  cases pc with
  | closeServer sock =>
    refine ⟨hfork (by simp [server]), _, call_close hcall, hparent, ?_⟩
    exact ⟨Finset.mem_erase.mpr ⟨hholds.2, hholds.1⟩, Finset.notMem_erase _ _⟩
  | sslAccept sock =>
    obtain ⟨ok, hself⟩ := call_library hcall
    refine ⟨hfork (by simp [server]), _, hself, hparent, ?_⟩
    cases ok with
    | true => exact hholds
    | false => exact hholds
  | protocolHandler sock =>
    obtain ⟨ok, hself⟩ := call_library hcall
    exact ⟨hfork (by simp [server]), _, hself, hparent, hholds⟩
  | closeSock sock =>
    refine ⟨hfork (by simp [server]), _, call_close hcall, hparent, ?_⟩
    exact fun hmem => hholds.2 (Finset.mem_of_mem_erase hmem)
  | exit => exact ⟨hfork (by simp [server]), _, call_exit hcall, hparent, rfl⟩
  | _ => exact hholds.elim

theorem forked_of_ne {result : Result} (h : ∀ pid?, result ≠ .pid pid?) : result.forked = [] := by
  cases result with
  | pid pid? => exact absurd rfl (h pid?)
  | fd => rfl
  | done => rfl

theorem parent_step_holds (hsock : serverSock ∈ fds) {failures : ℕ}
    (hparent : ∃ held pc, t m.pid = some ⟨none, held, .running pc⟩ ∧ ParentHolds fds failures pc held)
    (hstep : step (server serverSock) t m = some t') :
    (∃ held pc, t' m.pid = some ⟨none, held, .running pc⟩ ∧
      ParentHolds fds (failures + if m.result = .pid none then 1 else 0) pc held) ∧
    ∀ c ∈ m.result.forked, ∃ child, t' c = some child ∧ child.parent = some m.pid ∧
      ChildHolds serverSock child.status child.fds := by
  obtain ⟨held, pc, hproc, hholds⟩ := hparent
  obtain ⟨proc, pc', hproc', hrunning, hcall⟩ := step_eq_some hstep
  obtain rfl := Option.some.inj (hproc.symm.trans hproc')
  obtain rfl := Status.running.inj hrunning
  cases pc with
  | accept =>
    obtain ⟨hsub, hcard⟩ := hholds
    have hno : ∀ pid?, m.result ≠ .pid pid? := by
      intro pid? hresult
      rw [hresult] at hcall
      cases hcall
    rw [forked_of_ne hno, if_neg (hno none), Nat.add_zero]
    refine ⟨?_, fun c hc => absurd hc List.not_mem_nil⟩
    rcases call_accept hcall with hself | ⟨fd, hnew, hself⟩
    · exact ⟨held, .accept, hself, hsub, hcard⟩
    · refine ⟨insert fd held, .fork fd, hself, Finset.mem_insert_self _ _, fun hfd => hnew (hsub hfd), ?_, ?_⟩
      · exact hsub.trans (Finset.subset_insert _ _)
      · rw [Finset.card_insert_of_notMem hnew, hcard]
  | fork sock =>
    obtain ⟨hmem, hfresh, hsub, hcard⟩ := hholds
    rcases call_fork hproc hcall with ⟨hresult, hself⟩ | ⟨c, hresult, hself⟩
    · rw [hresult, if_pos rfl]
      refine ⟨⟨held, .accept, hself, hsub, ?_⟩, fun c hc => absurd hc List.not_mem_nil⟩
      rw [hcard, Nat.add_assoc]
    · rw [hresult] at hcall ⊢
      rw [if_neg (by simp), Nat.add_zero]
      refine ⟨⟨held, .closeClient sock, hself, hmem, hfresh, hsub, hcard⟩, fun d hd => ?_⟩
      obtain rfl : d = c := List.mem_singleton.mp hd
      exact ⟨_, call_fork_child hcall, rfl, hmem, fun heq => hfresh (heq ▸ hsock)⟩
  | closeClient sock =>
    obtain ⟨hmem, hfresh, hsub, hcard⟩ := hholds
    have hno : ∀ pid?, m.result ≠ .pid pid? := by
      intro pid? hresult
      rw [hresult] at hcall
      cases hcall
    rw [forked_of_ne hno, if_neg (hno none), Nat.add_zero]
    refine ⟨⟨held.erase sock, .accept, call_close hcall, ?_, ?_⟩, fun c hc => absurd hc List.not_mem_nil⟩
    · exact fun fd hfd => Finset.mem_erase.mpr ⟨fun heq => hfresh (heq ▸ hfd), hsub hfd⟩
    · rw [Finset.card_erase_of_mem hmem, hcard, Nat.add_sub_cancel]
  | _ => exact hholds.elim

theorem accounted_step (hsock : serverSock ∈ fds) {moves : List Move} (h : Accounted serverSock pid fds moves t)
    (hstep : step (server serverSock) t m = some t')
    (hdomain : (pid :: forked (moves ++ [m])).Nodup ∧ ∀ q, (t' q).isSome ↔ q ∈ pid :: forked (moves ++ [m])) :
    Accounted serverSock pid fds (moves ++ [m]) t' := by
  obtain ⟨hnodup, hprocesses, hparent, hchildren⟩ := h
  have hnotself : ∀ q ∈ forked moves, q ≠ pid := fun q hq heq => (List.nodup_cons.mp hnodup).1 (heq ▸ hq)
  suffices haccount : (∃ held pc, t' pid = some ⟨none, held, .running pc⟩ ∧
      ParentHolds fds (failedForks (moves ++ [m])) pc held) ∧ ∀ q ∈ forked (moves ++ [m]), ∃ child,
      t' q = some child ∧ child.parent = some pid ∧ ChildHolds serverSock child.status child.fds by
    exact ⟨hdomain.1, hdomain.2, haccount.1, haccount.2⟩
  by_cases hmover : m.pid = pid
  · subst hmover
    obtain ⟨hself, hnew⟩ := parent_step_holds hsock hparent hstep
    rw [failedForks_snoc]
    refine ⟨hself, fun q hq => ?_⟩
    rw [forked_snoc, List.mem_append] at hq
    rcases hq with hq | hq
    · obtain ⟨child, hchild, hholds⟩ := hchildren q hq
      exact ⟨child, step_same hstep (hnotself q hq) hchild, hholds⟩
    · exact hnew q hq
  · have hmem : m.pid ∈ forked moves := by
      obtain ⟨proc, -, hproc, -⟩ := step_eq_some hstep
      exact (List.mem_cons.mp ((hprocesses m.pid).mp (by simp [hproc]))).resolve_left hmover
    obtain ⟨child, hchild, hof, hholds⟩ := hchildren m.pid hmem
    obtain ⟨hno, hself⟩ := child_step hstep hchild hof hholds
    obtain ⟨held, pc, hproc, hheld⟩ := hparent
    rw [failedForks_snoc, if_neg (hno none), Nat.add_zero, forked_snoc, forked_of_ne hno, List.append_nil]
    refine ⟨⟨held, pc, step_same hstep (Ne.symm hmover) hproc, hheld⟩, fun q hq => ?_⟩
    by_cases hq' : q = m.pid
    · exact hq' ▸ hself
    · obtain ⟨child', hchild', hholds'⟩ := hchildren q hq
      exact ⟨child', step_same hstep hq' hchild', hholds'⟩

/-- **The account of the server.** In every run there is a process for each fork, none gone; the parent holds a
descriptor more for each fork that failed; and each child holds its client's socket, and the listening socket no
longer once it serves. -/
theorem server_accounts (hsock : serverSock ∈ fds) (moves : List Move) : ∀ t,
    run (server serverSock) (entry pid fds) moves = some t → Accounted serverSock pid fds moves t := by
  have hdomain : ∀ moves t, run (server serverSock) (entry pid fds) moves = some t →
      (pid :: forked moves).Nodup ∧ ∀ q, (t q).isSome ↔ q ∈ pid :: forked moves := by
    intro moves t hrun
    obtain ⟨hnodup, hfresh, hsome⟩ := domain_run (server_ne_wait serverSock) moves t hrun
    have hentry : ∀ q, (entry pid fds q).isSome ↔ q = pid := fun q => by by_cases hq : q = pid <;> simp [entry, hq]
    refine ⟨List.nodup_cons.mpr ⟨fun hmem => ?_, hnodup⟩, fun q => ?_⟩
    · have hnone := hfresh pid hmem
      simp [entry] at hnone
    · rw [hsome, hentry, List.mem_cons]
  induction moves using List.reverseRecOn with
  | nil =>
    intro t hrun
    have hd := hdomain [] t hrun
    obtain rfl := Option.some.inj hrun
    exact ⟨hd.1, hd.2, ⟨fds, .accept, if_pos rfl, Finset.Subset.refl _, rfl⟩, fun q hq => absurd hq List.not_mem_nil⟩
  | append_singleton moves m ih =>
    intro t hrun
    obtain ⟨t₁, hfirst, hlast⟩ := run_append_eq_some.mp hrun
    obtain ⟨t₂, hstep, hnil⟩ := run_cons_eq_some.mp hlast
    obtain rfl := Option.some.inj hnil
    exact accounted_step hsock (ih t₁ hfirst) hstep (hdomain _ _ hrun)

theorem server_accounts_forkFailure :
    ∃ t, run (server 3) (entry 100 {0, 1, 2, 3}) forkFailure = some t ∧
      Accounted 3 100 {0, 1, 2, 3} forkFailure t := by
  have hrun : run (server 3) (entry 100 {0, 1, 2, 3}) forkFailure = some _ := rfl
  exact ⟨_, hrun, server_accounts (by decide) _ _ hrun⟩

end QDNix.Geminid
