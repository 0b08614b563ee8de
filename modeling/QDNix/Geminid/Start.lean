import QDNix.Ed.Flags
import Mathlib.Data.Int.Notation

/-!
# How `geminid` starts

From `main` of `geminid/main.c` to the head of the loop of `server`: the command line, then `create_tls_context` and
`create_server`. Seven calls may fail, and `setsockopt` is not asked. Whatever they return, the calls are made in one
order and the first that fails is the last (`geminid_starts`); so a socket is bound only with a certificate and a key
for TLS 1.2 and up, and connections are accepted only from a socket that listens.

No option sets any of the variables, and `DIR` is read by nobody: what is served, and with what, is fixed.
-/

namespace QDNix.Geminid.Start

open Traced

open Httpd (Arg text)

open Ed (Status asked optionLoop optionLoop_eq answer)

inductive Call
  | loadErrorStrings
  | libraryInit
  | ignoreSigpipe
  | ctxNew
  | setMinProtoTls12
  | useCertificateFile (file : List Byte)
  | usePrivateKeyFile (file : List Byte)
  | setServernameCallback
  | socket
  | reuseAddr (sock : ℤ)
  | bind (sock : ℤ) (port : ℕ)
  | listen (sock : ℤ) (backlog : ℕ)
deriving DecidableEq, Repr

inductive Event
  | read (a : Arg) (idx : ℕ)
  | version
  | usage
  | printErrors
  | call (c : Call)
deriving DecidableEq

/-- `exit`, or the head of the loop of `server`. -/
inductive Ended
  | exit (status : Status)
  | serving (sock : ℤ)
deriving DecidableEq, Repr

/-- What the calls return; `ctx` says whether there is a context. -/
structure Outcomes where
  ctx : Bool
  certificate : ℤ
  key : ℤ
  sock : ℤ
  reuse : ℤ
  bind : ℤ
  listen : ℤ

def srvPort : ℕ := 1965

def certFile : List Byte := text "cert.pem"

def keyFile : List Byte := text "key.pem"

def version : Traced Event Ended := do
  emit .version
  pure (.exit .success)

def usage (retval : Status) : Traced Event Ended := do
  emit .usage
  pure (.exit retval)

def showRead : Httpd.Event → List Event
  | .read a idx => [.read a idx]
  | _ => []

variable (o : Outcomes)

/-- A failure of the library. -/
def tlsFailure : Traced Event Ended := do
  emit .printErrors
  pure (.exit .failure)

/-- `create_tls_context`, and what its caller does next. -/
def createTlsContext (certFile keyFile : List Byte) (next : Traced Event Ended) : Traced Event Ended := do
  emit (.call .ctxNew)
  if o.ctx = false then tlsFailure
  else do
    emit (.call .setMinProtoTls12)
    emit (.call (.useCertificateFile certFile))
    if o.certificate ≤ 0 then tlsFailure
    else do
      emit (.call (.usePrivateKeyFile keyFile))
      if o.key ≤ 0 then tlsFailure
      else do
        emit (.call .setServernameCallback)
        next

/-- `create_server`, and what its caller does next. -/
def createServer (port : ℕ) (next : ℤ → Traced Event Ended) : Traced Event Ended := do
  emit (.call .socket)
  if o.sock < 0 then pure (.exit .failure)
  else do
    emit (.call (.reuseAddr o.sock))
    emit (.call (.bind o.sock port))
    if o.bind < 0 then pure (.exit .failure)
    else do
      emit (.call (.listen o.sock 5))
      if o.listen < 0 then pure (.exit .failure)
      else next o.sock

/-- `server`, up to its loop. -/
def server (port : ℕ) (certFile keyFile : List Byte) : Traced Event Ended :=
  createTlsContext o certFile keyFile (createServer o port fun sock => pure (.serving sock))

def tlsInit : Traced Event PUnit := do
  emit (.call .loadErrorStrings)
  emit (.call .libraryInit)

/-- `main`, on the arguments after the program name. -/
def main (argv : List Arg) : Traced Event Ended := do
  tlsInit
  emit (.call .ignoreSigpipe)
  optionLoop showRead (usage .success) version (usage .failure) (fun _ => server o srvPort certFile keyFile) argv

/-! ### The order of the calls -/

/-- The calls of the set-up in their order, each with whether it succeeds. -/
def steps : List (Call × Bool) :=
  [(.ctxNew, o.ctx), (.setMinProtoTls12, true), (.useCertificateFile certFile, decide (0 < o.certificate)),
    (.usePrivateKeyFile keyFile, decide (0 < o.key)), (.setServernameCallback, true), (.socket, decide (0 ≤ o.sock)),
    (.reuseAddr o.sock, true), (.bind o.sock srvPort, decide (0 ≤ o.bind)), (.listen o.sock 5, decide (0 ≤ o.listen))]

def first : List Call := [.loadErrorStrings, .libraryInit, .ignoreSigpipe]

def setup : List Call := first ++ (steps o).map Prod.fst

/-- All calls succeed. -/
def AllSucceed : Prop := ∀ step ∈ steps o, step.2 = true

instance : Decidable (AllSucceed o) := inferInstanceAs (Decidable (∀ step ∈ steps o, step.2 = true))

/-- The calls up to the first that fails. -/
def upToFailure : List (Call × Bool) → List Call
  | [] => []
  | (c, ok) :: rest => if ok then c :: upToFailure rest else [c]

theorem upToFailure_prefix (l : List (Call × Bool)) : upToFailure l <+: l.map Prod.fst := by
  induction l with
  | nil => exact List.prefix_refl _
  | cons step rest ih =>
    obtain ⟨c, ok⟩ := step
    rw [upToFailure]
    cases ok with
    | true => exact (List.prefix_cons_inj c).mpr ih
    | false => exact (List.prefix_cons_inj c).mpr List.nil_prefix

theorem upToFailure_of_all {l : List (Call × Bool)} (h : ∀ step ∈ l, step.2 = true) :
    upToFailure l = l.map Prod.fst := by
  induction l with
  | nil => rfl
  | cons step rest ih =>
    rw [List.forall_mem_cons] at h
    obtain ⟨c, ok⟩ := step
    obtain rfl := h.1
    exact congrArg _ (ih h.2)

def Event.call? : Event → Option Call
  | .call c => some c
  | _ => none

/-- The calls a run makes. -/
def calls (m : Traced Event Ended) : List Call := m.events.filterMap Event.call?

/-- `m` makes these calls and reads no argument, ends with `v` if all succeed, and exits where one does not. -/
structure Follows (l : List (Call × Bool)) (m : Traced Event Ended) (v : Ended) : Prop where
  calls : calls m = upToFailure l
  value : m.value? = some (if ∀ step ∈ l, step.2 = true then v else .exit .failure)
  quiet : ∀ a idx, .read a idx ∉ m.events

/-- What is done about a failure. -/
def Fails (m : Traced Event Ended) : Prop :=
  m.value? = some (.exit .failure) ∧ ∀ e ∈ m.events, e = .printErrors

section Follows

variable {l : List (Call × Bool)} {m fail : Traced Event Ended} {v : Ended}

theorem follows_nil (v : Ended) : Follows [] (pure v) v := ⟨rfl, rfl, fun _ _ => List.not_mem_nil⟩

theorem follows_call (c : Call) (h : Follows l m v) : Follows ((c, true) :: l) (do emit (.call c); m) v := by
  refine ⟨congrArg (c :: ·) h.calls, h.value.trans (congrArg some (if_congr ?_ rfl rfl)), fun a idx hread => ?_⟩
  · rw [List.forall_mem_cons]
    exact (and_iff_right rfl).symm
  · rcases List.mem_cons.mp hread with hcall | hread
    · cases hcall
    · exact h.quiet a idx hread

theorem follows_check (c : Call) {failed : Prop} [Decidable failed] {ok : Bool} (hfailed : failed ↔ ok = false)
    (hfail : Fails fail) (h : Follows l m v) :
    Follows ((c, ok) :: l) (do emit (.call c); if failed then fail else m) v := by
  cases ok with
  | true =>
    have hnot : ¬ failed := fun hf => Bool.noConfusion (hfailed.mp hf)
    rw [if_neg hnot]
    exact follows_call c h
  | false =>
    rw [if_pos (hfailed.mpr rfl)]
    obtain ⟨hvalue, hevents⟩ := hfail
    have hcalls : Start.calls fail = [] := by
      rw [Start.calls, List.filterMap_eq_nil_iff]
      intro e he
      rw [hevents e he]
      rfl
    refine ⟨congrArg (c :: ·) hcalls, hvalue.trans (congrArg some (if_neg ?_).symm), fun a idx hread => ?_⟩
    · exact fun hall => Bool.noConfusion (hall _ (List.mem_cons_self ..))
    · rcases List.mem_cons.mp hread with hcall | hread
      · cases hcall
      · cases hevents _ hread

end Follows

theorem fails_tlsFailure : Fails tlsFailure := ⟨rfl, fun _ he => List.mem_singleton.mp he⟩

theorem fails_exit : Fails (pure (.exit .failure)) := ⟨rfl, fun _ he => absurd he List.not_mem_nil⟩

theorem not_pos_iff {x : ℤ} : x ≤ 0 ↔ decide (0 < x) = false := by
  rw [decide_eq_false_iff_not, Int.not_lt]

theorem neg_iff {x : ℤ} : x < 0 ↔ decide (0 ≤ x) = false := by
  rw [decide_eq_false_iff_not, Int.not_le]

theorem follows_server : Follows (steps o) (server o srvPort certFile keyFile) (.serving o.sock) := by
  apply follows_check .ctxNew Iff.rfl fails_tlsFailure
  apply follows_call .setMinProtoTls12
  apply follows_check (.useCertificateFile certFile) not_pos_iff fails_tlsFailure
  apply follows_check (.usePrivateKeyFile keyFile) not_pos_iff fails_tlsFailure
  apply follows_call .setServernameCallback
  apply follows_check .socket neg_iff fails_exit
  apply follows_call (.reuseAddr o.sock)
  apply follows_check (.bind o.sock srvPort) neg_iff fails_exit
  apply follows_check (.listen o.sock 5) neg_iff fails_exit
  exact follows_nil _

/-! ### The whole start -/

/-- What the command line asks for, if it does not ask to serve. -/
def exitStatus (argv : List Arg) : Option Status :=
  match asked argv with
  | .help | .version => some .success
  | .bad => some .failure
  | .operands => none

theorem mem_reads {reads : List Httpd.Event} {e : Event} (h : e ∈ reads.flatMap showRead) :
    ∃ a idx, .read a idx ∈ reads ∧ e = .read a idx := by
  obtain ⟨e', he', hshow⟩ := List.mem_flatMap.mp h
  cases e' with
  | read a idx => exact ⟨a, idx, he', List.mem_singleton.mp hshow⟩
  | version => exact absurd hshow List.not_mem_nil
  | usage => exact absurd hshow List.not_mem_nil

/-- The calls a command line leads to, behind the first three. -/
def serverCalls (argv : List Arg) : List Call := if exitStatus argv = none then upToFailure (steps o) else []

/-- What the program does behind its reads: the set-up, or a text. -/
structure Behind (argv : List Arg) (m : Traced Event Ended) : Prop where
  quiet : ∀ a idx, .read a idx ∉ m.events
  made : calls m = serverCalls o argv
  value : m.value? =
    some ((exitStatus argv).elim (if AllSucceed o then .serving o.sock else .exit .failure) .exit)
  complete : m.value? = some (.serving o.sock) → calls m = (steps o).map Prod.fst

theorem behind_text {argv : List Arg} {e : Event} {status : Status} (hcall : e.call? = none)
    (hread : ∀ a idx, .read a idx ≠ e) (hstatus : exitStatus argv = some status) :
    Behind o argv ⟨[e], some (.exit status)⟩ := by
  have hcalls : calls ⟨[e], some (.exit status)⟩ = [] := by
    rw [calls, List.filterMap_cons, hcall, List.filterMap_nil]
  refine ⟨fun a idx hmem => hread a idx (List.mem_singleton.mp hmem), ?_, ?_, fun h => ?_⟩
  · rw [hcalls, serverCalls, hstatus]
    rfl
  · rw [hstatus]
    rfl
  · cases Option.some.inj h

theorem behind_server {argv : List Arg} (hstatus : exitStatus argv = none) :
    Behind o argv (server o srvPort certFile keyFile) := by
  obtain ⟨hcalls, hvalue, hquiet⟩ := follows_server o
  refine ⟨hquiet, ?_, ?_, fun hserving => ?_⟩
  · rw [hcalls, serverCalls, if_pos hstatus]
  · rw [hstatus]
    exact hvalue
  · rw [hcalls]
    apply upToFailure_of_all
    by_contra hnot
    rw [hvalue, if_neg hnot] at hserving
    cases Option.some.inj hserving

theorem behind_answer (argv : List Arg) :
    Behind o argv (answer (usage .success) version (usage .failure) (fun _ => server o srvPort certFile keyFile) argv) := by
  rw [answer]
  cases hasked : asked argv with
  | operands => exact behind_server o (by rw [exitStatus, hasked])
  | _ => exact behind_text o rfl (fun _ _ h => by cases h) (by rw [exitStatus, hasked])

/-- **How `geminid` starts**, for every command line and whatever the calls return: it reads its first argument only,
and that up to its terminator; the calls it makes are the first ones of the set-up, in order, and the first that fails
is the last; and it gets to serving exactly if the first argument is no option and all calls succeed, having made all
of them. -/
theorem geminid_starts (argv : List Arg) :
    (∀ a idx, .read a idx ∈ (main o argv).events → argv.head? = some a ∧ idx ≤ a.chars.length) ∧
    calls (main o argv) = first ++ serverCalls o argv ∧
    calls (main o argv) <+: setup o ∧
    (main o argv).value? = some ((exitStatus argv).elim
      (if AllSucceed o then .serving o.sock else .exit .failure) .exit) ∧
    ((main o argv).value? = some (.serving o.sock) → calls (main o argv) = setup o) := by
  obtain ⟨reads, hreads, hloop⟩ := optionLoop_eq showRead (usage .success) version (usage .failure)
    (fun _ => server o srvPort certFile keyFile) argv
  obtain ⟨hquiet, hmade, hvalue, hserving⟩ := behind_answer o argv
  revert hquiet hmade hvalue hserving
  generalize answer (usage .success) version (usage .failure) (fun _ => server o srvPort certFile keyFile) argv = m at hloop
  intro hquiet hmade hvalue hserving
  have hmain : main o argv = ⟨first.map .call ++ (reads.flatMap showRead ++ m.events), m.value?⟩ := by
    rw [main, hloop]
    rfl
  have hcalls : calls (main o argv) = first ++ calls m := by
    have hnone : (reads.flatMap showRead).filterMap Event.call? = [] := by
      rw [List.filterMap_eq_nil_iff]
      intro e he
      obtain ⟨a, idx, -, rfl⟩ := mem_reads he
      rfl
    rw [hmain, calls, List.filterMap_append, List.filterMap_append, hnone]
    rfl
  have hprefix : serverCalls o argv <+: (steps o).map Prod.fst := by
    rw [serverCalls]
    by_cases hserve : exitStatus argv = none
    · rw [if_pos hserve]
      exact upToFailure_prefix _
    · rw [if_neg hserve]
      exact List.nil_prefix
  rw [hcalls, hmain, hmade]
  refine ⟨fun a idx hmem => ?_, rfl, (List.prefix_append_right_inj first).mpr hprefix, hvalue, fun h => ?_⟩
  · rcases List.mem_append.mp hmem with hcall | hmem
    · obtain ⟨c, -, hc⟩ := List.mem_map.mp hcall
      cases hc
    · rcases List.mem_append.mp hmem with hread | hmem
      · obtain ⟨a', idx', hread', heq⟩ := mem_reads hread
        cases heq
        obtain ⟨a'', idx'', hhead, hidx, heq⟩ := hreads _ hread'
        cases heq
        exact ⟨hhead, hidx⟩
      · exact absurd hmem (hquiet a idx)
  · rw [← hmade, hserving h]
    rfl

end QDNix.Geminid.Start
