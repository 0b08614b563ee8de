import QDNix.Httpd.Options

/-!
# The flags of `ed`

`parse_flags` of `bin/ed/ed.c`, and the loop it has in common with `main` of `geminid`. Both look at the first
character of an argument before `IS_OPTARG` looks at the second, so unlike `httpd` they read an argument up to its
terminator only, and print a text only for one with a minus sign in front. Every branch of the body leaves the loop:
nothing but the first argument counts (`optionLoop_eq`).

The events of `IS_OPTARG` are those of the model of `httpd`; each program shows them as its own. The texts themselves
are left out.
-/

namespace QDNix.Ed

open Traced Httpd

/-! ### The loop -/

section Loop

variable {ε α : Type}

/-- The loop over the arguments. What comes behind it gets the ones that are left. -/
def optionLoop (show' : Httpd.Event → List ε) (help version bad : Traced ε α) (operands : List Arg → Traced ε α) :
    List Arg → Traced ε α
  | [] => operands []
  | a :: argv => do
    let c ← relabel show' (a.read 0)
    if c = ch '-' then do
      let isHelp ← relabel show' (isOptarg a (ch 'h') (text "help"))
      if isHelp then help
      else do
        let isVersion ← relabel show' (isOptarg a (ch 'V') (text "version"))
        if isVersion then version else bad
    else operands (a :: argv)

/-- What the first argument asks for. -/
inductive Asked
  | help | version | bad | operands
deriving DecidableEq, Repr

def asked : List Arg → Asked
  | [] => .operands
  | a :: _ =>
    if Dashed a then
      if Matches a (ch 'h') (text "help") then .help
      else if Matches a (ch 'V') (text "version") then .version
      else .bad
    else .operands

/-- A read of the first argument, up to its terminator. -/
def ReadsFirst (argv : List Arg) (e : Httpd.Event) : Prop :=
  ∃ a idx, argv.head? = some a ∧ idx ≤ a.chars.length ∧ e = .read a idx

variable (show' : Httpd.Event → List ε) (help version bad : Traced ε α) (operands : List Arg → Traced ε α)

/-- What the program does once it knows. -/
def answer (argv : List Arg) : Traced ε α :=
  match asked argv with
  | .help => help
  | .version => version
  | .bad => bad
  | .operands => operands argv

theorem bind_relabel {β : Type} {m : Traced Httpd.Event β} {b : β} (h : m.value? = some b) (f : β → Traced ε α) :
    relabel show' m >>= f = ⟨m.events.flatMap show' ++ (f b).events, (f b).value?⟩ :=
  bind_of_some (m := relabel show' m) h f

/-- **The loop reads the first argument and acts on it.** -/
theorem optionLoop_eq (argv : List Arg) : ∃ reads : List Httpd.Event, (∀ e ∈ reads, ReadsFirst argv e) ∧
    optionLoop show' help version bad operands argv =
      ⟨reads.flatMap show' ++ (answer help version bad operands argv).events,
        (answer help version bad operands argv).value?⟩ := by
  cases argv with
  | nil => exact ⟨[], fun e he => absurd he List.not_mem_nil, rfl⟩
  | cons a argv =>
    have hreads : ∀ idx ≤ a.chars.length, ReadsFirst (a :: argv) (.read a idx) := fun idx hidx => ⟨a, idx, rfl, hidx, rfl⟩
    obtain ⟨hfirst, c, hc, hdash⟩ := read_sat (hreads 0 (Nat.zero_le _)) (Nat.zero_le _)
    have hdashed : c = ch '-' ↔ Dashed a := by
      rw [Dashed, List.head?_eq_getElem?]
      rcases hdash with ⟨rfl, hnil⟩ | ⟨-, hget, -⟩
      · have hnone : a.chars[0]? = none := by
          rw [List.drop_zero] at hnil
          rw [hnil]
          rfl
        rw [hnone]
        exact iff_of_false (by decide) (by simp)
      · rw [hget, Option.some.injEq]
    rw [optionLoop, bind_relabel show' hc, answer, asked]
    by_cases hmatch : Dashed a
    · have hne : a.chars ≠ [] := fun hnil => by simp [Dashed, hnil] at hmatch
      obtain ⟨hH, isHelp, hhelp, hHmatch⟩ := isOptarg_sat hreads hne (s := ch 'h') (by decide) (l := text "help")
        (by decide)
      obtain ⟨hV, isVersion, hversion, hVmatch⟩ := isOptarg_sat hreads hne (s := ch 'V') (by decide)
        (l := text "version") (by decide)
      rw [if_pos (hdashed.mpr hmatch), if_pos hmatch, bind_relabel show' hhelp]
      by_cases hhelp : Matches a (ch 'h') (text "help")
      · refine ⟨(a.read 0).events ++ (isOptarg a (ch 'h') (text "help")).events,
          fun e he => (List.mem_append.mp he).elim (hfirst e) (hH e), ?_⟩
        rw [hHmatch.mpr hhelp, if_pos rfl, if_pos hhelp, List.flatMap_append, List.append_assoc]
      · rw [if_neg (mt hHmatch.mp hhelp), if_neg hhelp, bind_relabel show' hversion]
        refine ⟨(a.read 0).events ++ (isOptarg a (ch 'h') (text "help")).events ++
          (isOptarg a (ch 'V') (text "version")).events, fun e he => ?_, ?_⟩
        · rcases List.mem_append.mp he with he | he
          · exact (List.mem_append.mp he).elim (hfirst e) (hH e)
          · exact hV e he
        · rw [List.flatMap_append, List.flatMap_append, List.append_assoc, List.append_assoc]
          by_cases hversion : Matches a (ch 'V') (text "version")
          · rw [hVmatch.mpr hversion, if_pos rfl, if_pos hversion]
          · rw [if_neg (mt hVmatch.mp hversion), if_neg hversion]
    · rw [if_neg (mt hdashed.mp hmatch), if_neg hmatch]
      exact ⟨_, hfirst, rfl⟩

end Loop

/-! ### `ed` -/

inductive Stream
  | stdout | stderr
deriving DecidableEq, Repr

inductive Status
  | success | failure
deriving DecidableEq, Repr

inductive Event
  | read (a : Arg) (idx : ℕ)
  | version
  | usage (out : Stream)
deriving DecidableEq

/-- `exit`, or the index that `parse_flags` returns. -/
inductive Ended
  | exit (status : Status)
  | idx (n : ℕ)
deriving DecidableEq, Repr

def version : Traced Event Ended := do
  emit .version
  pure (.exit .success)

def usage (out : Stream) (retval : Status) : Traced Event Ended := do
  emit (.usage out)
  pure (.exit retval)

def showRead : Httpd.Event → List Event
  | .read a idx => [.read a idx]
  | _ => []

/-- Behind the loop: `idx` is `argc` if nothing is left. -/
def afterLoop (argc : ℕ) (operands : List Arg) : Traced Event Ended :=
  let idx := argc - operands.length
  if argc ≤ idx then usage .stderr .failure else pure (.idx idx)

/-- `parse_flags`, on the arguments after the program name. -/
def parseFlags (argv : List Arg) : Traced Event Ended :=
  optionLoop showRead (usage .stdout .success) version (usage .stderr .failure) (afterLoop argv.length) argv

/-- The exit status of `main`, which does nothing with the index. -/
def Ended.status : Ended → Status
  | .exit status => status
  | .idx _ => .success

def main (argv : List Arg) : Traced Event Status := do
  let ended ← parseFlags argv
  pure ended.status

/-- The text for a command line, and how `parse_flags` ends. -/
def texts (argv : List Arg) : List Event :=
  match asked argv with
  | .help => [.usage .stdout]
  | .version => [.version]
  | .bad => [.usage .stderr]
  | .operands => if argv = [] then [.usage .stderr] else []

def ended (argv : List Arg) : Ended :=
  match asked argv with
  | .help | .version => .exit .success
  | .bad => .exit .failure
  | .operands => if argv = [] then .exit .failure else .idx 0

theorem afterLoop_self (argv : List Arg) :
    afterLoop argv.length argv = if argv = [] then usage .stderr .failure else pure (.idx 0) := by
  have hnil : argv.length ≤ 0 ↔ argv = [] := by rw [Nat.le_zero, List.length_eq_zero_iff]
  unfold afterLoop
  simp only [Nat.sub_self, hnil]

theorem answer_flags (argv : List Arg) :
    answer (usage .stdout .success) version (usage .stderr .failure) (afterLoop argv.length) argv =
      ⟨texts argv, some (ended argv)⟩ := by
  rw [answer, texts, ended]
  cases asked argv with
  | operands =>
    simp only [afterLoop_self]
    by_cases hnil : argv = []
    · rw [if_pos hnil, if_pos hnil, if_pos hnil]
      rfl
    · rw [if_neg hnil, if_neg hnil, if_neg hnil]
      rfl
  | _ => rfl

/-- **`ed` and its command line**, for every argument vector: it reads nothing but its first argument, and that no
further than to the terminator; the text, the index and the exit status are those of that argument. -/
theorem ed_main (argv : List Arg) : ∃ reads : List Event,
    (∀ e ∈ reads, ∃ a idx, argv.head? = some a ∧ idx ≤ a.chars.length ∧ e = .read a idx) ∧
      parseFlags argv = ⟨reads ++ texts argv, some (ended argv)⟩ ∧
      main argv = ⟨reads ++ texts argv, some (ended argv).status⟩ := by
  obtain ⟨reads, hreads, hloop⟩ := optionLoop_eq showRead (usage .stdout .success) version (usage .stderr .failure)
    (afterLoop argv.length) argv
  have hparse : parseFlags argv = ⟨reads.flatMap showRead ++ texts argv, some (ended argv)⟩ := by
    rw [parseFlags, hloop, answer_flags]
  refine ⟨reads.flatMap showRead, fun e he => ?_, hparse, ?_⟩
  · obtain ⟨e', he', hshow⟩ := List.mem_flatMap.mp he
    obtain ⟨a, idx, ha, hidx, rfl⟩ := hreads e' he'
    exact ⟨a, idx, ha, hidx, List.mem_singleton.mp hshow⟩
  · rw [main, hparse]
    exact ext' (List.append_nil _) rfl

end QDNix.Ed
