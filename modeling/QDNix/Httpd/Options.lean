import QDNix.Dev.Device
import QDNix.Lib.Traced

/-!
# The options of `httpd`

The loop of `main` in `sbin/httpd/main.c`. `IS_OPTARG` looks at an argument from its second character on;
the loops of `ed` and `geminid` test the first one before they use it, this one does not. So a directory name
with the right second character prints a text and ends the program, and the second character of an empty
argument lies behind its terminator. `treatsOptions_iff` says which argument vectors are safe from both.

A run shows the characters read and the texts printed, each with the argument the loop is at. The texts
themselves are left out.
-/

namespace QDNix.Httpd

open Traced

/-- A string of the argument vector. -/
structure Arg where
  chars : List Byte
  nul : 0#8 ∉ chars
deriving DecidableEq

inductive Event
  | read (a : Arg) (idx : ℕ)
  | version (a : Arg)
  | usage (a : Arg)
deriving DecidableEq

/-- How the program ends, with `EXIT_SUCCESS` either way. -/
inductive Ended
  | exit
  | endOfMain
deriving DecidableEq, Repr

def text (s : String) : List Byte := s.toList.map ch

/-- `a[idx]`, undefined behind the terminator. -/
def Arg.read (a : Arg) (idx : ℕ) : Traced Event Byte := do
  emit (.read a idx)
  match (a.chars ++ [0#8])[idx]? with
  | some c => pure c
  | none => undef

/-- `strcmp(a + idx, l) == 0` -/
def Arg.strcmp (a : Arg) (idx : ℕ) : List Byte → Traced Event Bool
  | [] => do
    let c ← a.read idx
    pure (decide (c = 0#8))
  | l :: ls => do
    let c ← a.read idx
    if c = l then a.strcmp (idx + 1) ls else pure false

/-- `IS_OPTARG(a, s, l)` -/
def isOptarg (a : Arg) (s : Byte) (l : List Byte) : Traced Event Bool := do
  let c ← a.read 1
  if c = s then pure true else a.strcmp 1 (ch '-' :: l)

def version (a : Arg) : Traced Event Ended := do
  emit (.version a)
  pure .exit

def usage (a : Arg) : Traced Event Ended := do
  emit (.usage a)
  pure .exit

/-- `main`, on the arguments after the program name. -/
def main : List Arg → Traced Event Ended
  | [] => pure .endOfMain
  | a :: argv => do
    let isVersion ← isOptarg a (ch 'V') (text "version")
    if isVersion then version a
    else do
      let isHelp ← isOptarg a (ch 'h') (text "help")
      if isHelp then usage a else main argv

/-! ### Options -/

/-- What `IS_OPTARG` looks for: the letter in second position, or the long name behind the first character and
a minus sign. -/
def Matches (a : Arg) (s : Byte) (l : List Byte) : Prop := a.chars[1]? = some s ∨ a.chars.drop 1 = ch '-' :: l

instance (a : Arg) (s : Byte) (l : List Byte) : Decidable (Matches a s l) := inferInstanceAs (Decidable (_ ∨ _))

def Dashed (a : Arg) : Prop := a.chars.head? = some (ch '-')

instance (a : Arg) : Decidable (Dashed a) := inferInstanceAs (Decidable (_ = _))

/-- The argument prints one of the texts. -/
def Stops (a : Arg) : Prop := Matches a (ch 'V') (text "version") ∨ Matches a (ch 'h') (text "help")

instance (a : Arg) : Decidable (Stops a) := inferInstanceAs (Decidable (_ ∨ _))

/-- A read up to the terminator, or a text for an argument that is its option. -/
def Event.Proper : Event → Prop
  | .read a idx => idx ≤ a.chars.length
  | .version a => Dashed a ∧ Matches a (ch 'V') (text "version")
  | .usage a => Dashed a ∧ Matches a (ch 'h') (text "help")

def Event.IsText : Event → Prop
  | .read _ _ => False
  | _ => True

/-- No byte behind a terminator is read, a text is printed only because of its option, and where no argument
begins with a minus sign the program reaches the end of `main` without printing either. -/
structure TreatsOptions (argv : List Arg) : Prop where
  proper : ∀ e ∈ (main argv).events, e.Proper
  plain : (∀ a ∈ argv, ¬ Dashed a) →
    (main argv).value? = some .endOfMain ∧ ∀ e ∈ (main argv).events, ¬ e.IsText

/-! ### The macro -/

section Macro

variable {a : Arg} {P : Event → Prop}

theorem read_sat {idx : ℕ} (hP : P (.read a idx)) (hidx : idx ≤ a.chars.length) :
    Sat P (fun c => c = 0#8 ∧ a.chars.drop idx = [] ∨ c ≠ 0#8 ∧ a.chars[idx]? = some c ∧
      a.chars.drop idx = c :: a.chars.drop (idx + 1)) (a.read idx) := by
  refine sat_emit hP ?_
  rcases Nat.lt_or_ge idx a.chars.length with hlt | hge
  · rw [List.getElem?_append_left hlt, List.getElem?_eq_getElem hlt]
    have hnul := a.nul
    refine sat_pure (.inr ⟨fun hzero => ?_, rfl, List.drop_eq_getElem_cons hlt⟩)
    rw [← hzero] at hnul
    exact hnul (List.getElem_mem hlt)
  · rw [List.getElem?_append_right hge, show idx - a.chars.length = 0 by omega]
    exact sat_pure (.inl ⟨rfl, List.drop_eq_nil_of_le hge⟩)

theorem strcmp_sat (hP : ∀ idx ≤ a.chars.length, P (.read a idx)) {idx : ℕ} (hidx : idx ≤ a.chars.length)
    {l : List Byte} (hl : 0#8 ∉ l) : Sat P (fun same => same = true ↔ a.chars.drop idx = l) (a.strcmp idx l) := by
  induction l generalizing idx with
  | nil =>
    apply (read_sat (hP idx hidx) hidx).bind
    rintro c (⟨rfl, hend⟩ | ⟨hc, -, hcons⟩)
    · exact sat_pure (by simp [hend])
    · exact sat_pure (by simp [hc, hcons])
  | cons l ls ih =>
    rw [List.mem_cons, not_or] at hl
    apply (read_sat (hP idx hidx) hidx).bind
    rintro c (⟨rfl, hend⟩ | ⟨hc, hget, hcons⟩)
    · rw [if_neg hl.1]
      exact sat_pure (by simp [hend])
    · by_cases hcl : c = l
      · subst hcl
        have hlt : idx < a.chars.length := (List.getElem?_eq_some_iff.mp hget).1
        rw [if_pos rfl, hcons]
        simpa using ih hlt hl.2
      · rw [if_neg hcl]
        exact sat_pure (by simp [hcons, hcl])

theorem isOptarg_sat (hP : ∀ idx ≤ a.chars.length, P (.read a idx)) (ha : a.chars ≠ []) {s : Byte} (hs : s ≠ 0#8)
    {l : List Byte} (hl : 0#8 ∉ l) : Sat P (fun b => b = true ↔ Matches a s l) (isOptarg a s l) := by
  have hone : 1 ≤ a.chars.length := List.length_pos_iff.mpr ha
  have hstrcmp := strcmp_sat hP hone (l := ch '-' :: l) (by
    rw [List.mem_cons, not_or]
    exact ⟨by decide, hl⟩)
  apply (read_sat (hP 1 hone) hone).bind
  rintro c (⟨rfl, hend⟩ | ⟨hc, hget, -⟩)
  · rw [if_neg hs.symm]
    have hnone : a.chars[1]? = none := List.getElem?_eq_none (List.drop_eq_nil_iff.mp hend)
    simpa [Matches, hnone] using hstrcmp
  · by_cases hcs : c = s
    · rw [if_pos hcs]
      exact sat_pure (by simp [Matches, hget, hcs])
    · rw [if_neg hcs]
      simpa [Matches, hget, hcs] using hstrcmp

end Macro

/-! ### The loop -/

/-- What the loop does with an argument once it has read it. -/
def act (a : Arg) (argv : List Arg) : Traced Event Ended :=
  if Matches a (ch 'V') (text "version") then version a
  else if Matches a (ch 'h') (text "help") then usage a
  else main argv

theorem main_cons {a : Arg} (ha : a.chars ≠ []) (argv : List Arg) :
    ∃ reads : List Event, (∀ e ∈ reads, ∃ idx ≤ a.chars.length, e = .read a idx) ∧
      main (a :: argv) = ⟨reads ++ (act a argv).events, (act a argv).value?⟩ := by
  have hreads : ∀ idx ≤ a.chars.length, ∃ i ≤ a.chars.length, Event.read a idx = .read a i :=
    fun idx hidx => ⟨idx, hidx, rfl⟩
  obtain ⟨hV, isVersion, hversion, hVmatch⟩ := isOptarg_sat (P := fun e => ∃ i ≤ a.chars.length, e = .read a i)
    hreads ha (s := ch 'V') (by decide) (l := text "version") (by decide)
  obtain ⟨hH, isHelp, hhelp, hHmatch⟩ := isOptarg_sat (P := fun e => ∃ i ≤ a.chars.length, e = .read a i)
    hreads ha (s := ch 'h') (by decide) (l := text "help") (by decide)
  rw [main, bind_of_some hversion, act]
  by_cases hmatch : Matches a (ch 'V') (text "version")
  · refine ⟨_, hV, ?_⟩
    rw [hVmatch.mpr hmatch, if_pos rfl, if_pos hmatch]
  · refine ⟨_ ++ _, fun e he => (List.mem_append.mp he).elim (hV e) (hH e), ?_⟩
    rw [if_neg (mt hVmatch.mp hmatch), if_neg hmatch, bind_of_some hhelp, List.append_assoc]
    by_cases hhelp : Matches a (ch 'h') (text "help")
    · rw [hHmatch.mpr hhelp, if_pos rfl, if_pos hhelp]
    · rw [if_neg (mt hHmatch.mp hhelp), if_neg hhelp]

/-- The second character of an empty argument is behind its terminator. -/
theorem main_empty {a : Arg} (ha : a.chars = []) (argv : List Arg) : main (a :: argv) = ⟨[.read a 1], none⟩ := by
  rw [main, isOptarg, Arg.read, ha]
  rfl

theorem act_of_not_stops {a : Arg} (h : ¬ Stops a) (argv : List Arg) : act a argv = main argv := by
  rw [Stops, not_or] at h
  rw [act, if_neg h.1, if_neg h.2]

theorem act_of_stops {a : Arg} (h : Stops a) (argv : List Arg) :
    ∃ e : Event, (act a argv).events = [e] ∧ (e.Proper ↔ Dashed a) ∧ e.IsText := by
  by_cases hV : Matches a (ch 'V') (text "version")
  · rw [act, if_pos hV]
    exact ⟨.version a, rfl, and_iff_left hV, trivial⟩
  · have hH : Matches a (ch 'h') (text "help") := h.resolve_left hV
    rw [act, if_neg hV, if_pos hH]
    exact ⟨.usage a, rfl, and_iff_left hH, trivial⟩

/-! ### Safe argument vectors -/

/-- No argument up to the first that stops the loop is empty, and that one begins with a minus sign. -/
def SafeArgs (argv : List Arg) : Prop :=
  ∀ front a rest, argv = front ++ a :: rest → (∀ b ∈ front, ¬ Stops b) → a.chars ≠ [] ∧ (Stops a → Dashed a)

theorem safeArgs_cons {a : Arg} {argv : List Arg} :
    SafeArgs (a :: argv) ↔ a.chars ≠ [] ∧ (Stops a → Dashed a) ∧ (¬ Stops a → SafeArgs argv) := by
  constructor
  · intro h
    obtain ⟨hne, hdash⟩ := h [] a argv rfl (by simp)
    refine ⟨hne, hdash, fun hstop front b rest heq hfront => ?_⟩
    apply h (a :: front) b rest (by rw [heq]; rfl)
    intro c hc
    rcases List.mem_cons.mp hc with rfl | hc
    · exact hstop
    · exact hfront c hc
  · rintro ⟨hne, hdash, hrest⟩ front b rest heq hfront
    cases front with
    | nil =>
      cases heq
      exact ⟨hne, hdash⟩
    | cons c front =>
      rw [List.cons_append] at heq
      cases heq
      exact hrest (hfront a (List.mem_cons_self ..)) front b rest rfl
        fun d hd => hfront d (List.mem_cons_of_mem _ hd)

theorem proper_iff (argv : List Arg) : (∀ e ∈ (main argv).events, e.Proper) ↔ SafeArgs argv := by
  induction argv with
  | nil => exact iff_of_true (fun e he => absurd he List.not_mem_nil) fun front a rest heq => by simp at heq
  | cons a argv ih =>
    rw [safeArgs_cons]
    by_cases ha : a.chars = []
    · rw [main_empty ha]
      refine iff_of_false (fun h => ?_) fun h => h.1 ha
      have hread : 1 ≤ a.chars.length := h _ (List.mem_singleton_self _)
      rw [ha] at hread
      exact absurd hread (by decide)
    · obtain ⟨reads, hreads, hmain⟩ := main_cons ha argv
      have hproper : ∀ e ∈ reads, e.Proper := by
        intro e he
        obtain ⟨idx, hidx, rfl⟩ := hreads e he
        exact hidx
      have hevents : (∀ e ∈ (main (a :: argv)).events, e.Proper) ↔ ∀ e ∈ (act a argv).events, e.Proper := by
        rw [hmain]
        refine ⟨fun h e he => h e (List.mem_append_right _ he), fun h e he => ?_⟩
        exact (List.mem_append.mp he).elim (hproper e) (h e)
      rw [hevents]
      by_cases hstop : Stops a
      · obtain ⟨e, he, hdash, -⟩ := act_of_stops hstop argv
        rw [he, List.forall_mem_singleton, hdash]
        exact ⟨fun h => ⟨ha, fun _ => h, fun h' => absurd hstop h'⟩, fun h => h.2.1 hstop⟩
      · rw [act_of_not_stops hstop, ih]
        exact ⟨fun h => ⟨ha, fun h' => absurd h' hstop, fun _ => h⟩, fun h => h.2.2 hstop⟩

theorem main_plain {argv : List Arg} (hsafe : SafeArgs argv) (hplain : ∀ a ∈ argv, ¬ Dashed a) :
    (main argv).value? = some .endOfMain ∧ ∀ e ∈ (main argv).events, ¬ e.IsText := by
  induction argv with
  | nil => exact ⟨rfl, fun e he => absurd he List.not_mem_nil⟩
  | cons a argv ih =>
    obtain ⟨hne, hdash, hrest⟩ := safeArgs_cons.mp hsafe
    have hstop : ¬ Stops a := fun h => hplain a (List.mem_cons_self ..) (hdash h)
    obtain ⟨hvalue, hevents⟩ := ih (hrest hstop) fun b hb => hplain b (List.mem_cons_of_mem _ hb)
    obtain ⟨reads, hreads, hmain⟩ := main_cons hne argv
    rw [hmain, act_of_not_stops hstop]
    refine ⟨hvalue, fun e he => ?_⟩
    rcases List.mem_append.mp he with he | he
    · obtain ⟨idx, -, rfl⟩ := hreads e he
      exact id
    · exact hevents e he

theorem treatsOptions_iff (argv : List Arg) : TreatsOptions argv ↔ SafeArgs argv := by
  constructor
  · rintro ⟨hproper, -⟩
    exact (proper_iff argv).mp hproper
  · intro hsafe
    exact ⟨(proper_iff argv).mpr hsafe, main_plain hsafe⟩

/-- A directory whose name has a `V` in second place, and an empty argument. -/
theorem not_treatsOptions :
    ¬ TreatsOptions [⟨text "WV", by decide⟩] ∧ ¬ TreatsOptions [⟨[], by decide⟩] := by
  constructor
  · rintro ⟨hproper, -⟩
    obtain ⟨hdash, -⟩ : Dashed ⟨text "WV", by decide⟩ ∧ _ := hproper (.version ⟨text "WV", by decide⟩) (by decide)
    exact absurd hdash (by decide)
  · rintro ⟨hproper, -⟩
    have hread : 1 ≤ 0 := hproper (.read ⟨[], by decide⟩ 1) (by decide)
    exact absurd hread (by decide)

end QDNix.Httpd
