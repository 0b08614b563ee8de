import QDNix.Lib.Quoting

/-!
# Lines and variables of a makefile

A makefile of assignments. A newline ends a line unless a backslash stands before it that is not itself the
second of a pair: then the line goes on, with a blank for the newline and the blanks after it. Of two
assignments to a variable the later one counts.

A text without backslashes cannot carry a line on, and no more can an escaped text: its backslashes pair up
(`logicalLines_escape`).
-/

namespace Quoting

/-! ### Lines -/

/-- A character before the first line. -/
def consHead (c : Char) : List (List Char) → List (List Char)
  | [] => [[c]]
  | l :: ls => (c :: l) :: ls

/-- The lines of a text; after a continued line, blanks are skipped. -/
def logicalLines : Bool → List Char → List (List Char)
  | _, [] => []
  | _, '\\' :: '\n' :: s => consHead ' ' (logicalLines true s)
  | _, '\\' :: c :: s => consHead '\\' (consHead c (logicalLines false s))
  | _, '\n' :: s => [] :: logicalLines false s
  | skip, c :: s => if skip ∧ isBlank c then logicalLines true s else consHead c (logicalLines false s)

theorem foldr_consHead (s l : List Char) (ls : List (List Char)) : s.foldr consHead (l :: ls) = (s ++ l) :: ls := by
  induction s with
  | nil => rfl
  | cons c s ih => rw [List.foldr_cons, ih, consHead, List.cons_append]

theorem logicalLines_newline (s : List Char) : logicalLines false ('\n' :: s) = [] :: logicalLines false s := by
  rw [logicalLines]

theorem logicalLines_char {c : Char} (hslash : c ≠ '\\') (hline : c ≠ '\n') (s : List Char) :
    logicalLines false (c :: s) = consHead c (logicalLines false s) := by
  rw [logicalLines]
  · rfl
  · exact fun t h => absurd h hslash
  · exact fun d t h => absurd h hslash
  · exact hline

theorem logicalLines_pair {c : Char} (hline : c ≠ '\n') (s : List Char) :
    logicalLines false ('\\' :: c :: s) = consHead '\\' (consHead c (logicalLines false s)) := by
  rw [logicalLines]
  exact hline

theorem logicalLines_append {s : List Char} (hslash : '\\' ∉ s) (hline : '\n' ∉ s) (rest : List Char) :
    logicalLines false (s ++ rest) = s.foldr consHead (logicalLines false rest) := by
  induction s with
  | nil => rfl
  | cons c s ih =>
    rw [List.mem_cons, not_or] at hslash hline
    rw [List.cons_append, logicalLines_char (Ne.symm hslash.1) (Ne.symm hline.1), ih hslash.2 hline.2,
      List.foldr_cons]

/-- **An escaped text does not carry its line on.** -/
theorem logicalLines_escape {s : List Char} (hline : '\n' ∉ s) (rest : List Char) :
    logicalLines false (escape s ++ rest) = (escape s).foldr consHead (logicalLines false rest) := by
  induction s with
  | nil => rfl
  | cons c s ih =>
    rw [List.mem_cons, not_or] at hline
    rw [escape_cons, List.append_assoc, List.foldr_append]
    by_cases hc : c = '\\' ∨ c = '"'
    · rw [escapeChar_of_special hc]
      exact (logicalLines_pair (Ne.symm hline.1) _).trans (congrArg (fun ls => consHead _ (consHead c ls)) (ih hline.2))
    · rw [escapeChar_of_plain hc]
      rw [not_or] at hc
      exact (logicalLines_char hc.1 (Ne.symm hline.1) _).trans (congrArg (consHead c) (ih hline.2))

/-! ### Variables -/

/-- What a makefile of these assignments makes of a variable. -/
def lastOf {ν : Type} (bindings : List (List Char × ν)) (name : List Char) : Option ν :=
  (bindings.reverse.find? fun b => decide (b.1 = name)).map Prod.snd

variable {ν : Type} {bindings : List (List Char × ν)} {name : List Char}

theorem lastOf_eq_none (h : ∀ b ∈ bindings, b.1 ≠ name) : lastOf bindings name = none := by
  rw [lastOf, Option.map_eq_none_iff, List.find?_eq_none]
  intro b hb
  rw [decide_eq_true_eq]
  exact h b (List.mem_reverse.mp hb)

theorem lastOf_eq_some {value : ν} (hmem : (name, value) ∈ bindings)
    (hone : ∀ b ∈ bindings, b.1 = name → b.2 = value) : lastOf bindings name = some value := by
  obtain ⟨b, hfind⟩ : ∃ b, bindings.reverse.find? (fun b => decide (b.1 = name)) = some b := by
    rw [← Option.isSome_iff_exists, List.find?_isSome]
    exact ⟨_, List.mem_reverse.mpr hmem, decide_eq_true rfl⟩
  have hname := List.find?_some hfind
  rw [decide_eq_true_eq] at hname
  have hvalue := hone b (List.mem_reverse.mp (List.mem_of_find?_eq_some hfind)) hname
  rw [lastOf, hfind, Option.map_some, hvalue]

end Quoting
