import Mathlib.Data.List.Basic

/-!
# A little shell

`[` takes what it is asked from the number of its arguments: with three of them a comparison operator in the
middle comes before a `!` in front. An unquoted substitution contributes an argument for each field of its
text, so none for an empty text; a quoted one contributes one argument. The two ways of `${…}` to change a
parameter are here for literal patterns.
-/

namespace Shell

abbrev Word := List Char

/-- How a command ends. An error is no success, and its negation is none either. -/
inductive Status
  | yes | no | error
deriving DecidableEq, Repr

def Status.of (b : Bool) : Status := if b then yes else no

def Status.not : Status → Status
  | yes => no
  | no => yes
  | error => error

def bang : Word := ['!']

/-! ### Fields -/

def isIfs (c : Char) : Bool := c = ' ' ∨ c = '\t' ∨ c = '\n'

/-- The fields of a text, behind the last characters `cur` of a field. -/
def fieldsFrom : Word → List Char → List Word
  | cur, [] => if cur = [] then [] else [cur.reverse]
  | cur, c :: s =>
    if isIfs c then if cur = [] then fieldsFrom [] s else cur.reverse :: fieldsFrom [] s
    else fieldsFrom (c :: cur) s

/-- The arguments of an unquoted substitution. -/
def fields (text : List Char) : List Word := fieldsFrom [] text

@[simp] theorem fields_nil : fields [] = [] := rfl

theorem fieldsFrom_word {s : List Char} (h : ∀ c ∈ s, isIfs c = false) (cur : Word) (hne : cur ≠ [] ∨ s ≠ []) :
    fieldsFrom cur s = [cur.reverse ++ s] := by
  induction s generalizing cur with
  | nil =>
    have hcur : cur ≠ [] := hne.resolve_right fun h => h rfl
    rw [fieldsFrom, if_neg hcur, List.append_nil]
  | cons c s ih =>
    rw [List.forall_mem_cons] at h
    have hc : ¬ isIfs c = true := by simp [h.1]
    rw [fieldsFrom, if_neg hc, ih h.2 (c :: cur) (.inl (List.cons_ne_nil _ _)), List.reverse_cons, List.append_assoc,
      List.singleton_append]

theorem fields_word {s : Word} (h : ∀ c ∈ s, isIfs c = false) (hne : s ≠ []) : fields s = [s] :=
  fieldsFrom_word h [] (.inr hne)

/-! ### `[` -/

/-- `isFile` says which names are regular files. -/
def test (isFile : Word → Bool) : List Word → Status
  | [] => .no
  | [a] => .of (a ≠ [])
  | [a, b] => test2 a b
  | [a, op, b] => test3 a op b
  | [a, b, op, c] => if a = bang then (test3 b op c).not else .error
  | _ => .error
where
  test2 (a b : Word) : Status :=
    if a = bang then .of (b = [])
    else if a = ['-', 'f'] then .of (isFile b)
    else .error
  test3 (a op b : Word) : Status :=
    if op = ['='] ∨ op = ['=', '='] then .of (a = b)
    else if op = ['!', '='] then .of (a ≠ b)
    else if a = bang then (test2 op b).not
    else .error

variable (isFile : Word → Bool)

theorem test_not_file (name : Word) : test isFile [bang, ['-', 'f'], name] = .of (!isFile name) := by
  have htest : test isFile [bang, ['-', 'f'], name] = (Status.of (isFile name)).not := rfl
  rw [htest]
  cases isFile name <;> rfl

theorem test_eq {op : Word} (hop : op = ['='] ∨ op = ['=', '=']) (a b : Word) :
    test isFile [a, op, b] = .of (a = b) := if_pos hop

theorem test_not_eq {op : Word} (hop : op = ['='] ∨ op = ['=', '=']) (a b : Word) :
    test isFile [bang, a, op, b] = .of (a ≠ b) := by
  have htest : test isFile [bang, a, op, b] = (test isFile [a, op, b]).not := rfl
  rw [htest, test_eq isFile hop]
  by_cases h : a = b <;> simp [h, Status.of, Status.not]

/-- With nothing between them, `[ ! = b ]` compares the exclamation mark. -/
theorem test_bang_eq (b : Word) : test isFile [bang, ['='], b] = .of (bang = b) := rfl

theorem test_lone_eq (b : Word) : test isFile [['='], b] = .error := rfl

@[simp] theorem of_eq_yes {b : Bool} : Status.of b = .yes ↔ b = true := by cases b <;> simp [Status.of]

/-! ### Parameter expansion -/

/-- `${w/%c/}` -/
def stripLast (c : Char) (w : Word) : Word := if w.getLast? = some c then w.dropLast else w

/-- `${w/pattern/text}` for a pattern that is not empty and matches itself only. -/
def replaceFirst (pattern text : Word) : Word → Word
  | [] => []
  | c :: w =>
    if pattern <+: c :: w then text ++ (c :: w).drop pattern.length else c :: replaceFirst pattern text w

theorem stripLast_append {c : Char} {w v : Word} (hv : v ≠ []) (hc : c ∉ v) : stripLast c (w ++ v) = w ++ v := by
  refine if_neg fun hlast => ?_
  rw [List.getLast?_append_of_ne_nil _ hv] at hlast
  exact hc (List.mem_of_getLast? hlast)

theorem stripLast_spec (c : Char) (w : Word) :
    w.getLast? = some c ∧ w = stripLast c w ++ [c] ∨ w.getLast? ≠ some c ∧ stripLast c w = w := by
  by_cases hlast : w.getLast? = some c
  · refine .inl ⟨hlast, ?_⟩
    rw [stripLast, if_pos hlast]
    exact (List.dropLast_append_getLast? c hlast).symm
  · exact .inr ⟨hlast, if_neg hlast⟩

theorem replaceFirst_append {pattern : Word} (hpattern : pattern ≠ []) (text w : Word) :
    replaceFirst pattern text (pattern ++ w) = text ++ w := by
  obtain ⟨c, rest, rfl⟩ := List.exists_cons_of_ne_nil hpattern
  have hmatch : c :: rest <+: c :: (rest ++ w) := List.prefix_append (c :: rest) w
  rw [List.cons_append, replaceFirst, if_pos hmatch, ← List.cons_append, List.drop_left]

theorem infix_separated_iff {p w v : Word} {c : Char} (hc : c ∉ p) (hp : p ≠ []) :
    p <:+: w ++ c :: v ↔ p <:+: w ∨ p <:+: v := by
  constructor
  · rintro ⟨s, t, hst⟩
    rw [List.append_assoc, List.append_eq_append_iff] at hst
    rcases hst with ⟨u, hw, hu⟩ | ⟨u, hs, hu⟩
    · rcases List.append_eq_append_iff.mp hu with ⟨x, hx, -⟩ | ⟨x, hx, hx'⟩
      · exact .inl ⟨s, x, by rw [hw, hx, List.append_assoc]⟩
      · cases x with
        | nil =>
          rw [List.append_nil] at hx
          exact .inl ⟨s, [], by rw [hw, hx, List.append_nil]⟩
        | cons d x =>
          obtain ⟨rfl, -⟩ := List.cons.inj hx'
          exact absurd (hx ▸ List.mem_append_right u (List.mem_cons_self ..)) hc
    · cases u with
      | nil =>
        cases p with
        | nil => exact absurd rfl hp
        | cons d p =>
          obtain ⟨rfl, -⟩ := List.cons.inj hu
          exact absurd (List.mem_cons_self ..) hc
      | cons d u =>
        obtain ⟨-, hv⟩ := List.cons.inj hu
        exact .inr ⟨u, t, (List.append_assoc u p t).trans hv.symm⟩
  · rintro (⟨s, t, rfl⟩ | ⟨s, t, rfl⟩)
    · exact ⟨s, t ++ c :: v, by simp⟩
    · exact ⟨w ++ c :: s, t, by simp⟩

end Shell
