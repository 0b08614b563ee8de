import Mathlib.Data.List.TakeWhile
import Mathlib.Algebra.Order.Group.Nat

/-!
# Escaped text and its readers

`escape` puts a backslash before every double quote and every backslash. A C string literal undoes it
(`cString_escape`). The right side of an assignment in a makefile does not: there a backslash stands for
itself but before a number sign, a number sign that has none starts a comment, a dollar sign starts an
expansion, and leading blanks are dropped. `makeText_escape_iff` says which texts survive.
-/

namespace Quoting

def escapeChar (c : Char) : List Char := if c = '\\' ∨ c = '"' then ['\\', c] else [c]

def escape (s : List Char) : List Char := s.flatMap escapeChar

/-! ### C string literals -/

/-- The rest of a string literal, up to its closing quote; the escape sequences are those of `escape`. There are no
trigraphs, which a compiler in GNU mode leaves alone. -/
def cRest : List Char → Option (List Char)
  | '"' :: _ => some []
  | '\\' :: c :: s => if c = '\\' ∨ c = '"' then (cRest s).map (c :: ·) else none
  | c :: s => (cRest s).map (c :: ·)
  | [] => none

/-- What a string literal denotes. -/
def cString : List Char → Option (List Char)
  | '"' :: s => cRest s
  | _ => none

/-! ### Make -/

def isBlank (c : Char) : Bool := c = ' ' ∨ c = '\t'

/-- The text up to a comment, with `\#` for a number sign. -/
def stripComment : List Char → List Char
  | '\\' :: '#' :: s => '#' :: stripComment s
  | '\\' :: c :: s => '\\' :: c :: stripComment s
  | '#' :: _ => []
  | c :: s => c :: stripComment s
  | [] => []

/-- Expand a text with the variables `vars`. Inside a reference, the character that closes it and the name so
far, last character first. -/
def expand (vars : List Char → List Char) : Option (Char × List Char) → List Char → List Char
  | none, '$' :: '$' :: s => '$' :: expand vars none s
  | none, '$' :: '{' :: s => expand vars (some ('}', [])) s
  | none, '$' :: '(' :: s => expand vars (some (')', [])) s
  | none, '$' :: c :: s => vars [c] ++ expand vars none s
  | none, ['$'] => vars []
  | none, c :: s => c :: expand vars none s
  | some (close, name), c :: s =>
    if c = close then vars name.reverse ++ expand vars none s else expand vars (some (close, c :: name)) s
  | _, [] => []

/-- What a variable assigned this text stands for. -/
def makeText (vars : List Char → List Char) (s : List Char) : List Char :=
  expand vars none (stripComment (s.dropWhile isBlank))

/-! ### Round trips -/

theorem escape_cons (c : Char) (s : List Char) : escape (c :: s) = escapeChar c ++ escape s := List.flatMap_cons

theorem escapeChar_of_special {c : Char} (h : c = '\\' ∨ c = '"') : escapeChar c = ['\\', c] := if_pos h

theorem escapeChar_of_plain {c : Char} (h : ¬ (c = '\\' ∨ c = '"')) : escapeChar c = [c] := if_neg h

/-- **A string literal denotes what was escaped into it.** -/
theorem cRest_escape (s rest : List Char) : cRest (escape s ++ '"' :: rest) = some s := by
  induction s with
  | nil => rfl
  | cons c s ih =>
    rw [escape_cons, List.append_assoc]
    by_cases hc : c = '\\' ∨ c = '"'
    · rw [escapeChar_of_special hc]
      change (if c = '\\' ∨ c = '"' then (cRest (escape s ++ '"' :: rest)).map (c :: ·) else none) = _
      rw [if_pos hc, ih]
      rfl
    · rw [escapeChar_of_plain hc]
      rw [not_or] at hc
      change cRest (c :: (escape s ++ '"' :: rest)) = _
      rw [cRest, ih]
      · rfl
      · exact fun h => hc.2 h
      · exact fun d t h => absurd h hc.1

theorem cString_escape (s rest : List Char) : cString ('"' :: (escape s ++ '"' :: rest)) = some s := cRest_escape s rest

theorem not_isBlank_of_special {c : Char} (h : c = '\\' ∨ c = '"') : isBlank c = false := by
  rcases h with rfl | rfl <;> decide

theorem dropWhile_escape (s : List Char) : (escape s).dropWhile isBlank = escape (s.dropWhile isBlank) := by
  induction s with
  | nil => rfl
  | cons c s ih =>
    by_cases hc : c = '\\' ∨ c = '"'
    · rw [List.dropWhile_cons_of_neg (by simp [not_isBlank_of_special hc]), escape_cons, escapeChar_of_special hc]
      exact List.dropWhile_cons_of_neg (by decide)
    · rw [escape_cons, escapeChar_of_plain hc, List.singleton_append]
      by_cases hb : isBlank c
      · rw [List.dropWhile_cons_of_pos hb, List.dropWhile_cons_of_pos hb, ih]
      · rw [List.dropWhile_cons_of_neg hb, List.dropWhile_cons_of_neg hb, escape_cons, escapeChar_of_plain hc,
          List.singleton_append]

theorem stripComment_pair {c : Char} (hc : c ≠ '#') (s : List Char) :
    stripComment ('\\' :: c :: s) = '\\' :: c :: stripComment s := by
  rw [stripComment]
  exact fun h => hc h

theorem stripComment_cons {c : Char} (hslash : c ≠ '\\') (hhash : c ≠ '#') (s : List Char) :
    stripComment (c :: s) = c :: stripComment s := by
  rw [stripComment]
  · exact fun t h => absurd h hslash
  · exact fun d t h => absurd h hslash
  · exact fun h => hhash h

theorem stripComment_escape (s : List Char) :
    stripComment (escape s) = escape (s.takeWhile (· ≠ '#')) := by
  induction s with
  | nil => rfl
  | cons c s ih =>
    rw [escape_cons]
    by_cases hhash : c = '#'
    · subst hhash
      rw [List.takeWhile_cons_of_neg (by decide)]
      rfl
    · rw [List.takeWhile_cons_of_pos (by simpa using hhash), escape_cons]
      by_cases hc : c = '\\' ∨ c = '"'
      · rw [escapeChar_of_special hc]
        exact (stripComment_pair hhash _).trans (congrArg (fun t => '\\' :: c :: t) ih)
      · rw [escapeChar_of_plain hc]
        rw [not_or] at hc
        exact (stripComment_cons hc.1 hhash _).trans (congrArg (c :: ·) ih)

/-! ### Expansions -/

theorem expand_of_notMem (vars : List Char → List Char) {s : List Char} (h : '$' ∉ s) : expand vars none s = s := by
  induction s with
  | nil => rfl
  | cons c s ih =>
    rw [List.mem_cons, not_or] at h
    rw [expand, ih h.2]
    all_goals
      intros
      exact absurd ‹c = '$'›.symm h.1

theorem count_expand_empty (ref : Option (Char × List Char)) (s : List Char) :
    2 * (expand (fun _ => []) ref s).count '$' ≤ s.count '$' := by
  have hcons : ∀ (c : Char) (t : List Char), t.count '$' ≤ (c :: t).count '$' := fun c t => List.count_le_count_cons
  fun_induction expand (fun _ => []) ref s with
  | case1 s ih =>
    rw [List.count_cons_self, List.count_cons_self, List.count_cons_self]
    omega
  | case2 s ih => exact ih.trans ((hcons '{' s).trans (hcons '$' _))
  | case3 s ih => exact ih.trans ((hcons '(' s).trans (hcons '$' _))
  | case4 c s _ _ _ ih =>
    rw [List.nil_append]
    exact ih.trans ((hcons c s).trans (hcons '$' _))
  | case5 => exact Nat.zero_le _
  | case6 c s _ _ _ hpair hlone ih =>
    have hc : c ≠ '$' := by
      intro hc
      cases s with
      | nil => exact hlone hc rfl
      | cons d s => exact hpair d s hc rfl
    rw [List.count_cons_of_ne hc, List.count_cons_of_ne hc]
    exact ih
  | case7 name c s ih =>
    rw [List.nil_append]
    exact ih.trans (hcons c s)
  | case8 close name c s _ ih => exact ih.trans (hcons c s)
  | case9 => exact Nat.zero_le _

/-! ### What survives -/

theorem mem_escape {c : Char} {s : List Char} (h : c ∈ escape s) : c = '\\' ∨ c ∈ s := by
  obtain ⟨d, hd, hc⟩ := List.mem_flatMap.mp h
  by_cases hspecial : d = '\\' ∨ d = '"'
  · rw [escapeChar_of_special hspecial, List.mem_cons, List.mem_singleton] at hc
    exact hc.imp_right fun (hcd : c = d) => hcd ▸ hd
  · rw [escapeChar_of_plain hspecial, List.mem_singleton] at hc
    exact .inr (hc ▸ hd)

theorem length_le_escape (s : List Char) : s.length ≤ (escape s).length := by
  induction s with
  | nil => exact Nat.le_refl _
  | cons c s ih =>
    have hc : 1 ≤ (escapeChar c).length := by
      rw [escapeChar]
      split
      · exact Nat.le_add_left 1 1
      · exact Nat.le_refl 1
    rw [escape_cons, List.length_append, List.length_cons]
    omega

theorem escape_eq_self_iff (s : List Char) : escape s = s ↔ '\\' ∉ s ∧ '"' ∉ s := by
  induction s with
  | nil => simp [escape]
  | cons c s ih =>
    rw [escape_cons]
    by_cases hc : c = '\\' ∨ c = '"'
    · refine iff_of_false (fun h => ?_) ?_
      · have hlen := congrArg List.length h
        rw [escapeChar_of_special hc, List.length_append, List.length_cons, List.length_cons] at hlen
        have := length_le_escape s
        simp only [List.length_cons, List.length_nil] at hlen
        omega
      · rintro ⟨hslash, hquote⟩
        rcases hc with rfl | rfl
        · exact hslash (List.mem_cons_self ..)
        · exact hquote (List.mem_cons_self ..)
    · rw [escapeChar_of_plain hc, List.singleton_append, List.cons_inj_right, ih]
      rw [not_or] at hc
      simp [Ne.symm hc.1, Ne.symm hc.2]

/-- No character that make or `escape` treats specially, and no leading blank. -/
structure Plain (s : List Char) : Prop where
  backslash : '\\' ∉ s
  quote : '"' ∉ s
  dollar : '$' ∉ s
  hash : '#' ∉ s
  blank : s.dropWhile isBlank = s

theorem count_escape {c : Char} (hslash : c ≠ '\\') (s : List Char) : (escape s).count c = s.count c := by
  induction s with
  | nil => rfl
  | cons d s ih =>
    have hchar : (escapeChar d).count c = [d].count c := by
      by_cases hd : d = '\\' ∨ d = '"'
      · rw [escapeChar_of_special hd, List.count_cons_of_ne hslash.symm]
      · rw [escapeChar_of_plain hd]
    rw [escape_cons, List.count_append, hchar, ih, ← List.count_append, List.singleton_append]

/-- What make keeps of a text before it expands it. -/
def kept (s : List Char) : List Char := (s.dropWhile isBlank).takeWhile (· ≠ '#')

theorem kept_sublist (s : List Char) : (kept s).Sublist s :=
  (List.takeWhile_sublist _).trans (List.dropWhile_sublist _)

theorem kept_of_notMem {s : List Char} (hblank : s.dropWhile isBlank = s) (hhash : '#' ∉ s) : kept s = s := by
  rw [kept, hblank]
  refine List.takeWhile_eq_self_iff.mpr fun c hc => ?_
  rw [decide_eq_true_eq]
  exact fun h => hhash (h ▸ hc)

theorem hash_notMem_kept (s : List Char) : '#' ∉ kept s := fun h => by simpa using List.mem_takeWhile_imp h

theorem dropWhile_kept (s : List Char) : (kept s).dropWhile isBlank = kept s := by
  induction s with
  | nil => rfl
  | cons c s ih =>
    by_cases hb : isBlank c
    · rw [kept, List.dropWhile_cons_of_pos hb]
      exact ih
    · rw [kept, List.dropWhile_cons_of_neg hb, List.takeWhile_cons]
      split
      · exact List.dropWhile_cons_of_neg hb
      · rfl

theorem makeText_escape (vars : List Char → List Char) (s : List Char) :
    makeText vars (escape s) = expand vars none (escape (kept s)) := by
  rw [makeText, dropWhile_escape, stripComment_escape, kept]

/-- **An escaped text is read back by make exactly if it is plain**, whatever the variables are. -/
theorem makeText_escape_iff (s : List Char) : (∀ vars, makeText vars (escape s) = s) ↔ Plain s := by
  constructor
  · intro h
    have hempty := h fun _ => []
    rw [makeText_escape] at hempty
    -- an expansion leaves at most half of the dollar signs, and the kept text has no more than `s`
    have hhalf := count_expand_empty none (escape (kept s))
    have hkept := (kept_sublist s).count_le '$'
    rw [hempty, count_escape (by decide)] at hhalf
    have hnone : '$' ∉ escape (kept s) := by
      rw [← List.count_eq_zero, count_escape (by decide)]
      omega
    have hesc : escape (kept s) = s := by rwa [expand_of_notMem _ hnone] at hempty
    have hhash : '#' ∉ s := fun hmem =>
      (mem_escape (hesc.symm ▸ hmem : '#' ∈ escape (kept s))).elim (by decide) (hash_notMem_kept s)
    have hblank : s.dropWhile isBlank = s := by rw [← hesc, dropWhile_escape, dropWhile_kept]
    have hself : escape s = s := by rwa [kept_of_notMem hblank hhash] at hesc
    obtain ⟨hbackslash, hquote⟩ := (escape_eq_self_iff s).mp hself
    exact ⟨hbackslash, hquote, hesc ▸ hnone, hhash, hblank⟩
  · intro h vars
    rw [makeText_escape, kept_of_notMem h.blank h.hash, (escape_eq_self_iff s).mpr ⟨h.backslash, h.quote⟩]
    exact expand_of_notMem vars h.dollar

end Quoting
