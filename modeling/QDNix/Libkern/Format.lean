import QDNix.Lib.Numeral
import QDNix.Libkern.Printk

/-!
# The format language of `printk`

What a format string means, apart from how `printk` computes it: a string parses into directives, and each
directive renders, from the arguments still unused, a text and the arguments it leaves. A consuming
directive takes exactly one argument, of its own type. There is no meaning when the arguments do not match
or a `%` ends the string.
-/

namespace QDNix.Libkern

open Numeral

variable {w W : Nat}

inductive Directive
  | plain (c : Byte)
  | percent
  | int
  | unsigned
  | hex
  | octal
  | str
  | char
  | pointer
  | other (c : Byte)
deriving DecidableEq, Repr

/-- The directive of a `%` and the character `c`. -/
def directiveOf (c : Byte) : Directive :=
  if c = ch '%' then .percent
  else if c = ch 'd' ∨ c = ch 'i' then .int
  else if c = ch 'u' then .unsigned
  else if c = ch 'x' then .hex
  else if c = ch 'o' then .octal
  else if c = ch 's' then .str
  else if c = ch 'c' then .char
  else if c = ch 'p' ∨ c = ch 'a' then .pointer
  else .other c

def parse : List Byte → Option (List Directive)
  | [] => some []
  | c :: fmt =>
    if c ≠ ch '%' then (parse fmt).map (.plain c :: ·)
    else match fmt with
      | [] => none
      | d :: fmt => (parse fmt).map (directiveOf d :: ·)

/-- The text of a C string: its bytes up to the terminator, and `none` without one. -/
def cText (s : List Byte) : Option (List Byte) := if 0 ∈ s then some (s.takeWhile (· ≠ 0)) else none

def takeInt (f : BitVec w → List Byte) : List (Arg w W) → Option (List Byte × List (Arg w W))
  | .int x :: args => some (f x, args)
  | _ => none

def takeUnsigned (f : BitVec w → List Byte) : List (Arg w W) → Option (List Byte × List (Arg w W))
  | .unsigned x :: args => some (f x, args)
  | _ => none

def takeUintptr (f : BitVec W → List Byte) : List (Arg w W) → Option (List Byte × List (Arg w W))
  | .uintptr p :: args => some (f p, args)
  | _ => none

def takeStr (f : Option (List Byte) → Option (List Byte)) :
    List (Arg w W) → Option (List Byte × List (Arg w W))
  | .str s :: args => (f s).map (·, args)
  | _ => none

/-- The text of one directive and the arguments it leaves. -/
def render (d : Directive) (args : List (Arg w W)) : Option (List Byte × List (Arg w W)) :=
  match d with
  | .plain c => some ([c], args)
  | .percent => some ([ch '%'], args)
  | .int => takeInt (fun x => decimal x.toInt) args
  | .unsigned => takeUnsigned (fun x => numeral 10 x.toNat) args
  | .hex => takeUnsigned (fun x => numeral 16 x.toNat) args
  | .octal => takeUnsigned (fun x => ch '0' :: numeral 8 x.toNat) args
  | .str => takeStr (fun s => s.elim (some nullText) cText) args
  | .char => takeInt (fun x => [x.setWidth 8]) args
  | .pointer => takeUintptr (fun p => ch '0' :: ch 'x' :: numeral 16 p.toNat) args
  | .other c => some ([ch '%', c], args)

def renderAll : List Directive → List (Arg w W) → Option (List Byte)
  | [], _ => some []
  | d :: ds, args => do
    let (text, args) ← render d args
    let texts ← renderAll ds args
    pure (text ++ texts)

/-- The text a format string stands for. -/
def format (fmt : List Byte) (args : List (Arg w W)) : Option (List Byte) := do
  let ds ← parse fmt
  renderAll ds args

theorem takeInt_eq_some {f : BitVec w → List Byte} {args args' : List (Arg w W)} {text : List Byte} :
    takeInt f args = some (text, args') ↔ ∃ x, args = .int x :: args' ∧ f x = text := by
  rcases args with _ | ⟨_ | _ | _ | _, args⟩ <;> simp [takeInt, and_comm]

theorem takeUnsigned_eq_some {f : BitVec w → List Byte} {args args' : List (Arg w W)} {text : List Byte} :
    takeUnsigned f args = some (text, args') ↔ ∃ x, args = .unsigned x :: args' ∧ f x = text := by
  rcases args with _ | ⟨_ | _ | _ | _, args⟩ <;> simp [takeUnsigned, and_comm]

theorem takeUintptr_eq_some {f : BitVec W → List Byte} {args args' : List (Arg w W)} {text : List Byte} :
    takeUintptr f args = some (text, args') ↔ ∃ p, args = .uintptr p :: args' ∧ f p = text := by
  rcases args with _ | ⟨_ | _ | _ | _, args⟩ <;> simp [takeUintptr, and_comm]

theorem takeStr_eq_some {f : Option (List Byte) → Option (List Byte)} {args args' : List (Arg w W)}
    {text : List Byte} : takeStr f args = some (text, args') ↔ ∃ s, args = .str s :: args' ∧ f s = some text := by
  rcases args with _ | ⟨_ | _ | _ | _, args⟩ <;> simp [takeStr, and_comm]

@[simp] theorem format_nil (args : List (Arg w W)) : format [] args = some [] := rfl

theorem format_plain {c : Byte} (hc : c ≠ ch '%') (fmt : List Byte) (args : List (Arg w W)) :
    format (c :: fmt) args = (format fmt args).map (c :: ·) := by
  rw [format, parse.eq_def]
  simp only [if_pos hc]
  cases hparse : parse fmt with
  | none => simp [format, hparse]
  | some ds =>
    cases hrest : renderAll ds args <;> simp [format, hparse, renderAll, render, hrest]

theorem format_directive (d : Byte) (fmt : List Byte) (args : List (Arg w W)) :
    format (ch '%' :: d :: fmt) args =
      (render (directiveOf d) args).bind fun r => (format fmt r.2).map (r.1 ++ ·) := by
  rw [format, parse.eq_def]
  simp only [ne_eq, not_true_eq_false, if_false]
  cases hparse : parse fmt with
  | none => cases hrender : render (directiveOf d) args <;> simp [format, hparse]
  | some ds =>
    cases hrender : render (directiveOf d) args with
    | none => simp [renderAll, hrender]
    | some r =>
      cases hrest : renderAll ds r.2 <;> simp [format, hparse, renderAll, hrender, hrest]

theorem format_text {s : List Byte} (hs : ch '%' ∉ s) (fmt : List Byte) (args : List (Arg w W)) :
    format (s ++ fmt) args = (format fmt args).map (s ++ ·) := by
  induction s with
  | nil => exact Option.map_id_apply.symm
  | cons c s ih =>
    have hc : c ≠ ch '%' := fun h => hs (h ▸ List.mem_cons_self)
    rw [List.cons_append, format_plain hc, ih (fun h => hs (List.mem_cons_of_mem _ h)), Option.map_map]
    rfl

theorem format_piece {s : List Byte} (hs : ch '%' ∉ s) {d : Byte} {args args' : List (Arg w W)} {text : List Byte}
    (htext : render (directiveOf d) args = some (text, args')) {fmt rest : List Byte}
    (hrest : format fmt args' = some rest) :
    format (s ++ ch '%' :: d :: fmt) args = some (s ++ (text ++ rest)) := by
  rw [format_text hs, format_directive, htext, Option.bind_some, hrest]
  rfl

theorem format_rest {s : List Byte} (hs : ch '%' ∉ s) (args : List (Arg w W)) : format s args = some s := by
  have htext := format_text hs [] args
  rw [List.append_nil, format_nil, Option.map_some, List.append_nil] at htext
  exact htext

theorem render_d (x : BitVec w) (args : List (Arg w W)) :
    render (directiveOf (ch 'd')) (.int x :: args) = some (decimal x.toInt, args) := by
  rw [show directiveOf (ch 'd') = .int by decide]
  rfl

theorem render_u (x : BitVec w) (args : List (Arg w W)) :
    render (directiveOf (ch 'u')) (.unsigned x :: args) = some (numeral 10 x.toNat, args) := by
  rw [show directiveOf (ch 'u') = .unsigned by decide]
  rfl

theorem render_p (p : BitVec W) (args : List (Arg w W)) :
    render (directiveOf (ch 'p')) (.uintptr p :: args) = some (ch '0' :: ch 'x' :: numeral 16 p.toNat, args) := by
  rw [show directiveOf (ch 'p') = .pointer by decide]
  rfl

theorem render_s {s : Option (List Byte)} {text : List Byte} (h : s.elim (some nullText) cText = some text)
    (args : List (Arg w W)) : render (directiveOf (ch 's')) (.str s :: args) = some (text, args) := by
  rw [show directiveOf (ch 's') = .str by decide, render, takeStr, h]
  rfl

theorem format_lone (args : List (Arg w W)) : format [ch '%'] args = none := rfl

end QDNix.Libkern
