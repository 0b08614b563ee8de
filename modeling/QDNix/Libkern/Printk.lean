import QDNix.Kern.Console

/-!
# `printk`

`libkern/printk.c` for a target with `w`-bit `int` and `unsigned` and a `W`-bit `uintptr_t`, other than the
PDP-11. The events of a run are the calls of `console_putchar` and `console_flush` it makes, which are
operations of the console. A pointer into a string is the rest of the object it points into: reading past
its end is undefined, and so is fetching an argument of another type or one that is not there.

The static `buff` of `printuint` is passed along; every call leaves its own digits in it.
-/

namespace QDNix.Libkern

open Kern Traced

variable {w W : Nat}

/-- An argument of a variadic call. A string is what its pointer can reach, `none` for `NULL`. -/
inductive Arg (w W : Nat)
  | int (x : BitVec w)
  | unsigned (x : BitVec w)
  | str (s : Option (List Byte))
  | uintptr (p : BitVec W)
deriving DecidableEq, Repr

/-- `va_arg(args, int)` -/
def vaInt : List (Arg w W) → Traced Op (BitVec w × List (Arg w W))
  | .int x :: args => pure (x, args)
  | _ => undef

/-- `va_arg(args, unsigned)` -/
def vaUnsigned : List (Arg w W) → Traced Op (BitVec w × List (Arg w W))
  | .unsigned x :: args => pure (x, args)
  | _ => undef

/-- `va_arg(args, const char *)` -/
def vaStr : List (Arg w W) → Traced Op (Option (List Byte) × List (Arg w W))
  | .str s :: args => pure (s, args)
  | _ => undef

/-- `va_arg(args, uintptr_t)` -/
def vaUintptr : List (Arg w W) → Traced Op (BitVec W × List (Arg w W))
  | .uintptr p :: args => pure (p, args)
  | _ => undef

/-- The loop of `printstr`. -/
def printstrLoop : List Byte → Traced Op Unit
  | [] => undef
  | c :: str => if c = 0 then pure () else do
    emit (.putchar c)
    printstrLoop str

/-- The text `(null)`. -/
def nullText : List Byte := ['(', 'n', 'u', 'l', 'l', ')'].map ch

/-- The call on `NULL` is the one recursive call, on a string. -/
def printstr : Option (List Byte) → Traced Op Unit
  | none => printstrLoop (nullText ++ [0])
  | some str => printstrLoop str

/-- `static const char digits[]`, with its terminator. -/
def digits : Vector Byte 17 :=
  #v[ch '0', ch '1', ch '2', ch '3', ch '4', ch '5', ch '6', ch '7', ch '8', ch '9', ch 'a', ch 'b', ch 'c',
    ch 'd', ch 'e', ch 'f', 0]

/-- `static char buff[20]` -/
abbrev Buff := Vector Byte 20

/-- The `do … while` of `printuint`. The rounds are counted; round 21 would store outside `buff`, so 21 is
never too few. -/
def digitLoop (base : BitVec W) : Nat → BitVec W → Nat → Buff → Traced Op (Nat × Buff)
  | 0, _, _, _ => undef
  | rounds + 1, u, idx, buff => do
    let c ← load digits (u % base).toNat
    let buff ← store buff idx c
    if u / base ≠ 0 then digitLoop base rounds (u / base) (idx + 1) buff else pure (idx + 1, buff)

/-- The `for` of `printuint`, down from `idx`. -/
def putLoop (buff : Buff) : Nat → Traced Op Unit
  | 0 => pure ()
  | idx + 1 => do
    let c ← load buff idx
    emit (.putchar c)
    putLoop buff idx

def printuint (u : BitVec W) (base : Nat) (buff : Buff) : Traced Op Buff := do
  let (idx, buff) ← digitLoop (BitVec.ofNat W base) 21 u 0 buff
  putLoop buff idx
  pure buff

/-- The `switch` of `printk`, on the character after a `%`. An `int` becomes a `uintptr_t` by sign extension,
also after its negation. -/
def printkSwitch (c : Byte) (args : List (Arg w W)) (buff : Buff) : Traced Op (List (Arg w W) × Buff) :=
  if c = ch '%' then do
    emit (.putchar (ch '%'))
    pure (args, buff)
  else if c = ch 'd' ∨ c = ch 'i' then do
    let (tmp, args) ← vaInt args
    if tmp.slt 0 then do
      emit (.putchar (ch '-'))
      let buff ← printuint ((-tmp).signExtend W) 10 buff
      pure (args, buff)
    else do
      let buff ← printuint (tmp.signExtend W) 10 buff
      pure (args, buff)
  else if c = ch 'u' then do
    let (u, args) ← vaUnsigned args
    let buff ← printuint (u.setWidth W) 10 buff
    pure (args, buff)
  else if c = ch 'x' then do
    let (u, args) ← vaUnsigned args
    let buff ← printuint (u.setWidth W) 16 buff
    pure (args, buff)
  else if c = ch 'o' then do
    emit (.putchar (ch '0'))
    let (u, args) ← vaUnsigned args
    let buff ← printuint (u.setWidth W) 8 buff
    pure (args, buff)
  else if c = ch 's' then do
    let (s, args) ← vaStr args
    printstr s
    pure (args, buff)
  else if c = ch 'c' then do
    let (x, args) ← vaInt args
    emit (.putchar (x.setWidth 8))
    pure (args, buff)
  else if c = ch 'p' ∨ c = ch 'a' then do
    printstr (some [ch '0', ch 'x', 0])
    let (p, args) ← vaUintptr args
    let buff ← printuint p 16 buff
    pure (args, buff)
  else do
    emit (.putchar (ch '%'))
    emit (.putchar c)
    pure (args, buff)

/-- The `for` of `printk`. After a `%` the pointer moves to the next byte whatever it is, a terminator too. -/
def printkLoop : List Byte → List (Arg w W) → Buff → Traced Op Buff
  | [], _, _ => undef
  | c :: fmt, args, buff =>
    if c = 0 then pure buff
    else if c ≠ ch '%' then do
      emit (.putchar c)
      printkLoop fmt args buff
    else match fmt with
      | [] => undef
      | d :: fmt => do
        let (args, buff) ← printkSwitch d args buff
        printkLoop fmt args buff

theorem printkLoop_plain {c : Byte} (hzero : c ≠ 0) (hc : c ≠ ch '%') (fmt : List Byte) (args : List (Arg w W))
    (buff : Buff) : printkLoop (c :: fmt) args buff = (do
      emit (.putchar c)
      printkLoop fmt args buff) := by
  rw [printkLoop.eq_def]
  simp only [if_neg hzero, if_pos hc]

theorem printkLoop_directive (d : Byte) (fmt : List Byte) (args : List (Arg w W)) (buff : Buff) :
    printkLoop (ch '%' :: d :: fmt) args buff = (do
      let (args, buff) ← printkSwitch d args buff
      printkLoop fmt args buff) := by
  rw [printkLoop.eq_def]
  simp only [if_neg (show ch '%' ≠ 0 by decide), if_neg (not_not.mpr (rfl : ch '%' = ch '%'))]

def printk (fmt : List Byte) (args : List (Arg w W)) (buff : Buff) : Traced Op Buff := do
  let buff ← printkLoop fmt args buff
  emit .flush
  pure buff

end QDNix.Libkern
