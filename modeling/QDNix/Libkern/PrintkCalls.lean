import QDNix.Libkern.PrintkSwitch

/-!
# The calls of `printuint` that `printk` makes

`printk` once more, with every call of `printuint` marked where it is made. Twenty digits are enough for every `uintptr_t` in base 10 and for every `unsigned` in base 8, and `printk`
passes nothing wider than `unsigned` in base 8. So each of its calls of `printuint` stays within `buff`,
returns, and puts the canonical numeral of its argument (`printk_prints_numerals`), whatever the format string
and the arguments are, and also in a run that goes on to undefined behaviour.
-/

namespace QDNix.Libkern

open Kern Traced Numeral

variable {w W : Nat}

/-! ### The marked program -/

/-- `printuint(va_arg(args, unsigned), base)` -/
def unsignedMarked (base : Nat) (args : List (Arg w W)) (buff : Buff) :
    Traced (PrintuintEvent W) (List (Arg w W) × Buff) := do
  let (u, args) ← unmarked (vaUnsigned args)
  emit (.enter (u.setWidth W) base)
  let buff ← printuintMarked (u.setWidth W) base buff
  pure (args, buff)

/-- `printuint(va_arg(args, uintptr_t), base)` -/
def uintptrMarked (base : Nat) (args : List (Arg w W)) (buff : Buff) :
    Traced (PrintuintEvent W) (List (Arg w W) × Buff) := do
  let (p, args) ← unmarked (vaUintptr args)
  emit (.enter p base)
  let buff ← printuintMarked p base buff
  pure (args, buff)

/-- The `switch` of `printk`. The PDP-11 fetches an `unsigned` for a pointer. -/
def printkSwitchMarked (pdp11 : Bool) (c : Byte) (args : List (Arg w W)) (buff : Buff) :
    Traced (PrintuintEvent W) (List (Arg w W) × Buff) :=
  if c = ch '%' then do
    emit (.call (.putchar (ch '%')))
    pure (args, buff)
  else if c = ch 'd' ∨ c = ch 'i' then do
    let (tmp, args) ← unmarked (vaInt args)
    if tmp.slt 0 then do
      emit (.call (.putchar (ch '-')))
      emit (.enter ((-tmp).signExtend W) 10)
      let buff ← printuintMarked ((-tmp).signExtend W) 10 buff
      pure (args, buff)
    else do
      emit (.enter (tmp.signExtend W) 10)
      let buff ← printuintMarked (tmp.signExtend W) 10 buff
      pure (args, buff)
  else if c = ch 'u' then unsignedMarked 10 args buff
  else if c = ch 'x' then unsignedMarked 16 args buff
  else if c = ch 'o' then do
    emit (.call (.putchar (ch '0')))
    unsignedMarked 8 args buff
  else if c = ch 's' then do
    let (s, args) ← unmarked (vaStr args)
    unmarked (printstr s)
    pure (args, buff)
  else if c = ch 'c' then do
    let (x, args) ← unmarked (vaInt args)
    emit (.call (.putchar (x.setWidth 8)))
    pure (args, buff)
  else if c = ch 'p' ∨ c = ch 'a' then do
    unmarked (printstr (some [ch '0', ch 'x', 0]))
    if pdp11 then unsignedMarked 16 args buff else uintptrMarked 16 args buff
  else do
    emit (.call (.putchar (ch '%')))
    emit (.call (.putchar c))
    pure (args, buff)

def printkLoopMarked (pdp11 : Bool) : List Byte → List (Arg w W) → Buff → Traced (PrintuintEvent W) Buff
  | [], _, _ => undef
  | c :: fmt, args, buff =>
    if c = 0 then pure buff
    else if c ≠ ch '%' then do
      emit (.call (.putchar c))
      printkLoopMarked pdp11 fmt args buff
    else match fmt with
      | [] => undef
      | d :: fmt => do
        let (args, buff) ← printkSwitchMarked pdp11 d args buff
        printkLoopMarked pdp11 fmt args buff

def printkMarked (pdp11 : Bool) (fmt : List Byte) (args : List (Arg w W)) (buff : Buff) :
    Traced (PrintuintEvent W) Buff := do
  let buff ← printkLoopMarked pdp11 fmt args buff
  emit (.call .flush)
  pure buff

theorem enter_calls {α : Type} (u : BitVec W) (base : Nat) (buff : Buff) (k : Buff → Traced (PrintuintEvent W) α) :
    relabel PrintuintEvent.calls (emit (.enter u base) >>= fun _ => printuintMarked u base buff >>= k) =
      printuint u base buff >>= fun buff => relabel PrintuintEvent.calls (k buff) := by
  rw [relabel_emit_of_nil rfl, relabel_bind, printuintMarked_calls]

theorem unsignedMarked_calls (base : Nat) (args : List (Arg w W)) (buff : Buff) :
    relabel PrintuintEvent.calls (unsignedMarked base args buff) = (do
      let (u, args) ← vaUnsigned args
      let buff ← printuint (u.setWidth W) base buff
      pure (args, buff)) := by
  rw [unsignedMarked, relabel_bind, unmarked_calls]
  refine congrArg _ (funext fun ⟨u, args⟩ => ?_)
  exact enter_calls (u.setWidth W) base buff _

theorem uintptrMarked_calls (base : Nat) (args : List (Arg w W)) (buff : Buff) :
    relabel PrintuintEvent.calls (uintptrMarked base args buff) = (do
      let (p, args) ← vaUintptr args
      let buff ← printuint p base buff
      pure (args, buff)) := by
  rw [uintptrMarked, relabel_bind, unmarked_calls]
  refine congrArg _ (funext fun ⟨p, args⟩ => ?_)
  exact enter_calls p base buff _

theorem printkSwitchMarked_calls (c : Byte) (args : List (Arg w W)) (buff : Buff) :
    relabel PrintuintEvent.calls (printkSwitchMarked false c args buff) = printkSwitch c args buff := by
  simp only [printkSwitchMarked, printkSwitch, relabel_ite]
  refine if_congr Iff.rfl rfl (if_congr Iff.rfl ?int (if_congr Iff.rfl ?unsigned (if_congr Iff.rfl ?hex
    (if_congr Iff.rfl ?octal (if_congr Iff.rfl ?str (if_congr Iff.rfl ?char (if_congr Iff.rfl ?pointer rfl)))))))
  case int =>
    rw [relabel_bind, unmarked_calls]
    refine congrArg _ (funext fun ⟨tmp, args⟩ => ?_)
    rw [relabel_ite]
    refine if_congr Iff.rfl ?_ (enter_calls (tmp.signExtend W) 10 buff _)
    rw [relabel_bind, enter_calls]
    rfl
  case unsigned => exact unsignedMarked_calls 10 args buff
  case hex => exact unsignedMarked_calls 16 args buff
  case octal =>
    rw [relabel_bind, unsignedMarked_calls]
    rfl
  case str =>
    rw [relabel_bind, unmarked_calls]
    refine congrArg _ (funext fun ⟨s, args⟩ => ?_)
    rw [relabel_bind, unmarked_calls]
    rfl
  case char =>
    rw [relabel_bind, unmarked_calls]
    rfl
  case pointer =>
    rw [relabel_bind, unmarked_calls, if_neg Bool.false_ne_true, uintptrMarked_calls]

theorem printkLoopMarked_plain {pdp11 : Bool} {c : Byte} (hzero : c ≠ 0) (hc : c ≠ ch '%') (fmt : List Byte)
    (args : List (Arg w W)) (buff : Buff) : printkLoopMarked pdp11 (c :: fmt) args buff = (do
      emit (.call (.putchar c))
      printkLoopMarked pdp11 fmt args buff) := by
  rw [printkLoopMarked.eq_def]
  simp only [if_neg hzero, if_pos hc]

theorem printkLoopMarked_directive {pdp11 : Bool} (d : Byte) (fmt : List Byte) (args : List (Arg w W))
    (buff : Buff) : printkLoopMarked pdp11 (ch '%' :: d :: fmt) args buff = (do
      let (args, buff) ← printkSwitchMarked pdp11 d args buff
      printkLoopMarked pdp11 fmt args buff) := by
  rw [printkLoopMarked.eq_def]
  simp only [if_neg (show ch '%' ≠ 0 by decide), if_neg (not_not.mpr (rfl : ch '%' = ch '%'))]

theorem printkLoopMarked_calls (fmt : List Byte) (args : List (Arg w W)) (buff : Buff) :
    relabel PrintuintEvent.calls (printkLoopMarked false fmt args buff) = printkLoop fmt args buff := by
  induction fmt using parse.induct generalizing args buff with
  | case1 => rfl
  | case2 c fmt hc ih =>
    by_cases hzero : c = 0
    · rw [printkLoopMarked.eq_def, printkLoop.eq_def]
      simp only [if_pos hzero]
      rfl
    · rw [printkLoopMarked_plain hzero hc, printkLoop_plain hzero hc, relabel_bind]
      simp only [ih]
      rfl
  | case3 c hc =>
    obtain rfl := not_not.mp hc
    rfl
  | case4 c hc d fmt ih =>
    obtain rfl := not_not.mp hc
    rw [printkLoopMarked_directive, printkLoop_directive, relabel_bind, printkSwitchMarked_calls]
    simp only [ih]

theorem printkMarked_calls (fmt : List Byte) (args : List (Arg w W)) (buff : Buff) :
    relabel PrintuintEvent.calls (printkMarked false fmt args buff) = printk fmt args buff := by
  simp only [printkMarked, printk, relabel_bind, printkLoopMarked_calls]
  rfl

/-! ### What every call does -/

/-- Each call of `printuint` in the events stores at indices below 20 from 0 on, puts the canonical numeral of
its argument, and returns. -/
def PrintsNumerals (events : List (PrintuintEvent W)) : Prop :=
  ∀ before u base after, events = before ++ .enter u base :: after →
    ∃ text rest, .enter u base :: after = printed u base text ++ rest ∧ text.length ≤ 20 ∧
      IsNumeral base u.toNat text

theorem printsNumerals_of_notMem {events : List (PrintuintEvent W)} (h : ∀ u base, .enter u base ∉ events) :
    PrintsNumerals events := by
  rintro before u base after rfl
  exact absurd (List.mem_append_right before (List.mem_cons_self ..)) (h u base)

theorem PrintsNumerals.append {s t : List (PrintuintEvent W)} (hs : PrintsNumerals s) (ht : PrintsNumerals t) :
    PrintsNumerals (s ++ t) := by
  intro before u base after h
  rcases List.append_eq_append_iff.mp h with ⟨c, rfl, hc⟩ | ⟨c, rfl, hc⟩
  · exact ht c u base after hc
  · cases c with
    | nil => exact ht [] u base after hc.symm
    | cons e c =>
      -- the call is in `s`, and so is its return
      obtain ⟨rfl, rfl⟩ := List.cons.inj hc
      obtain ⟨text, rest, hcall, hlen, hnumeral⟩ := hs before u base c rfl
      refine ⟨text, rest ++ t, ?_, hlen, hnumeral⟩
      rw [← List.append_assoc, ← hcall]
      rfl

theorem printsNumerals_printed {u : BitVec W} {base : Nat} {text : List Byte} (hlen : text.length ≤ 20)
    (hnumeral : IsNumeral base u.toNat text) : PrintsNumerals (printed u base text) := by
  intro before u' base' after h
  cases before with
  | nil =>
    obtain ⟨hhead, -⟩ := List.cons.inj h
    obtain ⟨rfl, rfl⟩ := PrintuintEvent.enter.inj hhead
    exact ⟨text, [], by rw [List.append_nil, h, List.nil_append], hlen, hnumeral⟩
  | cons e before =>
    have hmem := List.mem_append_right before (List.mem_cons_self (a := .enter u' base') (l := after))
    have htail : before ++ .enter u' base' :: after = _ := (List.cons.inj h).2.symm
    rw [htail] at hmem
    simp [inside] at hmem

theorem unmarked_prints {α : Type} (m : Traced Op α) :
    PrintsNumerals (unmarked m : Traced (PrintuintEvent W) α).events :=
  printsNumerals_of_notMem fun u base h => by simp at h

theorem emit_prints {α : Type} (op : Op) {k : PUnit → Traced (PrintuintEvent W) α}
    (h : PrintsNumerals (k ⟨⟩).events) : PrintsNumerals (emit (.call op) >>= k).events := by
  have hcall : PrintsNumerals ([.call op] : List (PrintuintEvent W)) :=
    printsNumerals_of_notMem fun u base h => by simp at h
  exact hcall.append h

theorem bind_prints {α β : Type} {m : Traced (PrintuintEvent W) α} {k : α → Traced (PrintuintEvent W) β}
    (hm : PrintsNumerals m.events) (hk : ∀ a, PrintsNumerals (k a).events) : PrintsNumerals (m >>= k).events :=
  events_bind (fun _ _ => PrintsNumerals.append) hm fun a _ => hk a

theorem pure_prints {α : Type} (a : α) : PrintsNumerals (pure a : Traced (PrintuintEvent W) α).events :=
  printsNumerals_of_notMem fun _ _ h => List.not_mem_nil h

theorem ite_prints {α : Type} {c : Prop} [Decidable c] {m m' : Traced (PrintuintEvent W) α}
    (hm : PrintsNumerals m.events) (hm' : PrintsNumerals m'.events) :
    PrintsNumerals (if c then m else m').events := by
  split
  · exact hm
  · exact hm'

/-! ### Every data model -/

/-- The widths of `int` and `unsigned` and of `uintptr_t`. C promises an `int` of 16 bits; the bases that `printk`
passes take 6. -/
structure DataModel where
  int : Nat
  uintptr : Nat
  int_ge : 6 ≤ int
  int_le : int ≤ 32
  uintptr_ge : int ≤ uintptr
  uintptr_le : uintptr ≤ 64

/-- The PDP-11. -/
def DataModel.ip16 : DataModel := ⟨16, 16, by decide, by decide, by decide, by decide⟩

/-- The i386, MIPS and ARM. -/
def DataModel.ilp32 : DataModel := ⟨32, 32, by decide, by decide, by decide, by decide⟩

/-- AMD64 and RISC-V. -/
def DataModel.lp64 : DataModel := ⟨32, 64, by decide, by decide, by decide, by decide⟩

variable (model : DataModel)

theorem DataModel.lt_two_pow {base : Nat} (h : base ≤ 16) : base < 2 ^ model.uintptr :=
  calc base < 2 ^ 6 := by omega
    _ ≤ 2 ^ model.uintptr := Nat.pow_le_pow_right (by decide) (model.int_ge.trans model.uintptr_ge)

theorem enter_prints {α : Type} {base : Nat} (hbase : 1 < base) (h16 : base ≤ 16) {u : BitVec model.uintptr}
    (hlen : (numeral base u.toNat).length ≤ 20) (buff : Buff) {k : Buff → Traced (PrintuintEvent model.uintptr) α}
    (hk : ∀ buff, PrintsNumerals (k buff).events) :
    PrintsNumerals (emit (.enter u base) >>= fun _ => printuintMarked u base buff >>= k).events := by
  obtain ⟨buff', hprint⟩ := printuintMarked_eq hbase h16 (model.lt_two_pow h16) u hlen buff
  have hcall : (emit (.enter u base) >>= fun _ => printuintMarked u base buff >>= k).events =
      printed u base (numeral base u.toNat) ++ (k buff').events := by
    rw [hprint, bind_of_some rfl]
    rfl
  rw [hcall]
  exact (printsNumerals_printed hlen (isNumeral_numeral hbase u.toNat)).append (hk buff')

theorem unsignedMarked_prints {base : Nat} (hbase : 8 ≤ base) (h16 : base ≤ 16)
    (args : List (Arg model.int model.uintptr)) (buff : Buff) :
    PrintsNumerals (unsignedMarked base args buff).events := by
  refine bind_prints (unmarked_prints _) fun ⟨u, args⟩ => ?_
  refine enter_prints model (by omega) h16 ?_ buff fun buff => pure_prints _
  rw [toNat_widen model.uintptr_ge]
  exact length_numeral_unsigned model.int_le hbase u

theorem uintptrMarked_prints {base : Nat} (hten : 10 ≤ base) (h16 : base ≤ 16)
    (args : List (Arg model.int model.uintptr)) (buff : Buff) :
    PrintsNumerals (uintptrMarked base args buff).events := by
  refine bind_prints (unmarked_prints _) fun ⟨p, args⟩ => ?_
  have hroom := length_numeral_uintptr model.uintptr_le hten p
  exact enter_prints model (by omega) h16 hroom buff fun buff => pure_prints _

theorem printkSwitchMarked_prints (pdp11 : Bool) (c : Byte) (args : List (Arg model.int model.uintptr))
    (buff : Buff) : PrintsNumerals (printkSwitchMarked pdp11 c args buff).events := by
  -- whatever it is, an `int` is passed as a `uintptr_t` in base 10
  have hten := fun (u : BitVec model.uintptr) => length_numeral_uintptr model.uintptr_le (by decide : 10 ≤ 10) u
  refine ite_prints (emit_prints _ (pure_prints _)) (ite_prints ?int (ite_prints ?unsigned (ite_prints ?hex
    (ite_prints ?octal (ite_prints ?str (ite_prints ?char (ite_prints ?pointer ?other)))))))
  case int =>
    refine bind_prints (unmarked_prints _) fun ⟨tmp, args⟩ => ite_prints ?_ ?_
    · exact emit_prints _ (enter_prints model (by decide) (by decide) (hten _) buff fun _ => pure_prints _)
    · exact enter_prints model (by decide) (by decide) (hten _) buff fun _ => pure_prints _
  case unsigned => exact unsignedMarked_prints model (by decide) (by decide) args buff
  case hex => exact unsignedMarked_prints model (by decide) (by decide) args buff
  case octal => exact emit_prints _ (unsignedMarked_prints model (by decide) (by decide) args buff)
  case str => exact bind_prints (unmarked_prints _) fun _ => bind_prints (unmarked_prints _) fun _ => pure_prints _
  case char => exact bind_prints (unmarked_prints _) fun _ => emit_prints _ (pure_prints _)
  case pointer =>
    refine bind_prints (unmarked_prints _) fun _ => ite_prints ?_ ?_
    · exact unsignedMarked_prints model (by decide) (by decide) args buff
    · exact uintptrMarked_prints model (by decide) (by decide) args buff
  case other => exact emit_prints _ (emit_prints _ (pure_prints _))

theorem printkLoopMarked_prints (pdp11 : Bool) (fmt : List Byte) (args : List (Arg model.int model.uintptr))
    (buff : Buff) : PrintsNumerals (printkLoopMarked pdp11 fmt args buff).events := by
  induction fmt using parse.induct generalizing args buff with
  | case1 => exact printsNumerals_of_notMem fun _ _ h => List.not_mem_nil h
  | case2 c fmt hc ih =>
    by_cases hzero : c = 0
    · rw [printkLoopMarked.eq_def]
      simp only [if_pos hzero]
      exact pure_prints _
    · rw [printkLoopMarked_plain hzero hc]
      exact emit_prints _ (ih args buff)
  | case3 c hc =>
    obtain rfl := not_not.mp hc
    exact printsNumerals_of_notMem fun _ _ h => List.not_mem_nil h
  | case4 c hc d fmt ih =>
    obtain rfl := not_not.mp hc
    rw [printkLoopMarked_directive]
    exact bind_prints (printkSwitchMarked_prints model pdp11 d args buff) fun ⟨args, buff⟩ => ih args buff

/-- **Every call of `printuint` that `printk` makes stays within `buff`, puts the canonical numeral of its
argument and returns**, on every data model, for any format string and any arguments. Without its marks the program
is `printk`. -/
theorem printk_prints_numerals (pdp11 : Bool) (fmt : List Byte) (args : List (Arg model.int model.uintptr))
    (buff : Buff) : PrintsNumerals (printkMarked pdp11 fmt args buff).events ∧
      relabel PrintuintEvent.calls (printkMarked false fmt args buff) = printk fmt args buff := by
  refine ⟨?_, printkMarked_calls fmt args buff⟩
  exact bind_prints (printkLoopMarked_prints model pdp11 fmt args buff) fun _ => emit_prints _ (pure_prints _)

/-- `%d` of the most negative `int`, with a wider `uintptr_t`: its negation is widened as a negative number. -/
theorem printk_prints_numerals_intMin :
    let events := (printkMarked false [ch '%', ch 'd', 0] [(.int (BitVec.intMin 32) : Arg 32 64)]
      (Vector.replicate 20 0)).events
    ∃ text rest, events = .call (.putchar (ch '-')) :: (printed 0xFFFFFFFF80000000 10 text ++ rest) ∧
      text.length ≤ 20 ∧ IsNumeral 10 0xFFFFFFFF80000000 text := by
  intro events
  obtain ⟨hprints, -⟩ := printk_prints_numerals .lp64 false [ch '%', ch 'd', 0] [.int (BitVec.intMin 32)]
    (Vector.replicate 20 0)
  have hcall : events = [.call (.putchar (ch '-'))] ++ .enter 0xFFFFFFFF80000000 10 :: events.drop 2 := by
    decide +kernel
  obtain ⟨text, rest, htext, hlen, hnumeral⟩ := hprints _ _ _ _ hcall
  exact ⟨text, rest, hcall.trans (congrArg ([.call (.putchar (ch '-'))] ++ ·) htext), hlen, hnumeral⟩

end QDNix.Libkern
