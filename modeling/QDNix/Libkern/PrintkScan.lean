import QDNix.Libkern.PrintkSwitch

/-!
# How `printk` scans its format string

`printk` once more, with its reads of the format string and the characters it copies out of it as events of
their own, each with its index. `printkScan_calls` says that this is the same function.

Behind a `%` the pointer moves on without a look at what it passes. So the scan stays within the string, and
puts nothing of the terminator, exactly when the string parses, that is, when it does not end in a `%` that
starts a directive (`staysInFormat_iff`).
-/

namespace QDNix.Libkern

open Kern Traced Numeral

variable {w W : Nat}

/-! ### The scan -/

/-- A read of the format string at `idx`; a character of it that is put as it stands; any other call. -/
inductive ScanEvent
  | fetch (idx : Nat)
  | copy (idx : Nat) (c : Byte)
  | call (op : Op)
deriving DecidableEq, Repr

/-- The calls behind an event. -/
def ScanEvent.calls : ScanEvent → List Op
  | .fetch _ => []
  | .copy _ c => [.putchar c]
  | .call op => [op]

/-- The `switch`, on the character at `idx`. Only the default case puts that character. -/
def scanSwitch (idx : Nat) (c : Byte) (args : List (Arg w W)) (buff : Buff) :
    Traced ScanEvent (List (Arg w W) × Buff) :=
  if directiveOf c = .other c then do
    emit (.call (.putchar (ch '%')))
    emit (.copy idx c)
    pure (args, buff)
  else relabel (fun op => [.call op]) (printkSwitch c args buff)

/-- The `for` of `printk`, with `ptr` at index `idx`. -/
def scanLoop (idx : Nat) : List Byte → List (Arg w W) → Buff → Traced ScanEvent Buff
  | [], _, _ => do
    emit (.fetch idx)
    undef
  | c :: fmt, args, buff => do
    emit (.fetch idx)
    if c = 0 then pure buff
    else if c ≠ ch '%' then do
      emit (.copy idx c)
      scanLoop (idx + 1) fmt args buff
    else do
      emit (.fetch (idx + 1))
      match fmt with
      | [] => undef
      | d :: fmt => do
        let (args, buff) ← scanSwitch (idx + 1) d args buff
        scanLoop (idx + 2) fmt args buff

def printkScan (fmt : List Byte) (args : List (Arg w W)) (buff : Buff) : Traced ScanEvent Buff := do
  let buff ← scanLoop 0 fmt args buff
  emit (.call .flush)
  pure buff

theorem printkSwitch_default {c : Byte} (h : directiveOf c = .other c) (args : List (Arg w W)) (buff : Buff) :
    printkSwitch c args buff = (do
      emit (.putchar (ch '%'))
      emit (.putchar c)
      pure (args, buff)) := by
  have hne : ∀ d : Byte, directiveOf d ≠ .other d → c ≠ d := fun d hd hc => hd (hc ▸ h)
  have hor : ∀ d e : Byte, directiveOf d ≠ .other d → directiveOf e ≠ .other e → ¬ (c = d ∨ c = e) :=
    fun d e hd he => not_or.mpr ⟨hne d hd, hne e he⟩
  rw [printkSwitch, if_neg (hne _ (by decide)), if_neg (hor _ _ (by decide) (by decide)), if_neg (hne _ (by decide)),
    if_neg (hne _ (by decide)), if_neg (hne _ (by decide)), if_neg (hne _ (by decide)), if_neg (hne _ (by decide)),
    if_neg (hor _ _ (by decide) (by decide))]

theorem scanSwitch_calls (idx : Nat) (c : Byte) (args : List (Arg w W)) (buff : Buff) :
    relabel ScanEvent.calls (scanSwitch idx c args buff) = printkSwitch c args buff := by
  unfold scanSwitch
  by_cases hother : directiveOf c = .other c
  · rw [if_pos hother, printkSwitch_default hother]
    rfl
  · rw [if_neg hother]
    exact relabel_relabel (fun _ => rfl) _

theorem scanLoop_plain {c : Byte} (hzero : c ≠ 0) (hc : c ≠ ch '%') (idx : Nat) (fmt : List Byte)
    (args : List (Arg w W)) (buff : Buff) : scanLoop idx (c :: fmt) args buff = (do
      emit (.fetch idx)
      emit (.copy idx c)
      scanLoop (idx + 1) fmt args buff) := by
  rw [scanLoop.eq_def]
  simp only [if_neg hzero, if_pos hc]

theorem scanLoop_directive (idx : Nat) (d : Byte) (fmt : List Byte) (args : List (Arg w W)) (buff : Buff) :
    scanLoop idx (ch '%' :: d :: fmt) args buff = (do
      emit (.fetch idx)
      emit (.fetch (idx + 1))
      let (args, buff) ← scanSwitch (idx + 1) d args buff
      scanLoop (idx + 2) fmt args buff) := by
  rw [scanLoop.eq_def]
  simp only [if_neg (show ch '%' ≠ 0 by decide), if_neg (not_not.mpr (rfl : ch '%' = ch '%'))]

theorem scanLoop_calls (fmt : List Byte) (idx : Nat) (args : List (Arg w W)) (buff : Buff) :
    relabel ScanEvent.calls (scanLoop idx fmt args buff) = printkLoop fmt args buff := by
  induction fmt using parse.induct generalizing idx args buff with
  | case1 => rfl
  | case2 c fmt hc ih =>
    by_cases hzero : c = 0
    · rw [scanLoop.eq_def, printkLoop.eq_def]
      simp only [if_pos hzero, relabel_bind]
      rfl
    · rw [scanLoop_plain hzero hc, printkLoop_plain hzero hc]
      simp only [relabel_bind, ih]
      rfl
  | case3 c hc =>
    obtain rfl := not_not.mp hc
    rfl
  | case4 c hc d fmt ih =>
    obtain rfl := not_not.mp hc
    rw [scanLoop_directive, printkLoop_directive]
    simp only [relabel_bind, scanSwitch_calls, ih]
    rfl

/-- **The scan makes the calls of `printk`.** -/
theorem printkScan_calls (fmt : List Byte) (args : List (Arg w W)) (buff : Buff) :
    relabel ScanEvent.calls (printkScan fmt args buff) = printk fmt args buff := by
  simp only [printkScan, printk, relabel_bind, scanLoop_calls]
  rfl

/-! ### Matching arguments -/

/-- The directives of any format string. A `%` at its end starts one but has no character: it asks for
nothing. -/
def directives : List Byte → List Directive
  | [] => []
  | c :: fmt =>
    if c ≠ ch '%' then .plain c :: directives fmt
    else match fmt with
      | [] => []
      | d :: fmt => directiveOf d :: directives fmt

/-- The arguments match the directives. -/
def Matches (ds : List Directive) (args : List (Arg w W)) : Prop := (renderAll ds args).isSome = true

instance (ds : List Directive) (args : List (Arg w W)) : Decidable (Matches ds args) :=
  inferInstanceAs (Decidable (_ = true))

theorem directives_plain {c : Byte} (hc : c ≠ ch '%') (fmt : List Byte) :
    directives (c :: fmt) = .plain c :: directives fmt := by
  rw [directives.eq_def]
  simp only [if_pos hc]

theorem directives_directive (d : Byte) (fmt : List Byte) :
    directives (ch '%' :: d :: fmt) = directiveOf d :: directives fmt := by
  rw [directives.eq_def]
  simp only [if_neg (not_not.mpr (rfl : ch '%' = ch '%'))]

theorem Matches.cons {d : Directive} {ds : List Directive} {args : List (Arg w W)} (h : Matches (d :: ds) args) :
    ∃ text args', render d args = some (text, args') ∧ Matches ds args' := by
  cases hrender : render d args with
  | none => simp [Matches, renderAll, hrender] at h
  | some r =>
    refine ⟨r.1, r.2, rfl, ?_⟩
    cases hrest : renderAll ds r.2 with
    | none => simp [Matches, renderAll, hrender, hrest] at h
    | some texts => simp [Matches, hrest]

theorem parse_plain {c : Byte} (hc : c ≠ ch '%') (fmt : List Byte) :
    (parse (c :: fmt)).isSome = (parse fmt).isSome := by
  rw [parse.eq_def]
  simp only [if_pos hc, Option.isSome_map]

theorem parse_directive (d : Byte) (fmt : List Byte) :
    (parse (ch '%' :: d :: fmt)).isSome = (parse fmt).isSome := by
  rw [parse.eq_def]
  simp only [if_neg (not_not.mpr (rfl : ch '%' = ch '%')), Option.isSome_map]

/-! ### Staying in the string -/

/-- An event that stays within a string of `len` characters: it reads no further than the terminator, and puts
only what comes before it. -/
def ScanEvent.Inside (len : Nat) : ScanEvent → Prop
  | .fetch idx => idx ≤ len
  | .copy idx _ => idx < len
  | .call _ => True

/-- `printk` returns, and its scan stays within the format string `fmt`, whose terminator is followed by
`rest`. -/
def StaysInFormat (fmt rest : List Byte) (args : List (Arg w W)) (buff : Buff) : Prop :=
  Sat (ScanEvent.Inside fmt.length) (fun _ => True) (printkScan (fmt ++ 0 :: rest) args buff)

section Widths

variable (hw : w ≤ 32) (hle : w ≤ W) (h16 : 16 ≤ W) (h64 : W ≤ 64)

include hw hle h16 h64

theorem printkSwitch_returns {c : Byte} {args args' : List (Arg w W)} {text : List Byte} (buff : Buff)
    (h : render (directiveOf c) args = some (text, args')) :
    ∃ text' buff', printkSwitch c args buff = ⟨putAll text', some (args', buff')⟩ := by
  by_cases hint : c = ch 'd' ∨ c = ch 'i'
  · have hdirective : directiveOf c = .int := by rcases hint with rfl | rfl <;> decide
    rw [hdirective] at h
    obtain ⟨x, rfl, -⟩ := takeInt_eq_some.mp h
    obtain ⟨buff', hprint⟩ := printkSwitch_signed h16 h64 hint x args' buff
    exact ⟨_, buff', hprint⟩
  · obtain ⟨buff', hprint⟩ := printkSwitch_other hw hle h16 h64 hint buff h
    exact ⟨_, buff', hprint⟩

theorem scanSwitch_sat {len idx : Nat} (hidx : idx < len) {c : Byte} {args args' : List (Arg w W)}
    {text : List Byte} (buff : Buff) (h : render (directiveOf c) args = some (text, args')) :
    Sat (ScanEvent.Inside len) (fun r => r.1 = args') (scanSwitch idx c args buff) := by
  unfold scanSwitch
  by_cases hother : directiveOf c = .other c
  · rw [hother] at h
    rw [if_pos hother]
    exact sat_emit trivial (sat_emit hidx (sat_pure (Prod.mk.inj (Option.some.inj h)).2))
  · obtain ⟨text', buff', hprint⟩ := printkSwitch_returns hw hle h16 h64 buff h
    rw [if_neg hother, hprint]
    refine ⟨fun e he => ?_, _, rfl, rfl⟩
    obtain ⟨op, -, he⟩ := List.mem_flatMap.mp he
    rw [List.mem_singleton.mp he]
    trivial

theorem scanLoop_sat (rest : List Byte) (fmt : List Byte) : ∀ (len idx : Nat) (args : List (Arg w W)) (buff : Buff),
    idx + fmt.length = len → 0 ∉ fmt → (parse fmt).isSome = true → Matches (directives fmt) args →
      Sat (ScanEvent.Inside len) (fun _ => True) (scanLoop idx (fmt ++ 0 :: rest) args buff) := by
  induction fmt using parse.induct with
  | case1 =>
    intro len idx args buff hlen _ _ _
    rw [List.nil_append, scanLoop.eq_def]
    exact sat_emit (Nat.le_of_eq hlen) (sat_pure trivial)
  | case2 c fmt hc ih =>
    intro len idx args buff hlen hfmt hparse hargs
    rw [List.length_cons] at hlen
    rw [parse_plain hc] at hparse
    rw [directives_plain hc] at hargs
    obtain ⟨_, args', hrender, hargs'⟩ := hargs.cons
    obtain rfl := (Prod.mk.inj (Option.some.inj hrender)).2
    have hzero : c ≠ 0 := fun h => hfmt (h ▸ List.mem_cons_self)
    rw [List.cons_append, scanLoop_plain hzero hc]
    refine sat_emit (show idx ≤ len by omega) (sat_emit (show idx < len by omega) ?_)
    exact ih len (idx + 1) args buff (by omega) (fun h => hfmt (List.mem_cons_of_mem _ h)) hparse hargs'
  | case3 c hc =>
    intro len idx args buff _ _ hparse
    rw [not_not.mp hc] at hparse
    cases hparse
  | case4 c hc d fmt ih =>
    intro len idx args buff hlen hfmt hparse hargs
    obtain rfl := not_not.mp hc
    rw [List.length_cons, List.length_cons] at hlen
    rw [parse_directive] at hparse
    rw [directives_directive] at hargs
    obtain ⟨_, args', hrender, hargs'⟩ := hargs.cons
    rw [List.cons_append, List.cons_append, scanLoop_directive]
    refine sat_emit (show idx ≤ len by omega) (sat_emit (show idx + 1 ≤ len by omega) ?_)
    apply (scanSwitch_sat hw hle h16 h64 (by omega) buff hrender).bind
    rintro ⟨args₁, buff₁⟩ rfl
    exact ih len (idx + 2) args₁ buff₁ (by omega)
      (fun h => hfmt (List.mem_cons_of_mem _ (List.mem_cons_of_mem _ h))) hparse hargs'

theorem scanLoop_copies (rest : List Byte) (fmt : List Byte) : ∀ (len idx : Nat) (args : List (Arg w W)) (buff : Buff),
    idx + fmt.length = len → 0 ∉ fmt → (parse fmt).isSome = false → Matches (directives fmt) args →
      .copy len 0 ∈ (scanLoop idx (fmt ++ 0 :: rest) args buff).events := by
  induction fmt using parse.induct with
  | case1 =>
    intro len idx args buff _ _ hparse
    cases hparse
  | case2 c fmt hc ih =>
    intro len idx args buff hlen hfmt hparse hargs
    rw [List.length_cons] at hlen
    rw [parse_plain hc] at hparse
    rw [directives_plain hc] at hargs
    obtain ⟨_, args', hrender, hargs'⟩ := hargs.cons
    obtain rfl := (Prod.mk.inj (Option.some.inj hrender)).2
    have hzero : c ≠ 0 := fun h => hfmt (h ▸ List.mem_cons_self)
    rw [List.cons_append, scanLoop_plain hzero hc]
    refine List.mem_cons_of_mem _ (List.mem_cons_of_mem _ ?_)
    exact ih len (idx + 1) args buff (by omega) (fun h => hfmt (List.mem_cons_of_mem _ h)) hparse hargs'
  | case3 c hc =>
    intro len idx args buff hlen _ _ _
    obtain rfl := not_not.mp hc
    have hother : directiveOf 0 = .other 0 := by decide
    have hswitch : scanSwitch (idx + 1) 0 args buff =
        ⟨[.call (.putchar (ch '%')), .copy (idx + 1) 0], some (args, buff)⟩ := by
      rw [scanSwitch, if_pos hother]
      rfl
    rw [List.singleton_append, scanLoop_directive, hswitch, ← hlen]
    rw [bind_of_some (a := (args, buff)) rfl]
    simp
  | case4 c hc d fmt ih =>
    intro len idx args buff hlen hfmt hparse hargs
    obtain rfl := not_not.mp hc
    rw [List.length_cons, List.length_cons] at hlen
    rw [parse_directive] at hparse
    rw [directives_directive] at hargs
    obtain ⟨_, args', hrender, hargs'⟩ := hargs.cons
    obtain ⟨-, ⟨args₁, buff₁⟩, hvalue, rfl⟩ :=
      scanSwitch_sat hw hle h16 h64 (Nat.lt_succ_self (idx + 1)) buff hrender
    rw [List.cons_append, List.cons_append, scanLoop_directive]
    simp only [emit_bind, bind_of_some hvalue]
    refine List.mem_cons_of_mem _ (List.mem_cons_of_mem _ (List.mem_append_right _ ?_))
    exact ih len (idx + 2) args₁ buff₁ (by omega)
      (fun h => hfmt (List.mem_cons_of_mem _ (List.mem_cons_of_mem _ h))) hparse hargs'

/-- **`printk` stays in its format string exactly when that does not end in a `%` that starts a directive.** -/
theorem staysInFormat_iff (fmt rest : List Byte) (hfmt : 0 ∉ fmt) (args : List (Arg w W))
    (hargs : Matches (directives fmt) args) (buff : Buff) :
    StaysInFormat fmt rest args buff ↔ (parse fmt).isSome = true := by
  constructor
  · rintro ⟨hevents, -⟩
    by_contra hparse
    rw [Bool.not_eq_true] at hparse
    have hcopy := scanLoop_copies hw hle h16 h64 rest fmt fmt.length 0 args buff (Nat.zero_add _) hfmt hparse hargs
    have hmem : .copy fmt.length 0 ∈ (printkScan (fmt ++ 0 :: rest) args buff).events := by
      unfold printkScan
      cases hvalue : (scanLoop 0 (fmt ++ 0 :: rest) args buff).value? with
      | none => rwa [bind_of_none hvalue]
      | some a =>
        rw [bind_of_some hvalue]
        exact List.mem_append_left _ hcopy
    exact absurd (hevents _ hmem) (lt_irrefl fmt.length)
  · intro hparse
    have hloop := scanLoop_sat hw hle h16 h64 rest fmt fmt.length 0 args buff (Nat.zero_add _) hfmt hparse hargs
    exact hloop.bind fun _ _ => sat_emit trivial (sat_pure trivial)

end Widths

theorem staysInFormat_percent :
    StaysInFormat [ch '%', ch 'd', ch '%', ch '%'] [ch '!'] ([.int 7] : List (Arg 32 64)) (Vector.replicate 20 0) :=
  (staysInFormat_iff (by decide) (by decide) (by decide) (by decide) _ _ (by decide) _ (by decide) _).mpr rfl

/-- The string `%`: its terminator is put as a character, and the scan goes on behind it. -/
theorem not_staysInFormat_lone :
    ¬ StaysInFormat [ch '%'] [] ([] : List (Arg 32 32)) (Vector.replicate 20 0) := by
  rintro ⟨hevents, -⟩
  exact absurd (hevents (.copy 1 0) (by decide)) (lt_irrefl 1)

end QDNix.Libkern
