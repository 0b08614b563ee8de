import QDNix.Libkern.PrintkSwitch

/-!
# `printk` implements its format language

`printk_format`: on a target where `int` and `uintptr_t` both have 32 bits, `printk` puts exactly the text
its format string stands for, then flushes. The induction is on the parse of the format string; the widths
being equal, the magnitude of an `int` survives its negation, `INT_MIN` included.
-/

namespace QDNix.Libkern

open Kern Traced Numeral

theorem printkSwitch_eq (c : Byte) (args args' : List (Arg 32 32)) (text : List Byte) (buff : Buff)
    (h : render (directiveOf c) args = some (text, args')) :
    ∃ buff', printkSwitch c args buff = ⟨putAll text, some (args', buff')⟩ := by
  by_cases hint : c = ch 'd' ∨ c = ch 'i'
  · have hdirective : directiveOf c = .int := by rcases hint with rfl | rfl <;> decide
    rw [hdirective] at h
    obtain ⟨x, rfl, rfl⟩ := takeInt_eq_some.mp h
    obtain ⟨buff', hprint⟩ := printkSwitch_signed (by decide) (by decide) hint x args' buff
    rw [magnitude_eq (by decide) (by decide) (fun _ => rfl)] at hprint
    exact ⟨buff', hprint⟩
  · exact printkSwitch_other (by decide) (by decide) (by decide) (by decide) hint buff h

/-! ### Format strings -/

theorem printkLoop_eq (fmt : List Byte) : ∀ (args : List (Arg 32 32)) (rest text : List Byte) (buff : Buff),
    0 ∉ fmt → format fmt args = some text →
      ∃ buff', printkLoop (fmt ++ 0 :: rest) args buff = ⟨putAll text, some buff'⟩ := by
  induction fmt using parse.induct with
  | case1 =>
    intro args rest text buff _ htext
    rw [format_nil, Option.some.injEq] at htext
    subst htext
    refine ⟨buff, ?_⟩
    rw [List.nil_append, printkLoop.eq_def]
    rfl
  | case2 c fmt hc ih =>
    intro args rest text buff hfmt htext
    rw [format_plain hc, Option.map_eq_some_iff] at htext
    obtain ⟨text', htext', rfl⟩ := htext
    have hzero : c ≠ 0 := fun h => hfmt (h ▸ List.mem_cons_self)
    obtain ⟨buff', hloop⟩ := ih args rest text' buff (fun h => hfmt (List.mem_cons_of_mem _ h)) htext'
    refine ⟨buff', ?_⟩
    rw [List.cons_append, printkLoop_plain hzero hc, emit_bind, hloop]
    rfl
  | case3 c hc =>
    intro args rest text buff _ htext
    rw [not_not.mp hc, format_lone] at htext
    simp at htext
  | case4 c hc d fmt ih =>
    intro args rest text buff hfmt htext
    obtain rfl := not_not.mp hc
    rw [format_directive, Option.bind_eq_some_iff] at htext
    obtain ⟨⟨text₁, args'⟩, hrender, hrest⟩ := htext
    obtain ⟨text₂, htext₂, rfl⟩ := Option.map_eq_some_iff.mp hrest
    obtain ⟨buff₁, hswitch⟩ := printkSwitch_eq d args args' text₁ buff hrender
    obtain ⟨buff', hloop⟩ := ih args' rest text₂ buff₁
      (fun h => hfmt (List.mem_cons_of_mem _ (List.mem_cons_of_mem _ h))) htext₂
    refine ⟨buff', ?_⟩
    rw [List.cons_append, List.cons_append, printkLoop_directive, hswitch, bind_of_some rfl, putAll_append]
    simp only [hloop]

/-- **`printk` puts the text of its format string, then flushes**, whatever it printed before. -/
theorem printk_format (fmt rest : List Byte) (hfmt : 0 ∉ fmt) (args : List (Arg 32 32)) (text : List Byte)
    (htext : format fmt args = some text) (buff : Buff) :
    ∃ buff', printk (fmt ++ 0 :: rest) args buff = ⟨putAll text ++ [Op.flush], some buff'⟩ := by
  obtain ⟨buff', hloop⟩ := printkLoop_eq fmt args rest text buff hfmt htext
  exact ⟨buff', by rw [printk, hloop, bind_of_some rfl]; rfl⟩

theorem printk_format_intMin :
    ∃ buff', printk [ch '%', ch 'd', ch '%', ch 'o', 0] ([.int 0x80000000, .unsigned 8] : List (Arg 32 32))
        (Vector.replicate 20 0) =
      ⟨putAll (['-', '2', '1', '4', '7', '4', '8', '3', '6', '4', '8', '0', '1', '0'].map ch) ++ [Op.flush],
        some buff'⟩ :=
  printk_format [ch '%', ch 'd', ch '%', ch 'o'] [] (by decide) [.int 0x80000000, .unsigned 8] _ rfl _

end QDNix.Libkern
