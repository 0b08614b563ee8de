import QDNix.Lib.Makefile
import QDNix.Tools.Config
import Mathlib.Data.List.Nodup

/-!
# Reading the make fragment back

`generate_make` of `tools/config.py` writes a line for each symbol, and the makefiles include the file. No line
can run into the next one, since `escape` doubles the backslashes (`logicalLines_makefileContents`). So make has
the configuration: a variable for each symbol that is written and not `n`, and no other
(`make_reads_config`).
-/

namespace QDNix.Tools

open Quoting

/-- What a symbol adds to the fragment: a variable and its text. -/
def Symbol.setting (kconfig : Kconfig) (sym : Symbol) : Option (List Char × List Char) :=
  if !sym.writeToConf then none
  else if sym.origType.isBoolTristate then
    if sym.strValue = ['y'] then some (kconfig.fullName sym, "yes".toList)
    else if sym.strValue = ['m'] then some (kconfig.fullName sym ++ "_MODULE".toList, "yes".toList)
    else none
  else if sym.origType = .string then some (kconfig.fullName sym, escape sym.strValue)
  else if sym.origType = .hex ∧ !startsWithHex sym.strValue then some (kconfig.fullName sym, '0' :: 'x' :: sym.strValue)
  else some (kconfig.fullName sym, sym.strValue)

/-- The assignments that make reads, each with its value among the variables `vars`. -/
def makeBindings (vars : List Char → List Char) (contents : List Char) : List (List Char × List Char) :=
  (logicalLines false contents).filterMap (makeBinding vars)

/-- The value of a variable after the file; `none` where it is not defined. -/
def makeValue (vars : List Char → List Char) (contents name : List Char) : Option (List Char) :=
  lastOf (makeBindings vars contents) name

/-- What `kconfiglib` reads from a line of `.config`: the values of numbers have no backslash. -/
structure Symbol.OneLine (sym : Symbol) : Prop where
  line : '\n' ∉ sym.strValue
  number : sym.origType ≠ .string → '\\' ∉ sym.strValue

/-! ### Lines -/

def settingLine (b : List Char × List Char) : List Char := b.1 ++ '=' :: b.2

variable {kconfig : Kconfig} {sym : Symbol} {name text : List Char}

theorem chunk_eq (kconfig : Kconfig) (sym : Symbol) :
    chunk kconfig sym = ((sym.setting kconfig).map fun b => settingLine b ++ ['\n']).getD [] := by
  have hassoc : ∀ name text : List Char, name ++ '=' :: (text ++ ['\n']) = name ++ '=' :: text ++ ['\n'] :=
    fun name text => by rw [List.append_assoc, List.cons_append]
  unfold chunk Symbol.setting
  by_cases hskip : !sym.writeToConf
  · rw [if_pos hskip, if_pos hskip]
    rfl
  rw [if_neg hskip, if_neg hskip]
  by_cases hbool : sym.origType.isBoolTristate
  · rw [if_pos hbool, if_pos hbool]
    by_cases hy : sym.strValue = ['y']
    · rw [if_pos hy, if_pos hy]
      exact hassoc _ "yes".toList
    · rw [if_neg hy, if_neg hy]
      by_cases hm : sym.strValue = ['m']
      · rw [if_pos hm, if_pos hm]
        exact (List.append_assoc _ "_MODULE".toList ('=' :: ("yes".toList ++ ['\n']))).symm.trans (hassoc _ _)
      · rw [if_neg hm, if_neg hm]
        rfl
  rw [if_neg hbool, if_neg hbool]
  by_cases hstring : sym.origType = .string
  · rw [if_pos hstring, if_pos hstring]
    exact hassoc _ _
  rw [if_neg hstring, if_neg hstring]
  by_cases hhex : sym.origType = .hex ∧ !startsWithHex sym.strValue
  · simp only [if_pos hhex]
    exact hassoc _ _
  · simp only [if_neg hhex]
    exact hassoc _ _

/-- A text that does not carry its line on. -/
def Sealed (text : List Char) : Prop :=
  ∀ rest, logicalLines false (text ++ rest) = text.foldr consHead (logicalLines false rest)

theorem setting_text (h : sym.OneLine) (hset : sym.setting kconfig = some (name, text)) :
    (name = kconfig.fullName sym ∨ name = kconfig.fullName sym ++ "_MODULE".toList) ∧ '\n' ∉ text ∧ Sealed text := by
  unfold Symbol.setting at hset
  split at hset
  · cases hset
  split at hset
  · split at hset
    · cases hset
      exact ⟨.inl rfl, by decide, logicalLines_append (by decide) (by decide)⟩
    split at hset
    · cases hset
      exact ⟨.inr rfl, by decide, logicalLines_append (by decide) (by decide)⟩
    · cases hset
  split at hset
  · cases hset
    exact ⟨.inl rfl, newline_notMem_escape h.line, logicalLines_escape h.line⟩
  next hstring =>
    have hslash := h.number hstring
    split at hset
    · cases hset
      have hline' : '\n' ∉ '0' :: 'x' :: sym.strValue := by simp [h.line]
      exact ⟨.inl rfl, hline', logicalLines_append (by simp [hslash]) hline'⟩
    · cases hset
      exact ⟨.inl rfl, h.line, logicalLines_append hslash h.line⟩

theorem notMem_module (hname : name = kconfig.fullName sym ∨ name = kconfig.fullName sym ++ "_MODULE".toList)
    {c : Char} (hc : isNameChar c = false) : c ∉ name := by
  have hfull := notMem_fullName kconfig sym hc
  rcases hname with rfl | rfl
  · exact hfull
  · rw [List.mem_append, not_or]
    refine ⟨hfull, fun hmem => ?_⟩
    have hall : "_MODULE".toList.all isNameChar = true := rfl
    exact Bool.false_ne_true (hc.symm.trans (List.all_eq_true.mp hall c hmem))

theorem logicalLines_setting (h : sym.OneLine) (hset : sym.setting kconfig = some (name, text)) (rest : List Char) :
    logicalLines false (settingLine (name, text) ++ '\n' :: rest) =
      settingLine (name, text) :: logicalLines false rest := by
  obtain ⟨hname, -, hsealed⟩ := setting_text h hset
  have hslash := notMem_module hname (c := '\\') (by decide)
  have hnewline := notMem_module hname (c := '\n') (by decide)
  rw [settingLine, List.append_assoc, List.cons_append, logicalLines_append hslash hnewline,
    logicalLines_char (by decide) (by decide), hsealed, logicalLines_newline, foldr_consHead, List.append_nil, consHead,
    foldr_consHead]

theorem logicalLines_makefileContents (h : ∀ sym ∈ kconfig.uniqueDefinedSyms, sym.OneLine) :
    logicalLines false (makefileContents kconfig) =
      kconfig.uniqueDefinedSyms.filterMap fun sym => (sym.setting kconfig).map settingLine := by
  unfold makefileContents
  generalize kconfig.uniqueDefinedSyms = syms at h ⊢
  induction syms with
  | nil => rfl
  | cons sym syms ih =>
    rw [List.forall_mem_cons] at h
    rw [List.map_cons, List.flatten_cons, chunk_eq, List.filterMap_cons]
    cases hset : sym.setting kconfig with
    | none => exact ih h.2
    | some b =>
      simp only [Option.map_some, Option.getD_some, List.append_assoc, List.singleton_append]
      rw [logicalLines_setting h.1 hset, ih h.2]

/-! ### Variables -/

theorem makeBinding_setting (vars : List Char → List Char) (h : sym.OneLine)
    (hset : sym.setting kconfig = some (name, text)) :
    makeBinding vars (settingLine (name, text)) = some (name, makeText vars text) := by
  obtain ⟨hname, hline, -⟩ := setting_text h hset
  have hequals := notMem_module hname (c := '=') (by decide)
  have hnewline := notMem_module hname (c := '\n') (by decide)
  have hcut : (name ++ '=' :: text).takeWhile (· ≠ '\n') = name ++ '=' :: text := by
    refine List.takeWhile_eq_self_iff.mpr fun c hc => ?_
    rw [decide_eq_true_eq]
    rintro rfl
    rcases List.mem_append.mp hc with hc | hc
    · exact hnewline hc
    · exact hline ((List.mem_cons.mp hc).resolve_left (by decide))
  rw [settingLine]
  simp only [makeBinding, hcut, dropWhile_ne_append hequals, takeWhile_ne_append hequals]

theorem makeBindings_makefileContents (h : ∀ sym ∈ kconfig.uniqueDefinedSyms, sym.OneLine)
    (vars : List Char → List Char) :
    makeBindings vars (makefileContents kconfig) = kconfig.uniqueDefinedSyms.filterMap fun sym =>
      (sym.setting kconfig).map fun b => (b.1, makeText vars b.2) := by
  rw [makeBindings, logicalLines_makefileContents h]
  generalize kconfig.uniqueDefinedSyms = syms at h ⊢
  induction syms with
  | nil => rfl
  | cons sym syms ih =>
    rw [List.forall_mem_cons] at h
    rw [List.filterMap_cons, List.filterMap_cons]
    cases hset : sym.setting kconfig with
    | none => exact ih h.2
    | some b =>
      obtain ⟨name, text⟩ := b
      simp only [Option.map_some]
      rw [List.filterMap_cons, makeBinding_setting vars h.1 hset, ih h.2]

/-- Kconfig has a symbol once, and none is called like the module of another. -/
structure Distinct (syms : List Symbol) : Prop where
  names : (syms.map fun sym => sym.name.chars).Nodup
  modules : ∀ s ∈ syms, ∀ t ∈ syms, s.name.chars ≠ t.name.chars ++ "_MODULE".toList

theorem fullName_inj {s t : Symbol} (h : kconfig.fullName s = kconfig.fullName t) : s.name.chars = t.name.chars :=
  List.append_cancel_left h

theorem eq_of_variable {syms : List Symbol} (hd : Distinct syms) {s t : Symbol} (hs : s ∈ syms) (ht : t ∈ syms)
    (hsname : name = kconfig.fullName s ∨ name = kconfig.fullName s ++ "_MODULE".toList)
    (htname : name = kconfig.fullName t ∨ name = kconfig.fullName t ++ "_MODULE".toList) : s = t := by
  have hsame : s.name.chars = t.name.chars := by
    rcases hsname with hsname | hsname <;> rcases htname with htname | htname
    · exact fullName_inj (hsname.symm.trans htname)
    · refine absurd ?_ (hd.modules s hs t ht)
      exact List.append_cancel_left ((hsname.symm.trans htname).trans (List.append_assoc ..))
    · refine absurd ?_ (hd.modules t ht s hs)
      exact List.append_cancel_left ((htname.symm.trans hsname).trans (List.append_assoc ..))
    · exact fullName_inj (List.append_cancel_right (hsname.symm.trans htname))
  exact List.inj_on_of_nodup_map hd.names hs ht hsame

theorem makeText_of_plain (vars : List Char → List Char) (h : Plain text) : makeText vars text = text := by
  have hescape := (escape_eq_self_iff text).mpr ⟨h.backslash, h.quote⟩
  rw [← hescape, (makeText_escape_iff text).mpr h vars, hescape]

/-- **Make reads the configuration**: after the fragment, a variable has what make reads in the text of its symbol,
the text itself if it is plain, and is not defined if no symbol has it. -/
theorem make_reads_config (kconfig : Kconfig) (h : ∀ sym ∈ kconfig.uniqueDefinedSyms, sym.OneLine)
    (hd : Distinct kconfig.uniqueDefinedSyms) (vars : List Char → List Char) (name : List Char) :
    (∀ sym ∈ kconfig.uniqueDefinedSyms, ∀ text, sym.setting kconfig = some (name, text) →
      makeValue vars (makefileContents kconfig) name = some (makeText vars text) ∧
        (Plain text → makeValue vars (makefileContents kconfig) name = some text)) ∧
    ((∀ sym ∈ kconfig.uniqueDefinedSyms, ∀ text, sym.setting kconfig ≠ some (name, text)) →
      makeValue vars (makefileContents kconfig) name = none) := by
  rw [makeValue, makeBindings_makefileContents h]
  have hread : ∀ b, (b ∈ kconfig.uniqueDefinedSyms.filterMap fun sym =>
      (sym.setting kconfig).map fun b => (b.1, makeText vars b.2)) →
      ∃ sym ∈ kconfig.uniqueDefinedSyms, ∃ text, sym.setting kconfig = some (b.1, text) ∧ makeText vars text = b.2 := by
    intro b hb
    obtain ⟨sym, hsym, hb⟩ := List.mem_filterMap.mp hb
    obtain ⟨⟨name, text⟩, hset, rfl⟩ := Option.map_eq_some_iff.mp hb
    exact ⟨sym, hsym, text, hset, rfl⟩
  constructor
  · intro sym hsym text hset
    have hvalue : lastOf (kconfig.uniqueDefinedSyms.filterMap fun sym =>
        (sym.setting kconfig).map fun b => (b.1, makeText vars b.2)) name = some (makeText vars text) := by
      refine lastOf_eq_some (List.mem_filterMap.mpr ⟨sym, hsym, by rw [hset]; rfl⟩) fun b hb hname => ?_
      obtain ⟨sym', hsym', text', hset', hvalue'⟩ := hread b hb
      rw [hname] at hset'
      -- only one symbol has this variable
      obtain rfl : sym = sym' := eq_of_variable hd hsym hsym' (setting_text (h sym hsym) hset).1
        (setting_text (h sym' hsym') hset').1
      obtain rfl : text = text' := by simpa using hset.symm.trans hset'
      exact hvalue'.symm
    refine ⟨hvalue, fun hplain => hvalue.trans ?_⟩
    rw [makeText_of_plain vars hplain]
  · intro hnone
    refine lastOf_eq_none fun b hb hname => ?_
    obtain ⟨sym, hsym, text, hset, -⟩ := hread b hb
    exact hnone sym hsym text (hname ▸ hset)

/-- A configuration with a switch that is off, and a string that ends in a backslash. -/
def malta : Kconfig where
  configPre := ⟨"CONFIG_".toList, by decide⟩
  uniqueDefinedSyms := [⟨⟨"ARCH".toList, by decide⟩, .string, "mips".toList, true⟩,
    ⟨⟨"BUFFERED_CONSOLE".toList, by decide⟩, .bool, "n".toList, true⟩,
    ⟨⟨"TOOLS_PREFIX".toList, by decide⟩, .string, ['q', '\\'], true⟩,
    ⟨⟨"CONSOLE_BUFFER_SIZE".toList, by decide⟩, .int, "64".toList, true⟩]

theorem make_reads_config_malta :
    makeValue (fun _ => []) (makefileContents malta) "CONFIG_ARCH".toList = some "mips".toList ∧
    makeValue (fun _ => []) (makefileContents malta) "CONFIG_CONSOLE_BUFFER_SIZE".toList = some "64".toList ∧
    makeValue (fun _ => []) (makefileContents malta) "CONFIG_BUFFERED_CONSOLE".toList = none := by
  have hlines : ∀ sym ∈ malta.uniqueDefinedSyms, sym.OneLine := by
    refine List.forall_mem_cons.mpr ⟨⟨by decide, by decide⟩, ?_⟩
    refine List.forall_mem_cons.mpr ⟨⟨by decide, by decide⟩, ?_⟩
    refine List.forall_mem_cons.mpr ⟨⟨by decide, by decide⟩, ?_⟩
    exact List.forall_mem_cons.mpr ⟨⟨by decide, by decide⟩, fun _ h => absurd h List.not_mem_nil⟩
  have hd : Distinct malta.uniqueDefinedSyms := ⟨by decide, by decide⟩
  have hreads := make_reads_config malta hlines hd fun _ => []
  refine ⟨?_, ?_, ?_⟩
  · exact ((hreads _).1 _ (List.mem_cons_self ..) _ rfl).2 ⟨by decide, by decide, by decide, by decide, by decide⟩
  · exact ((hreads _).1 _ (.tail _ (.tail _ (.tail _ (.head _)))) _ rfl).2
      ⟨by decide, by decide, by decide, by decide, by decide⟩
  · have hother : ∀ sym ∈ malta.uniqueDefinedSyms,
        (sym.setting malta).map Prod.fst ≠ some "CONFIG_BUFFERED_CONSOLE".toList := by decide
    exact (hreads _).2 fun sym hsym text hset => hother sym hsym (congrArg (Option.map Prod.fst) hset)

end QDNix.Tools
