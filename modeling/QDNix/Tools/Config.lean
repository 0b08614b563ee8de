import QDNix.Lib.Quoting

/-!
# The generated make fragment and the generated header

`_makefile_contents` of `tools/config.py` writes the value of a string symbol with the `escape` that
`kconfiglib` made for C string literals, and without quotes. `agrees_iff` says for which values a make program
that reads the line and a C compiler that reads `config.h` see the same text.

Of `kconfiglib` there are `escape` and the literal that `write_autoconf` emits, of make the assignment; both are
in `Lib/Quoting`.
-/

namespace QDNix.Tools

open Quoting

/-- The types of `kconfiglib`; a symbol without one has the type `UNKNOWN`. -/
inductive SymType
  | unknown
  | bool
  | tristate
  | string
  | int
  | hex
deriving DecidableEq, Repr

def SymType.isBoolTristate : SymType → Bool
  | bool | tristate => true
  | _ => false

/-- What `kconfiglib` takes for the name of a symbol. -/
def isNameChar (c : Char) : Bool := c.isAlphanum || ['_', '-', '.', '/'].contains c

structure Name where
  chars : List Char
  valid : chars.all isNameChar = true

structure Symbol where
  name : Name
  origType : SymType
  strValue : List Char
  writeToConf : Bool

structure Kconfig where
  configPre : Name
  uniqueDefinedSyms : List Symbol

def Kconfig.fullName (kconfig : Kconfig) (sym : Symbol) : List Char := kconfig.configPre.chars ++ sym.name.chars

/-- `val.startswith(("0x", "0X"))` -/
def startsWithHex : List Char → Bool
  | '0' :: 'x' :: _ => true
  | '0' :: 'X' :: _ => true
  | _ => false

/-- What one pass of the loop of `_makefile_contents` adds. -/
def chunk (kconfig : Kconfig) (sym : Symbol) : List Char :=
  let val := sym.strValue
  if !sym.writeToConf then []
  else if sym.origType.isBoolTristate then
    if val = ['y'] then kconfig.fullName sym ++ "=yes\n".toList
    else if val = ['m'] then kconfig.fullName sym ++ "_MODULE=yes\n".toList
    else []
  else if sym.origType = .string then kconfig.fullName sym ++ '=' :: (escape val ++ ['\n'])
  else
    let val := if sym.origType = .hex ∧ !startsWithHex val then '0' :: 'x' :: val else val
    kconfig.fullName sym ++ '=' :: (val ++ ['\n'])

/-- `_makefile_contents` -/
def makefileContents (kconfig : Kconfig) : List Char := (kconfig.uniqueDefinedSyms.map (chunk kconfig)).flatten

/-- The string literal of a value in `config.h`. -/
def autoconfLiteral (val : List Char) : List Char := '"' :: (escape val ++ ['"'])

/-- The variable that an assignment binds, and the value it has with the other variables `vars`. -/
def makeBinding (vars : List Char → List Char) (line : List Char) : Option (List Char × List Char) :=
  let line := line.takeWhile (· ≠ '\n')
  match line.dropWhile (· ≠ '=') with
  | _ :: text => some (line.takeWhile (· ≠ '='), makeText vars text)
  | [] => none

/-- Make and C see the value of the symbol. -/
structure Agrees (kconfig : Kconfig) (sym : Symbol) : Prop where
  make : ∀ vars, makeBinding vars (chunk kconfig sym) = some (kconfig.fullName sym, sym.strValue)
  c : cString (autoconfLiteral sym.strValue) = some sym.strValue

/-! ### The line of a string symbol -/

theorem Name.notMem (name : Name) {c : Char} (h : isNameChar c = false) : c ∉ name.chars := fun hmem =>
  Bool.false_ne_true (h.symm.trans (List.all_eq_true.mp name.valid c hmem))

theorem notMem_fullName (kconfig : Kconfig) (sym : Symbol) {c : Char} (h : isNameChar c = false) :
    c ∉ kconfig.fullName sym := by
  rw [Kconfig.fullName, List.mem_append, not_or]
  exact ⟨kconfig.configPre.notMem h, sym.name.notMem h⟩

theorem chunk_string (kconfig : Kconfig) {sym : Symbol} (htype : sym.origType = .string)
    (hwritten : sym.writeToConf = true) :
    chunk kconfig sym = kconfig.fullName sym ++ '=' :: (escape sym.strValue ++ ['\n']) := by
  rw [chunk, hwritten, htype]
  rfl

theorem chunk_isInfix {kconfig : Kconfig} {sym : Symbol} (h : sym ∈ kconfig.uniqueDefinedSyms) :
    chunk kconfig sym <:+: makefileContents kconfig :=
  List.infix_of_mem_flatten (List.mem_map_of_mem h)

theorem takeWhile_ne_append {c : Char} {s : List Char} (h : c ∉ s) (t : List Char) :
    (s ++ c :: t).takeWhile (· ≠ c) = s := by
  rw [List.takeWhile_append_of_pos fun d hd => by simpa using fun hdc : d = c => h (hdc ▸ hd)]
  rw [List.takeWhile_cons_of_neg (by simp), List.append_nil]

theorem dropWhile_ne_append {c : Char} {s : List Char} (h : c ∉ s) (t : List Char) :
    (s ++ c :: t).dropWhile (· ≠ c) = c :: t := by
  rw [List.dropWhile_append_of_pos fun d hd => by simpa using fun hdc : d = c => h (hdc ▸ hd)]
  exact List.dropWhile_cons_of_neg (by simp)

theorem makeBinding_line (vars : List Char → List Char) {name text : List Char} (hname : '=' ∉ name)
    (hline : '\n' ∉ name) (htext : '\n' ∉ text) :
    makeBinding vars (name ++ '=' :: (text ++ ['\n'])) = some (name, makeText vars text) := by
  have hcut : (name ++ '=' :: (text ++ ['\n'])).takeWhile (· ≠ '\n') = name ++ '=' :: text := by
    have hmem : '\n' ∉ name ++ '=' :: text := by simp [hline, htext]
    rw [← takeWhile_ne_append hmem [], List.append_assoc, List.cons_append]
  simp only [makeBinding, hcut, dropWhile_ne_append hname, takeWhile_ne_append hname]

theorem newline_notMem_escape {s : List Char} (h : '\n' ∉ s) : '\n' ∉ escape s := fun hmem =>
  (mem_escape hmem).elim (by decide) h

theorem makeBinding_chunk (vars : List Char → List Char) {kconfig : Kconfig} {sym : Symbol}
    (htype : sym.origType = .string) (hwritten : sym.writeToConf = true) (hline : '\n' ∉ sym.strValue) :
    makeBinding vars (chunk kconfig sym) = some (kconfig.fullName sym, makeText vars (escape sym.strValue)) := by
  rw [chunk_string kconfig htype hwritten]
  exact makeBinding_line vars (notMem_fullName kconfig sym (by decide)) (notMem_fullName kconfig sym (by decide))
    (newline_notMem_escape hline)

/-- **The make fragment and the header agree on a string exactly if its value is plain.** The line is in the
fragment, and the header is right for every value. -/
theorem agrees_iff {kconfig : Kconfig} {sym : Symbol} (hmem : sym ∈ kconfig.uniqueDefinedSyms)
    (htype : sym.origType = .string) (hwritten : sym.writeToConf = true) (hline : '\n' ∉ sym.strValue) :
    chunk kconfig sym <:+: makefileContents kconfig ∧ (Agrees kconfig sym ↔ Plain sym.strValue) := by
  refine ⟨chunk_isInfix hmem, ?_⟩
  rw [← makeText_escape_iff]
  constructor
  · intro h vars
    have hmake := h.make vars
    rw [makeBinding_chunk vars htype hwritten hline, Option.some.injEq, Prod.mk.injEq] at hmake
    exact hmake.2
  · intro h
    refine ⟨fun vars => ?_, cString_escape sym.strValue []⟩
    rw [makeBinding_chunk vars htype hwritten hline, h vars]

/-! ### Two values -/

def stringSymbol (val : List Char) : Symbol := ⟨⟨['A', 'R', 'C', 'H'], rfl⟩, .string, val, true⟩

/-- A configuration of one string. -/
def stringConfig (val : List Char) : Kconfig :=
  ⟨⟨['C', 'O', 'N', 'F', 'I', 'G', '_'], rfl⟩, [stringSymbol val]⟩

theorem agrees_iff_arch :
    chunk (stringConfig ['i', '3', '8', '6']) (stringSymbol ['i', '3', '8', '6']) <:+:
        makefileContents (stringConfig ['i', '3', '8', '6']) ∧
      Agrees (stringConfig ['i', '3', '8', '6']) (stringSymbol ['i', '3', '8', '6']) := by
  have hmem : stringSymbol ['i', '3', '8', '6'] ∈ (stringConfig ['i', '3', '8', '6']).uniqueDefinedSyms :=
    List.mem_singleton_self _
  obtain ⟨hchunk, hagrees⟩ := agrees_iff hmem rfl rfl (by decide)
  refine ⟨hchunk, hagrees.mpr ⟨?_, ?_, ?_, ?_, ?_⟩⟩ <;> decide

/-- Of the value `a"b` make keeps the backslash. -/
theorem not_agrees_quote :
    makeBinding (fun _ => []) (chunk (stringConfig ['a', '"', 'b']) (stringSymbol ['a', '"', 'b'])) =
        some (['C', 'O', 'N', 'F', 'I', 'G', '_', 'A', 'R', 'C', 'H'], ['a', '\\', '"', 'b']) ∧
      ¬ ∀ (kconfig : Kconfig) (sym : Symbol), sym ∈ kconfig.uniqueDefinedSyms → sym.origType = .string →
        sym.writeToConf = true → '\n' ∉ sym.strValue → Agrees kconfig sym := by
  have hread : makeBinding (fun _ => []) (chunk (stringConfig ['a', '"', 'b']) (stringSymbol ['a', '"', 'b'])) =
      some (['C', 'O', 'N', 'F', 'I', 'G', '_', 'A', 'R', 'C', 'H'], ['a', '\\', '"', 'b']) := by
    rw [makeBinding_chunk _ rfl rfl (by decide)]
    rfl
  refine ⟨hread, fun h => ?_⟩
  have hagrees := h (stringConfig ['a', '"', 'b']) _ (List.mem_singleton.mpr rfl) rfl rfl (by decide)
  have hsame := hread.symm.trans (hagrees.make fun _ => [])
  revert hsame
  decide

end QDNix.Tools
