import QDNix.Lib.X86Flags

/-!
# `cpuid_check_cpuid`

The routine of `x86/cpuid.S`. It toggles the identification flag in a copy of the flags, loads it, reads the
flags back into EAX and XORs them into the copy it kept, on the stack: `xorl %eax, (%esp)`, where the
difference was wanted in EAX. So the second `popf` loads the difference instead of the flags at the call,
and EAX holds the new value of the flag, which says that the flag has changed only if it was clear.
`detects_iff` is what is left of the routine's purpose.
-/

namespace QDNix.I386

open X86

/-- The flags that `popf` can change, on a processor that can change the identification flag or not. -/
def popfMask (changeable : Bool) : Word := if changeable then 0x247FD5 else 0x047FD5

/-- The routine, from its first instruction to where `ret` goes. -/
def cpuidCheckCpuid (changeable : Bool) (s : Cpu) : Word × Cpu :=
  let s := s.pushf
  let s := s.pushf
  let s := s.xorTop 0x200000
  let s := s.popf (popfMask changeable)
  let s := s.pushf
  let s := s.pop .eax
  let s := s.xorTop (s.gpr .eax)
  let s := s.popf (popfMask changeable)
  let s := s.andImm .eax 0x200000
  s.ret

/-- The flags of a processor between two instructions of the kernel: the reserved bits are what they are, VM
is clear, and RF is cleared by every instruction. -/
def HeldFlags (eflags : Word) : Prop := eflags &&& 0xFFC3802A = 2

instance (eflags : Word) : Decidable (HeldFlags eflags) := inferInstanceAs (Decidable (_ = _))

/-- Called from `s` with the return address `ret`, the routine returns there with EAX not zero exactly if the
identification flag can be changed, the flags as they were but for the arithmetic ones, and the stack as it
was, down to the return address. -/
structure Detects (changeable : Bool) (ret : Word) (s : Cpu) : Prop where
  returns : (cpuidCheckCpuid changeable (s.push ret)).1 = ret
  result : (cpuidCheckCpuid changeable (s.push ret)).2.gpr .eax ≠ 0 ↔ changeable = true
  flags : (cpuidCheckCpuid changeable (s.push ret)).2.eflags &&& ~~~arithMask = s.eflags &&& ~~~arithMask
  esp : (cpuidCheckCpuid changeable (s.push ret)).2.gpr .esp = s.gpr .esp
  stack : ∀ x, 8 ≤ (x - (s.gpr .esp - 12)).toNat →
    (cpuidCheckCpuid changeable (s.push ret)).2.mem x = (s.push ret).mem x

variable {changeable : Bool} {f : Word} {s : Cpu}

/-- What the first `popf` changes. -/
def change (changeable : Bool) : Word := idFlag &&& popfMask changeable

theorem HeldFlags.clear (hf : HeldFlags f) {z : Word} (hz : z = 0xFFC3802A &&& z) (hval : 2 &&& z = 0) :
    f &&& z = 0 := by
  have hf : f &&& 0xFFC3802A = 2 := hf
  rw [hz, ← BitVec.and_assoc, hf, hval]

theorem flagsImage_change (hf : HeldFlags f) : flagsImage (f ^^^ change changeable) = f ^^^ change changeable := by
  have hclear : f &&& 0xFF030000 = 0 := hf.clear (by decide) (by decide)
  have hchange : change changeable &&& 0xFF030000 = 0 := by
    cases changeable <;> decide
  generalize change changeable = d at hchange
  rw [flagsImage, show (0xFCFFFF : Word) = ~~~0xFF030000 by decide]
  generalize (0xFF030000 : Word) = z at *
  apply BitVec.eq_of_getLsbD_eq
  intro k hk
  have hclear := disjoint_bits hclear k
  have hchange := disjoint_bits hchange k
  simp only [BitVec.getLsbD_and, BitVec.getLsbD_xor, BitVec.getLsbD_not, hk, decide_true, Bool.true_and]
  grind

theorem flagsImage_held (hf : HeldFlags f) : flagsImage f = f := by
  have hclear : f &&& 0xFF030000 = 0 := hf.clear (by decide) (by decide)
  rw [flagsImage, show (0xFCFFFF : Word) = ~~~0xFF030000 by decide]
  generalize (0xFF030000 : Word) = z at *
  apply BitVec.eq_of_getLsbD_eq
  intro k hk
  have hclear := disjoint_bits hclear k
  simp only [BitVec.getLsbD_and, BitVec.getLsbD_not, hk, decide_true, Bool.true_and]
  grind

theorem arithMask_sub (changeable : Bool) : arithMask &&& ~~~popfMask changeable = 0 := by
  cases changeable <;> decide

/-- Up to `pop %eax`: the flags toggled and read back, those of the call on the stack. -/
def toggle (changeable : Bool) (s : Cpu) : Cpu :=
  ((s.pushf.pushf.xorTop 0x200000).popf (popfMask changeable)).pushf.pop .eax

/-- From `xorl %eax, (%esp)` to `popf`. -/
def restore (changeable : Bool) (s : Cpu) : Cpu := (s.xorTop (s.gpr .eax)).popf (popfMask changeable)

theorem cpuidCheckCpuid_eq :
    cpuidCheckCpuid changeable s = ((restore changeable (toggle changeable s)).andImm .eax 0x200000).ret := rfl

theorem toggle_spec (changeable : Bool) (hf : HeldFlags s.eflags) :
    Pushed s 2 [s.eflags] (toggle changeable s) ∧
      (toggle changeable s).gpr .eax = s.eflags ^^^ change changeable ∧
      (toggle changeable s).eflags = s.eflags ^^^ change changeable := by
  have hresume : s.eflags &&& resumeFlag = 0 := hf.clear (by decide) (by decide)
  have h₁ : Pushed s 2 [s.eflags] s.pushf := by
    have h := (Pushed.refl s 2).pushf (by decide) (by decide)
    rwa [flagsImage_held hf] at h
  have h₂ : Pushed s 2 [s.eflags, s.eflags] s.pushf.pushf := by
    have h := h₁.pushf Nat.one_lt_two (by decide)
    rwa [show s.pushf.eflags = s.eflags from rfl, flagsImage_held hf] at h
  have hx := h₂.xorTop 0x200000 Nat.one_lt_two (by decide)
  have heflags : ((s.pushf.pushf.xorTop 0x200000).popf (popfMask changeable)).eflags =
      s.eflags ^^^ change changeable := by
    rw [change, ← popMasked_xor hresume]
    change popMasked _ (xorFlags s.eflags s.pushf.pushf.top 0x200000) (s.pushf.pushf.xorTop 0x200000).top = _
    rw [hx.top, xorFlags, popMasked_arithFlags (arithMask_sub changeable)]
    rfl
  have h₃ := (hx.popf (popfMask changeable)).pushf Nat.one_lt_two (by decide)
  rw [heflags, flagsImage_change hf] at h₃
  refine ⟨h₃.pop (by decide), ?_, heflags⟩
  rw [toggle, Cpu.pop, Cpu.gpr_set, h₃.top]

theorem restore_spec {s₀ : Cpu} (changeable : Bool) (h : Pushed s₀ 2 [f] s) :
    Pushed s₀ 2 [] (restore changeable s) ∧ (restore changeable s).gpr .eax = s.gpr .eax ∧
      (restore changeable s).eflags = popMasked (popfMask changeable) s.eflags (f ^^^ s.gpr .eax) := by
  have hx := h.xorTop (s.gpr .eax) (by decide) (by decide)
  refine ⟨hx.popf _, Cpu.gpr_popf _ _ (by decide), ?_⟩
  change popMasked _ (xorFlags s.eflags s.top (s.gpr .eax)) (s.xorTop (s.gpr .eax)).top = _
  rw [hx.top, xorFlags, popMasked_arithFlags (arithMask_sub changeable)]

theorem cpuidCheckCpuid_spec (changeable : Bool) (s : Cpu) (hf : HeldFlags s.eflags) :
    ∃ t, cpuidCheckCpuid changeable s = (s.top, t) ∧
      t.gpr .eax = (s.eflags ^^^ change changeable) &&& idFlag ∧
      t.eflags &&& ~~~arithMask =
        popMasked (popfMask changeable) (s.eflags ^^^ change changeable) (change changeable) &&& ~~~arithMask ∧
      t.gpr .esp = s.gpr .esp + 4 ∧
      ∀ x, 8 ≤ (x - (s.gpr .esp - 8)).toNat → t.mem x = s.mem x := by
  obtain ⟨hstack, heax, heflags⟩ := toggle_spec changeable hf
  obtain ⟨hstack', heax', heflags'⟩ := restore_spec changeable hstack
  have hdiff : s.eflags ^^^ (s.eflags ^^^ change changeable) = change changeable := by
    rw [← BitVec.xor_assoc, BitVec.xor_self, BitVec.zero_xor]
  rw [heax, heflags, hdiff] at heflags'
  rw [heax] at heax'
  rw [cpuidCheckCpuid_eq]
  generalize restore changeable (toggle changeable s) = t at *
  have hand : Pushed s 2 [] (t.andImm .eax 0x200000) := by
    refine hstack'.congr ?_ rfl
    rw [Cpu.gpr_andImm, Cpu.gpr_set_of_ne t _ (by decide)]
  refine ⟨(t.andImm .eax 0x200000).drop 4, ?_, ?_, ?_, ?_, hand.frame⟩
  · rw [Cpu.ret, hand.top_start (by decide)]
  · rw [Cpu.gpr_drop _ 4 (by decide), Cpu.gpr_andImm, Cpu.gpr_set, heax']
    rfl
  · rw [← heflags']
    exact arithFlags_and_not ..
  · rw [Cpu.esp_drop, hand.esp]
    exact congrArg (· + 4) (BitVec.sub_zero _)

/-! ### What it is good for -/

theorem and_idFlag_eq_zero_iff (w : Word) : w &&& idFlag = 0 ↔ w.getLsbD 21 = false := by
  rw [idFlag, show (0x200000 : Word) = BitVec.twoPow 32 21 by decide, BitVec.and_twoPow]
  cases w.getLsbD 21 <;> decide

theorem result_iff (changeable : Bool) (f : Word) :
    ((f ^^^ change changeable) &&& idFlag ≠ 0 ↔ changeable = true) ↔ f &&& idFlag = 0 := by
  have hchange : (change changeable).getLsbD 21 = changeable := by
    cases changeable <;> decide
  rw [ne_eq, and_idFlag_eq_zero_iff, and_idFlag_eq_zero_iff, BitVec.getLsbD_xor, hchange]
  cases f.getLsbD 21 <;> cases changeable <;> decide

/-- The result and the flags are right exactly where nothing can go wrong: the flag cannot be changed, and all
flags that are loaded are clear. -/
theorem result_and_flags_iff :
    (f &&& idFlag = 0 ∧ f &&& (popfMask changeable &&& ~~~arithMask) =
      change changeable &&& (popfMask changeable &&& ~~~arithMask)) ↔ changeable = false ∧ f &&& 0x247700 = 0 := by
  cases changeable with
  | false =>
    rw [show popfMask false &&& ~~~arithMask = 0x047700 by decide,
      show change false &&& 0x047700 = 0 by decide, show (0x247700 : Word) = idFlag ||| 0x047700 by decide,
      BitVec.and_or_distrib_left]
    exact BitVec.or_eq_zero_iff.symm.trans (and_iff_right rfl).symm
  | true =>
    rw [show popfMask true &&& ~~~arithMask = 0x247700 by decide,
      show change true &&& 0x247700 = idFlag by decide]
    constructor
    · rintro ⟨hclear, hset⟩
      have h : f &&& idFlag = idFlag := by
        rw [show f &&& idFlag = f &&& 0x247700 &&& idFlag by rw [BitVec.and_assoc]; rfl, hset]
        decide
      exact absurd (hclear.symm.trans h) (by decide)
    · rintro ⟨h, -⟩
      cases h

theorem detects_iff (hf : HeldFlags s.eflags) (ret : Word) :
    Detects changeable ret s ↔ changeable = false ∧ s.eflags &&& 0x247700 = 0 := by
  have hresume : s.eflags &&& resumeFlag = 0 := hf.clear (by decide) (by decide)
  have hsub : change changeable &&& ~~~popfMask changeable = 0 := by
    cases changeable <;> decide
  obtain ⟨t, hrun, heax, heflags, hesp, hframe⟩ :=
    cpuidCheckCpuid_spec changeable (s.push ret) hf
  rw [← result_and_flags_iff, ← popMasked_diff_iff hresume hsub, ← result_iff changeable]
  rw [show (s.push ret).eflags = s.eflags from rfl] at heax heflags
  rw [← heflags, ← heax]
  constructor
  · rintro ⟨-, hresult, hflags, -, -⟩
    rw [hrun] at hresult hflags
    exact ⟨hresult, hflags⟩
  · rintro ⟨hresult, hflags⟩
    have hsp : (s.push ret).gpr .esp = s.gpr .esp - 4 := Cpu.esp_push s ret
    rw [hsp] at hesp hframe
    refine ⟨?_, ?_, ?_, ?_, fun x hx => ?_⟩ <;> rw [hrun]
    · exact load32_store32 ..
    · exact hresult
    · exact hflags
    · exact hesp.trans (BitVec.sub_add_cancel ..)
    · exact hframe x (by bv_omega)

/-- A caller with the flags `f`. -/
def caller (f : Word) : Cpu := ⟨fun _ => 0x8000, fun _ => 0, f, fun _ => 0⟩

theorem detects_iff_reset : HeldFlags (caller 2).eflags ∧ Detects false 0x1000 (caller 2) :=
  ⟨by decide, (detects_iff (by decide) 0x1000).mpr ⟨rfl, by decide⟩⟩

/-- A processor with CPUID, in the same state. -/
theorem not_detects_reset : HeldFlags (caller 2).eflags ∧ ¬ Detects true 0x1000 (caller 2) := by
  refine ⟨by decide, fun h => ?_⟩
  obtain ⟨t, hrun, -, heflags, -, -⟩ :=
    cpuidCheckCpuid_spec true ((caller 2).push 0x1000) (by decide)
  have hflags := h.flags
  rw [hrun, heflags] at hflags
  exact absurd hflags (by decide)

end QDNix.I386
