import QDNix.Lib.X86

/-!
# Set-up code for the i386

What start-up code uses beyond interrupt stubs: immediate and register moves, the flags as a whole, `rep
stosb` and calls. `runToCall` runs straight-line code up to its first call, which pushes the address `ret`.

`popf` is that of privilege level 0. The flags of `xor` and `sub` are exact, but for the auxiliary carry that
`xor` leaves undefined, which stays.
-/

namespace X86

/-! ### Flags -/

/-- Interrupts enabled. -/
def interruptFlag (eflags : Word) : Bool := eflags.getLsbD 9

/-- String instructions go down. -/
def directionFlag (eflags : Word) : Bool := eflags.getLsbD 10

/-- What `popf` makes of the flags: VM, VIF, VIP and the reserved bits stay, RF is cleared. -/
def popFlags (eflags v : Word) : Word := (v &&& 0x247FD5) ||| (eflags &&& ~~~0x257FD5)

/-- The arithmetic flags of `eflags` replaced by those of `new`. -/
def arithFlags (eflags new : Word) : Word := (eflags &&& ~~~0x8D5) ||| (new &&& 0x8D5)

/-- Carry, parity, auxiliary carry, zero, sign and overflow, for a result `r`. -/
def resultFlags (carry aux overflow : Bool) (r : Word) : Word :=
  let flag (k : Nat) (c : Bool) : Word := if c then 1 <<< k else 0
  flag 0 carry ||| flag 2 ((List.range 8).countP r.getLsbD % 2 = 0) ||| flag 4 aux ||| flag 6 (r = 0) |||
    flag 7 r.msb ||| flag 11 overflow

def xorFlags (eflags a b : Word) : Word :=
  arithFlags eflags (resultFlags false (eflags.getLsbD 4) false (a ^^^ b))

def subFlags (eflags a b : Word) : Word :=
  arithFlags eflags (resultFlags (BitVec.usubOverflow a b) ((a ^^^ b ^^^ (a - b)).getLsbD 4)
    (BitVec.ssubOverflow a b) (a - b))

theorem getLsbD_arithFlags (eflags new : Word) {k : Nat} (hk : k < 32) (h : (0x8D5 : Word).getLsbD k = false) :
    (arithFlags eflags new).getLsbD k = eflags.getLsbD k := by
  rw [arithFlags, BitVec.getLsbD_or, BitVec.getLsbD_and, BitVec.getLsbD_and, BitVec.getLsbD_not, h]
  simp [hk]

@[simp] theorem interruptFlag_xorFlags (eflags a b : Word) :
    interruptFlag (xorFlags eflags a b) = interruptFlag eflags := getLsbD_arithFlags _ _ (by decide) (by decide)

@[simp] theorem interruptFlag_subFlags (eflags a b : Word) :
    interruptFlag (subFlags eflags a b) = interruptFlag eflags := getLsbD_arithFlags _ _ (by decide) (by decide)

/-! ### Instructions -/

/-- One `stosb`. -/
def Cpu.stosb (s : Cpu) : Cpu :=
  { s.set .edi (s.gpr .edi + if directionFlag s.eflags then -1 else 1) with
    mem := Function.update s.mem (s.gpr .edi) ((s.gpr .eax).setWidth 8) }

/-- `rep stosb` with `n` in ECX. -/
def Cpu.repStosb : Nat → Cpu → Cpu
  | 0, s => s
  | n + 1, s => repStosb n (s.stosb.set .ecx (s.gpr .ecx - 1))

inductive SetupInstr (Λ : Type)
  | base (i : Instr Λ)
  | movImm (r : Reg) (v : Word)
  | mov (dst src : Reg)
  | xor (dst src : Reg)
  | sub (dst src : Reg)
  | popf
  | cld
  | repStosb
  | call (l : Λ)
deriving DecidableEq, Repr

variable {Λ : Type}

/-- What an instruction does to the machine; `call` also leaves the list, see `runToCall`. -/
def SetupInstr.exec : SetupInstr Λ → Cpu → Cpu
  | .base i, s => X86.exec i s
  | .movImm r v, s => s.set r v
  | .mov dst src, s => s.set dst (s.gpr src)
  | .xor dst src, s =>
    { s.set dst (s.gpr dst ^^^ s.gpr src) with eflags := xorFlags s.eflags (s.gpr dst) (s.gpr src) }
  | .sub dst src, s =>
    { s.set dst (s.gpr dst - s.gpr src) with eflags := subFlags s.eflags (s.gpr dst) (s.gpr src) }
  | .popf, s => { s.drop 4 with eflags := popFlags s.eflags s.top }
  | .cld, s => { s with eflags := s.eflags &&& ~~~0x400 }
  | .repStosb, s => s.repStosb (s.gpr .ecx).toNat
  | .call _, s => s

/-- Run up to the first call: the function called, and the machine as it starts. -/
def runToCall (ret : Word) : List (SetupInstr Λ) → Cpu → Option (Λ × Cpu)
  | [], _ => none
  | .call l :: _, s => some (l, s.push ret)
  | .base (.jmp _) :: _, _ => none
  | .base .iret :: _, _ => none
  | i :: is, s => runToCall ret is (i.exec s)

/-! ### The string store -/

/-- Going up, `rep stosb` fills `n` bytes from EDI with AL and changes ECX and EDI besides. -/
theorem Cpu.repStosb_spec (n : Nat) (hn : n ≤ 2 ^ 32) (s : Cpu) (hup : directionFlag s.eflags = false) :
    (∀ r, r ≠ .ecx → r ≠ .edi → (s.repStosb n).gpr r = s.gpr r) ∧ (s.repStosb n).eflags = s.eflags ∧
      ∀ a, (s.repStosb n).mem a =
        if (a - s.gpr .edi).toNat < n then (s.gpr .eax).setWidth 8 else s.mem a := by
  induction n generalizing s with
  | zero => exact ⟨fun r _ _ => rfl, rfl, fun a => rfl⟩
  | succ n ih =>
    have hedi : (s.stosb.set .ecx (s.gpr .ecx - 1)).gpr .edi = s.gpr .edi + 1 := by
      rw [gpr_set_of_ne _ _ (by decide), stosb, hup, if_neg (by decide)]
      show (s.set .edi (s.gpr .edi + 1)).gpr .edi = _
      rw [gpr_set]
    have hgpr : ∀ r, r ≠ .ecx → r ≠ .edi → (s.stosb.set .ecx (s.gpr .ecx - 1)).gpr r = s.gpr r := by
      intro r hecx hedi
      rw [gpr_set_of_ne _ _ hecx]
      exact gpr_set_of_ne s _ hedi
    obtain ⟨hregs, hflags, hmem⟩ := ih (by omega) (s.stosb.set .ecx (s.gpr .ecx - 1)) hup
    refine ⟨fun r hecx hedi => ?_, hflags, fun a => ?_⟩
    · exact (hregs r hecx hedi).trans (hgpr r hecx hedi)
    · rw [repStosb, hmem a, hedi, hgpr .eax (by decide) (by decide)]
      show (if _ then _ else Function.update s.mem (s.gpr .edi) ((s.gpr .eax).setWidth 8) a) = _
      rw [Function.update_apply]
      by_cases ha : a = s.gpr .edi
      · rw [if_pos ha, ite_self, if_pos (by rw [ha]; simp)]
      · have hstep : (a - (s.gpr .edi + 1)).toNat < n ↔ (a - s.gpr .edi).toNat < n + 1 := by
          have hne : (a - s.gpr .edi).toNat ≠ 0 := by bv_omega
          have hpred : (a - (s.gpr .edi + 1)).toNat = (a - s.gpr .edi).toNat - 1 := by bv_omega
          omega
        simp only [if_neg ha, hstep]

end X86
