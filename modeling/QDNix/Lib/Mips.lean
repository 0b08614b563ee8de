import QDNix.Lib.Memory
import Mathlib.Logic.Function.Basic

/-!
# A little MIPS32

The instructions that start-up code uses, as functions of the processor state; `none` is an exception. A
branch only gives its condition: the caller places its delay slot. A word is stored least significant byte
first.

Memory is flat: there are no mapped segments, so no exceptions of the TLB, and the code is not in it. Where a program
may store is for its model to say.

The TLB keeps with its entries a log of the indices written. Of the Index register there is what software can
write, so not the bit that only a probe sets.
-/

namespace Mips32

abbrev Word := BitVec 32

inductive Reg
  | zero | atmp | v0 | v1 | a0 | a1 | a2 | a3 | t0 | t1 | t2 | t3 | t4 | t5 | t6 | t7
  | s0 | s1 | s2 | s3 | s4 | s5 | s6 | s7 | t8 | t9 | k0 | k1 | gp | sp | fp | ra
deriving DecidableEq, Repr

/-- Registers of coprocessor 0. -/
inductive C0
  | index | entryLo0 | entryLo1 | pageMask | entryHi | config1
deriving DecidableEq, Repr

structure TlbEntry where
  pageMask : Word
  entryHi : Word
  entryLo0 : Word
  entryLo1 : Word
deriving DecidableEq, Repr

structure Cpu where
  gpr : Reg → Word
  mem : Memory 32
  cp0 : C0 → Word
  tlb : ℕ → TlbEntry
  written : List ℕ

namespace Cpu

/-- What a register reads as. -/
def get (s : Cpu) (r : Reg) : Word := if r = .zero then 0 else s.gpr r

def set (s : Cpu) (r : Reg) (v : Word) : Cpu := { s with gpr := Function.update s.gpr r v }

@[simp] theorem get_zero (s : Cpu) : s.get .zero = 0 := rfl

theorem get_set {s : Cpu} {r : Reg} (hr : r ≠ .zero) (v : Word) : (s.set r v).get r = v := by
  rw [get, if_neg hr]
  exact Function.update_self ..

theorem get_set_of_ne (s : Cpu) {r r' : Reg} (h : r' ≠ r) (v : Word) : (s.set r v).get r' = s.get r' := by
  unfold get
  congr 1
  exact Function.update_of_ne h ..

/-- `sw rt, offset(base)` -/
def sw (rt : Reg) (offset : Word) (base : Reg) (s : Cpu) : Option Cpu :=
  if (s.get base + offset).toNat % 4 = 0 then
    some { s with mem := Memory.store 4 (s.get base + offset) (s.get rt) s.mem }
  else none

/-- `addi rt, rs, imm` -/
def addi (rt rs : Reg) (imm : Word) (s : Cpu) : Option Cpu :=
  if BitVec.saddOverflow (s.get rs) imm then none else some (s.set rt (s.get rs + imm))

/-- `addiu rt, rs, imm` -/
def addiu (rt rs : Reg) (imm : Word) (s : Cpu) : Cpu := s.set rt (s.get rs + imm)

/-- `ori rt, rs, imm` -/
def ori (rt rs : Reg) (imm : Word) (s : Cpu) : Cpu := s.set rt (s.get rs ||| imm)

/-- `andi rt, rs, imm` -/
def andi (rt rs : Reg) (imm : Word) (s : Cpu) : Cpu := s.set rt (s.get rs &&& imm)

/-- `move rd, rs` -/
def move (rd rs : Reg) (s : Cpu) : Cpu := s.set rd (s.get rs)

/-- `li rt, imm` -/
def li (rt : Reg) (imm : Word) (s : Cpu) : Cpu := s.set rt imm

/-- `ext rt, rs, pos, size` -/
def ext (rt rs : Reg) (pos size : ℕ) (s : Cpu) : Cpu :=
  s.set rt (((s.get rs).extractLsb' pos size).setWidth 32)

/-- The condition of `bne rs, rt`. -/
def bne (rs rt : Reg) (s : Cpu) : Bool := s.get rs ≠ s.get rt

/-- `mtc0 rt, c` -/
def mtc0 (rt : Reg) (c : C0) (s : Cpu) : Cpu := { s with cp0 := Function.update s.cp0 c (s.get rt) }

/-- `mfc0 rt, c` -/
def mfc0 (rt : Reg) (c : C0) (s : Cpu) : Cpu := s.set rt (s.cp0 c)

/-- `tlbwi` -/
def tlbwi (s : Cpu) : Cpu :=
  let index := (s.cp0 .index).toNat
  { s with
    tlb := Function.update s.tlb index ⟨s.cp0 .pageMask, s.cp0 .entryHi, s.cp0 .entryLo0, s.cp0 .entryLo1⟩
    written := s.written ++ [index] }

end Cpu

theorem saddOverflow_iff {x k : Word} (hk : k.toNat < 2 ^ 31) :
    BitVec.saddOverflow x k = true ↔ x.toNat < 2 ^ 31 ∧ 2 ^ 31 ≤ x.toNat + k.toNat := by
  have hx := x.isLt
  have hkval : k.toInt = k.toNat := by
    rw [BitVec.toInt_eq_toNat_cond, if_pos (by omega)]
  rw [BitVec.saddOverflow, Bool.or_eq_true, decide_eq_true_eq, decide_eq_true_eq, hkval,
    BitVec.toInt_eq_toNat_cond]
  by_cases hlow : 2 * x.toNat < 2 ^ 32
  · rw [if_pos hlow]
    omega
  · rw [if_neg hlow]
    omega

end Mips32
