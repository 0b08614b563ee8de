import Mathlib.Algebra.Group.Nat.Defs
import Mathlib.Logic.Function.Basic

/-!
# A little i386

The flat 32-bit machine as far as interrupt stubs use it: the general and segment registers, EFLAGS, byte
memory, pushes and pops, and programs as lists of instructions between labels. Loads of a segment register
do not fault, and the code is not in `mem`. `run` ends with `iret`, which yields the address it resumes at.

Proofs follow the stack as a list of words (`Cpu.Stack`), top first. It may lie anywhere, also across the
end of the address space; a push needs only that the words listed do not fill it (`Stack.push`).
-/

namespace X86

abbrev Word := BitVec 32

abbrev Selector := BitVec 16

inductive Reg
  | eax | ecx | edx | ebx | esp | ebp | esi | edi
deriving DecidableEq, Repr

inductive SReg
  | cs | ss | ds | es | fs | gs
deriving DecidableEq, Repr

structure Cpu where
  gpr : Reg → Word
  sreg : SReg → Selector
  eflags : Word
  mem : Word → BitVec 8

/-! ### Memory -/

/-- Little-endian. -/
def load32 (mem : Word → BitVec 8) (a : Word) : Word := mem (a + 3) ++ mem (a + 2) ++ mem (a + 1) ++ mem a

def store32 (mem : Word → BitVec 8) (a v : Word) : Word → BitVec 8 := fun x =>
  if (x - a).toNat < 4 then v.extractLsb' (8 * (x - a).toNat) 8 else mem x

theorem load32_store32 (mem : Word → BitVec 8) (a v : Word) : load32 (store32 mem a v) a = v := by
  have h0 : (a - a).toNat = 0 := by simp
  have h1 : (a + 1 - a).toNat = 1 := by bv_omega
  have h2 : (a + 2 - a).toNat = 2 := by bv_omega
  have h3 : (a + 3 - a).toNat = 3 := by bv_omega
  simp only [load32, store32, h0, h1, h2, h3]
  change v.extractLsb' 24 8 ++ v.extractLsb' 16 8 ++ v.extractLsb' 8 8 ++ v.extractLsb' 0 8 = v
  rw [BitVec.extractLsb'_append_extractLsb'_eq_extractLsb' (by rfl),
    BitVec.extractLsb'_append_extractLsb'_eq_extractLsb' (by rfl),
    BitVec.extractLsb'_append_extractLsb'_eq_extractLsb' (by rfl)]
  exact BitVec.extractLsb'_eq_self

theorem load32_store32_of_disjoint (mem : Word → BitVec 8) {a p : Word} (v : Word) (hlow : 4 ≤ (p - a).toNat)
    (hhigh : (p - a).toNat + 4 ≤ 2 ^ 32) : load32 (store32 mem a v) p = load32 mem p := by
  have hbyte : ∀ k : Nat, k < 4 → store32 mem a v (p + BitVec.ofNat 32 k) = mem (p + BitVec.ofNat 32 k) := by
    intro k hk
    have hfar : ¬ (p + BitVec.ofNat 32 k - a).toNat < 4 := by bv_omega
    rw [store32, if_neg hfar]
  have h0 : store32 mem a v p = mem p := by simpa using hbyte 0 (by omega)
  rw [load32, load32, h0]
  exact congrArg (fun w : BitVec 24 => (w ++ mem p : Word))
    (congrArg₂ _ (congrArg₂ _ (hbyte 3 (by omega)) (hbyte 2 (by omega))) (hbyte 1 (by omega)))

/-! ### Instructions -/

namespace Cpu

def set (s : Cpu) (r : Reg) (v : Word) : Cpu := { s with gpr := Function.update s.gpr r v }

def setSeg (s : Cpu) (r : SReg) (v : Selector) : Cpu := { s with sreg := Function.update s.sreg r v }

def push (s : Cpu) (v : Word) : Cpu :=
  { s with
    gpr := Function.update s.gpr .esp (s.gpr .esp - 4)
    mem := store32 s.mem (s.gpr .esp - 4) v }

/-- The word on top of the stack. -/
def top (s : Cpu) : Word := load32 s.mem (s.gpr .esp)

/-- The stack pointer moved up by `n` bytes. -/
def drop (s : Cpu) (n : Word) : Cpu := s.set .esp (s.gpr .esp + n)

variable (s : Cpu) (v n : Word)

@[simp] theorem esp_push : (s.push v).gpr .esp = s.gpr .esp - 4 := by simp [push]

theorem gpr_push {r : Reg} (h : r ≠ .esp) : (s.push v).gpr r = s.gpr r := Function.update_of_ne h ..

@[simp] theorem sreg_push : (s.push v).sreg = s.sreg := rfl

@[simp] theorem gpr_set (r : Reg) : (s.set r v).gpr r = v := by simp [set]

theorem gpr_set_of_ne {r r' : Reg} (h : r' ≠ r) : (s.set r v).gpr r' = s.gpr r' := Function.update_of_ne h ..

@[simp] theorem sreg_set (r : Reg) : (s.set r v).sreg = s.sreg := rfl

@[simp] theorem esp_drop : (s.drop n).gpr .esp = s.gpr .esp + n := gpr_set s _ _

theorem gpr_drop {r : Reg} (h : r ≠ .esp) : (s.drop n).gpr r = s.gpr r := gpr_set_of_ne s _ h

@[simp] theorem sreg_drop : (s.drop n).sreg = s.sreg := rfl

theorem drop_drop (m : Word) : (s.drop m).drop n = s.drop (m + n) := by
  simp only [drop, set, Function.update_self, Function.update_idem, BitVec.add_assoc]

/-- The registers in the order of `pusha`. -/
def order : List Reg := [.eax, .ecx, .edx, .ebx, .esp, .ebp, .esi, .edi]

def pushAll (regs : Reg → Word) (rs : List Reg) (s : Cpu) : Cpu := rs.foldl (fun t r => t.push (regs r)) s

/-- Pops into the registers listed, but for the stack pointer, whose word is skipped. -/
def popAll (rs : List Reg) (s : Cpu) : Cpu :=
  rs.foldl (fun t r => if r = .esp then t.drop 4 else (t.drop 4).set r t.top) s

/-- The stack pointer is pushed as it was before. -/
def pusha (s : Cpu) : Cpu := pushAll s.gpr order s

def popa (s : Cpu) : Cpu := popAll order.reverse s

end Cpu

/-- The low half of a register replaced. -/
def setLow (w : Word) (v : BitVec 16) : Word := w.extractLsb' 16 16 ++ v

@[simp] theorem setWidth_setLow (w : Word) (v : BitVec 16) : (setLow w v).setWidth 16 = v :=
  BitVec.setWidth_append_eq_right

/-- The flags of an addition: carry, parity, auxiliary carry, zero, sign and overflow. -/
def addFlags (eflags a b : Word) : Word :=
  let r := a + b
  let flag (k : Nat) (c : Bool) : Word := if c then 1 <<< k else 0
  (eflags &&& ~~~0x8D5) ||| flag 0 (BitVec.uaddOverflow a b) |||
    flag 2 ((List.range 8).countP r.getLsbD % 2 = 0) ||| flag 4 ((a ^^^ b ^^^ r).getLsbD 4) |||
    flag 6 (r = 0) ||| flag 7 r.msb ||| flag 11 (BitVec.saddOverflow a b)

inductive Instr (Λ : Type)
  | cli
  | pushImm (v : Word)
  | push (r : Reg)
  | pop (r : Reg)
  | pusha
  | popa
  | movFromSeg (r : Reg) (sr : SReg)
  | movImm16 (r : Reg) (v : BitVec 16)
  | movToSeg (sr : SReg) (r : Reg)
  | addImm (r : Reg) (v : Word)
  | jmp (l : Λ)
  | iret
deriving DecidableEq, Repr

variable {Λ : Type}

/-- What an instruction does to the machine; `jmp` and `iret` also leave the list, see `run`. -/
def exec : Instr Λ → Cpu → Cpu
  | .cli, s => { s with eflags := s.eflags &&& ~~~0x200 }
  | .pushImm v, s => s.push v
  | .push r, s => s.push (s.gpr r)
  | .pop r, s => (s.drop 4).set r s.top
  | .pusha, s => s.pusha
  | .popa, s => s.popa
  | .movFromSeg r sr, s => s.set r (setLow (s.gpr r) (s.sreg sr))
  | .movImm16 r v, s => s.set r (setLow (s.gpr r) v)
  | .movToSeg sr r, s => s.setSeg sr ((s.gpr r).setWidth 16)
  | .addImm r v, s => { s.set r (s.gpr r + v) with eflags := addFlags s.eflags (s.gpr r) v }
  | .jmp _, s => s
  | .iret, s => { (s.drop 12).setSeg .cs ((s.drop 4).top.setWidth 16) with eflags := (s.drop 8).top }

/-- Run from `is`; the result is the address an `iret` resumes at, and the machine then. -/
def run (code : Λ → List (Instr Λ)) : Nat → List (Instr Λ) → Cpu → Option (Word × Cpu)
  | 0, _, _ => none
  | _ + 1, [], _ => none
  | _ + 1, .iret :: _, s => some (s.top, exec (Λ := Λ) .iret s)
  | fuel + 1, .jmp l :: _, s => run code fuel (code l) s
  | fuel + 1, i :: is, s => run code fuel is (exec i s)

/-- Straight-line code, with neither `jmp` nor `iret`. -/
def execAll (is : List (Instr Λ)) (s : Cpu) : Cpu := is.foldl (fun t i => exec i t) s

def Instr.straight : Instr Λ → Bool
  | .jmp _ | .iret => false
  | _ => true

theorem run_straight (code : Λ → List (Instr Λ)) (is rest : List (Instr Λ)) (h : is.all Instr.straight = true)
    (s : Cpu) (fuel : Nat) : run code (is.length + fuel) (is ++ rest) s = run code fuel rest (execAll is s) := by
  induction is generalizing s with
  | nil => rw [List.length_nil, Nat.zero_add, List.nil_append, execAll, List.foldl_nil]
  | cons i is ih =>
    rw [List.all_cons, Bool.and_eq_true] at h
    have hstep : run code (is.length + fuel + 1) (i :: (is ++ rest)) s =
        run code (is.length + fuel) (is ++ rest) (exec i s) := by
      cases i <;> first | rfl | exact absurd h.1 Bool.false_ne_true
    rw [List.length_cons, Nat.add_right_comm, List.cons_append, hstep, ih h.2, execAll, execAll,
      List.foldl_cons]

theorem run_mono {code : Λ → List (Instr Λ)} {fuel : Nat} {is : List (Instr Λ)} {s : Cpu} {r : Word × Cpu}
    (h : run code fuel is s = some r) (k : Nat) : run code (fuel + k) is s = some r := by
  induction fuel generalizing is s with
  | zero => cases h
  | succ fuel ih =>
    rw [Nat.add_right_comm]
    cases is with
    | nil => cases h
    | cons i is => cases i <;> first | exact h | exact ih h

theorem run_unique {code : Λ → List (Instr Λ)} {fuel fuel' : Nat} {is : List (Instr Λ)} {s : Cpu}
    {r r' : Word × Cpu} (h : run code fuel is s = some r) (h' : run code fuel' is s = some r') : r = r' := by
  have hr := run_mono h fuel'
  rw [Nat.add_comm, run_mono h' fuel] at hr
  exact (Option.some.inj hr).symm

/-! ### The stack as a list -/

/-- The words `ws` from address `a` upwards. -/
def StackAt (mem : Word → BitVec 8) : Word → List Word → Prop
  | _, [] => True
  | a, w :: ws => load32 mem a = w ∧ StackAt mem (a + 4) ws

/-- `ws` lie on the stack, top first. -/
def Cpu.Stack (s : Cpu) (ws : List Word) : Prop := StackAt s.mem (s.gpr .esp) ws

theorem stackAt_store32 {mem : Word → BitVec 8} {a p : Word} {ws : List Word} (v : Word)
    (hlow : 4 ≤ (p - a).toNat) (hhigh : (p - a).toNat + 4 * ws.length ≤ 2 ^ 32) (h : StackAt mem p ws) :
    StackAt (store32 mem a v) p ws := by
  induction ws generalizing p with
  | nil => trivial
  | cons w ws ih =>
    rw [List.length_cons] at hhigh
    obtain ⟨hw, hws⟩ := h
    refine ⟨?_, ?_⟩
    · rw [load32_store32_of_disjoint mem v hlow (by omega), hw]
    · cases ws with
      | nil => trivial
      | cons w' ws =>
        rw [List.length_cons] at hhigh
        have hnext : (p + 4 - a).toNat = (p - a).toNat + 4 := by bv_omega
        exact ih (by omega) (by rw [List.length_cons]; omega) hws

namespace Cpu

variable {s : Cpu} {ws : List Word}

theorem Stack.push (h : s.Stack ws) (v : Word) (hroom : ws.length < 2 ^ 30) : (s.push v).Stack (v :: ws) := by
  have hoff : (s.gpr .esp - (s.gpr .esp - 4)).toNat = 4 := by bv_omega
  rw [Stack, esp_push]
  refine ⟨load32_store32 _ _ _, ?_⟩
  rw [BitVec.sub_add_cancel]
  exact stackAt_store32 v (by omega) (by omega) h

theorem Stack.top {w : Word} (h : s.Stack (w :: ws)) : s.top = w := h.1

theorem Stack.drop {w : Word} (h : s.Stack (w :: ws)) : (s.drop 4).Stack ws := by
  rw [Stack, esp_drop]
  exact h.2

theorem Stack.drop_two {w w' : Word} (h : s.Stack (w :: w' :: ws)) : (s.drop 8).Stack ws := by
  have hdrop := h.drop.drop
  rwa [drop_drop] at hdrop

theorem Stack.set (h : s.Stack ws) {r : Reg} (hr : r ≠ .esp) (v : Word) : (s.set r v).Stack ws := by
  rw [Stack, gpr_set_of_ne s v (Ne.symm hr)]
  exact h

theorem Stack.pushAll (h : s.Stack ws) (regs : Reg → Word) (rs : List Reg)
    (hroom : ws.length + rs.length ≤ 2 ^ 30) :
    (pushAll regs rs s).Stack ((rs.map regs).reverse ++ ws) ∧
      (pushAll regs rs s).gpr .esp = s.gpr .esp - 4 * BitVec.ofNat 32 rs.length ∧
      (∀ r ≠ .esp, (pushAll regs rs s).gpr r = s.gpr r) ∧ (pushAll regs rs s).sreg = s.sreg := by
  induction rs generalizing s ws with
  | nil => exact ⟨h, by simp [Cpu.pushAll], fun r _ => rfl, rfl⟩
  | cons r rs ih =>
    rw [List.length_cons] at hroom
    obtain ⟨hstack, hesp, hgpr, hsreg⟩ := ih (h.push (regs r) (by omega)) (by rw [List.length_cons]; omega)
    refine ⟨?_, ?_, fun r' hr' => ?_, hsreg⟩
    · rw [List.map_cons, List.reverse_cons, List.append_assoc, List.singleton_append]
      exact hstack
    · refine hesp.trans ?_
      rw [esp_push, List.length_cons]
      bv_omega
    · exact (hgpr r' hr').trans (gpr_push s _ hr')

theorem Stack.popAll (regs : Reg → Word) (rs : List Reg) (h : s.Stack (rs.map regs ++ ws)) :
    (popAll rs s).Stack ws ∧ (popAll rs s).gpr .esp = s.gpr .esp + 4 * BitVec.ofNat 32 rs.length ∧
      (∀ r ≠ .esp, (popAll rs s).gpr r = if r ∈ rs then regs r else s.gpr r) ∧ (popAll rs s).sreg = s.sreg := by
  induction rs generalizing s with
  | nil => exact ⟨h, by simp [Cpu.popAll], fun r _ => rfl, rfl⟩
  | cons r rs ih =>
    rw [List.map_cons, List.cons_append] at h
    by_cases hr : r = .esp
    · have hcons : Cpu.popAll (r :: rs) s = Cpu.popAll rs (s.drop 4) := by
        rw [Cpu.popAll, List.foldl_cons, if_pos hr, Cpu.popAll]
      obtain ⟨hstack, hesp, hgpr, hsreg⟩ := ih h.drop
      rw [hcons]
      refine ⟨hstack, ?_, fun r' hr' => ?_, hsreg⟩
      · rw [hesp, esp_drop, List.length_cons]
        bv_omega
      · have hne : r' ≠ r := fun heq => hr' (heq.trans hr)
        rw [hgpr r' hr', gpr_drop s 4 hr']
        simp [hne]
    · have hcons : Cpu.popAll (r :: rs) s = Cpu.popAll rs ((s.drop 4).set r s.top) := by
        rw [Cpu.popAll, List.foldl_cons, if_neg hr, Cpu.popAll]
      obtain ⟨hstack, hesp, hgpr, hsreg⟩ := ih (h.drop.set hr s.top)
      rw [hcons]
      refine ⟨hstack, ?_, fun r' hr' => ?_, hsreg⟩
      · rw [hesp, gpr_set_of_ne _ _ (Ne.symm hr), esp_drop, List.length_cons]
        bv_omega
      · rw [hgpr r' hr']
        by_cases hne : r' = r
        · rw [hne, gpr_set, h.top]
          simp
        · rw [gpr_set_of_ne _ _ hne, gpr_drop s 4 hr']
          simp [hne]

end Cpu

end X86
