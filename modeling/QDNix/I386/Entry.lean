import QDNix.Lib.X86Setup

/-!
# The hand-off of the boot loader on the i386

`_entry` of `sys/i386/entry.S`, up to its first call. The loader's EAX and EBX survive the new flags, the new
stack and the clearing of the bss, and `arch_init` finds them as its arguments (`entry_handsOff`).

The code is not in the machine's memory; no store goes outside the bss and the boot stack, so it need only
lie apart from these.
-/

namespace QDNix.I386

open X86

/-- The functions `_entry` calls. -/
inductive Callee
  | archInit | kernMain
deriving DecidableEq, Repr

/-- `a` lies in `[lo, hi)`. -/
def InRange (lo hi a : Word) : Prop := lo.toNat ≤ a.toNat ∧ a.toNat < hi.toNat

instance (lo hi a : Word) : Decidable (InRange lo hi a) := inferInstanceAs (Decidable (_ ∧ _))

/-- Where the linker puts the boot stack and the bss. -/
structure Layout where
  stackBottom : Word
  bssBegin : Word
  bssEnd : Word
  stack_fits : stackBottom.toNat + 16384 < 2 ^ 32
  bss_le : bssBegin.toNat ≤ bssEnd.toNat
  disjoint : ∀ a, InRange bssBegin bssEnd a → ¬ InRange stackBottom (stackBottom + 16384) a

namespace Layout

/-- The label behind the 16384 bytes of the stack. -/
def stackTop (l : Layout) : Word := l.stackBottom + 16384

def InStack (l : Layout) (a : Word) : Prop := InRange l.stackBottom l.stackTop a

def InBss (l : Layout) (a : Word) : Prop := InRange l.bssBegin l.bssEnd a

instance (l : Layout) (a : Word) : Decidable (l.InBss a) := inferInstanceAs (Decidable (InRange _ _ _))

/-- The stack below the kernel proper, a page of bss above it. -/
instance : Inhabited Layout where
  default := {
    stackBottom := 0x100088
    bssBegin := 0xC0204000
    bssEnd := 0xC0205000
    stack_fits := by decide
    bss_le := by decide
    disjoint := by
      intro a hbss hstack
      have hlow : 0xC0204000 ≤ a.toNat := hbss.1
      have hhigh : a.toNat < 0x104088 := hstack.2
      omega }

end Layout

/-- `_entry` -/
def entry (l : Layout) : List (SetupInstr Callee) :=
  [.movImm .esp l.stackTop,
    .movImm .ebp 0,
    .base (.pushImm 0),
    .popf,
    .base (.pushImm 0),
    .mov .edx .eax, -- save boot magic
    .base .cli,
    .xor .eax .eax,
    .movImm .edi l.bssBegin,
    .movImm .ecx l.bssEnd,
    .sub .ecx .edi,
    .cld,
    .repStosb,
    .base (.push .ebx), -- boot info
    .base (.push .edx), -- magic
    .call .archInit,
    .call .kernMain,
    .base .cli]

/-- `t` is the machine `s` handed to a function: EAX and EBX are its arguments, the stack lies in the boot
stack, interrupts and the direction flag are off, the bss is zero and nothing else has changed. -/
structure HandsOff (l : Layout) (s t : Cpu) : Prop where
  magic : load32 t.mem (t.gpr .esp + 4) = s.gpr .eax
  bootInfo : load32 t.mem (t.gpr .esp + 8) = s.gpr .ebx
  esp : l.InStack (t.gpr .esp)
  interrupts : interruptFlag t.eflags = false
  direction : directionFlag t.eflags = false
  bss : ∀ a, l.InBss a → t.mem a = 0
  frame : ∀ a, ¬ l.InBss a → ¬ l.InStack a → t.mem a = s.mem a

namespace Layout

variable (l : Layout)

theorem push_mem {s : Cpu} {k : Nat} (hk : k + 4 ≤ 16384) (hesp : s.gpr .esp = l.stackTop - BitVec.ofNat 32 k)
    (v : Word) {a : Word} (ha : ¬ l.InStack a) : (s.push v).mem a = s.mem a := by
  have hfits := l.stack_fits
  have hfar : ¬ (a - (s.gpr .esp - 4)).toNat < 4 := by
    intro hnear
    apply ha
    simp only [InStack, InRange, hesp, stackTop] at hnear ⊢
    bv_omega
  exact if_neg hfar

theorem inStack_top {k : Nat} (hk : 0 < k) (hle : k ≤ 16384) : l.InStack (l.stackTop - BitVec.ofNat 32 k) := by
  have hfits := l.stack_fits
  simp only [InStack, InRange, stackTop]
  bv_omega

theorem inBss_iff (a : Word) : (a - l.bssBegin).toNat < (l.bssEnd - l.bssBegin).toNat ↔ l.InBss a := by
  have hle := l.bss_le
  simp only [InBss, InRange]
  bv_omega

end Layout

/-! ### Up to the string store -/

/-- The machine in front of `rep stosb`. -/
def beforeClear (l : Layout) (s : Cpu) : Cpu := ((entry l).take 12).foldl (fun t i => i.exec t) s

/-- What is set up there: the loader's values in EDX and EBX, the range to clear, one word on the stack. -/
structure SetUp (l : Layout) (s c : Cpu) : Prop where
  eax : c.gpr .eax = 0
  ebx : c.gpr .ebx = s.gpr .ebx
  edx : c.gpr .edx = s.gpr .eax
  edi : c.gpr .edi = l.bssBegin
  ecx : c.gpr .ecx = l.bssEnd - l.bssBegin
  esp : c.gpr .esp = l.stackTop - BitVec.ofNat 32 4
  interrupts : interruptFlag c.eflags = false
  direction : directionFlag c.eflags = false
  frame : ∀ a, ¬ l.InStack a → c.mem a = s.mem a

theorem beforeClear_setUp (l : Layout) (s : Cpu) : SetUp l s (beforeClear l s) := by
  let s₁ := (s.set .esp l.stackTop).set .ebp 0
  let s₂ := s₁.push 0
  let s₃ := { s₂.drop 4 with eflags := popFlags s₂.eflags s₂.top }
  let f := s₃.eflags &&& ~~~0x200
  have hesp₃ : s₃.gpr .esp = l.stackTop - BitVec.ofNat 32 0 := by
    show s₁.gpr .esp - 4 + 4 = _
    rw [BitVec.sub_add_cancel]
    exact (BitVec.sub_zero _).symm
  have heflags : (beforeClear l s).eflags =
      subFlags (xorFlags f (s.gpr .eax) (s.gpr .eax)) l.bssEnd l.bssBegin &&& ~~~0x400 := rfl
  refine ⟨BitVec.xor_self, rfl, rfl, rfl, rfl, ?_, ?_, ?_, fun a ha => ?_⟩
  · show s₃.gpr .esp - 4 = _
    rw [hesp₃]
    bv_omega
  · have hcli : interruptFlag f = false := by
      simp only [f, interruptFlag, BitVec.getLsbD_and, BitVec.getLsbD_not]
      simp
    rw [heflags]
    simp only [interruptFlag, BitVec.getLsbD_and]
    have hsub := (interruptFlag_subFlags (xorFlags f (s.gpr .eax) (s.gpr .eax)) l.bssEnd l.bssBegin).trans
      ((interruptFlag_xorFlags f _ _).trans hcli)
    rw [interruptFlag] at hsub
    rw [hsub, Bool.false_and]
  · rw [heflags]
    simp only [directionFlag, BitVec.getLsbD_and, BitVec.getLsbD_not]
    simp
  · have hesp₁ : s₁.gpr .esp = l.stackTop - BitVec.ofNat 32 0 := (BitVec.sub_zero _).symm
    calc (beforeClear l s).mem a = (s₃.push 0).mem a := rfl
      _ = s₃.mem a := l.push_mem (by decide) hesp₃ 0 ha
      _ = (s₁.push 0).mem a := rfl
      _ = s.mem a := l.push_mem (by decide) hesp₁ 0 ha

/-! ### The call -/

/-- **The loader's values are handed to `arch_init`.** -/
theorem entry_handsOff (l : Layout) (ret : Word) (s : Cpu) :
    ∃ t, runToCall ret (entry l) s = some (.archInit, t) ∧ HandsOff l s t := by
  have hset := beforeClear_setUp l s
  let c := beforeClear l s
  let n := (c.gpr .ecx).toNat
  let r := c.repStosb n
  obtain ⟨hgpr, hflags, hmem⟩ := Cpu.repStosb_spec n (Nat.le_of_lt (c.gpr .ecx).isLt) c hset.direction
  have hesp : r.gpr .esp = l.stackTop - BitVec.ofNat 32 4 := (hgpr .esp (by decide) (by decide)).trans hset.esp
  let t := ((r.push (r.gpr .ebx)).push (r.gpr .edx)).push ret
  have hesp₁ : (r.push (r.gpr .ebx)).gpr .esp = l.stackTop - BitVec.ofNat 32 8 := by
    rw [Cpu.esp_push, hesp]
    bv_omega
  have hesp₂ : ((r.push (r.gpr .ebx)).push (r.gpr .edx)).gpr .esp = l.stackTop - BitVec.ofNat 32 12 := by
    rw [Cpu.esp_push, hesp₁]
    bv_omega
  have hesp₃ : t.gpr .esp = l.stackTop - BitVec.ofNat 32 16 := by
    rw [Cpu.esp_push, hesp₂]
    bv_omega
  have hstack : t.Stack [ret, r.gpr .edx, r.gpr .ebx] := by
    have hnil : r.Stack [] := trivial
    exact ((hnil.push _ (by simp)).push _ (by simp)).push _ (by simp)
  have htop : ∀ a, ¬ l.InStack a → t.mem a = r.mem a := fun a ha =>
    calc t.mem a = ((r.push (r.gpr .ebx)).push (r.gpr .edx)).mem a := l.push_mem (by decide) hesp₂ ret ha
      _ = (r.push (r.gpr .ebx)).mem a := l.push_mem (by decide) hesp₁ _ ha
      _ = r.mem a := l.push_mem (by decide) hesp _ ha
  have hclear : ∀ a, r.mem a = if l.InBss a then 0 else c.mem a := by
    intro a
    rw [hmem a, hset.edi, hset.eax]
    have hiff : (a - l.bssBegin).toNat < n ↔ l.InBss a := by
      rw [← l.inBss_iff, ← hset.ecx]
    simp only [hiff]
    rfl
  refine ⟨t, rfl, ?_, ?_, ?_, ?_, ?_, fun a ha => ?_, fun a hbss ha => ?_⟩
  · rw [hstack.2.1, hgpr .edx (by decide) (by decide), hset.edx]
  · have hbelow : t.gpr .esp + 8 = t.gpr .esp + 4 + 4 := by bv_omega
    rw [hbelow, hstack.2.2.1, hgpr .ebx (by decide) (by decide), hset.ebx]
  · rw [hesp₃]
    exact l.inStack_top (by decide) (by decide)
  · rw [show t.eflags = c.eflags from hflags]
    exact hset.interrupts
  · rw [show t.eflags = c.eflags from hflags]
    exact hset.direction
  · rw [htop a (l.disjoint a ha), hclear, if_pos ha]
  · rw [htop a ha, hclear, if_neg hbss, hset.frame a ha]

theorem entry_handsOff_default :
    let s : Cpu := ⟨fun r => if r = .eax then 0x2BADB002 else 0x9500, fun _ => 0x18, 0x2, fun _ => 0xFF⟩
    ∃ t, runToCall 0xC0200040 (entry default) s = some (.archInit, t) ∧
      load32 t.mem (t.gpr .esp + 4) = 0x2BADB002 ∧ load32 t.mem (t.gpr .esp + 8) = 0x9500 := by
  intro s
  obtain ⟨t, hrun, h⟩ := entry_handsOff default 0xC0200040 s
  exact ⟨t, hrun, h.magic, h.bootInfo⟩

end QDNix.I386
