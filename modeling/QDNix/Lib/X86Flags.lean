import QDNix.Lib.X86Setup

/-!
# The flags register on the stack

`pushf` and `popf` of 32 bits at privilege level 0, with the instructions that work on the word they leave
there. Which flags `popf` can change is a mask: with `0x247FD5` it is `popFlags`, a processor without the
identification flag has a smaller one.

`Pushed s₀ room ws s` follows a routine that keeps to its own stack frame: since `s₀` it has pushed the words
`ws`, and has written nowhere but to the `room` words below the stack pointer of `s₀`.
-/

namespace X86

/-- The identification flag. -/
def idFlag : Word := 0x200000

/-- The flags that arithmetic instructions set. -/
def arithMask : Word := 0x8D5

def resumeFlag : Word := 0x10000

/-- What `popf` makes of the flags where it can change those of `mask`. -/
def popMasked (mask eflags v : Word) : Word := (v &&& mask) ||| (eflags &&& ~~~(mask ||| resumeFlag))

/-- What `pushf` stores: RF and VM read as clear. -/
def flagsImage (eflags : Word) : Word := eflags &&& 0xFCFFFF

def andFlags (eflags a b : Word) : Word :=
  arithFlags eflags (resultFlags false (eflags.getLsbD 4) false (a &&& b))

theorem disjoint_bits {x y : Word} (h : x &&& y = 0) (k : ℕ) : (x.getLsbD k && y.getLsbD k) = false := by
  rw [← BitVec.getLsbD_and, h]
  exact BitVec.getLsbD_zero

theorem arithFlags_and_not (eflags new : Word) : arithFlags eflags new &&& ~~~arithMask = eflags &&& ~~~arithMask := by
  apply BitVec.eq_of_getLsbD_eq
  intro k hk
  simp only [arithFlags, arithMask, BitVec.getLsbD_and, BitVec.getLsbD_or, BitVec.getLsbD_not]
  grind

theorem popMasked_arithFlags {mask : Word} (hmask : arithMask &&& ~~~mask = 0) (eflags new v : Word) :
    popMasked mask (arithFlags eflags new) v = popMasked mask eflags v := by
  apply BitVec.eq_of_getLsbD_eq
  intro k hk
  have hbit := disjoint_bits hmask k
  simp only [arithMask, BitVec.getLsbD_not, hk, decide_true, Bool.true_and] at hbit
  simp only [popMasked, arithFlags, BitVec.getLsbD_and, BitVec.getLsbD_or, BitVec.getLsbD_not]
  grind

theorem popMasked_xor {f mask : Word} (hresume : f &&& resumeFlag = 0) (d : Word) :
    popMasked mask f (f ^^^ d) = f ^^^ (d &&& mask) := by
  apply BitVec.eq_of_getLsbD_eq
  intro k hk
  have hclear := disjoint_bits hresume k
  simp only [popMasked, BitVec.getLsbD_and, BitVec.getLsbD_or, BitVec.getLsbD_xor, BitVec.getLsbD_not, hk,
    decide_true, Bool.true_and]
  grind

/-- Loading the difference `d` instead of the flags gives these back exactly if they are `d` in every flag
that is loaded, the arithmetic ones apart. -/
theorem popMasked_diff_iff {f d mask : Word} (hresume : f &&& resumeFlag = 0) (hd : d &&& ~~~mask = 0) :
    popMasked mask (f ^^^ d) d &&& ~~~arithMask = f &&& ~~~arithMask ↔
      f &&& (mask &&& ~~~arithMask) = d &&& (mask &&& ~~~arithMask) := by
  generalize arithMask = arith
  have hclear := disjoint_bits hresume
  have hsub := disjoint_bits hd
  constructor
  · intro h
    apply BitVec.eq_of_getLsbD_eq
    intro k hk
    have heq := congrArg (fun w => w.getLsbD k) h
    have hclear := hclear k
    have hsub := hsub k
    simp only [popMasked, BitVec.getLsbD_and, BitVec.getLsbD_or, BitVec.getLsbD_xor, BitVec.getLsbD_not, hk,
      decide_true, Bool.true_and] at heq hsub ⊢
    grind
  · intro h
    apply BitVec.eq_of_getLsbD_eq
    intro k hk
    have heq := congrArg (fun w => w.getLsbD k) h
    have hclear := hclear k
    have hsub := hsub k
    simp only [popMasked, BitVec.getLsbD_and, BitVec.getLsbD_or, BitVec.getLsbD_xor, BitVec.getLsbD_not, hk,
      decide_true, Bool.true_and] at heq hsub ⊢
    grind

/-! ### Instructions -/

namespace Cpu

def pushf (s : Cpu) : Cpu := s.push (flagsImage s.eflags)

def popf (mask : Word) (s : Cpu) : Cpu := { s.drop 4 with eflags := popMasked mask s.eflags s.top }

def pop (r : Reg) (s : Cpu) : Cpu := (s.drop 4).set r s.top

/-- `xorl v, (%esp)` -/
def xorTop (v : Word) (s : Cpu) : Cpu :=
  { s with
    mem := store32 s.mem (s.gpr .esp) (s.top ^^^ v)
    eflags := xorFlags s.eflags s.top v }

/-- `andl v, r` -/
def andImm (r : Reg) (v : Word) (s : Cpu) : Cpu :=
  { s.set r (s.gpr r &&& v) with eflags := andFlags s.eflags (s.gpr r) v }

/-- `ret`: the address it goes to, and the machine there. -/
def ret (s : Cpu) : Word × Cpu := (s.top, s.drop 4)

variable (s : Cpu) (v : Word)

theorem gpr_popf (mask : Word) {r : Reg} (h : r ≠ .esp) : (s.popf mask).gpr r = s.gpr r := gpr_drop s 4 h

@[simp] theorem gpr_xorTop : (s.xorTop v).gpr = s.gpr := rfl

@[simp] theorem gpr_andImm (r : Reg) : (s.andImm r v).gpr = (s.set r (s.gpr r &&& v)).gpr := rfl

end Cpu

/-! ### A stack frame -/

/-- Since `s₀`, the words `ws` have been pushed, and no byte written but the `room` words below. -/
structure Pushed (s₀ : Cpu) (room : ℕ) (ws : List Word) (s : Cpu) : Prop where
  esp : s.gpr .esp = s₀.gpr .esp - BitVec.ofNat 32 (4 * ws.length)
  words : s.Stack ws
  frame : ∀ x, 4 * room ≤ (x - (s₀.gpr .esp - BitVec.ofNat 32 (4 * room))).toNat → s.mem x = s₀.mem x

namespace Pushed

variable {s₀ s s' : Cpu} {room : ℕ} {ws : List Word}

theorem refl (s₀ : Cpu) (room : ℕ) : Pushed s₀ room [] s₀ :=
  ⟨(BitVec.sub_zero _).symm, trivial, fun _ _ => rfl⟩

theorem congr (h : Pushed s₀ room ws s) (hesp : s'.gpr .esp = s.gpr .esp) (hmem : s'.mem = s.mem) :
    Pushed s₀ room ws s' :=
  ⟨hesp.trans h.esp, by rw [Cpu.Stack, hesp, hmem]; exact h.words, fun x hx => by rw [hmem]; exact h.frame x hx⟩

theorem push (h : Pushed s₀ room ws s) (v : Word) (hlen : ws.length < room) (hroom : room < 2 ^ 30) :
    Pushed s₀ room (v :: ws) (s.push v) := by
  obtain ⟨hesp, hwords, hframe⟩ := h
  refine ⟨?_, hwords.push v (by omega), fun x hx => ?_⟩
  · rw [Cpu.esp_push, hesp, List.length_cons]
    bv_omega
  · rw [← hframe x hx]
    refine if_neg ?_
    rw [hesp]
    bv_omega

theorem drop {w : Word} (h : Pushed s₀ room (w :: ws) s) : Pushed s₀ room ws (s.drop 4) := by
  obtain ⟨hesp, hwords, hframe⟩ := h
  refine ⟨?_, hwords.drop, hframe⟩
  rw [Cpu.esp_drop, hesp, List.length_cons]
  bv_omega

theorem top {w : Word} (h : Pushed s₀ room (w :: ws) s) : s.top = w := h.words.top

theorem pushf (h : Pushed s₀ room ws s) (hlen : ws.length < room) (hroom : room < 2 ^ 30) :
    Pushed s₀ room (flagsImage s.eflags :: ws) s.pushf := h.push _ hlen hroom

theorem popf {w : Word} (h : Pushed s₀ room (w :: ws) s) (mask : Word) : Pushed s₀ room ws (s.popf mask) :=
  h.drop.congr rfl rfl

theorem pop {w : Word} (h : Pushed s₀ room (w :: ws) s) {r : Reg} (hr : r ≠ .esp) : Pushed s₀ room ws (s.pop r) :=
  h.drop.congr (Cpu.gpr_set_of_ne _ _ hr.symm) rfl

theorem xorTop {w : Word} (h : Pushed s₀ room (w :: ws) s) (v : Word) (hlen : ws.length < room)
    (hroom : room < 2 ^ 30) : Pushed s₀ room ((w ^^^ v) :: ws) (s.xorTop v) := by
  have hback : s.gpr .esp + 4 - 4 = s.gpr .esp := BitVec.add_sub_cancel ..
  refine (h.drop.push (w ^^^ v) hlen hroom).congr ?_ ?_
  · rw [Cpu.esp_push, Cpu.esp_drop, hback]
    rfl
  · rw [Cpu.push, Cpu.esp_drop, hback, ← h.top]
    rfl

theorem top_start (h : Pushed s₀ room [] s) (hroom : room < 2 ^ 30) : s.top = s₀.top := by
  have hesp : s.gpr .esp = s₀.gpr .esp := h.esp.trans (BitVec.sub_zero _)
  have hbyte : ∀ k < 4, s.mem (s₀.gpr .esp + BitVec.ofNat 32 k) = s₀.mem (s₀.gpr .esp + BitVec.ofNat 32 k) :=
    fun k hk => h.frame _ (by bv_omega)
  have h0 : s.mem (s₀.gpr .esp) = s₀.mem (s₀.gpr .esp) := by simpa using hbyte 0 (by omega)
  rw [Cpu.top, Cpu.top, hesp, load32, load32, h0]
  exact congrArg (fun w : BitVec 24 => (w ++ s₀.mem (s₀.gpr .esp) : Word))
    (congrArg₂ _ (congrArg₂ _ (hbyte 3 (by omega)) (hbyte 2 (by omega))) (hbyte 1 (by omega)))

end Pushed

end X86
