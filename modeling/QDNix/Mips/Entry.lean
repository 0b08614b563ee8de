import QDNix.Lib.Loop
import QDNix.Lib.Mips
import Mathlib.Tactic.Common

/-!
# Clearing `.bss` on MIPS

The loop of `_entry` in `mips/entry.S`. The store comes before the test, and the pointer that is compared
with `bss_end` is the address just stored to. So from an aligned `bss_begin` the last word cleared is the one
at an aligned `bss_end`, outside the section; any other `bss_end` is passed without being met, and the loop
is never left. Nor is it when the pointer steps past the largest signed word, where `addi` takes an
exception. `clearsBss_iff` is the exact condition.
-/

namespace QDNix.Mips

open Mips32 Memory

/-- The loop at `1:` once round. The delay slot is executed whether or not the branch is taken. -/
def clearTurn (s : Cpu) : Option (Cpu × Bool) := do
  let s ← s.sw .zero 0 .a0
  let again := s.bne .a3 .a0
  let s ← s.addi .a0 .a0 4
  return (s, again)

/-- `la $a0, bss_begin`, `la $a3, bss_end` -/
def clearStart (bssBegin bssEnd : Word) (s : Cpu) : Cpu := (s.set .a0 bssBegin).set .a3 bssEnd

/-- The clearing loop is left, every byte from `bss_begin` up to `bss_end` is zero then, and no other byte
has changed. -/
def ClearsBss (bssBegin bssEnd : Word) (s : Cpu) : Prop :=
  ∃ t, Loop.Ends clearTurn (clearStart bssBegin bssEnd s) t ∧
    (∀ x, bssBegin ≤ x → x < bssEnd → t.mem x = 0) ∧ ∀ x, ¬ (bssBegin ≤ x ∧ x < bssEnd) → t.mem x = s.mem x

/-- The state with `k` bytes cleared. -/
def cleared (bssBegin bssEnd : Word) (s : Cpu) (k : ℕ) : Cpu :=
  { (s.set .a3 bssEnd).set .a0 (bssBegin + BitVec.ofNat 32 k) with mem := fill bssBegin k 0 s.mem }

variable {bssBegin bssEnd : Word} {s : Cpu}

@[simp] theorem get_a0_cleared (k : ℕ) :
    (cleared bssBegin bssEnd s k).get .a0 = bssBegin + BitVec.ofNat 32 k := rfl

@[simp] theorem get_a3_cleared (k : ℕ) : (cleared bssBegin bssEnd s k).get .a3 = bssEnd := rfl

theorem cleared_zero : cleared bssBegin bssEnd s 0 = clearStart bssBegin bssEnd s := by
  rw [cleared, clearStart, fill, blit_zero, BitVec.add_zero]
  rw [Cpu.set, Cpu.set, Function.update_comm (by decide)]
  rfl

theorem clearTurn_eq (halign : (s.get .a0).toNat % 4 = 0) :
    clearTurn s = if (s.get .a0).toNat = 0x7FFFFFFC then none else
      some (Cpu.set { s with mem := store 4 (s.get .a0) 0 s.mem } .a0 (s.get .a0 + 4),
        decide (s.get .a3 ≠ s.get .a0)) := by
  obtain ⟨s₁, hs₁⟩ : ∃ s₁, s₁ = { s with mem := store 4 (s.get .a0) 0 s.mem } := ⟨_, rfl⟩
  have hsw : s.sw .zero 0 .a0 = some s₁ := by
    have haddr : s.get .a0 + 0 = s.get .a0 := BitVec.add_zero _
    rw [Cpu.sw, haddr, if_pos halign, hs₁]
    rfl
  have hget : ∀ r, s₁.get r = s.get r := by
    intro r
    rw [hs₁]
    rfl
  have htrap : BitVec.saddOverflow (s₁.get .a0) 4 = true ↔ (s.get .a0).toNat = 0x7FFFFFFC := by
    rw [hget, saddOverflow_iff (by decide)]
    change _ ∧ _ ≤ _ + 4 ↔ _
    omega
  rw [← hs₁, clearTurn, hsw]
  by_cases h : (s.get .a0).toNat = 0x7FFFFFFC
  · have haddi : s₁.addi .a0 .a0 4 = none := if_pos (htrap.mpr h)
    rw [if_pos h]
    change s₁.addi .a0 .a0 4 >>= _ = _
    rw [haddi]
    rfl
  · have haddi : s₁.addi .a0 .a0 4 = some (s₁.set .a0 (s.get .a0 + 4)) := by
      rw [Cpu.addi, if_neg (mt htrap.mp h), hget]
    rw [if_neg h]
    change s₁.addi .a0 .a0 4 >>= _ = _
    rw [haddi, ← hget .a3, ← hget .a0]
    rfl

theorem clearTurn_cleared {k : ℕ} (halign : (bssBegin.toNat + k) % 4 = 0) (hfit : bssBegin.toNat + k < 2 ^ 32) :
    clearTurn (cleared bssBegin bssEnd s k) = if bssBegin.toNat + k = 0x7FFFFFFC then none else
      some (cleared bssBegin bssEnd s (k + 4), decide (bssEnd.toNat ≠ bssBegin.toNat + k)) := by
  have hptr : (bssBegin + BitVec.ofNat 32 k).toNat = bssBegin.toNat + k := toNat_add_ofNat hfit
  have hstate : Cpu.set { cleared bssBegin bssEnd s k with
        mem := store 4 (bssBegin + BitVec.ofNat 32 k) 0 (cleared bssBegin bssEnd s k).mem } .a0
        (bssBegin + BitVec.ofNat 32 k + 4) = cleared bssBegin bssEnd s (k + 4) := by
    have hmem : store 4 (bssBegin + BitVec.ofNat 32 k) 0 (cleared bssBegin bssEnd s k).mem =
        fill bssBegin (k + 4) 0 s.mem := store_zero_fill (by omega)
    have hnext : bssBegin + BitVec.ofNat 32 k + 4 = bssBegin + BitVec.ofNat 32 (k + 4) := add_ofNat_add
    rw [hmem, hnext]
    simp only [cleared, Cpu.set, Function.update_idem]
  have htest : bssEnd ≠ bssBegin + BitVec.ofNat 32 k ↔ bssEnd.toNat ≠ bssBegin.toNat + k := by
    rw [← hptr]
    exact not_congr BitVec.toNat_inj.symm
  rw [clearTurn_eq (by rw [get_a0_cleared, hptr]; exact halign), get_a0_cleared, get_a3_cleared, hptr, hstate]
  simp only [htest]

/-! ### Where the loop is left -/

theorem not_ends_of_unaligned {t : Cpu} (halign : bssBegin.toNat % 4 = 0) (hend : bssEnd.toNat % 4 ≠ 0) :
    ¬ Loop.Ends clearTurn (clearStart bssBegin bssEnd s) t := by
  apply Loop.not_ends (I := fun s => (s.get .a0).toNat % 4 = 0 ∧ s.get .a3 = bssEnd)
  · rintro s ⟨hptr, hstop⟩
    rw [clearTurn_eq hptr]
    split
    · exact .inl rfl
    · refine .inr ⟨_, congrArg (fun again => some (_, again)) (decide_eq_true fun heq => ?_), ?_, hstop⟩
      · exact hend (hstop ▸ heq ▸ hptr)
      · change (s.get .a0 + BitVec.ofNat 32 4).toNat % 4 = 0
        rw [BitVec.toNat_add, BitVec.toNat_ofNat]
        omega
  · exact ⟨halign, rfl⟩

/-- A pointer that reaches the largest aligned signed word takes the exception there. -/
theorem not_ends_of_overflow {t : Cpu} (halign : bssBegin.toNat % 4 = 0) (hbegin : bssBegin.toNat ≤ 0x7FFFFFFC)
    (hend : 0x7FFFFFFC ≤ bssEnd.toNat) : ¬ Loop.Ends clearTurn (clearStart bssBegin bssEnd s) t := by
  obtain ⟨n, hn⟩ : ∃ n, bssBegin.toNat + 4 * n = 0x7FFFFFFC := ⟨(0x7FFFFFFC - bssBegin.toNat) / 4, by omega⟩
  rw [← cleared_zero, show 0 = 4 * 0 from rfl,
    Loop.ends_iff_counted (S := fun i => cleared bssBegin bssEnd s (4 * i)) (n := n)]
  · apply Loop.not_ends_of_stuck
    rw [clearTurn_cleared (by omega) (by omega), if_pos hn]
  · intro i hi
    rw [clearTurn_cleared (by omega) (by omega), if_neg (by omega), decide_eq_true (by omega)]
    rfl

theorem ends_cleared (halign : bssBegin.toNat % 4 = 0) (hend : bssEnd.toNat % 4 = 0)
    (hle : bssBegin.toNat ≤ bssEnd.toNat) (hsafe : bssEnd.toNat < 0x7FFFFFFC ∨ 0x7FFFFFFC < bssBegin.toNat) :
    Loop.Ends clearTurn (clearStart bssBegin bssEnd s)
      (cleared bssBegin bssEnd s (bssEnd.toNat - bssBegin.toNat + 4)) := by
  have hlt := bssEnd.isLt
  obtain ⟨n, hn⟩ : ∃ n, bssEnd.toNat - bssBegin.toNat = 4 * n := ⟨(bssEnd.toNat - bssBegin.toNat) / 4, by omega⟩
  rw [hn, ← cleared_zero]
  apply Loop.ends_counted (S := fun i => cleared bssBegin bssEnd s (4 * i)) (n := n)
  · intro i hi
    rw [clearTurn_cleared (by omega) (by omega), if_neg (by omega), decide_eq_true (by omega)]
    rfl
  · rw [clearTurn_cleared (by omega) (by omega), if_neg (by omega), decide_eq_false (by omega)]

theorem clearsBss_iff_of_safe (halign : bssBegin.toNat % 4 = 0) (hend : bssEnd.toNat % 4 = 0)
    (hle : bssBegin.toNat ≤ bssEnd.toNat) (hsafe : bssEnd.toNat < 0x7FFFFFFC ∨ 0x7FFFFFFC < bssBegin.toNat) :
    ClearsBss bssBegin bssEnd s ↔ ∀ i < 4, s.mem (bssEnd + BitVec.ofNat 32 i) = 0 := by
  have hlt := bssEnd.isLt
  obtain ⟨n, hn⟩ : ∃ n, bssEnd.toNat = bssBegin.toNat + n := ⟨bssEnd.toNat - bssBegin.toNat, by omega⟩
  have hends := ends_cleared (s := s) halign hend hle hsafe
  rw [show bssEnd.toNat - bssBegin.toNat = n by omega] at hends
  have hrange : ∀ x : Word, bssBegin ≤ x ∧ x < bssEnd ↔ (x - bssBegin).toNat < n := by
    intro x
    rw [toNat_sub_lt_iff (by omega), Within, ← hn]
    rfl
  have hfill : ClearsBss bssBegin bssEnd s ↔ fill bssBegin (n + 4) 0 s.mem = fill bssBegin n 0 s.mem := by
    constructor
    · rintro ⟨t, ht, hzero, hframe⟩
      rw [← show t.mem = fill bssBegin (n + 4) 0 s.mem from congrArg Cpu.mem (ht.unique hends)]
      funext x
      by_cases hx : (x - bssBegin).toNat < n
      · exact (hzero x ((hrange x).mpr hx).1 ((hrange x).mpr hx).2).trans (blit_of_lt (f := fun _ => 0) hx).symm
      · exact (hframe x (mt (hrange x).mp hx)).trans (blit_of_not hx).symm
    · intro heq
      refine ⟨_, hends, fun x hlow hhigh => ?_, fun x hx => ?_⟩
      · exact (congrFun heq x).trans (blit_of_lt (f := fun _ => 0) ((hrange x).mp ⟨hlow, hhigh⟩))
      · exact (congrFun heq x).trans (blit_of_not (mt (hrange x).mpr hx))
  have hword : ∀ i, bssBegin + BitVec.ofNat 32 (n + i) = bssEnd + BitVec.ofNat 32 i := by
    intro i
    rw [← add_ofNat_add, show bssBegin + BitVec.ofNat 32 n = bssEnd from
      BitVec.eq_of_toNat_eq (by rw [toNat_add_ofNat (by omega), hn])]
  rw [hfill, fill, fill, blit_eq_blit_iff (by omega)]
  simp only [hword]

/-- The section ends on a word boundary, the pointer does not reach the largest aligned signed word, and the
word at `bss_end` is zero already. -/
structure EndsOnZeroWord (bssBegin bssEnd : Word) (s : Cpu) : Prop where
  aligned : bssEnd.toNat % 4 = 0
  safe : bssEnd.toNat < 0x7FFFFFFC ∨ 0x7FFFFFFC < bssBegin.toNat
  zero : ∀ i < 4, s.mem (bssEnd + BitVec.ofNat 32 i) = 0

theorem clearsBss_iff (halign : bssBegin.toNat % 4 = 0) (hle : bssBegin ≤ bssEnd) :
    ClearsBss bssBegin bssEnd s ↔ EndsOnZeroWord bssBegin bssEnd s := by
  constructor
  · rintro ⟨t, hends, hzero, hframe⟩
    have hend : bssEnd.toNat % 4 = 0 := by
      by_contra h
      exact not_ends_of_unaligned halign h hends
    have hsafe : bssEnd.toNat < 0x7FFFFFFC ∨ 0x7FFFFFFC < bssBegin.toNat := by
      by_contra h
      exact not_ends_of_overflow halign (by omega) (by omega) hends
    exact ⟨hend, hsafe, (clearsBss_iff_of_safe halign hend hle hsafe).mp ⟨t, hends, hzero, hframe⟩⟩
  · rintro ⟨hend, hsafe, hzero⟩
    exact (clearsBss_iff_of_safe halign hend hle hsafe).mpr hzero

/-- A processor whose memory holds one byte throughout. -/
def uniform (b : BitVec 8) : Cpu := ⟨fun _ => 0, fun _ => b, fun _ => 0, fun _ => ⟨0, 0, 0, 0⟩, []⟩

theorem clearsBss_iff_zeroed :
    (0x80100000 : Word).toNat % 4 = 0 ∧ (0x80100000 : Word) ≤ 0x80100008 ∧
      ClearsBss 0x80100000 0x80100008 (uniform 0) :=
  ⟨by decide, by decide, (clearsBss_iff (by decide) (by decide)).mpr
    ⟨by decide, .inr (by decide), fun _ _ => rfl⟩⟩

/-- The word behind a section of one word is cleared too. -/
theorem not_clearsBss_word :
    (0x80100000 : Word).toNat % 4 = 0 ∧ (0x80100000 : Word) ≤ 0x80100004 ∧
      ¬ ClearsBss 0x80100000 0x80100004 (uniform 0xFF) := by
  refine ⟨by decide, by decide, fun h => ?_⟩
  have hzero := (clearsBss_iff_of_safe (by decide) (by decide) (by decide) (.inr (by decide))).mp h 0 (by decide)
  exact absurd hzero (by decide)

end QDNix.Mips
