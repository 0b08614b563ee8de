import QDNix.Arm.Entry

/-!
# Clearing `.bss` on RISC-V

The loop of `_entry` in `riscv/entry.S`. The test in front of it, `bltu t1, t0, 2f`, skips it for an end below
the begin, but not for an empty section. So what the nRF52832 does with words, this port does with double
words (`clearsAsMemset_iff`), and here the stack may begin where the section ends.
-/

namespace QDNix.Riscv

open Memory

open Arm (TailZero memsetBss)

structure RvClear where
  t0 : BitVec 64
  t1 : BitVec 64
  mem : Memory 64

/-- `sd x0, (t0)` at an aligned address, `addi t0, t0, 8`, `bltu t0, t1, 1b` -/
def clearTurn (s : RvClear) : Option (RvClear × Bool) :=
  if s.t0.toNat % 8 = 0 then
    let mem := store 8 s.t0 0 s.mem
    let t0 := s.t0 + 8
    some ({ s with t0, mem }, t0.ult s.t1)
  else none

/-- `bltu t1, t0, 2f` and the loop. -/
def clearBss (fuel : ℕ) (s : RvClear) : Option RvClear :=
  if s.t1 < s.t0 then some s else Loop.run clearTurn fuel s

/-- `la t0, bss_begin`, `la t1, bss_end` -/
def clearStart (bssBegin bssEnd : BitVec 64) (mem : Memory 64) : RvClear := ⟨bssBegin, bssEnd, mem⟩

/-- The section as the linker script places it: aligned, and in RAM. -/
structure Placed (bssBegin bssEnd : BitVec 64) : Prop where
  aligned : bssBegin.toNat % 8 = 0
  low : 0x80100000 ≤ bssBegin.toNat
  le : bssBegin ≤ bssEnd
  high : bssEnd.toNat ≤ 0x80100000 + 0x7f00000

/-- The loop is left, with the memory that `memset` leaves. -/
def ClearsAsMemset (bssBegin bssEnd : BitVec 64) (mem : Memory 64) : Prop :=
  ∃ t, (∃ fuel, clearBss fuel (clearStart bssBegin bssEnd mem) = some t) ∧
    ∃ fuel, memsetBss fuel bssBegin bssEnd mem = some (bssBegin, t.mem)

variable {bssBegin bssEnd : BitVec 64} {mem : Memory 64}

/-- The state after `i` turns. -/
def cleared (bssBegin bssEnd : BitVec 64) (mem : Memory 64) (i : ℕ) : RvClear :=
  ⟨bssBegin + BitVec.ofNat 64 (8 * i), bssEnd, fill bssBegin (8 * i) 0 mem⟩

theorem clearTurn_cleared (h : Placed bssBegin bssEnd) {i : ℕ}
    (hi : i < Loop.strides 8 (bssEnd.toNat - bssBegin.toNat)) :
    clearTurn (cleared bssBegin bssEnd mem i) = some (cleared bssBegin bssEnd mem (i + 1),
      decide (8 * (i + 1) < bssEnd.toNat - bssBegin.toNat)) := by
  obtain ⟨halign, hlow, hle, hhigh⟩ := h
  have hle : bssBegin.toNat ≤ bssEnd.toNat := hle
  have hsmall : i ≤ 0x7f00000 := by
    unfold Loop.strides at hi
    omega
  have hmem : store 8 (bssBegin + BitVec.ofNat 64 (8 * i)) 0 (fill bssBegin (8 * i) 0 mem) =
      fill bssBegin (8 * (i + 1)) 0 mem := store_zero_fill (by omega)
  have hptr : bssBegin + BitVec.ofNat 64 (8 * i) + 8 = bssBegin + BitVec.ofNat 64 (8 * (i + 1)) := add_ofNat_add
  have hval : ∀ k ≤ i + 1, (bssBegin + BitVec.ofNat 64 (8 * k)).toNat = bssBegin.toNat + 8 * k :=
    fun k hk => toNat_add_ofNat (by omega)
  have htest : (bssBegin + BitVec.ofNat 64 (8 * (i + 1))).ult bssEnd =
      decide (8 * (i + 1) < bssEnd.toNat - bssBegin.toNat) := by
    rw [BitVec.ult, hval (i + 1) (by omega)]
    exact decide_eq_decide.mpr (by omega)
  rw [cleared, clearTurn, if_pos (by rw [hval i (by omega)]; omega)]
  simp only [hmem, hptr, htest]
  rfl

theorem clearsAsMemset_iff (h : Placed bssBegin bssEnd) :
    ClearsAsMemset bssBegin bssEnd mem ↔ TailZero 8 bssBegin bssEnd mem := by
  have hstart : cleared bssBegin bssEnd mem 0 = clearStart bssBegin bssEnd mem := by
    rw [cleared, Nat.mul_zero, fill, blit_zero, BitVec.add_zero]
    rfl
  have henter : ∀ fuel, clearBss fuel (clearStart bssBegin bssEnd mem) =
      Loop.run clearTurn fuel (clearStart bssBegin bssEnd mem) :=
    fun fuel => if_neg (BitVec.not_lt.mpr h.le)
  have hfit : 8 * Loop.strides 8 (bssEnd.toNat - bssBegin.toNat) ≤ 2 ^ 64 := by
    have := h.low
    have := h.high
    unfold Loop.strides
    omega
  unfold ClearsAsMemset
  simp only [henter]
  rw [← hstart]
  exact Arm.ends_as_memset_iff (by decide) h.le hfit (fun _ => rfl) fun i => clearTurn_cleared h

/-! ### Both ports -/

/-- The section of either port is cleared as `memset` clears it exactly if the bytes behind it that belong to
the last store are zero already. -/
theorem ports_clear_as_memset_iff {nrfBegin nrfEnd : BitVec 32} {bssBegin bssEnd : BitVec 64}
    (hnrf : Arm.Placed nrfBegin nrfEnd) (h : Placed bssBegin bssEnd) (nrfMem : Memory 32) (mem : Memory 64) :
    (Arm.ClearsAsMemset nrfBegin nrfEnd nrfMem ↔ TailZero 4 nrfBegin nrfEnd nrfMem) ∧
      (ClearsAsMemset bssBegin bssEnd mem ↔ TailZero 8 bssBegin bssEnd mem) :=
  ⟨Arm.clearsAsMemset_iff hnrf, clearsAsMemset_iff h⟩

theorem ports_clear_as_memset_iff_words :
    Arm.ClearsAsMemset 0x20000000 0x20000008 (fun _ => 0xFF) ∧
      ClearsAsMemset 0x80200000 0x80200010 (fun _ => 0xFF) := by
  have hnrf : Arm.Placed 0x20000000 0x20000008 := ⟨by decide, by decide, by decide, by decide⟩
  have hriscv : Placed 0x80200000 0x80200010 := ⟨by decide, by decide, by decide, by decide⟩
  obtain ⟨hwords, hdoubles⟩ := ports_clear_as_memset_iff hnrf hriscv (fun _ => 0xFF) (fun _ => 0xFF)
  refine ⟨hwords.mpr fun i hlow hhigh => ?_, hdoubles.mpr fun i hlow hhigh => ?_⟩
  · change 8 ≤ i at hlow
    change i < 8 at hhigh
    omega
  · change 16 ≤ i at hlow
    change i < 16 at hhigh
    omega

/-- A section of nRF52832 that ends inside a word, and an empty one of RISC-V. -/
theorem not_ports_clear_as_memset :
    Arm.Placed 0x20000000 0x20000005 ∧ ¬ Arm.ClearsAsMemset 0x20000000 0x20000005 (fun _ => 0xFF) ∧
      Placed 0x80200000 0x80200000 ∧ ¬ ClearsAsMemset 0x80200000 0x80200000 (fun _ => 0xFF) := by
  have hnrf : Arm.Placed 0x20000000 0x20000005 := ⟨by decide, by decide, by decide, by decide⟩
  have hriscv : Placed 0x80200000 0x80200000 := ⟨by decide, by decide, by decide, by decide⟩
  refine ⟨hnrf, fun h => ?_, hriscv, fun h => ?_⟩
  · exact absurd ((Arm.clearsAsMemset_iff hnrf).mp h 5 (by decide) (by decide)) (by decide)
  · exact absurd ((clearsAsMemset_iff hriscv).mp h 0 (by decide) (by decide)) (by decide)

end QDNix.Riscv
