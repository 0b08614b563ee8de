import QDNix.Libkern.String

/-!
# Clearing `.bss` on ARM

The entries of two boards. The Cortex-A7 calls `memset`; the nRF52832 stores words in a loop of its own, that
stores before it tests and compares signed addresses. The addresses of its RAM are positive, so the
comparison is right, but the loop clears a word of an empty section, and what is left of the last word of
any other. So the two agree exactly when these bytes were zero (`clearsAsMemset_iff`).
-/

namespace QDNix.Arm

open Libkern Memory

/-! ### Cortex-A7 -/

/-- `sub r2, r1, r0`, `mov r1, #0`, `bl memset` of the Cortex-A7, for any width of address. -/
def memsetBss {W : ℕ} (fuel : ℕ) (bssBegin bssEnd : BitVec W) (mem : Memory W) : Option (BitVec W × Memory W) :=
  memset fuel bssBegin 0 (bssEnd - bssBegin) mem

/-- The bytes from `bss_end` on, up to the end of the last store of `w` bytes, are zero. -/
def TailZero {W : ℕ} (w : ℕ) (bssBegin bssEnd : BitVec W) (mem : Memory W) : Prop :=
  ∀ i, bssEnd.toNat - bssBegin.toNat ≤ i → i < w * Loop.strides w (bssEnd.toNat - bssBegin.toNat) →
    mem (bssBegin + BitVec.ofNat W i) = 0

section Compare

variable {W : ℕ} {bssBegin bssEnd : BitVec W} {mem mem' : Memory W}

theorem toNat_bssSize (h : bssBegin ≤ bssEnd) : (bssEnd - bssBegin).toNat = bssEnd.toNat - bssBegin.toNat :=
  BitVec.toNat_sub_of_le h

theorem memsetBss_iff (h : bssBegin ≤ bssEnd) :
    (∃ fuel, memsetBss fuel bssBegin bssEnd mem = some (bssBegin, mem')) ↔
      mem' = fill bssBegin (bssEnd.toNat - bssBegin.toNat) 0 mem := by
  have hle : bssBegin.toNat ≤ bssEnd.toNat := h
  have hlt := bssEnd.isLt
  have hfit : bssBegin.toNat + (bssEnd - bssBegin).toNat < 2 ^ W := by
    rw [toNat_bssSize h]
    omega
  have hrun := memset_eq hfit 0 mem
  rw [toNat_bssSize h] at hrun
  constructor
  · rintro ⟨fuel, hfuel⟩
    exact congrArg Prod.snd (memset_unique hfuel hrun)
  · rintro rfl
    exact ⟨_, hrun⟩

theorem fill_strides_iff {w : ℕ} (hw : 0 < w)
    (hfit : w * Loop.strides w (bssEnd.toNat - bssBegin.toNat) ≤ 2 ^ W) :
    fill bssBegin (w * Loop.strides w (bssEnd.toNat - bssBegin.toNat)) 0 mem =
      fill bssBegin (bssEnd.toNat - bssBegin.toNat) 0 mem ↔ TailZero w bssBegin bssEnd mem := by
  unfold TailZero
  generalize bssEnd.toNat - bssBegin.toNat = n at hfit ⊢
  obtain ⟨k, hk⟩ : ∃ k, w * Loop.strides w n = n + k :=
    ⟨w * Loop.strides w n - n, (Nat.add_sub_cancel' (Loop.le_strides hw)).symm⟩
  rw [hk] at hfit ⊢
  rw [fill, fill, blit_eq_blit_iff hfit]
  constructor
  · intro hzero i hlow hhigh
    have := hzero (i - n) (by omega)
    rwa [Nat.add_sub_cancel' hlow] at this
  · intro hzero i hi
    exact hzero (n + i) (by omega) (by omega)

/-- A loop of stores of `w` zero bytes that tests after the store leaves what `memset` leaves exactly if the
tail is zero. -/
theorem ends_as_memset_iff {σ : Type} {turn : σ → Option (σ × Bool)} {S : ℕ → σ} {memOf : σ → Memory W} {w : ℕ}
    (hw : 0 < w) (hle : bssBegin ≤ bssEnd) (hfit : w * Loop.strides w (bssEnd.toNat - bssBegin.toNat) ≤ 2 ^ W)
    (hmem : ∀ i, memOf (S i) = fill bssBegin (w * i) 0 mem)
    (turns : ∀ i < Loop.strides w (bssEnd.toNat - bssBegin.toNat),
      turn (S i) = some (S (i + 1), decide (w * (i + 1) < bssEnd.toNat - bssBegin.toNat))) :
    (∃ t, Loop.Ends turn (S 0) t ∧ ∃ fuel, memsetBss fuel bssBegin bssEnd mem = some (bssBegin, memOf t)) ↔
      TailZero w bssBegin bssEnd mem := by
  have hends := Loop.ends_strides hw turns
  rw [← fill_strides_iff hw hfit]
  constructor
  · rintro ⟨t, ht, hmemset⟩
    rw [← (memsetBss_iff hle).mp hmemset, ht.unique hends, hmem]
  · intro heq
    exact ⟨_, hends, (memsetBss_iff hle).mpr ((hmem _).trans heq)⟩

end Compare

/-! ### nRF52832 -/

structure NrfClear where
  r0 : BitVec 32
  r1 : BitVec 32
  r2 : BitVec 32
  mem : Memory 32

/-- The loop at `1:` once round: `strt r0, [r1, 0]`, `add r1, 4`, `cmp r2, r1`, `bgt 1b`. -/
def clearTurn (s : NrfClear) : Option (NrfClear × Bool) :=
  let mem := store 4 s.r1 s.r0 s.mem
  let r1 := s.r1 + 4
  some ({ s with r1, mem }, r1.slt s.r2)

/-- `mov r0, 0`, `ldr r1, =(bss_begin)`, `ldr r2, =(bss_end)` -/
def clearStart (bssBegin bssEnd : BitVec 32) (mem : Memory 32) : NrfClear := ⟨0, bssBegin, bssEnd, mem⟩

/-- The section as the linker script places it: aligned, and in RAM. -/
structure Placed (bssBegin bssEnd : BitVec 32) : Prop where
  aligned : bssBegin.toNat % 4 = 0
  low : 0x20000000 ≤ bssBegin.toNat
  le : bssBegin ≤ bssEnd
  high : bssEnd.toNat ≤ 0x20010000

/-- The loop is left, with the memory that `memset` leaves. -/
def ClearsAsMemset (bssBegin bssEnd : BitVec 32) (mem : Memory 32) : Prop :=
  ∃ t, Loop.Ends clearTurn (clearStart bssBegin bssEnd mem) t ∧
    ∃ fuel, memsetBss fuel bssBegin bssEnd mem = some (bssBegin, t.mem)

variable {bssBegin bssEnd : BitVec 32} {mem : Memory 32}

/-- The state after `i` turns. -/
def cleared (bssBegin bssEnd : BitVec 32) (mem : Memory 32) (i : ℕ) : NrfClear :=
  ⟨0, bssBegin + BitVec.ofNat 32 (4 * i), bssEnd, fill bssBegin (4 * i) 0 mem⟩

theorem slt_iff_of_pos {x y : BitVec 32} (hx : x.toNat < 2 ^ 31) (hy : y.toNat < 2 ^ 31) :
    x.slt y = decide (x.toNat < y.toNat) := by
  rw [BitVec.slt, BitVec.toInt_eq_toNat_cond, BitVec.toInt_eq_toNat_cond, if_pos (by omega), if_pos (by omega)]
  exact decide_eq_decide.mpr Int.ofNat_lt

theorem clearTurn_cleared (h : Placed bssBegin bssEnd) {i : ℕ}
    (hi : i < Loop.strides 4 (bssEnd.toNat - bssBegin.toNat)) :
    clearTurn (cleared bssBegin bssEnd mem i) = some (cleared bssBegin bssEnd mem (i + 1),
      decide (4 * (i + 1) < bssEnd.toNat - bssBegin.toNat)) := by
  obtain ⟨-, hlow, hle, hhigh⟩ := h
  have hle : bssBegin.toNat ≤ bssEnd.toNat := hle
  have hsmall : 4 * i ≤ 0x10000 := by
    rcases Nat.eq_zero_or_pos i with rfl | hpos
    · omega
    · have := (Loop.succ_lt_strides_iff (n := bssEnd.toNat - bssBegin.toNat) (w := 4) (i := i - 1) (by decide)).mp
        (by rwa [Nat.sub_add_cancel hpos])
      omega
  have hmem : store 4 (bssBegin + BitVec.ofNat 32 (4 * i)) 0 (fill bssBegin (4 * i) 0 mem) =
      fill bssBegin (4 * (i + 1)) 0 mem := store_zero_fill (by omega)
  have hptr : bssBegin + BitVec.ofNat 32 (4 * i) + 4 = bssBegin + BitVec.ofNat 32 (4 * (i + 1)) := add_ofNat_add
  have hval : (bssBegin + BitVec.ofNat 32 (4 * (i + 1))).toNat = bssBegin.toNat + 4 * (i + 1) :=
    toNat_add_ofNat (by omega)
  rw [cleared, clearTurn, cleared]
  simp only [hmem, hptr]
  rw [slt_iff_of_pos (by rw [hval]; omega) (by omega), hval]
  congr 2
  exact decide_eq_decide.mpr (by omega)

theorem clearsAsMemset_iff (h : Placed bssBegin bssEnd) :
    ClearsAsMemset bssBegin bssEnd mem ↔ TailZero 4 bssBegin bssEnd mem := by
  have hstart : cleared bssBegin bssEnd mem 0 = clearStart bssBegin bssEnd mem := by
    rw [cleared, Nat.mul_zero, fill, blit_zero, BitVec.add_zero]
    rfl
  have hfit : 4 * Loop.strides 4 (bssEnd.toNat - bssBegin.toNat) ≤ 2 ^ 32 := by
    have := h.low
    have := h.high
    unfold Loop.strides
    omega
  rw [ClearsAsMemset, ← hstart]
  exact ends_as_memset_iff (by decide) h.le hfit (fun _ => rfl) fun i => clearTurn_cleared h

end QDNix.Arm
