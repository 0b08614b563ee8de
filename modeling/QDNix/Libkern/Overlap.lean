import QDNix.Libkern.String

/-!
# `memcpy` onto its source

`memcpy` of `libkern/string.c` for every placement of the two ranges, at either end of the address space too. It
copies upwards, so a target that begins `d` bytes above the source gets the first `d` bytes of the source again
and again; `d` is taken modulo the size of the address space, and is too large to matter for a target below the
source. It does what `memmove` does exactly if the source repeats itself in the same way (`memcpy_overlap`).
-/

namespace QDNix.Libkern

open Memory

variable {W : ℕ} (dest src : BitVec W) (mem : Memory W)

/-- How far the target begins above the source. -/
def distance : ℕ := (dest - src).toNat

theorem toNat_source_sub_target {n : ℕ} (hn : n < 2 ^ W) :
    (src + BitVec.ofNat W n - dest).toNat = (n + (2 ^ W - distance dest src)) % 2 ^ W := by
  have hsub : src + BitVec.ofNat W n - dest = BitVec.ofNat W n - (dest - src) := by grind
  rw [hsub, BitVec.toNat_sub, BitVec.toNat_ofNat, Nat.mod_eq_of_lt hn, Nat.add_comm]
  rfl

theorem read_source {n : ℕ} (hn : n < 2 ^ W) :
    blit dest n (fun k => mem (src + BitVec.ofNat W (k % distance dest src))) mem (src + BitVec.ofNat W n) =
      mem (src + BitVec.ofNat W (n % distance dest src)) := by
  have hd : distance dest src < 2 ^ W := (dest - src).isLt
  have hoff := toNat_source_sub_target dest src hn
  rcases Nat.eq_zero_or_pos (distance dest src) with hzero | hpos
  · rw [hzero, Nat.sub_zero, Nat.add_mod_right, Nat.mod_eq_of_lt hn] at hoff
    rw [blit_of_not (by omega), hzero, Nat.mod_zero]
  · by_cases hle : distance dest src ≤ n
    · have hval : (src + BitVec.ofNat W n - dest).toNat = n - distance dest src := by
        rw [hoff, show n + (2 ^ W - distance dest src) = (n - distance dest src) + 2 ^ W by omega, Nat.add_mod_right,
          Nat.mod_eq_of_lt (by omega)]
      rw [blit_of_lt (by omega), hval, ← Nat.mod_eq_sub_mod hle]
    · have hval : (src + BitVec.ofNat W n - dest).toNat = n + (2 ^ W - distance dest src) := by
        rw [hoff, Nat.mod_eq_of_lt (by omega)]
      rw [blit_of_not (by omega), Nat.mod_eq_of_lt (by omega)]

theorem memcpyMem_periodic {n : ℕ} (hn : n ≤ 2 ^ W) :
    memcpyMem dest src mem n = blit dest n (fun k => mem (src + BitVec.ofNat W (k % distance dest src))) mem := by
  induction n with
  | zero => exact blit_zero.symm
  | succ n ih =>
    rw [memcpyMem, ih (by omega), read_source dest src mem (by omega)]
    exact put_blit (f := fun k => mem (src + BitVec.ofNat W (k % distance dest src))) hn

/-- The source repeats itself as far as the copy reads its own target. -/
def Repeats (len : ℕ) : Prop :=
  ∀ k < len, mem (src + BitVec.ofNat W (k % distance dest src)) = mem (src + BitVec.ofNat W k)

/-- **`memcpy` for every placement**: what it leaves, and when that is a copy of the source. -/
theorem memcpy_overlap (len : BitVec W) :
    ∃ fuel mem', memcpy fuel dest src len mem = some (dest, mem') ∧
      mem' = blit dest len.toNat (fun k => mem (src + BitVec.ofNat W (k % distance dest src))) mem ∧
      (mem' = blit dest len.toNat (fun k => mem (src + BitVec.ofNat W k)) mem ↔ Repeats dest src mem len.toNat) := by
  have hlen := len.isLt
  refine ⟨_, _, memcpy_eq dest src len mem, memcpyMem_periodic dest src mem (by omega), ?_⟩
  rw [memcpyMem_periodic dest src mem (by omega)]
  exact blit_congr_iff (by omega)

/-- A target one byte above its source gets the first byte over and over. -/
example : (memcpy 5 (1 : BitVec 8) 0 4 fun x => x).map (fun r => (r.2 1, r.2 4, r.2 5)) = some (0, 0, 5) := by decide

end QDNix.Libkern
