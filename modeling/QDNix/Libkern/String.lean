import QDNix.Lib.Loop
import QDNix.Lib.Memory
import Mathlib.Tactic.Common

/-!
# `memset` and `memcpy`

`libkern/string.c` for `W`-bit pointers and `size_t`. An `int` argument is its value; storing it in a
`uint8_t` keeps it modulo 256. `fuel` bounds the turns of the loop.

`memset` stops at a pointer, `memcpy` at a count. A copy goes upwards, so at turn `i` it has overwritten the
first `i` bytes of the target and still needs the source from byte `i` on: the two do not meet if the target
lies below the source or the ranges are disjoint (`memcpyMem_eq_blit`). What is outside the target stays
for any placement.
-/

namespace QDNix.Libkern

open Memory

variable {W : ℕ} {dest src len : BitVec W}

/-! ### `memset` -/

structure MemsetLoop (W : ℕ) where
  ptr : BitVec W
  mem : Memory W

/-- `ptr < ((uint8_t *)dest + len)`, `*ptr = val`, `ptr++` -/
def memsetTurn (bound : BitVec W) (val : ℤ) (s : MemsetLoop W) : Option (MemsetLoop W × Bool) :=
  if s.ptr < bound then some (⟨s.ptr + 1, put s.ptr (BitVec.ofInt 8 val) s.mem⟩, true) else some (s, false)

def memset (fuel : ℕ) (dest : BitVec W) (val : ℤ) (len : BitVec W) (mem : Memory W) :
    Option (BitVec W × Memory W) :=
  (Loop.run (memsetTurn (dest + len) val) fuel ⟨dest, mem⟩).map fun s => (dest, s.mem)

/-- The state at the head of turn `i`. -/
def memsetState (dest : BitVec W) (val : ℤ) (mem : Memory W) (i : ℕ) : MemsetLoop W :=
  ⟨dest + BitVec.ofNat W i, fill dest i (BitVec.ofInt 8 val) mem⟩

theorem memsetTurn_of_lt (h : dest.toNat + len.toNat < 2 ^ W) (val : ℤ) (mem : Memory W) {i : ℕ}
    (hi : i < len.toNat) :
    memsetTurn (dest + len) val (memsetState dest val mem i) = some (memsetState dest val mem (i + 1), true) := by
  have hlt : dest + BitVec.ofNat W i < dest + len := by
    rw [BitVec.lt_def, toNat_add_ofNat (by omega), BitVec.toNat_add, Nat.mod_eq_of_lt h]
    omega
  have hput : put (dest + BitVec.ofNat W i) (BitVec.ofInt 8 val) (fill dest i (BitVec.ofInt 8 val) mem) =
      fill dest (i + 1) (BitVec.ofInt 8 val) mem := put_blit (f := fun _ => _) (by omega)
  rw [memsetTurn, memsetState, if_pos hlt, hput]
  exact congrArg (fun p => some (MemsetLoop.mk p _, true)) (add_ofNat_add (n := i) (k := 1))

theorem memset_eq (h : dest.toNat + len.toNat < 2 ^ W) (val : ℤ) (mem : Memory W) :
    memset (len.toNat + 1) dest val len mem = some (dest, fill dest len.toNat (BitVec.ofInt 8 val) mem) := by
  have hrun := Loop.run_counted (S := memsetState dest val mem) (fun i => memsetTurn_of_lt h val mem) 1
  have hexit : memsetTurn (dest + len) val (memsetState dest val mem len.toNat) =
      some (memsetState dest val mem len.toNat, false) := by
    refine if_neg ?_
    rw [memsetState, add_ofNat_toNat]
    exact BitVec.lt_irrefl _
  have hstart : memsetState dest val mem 0 = ⟨dest, mem⟩ := by
    rw [memsetState, fill, blit_zero, BitVec.add_zero]
  rw [Loop.run_leave hexit, hstart] at hrun
  rw [memset, hrun]
  rfl

theorem memset_unique {fuel fuel' : ℕ} {val : ℤ} {mem : Memory W} {r r' : BitVec W × Memory W}
    (h : memset fuel dest val len mem = some r) (h' : memset fuel' dest val len mem = some r') : r = r' := by
  obtain ⟨s, hs, rfl⟩ := Option.map_eq_some_iff.mp h
  obtain ⟨s', hs', rfl⟩ := Option.map_eq_some_iff.mp h'
  rw [Loop.run_unique hs hs']

/-! ### `memcpy` -/

structure MemcpyLoop (W : ℕ) where
  i : BitVec W
  mem : Memory W

/-- `i < len`, `d[i] = s[i]`, `i++` -/
def memcpyTurn (d s len : BitVec W) (l : MemcpyLoop W) : Option (MemcpyLoop W × Bool) :=
  if l.i < len then some (⟨l.i + 1, put (d + l.i) (l.mem (s + l.i)) l.mem⟩, true) else some (l, false)

def memcpy (fuel : ℕ) (dest src len : BitVec W) (mem : Memory W) : Option (BitVec W × Memory W) :=
  (Loop.run (memcpyTurn dest src len) fuel ⟨0, mem⟩).map fun l => (dest, l.mem)

/-- The memory at the head of turn `i`. -/
def memcpyMem (dest src : BitVec W) (mem : Memory W) : ℕ → Memory W
  | 0 => mem
  | i + 1 => put (dest + BitVec.ofNat W i) (memcpyMem dest src mem i (src + BitVec.ofNat W i))
      (memcpyMem dest src mem i)

def memcpyState (dest src : BitVec W) (mem : Memory W) (i : ℕ) : MemcpyLoop W :=
  ⟨BitVec.ofNat W i, memcpyMem dest src mem i⟩

theorem memcpyTurn_of_lt (mem : Memory W) {i : ℕ} (hi : i < len.toNat) :
    memcpyTurn dest src len (memcpyState dest src mem i) = some (memcpyState dest src mem (i + 1), true) := by
  have hlt : BitVec.ofNat W i < len := by
    have := len.isLt
    rw [BitVec.lt_def, BitVec.toNat_ofNat, Nat.mod_eq_of_lt (by omega)]
    exact hi
  rw [memcpyTurn, memcpyState, if_pos hlt, memcpyState, BitVec.ofNat_add]
  rfl

theorem memcpy_eq (dest src len : BitVec W) (mem : Memory W) :
    memcpy (len.toNat + 1) dest src len mem = some (dest, memcpyMem dest src mem len.toNat) := by
  have hrun := Loop.run_counted (S := memcpyState dest src mem)
    (fun i (hi : i < len.toNat) => memcpyTurn_of_lt mem hi) 1
  have hexit : memcpyTurn dest src len (memcpyState dest src mem len.toNat) =
      some (memcpyState dest src mem len.toNat, false) := by
    refine if_neg ?_
    rw [memcpyState, BitVec.ofNat_toNat, BitVec.setWidth_eq]
    exact BitVec.lt_irrefl _
  rw [Loop.run_leave hexit] at hrun
  rw [memcpy]
  exact congrArg (Option.map _) hrun

theorem memcpyMem_frame (mem : Memory W) {x : BitVec W} {n : ℕ} (hn : n ≤ 2 ^ W) (hx : ¬ (x - dest).toNat < n) :
    memcpyMem dest src mem n x = mem x := by
  induction n with
  | zero => rfl
  | succ n ih =>
    have hne : ¬ (x - (dest + BitVec.ofNat W n)).toNat < 1 := by
      intro h
      have hend : x = dest + BitVec.ofNat W n := by simpa using eq_add_ofNat (Nat.lt_one_iff.mp h)
      rw [hend, toNat_add_sub (by omega)] at hx
      omega
    rw [memcpyMem, put, blit_of_not hne]
    exact ih (by omega) (by omega)

/-- While the source bytes still to come lie outside the part of the target written so far, the target
receives the bytes the source had at the call. -/
theorem memcpyMem_eq_blit (mem : Memory W) {n : ℕ} (hn : n ≤ 2 ^ W)
    (hunread : ∀ i < n, i ≤ (src + BitVec.ofNat W i - dest).toNat) :
    memcpyMem dest src mem n = blit dest n (fun k => mem (src + BitVec.ofNat W k)) mem := by
  induction n with
  | zero => exact blit_zero.symm
  | succ n ih =>
    have hread : memcpyMem dest src mem n (src + BitVec.ofNat W n) = mem (src + BitVec.ofNat W n) :=
      memcpyMem_frame mem (by omega) (Nat.not_lt.mpr (hunread n (by omega)))
    rw [memcpyMem, hread, ih (by omega) fun i hi => hunread i (by omega)]
    exact put_blit (f := fun k => mem (src + BitVec.ofNat W k)) hn

/-- The two ranges are disjoint, or the target begins no higher than the source. -/
def CopySafe (dest src len : BitVec W) : Prop :=
  dest.toNat + len.toNat ≤ src.toNat ∨ src.toNat + len.toNat ≤ dest.toNat ∨ dest ≤ src

theorem le_unread (h : CopySafe dest src len) (hsrc : src.toNat + len.toNat < 2 ^ W) {i : ℕ} (hi : i < len.toNat) :
    i ≤ (src + BitVec.ofNat W i - dest).toNat := by
  have hd := dest.isLt
  rw [BitVec.toNat_sub, toNat_add_ofNat (by omega)]
  have hcases : dest.toNat ≤ src.toNat ∨ src.toNat + len.toNat ≤ dest.toNat := by
    rcases h with h | h | h
    · exact .inl (by omega)
    · exact .inr h
    · exact .inl h
  rcases hcases with hle | hle
  · rw [show 2 ^ W - dest.toNat + (src.toNat + i) = (src.toNat + i - dest.toNat) + 2 ^ W by omega,
      Nat.add_mod_right, Nat.mod_eq_of_lt (by omega)]
    omega
  · rw [Nat.mod_eq_of_lt (by omega)]
    omega

/-! ### Both touch exactly their target -/

theorem memset_memcpy_exact (mem : Memory W) (dest src len : BitVec W) (val : ℤ)
    (hdest : dest.toNat + len.toNat < 2 ^ W) (hsrc : src.toNat + len.toNat < 2 ^ W) :
    (∃ fuel mem', memset fuel dest val len mem = some (dest, mem') ∧
      (∀ x, Within dest len.toNat x → ((mem' x).toNat : ℤ) = val % 256) ∧
      ∀ x, ¬ Within dest len.toNat x → mem' x = mem x) ∧
    ∃ fuel mem', memcpy fuel dest src len mem = some (dest, mem') ∧
      (CopySafe dest src len → ∀ k < len.toNat, mem' (dest + BitVec.ofNat W k) = mem (src + BitVec.ofNat W k)) ∧
      ∀ x, ¬ Within dest len.toNat x → mem' x = mem x := by
  have hwithin : ∀ x, (x - dest).toNat < len.toNat ↔ Within dest len.toNat x :=
    fun x => toNat_sub_lt_iff (by omega)
  constructor
  · refine ⟨_, _, memset_eq hdest val mem, fun x hx => ?_, fun x hx => blit_of_not (mt (hwithin x).mp hx)⟩
    rw [fill, blit_of_lt ((hwithin x).mpr hx), BitVec.toNat_ofInt]
    exact Int.toNat_of_nonneg (Int.emod_nonneg _ (by decide))
  · refine ⟨_, _, memcpy_eq dest src len mem, fun hsafe k hk => ?_,
      fun x hx => memcpyMem_frame mem (by omega) (mt (hwithin x).mp hx)⟩
    rw [memcpyMem_eq_blit mem (by omega) fun i hi => le_unread hsafe hsrc hi]
    exact blit_add hk (by omega)

theorem memset_memcpy_exact_overlap :
    (0x1000 : BitVec 32).toNat + (8 : BitVec 32).toNat < 2 ^ 32 ∧
    (0x1002 : BitVec 32).toNat + (8 : BitVec 32).toNat < 2 ^ 32 ∧
    ∃ fuel mem', memcpy fuel 0x1000 0x1002 8 (fun x => x.setWidth 8) = some ((0x1000 : BitVec 32), mem') ∧
      ∀ k < 8, mem' (0x1000 + BitVec.ofNat 32 k) = BitVec.setWidth 8 (0x1002 + BitVec.ofNat 32 k) := by
  have hdest : (0x1000 : BitVec 32).toNat + (8 : BitVec 32).toNat < 2 ^ 32 := by decide
  have hsrc : (0x1002 : BitVec 32).toNat + (8 : BitVec 32).toNat < 2 ^ 32 := by decide
  obtain ⟨-, fuel, mem', hrun, hcopy, -⟩ := memset_memcpy_exact (fun x => x.setWidth 8) _ _ _ 0 hdest hsrc
  exact ⟨hdest, hsrc, fuel, mem', hrun, hcopy (.inr (.inr (by decide)))⟩

end QDNix.Libkern
