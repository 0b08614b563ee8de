import Mathlib.Algebra.Group.Nat.Defs
import Mathlib.Data.Nat.Notation

/-!
# Byte memory

A memory with `W`-bit addresses, and the one operation every store is a case of: `blit a n f` puts
`f 0, …, f (n - 1)` at `a, a + 1, …`. A block that is written piece by piece is one block (`blit_blit`), and
`blit_eq_blit_iff` says when two lengths of the same block cannot be told apart. `AgreeOff` compares memories with a
region that anyone may write to, such as a stack.
-/

/-- A byte memory with `W`-bit addresses. -/
abbrev Memory (W : ℕ) := BitVec W → BitVec 8

namespace Memory

variable {W n k : ℕ} {a x : BitVec W} {f : ℕ → BitVec 8} {m : Memory W}

/-- Write `f 0, …, f (n - 1)` from address `a` on. -/
def blit (a : BitVec W) (n : ℕ) (f : ℕ → BitVec 8) (m : Memory W) : Memory W :=
  fun x => if (x - a).toNat < n then f (x - a).toNat else m x

/-- One byte. -/
def put (a : BitVec W) (b : BitVec 8) (m : Memory W) : Memory W := blit a 1 (fun _ => b) m

/-- A value of `k` bytes, least significant first. -/
def store (k : ℕ) (a : BitVec W) (v : BitVec (8 * k)) (m : Memory W) : Memory W :=
  blit a k (fun i => v.extractLsb' (8 * i) 8) m

/-- `n` bytes `b`. -/
def fill (a : BitVec W) (n : ℕ) (b : BitVec 8) (m : Memory W) : Memory W := blit a n (fun _ => b) m

/-- `x` is one of the `n` addresses from `a` on. -/
def Within (a : BitVec W) (n : ℕ) (x : BitVec W) : Prop := a.toNat ≤ x.toNat ∧ x.toNat < a.toNat + n

instance (a : BitVec W) (n : ℕ) (x : BitVec W) : Decidable (Within a n x) := inferInstanceAs (Decidable (_ ∧ _))

theorem toNat_sub_lt_iff (h : a.toNat + n ≤ 2 ^ W) : (x - a).toNat < n ↔ Within a n x := by
  have := x.isLt
  rw [BitVec.toNat_sub, Within]
  rcases Nat.lt_or_ge x.toNat a.toNat with hlt | hge
  · rw [Nat.mod_eq_of_lt (by omega)]
    omega
  · rw [show 2 ^ W - a.toNat + x.toNat = (x.toNat - a.toNat) + 2 ^ W by omega, Nat.add_mod_right,
      Nat.mod_eq_of_lt (by omega)]
    omega

theorem toNat_add_ofNat (h : a.toNat + k < 2 ^ W) : (a + BitVec.ofNat W k).toNat = a.toNat + k := by
  rw [BitVec.toNat_add, BitVec.toNat_ofNat, Nat.mod_eq_of_lt (a := k) (by omega), Nat.mod_eq_of_lt h]

theorem add_ofNat_add : a + BitVec.ofNat W n + BitVec.ofNat W k = a + BitVec.ofNat W (n + k) := by
  rw [BitVec.add_assoc, BitVec.ofNat_add]

theorem add_ofNat_toNat (b : BitVec W) : a + BitVec.ofNat W b.toNat = a + b := by
  rw [BitVec.ofNat_toNat, BitVec.setWidth_eq]

theorem toNat_add_sub (hk : k < 2 ^ W) : (a + BitVec.ofNat W k - a).toNat = k := by
  rw [BitVec.add_comm, BitVec.add_sub_cancel, BitVec.toNat_ofNat, Nat.mod_eq_of_lt hk]

theorem eq_add_ofNat (h : (x - a).toNat = k) : x = a + BitVec.ofNat W k := by
  rw [← h, BitVec.ofNat_toNat, BitVec.setWidth_eq, BitVec.add_comm, BitVec.sub_add_cancel]

@[simp] theorem blit_zero : blit a 0 f m = m := funext fun _ => if_neg (Nat.not_lt_zero _)

theorem blit_of_lt (h : (x - a).toNat < n) : blit a n f m x = f (x - a).toNat := if_pos h

theorem blit_of_not (h : ¬ (x - a).toNat < n) : blit a n f m x = m x := if_neg h

theorem blit_add (hk : k < n) (hn : n ≤ 2 ^ W) : blit a n f m (a + BitVec.ofNat W k) = f k := by
  have h : (a + BitVec.ofNat W k - a).toNat = k := toNat_add_sub (by omega)
  rw [blit_of_lt (by omega), h]

theorem blit_blit (h : n + k ≤ 2 ^ W) :
    blit (a + BitVec.ofNat W n) k (fun i => f (n + i)) (blit a n f m) = blit a (n + k) f m := by
  funext x
  have hx := (x - a).isLt
  have hsub : x - (a + BitVec.ofNat W n) = (x - a) - BitVec.ofNat W n :=
    (BitVec.sub_sub x a _).symm
  rcases Nat.eq_zero_or_pos k with rfl | hk
  · rw [blit_zero, Nat.add_zero]
  have hof : (BitVec.ofNat W n).toNat = n := by
    rw [BitVec.toNat_ofNat, Nat.mod_eq_of_lt (by omega)]
  have hiff := toNat_sub_lt_iff (x := x - a) (a := BitVec.ofNat W n) (n := k) (by omega)
  rw [Within, hof] at hiff
  by_cases hlow : (x - a).toNat < n
  · rw [blit_of_not (by rw [hsub, hiff]; omega), blit_of_lt hlow, blit_of_lt (by omega)]
  · by_cases hhigh : (x - a).toNat < n + k
    · have hval : ((x - a) - BitVec.ofNat W n).toNat = (x - a).toNat - n := by
        rw [BitVec.toNat_sub, hof, show 2 ^ W - n + (x - a).toNat = ((x - a).toNat - n) + 2 ^ W by omega,
          Nat.add_mod_right, Nat.mod_eq_of_lt (by omega)]
      rw [blit_of_lt (by rw [hsub, hiff]; omega), blit_of_lt hhigh, hsub, hval]
      congr 1
      omega
    · rw [blit_of_not (by rw [hsub, hiff]; omega), blit_of_not hlow, blit_of_not hhigh]

theorem put_blit (h : n + 1 ≤ 2 ^ W) :
    put (a + BitVec.ofNat W n) (f n) (blit a n f m) = blit a (n + 1) f m := by
  rw [← blit_blit h]
  funext x
  by_cases hx : (x - (a + BitVec.ofNat W n)).toNat < 1
  · rw [put, blit_of_lt hx, blit_of_lt hx, Nat.lt_one_iff.mp hx, Nat.add_zero]
  · rw [put, blit_of_not hx, blit_of_not hx]

theorem store_zero_fill (h : n + k ≤ 2 ^ W) :
    store k (a + BitVec.ofNat W n) 0 (fill a n 0 m) = fill a (n + k) 0 m := by
  rw [store, show (fun i => (0 : BitVec (8 * k)).extractLsb' (8 * i) 8) = fun _ => 0 from
    funext fun i => BitVec.extractLsb'_zero ..]
  exact blit_blit h

/-- A longer block changes nothing more exactly when its end was there already. -/
theorem blit_eq_blit_iff (h : n + k ≤ 2 ^ W) :
    blit a (n + k) f m = blit a n f m ↔ ∀ i < k, m (a + BitVec.ofNat W (n + i)) = f (n + i) := by
  constructor
  · intro heq i hi
    have := congrFun heq (a + BitVec.ofNat W (n + i))
    rw [blit_add (by omega) h, blit_of_not (by rw [toNat_add_sub (by omega)]; omega)] at this
    exact this.symm
  · intro hend
    funext x
    by_cases hlow : (x - a).toNat < n
    · rw [blit_of_lt hlow, blit_of_lt (by omega)]
    · rw [blit_of_not hlow]
      by_cases hhigh : (x - a).toNat < n + k
      · rw [blit_of_lt hhigh]
        have hx : x = a + BitVec.ofNat W (n + ((x - a).toNat - n)) := eq_add_ofNat (by omega)
        have hm := hend ((x - a).toNat - n) (by omega)
        rw [← hx] at hm
        rw [hm]
        congr 1
        omega
      · rw [blit_of_not hhigh]

theorem blit_congr_iff {g : ℕ → BitVec 8} (h : n ≤ 2 ^ W) :
    blit a n f m = blit a n g m ↔ ∀ i < n, f i = g i := by
  constructor
  · intro heq i hi
    have hbyte := congrFun heq (a + BitVec.ofNat W i)
    rwa [blit_add hi h, blit_add hi h] at hbyte
  · intro hbytes
    funext x
    by_cases hx : (x - a).toNat < n
    · rw [blit_of_lt hx, blit_of_lt hx, hbytes _ hx]
    · rw [blit_of_not hx, blit_of_not hx]

/-! ### A region left open -/

/-- The memories agree but for the `n` bytes from `a` on. -/
def AgreeOff (a : BitVec W) (n : ℕ) (m m' : Memory W) : Prop := ∀ x, ¬ (x - a).toNat < n → m x = m' x

variable {m' : Memory W}

theorem agreeOff_of_eq (h : m = m') : AgreeOff a n m m' := fun x _ => congrFun h x

theorem AgreeOff.scribble (h : AgreeOff a n m m') (f : ℕ → BitVec 8) : AgreeOff a n (blit a n f m) m' :=
  fun x hx => (blit_of_not hx).trans (h x hx)

theorem AgreeOff.same_blit (h : AgreeOff a n m m') (b : BitVec W) (k : ℕ) (f : ℕ → BitVec 8) :
    AgreeOff a n (blit b k f m) (blit b k f m') := by
  intro x hx
  by_cases hb : (x - b).toNat < k
  · rw [blit_of_lt hb, blit_of_lt hb]
  · rw [blit_of_not hb, blit_of_not hb, h x hx]

end Memory
