import Mathlib.Data.List.TakeWhile
import QDNix.Lib.Traced

/-!
# C strings

A string is a NUL-terminated prefix of an array (`cstr`). Reading one out of an array without a terminator
is undefined, and so is copying one into an array too short for it. The comparison functions see lists; past
the end of a list they see a terminator.
-/

universe u

namespace CString

open Traced

variable {ε : Type u} {w n : Nat}

/-- The characters before the first terminator. -/
def cstr (bytes : List (BitVec w)) : List (BitVec w) := bytes.takeWhile (· ≠ 0#w)

@[simp] theorem cstr_nil : cstr ([] : List (BitVec w)) = [] := rfl

theorem cstr_cons (c : BitVec w) (bytes : List (BitVec w)) :
    cstr (c :: bytes) = if c = 0#w then [] else c :: cstr bytes := by
  by_cases h : c = 0#w <;> simp [cstr, h]

theorem length_cstr_le (bytes : List (BitVec w)) : (cstr bytes).length ≤ bytes.length :=
  (List.takeWhile_prefix _).length_le

theorem zero_notMem_cstr (bytes : List (BitVec w)) : 0#w ∉ cstr bytes := by
  intro h
  simpa using List.mem_takeWhile_imp h

theorem cstr_append_zero (bytes rest : List (BitVec w)) : cstr (bytes ++ 0#w :: rest) = cstr bytes := by
  induction bytes with
  | nil => simp [cstr_cons]
  | cons c bytes ih => rw [List.cons_append, cstr_cons, cstr_cons, ih]

theorem cstr_of_notMem {bytes : List (BitVec w)} (h : 0#w ∉ bytes) : cstr bytes = bytes := by
  induction bytes with
  | nil => rfl
  | cons c bytes ih =>
    rw [List.mem_cons, not_or] at h
    rw [cstr_cons, if_neg (Ne.symm h.1), ih h.2]

theorem zero_free_starts_cstr {s : List (BitVec w)} (h : 0#w ∉ s) (bytes : List (BitVec w)) :
    s <+: cstr bytes ↔ s <+: bytes := by
  refine ⟨fun hs => hs.trans (List.takeWhile_prefix _), ?_⟩
  rintro ⟨rest, rfl⟩
  have hall : ∀ c ∈ s, decide (c ≠ 0#w) = true := fun c hc => decide_eq_true fun hzero => h (hzero ▸ hc)
  rw [cstr, List.takeWhile_append_of_pos hall]
  exact List.prefix_append _ _

/-! ### Reading -/

/-- The string in an array. -/
def readStr (v : Vector (BitVec w) n) : Traced ε (List (BitVec w)) :=
  if 0#w ∈ v.toList then pure (cstr v.toList) else undef

def strlen (v : Vector (BitVec w) n) : Traced ε Nat :=
  if 0#w ∈ v.toList then pure (cstr v.toList).length else undef

theorem readStr_eq {v : Vector (BitVec w) n} (h : 0#w ∈ v.toList) :
    (readStr v : Traced ε _) = pure (cstr v.toList) := if_pos h

theorem strlen_eq {v : Vector (BitVec w) n} (h : 0#w ∈ v.toList) :
    (strlen v : Traced ε _) = pure (cstr v.toList).length := if_pos h

def strcmp : List (BitVec w) → List (BitVec w) → Int
  | [], t => - ((t.headD 0#w).toNat : Int)
  | a :: s, t =>
    if a ≠ t.headD 0#w then (a.toNat : Int) - (t.headD 0#w).toNat
    else if a = 0#w then 0
    else strcmp s t.tail

def strncmp : List (BitVec w) → List (BitVec w) → Nat → Int
  | _, _, 0 => 0
  | s, t, n + 1 =>
    if s.headD 0#w ≠ t.headD 0#w then ((s.headD 0#w).toNat : Int) - (t.headD 0#w).toNat
    else if s.headD 0#w = 0#w then 0
    else strncmp s.tail t.tail n

theorem toNat_sub_ne_zero {a b : BitVec w} (h : a ≠ b) : (a.toNat : Int) - b.toNat ≠ 0 := by
  have := mt BitVec.eq_of_toNat_eq h
  omega

theorem strcmp_eq_zero (s t : List (BitVec w)) : strcmp s t = 0 ↔ cstr s = cstr t := by
  induction s generalizing t with
  | nil =>
    cases t with
    | nil => simp [strcmp]
    | cons b t =>
      by_cases hb : b = 0#w
      · simp [strcmp, cstr_cons, hb]
      · have hne := toNat_sub_ne_zero (Ne.symm hb)
        simpa [strcmp, cstr_cons, hb] using hne
  | cons a s ih =>
    rw [strcmp]
    by_cases hab : a = t.headD 0#w
    · by_cases ha : a = 0#w
      · cases t with
        | nil => simp [cstr_cons, ha]
        | cons b t => simp_all [cstr_cons]
      · cases t with
        | nil => exact absurd hab ha
        | cons b t =>
          obtain rfl : a = b := hab
          simp [cstr_cons, ha, ih]
    · rw [if_pos hab]
      apply iff_of_false (toNat_sub_ne_zero hab)
      intro h
      cases t with
      | nil =>
        have ha : a ≠ 0#w := hab
        simp [cstr_cons, ha] at h
      | cons b t =>
        have hab' : a ≠ b := hab
        by_cases ha : a = 0#w <;> by_cases hb : b = 0#w <;> simp_all [cstr_cons]

theorem strncmp_eq_zero {s : List (BitVec w)} (hs : 0#w ∉ s) (t : List (BitVec w)) :
    strncmp s t s.length = 0 ↔ s <+: t := by
  induction s generalizing t with
  | nil => simp [strncmp]
  | cons a s ih =>
    rw [List.mem_cons, not_or] at hs
    have ha : a ≠ 0#w := Ne.symm hs.1
    rw [List.length_cons, strncmp]
    by_cases hab : a = t.headD 0#w
    · cases t with
      | nil => exact absurd hab ha
      | cons b t =>
        obtain rfl : a = b := hab
        simp [ha, ih hs.2]
    · rw [List.headD_cons, if_pos hab]
      apply iff_of_false (toNat_sub_ne_zero hab)
      intro h
      cases t with
      | nil => simp at h
      | cons b t => exact hab (List.cons_prefix_cons.mp h).1

/-! ### Writing -/

/-- The bytes `xs` over the front of `v`. -/
def overwrite {α : Type} (v : Vector α n) (xs : List α) : Vector α n :=
  Vector.ofFn fun i => xs.getD i v[i]

theorem toList_overwrite {α : Type} (v : Vector α n) {xs : List α} (h : xs.length ≤ n) :
    (overwrite v xs).toList = xs ++ v.toList.drop xs.length := by
  apply List.ext_getElem
  · simp
    omega
  · intro i hi hi'
    simp only [overwrite, Vector.getElem_toList, Vector.getElem_ofFn, List.getElem_append]
    by_cases hlt : i < xs.length
    · simp [hlt]
    · have hsum : xs.length + (i - xs.length) = i := by omega
      simp [hlt, hsum]

theorem set_overwrite {α : Type} (v : Vector α n) (xs : List α) (h : xs.length < n) (b : α) :
    (overwrite v xs).set xs.length b h = overwrite v (xs ++ [b]) := by
  apply Vector.toList_inj.mp
  have hlen : xs.length < (overwrite v xs).toList.length := by simpa using h
  rw [Vector.toList_set, List.set_eq_take_append_cons_drop, if_pos hlen, toList_overwrite v (Nat.le_of_lt h),
    toList_overwrite v (by rw [List.length_append]; exact h)]
  simp

/-- Copy the string `s`, and its terminator, to the front of `v`. -/
def strcpy (v : Vector (BitVec w) n) (s : List (BitVec w)) : Traced ε (Vector (BitVec w) n) :=
  if s.length < n then pure (overwrite v (s ++ [0#w])) else undef

theorem strcpy_eq (v : Vector (BitVec w) n) {s : List (BitVec w)} (h : s.length < n) :
    (strcpy v s : Traced ε _) = pure (overwrite v (s ++ [0#w])) := if_pos h

theorem cstr_overwrite (v : Vector (BitVec w) n) {s : List (BitVec w)} (h : s.length < n) (hs : 0#w ∉ s) :
    cstr (overwrite v (s ++ [0#w])).toList = s := by
  rw [toList_overwrite v (by rw [List.length_append]; exact h), List.append_assoc, List.singleton_append, cstr_append_zero,
    cstr_of_notMem hs]

theorem zero_mem_overwrite (v : Vector (BitVec w) n) {s : List (BitVec w)} (h : s.length < n) :
    0#w ∈ (overwrite v (s ++ [0#w])).toList := by
  rw [toList_overwrite v (by rw [List.length_append]; exact h)]
  simp

theorem zero_mem_set (v : Vector (BitVec w) n) {k : Nat} (h : k < n) : 0#w ∈ (v.set k 0#w h).toList := by
  rw [Vector.toList_set]
  exact List.mem_set (by simpa using h) _

theorem cstr_set_zero (v : Vector (BitVec w) n) {k : Nat} (h : k < n) (hv : 0#w ∉ filled v k) :
    cstr (v.set k 0#w h).toList = filled v k := by
  have hk : k < v.toList.length := by simpa using h
  have hlist : (v.set k 0#w h).toList = filled v k ++ 0#w :: v.toList.drop (k + 1) := by
    rw [Vector.toList_set, List.set_eq_take_append_cons_drop, if_pos hk, filled]
  rw [hlist, cstr_append_zero, cstr_of_notMem hv]

end CString
