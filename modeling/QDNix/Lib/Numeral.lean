import Mathlib.Algebra.Group.Nat.Defs

/-!
# Numerals as byte strings

The canonical numeral of a natural number: most significant digit first, digits `0-9a-f`, no leading zero,
`0` for zero. It is `Nat.toDigits` in bytes. A program that divides repeatedly produces it backwards
(`reverse_numeral`).
-/

namespace Numeral

/-- The canonical base-`base` numeral of `n`. -/
def numeral (base n : Nat) : List (BitVec 8) := (Nat.toDigits base n).map fun c => BitVec.ofNat 8 c.toNat

/-- The canonical decimal numeral of an integer. -/
def decimal (n : Int) : List (BitVec 8) :=
  if n < 0 then BitVec.ofNat 8 '-'.toNat :: numeral 10 n.natAbs else numeral 10 n.natAbs

/-- The digit bytes. -/
def digit (d : Nat) : BitVec 8 := BitVec.ofNat 8 (Nat.digitChar d).toNat

theorem decimal_natCast (n : Nat) : decimal n = numeral 10 n := by
  rw [decimal, if_neg (by omega), Int.natAbs_natCast]

theorem reverse_numeral {base : Nat} (hbase : 1 < base) (n : Nat) :
    (numeral base n).reverse =
      digit (n % base) :: if n / base = 0 then [] else (numeral base (n / base)).reverse := by
  have hzero : n / base = 0 ↔ n < base := by
    rw [Nat.div_eq_zero_iff]
    omega
  unfold numeral
  rw [Nat.toDigits_eq_if hbase]
  by_cases h : n < base
  · simp [h, hzero, digit, Nat.mod_eq_of_lt h]
  · simp [h, hzero, digit]

theorem length_numeral_pos (base n : Nat) : 0 < (numeral base n).length := by
  rw [numeral, List.length_map]
  exact Nat.length_toDigits_pos

theorem length_numeral_le {base n k : Nat} (hbase : 1 < base) (hk : 0 < k) (h : n < base ^ k) :
    (numeral base n).length ≤ k := by
  rw [numeral, List.length_map]
  exact (Nat.length_toDigits_le_iff hbase hk).mpr h

theorem length_numeral_div {base n : Nat} (hbase : 1 < base) (h : n / base ≠ 0) :
    (numeral base n).length = (numeral base (n / base)).length + 1 := by
  have := congrArg List.length (reverse_numeral hbase n)
  simpa [h] using this

theorem digit_inj : ∀ {d e : Fin 16}, digit d = digit e → d = e := by decide

theorem numeral_inj {base : Nat} (hbase : 1 < base) (h16 : base ≤ 16) {a b : Nat}
    (h : numeral base a = numeral base b) : a = b := by
  induction a using Nat.strongRecOn generalizing b with
  | _ a ih =>
    have hrev := congrArg List.reverse h
    rw [reverse_numeral hbase a, reverse_numeral hbase b] at hrev
    obtain ⟨hdigit, hrest⟩ := List.cons.inj hrev
    have hlt : ∀ n, n % base < 16 := fun n => Nat.lt_of_lt_of_le (Nat.mod_lt n (by omega)) h16
    have hmod : a % base = b % base := Fin.mk.inj (digit_inj (d := ⟨_, hlt a⟩) (e := ⟨_, hlt b⟩) hdigit)
    have hne : ∀ n, (numeral base n).reverse ≠ [] := fun n =>
      List.ne_nil_of_length_pos (by rw [List.length_reverse]; exact length_numeral_pos base n)
    have hdiv : a / base = b / base := by
      by_cases ha : a / base = 0 <;> by_cases hb : b / base = 0
      · rw [ha, hb]
      · rw [if_pos ha, if_neg hb] at hrest
        exact absurd hrest.symm (hne _)
      · rw [if_neg ha, if_pos hb] at hrest
        exact absurd hrest (hne _)
      · rw [if_neg ha, if_neg hb] at hrest
        have hpos : 0 < a := Nat.pos_of_ne_zero fun hzero => ha (by rw [hzero, Nat.zero_div])
        exact ih (a / base) (Nat.div_lt_self hpos hbase) (List.reverse_inj.mp hrest)
    rw [← Nat.div_add_mod a base, ← Nat.div_add_mod b base, hmod, hdiv]

/-! ### Canonical numerals -/

/-- The digits of `n`, most significant first, without a leading zero but for `0` itself. -/
structure Digits (base n : Nat) (ds : List Nat) : Prop where
  lt : ∀ d ∈ ds, d < base
  value : ds.foldl (fun v d => v * base + d) 0 = n
  ne_nil : ds ≠ []
  leading : ds.head? = some 0 → ds = [0]

/-- `s` shows the digits of `n`. -/
def IsNumeral (base n : Nat) (s : List (BitVec 8)) : Prop := ∃ ds, Digits base n ds ∧ s = ds.map digit

theorem Digits.single {base n : Nat} (h : n < base) : Digits base n [n] where
  lt d hd := List.mem_singleton.mp hd ▸ h
  value := by rw [List.foldl_cons, List.foldl_nil, Nat.zero_mul, Nat.zero_add]
  ne_nil := List.cons_ne_nil _ _
  leading h0 := by rw [Option.some.inj h0]

theorem Digits.concat {base n : Nat} {ds : List Nat} (hn : 0 < n) (h : Digits base n ds) {d : Nat} (hd : d < base) :
    Digits base (n * base + d) (ds ++ [d]) where
  lt e he := by
    rcases List.mem_append.mp he with he | he
    · exact h.lt e he
    · exact List.mem_singleton.mp he ▸ hd
  value := by rw [List.foldl_append, h.value, List.foldl_cons, List.foldl_nil]
  ne_nil := List.append_ne_nil_of_right_ne_nil _ (List.cons_ne_nil _ _)
  leading h0 := by
    obtain ⟨e, ds, rfl⟩ := List.exists_cons_of_ne_nil h.ne_nil
    have hvalue := h.value
    rw [h.leading h0, List.foldl_cons, List.foldl_nil, Nat.zero_mul] at hvalue
    omega

theorem numeral_of_lt {base n : Nat} (hbase : 1 < base) (h : n < base) : numeral base n = [digit n] := by
  rw [numeral, Nat.toDigits_eq_if hbase, if_pos h]
  rfl

theorem numeral_of_le {base n : Nat} (hbase : 1 < base) (h : base ≤ n) :
    numeral base n = numeral base (n / base) ++ [digit (n % base)] := by
  rw [numeral, Nat.toDigits_eq_if hbase, if_neg (by omega), List.map_append]
  rfl

theorem isNumeral_numeral {base : Nat} (hbase : 1 < base) (n : Nat) : IsNumeral base n (numeral base n) := by
  induction n using Nat.strongRecOn with
  | _ n ih =>
    by_cases h : n < base
    · exact ⟨[n], .single h, numeral_of_lt hbase h⟩
    · have hle : base ≤ n := by omega
      obtain ⟨ds, hds, htext⟩ := ih (n / base) (Nat.div_lt_self (by omega) hbase)
      refine ⟨ds ++ [n % base], ?_, ?_⟩
      · have hdigits := hds.concat (Nat.div_pos hle (by omega)) (Nat.mod_lt n (by omega))
        rwa [Nat.div_add_mod'] at hdigits
      · rw [numeral_of_le hbase hle, htext, List.map_append]
        rfl

end Numeral
