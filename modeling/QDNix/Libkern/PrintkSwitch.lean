import QDNix.Libkern.Format
import QDNix.Libkern.Printuint

/-!
# The `switch` of `printk`

One directive, for any widths `w` of `int` and `W` of `uintptr_t` at which no numeral outgrows the 20 digits
of `buff`. Every directive but `%d` and `%i` puts what it stands for (`printkSwitch_other`); those two put a
sign and the numeral of a `magnitude` (`printkSwitch_signed`), which is that of the argument wherever the
wrapped negation of the most negative `int` is not widened (`magnitude_eq`).
-/

namespace QDNix.Libkern

open Kern Traced Numeral

variable {w W : Nat}

/-! ### Strings -/

theorem printstrLoop_eq {s : List Byte} (h : 0 ∈ s) :
    printstrLoop s = ⟨putAll (s.takeWhile (· ≠ 0)), some ()⟩ := by
  induction s with
  | nil => simp at h
  | cons c s ih =>
    rw [printstrLoop]
    by_cases hc : c = 0
    · simp [hc]
      rfl
    · have hmem : 0 ∈ s := (List.mem_cons.mp h).resolve_left (Ne.symm hc)
      rw [if_neg hc, ih hmem, List.takeWhile_cons_of_pos (by simpa using hc)]
      rfl

theorem printstr_eq {s : Option (List Byte)} {text : List Byte} (h : s.elim (some nullText) cText = some text) :
    printstr s = ⟨putAll text, some ()⟩ := by
  cases s with
  | none =>
    rw [← Option.some.inj h]
    rfl
  | some s =>
    rw [Option.elim_some, cText] at h
    split at h
    · next hmem =>
      rw [← Option.some.inj h]
      exact printstrLoop_eq hmem
    · simp at h

/-! ### Signed numbers -/

/-- What `printuint` gets for an `int`: its wrapped negation if it is negative, as a `uintptr_t`. -/
def magnitude (W : Nat) (x : BitVec w) : BitVec W := if x.slt 0 then (-x).signExtend W else x.signExtend W

theorem toNat_signExtend_of_nonneg (hle : w ≤ W) {y : BitVec w} (h : 0 ≤ y.toInt) :
    (y.signExtend W).toNat = y.toInt.natAbs := by
  have hext : (y.signExtend W).toInt = y.toInt := BitVec.toInt_signExtend_of_le hle
  rw [← hext] at h ⊢
  have hlt := (y.signExtend W).isLt
  rw [BitVec.toInt_eq_toNat_cond] at h ⊢
  split at h <;> rename_i hc <;> simp only [hc, if_true, if_false] <;> omega

theorem toNat_signExtend_of_neg (hle : w ≤ W) {y : BitVec w} (h : y.toInt < 0) :
    ((y.signExtend W).toNat : Int) = 2 ^ W + y.toInt := by
  have hext : (y.signExtend W).toInt = y.toInt := BitVec.toInt_signExtend_of_le hle
  rw [← hext] at h ⊢
  have hlt := (y.signExtend W).isLt
  rw [BitVec.toInt_eq_toNat_cond] at h ⊢
  split at h <;> rename_i hc <;> simp only [hc, if_true, if_false] <;> push_cast <;> omega

theorem slt_zero_iff {x : BitVec w} : x.slt 0 = true ↔ x.toInt < 0 := by simp [BitVec.slt]

/-- The most negative `int` is its own negation, and is widened as a negative number. -/
theorem magnitude_intMin (hw : 0 < w) (hle : w ≤ W) :
    (magnitude W (BitVec.intMin w)).toNat = 2 ^ W - 2 ^ (w - 1) := by
  have hmin : (BitVec.intMin w).toInt = -2 ^ (w - 1) := BitVec.toInt_intMin_of_pos hw
  have hneg : (BitVec.intMin w).toInt < 0 := by
    rw [hmin]
    exact Int.neg_neg_of_pos (Int.pow_pos (by decide))
  have hext := toNat_signExtend_of_neg hle hneg
  rw [magnitude, if_pos (slt_zero_iff.mpr hneg), BitVec.neg_intMin]
  rw [hmin] at hext
  have hhalf : ((2 ^ (w - 1) : Nat) : Int) = 2 ^ (w - 1) := by push_cast; rfl
  have hfull : ((2 ^ W : Nat) : Int) = 2 ^ W := by push_cast; rfl
  omega

theorem magnitude_eq (hw : 0 < w) (hle : w ≤ W) {x : BitVec w} (h : x = BitVec.intMin w → w = W) :
    (magnitude W x).toNat = x.toInt.natAbs := by
  by_cases hmin : x = BitVec.intMin w
  · obtain rfl := h hmin
    have hhalf : 2 ^ w = 2 ^ (w - 1) * 2 := by rw [← Nat.pow_succ, Nat.succ_eq_add_one, Nat.sub_add_cancel hw]
    have habs : (-2 ^ (w - 1) : Int).natAbs = 2 ^ (w - 1) := by
      rw [Int.natAbs_neg, Int.natAbs_pow]
      rfl
    rw [hmin, magnitude_intMin hw hle, BitVec.toInt_intMin_of_pos hw, habs]
    omega
  · have hneg := BitVec.toInt_neg_of_ne_intMin hmin
    unfold magnitude
    by_cases hx : x.toInt < 0
    · rw [if_pos (slt_zero_iff.mpr hx), toNat_signExtend_of_nonneg hle (by omega), hneg, Int.natAbs_neg]
    · rw [if_neg (mt slt_zero_iff.mp hx), toNat_signExtend_of_nonneg hle (by omega)]

/-- The text of a number whose magnitude is printed as `m`. -/
def signed (x : BitVec w) (m : Nat) : List Byte := if x.toInt < 0 then ch '-' :: numeral 10 m else numeral 10 m

theorem decimal_eq_signed (x : BitVec w) : decimal x.toInt = signed x x.toInt.natAbs := rfl

/-! ### Directives -/

section Directives

variable (hw : w ≤ 32) (hle : w ≤ W) (h16 : 16 ≤ W) (h64 : W ≤ 64)

include h16 h64

theorem printuint_uintptr {base : Nat} (hten : 10 ≤ base) (hsixteen : base ≤ 16) (u : BitVec W) (buff : Buff) :
    ∃ buff', printuint u base buff = ⟨putAll (numeral base u.toNat), some buff'⟩ := by
  have hbase : base < 2 ^ W :=
    calc base < 2 ^ 16 := by omega
      _ ≤ 2 ^ W := Nat.pow_le_pow_right (by decide) h16
  exact printuint_eq (by omega) hsixteen hbase u (length_numeral_uintptr h64 hten u) buff

theorem printkSwitch_signed {c : Byte} (hc : c = ch 'd' ∨ c = ch 'i') (x : BitVec w) (args : List (Arg w W))
    (buff : Buff) : ∃ buff', printkSwitch c (.int x :: args) buff =
      ⟨putAll (signed x (magnitude W x).toNat), some (args, buff')⟩ := by
  have hpercent : c ≠ ch '%' := by rcases hc with rfl | rfl <;> decide
  obtain ⟨buff', hprint⟩ := printuint_uintptr h16 h64 (by decide : 10 ≤ 10) (by decide) (magnitude W x) buff
  refine ⟨buff', ?_⟩
  unfold printkSwitch
  rw [if_neg hpercent, if_pos hc]
  simp only [vaInt, pure_bind]
  by_cases hx : x.toInt < 0
  · have hsign := slt_zero_iff.mpr hx
    rw [magnitude, if_pos hsign] at hprint ⊢
    rw [if_pos hsign, signed, if_pos hx, emit_bind, hprint, bind_of_some rfl]
    simp
  · have hsign := mt slt_zero_iff.mp hx
    rw [magnitude, if_neg hsign] at hprint ⊢
    rw [if_neg hsign, signed, if_neg hx, hprint, bind_of_some rfl]
    simp

include hw hle

omit h64 in
theorem printUnsigned_eq {base : Nat} (hbase : 8 ≤ base) (hsixteen : base ≤ 16) (x : BitVec w)
    (args : List (Arg w W)) (buff : Buff) :
    ∃ buff', (do
        let (u, args) ← vaUnsigned (.unsigned x :: args)
        let buff ← printuint (u.setWidth W) base buff
        pure (args, buff)) = (⟨putAll (numeral base x.toNat), some (args, buff')⟩ : Traced Op _) := by
  have hvalue := toNat_widen hle x
  have hwidth : base < 2 ^ W :=
    calc base < 2 ^ 16 := by omega
      _ ≤ 2 ^ W := Nat.pow_le_pow_right (by decide) h16
  obtain ⟨buff', hprint⟩ := printuint_eq (by omega) hsixteen hwidth (x.setWidth W)
    (by rw [hvalue]; exact length_numeral_unsigned hw hbase x) buff
  rw [hvalue] at hprint
  refine ⟨buff', ?_⟩
  simp only [vaUnsigned, pure_bind]
  rw [hprint, bind_of_some rfl]
  simp

theorem printkSwitch_other {c : Byte} (hc : ¬ (c = ch 'd' ∨ c = ch 'i')) {args args' : List (Arg w W)}
    {text : List Byte} (buff : Buff) (h : render (directiveOf c) args = some (text, args')) :
    ∃ buff', printkSwitch c args buff = ⟨putAll text, some (args', buff')⟩ := by
  unfold directiveOf at h
  unfold printkSwitch
  by_cases hpercent : c = ch '%'
  · rw [if_pos hpercent] at h ⊢
    obtain ⟨rfl, rfl⟩ := Prod.mk.inj (Option.some.inj h)
    exact ⟨buff, rfl⟩
  rw [if_neg hpercent, if_neg hc] at h ⊢
  by_cases hunsigned : c = ch 'u'
  · rw [if_pos hunsigned] at h ⊢
    obtain ⟨x, rfl, rfl⟩ := takeUnsigned_eq_some.mp h
    exact printUnsigned_eq hw hle h16 (by omega) (by omega) x args' buff
  rw [if_neg hunsigned] at h ⊢
  by_cases hhex : c = ch 'x'
  · rw [if_pos hhex] at h ⊢
    obtain ⟨x, rfl, rfl⟩ := takeUnsigned_eq_some.mp h
    exact printUnsigned_eq hw hle h16 (by omega) (by omega) x args' buff
  rw [if_neg hhex] at h ⊢
  by_cases hoctal : c = ch 'o'
  · -- the digit 0 is put before the argument is fetched
    rw [if_pos hoctal] at h ⊢
    obtain ⟨x, rfl, rfl⟩ := takeUnsigned_eq_some.mp h
    obtain ⟨buff', hprint⟩ := printUnsigned_eq hw hle h16 (by omega : 8 ≤ 8) (by omega) x args' buff
    exact ⟨buff', by rw [emit_bind, hprint]; rfl⟩
  rw [if_neg hoctal] at h ⊢
  by_cases hstr : c = ch 's'
  · rw [if_pos hstr] at h ⊢
    obtain ⟨s, rfl, hs⟩ := takeStr_eq_some.mp h
    refine ⟨buff, ?_⟩
    simp only [vaStr, pure_bind]
    rw [printstr_eq hs, bind_of_some rfl]
    simp
  rw [if_neg hstr] at h ⊢
  by_cases hchar : c = ch 'c'
  · rw [if_pos hchar] at h ⊢
    obtain ⟨x, rfl, rfl⟩ := takeInt_eq_some.mp h
    exact ⟨buff, rfl⟩
  rw [if_neg hchar] at h ⊢
  by_cases hpointer : c = ch 'p' ∨ c = ch 'a'
  · rw [if_pos hpointer] at h ⊢
    obtain ⟨p, rfl, rfl⟩ := takeUintptr_eq_some.mp h
    obtain ⟨buff', hprint⟩ := printuint_uintptr h16 h64 (by omega : 10 ≤ 16) (by omega) p buff
    refine ⟨buff', ?_⟩
    simp only [vaUintptr, pure_bind]
    rw [hprint, bind_of_some rfl, bind_of_some rfl]
    simp [printstr, printstrLoop, ch]
  rw [if_neg hpointer] at h ⊢
  obtain ⟨rfl, rfl⟩ := Prod.mk.inj (Option.some.inj h)
  exact ⟨buff, rfl⟩

end Directives

end QDNix.Libkern
