import QDNix.Libkern.PrintkSwitch

/-!
# Signed conversion on every data model

`printk` negates an `int` in `int` and only then widens it to `uintptr_t`. The one value that is its own
negation, the most negative one, is widened as a negative number: where `uintptr_t` is wider than `int`,
`2 ^ W - 2 ^ (w - 1)` is printed for `2 ^ (w - 1)` (`printsSigned_iff`).
-/

namespace QDNix.Libkern

open Kern Traced Numeral

variable {w W : Nat}

/-- `%d` and `%i` put the canonical decimal numeral of `x`. -/
def PrintsSigned (W : Nat) (x : BitVec w) : Prop :=
  ∀ c, c = ch 'd' ∨ c = ch 'i' → ∀ (args : List (Arg w W)) (buff : Buff),
    ∃ buff', printkSwitch c (.int x :: args) buff = ⟨putAll (decimal x.toInt), some (args, buff')⟩

theorem putAll_inj {s t : List Byte} (h : putAll s = putAll t) : s = t :=
  List.map_injective_iff.mpr (fun _ _ heq => Op.putchar.inj heq) h

theorem signed_inj {x : BitVec w} {m m' : Nat} (h : signed x m = signed x m') : m = m' := by
  unfold signed at h
  split at h
  · exact numeral_inj (by decide) (by decide) (List.cons.inj h).2
  · exact numeral_inj (by decide) (by decide) h

theorem magnitude_intMin_ne (hw : 0 < w) (hlt : w < W) :
    (magnitude W (BitVec.intMin w)).toNat ≠ (BitVec.intMin w).toInt.natAbs := by
  have habs : (BitVec.intMin w).toInt.natAbs = 2 ^ (w - 1) := by
    rw [BitVec.toInt_intMin_of_pos hw, Int.natAbs_neg, Int.natAbs_pow]
    rfl
  have hhalf : 2 ^ (w - 1) < 2 ^ w := Nat.pow_lt_pow_right (by decide) (by omega)
  have hdouble : 2 ^ (w + 1) ≤ 2 ^ W := Nat.pow_le_pow_right (by decide) hlt
  rw [Nat.pow_succ] at hdouble
  rw [magnitude_intMin hw hlt.le, habs]
  omega

/-- **`%d` and `%i` print every `int` but the most negative one where `uintptr_t` is wider.** -/
theorem printsSigned_iff (hw : 16 ≤ w) (hle : w ≤ W) (hW : W ≤ 64) (x : BitVec w) :
    PrintsSigned W x ↔ (x = BitVec.intMin w → w = W) := by
  constructor
  · intro h hmin
    obtain ⟨_, hprint⟩ := h (ch 'd') (.inl rfl) [] (Vector.replicate 20 0)
    obtain ⟨_, hswitch⟩ := printkSwitch_signed (by omega) hW (.inl rfl) x [] (Vector.replicate 20 0)
    rw [hprint, decimal_eq_signed] at hswitch
    have habs := signed_inj (putAll_inj (congrArg Traced.events hswitch))
    by_contra hne
    rw [hmin] at habs
    exact magnitude_intMin_ne (by omega) (by omega) habs.symm
  · intro h c hc args buff
    obtain ⟨buff', hswitch⟩ := printkSwitch_signed (by omega) hW hc x args buff
    rw [magnitude_eq (by omega) hle h, ← decimal_eq_signed] at hswitch
    exact ⟨buff', hswitch⟩

theorem printsSigned_iff_widths : PrintsSigned 16 (0x8000 : BitVec 16) ∧ PrintsSigned 64 (-1 : BitVec 32) :=
  ⟨(printsSigned_iff (by decide) (by decide) (by decide) _).mpr fun _ => rfl,
    (printsSigned_iff (by decide) (by decide) (by decide) _).mpr fun h => absurd h (by decide)⟩

/-- `-2147483648` on a 64-bit target: `-18446744071562067968` is printed. -/
theorem not_printsSigned_intMin : ¬ PrintsSigned 64 (0x80000000 : BitVec 32) := by
  intro h
  obtain ⟨_, hprint⟩ := h (ch 'd') (.inl rfl) [] (Vector.replicate 20 0)
  obtain ⟨_, hswitch⟩ :=
    printkSwitch_signed (W := 64) (by decide) (by decide) (.inl rfl) (0x80000000 : BitVec 32) []
      (Vector.replicate 20 0)
  rw [hprint] at hswitch
  exact absurd (putAll_inj (congrArg Traced.events hswitch)) (by decide)

end QDNix.Libkern
