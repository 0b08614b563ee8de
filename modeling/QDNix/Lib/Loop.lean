import Mathlib.Data.Nat.Notation

/-!
# Loops

A loop is given by one turn of it: `turn s = some (s', again)`, where `again` says whether control goes
back to the head or leaves, and `none` when the turn never reaches its end (an exception, an access that is
not allowed). `run` makes at most so many turns; `Ends turn s t` is total correctness, the loop entered in
`s` is left in `t`.

The states at the head of a counted loop are a function of the turn number: `ends_counted` and
`ends_iff_counted` need only one equation for each turn. `not_ends` is the rule for a loop that never gets
to its exit.
-/

universe u

namespace Loop

variable {σ : Type u}

/-- At most `fuel` turns; `none` if they do not reach the exit. -/
def run (turn : σ → Option (σ × Bool)) : ℕ → σ → Option σ
  | 0, _ => none
  | fuel + 1, s => match turn s with
    | none => none
    | some (s', true) => run turn fuel s'
    | some (s', false) => some s'

/-- Entered in `s`, the loop is left in `t`. -/
def Ends (turn : σ → Option (σ × Bool)) (s t : σ) : Prop := ∃ fuel, run turn fuel s = some t

variable {turn : σ → Option (σ × Bool)} {s s' t t' : σ}

theorem run_again (h : turn s = some (s', true)) (fuel : ℕ) : run turn (fuel + 1) s = run turn fuel s' := by
  rw [run, h]

theorem run_leave (h : turn s = some (s', false)) (fuel : ℕ) : run turn (fuel + 1) s = some s' := by
  rw [run, h]

theorem run_stuck (h : turn s = none) (fuel : ℕ) : run turn fuel s = none := by
  cases fuel with
  | zero => rfl
  | succ fuel => rw [run, h]

theorem ends_iff_of_again (h : turn s = some (s', true)) : Ends turn s t ↔ Ends turn s' t := by
  constructor
  · rintro ⟨fuel, hrun⟩
    cases fuel with
    | zero => cases hrun
    | succ fuel => exact ⟨fuel, (run_again h fuel).symm.trans hrun⟩
  · rintro ⟨fuel, hrun⟩
    exact ⟨fuel + 1, (run_again h fuel).trans hrun⟩

theorem ends_iff_of_leave (h : turn s = some (s', false)) : Ends turn s t ↔ t = s' := by
  constructor
  · rintro ⟨fuel, hrun⟩
    cases fuel with
    | zero => cases hrun
    | succ fuel => exact Option.some.inj (hrun.symm.trans (run_leave h fuel))
  · rintro rfl
    exact ⟨1, run_leave h 0⟩

theorem not_ends_of_stuck (h : turn s = none) : ¬ Ends turn s t := by
  rintro ⟨fuel, hrun⟩
  rw [run_stuck h] at hrun
  cases hrun

theorem Ends.unique (h : Ends turn s t) (h' : Ends turn s t') : t = t' := by
  obtain ⟨fuel, hrun⟩ := h
  induction fuel generalizing s with
  | zero => cases hrun
  | succ fuel ih =>
    cases hturn : turn s with
    | none => exact absurd h' (not_ends_of_stuck hturn)
    | some r =>
      obtain ⟨s', again⟩ := r
      cases again with
      | false =>
        rw [run_leave hturn] at hrun
        exact ((ends_iff_of_leave hturn).mp h' ▸ Option.some.inj hrun).symm
      | true =>
        rw [run_again hturn] at hrun
        exact ih ((ends_iff_of_again hturn).mp h') hrun

theorem run_unique {fuel fuel' : ℕ} (h : run turn fuel s = some t) (h' : run turn fuel' s = some t') : t = t' :=
  Ends.unique ⟨fuel, h⟩ ⟨fuel', h'⟩

theorem run_mono {fuel : ℕ} (h : run turn fuel s = some t) (k : ℕ) : run turn (fuel + k) s = some t := by
  induction fuel generalizing s with
  | zero => cases h
  | succ fuel ih =>
    rw [Nat.add_right_comm]
    cases hturn : turn s with
    | none =>
      rw [run_stuck hturn] at h
      cases h
    | some r =>
      obtain ⟨s', again⟩ := r
      cases again with
      | false =>
        rw [run_leave hturn] at h ⊢
        exact h
      | true =>
        rw [run_again hturn] at h ⊢
        exact ih h

theorem Ends.inv {I : σ → Prop} (turns : ∀ s s' again, I s → turn s = some (s', again) → I s') (h : I s)
    (hends : Ends turn s t) : I t := by
  obtain ⟨fuel, hrun⟩ := hends
  induction fuel generalizing s with
  | zero => cases hrun
  | succ fuel ih =>
    cases hturn : turn s with
    | none =>
      rw [run_stuck hturn] at hrun
      cases hrun
    | some r =>
      obtain ⟨s', again⟩ := r
      have hnext := turns s s' again h hturn
      cases again with
      | false =>
        rw [run_leave hturn] at hrun
        exact Option.some.inj hrun ▸ hnext
      | true =>
        rw [run_again hturn] at hrun
        exact ih hnext hrun

section Counted

variable {S : ℕ → σ} {n : ℕ}

theorem run_counted (again : ∀ i < n, turn (S i) = some (S (i + 1), true)) (fuel : ℕ) :
    run turn (n + fuel) (S 0) = run turn fuel (S n) := by
  induction n generalizing fuel with
  | zero => rw [Nat.zero_add]
  | succ n ih =>
    rw [Nat.add_right_comm, Nat.add_assoc, ih fun i hi => again i (by omega)]
    exact run_again (again n (by omega)) fuel

theorem ends_iff_counted (again : ∀ i < n, turn (S i) = some (S (i + 1), true)) :
    Ends turn (S 0) t ↔ Ends turn (S n) t := by
  induction n with
  | zero => rfl
  | succ n ih =>
    rw [ih fun i hi => again i (by omega)]
    exact ends_iff_of_again (again n (by omega))

theorem ends_counted (again : ∀ i < n, turn (S i) = some (S (i + 1), true))
    (leave : turn (S n) = some (t, false)) : Ends turn (S 0) t :=
  (ends_iff_counted again).mpr ((ends_iff_of_leave leave).mpr rfl)

/-- The rule for a counted loop: `I i` holds at the head of turn `i`, and turn `n` leaves with `Q`. -/
theorem ends_of_inv {I : ℕ → σ → Prop} {Q : σ → Prop}
    (again : ∀ i < n, ∀ s, I i s → ∃ s', turn s = some (s', true) ∧ I (i + 1) s')
    (leave : ∀ s, I n s → ∃ t, turn s = some (t, false) ∧ Q t) (h : I 0 s) : ∃ t, Ends turn s t ∧ Q t := by
  have hhead : ∀ i ≤ n, ∃ s', I i s' ∧ ∀ t, Ends turn s' t → Ends turn s t := by
    intro i hi
    induction i with
    | zero => exact ⟨s, h, fun _ ht => ht⟩
    | succ i ih =>
      obtain ⟨s', hinv, hends⟩ := ih (by omega)
      obtain ⟨s'', hturn, hinv'⟩ := again i hi s' hinv
      exact ⟨s'', hinv', fun t ht => hends t ((ends_iff_of_again hturn).mpr ht)⟩
  obtain ⟨s', hinv, hends⟩ := hhead n (Nat.le_refl n)
  obtain ⟨t, hturn, hQ⟩ := leave s' hinv
  exact ⟨t, hends t ((ends_iff_of_leave hturn).mpr rfl), hQ⟩

/-- A loop that counts bytes in steps of `w` and tests after the step goes round once at least, and as often
as it takes to reach `n`. -/
def strides (w n : ℕ) : ℕ := max 1 ((n + w - 1) / w)

theorem succ_lt_strides_iff {w i : ℕ} (hw : 0 < w) : i + 1 < strides w n ↔ w * (i + 1) < n := by
  have hceil : i + 1 < (n + w - 1) / w ↔ w * (i + 1) < n := by
    rw [Nat.lt_iff_add_one_le, Nat.le_div_iff_mul_le hw, Nat.add_mul, Nat.one_mul, Nat.mul_comm]
    omega
  rw [strides, ← hceil]
  omega

theorem le_strides {w : ℕ} (hw : 0 < w) : n ≤ w * strides w n := by
  have hdiv := Nat.div_add_mod (n + w - 1) w
  have hmod := Nat.mod_lt (n + w - 1) hw
  have hle : w * ((n + w - 1) / w) ≤ w * strides w n := Nat.mul_le_mul_left w (Nat.le_max_right ..)
  omega

theorem ends_strides {w : ℕ} (hw : 0 < w)
    (turns : ∀ i < strides w n, turn (S i) = some (S (i + 1), decide (w * (i + 1) < n))) :
    Ends turn (S 0) (S (strides w n)) := by
  obtain ⟨k, hk⟩ : ∃ k, strides w n = k + 1 := ⟨strides w n - 1, by rw [strides]; omega⟩
  rw [hk] at turns ⊢
  apply ends_counted (n := k)
  · intro i hi
    rw [turns i (by omega), decide_eq_true ((succ_lt_strides_iff hw).mp (by omega))]
  · rw [turns k (by omega), decide_eq_false fun h => ?_]
    have := (succ_lt_strides_iff hw).mpr h
    omega

end Counted

theorem not_ends {I : σ → Prop}
    (turns : ∀ s, I s → turn s = none ∨ ∃ s', turn s = some (s', true) ∧ I s') (h : I s) :
    ¬ Ends turn s t := by
  rintro ⟨fuel, hrun⟩
  induction fuel generalizing s with
  | zero => cases hrun
  | succ fuel ih =>
    rcases turns s h with hstuck | ⟨s', hturn, h'⟩
    · rw [run_stuck hstuck] at hrun
      cases hrun
    · rw [run_again hturn] at hrun
      exact ih h' hrun

end Loop
