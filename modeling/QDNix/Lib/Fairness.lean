import Mathlib.Data.List.Basic

/-!
# Fair schedules

A system takes its moves from an endless schedule; some are moves of its environment, some its own. It
may be blocked, and then waits for the environment. `Drives` is the usual argument that it gets done: a
measure that no move raises, that an own move lowers unless the system is blocked, and an environment that
unblocks it. Under a schedule that lets both parties move again and again the measure reaches 0 and stays
there (`Drives.done`), however the moves are interleaved.
-/

namespace Fairness

variable {σ κ : Type} (step : σ → κ → σ)

/-- The state after the first `n` moves of a schedule. -/
def after (s : σ) (f : Nat → κ) : Nat → σ
  | 0 => s
  | n + 1 => step (after s f n) (f n)

theorem after_eq_foldl (s : σ) (f : Nat → κ) (n : Nat) :
    after step s f n = ((List.range n).map f).foldl step s := by
  induction n with
  | zero => rfl
  | succ n ih => simp [after, ih, List.range_succ]

theorem after_add (s : σ) (f : Nat → κ) (n m : Nat) :
    after step s f (n + m) = after step (after step s f n) (fun k => f (n + k)) m := by
  induction m with
  | zero => rfl
  | succ m ih => rw [← Nat.add_assoc, after, after, ih]

theorem after_congr {step step' : σ → κ → σ} {f : Nat → κ} (h : ∀ n s, step s (f n) = step' s (f n)) (s : σ) (n : Nat) :
    after step s f n = after step' s f n := by
  induction n with
  | zero => rfl
  | succ n ih => rw [after, after, ih, h]

theorem after_fixed {step : σ → κ → σ} {s : σ} {f : Nat → κ} {n m : Nat} (hnm : n ≤ m)
    (hfixed : ∀ k, step (after step s f n) k = after step s f n) : after step s f m = after step s f n := by
  obtain ⟨d, rfl⟩ := Nat.exists_eq_add_of_le hnm
  induction d with
  | zero => rfl
  | succ d ih =>
    have hd := ih (by omega)
    rw [← Nat.add_assoc, after, hd, hfixed]

/-- Both parties move again and again, whoever else does. -/
structure Fair (env own : κ → Prop) (f : Nat → κ) : Prop where
  recurs : ∀ n, ∃ m, n ≤ m ∧ env (f m)
  recurs_own : ∀ n, ∃ m, n ≤ m ∧ own (f m)

theorem Fair.map {κ' : Type} {env own : κ → Prop} {env' own' : κ' → Prop} {f : Nat → κ} (hf : Fair env own f)
    {g : κ → κ'} (henv : ∀ k, env k → env' (g k)) (hown : ∀ k, own k → own' (g k)) :
    Fair env' own' fun n => g (f n) := by
  constructor
  · intro n
    obtain ⟨m, hnm, hm⟩ := hf.recurs n
    exact ⟨m, hnm, henv _ hm⟩
  · intro n
    obtain ⟨m, hnm, hm⟩ := hf.recurs_own n
    exact ⟨m, hnm, hown _ hm⟩

theorem Fair.shift {env own : κ → Prop} {f : Nat → κ} (hf : Fair env own f) (d : Nat) :
    Fair env own fun n => f (d + n) := by
  constructor
  · intro n
    obtain ⟨m, hnm, hm⟩ := hf.recurs (d + n)
    exact ⟨m - d, by omega, by rwa [show d + (m - d) = m by omega]⟩
  · intro n
    obtain ⟨m, hnm, hm⟩ := hf.recurs_own (d + n)
    exact ⟨m - d, by omega, by rwa [show d + (m - d) = m by omega]⟩

theorem fair_turns {env own : κ → Prop} {e c : κ} (he : env e) (hc : own c) :
    Fair env own fun n => if n % 2 = 0 then e else c := by
  constructor
  · intro n
    refine ⟨2 * n, by omega, ?_⟩
    rw [if_pos (by omega)]
    exact he
  · intro n
    refine ⟨2 * n + 1, by omega, ?_⟩
    rw [if_neg (by omega)]
    exact hc

/-- The system gets on whenever it is not blocked, and the environment unblocks it. -/
structure Drives (env own : κ → Prop) (Inv Blocked : σ → Prop) (todo : σ → Nat) : Prop where
  inv : ∀ s k, Inv s → Inv (step s k)
  mono : ∀ s k, Inv s → todo (step s k) ≤ todo s
  frees : ∀ s k, Inv s → env k → ¬ Blocked (step s k)
  moves : ∀ s k, Inv s → own k → ¬ Blocked s → 0 < todo s → todo (step s k) < todo s
  stays : ∀ s k, Inv s → ¬ Blocked s → todo (step s k) = todo s → ¬ Blocked (step s k)

namespace Drives

variable {step} {env own : κ → Prop} {Inv Blocked : σ → Prop} {todo : σ → Nat}
  (h : Drives step env own Inv Blocked todo) {s : σ} (hs : Inv s) (f : Nat → κ)

include h hs

theorem inv_after (n : Nat) : Inv (after step s f n) := by
  induction n with
  | zero => exact hs
  | succ n ih => exact h.inv _ _ ih

theorem todo_after_le {n m : Nat} (hnm : n ≤ m) : todo (after step s f m) ≤ todo (after step s f n) := by
  obtain ⟨d, rfl⟩ := Nat.exists_eq_add_of_le hnm
  induction d with
  | zero => exact Nat.le_refl _
  | succ d ih => exact Nat.le_trans (h.mono _ _ (h.inv_after hs f (n + d))) (ih (by omega))

theorem not_blocked_after {n m : Nat} (hnm : n ≤ m) (hfree : ¬ Blocked (after step s f n))
    (htodo : todo (after step s f m) = todo (after step s f n)) : ¬ Blocked (after step s f m) := by
  obtain ⟨d, rfl⟩ := Nat.exists_eq_add_of_le hnm
  induction d with
  | zero => exact hfree
  | succ d ih =>
    have hlast := h.todo_after_le hs f (show n + d ≤ n + (d + 1) by omega)
    have hfirst := h.todo_after_le hs f (show n ≤ n + d by omega)
    have hstand : todo (after step s f (n + d)) = todo (after step s f n) := by omega
    exact h.stays _ _ (h.inv_after hs f _) (ih (by omega) hstand) (htodo.trans hstand.symm)

variable {f} (hf : Fair env own f)

include hf

theorem exists_free (n : Nat) : ∃ m, n ≤ m ∧ ¬ Blocked (after step s f m) := by
  obtain ⟨m, hnm, henv⟩ := hf.recurs n
  exact ⟨m + 1, by omega, h.frees _ _ (h.inv_after hs f m) henv⟩

theorem exists_lower (n : Nat) (hpos : 0 < todo (after step s f n)) :
    ∃ m, n ≤ m ∧ todo (after step s f m) < todo (after step s f n) := by
  obtain ⟨k, hnk, hfree⟩ := h.exists_free hs hf n
  obtain ⟨m, hkm, hown⟩ := hf.recurs_own k
  have hle := h.todo_after_le hs f (Nat.le_trans hnk hkm)
  by_cases hlow : todo (after step s f m) < todo (after step s f n)
  · exact ⟨m, by omega, hlow⟩
  · have hkn := h.todo_after_le hs f hnk
    have hmk := h.todo_after_le hs f hkm
    have hfree' := h.not_blocked_after hs f hkm hfree (by omega)
    refine ⟨m + 1, by omega, ?_⟩
    have hmove := h.moves _ _ (h.inv_after hs f m) hown hfree' (by omega)
    exact Nat.lt_of_lt_of_le hmove hle

theorem exists_todo_zero : ∀ (b n : Nat), todo (after step s f n) ≤ b → ∃ m, todo (after step s f m) = 0 := by
  intro b
  induction b with
  | zero => exact fun n hb => ⟨n, by omega⟩
  | succ b ih =>
    intro n hb
    by_cases hpos : 0 < todo (after step s f n)
    · obtain ⟨m, -, hlow⟩ := h.exists_lower hs hf n hpos
      exact ih m (by omega)
    · exact ⟨n, by omega⟩

/-- **Under every fair schedule the system gets done**, and from then on it stays done and unblocked. -/
theorem done : ∃ n, ∀ m, n ≤ m → todo (after step s f m) = 0 ∧ ¬ Blocked (after step s f m) := by
  obtain ⟨k, hzero⟩ := h.exists_todo_zero hs hf _ 0 (Nat.le_refl _)
  obtain ⟨n, hkn, hfree⟩ := h.exists_free hs hf k
  have hrest : ∀ m, k ≤ m → todo (after step s f m) = 0 := fun m hkm => by
    have hle := h.todo_after_le hs f hkm
    omega
  refine ⟨n, fun m hnm => ⟨hrest m (Nat.le_trans hkn hnm), ?_⟩⟩
  exact h.not_blocked_after hs f hnm hfree (by rw [hrest m (Nat.le_trans hkn hnm), hrest n hkn])

end Drives

end Fairness
