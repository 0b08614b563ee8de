import QDNix.Lib.Fairness
import Mathlib.Logic.Function.Basic

/-!
# Cores that share a machine

Each core has a state of its own, all act on one shared state, and so does the environment. A schedule says
who acts next and, for a core, what it finds in the bits the machine leaves open.

A set of states is quiet for a core if the core, once in it, stays there and leaves the shared state alone. If
all cores but one are in a quiet set, the machine is the one other core alone, whatever the interleaving:
their moves only take time (`after_solo`).
-/

namespace Cores

open Fairness

variable {ι lam σ ω ε : Type} [DecidableEq ι]

structure Machine (ι lam σ : Type) where
  core : ι → lam
  shared : σ

/-- Who moves next. -/
inductive Choice (ι ω ε : Type)
  | core (i : ι) (other : ω)
  | env (e : ε)

variable (act : ι → lam → σ → ω → lam × σ) (env : σ → ε → σ)

def step (m : Machine ι lam σ) : Choice ι ω ε → Machine ι lam σ
  | .core i other =>
    let r := act i (m.core i) m.shared other
    ⟨Function.update m.core i r.1, r.2⟩
  | .env e => { m with shared := env m.shared e }

/-- The core stays in `Q` and leaves the shared state alone. -/
def Quiet (i : ι) (Q : lam → Prop) : Prop := ∀ l s other, Q l → Q (act i l s other).1 ∧ (act i l s other).2 = s

/-! ### One core alone -/

inductive SoloChoice (ω ε : Type)
  | own (other : ω)
  | env (e : ε)
  | rest

/-- Core `i` and the shared state, the other cores at rest. -/
def soloStep (i : ι) (s : lam × σ) : SoloChoice ω ε → lam × σ
  | .own other => act i s.1 s.2 other
  | .env e => (s.1, env s.2 e)
  | .rest => s

def Machine.solo (m : Machine ι lam σ) (i : ι) : lam × σ := (m.core i, m.shared)

/-- What core `i` sees of a choice. -/
def Choice.solo (i : ι) : Choice ι ω ε → SoloChoice ω ε
  | .core j other => if j = i then .own other else .rest
  | .env e => .env e

variable {act} {boot : ι} {Q : ι → lam → Prop}

theorem step_solo (hquiet : ∀ i, i ≠ boot → Quiet act i (Q i)) {m : Machine ι lam σ}
    (hm : ∀ i, i ≠ boot → Q i (m.core i)) (k : Choice ι ω ε) :
    (step act env m k).solo boot = soloStep act env boot (m.solo boot) (k.solo boot) ∧
      ∀ i, i ≠ boot → Q i ((step act env m k).core i) := by
  cases k with
  | env e => exact ⟨rfl, hm⟩
  | core j other =>
    by_cases hj : j = boot
    · subst hj
      constructor
      · rw [Choice.solo, if_pos rfl]
        simp [step, Machine.solo, soloStep]
      · intro i hi
        rw [step]
        simpa [Function.update_of_ne hi] using hm i hi
    · obtain ⟨hclosed, hleaves⟩ := hquiet j hj (m.core j) m.shared other (hm j hj)
      constructor
      · rw [Choice.solo, if_neg hj]
        simp [step, Machine.solo, soloStep, hleaves, Function.update_of_ne (Ne.symm hj)]
      · intro i hi
        by_cases hij : i = j
        · subst hij
          simpa [step] using hclosed
        · simpa [step, Function.update_of_ne hij] using hm i hi

/-- **Quiet cores only take time**: what core `boot` and the shared state come to is what they come to alone. -/
theorem after_solo (hquiet : ∀ i, i ≠ boot → Quiet act i (Q i)) {m : Machine ι lam σ}
    (hm : ∀ i, i ≠ boot → Q i (m.core i)) (f : Nat → Choice ι ω ε) (n : Nat) :
    (after (step act env) m f n).solo boot =
        after (soloStep act env boot) (m.solo boot) (fun n => (f n).solo boot) n ∧
      ∀ i, i ≠ boot → Q i ((after (step act env) m f n).core i) := by
  induction n with
  | zero => exact ⟨rfl, hm⟩
  | succ n ih =>
    obtain ⟨hsolo, hothers⟩ := ih
    obtain ⟨hstep, hothers'⟩ := step_solo env hquiet hothers (f n)
    refine ⟨?_, hothers'⟩
    rw [after, after, hstep, hsolo]

end Cores
