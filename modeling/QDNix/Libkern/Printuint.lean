import Mathlib.Tactic.IntervalCases
import QDNix.Lib.Numeral
import QDNix.Libkern.Printk

/-!
# `printuint`

`printuint` once more, with its stores to `buff` and its return as events of their own; the event of the call is
the caller's. `printuintMarked_calls` says that it is the same function. `digitLoopMarked` writes the numeral
backwards into `buff` (`digitLoopMarked_eq`, induction on the rounds, one digit a round), `putLoop` puts it
forwards.
-/

namespace QDNix.Libkern

open Kern Traced Numeral

variable {w W : Nat}

/-! ### Marks -/

/-- The call `printuint(u, base)`; a store to `buff[idx]`; its return; any call of the console. -/
inductive PrintuintEvent (W : Nat)
  | enter (u : BitVec W) (base : Nat)
  | store (idx : Nat)
  | leave
  | call (op : Op)
deriving DecidableEq, Repr

/-- The calls of the console behind an event. -/
def PrintuintEvent.calls : PrintuintEvent W → List Op
  | .call op => [op]
  | _ => []

/-- Code that does not reach `printuint`. -/
def unmarked {α : Type} (m : Traced Op α) : Traced (PrintuintEvent W) α := relabel (fun op => [.call op]) m

def digitLoopMarked (base : BitVec W) : Nat → BitVec W → Nat → Buff → Traced (PrintuintEvent W) (Nat × Buff)
  | 0, _, _, _ => undef
  | rounds + 1, u, idx, buff => do
    let c ← load digits (u % base).toNat
    emit (.store idx)
    let buff ← store buff idx c
    if u / base ≠ 0 then digitLoopMarked base rounds (u / base) (idx + 1) buff else pure (idx + 1, buff)

def printuintMarked (u : BitVec W) (base : Nat) (buff : Buff) : Traced (PrintuintEvent W) Buff := do
  let (idx, buff) ← digitLoopMarked (BitVec.ofNat W base) 21 u 0 buff
  unmarked (putLoop buff idx)
  emit .leave
  pure buff

theorem unmarked_calls {α : Type} (m : Traced Op α) :
    relabel PrintuintEvent.calls (unmarked m : Traced (PrintuintEvent W) α) = m := relabel_relabel (fun _ => rfl) m

@[simp] theorem events_unmarked {α : Type} (m : Traced Op α) :
    (unmarked m : Traced (PrintuintEvent W) α).events = m.events.map .call := List.map_eq_flatMap.symm

theorem digitLoopMarked_calls (base : BitVec W) (rounds : Nat) (u : BitVec W) (idx : Nat) (buff : Buff) :
    relabel PrintuintEvent.calls (digitLoopMarked base rounds u idx buff) = digitLoop base rounds u idx buff := by
  induction rounds generalizing u idx buff with
  | zero => rfl
  | succ rounds ih =>
    rw [digitLoopMarked, digitLoop, relabel_bind, relabel_load]
    refine congrArg _ (funext fun c => ?_)
    rw [relabel_emit_of_nil rfl, relabel_bind, relabel_store]
    refine congrArg _ (funext fun buff => ?_)
    split
    · exact ih (u / base) (idx + 1) buff
    · rfl

/-- **The marks leave the calls of the console as they are.** -/
theorem printuintMarked_calls (u : BitVec W) (base : Nat) (buff : Buff) :
    relabel PrintuintEvent.calls (printuintMarked u base buff) = printuint u base buff := by
  rw [printuintMarked, relabel_bind, digitLoopMarked_calls, printuint]
  refine congrArg _ (funext fun ⟨idx, buff⟩ => ?_)
  rw [relabel_bind, unmarked_calls]
  rfl

/-! ### What is stored and put -/

/-- The calls that put a text. -/
def putAll (text : List Byte) : List Op := text.map .putchar

@[simp] theorem putAll_nil : putAll [] = [] := rfl

@[simp] theorem putAll_cons (c : Byte) (text : List Byte) : putAll (c :: text) = .putchar c :: putAll text := rfl

@[simp] theorem putAll_append (s t : List Byte) : putAll (s ++ t) = putAll s ++ putAll t := List.map_append

theorem load_digits {ε : Type} {d : Nat} (h : d < 16) : (load digits d : Traced ε Byte) = pure (digit d) := by
  interval_cases d <;> rfl

theorem digitLoopMarked_eq {base : Nat} (hbase : 1 < base) (h16 : base ≤ 16) (hW : base < 2 ^ W) (rounds : Nat) :
    ∀ (u : BitVec W) (idx : Nat) (buff : Buff), (numeral base u.toNat).length ≤ rounds →
      idx + (numeral base u.toNat).length ≤ 20 →
      ∃ buff', digitLoopMarked (BitVec.ofNat W base) rounds u idx buff =
          ⟨(List.range' idx (numeral base u.toNat).length).map .store,
            some (idx + (numeral base u.toNat).length, buff')⟩ ∧
        filled buff' (idx + (numeral base u.toNat).length) = filled buff idx ++ (numeral base u.toNat).reverse := by
  have hto : (BitVec.ofNat W base).toNat = base := by rw [BitVec.toNat_ofNat, Nat.mod_eq_of_lt hW]
  induction rounds with
  | zero =>
    intro u idx buff hlen _
    have hpos := length_numeral_pos base u.toNat
    exact absurd hlen (by omega)
  | succ rounds ih =>
    intro u idx buff hlen hroom
    have hpos := length_numeral_pos base u.toNat
    have hdigit : u.toNat % base < 16 := lt_of_lt_of_le (Nat.mod_lt _ (by omega)) h16
    have hidx : idx < 20 := by omega
    have hload : (load digits (u % BitVec.ofNat W base).toNat : Traced (PrintuintEvent W) Byte) =
        pure (digit (u.toNat % base)) := by
      rw [BitVec.toNat_umod, hto, load_digits hdigit]
    have hdiv : (u / BitVec.ofNat W base).toNat = u.toNat / base := by rw [BitVec.toNat_udiv, hto]
    have hzero : u / BitVec.ofNat W base ≠ 0 ↔ u.toNat / base ≠ 0 := by
      rw [← hdiv, Ne, Ne, ← BitVec.toNat_inj]
      rfl
    rw [digitLoopMarked, hload, pure_bind, store_of_lt buff hidx, pure_bind, emit_bind]
    have hrev := reverse_numeral hbase u.toNat
    by_cases hq : u.toNat / base = 0
    · -- the last digit
      have hone : (numeral base u.toNat).length = 1 := by
        have := congrArg List.length hrev
        simpa [hq] using this
      rw [if_neg fun h => hzero.mp h hq, hone, hrev, if_pos hq]
      exact ⟨_, rfl, filled_set buff hidx _⟩
    · have hlen' := length_numeral_div hbase hq
      obtain ⟨buff', hloop, hfilled⟩ := ih (u / BitVec.ofNat W base) (idx + 1)
        (buff.set idx (digit (u.toNat % base)) hidx) (by rw [hdiv]; omega) (by rw [hdiv]; omega)
      rw [hdiv, show idx + 1 + (numeral base (u.toNat / base)).length = idx + (numeral base u.toNat).length by
        omega] at hloop hfilled
      refine ⟨buff', ?_, ?_⟩
      · rw [if_pos (hzero.mpr hq), hloop, hlen', List.range'_succ]
        rfl
      · rw [hfilled, filled_set, hrev, if_neg hq, List.append_assoc]
        rfl

theorem putLoop_eq (buff : Buff) (idx : Nat) (h : idx ≤ 20) :
    putLoop buff idx = ⟨putAll (filled buff idx).reverse, some ()⟩ := by
  induction idx with
  | zero => rfl
  | succ idx ih =>
    have hidx : idx < 20 := h
    rw [putLoop, load_of_lt buff hidx, pure_bind, emit_bind, ih (by omega), filled_succ buff hidx]
    simp

/-- The events inside a call that puts `text`, its return included. -/
def inside (text : List Byte) : List (PrintuintEvent W) :=
  (List.range text.length).map .store ++ (putAll text).map .call ++ [.leave]

/-- The events of one call that puts `text`. -/
def printed (u : BitVec W) (base : Nat) (text : List Byte) : List (PrintuintEvent W) := .enter u base :: inside text

theorem printuintMarked_eq {base : Nat} (hbase : 1 < base) (h16 : base ≤ 16) (hW : base < 2 ^ W) (u : BitVec W)
    (hlen : (numeral base u.toNat).length ≤ 20) (buff : Buff) :
    ∃ buff', printuintMarked u base buff = ⟨inside (numeral base u.toNat), some buff'⟩ := by
  obtain ⟨buff', hloop, hfilled⟩ := digitLoopMarked_eq hbase h16 hW 21 u 0 buff (by omega) (by omega)
  refine ⟨buff', ?_⟩
  rw [Nat.zero_add, filled_zero, List.nil_append] at hfilled
  rw [printuintMarked, hloop, bind_of_some rfl]
  simp only [Nat.zero_add]
  rw [putLoop_eq buff' _ hlen, hfilled, List.reverse_reverse, bind_of_some rfl, events_unmarked]
  rw [inside, List.range_eq_range', List.append_assoc]
  rfl

theorem inside_calls (text : List Byte) :
    (inside text : List (PrintuintEvent W)).flatMap PrintuintEvent.calls = putAll text := by
  have hstores : ((List.range text.length).map (PrintuintEvent.store (W := W))).flatMap PrintuintEvent.calls = [] :=
    List.flatMap_eq_nil_iff.mpr fun e he => by
      obtain ⟨idx, -, rfl⟩ := List.mem_map.mp he
      rfl
  have hcalls : ((putAll text).map (PrintuintEvent.call (W := W))).flatMap PrintuintEvent.calls = putAll text :=
    (List.flatMap_map ..).trans (List.flatMap_singleton' _)
  rw [inside, List.flatMap_append, List.flatMap_append, hstores, hcalls]
  exact List.append_nil _

theorem printuint_eq {base : Nat} (hbase : 1 < base) (h16 : base ≤ 16) (hW : base < 2 ^ W) (u : BitVec W)
    (hlen : (numeral base u.toNat).length ≤ 20) (buff : Buff) :
    ∃ buff', printuint u base buff = ⟨putAll (numeral base u.toNat), some buff'⟩ := by
  obtain ⟨buff', hprint⟩ := printuintMarked_eq hbase h16 hW u hlen buff
  refine ⟨buff', ?_⟩
  rw [← printuintMarked_calls, hprint, relabel, inside_calls]

/-! ### Room in `buff` -/

theorem length_numeral_uintptr (h64 : W ≤ 64) {base : Nat} (hten : 10 ≤ base) (u : BitVec W) :
    (numeral base u.toNat).length ≤ 20 := by
  have hroom : u.toNat < base ^ 20 :=
    calc u.toNat < 2 ^ W := u.isLt
      _ ≤ 2 ^ 64 := Nat.pow_le_pow_right (by decide) h64
      _ ≤ 10 ^ 20 := by norm_num
      _ ≤ base ^ 20 := Nat.pow_le_pow_left hten 20
  exact length_numeral_le (by omega) (by decide) hroom

theorem length_numeral_unsigned (hw : w ≤ 32) {base : Nat} (hbase : 8 ≤ base) (x : BitVec w) :
    (numeral base x.toNat).length ≤ 20 := by
  have hroom : x.toNat < base ^ 20 :=
    calc x.toNat < 2 ^ w := x.isLt
      _ ≤ 2 ^ 32 := Nat.pow_le_pow_right (by decide) hw
      _ ≤ 8 ^ 20 := by norm_num
      _ ≤ base ^ 20 := Nat.pow_le_pow_left hbase 20
  exact length_numeral_le (by omega) (by decide) hroom

theorem toNat_widen (hle : w ≤ W) (x : BitVec w) : (x.setWidth W).toNat = x.toNat := by
  rw [BitVec.toNat_setWidth, Nat.mod_eq_of_lt (x.isLt.trans_le (Nat.pow_le_pow_right (by decide) hle))]

end QDNix.Libkern
