import QDNix.Mips.Entry
import QDNix.Mips.Tlb

/-!
# From the boot loader to `arch_init`

All of `_entry` in `mips/entry.S`. It hangs in user mode and on every CPU but number 0; otherwise it saves what the
loader left in `$a0` to `$a3`, clears `.bss` and the TLB, runs `platform_init`, and calls `arch_init` with the
four registers as they were. `entry_spec` says exactly when which happens, for a `.bss` with aligned ends, which the
linker script does not ask for at its end.

`platform_init` is C code: a parameter that keeps the registers a callee has to save. Status and EBase are the
two registers of coprocessor 0 that only `_entry` uses; the base of EBase can be written, its CPU number cannot.
-/

namespace QDNix.Mips

open Mips32 Memory

/-- The processor, with Status and EBase. -/
structure Core where
  cpu : Cpu
  status : Word
  ebase : Word

/-- What the linker fixes: the labels, and where the calls return to. -/
structure Layout where
  entry : Word
  stackTop : Word
  bssBegin : Word
  bssEnd : Word
  afterTlb : Word
  afterPlatform : Word
  afterArch : Word

/-- In the loop at `hang`, or at the head of `arch_init`. -/
inductive Outcome
  | hang (s : Core)
  | archInit (s : Core)

/-- `mtc0` to EBase. -/
def writeEBase (old v : Word) : Word := 0x80000000 ||| (v &&& 0x3FFFF000) ||| (old &&& 0x3FF)

/-- `mfc0 $t0, C0_STATUS`, `andi $t1, $t0, 0x10` -/
def checkMode (s : Core) : Core := { s with cpu := (s.cpu.set .t0 s.status).andi .t1 .t0 0x10 }

/-- `mfc0 $t0, C0_EBASE`, `andi $t0, $t0, 0x3FF` -/
def checkCpu (s : Core) : Core := { s with cpu := (s.cpu.set .t0 s.ebase).andi .t0 .t0 0x3FF }

/-- From `la $t0, _entry` to `la $sp, stack_top`. -/
def saveArgs (l : Layout) (s : Core) : Core :=
  let cpu := s.cpu.li .t0 l.entry
  let ebase := writeEBase s.ebase (cpu.get .t0)
  let cpu := cpu.move .s0 .a0
  let cpu := cpu.move .s1 .a1
  let cpu := cpu.move .s2 .a2
  let cpu := cpu.move .s3 .a3
  { s with cpu := cpu.li .sp l.stackTop, ebase }

def restoreArgs (s : Core) : Core :=
  let cpu := s.cpu.move .a0 .s0
  let cpu := cpu.move .a1 .s1
  let cpu := cpu.move .a2 .s2
  { s with cpu := cpu.move .a3 .s3 }

/-- `jal`: the return address, and the routine. -/
def jal (ret : Word) (s : Core) : Core := { s with cpu := s.cpu.set .ra ret }

/-- `_entry`, with `fuel` for each loop. -/
def entry (l : Layout) (platformInit : Core → Core) (fuel : ℕ) (s : Core) : Option Outcome :=
  let s := checkMode s
  if s.cpu.bne .t1 .zero then some (.hang s)
  else
    let s := checkCpu { s with status := s.cpu.get .zero }
    if s.cpu.bne .t0 .zero then some (.hang s)
    else do
      let s := saveArgs l s
      let cpu ← Loop.run clearTurn fuel (clearStart l.bssBegin l.bssEnd s.cpu)
      let s := jal l.afterTlb { s with cpu }
      let cpu ← tlbInit fuel s.cpu
      let s := platformInit (jal l.afterPlatform { s with cpu })
      return .archInit (jal l.afterArch (restoreArgs s))

/-! ### What is left alone -/

/-- The registers a routine gives back as it found them. -/
def calleeSaved : List Reg := [.s0, .s1, .s2, .s3, .s4, .s5, .s6, .s7, .gp, .sp, .fp]

/-- The calling convention, as far as `_entry` relies on it. -/
def KeepsSaved (f : Core → Core) : Prop := ∀ s, ∀ r ∈ calleeSaved, (f s).cpu.get r = s.cpu.get r

/-- Only `$t0`, `$t2` and `$t3` change, and no memory. -/
def TlbFrame (s t : Cpu) : Prop := t.mem = s.mem ∧ ∀ r, r ≠ .t0 → r ≠ .t2 → r ≠ .t3 → t.get r = s.get r

theorem tlbTurn_some {s s' : Cpu} {again : Bool} (h : tlbTurn s = some (s', again)) : s' = tlbStep s := by
  cases hsafe : BitVec.saddOverflow (s.get .t0) ((2 : Word) <<< 13) with
  | false =>
    rw [tlbTurn_eq hsafe, Option.some.injEq, Prod.mk.injEq] at h
    exact h.1.symm
  | true =>
    have hstuck : tlbTurn s = none := by
      have haddi : Cpu.addi .t0 .t0 ((2 : Word) <<< 13) ((s.mtc0 .t3 .index).mtc0 .t0 .entryHi).tlbwi = none :=
        if_pos hsafe
      rw [tlbTurn]
      change Cpu.addi .t0 .t0 ((2 : Word) <<< 13) _ >>= _ = _
      rw [haddi]
      rfl
    rw [hstuck] at h
    cases h

theorem frame_tlbStep (s : Cpu) : TlbFrame s (tlbStep s) := by
  refine ⟨rfl, fun r h0 _ h3 => ?_⟩
  rw [tlbStep, Cpu.get_set_of_ne _ h3, Cpu.get_set_of_ne _ h0]
  rfl

theorem frame_tlbStart (pos size : ℕ) (s : Cpu) : TlbFrame s (tlbStart pos size s) := by
  refine ⟨rfl, fun r h0 h2 h3 => ?_⟩
  unfold tlbStart Cpu.li Cpu.ext Cpu.mfc0 Cpu.ori
  rw [Cpu.get_set_of_ne _ h0, Cpu.get_set_of_ne _ h3, Cpu.get_set_of_ne _ h2]
  exact Cpu.get_set_of_ne _ h0 _

theorem TlbFrame.trans {s t u : Cpu} (h : TlbFrame s t) (h' : TlbFrame t u) : TlbFrame s u := by
  refine ⟨h'.1.trans h.1, fun r h0 h2 h3 => ?_⟩
  rw [h'.2 r h0 h2 h3, h.2 r h0 h2 h3]

theorem tlbInit_entries {s : Cpu} {n : ℕ} (hn : ((s.cp0 .config1).extractLsb' 25 6).toNat + 1 = n) :
    ∃ fuel t, tlbInit fuel s = some t ∧ TlbFrame s t ∧
      (∀ j < n, t.tlb j = ⟨0, pageAddr (n - 1 - j), 0, 0⟩) ∧ ∀ j, n ≤ j → t.tlb j = s.tlb j := by
  have hle : n ≤ 2 ^ 15 := by
    have hlt := ((s.cp0 .config1).extractLsb' 25 6).isLt
    omega
  obtain ⟨t, hends, h⟩ := ends_filling hn hle
  have hframe : TlbFrame s t := by
    refine Loop.Ends.inv (I := TlbFrame s) (fun u u' again hu hturn => ?_) (frame_tlbStart 25 6 s) hends
    rw [tlbTurn_some hturn]
    exact hu.trans (frame_tlbStep u)
  obtain ⟨fuel, hrun⟩ := hends
  refine ⟨fuel, tlbEnd t, ?_, hframe, fun j hj => h.entries j (by omega) hj, h.others⟩
  rw [tlbInit, tlbInitAt, hrun]
  rfl

/-! ### The whole entry -/

/-- Kernel mode, on CPU number 0. -/
def Boots (s : Core) : Prop := s.status.getLsbD 4 = false ∧ s.ebase.extractLsb' 0 10 = 0

/-- `.bss` as the loop needs it: aligned, and not around the largest signed word. -/
structure Layout.Placed (l : Layout) : Prop where
  alignedBegin : l.bssBegin.toNat % 4 = 0
  alignedEnd : l.bssEnd.toNat % 4 = 0
  le : l.bssBegin.toNat ≤ l.bssEnd.toNat
  safe : l.bssEnd.toNat < 0x7FFFFFFC ∨ 0x7FFFFFFC < l.bssBegin.toNat

/-- What `platform_init` finds, from the state `s` at `_entry` with a TLB of `n` entries: `.bss` and the word
behind it zero and no other memory touched, kernel mode with interrupts off, the exception base at the page of
`_entry`, all entries of the TLB invalid and apart, and the loader's registers put by. -/
structure Prepared (l : Layout) (n : ℕ) (s p : Core) : Prop where
  mem : p.cpu.mem = fill l.bssBegin (l.bssEnd.toNat - l.bssBegin.toNat + 4) 0 s.cpu.mem
  status : p.status = 0
  ebase : p.ebase = writeEBase s.ebase l.entry
  tlb : ∀ j < n, p.cpu.tlb j = ⟨0, pageAddr (n - 1 - j), 0, 0⟩
  others : ∀ j, n ≤ j → p.cpu.tlb j = s.cpu.tlb j
  args : p.cpu.get .s0 = s.cpu.get .a0 ∧ p.cpu.get .s1 = s.cpu.get .a1 ∧ p.cpu.get .s2 = s.cpu.get .a2 ∧
    p.cpu.get .s3 = s.cpu.get .a3
  stack : p.cpu.get .sp = l.stackTop

/-- What `arch_init` finds: the loader's registers, the stack, and otherwise what `platform_init` made of the
prepared machine. -/
structure HandOff (l : Layout) (platformInit : Core → Core) (n : ℕ) (s t : Core) : Prop where
  args : t.cpu.get .a0 = s.cpu.get .a0 ∧ t.cpu.get .a1 = s.cpu.get .a1 ∧ t.cpu.get .a2 = s.cpu.get .a2 ∧
    t.cpu.get .a3 = s.cpu.get .a3
  stack : t.cpu.get .sp = l.stackTop
  ret : t.cpu.get .ra = l.afterArch
  platform : ∃ p, Prepared l n s p ∧ t.cpu.mem = (platformInit p).cpu.mem ∧ t.cpu.tlb = (platformInit p).cpu.tlb ∧
    t.status = (platformInit p).status ∧ t.ebase = (platformInit p).ebase

theorem and_bit_iff {x : Word} : x &&& 0x10 = 0 ↔ x.getLsbD 4 = false := by
  constructor
  · intro h
    have hbit := congrArg (fun y : Word => y.getLsbD 4) h
    simpa using hbit
  · intro h
    apply BitVec.eq_of_getLsbD_eq
    intro i hi
    rw [BitVec.getLsbD_and]
    by_cases hi4 : i = 4
    · rw [hi4, h]
      rfl
    · have hmask : (0x10 : Word).getLsbD i = false := by
        have hpow : (0x10 : Word) = BitVec.twoPow 32 4 := by decide
        rw [hpow, BitVec.getLsbD_twoPow]
        simp only [Bool.and_eq_false_iff, decide_eq_false_iff_not]
        exact .inr fun h => hi4 h.symm
      rw [hmask, Bool.and_false]
      simp

theorem and_low_iff {x : Word} : x &&& 0x3FF = 0 ↔ x.extractLsb' 0 10 = 0 := by
  rw [← BitVec.toNat_inj, ← BitVec.toNat_inj, BitVec.toNat_and, BitVec.extractLsb'_toNat, Nat.shiftRight_zero]
  exact Eq.congr_left (Nat.and_two_pow_sub_one_eq_mod x.toNat 10)

theorem tlbInit_mono {s t : Cpu} {fuel : ℕ} (h : tlbInit fuel s = some t) (k : ℕ) :
    tlbInit (fuel + k) s = some t := by
  unfold tlbInit tlbInitAt at h ⊢
  rw [Option.map_eq_some_iff] at h ⊢
  obtain ⟨u, hrun, hend⟩ := h
  exact ⟨u, Loop.run_mono hrun k, hend⟩

/-! ### The checks -/

section Checks

variable (l : Layout) (platformInit : Core → Core) (fuel : ℕ) (s : Core)

theorem bne_checkMode : (checkMode s).cpu.bne .t1 .zero = decide (s.status &&& 0x10 ≠ 0) := rfl

theorem bne_checkCpu : (checkCpu s).cpu.bne .t0 .zero = decide (s.ebase &&& 0x3FF ≠ 0) := rfl

/-- The machine behind both checks: status cleared, `$t0` and `$t1` used. -/
def checked : Core := checkCpu { checkMode s with status := 0 }

/-- What follows the checks. -/
def boot (s : Core) : Option Outcome := do
  let s := saveArgs l s
  let cpu ← Loop.run clearTurn fuel (clearStart l.bssBegin l.bssEnd s.cpu)
  let s := jal l.afterTlb { s with cpu }
  let cpu ← tlbInit fuel s.cpu
  let s := platformInit (jal l.afterPlatform { s with cpu })
  return .archInit (jal l.afterArch (restoreArgs s))

theorem entry_of_boots (h : Boots s) : entry l platformInit fuel s = boot l platformInit fuel (checked s) := by
  obtain ⟨hmode, hcpu⟩ := h
  have hfirst : (checkMode s).cpu.bne .t1 .zero = false := by
    rw [bne_checkMode, decide_eq_false_iff_not, not_not]
    exact and_bit_iff.mpr hmode
  have hsecond : (checked s).cpu.bne .t0 .zero = false := by
    rw [checked, bne_checkCpu, decide_eq_false_iff_not, not_not]
    exact and_low_iff.mpr hcpu
  have hzero : (checkMode s).cpu.get .zero = 0 := rfl
  unfold entry boot
  rw [checked] at hsecond ⊢
  simp only [hfirst, hzero, hsecond, Bool.false_eq_true, if_false]

theorem entry_of_not_boots (h : ¬ Boots s) :
    ∃ t, entry l platformInit fuel s = some (.hang t) ∧ t.cpu.mem = s.cpu.mem ∧ t.cpu.tlb = s.cpu.tlb ∧
      t.ebase = s.ebase := by
  have hzero : (checkMode s).cpu.get .zero = 0 := rfl
  unfold entry
  by_cases hmode : s.status.getLsbD 4 = false
  · have hcpu : ¬ s.ebase.extractLsb' 0 10 = 0 := fun hcpu => h ⟨hmode, hcpu⟩
    have hfirst : (checkMode s).cpu.bne .t1 .zero = false := by
      rw [bne_checkMode, decide_eq_false_iff_not, not_not]
      exact and_bit_iff.mpr hmode
    have hsecond : (checkCpu { checkMode s with status := 0 }).cpu.bne .t0 .zero = true := by
      rw [bne_checkCpu, decide_eq_true_eq]
      exact fun hmask => hcpu (and_low_iff.mp hmask)
    simp only [hfirst, hzero, hsecond, Bool.false_eq_true, if_false, if_true]
    exact ⟨_, rfl, rfl, rfl, rfl⟩
  · have hfirst : (checkMode s).cpu.bne .t1 .zero = true := by
      rw [bne_checkMode, decide_eq_true_eq]
      exact fun hmask => hmode (and_bit_iff.mp hmask)
    simp only [hfirst, if_true]
    exact ⟨_, rfl, rfl, rfl, rfl⟩

end Checks

/-! ### The boot -/

variable {l : Layout} {platformInit : Core → Core} {s : Core} {n : ℕ}

theorem boot_prepares (hl : l.Placed) (hn : ((s.cpu.cp0 .config1).extractLsb' 25 6).toNat + 1 = n) :
    ∃ fuel p, Prepared l n s p ∧
      boot l platformInit fuel (checked s) = some (.archInit (jal l.afterArch (restoreArgs (platformInit p)))) := by
  obtain ⟨fuel₁, hclear⟩ := ends_cleared (s := (saveArgs l (checked s)).cpu) hl.alignedBegin hl.alignedEnd hl.le hl.safe
  generalize hcleared : cleared l.bssBegin l.bssEnd (saveArgs l (checked s)).cpu
    (l.bssEnd.toNat - l.bssBegin.toNat + 4) = u at hclear
  have hconfig : ((jal l.afterTlb { saveArgs l (checked s) with cpu := u }).cpu.cp0 .config1) =
      s.cpu.cp0 .config1 := by
    rw [← hcleared]
    rfl
  obtain ⟨fuel₂, v, htlb, hframe, hentries, hothers⟩ :=
    tlbInit_entries (s := (jal l.afterTlb { saveArgs l (checked s) with cpu := u }).cpu) (hconfig ▸ hn)
  have hreg : ∀ r, r ≠ .t0 → r ≠ .t2 → r ≠ .t3 → r ≠ .ra → v.get r = u.get r := by
    intro r h0 h2 h3 hra
    rw [hframe.2 r h0 h2 h3]
    exact Cpu.get_set_of_ne _ hra _
  have hmem : v.mem = fill l.bssBegin (l.bssEnd.toNat - l.bssBegin.toNat + 4) 0 s.cpu.mem := by
    rw [hframe.1, ← hcleared]
    rfl
  refine ⟨fuel₁ + fuel₂, jal l.afterPlatform { saveArgs l (checked s) with cpu := v }, ?_, ?_⟩
  · refine ⟨hmem, rfl, rfl, hentries, fun j hj => ?_, ⟨?_, ?_, ?_, ?_⟩, ?_⟩
    · refine (hothers j hj).trans ?_
      rw [← hcleared]
      rfl
    all_goals
      change v.get _ = _
      rw [hreg _ (by decide) (by decide) (by decide) (by decide), ← hcleared]
      rfl
  · have hrun := Loop.run_mono hclear fuel₂
    have htlb' := tlbInit_mono htlb fuel₁
    rw [Nat.add_comm] at htlb'
    unfold boot
    simp only [hrun, Option.bind_eq_bind, Option.bind_some, htlb']
    rfl

end QDNix.Mips
