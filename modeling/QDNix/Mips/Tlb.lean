import QDNix.Lib.Loop
import QDNix.Lib.Mips
import Mathlib.Tactic.Common

/-!
# Clearing the TLB on MIPS

`tlb_init` of `mips/tlb.S`, with `li t0` read as `li $t0`. Index counts down from the size field of Config1
through the branch delay slot while the page address counts up, so the entry at index `j` of `n` gets the
pair of pages `n - 1 - j` above the first (`Filling`). A pair has 8 KiB and the addresses are 16 KiB apart,
which makes no two pairs meet; 2^15 of them fill kseg0.

Where in Config1 the size field lies is a parameter, for TLBs larger than the six bits of the source can say.
-/

namespace QDNix.Mips

open Mips32

def KSEG0_BASE_ADDR : Word := 0x80000000

/-- Up to the loop. -/
def tlbStart (pos size : ℕ) (s : Cpu) : Cpu :=
  let s := s.mtc0 .zero .entryLo0
  let s := s.mtc0 .zero .entryLo1
  let s := s.mtc0 .zero .pageMask
  let s := s.ori .t0 .zero 0x400
  let s := s.mtc0 .t0 .entryHi
  let s := s.mfc0 .t2 .config1
  let s := s.ext .t3 .t2 pos size
  s.li .t0 KSEG0_BASE_ADDR

/-- The loop at `1:` once round; the last instruction is in the delay slot. -/
def tlbTurn (s : Cpu) : Option (Cpu × Bool) := do
  let s := s.mtc0 .t3 .index
  let s := s.mtc0 .t0 .entryHi
  let s := s.tlbwi
  let s ← s.addi .t0 .t0 ((2 : Word) <<< 13)
  let again := s.bne .t3 .zero
  let s := s.addiu .t3 .t3 (-1)
  return (s, again)

/-- Behind the loop. -/
def tlbEnd (s : Cpu) : Cpu := (s.mtc0 .zero .index).mtc0 .zero .entryHi

/-- `tlb_init`, with the size field of Config1 in the `size` bits from `pos` on. -/
def tlbInitAt (pos size fuel : ℕ) (s : Cpu) : Option Cpu :=
  (Loop.run tlbTurn fuel (tlbStart pos size s)).map tlbEnd

def tlbInit : ℕ → Cpu → Option Cpu := tlbInitAt 25 6

/-- The pair of virtual pages of an entry: bits 31 to 13 of EntryHi. -/
def vpn2 (e : TlbEntry) : BitVec 19 := e.entryHi.extractLsb' 13 19

/-- Both 4 KiB pages of the pair lie in kseg0. -/
def InKseg0 (e : TlbEntry) : Prop :=
  0x80000000 ≤ (vpn2 e).toNat * 2 ^ 13 ∧ (vpn2 e).toNat * 2 ^ 13 + 2 ^ 13 ≤ 0xA0000000

/-- From `s` to `t`, each of the `n` entries has been written once and no other; all are invalid, with 4 KiB
pages in kseg0 that differ from entry to entry, and Index and EntryHi are zero. -/
structure CleanTlb (n : ℕ) (s t : Cpu) : Prop where
  writes : ∃ indices, t.written = s.written ++ indices ∧ indices.length = n ∧
    ∀ j, indices.count j = if j < n then 1 else 0
  others : ∀ j, n ≤ j → t.tlb j = s.tlb j
  invalid : ∀ j < n, (t.tlb j).pageMask = 0 ∧ (t.tlb j).entryLo0 = 0 ∧ (t.tlb j).entryLo1 = 0
  distinct : ∀ i < n, ∀ j < n, i ≠ j → vpn2 (t.tlb i) ≠ vpn2 (t.tlb j)
  kseg0 : ∀ j < n, InKseg0 (t.tlb j)
  index : t.cp0 .index = 0
  entryHi : t.cp0 .entryHi = 0

/-! ### The loop -/

/-- The page address of turn `i`. -/
def pageAddr (i : ℕ) : Word := KSEG0_BASE_ADDR + BitVec.ofNat 32 (0x4000 * i)

/-- At the head of turn `i`, and behind the last. -/
structure Filling (n : ℕ) (s₀ : Cpu) (i : ℕ) (s : Cpu) : Prop where
  counter : s.get .t3 = BitVec.ofNat 32 n - 1 - BitVec.ofNat 32 i
  address : s.get .t0 = pageAddr i
  lo0 : s.cp0 .entryLo0 = 0
  lo1 : s.cp0 .entryLo1 = 0
  mask : s.cp0 .pageMask = 0
  entries : ∀ j, n - i ≤ j → j < n → s.tlb j = ⟨0, pageAddr (n - 1 - j), 0, 0⟩
  others : ∀ j, n ≤ j → s.tlb j = s₀.tlb j
  written : s.written = s₀.written ++ (List.range' (n - i) i).reverse

variable {n i : ℕ} {s s₀ : Cpu}

theorem toNat_pageAddr (h : i ≤ 2 ^ 15) : (pageAddr i).toNat = 0x80000000 + 0x4000 * i := by
  rw [pageAddr, Memory.toNat_add_ofNat]
  · rfl
  · change 0x80000000 + _ < _
    omega

theorem pageAddr_succ (i : ℕ) : pageAddr i + (2 : Word) <<< 13 = pageAddr (i + 1) := Memory.add_ofNat_add

/-- The state behind one turn. -/
def tlbStep (s : Cpu) : Cpu :=
  (((s.mtc0 .t3 .index).mtc0 .t0 .entryHi).tlbwi.set .t0 (s.get .t0 + (2 : Word) <<< 13)).set .t3 (s.get .t3 + -1)

theorem tlbTurn_eq (hsafe : BitVec.saddOverflow (s.get .t0) ((2 : Word) <<< 13) = false) :
    tlbTurn s = some (tlbStep s, decide (s.get .t3 ≠ 0)) := by
  obtain ⟨s₁, hs₁⟩ : ∃ s₁, s₁ = ((s.mtc0 .t3 .index).mtc0 .t0 .entryHi).tlbwi := ⟨_, rfl⟩
  have hget : ∀ r, s₁.get r = s.get r := by
    intro r
    rw [hs₁]
    rfl
  have haddi : s₁.addi .t0 .t0 ((2 : Word) <<< 13) = some (s₁.set .t0 (s.get .t0 + (2 : Word) <<< 13)) := by
    rw [Cpu.addi, hget, hsafe]
    rfl
  have hcounter : (s₁.set .t0 (s.get .t0 + (2 : Word) <<< 13)).get .t3 = s.get .t3 := by
    rw [Cpu.get_set_of_ne _ (by decide), hget]
  rw [tlbTurn, tlbStep, ← hs₁]
  change s₁.addi .t0 .t0 ((2 : Word) <<< 13) >>= _ = _
  rw [haddi]
  change some (Cpu.addiu .t3 .t3 (-1) _, Cpu.bne .t3 .zero _) = _
  rw [Cpu.addiu, Cpu.bne, hcounter, Cpu.get_zero]

theorem tlb_tlbStep (s : Cpu) : (tlbStep s).tlb = Function.update s.tlb (s.get .t3).toNat
    ⟨s.cp0 .pageMask, s.get .t0, s.cp0 .entryLo0, s.cp0 .entryLo1⟩ := rfl

theorem written_tlbStep (s : Cpu) : (tlbStep s).written = s.written ++ [(s.get .t3).toNat] := rfl

theorem get_t3_tlbStep (s : Cpu) : (tlbStep s).get .t3 = s.get .t3 + -1 := Cpu.get_set (by decide) _

theorem get_t0_tlbStep (s : Cpu) : (tlbStep s).get .t0 = s.get .t0 + (2 : Word) <<< 13 := by
  rw [tlbStep, Cpu.get_set_of_ne _ (by decide), Cpu.get_set (by decide)]

theorem filling_step (hn : n ≤ 2 ^ 15) (hi : i < n) (h : Filling n s₀ i s) :
    tlbTurn s = some (tlbStep s, decide (i + 1 < n)) ∧ Filling n s₀ (i + 1) (tlbStep s) := by
  obtain ⟨hcounter, haddress, hlo0, hlo1, hmask, hentries, hothers, hwritten⟩ := h
  have hval : (s.get .t3).toNat = n - 1 - i := by
    rw [hcounter]
    bv_omega
  have hsafe : BitVec.saddOverflow (s.get .t0) ((2 : Word) <<< 13) = false := by
    rw [← Bool.not_eq_true, saddOverflow_iff (by decide), haddress, toNat_pageAddr (by omega)]
    omega
  have htlb : (tlbStep s).tlb = Function.update s.tlb (n - 1 - i) ⟨0, pageAddr i, 0, 0⟩ := by
    rw [tlb_tlbStep, hval, hmask, haddress, hlo0, hlo1]
  refine ⟨?_, ?_, ?_, hlo0, hlo1, hmask, fun j hlow hhigh => ?_, fun j hj => ?_, ?_⟩
  · rw [tlbTurn_eq hsafe]
    congr 2
    refine decide_eq_decide.mpr ?_
    rw [ne_eq, ← BitVec.toNat_inj, hval]
    change n - 1 - i ≠ 0 ↔ _
    omega
  · rw [get_t3_tlbStep, hcounter]
    bv_omega
  · rw [get_t0_tlbStep, haddress]
    exact pageAddr_succ i
  · rw [htlb, Function.update_apply]
    by_cases hj : j = n - 1 - i
    · rw [if_pos hj, hj]
      congr 2
      omega
    · rw [if_neg hj]
      exact hentries j (by omega) hhigh
  · rw [htlb, Function.update_of_ne (by omega)]
    exact hothers j hj
  · rw [written_tlbStep, hwritten, hval, List.append_assoc, show n - (i + 1) = n - 1 - i by omega,
      List.range'_succ, List.reverse_cons, show n - 1 - i + 1 = n - i by omega]

/-! ### The whole routine -/

theorem filling_start {pos size : ℕ} (hn : ((s.cp0 .config1).extractLsb' pos size).toNat + 1 = n)
    (hle : n ≤ 2 ^ 15) : Filling n s 0 (tlbStart pos size s) := by
  refine ⟨?_, ?_, rfl, rfl, rfl, fun j hlow hhigh => ?_, fun _ _ => rfl, ?_⟩
  · have hfield : (tlbStart pos size s).get .t3 = ((s.cp0 .config1).extractLsb' pos size).setWidth 32 := rfl
    rw [hfield, ← BitVec.toNat_inj, BitVec.toNat_setWidth]
    bv_omega
  · rfl
  · omega
  · exact (List.append_nil _).symm

theorem ends_filling {pos size : ℕ} (hn : ((s.cp0 .config1).extractLsb' pos size).toNat + 1 = n)
    (hle : n ≤ 2 ^ 15) : ∃ t, Loop.Ends tlbTurn (tlbStart pos size s) t ∧ Filling n s n t := by
  obtain ⟨k, hk⟩ : ∃ k, n = k + 1 := ⟨n - 1, by omega⟩
  subst hk
  refine Loop.ends_of_inv (I := Filling (k + 1) s) (n := k) (fun i hi t ht => ?_) (fun t ht => ?_)
    (filling_start hn hle)
  · obtain ⟨hturn, hnext⟩ := filling_step hle (by omega) ht
    rw [decide_eq_true (by omega)] at hturn
    exact ⟨_, hturn, hnext⟩
  · obtain ⟨hturn, hnext⟩ := filling_step hle (by omega) ht
    rw [decide_eq_false (by omega)] at hturn
    exact ⟨_, hturn, hnext⟩

theorem toNat_vpn2 {e : TlbEntry} (hi : i < 2 ^ 15) (he : e.entryHi = pageAddr i) :
    (vpn2 e).toNat = 0x40000 + 2 * i := by
  rw [vpn2, BitVec.extractLsb'_toNat, he, toNat_pageAddr (by omega), Nat.shiftRight_eq_div_pow]
  omega

/-- **`tlb_init` leaves a clean TLB**, for every size field of Config1, every prior content of the TLB and all
sizes whose entries fit kseg0. -/
theorem tlbInit_clean (pos size : ℕ) (s : Cpu) (n : ℕ)
    (hn : ((s.cp0 .config1).extractLsb' pos size).toNat + 1 = n) (hle : n ≤ 2 ^ 15) :
    ∃ fuel t, tlbInitAt pos size fuel s = some t ∧ CleanTlb n s t := by
  obtain ⟨t, ⟨fuel, hrun⟩, h⟩ := ends_filling hn hle
  have hentry : ∀ j < n, t.tlb j = ⟨0, pageAddr (n - 1 - j), 0, 0⟩ := fun j hj => h.entries j (by omega) hj
  have hvpn : ∀ j < n, (vpn2 (t.tlb j)).toNat = 0x40000 + 2 * (n - 1 - j) := by
    intro j hj
    exact toNat_vpn2 (by omega) (congrArg TlbEntry.entryHi (hentry j hj))
  refine ⟨fuel, tlbEnd t, by rw [tlbInitAt, hrun]; rfl, ?_, h.others, fun j hj => ?_, fun i hi j hj hne heq => ?_,
    fun j hj => ?_, rfl, rfl⟩
  · refine ⟨(List.range' (n - n) n).reverse, h.written, ?_, fun j => ?_⟩
    · rw [List.length_reverse, List.length_range']
    · have hmem : j ∈ List.range' (n - n) n ↔ j < n := by
        rw [List.mem_range'_1]
        omega
      have hnodup : (List.range' (n - n) n).Nodup := List.nodup_range'
      rw [List.count_reverse, hnodup.count]
      simp only [hmem]
  · rw [show (tlbEnd t).tlb = t.tlb from rfl, hentry j hj]
    exact ⟨rfl, rfl, rfl⟩
  · have hval := congrArg BitVec.toNat heq
    change (vpn2 (t.tlb i)).toNat = (vpn2 (t.tlb j)).toNat at hval
    rw [hvpn i hi, hvpn j hj] at hval
    omega
  · change _ ≤ (vpn2 (t.tlb j)).toNat * _ ∧ (vpn2 (t.tlb j)).toNat * _ + _ ≤ _
    rw [hvpn j hj]
    omega

theorem tlbInit_clean_64 : ∃ fuel t,
    tlbInit fuel ⟨fun _ => 0, fun _ => 0, fun _ => 0x7E000000, fun _ => ⟨0, 0x80000000, 3, 3⟩, []⟩ = some t ∧
      CleanTlb 64 ⟨fun _ => 0, fun _ => 0, fun _ => 0x7E000000, fun _ => ⟨0, 0x80000000, 3, 3⟩, []⟩ t :=
  tlbInit_clean 25 6 _ 64 (by decide) (by decide)

end QDNix.Mips
