import QDNix.Lib.Mips

/-!
# The trap handler

`mips/trap.S`. The handler puts the registers into a frame below the stack and returns, but neither takes them back
nor lifts the stack pointer again: every trap leaves the program with its registers and a stack 148 bytes lower.
`traps_run` has the account of any number of traps, whatever runs between them, as long as there is RAM for the frames:
they lie below each other, and each still has the registers of its trap.

`tlb_init` leaves no entry of the TLB valid, so a store to a mapped segment would raise an exception, and one to the code
could change the handler. Neither is modelled: the handler is followed in a range of RAM that is free of both.
-/

namespace QDNix.Mips

open Mips32 Memory

/-- RAM in kseg0 or kseg1, which are not mapped, with no code in it. -/
structure Ram where
  low : Word
  high : Word
  unmapped : 0x80000000 ≤ low ∧ high ≤ 0xC0000000

/-- A word at `a` is in the RAM. -/
def Ram.Has (ram : Ram) (a : Word) : Prop := ram.low.toNat ≤ a.toNat ∧ a.toNat + 4 ≤ ram.high.toNat

instance (ram : Ram) (a : Word) : Decidable (ram.Has a) := inferInstanceAs (Decidable (_ ∧ _))

/-- `sw` of a register into the frame; a store elsewhere is not followed. -/
def push (ram : Ram) (frame : Reg × ℕ) (s : Cpu) : Option Cpu :=
  if ram.Has (s.get .sp + BitVec.ofNat 32 frame.2) then s.sw frame.1 (BitVec.ofNat 32 frame.2) .sp else none

/-- The stores of the handler: which register goes where. -/
def frameSlots : List (Reg × ℕ) :=
  [(.atmp, 0), (.v0, 4), (.v1, 8), (.a0, 12), (.a1, 16), (.a2, 20), (.a3, 24),
    (.t0, 28), (.t1, 32), (.t2, 36), (.t3, 40), (.t4, 44), (.t5, 48), (.t6, 52), (.t7, 56),
    (.s0, 60), (.s1, 64), (.s2, 68), (.s3, 72), (.s4, 76), (.s5, 80), (.s6, 84), (.s7, 88),
    (.t8, 92), (.t9, 96), (.k1, 100), (.gp, 104), (.fp, 108), (.ra, 112)]

/-- `trap_handler`, up to its `eret`. -/
def trapHandler (ram : Ram) (s : Cpu) : Option Cpu :=
  frameSlots.foldlM (fun s slot => push ram slot s) (s.addiu .sp .sp (-148))

/-- The word `v` is in memory at `a`. -/
def Holds (m : Memory 32) (a v : Word) : Prop := ∀ j < 4, m (a + BitVec.ofNat 32 j) = v.extractLsb' (8 * j) 8

/-! ### The frame -/

/-- The registers in the order of their slots. -/
def frameRegs : List Reg := frameSlots.map Prod.fst

theorem frameSlots_eq : frameSlots = frameRegs.zipIdx.map fun r => (r.1, 4 * r.2) := rfl

/-- The bytes of a frame. -/
def frameByte (s : Cpu) (j : ℕ) : BitVec 8 := (s.get (frameRegs.getD (j / 4) .zero)).extractLsb' (8 * (j % 4)) 8

theorem frameByte_slot (s : Cpu) {r : Reg} {i j : ℕ} (hr : frameRegs[i]? = some r) (hj : j < 4) :
    frameByte s (4 * i + j) = (s.get r).extractLsb' (8 * j) 8 := by
  rw [frameByte, show (4 * i + j) / 4 = i by omega, show (4 * i + j) % 4 = j by omega,
    List.getD_eq_getElem?_getD, hr]
  rfl

theorem aligned_add {a : Word} (ha : a.toNat % 4 = 0) (i : ℕ) : (a + BitVec.ofNat 32 (4 * i)).toNat % 4 = 0 := by
  rw [BitVec.toNat_add, BitVec.toNat_ofNat]
  omega

/-- There is room for a frame at `a`. -/
def Ram.Fits (ram : Ram) (a : Word) : Prop := ram.low.toNat ≤ a.toNat ∧ a.toNat + 116 ≤ ram.high.toNat

theorem Ram.Fits.has {ram : Ram} {a : Word} (h : ram.Fits a) {i : ℕ} (hi : i < 29) :
    ram.Has (a + BitVec.ofNat 32 (4 * i)) := by
  obtain ⟨hlow, hhigh⟩ := h
  have hlt := ram.high.isLt
  have hval : (a + BitVec.ofNat 32 (4 * i)).toNat = a.toNat + 4 * i := toNat_add_ofNat (by omega)
  rw [Ram.Has, hval]
  omega

variable {ram : Ram} {s : Cpu} {a : Word}

theorem push_eq {r : Reg} {i : ℕ} (hsp : s.get .sp = a) (ha : a.toNat % 4 = 0)
    (hram : ram.Has (a + BitVec.ofNat 32 (4 * i))) (hr : frameRegs[i]? = some r) (m : Memory 32)
    (hi : 4 * i + 4 ≤ 2 ^ 32) :
    push ram (r, 4 * i) { s with mem := blit a (4 * i) (frameByte s) m } =
      some { s with mem := blit a (4 * i + 4) (frameByte s) m } := by
  have hget : ∀ q, Cpu.get { s with mem := blit a (4 * i) (frameByte s) m } q = s.get q := fun _ => rfl
  rw [push, Cpu.sw, hget, hget, hsp, if_pos hram, if_pos (aligned_add ha i), ← blit_blit hi]
  refine congrArg (fun mem => some { s with mem }) ?_
  exact (blit_congr_iff (by decide)).mpr fun j hj => (frameByte_slot s hr hj).symm

theorem push_foldlM (hsp : s.get .sp = a) (ha : a.toNat % 4 = 0) (hram : ram.Fits a) (m : Memory 32)
    (rs : List Reg) : ∀ i, frameRegs.drop i = rs → i + rs.length = frameRegs.length →
    ((rs.zipIdx i).map fun r => (r.1, 4 * r.2)).foldlM (fun s slot => push ram slot s)
      { s with mem := blit a (4 * i) (frameByte s) m } =
      some { s with mem := blit a (4 * (i + rs.length)) (frameByte s) m } := by
  induction rs with
  | nil => exact fun _ _ _ => rfl
  | cons r rs ih =>
    intro i hdrop hlen
    have hr : frameRegs[i]? = some r := by
      rw [← List.head?_drop, hdrop]
      rfl
    have hrest : frameRegs.drop (i + 1) = rs := by
      rw [← List.drop_drop, hdrop]
      rfl
    have hslots : frameRegs.length = 29 := rfl
    rw [List.length_cons] at hlen
    rw [List.zipIdx_cons, List.map_cons, List.foldlM_cons, push_eq hsp ha (hram.has (by omega)) hr m (by omega)]
    rw [List.length_cons, show i + (rs.length + 1) = i + 1 + rs.length by omega]
    exact ih (i + 1) hrest (by omega)

/-- What a trap makes of the machine: a frame of 116 bytes, and the stack 148 bytes lower. -/
def afterTrap (s : Cpu) : Cpu :=
  { s.set .sp (s.get .sp - 148) with mem := blit (s.get .sp - 148) 116 (frameByte s) s.mem }

theorem get_sp_afterTrap (s : Cpu) : (afterTrap s).get .sp = s.get .sp - 148 :=
  @Cpu.get_set s .sp (by decide) (s.get .sp - 148)

theorem get_afterTrap (s : Cpu) {r : Reg} (hr : r ≠ .sp) : (afterTrap s).get r = s.get r :=
  Cpu.get_set_of_ne s hr (s.get .sp - 148)

theorem frameRegs_getD_ne_sp (i : ℕ) : frameRegs.getD i .zero ≠ .sp := by
  rw [List.getD_eq_getElem?_getD]
  cases hr : frameRegs[i]? with
  | none => decide
  | some r =>
    have hall : ∀ r ∈ frameRegs, r ≠ .sp := by decide
    exact hall r (List.mem_of_getElem? hr)

theorem trapHandler_eq (hsp : (s.get .sp).toNat % 4 = 0) (hram : ram.Fits (s.get .sp - 148)) :
    trapHandler ram s = some (afterTrap s) := by
  have hbelow : (s.get .sp - 148).toNat % 4 = 0 := by
    rw [BitVec.toNat_sub]
    have h148 : (148 : Word).toNat = 148 := rfl
    omega
  have hlower : s.addiu .sp .sp (-148) = s.set .sp (s.get .sp - 148) := by
    rw [Cpu.addiu, BitVec.sub_eq_add_neg]
  have hbytes : frameByte (s.set .sp (s.get .sp - 148)) = frameByte s := by
    funext j
    rw [frameByte, frameByte, Cpu.get_set_of_ne _ (frameRegs_getD_ne_sp (j / 4))]
  have hself : (s.set .sp (s.get .sp - 148)).get .sp = s.get .sp - 148 := Cpu.get_set (by decide) _
  have hrun := push_foldlM hself hbelow hram s.mem frameRegs 0 rfl rfl
  rw [Nat.mul_zero, blit_zero, ← frameSlots_eq, hbytes] at hrun
  rw [trapHandler, hlower]
  exact hrun

/-! ### Any number of traps -/

/-- The program runs a piece, a trap comes, and so on. The states in which it is interrupted are kept. -/
def traps (ram : Ram) : List (Cpu → Cpu) → Cpu → Option (Cpu × List Cpu)
  | [], s => some (s, [])
  | piece :: pieces, s => do
    let t ← trapHandler ram (piece s)
    let (u, trapped) ← traps ram pieces t
    return (u, piece s :: trapped)

/-- The program leaves the stack pointer and all between it and `top` as they are. -/
def KeepsStack (top : Word) (piece : Cpu → Cpu) : Prop :=
  ∀ s, (piece s).get .sp = s.get .sp ∧ ∀ i < (top - s.get .sp).toNat,
    (piece s).mem (s.get .sp + BitVec.ofNat 32 i) = s.mem (s.get .sp + BitVec.ofNat 32 i)

/-- Where the stack is after `k` traps. -/
def stackAt (top : Word) (k : ℕ) : Word := top - BitVec.ofNat 32 (148 * k)

/-- From `s`, with `d` frames on the stack, to `u`, which has a frame for each of the states in `trapped`. -/
structure Trapped (top : Word) (d : ℕ) (s u : Cpu) (trapped : List Cpu) : Prop where
  stack : u.get .sp = stackAt top (d + trapped.length)
  kept : ∀ i < 148 * d, u.mem (stackAt top d + BitVec.ofNat 32 i) = s.mem (stackAt top d + BitVec.ofNat 32 i)
  frames : ∀ k t, trapped[k]? = some t → ∀ slot ∈ frameSlots,
    Holds u.mem (stackAt top (d + k + 1) + BitVec.ofNat 32 slot.2) (t.get slot.1)
  regs : ∀ r, r ≠ .sp → u.get r = (trapped.getLast?.getD s).get r

variable {top : Word}

theorem stackAt_succ (top : Word) (d : ℕ) : stackAt top (d + 1) = stackAt top d - 148 := by
  rw [stackAt, stackAt, Nat.mul_succ, BitVec.ofNat_add, ← BitVec.sub_sub]
  rfl

theorem stackAt_add (top : Word) (d i : ℕ) :
    stackAt top d + BitVec.ofNat 32 i = stackAt top (d + 1) + BitVec.ofNat 32 (148 + i) := by
  rw [stackAt_succ, ← add_ofNat_add]
  congr 1
  exact (BitVec.sub_add_cancel _ _).symm

theorem top_sub_stackAt {d : ℕ} (hd : 148 * d < 2 ^ 32) : (top - stackAt top d).toNat = 148 * d := by
  have hlt := top.isLt
  rw [stackAt, BitVec.toNat_sub, BitVec.toNat_sub, BitVec.toNat_ofNat, Nat.mod_eq_of_lt hd]
  omega

theorem toNat_stackAt {d : ℕ} (hd : 148 * d ≤ top.toNat) : (stackAt top d).toNat = top.toNat - 148 * d := by
  have hlt := top.isLt
  have hval : (BitVec.ofNat 32 (148 * d)).toNat = 148 * d := by
    rw [BitVec.toNat_ofNat, Nat.mod_eq_of_lt (by omega)]
  rw [stackAt, BitVec.toNat_sub_of_le (BitVec.le_def.mpr (by rwa [hval])), hval]

theorem fits_stackAt {d : ℕ} (hlow : ram.low.toNat + 148 * (d + 1) ≤ top.toNat)
    (hhigh : top.toNat ≤ ram.high.toNat) : ram.Fits (stackAt top (d + 1)) := by
  rw [Ram.Fits, toNat_stackAt (by omega)]
  omega

theorem aligned_stackAt (htop : top.toNat % 4 = 0) (d : ℕ) : (stackAt top d).toNat % 4 = 0 := by
  rw [stackAt, BitVec.toNat_sub, BitVec.toNat_ofNat]
  omega

theorem trapped_run (htop : top.toNat % 4 = 0) (hhigh : top.toNat ≤ ram.high.toNat) (pieces : List (Cpu → Cpu))
    (hkeeps : ∀ piece ∈ pieces, KeepsStack top piece) :
    ∀ (d : ℕ) (s : Cpu), s.get .sp = stackAt top d → ram.low.toNat + 148 * (d + pieces.length) ≤ top.toNat →
      ∃ u trapped, traps ram pieces s = some (u, trapped) ∧ trapped.length = pieces.length ∧
        Trapped top d s u trapped := by
  induction pieces with
  | nil =>
    intro d s hsp _
    exact ⟨s, [], rfl, rfl, hsp, fun _ _ => rfl, nofun, fun _ _ => rfl⟩
  | cons piece pieces ih =>
    intro d s hsp hroom
    rw [List.forall_mem_cons] at hkeeps
    rw [List.length_cons] at hroom
    have hlt := top.isLt
    obtain ⟨hpiece, hold⟩ := hkeeps.1 s
    rw [hsp, top_sub_stackAt (by omega)] at hold
    have hstack : (piece s).get .sp = stackAt top d := hpiece.trans hsp
    have htrap : trapHandler ram (piece s) = some (afterTrap (piece s)) := by
      apply trapHandler_eq
      · rw [hstack]
        exact aligned_stackAt htop d
      · rw [hstack, ← stackAt_succ]
        exact fits_stackAt (by omega) hhigh
    have hlow : (afterTrap (piece s)).get .sp = stackAt top (d + 1) := by
      rw [get_sp_afterTrap, hstack, stackAt_succ]
    obtain ⟨u, trapped, hrun, hlen, h⟩ := ih hkeeps.2 (d + 1) _ hlow (by omega)
    have hmem : ∀ i < 148 * (d + 1), u.mem (stackAt top (d + 1) + BitVec.ofNat 32 i) =
        if i < 116 then frameByte (piece s) i else (piece s).mem (stackAt top (d + 1) + BitVec.ofNat 32 i) := by
      intro i hi
      have hindex : (stackAt top (d + 1) + BitVec.ofNat 32 i - stackAt top (d + 1)).toNat = i :=
        toNat_add_sub (by omega)
      have hblit : (afterTrap (piece s)).mem = blit (stackAt top (d + 1)) 116 (frameByte (piece s)) (piece s).mem := by
        rw [stackAt_succ, ← hstack]
        rfl
      rw [h.kept i hi, hblit, blit, hindex]
    refine ⟨u, piece s :: trapped, ?_, congrArg (· + 1) hlen, ?_, fun i hi => ?_, fun k t hk slot hslot => ?_,
      fun r hr => ?_⟩
    · rw [traps, htrap]
      simp only [Option.bind_eq_bind, Option.bind_some, hrun]
      rfl
    · rw [h.stack, List.length_cons, Nat.add_assoc, Nat.add_comm 1]
    · have hsplit := stackAt_add top d i
      calc u.mem (stackAt top d + BitVec.ofNat 32 i)
        _ = u.mem (stackAt top (d + 1) + BitVec.ofNat 32 (148 + i)) := by rw [hsplit]
        _ = (piece s).mem (stackAt top (d + 1) + BitVec.ofNat 32 (148 + i)) := by
          rw [hmem _ (by omega), if_neg (by omega)]
        _ = (piece s).mem (stackAt top d + BitVec.ofNat 32 i) := by rw [hsplit]
        _ = s.mem (stackAt top d + BitVec.ofNat 32 i) := hold i hi
    · cases k with
      | zero =>
        obtain rfl := Option.some.inj hk
        rw [frameSlots_eq] at hslot
        obtain ⟨⟨r, i⟩, hr, rfl⟩ := List.mem_map.mp hslot
        have hget : frameRegs[i]? = some r := List.mem_zipIdx_iff_getElem?.mp hr
        have hslots : frameRegs.length = 29 := rfl
        have hi : i < frameRegs.length := (List.getElem?_eq_some_iff.mp hget).1
        intro j hj
        rw [add_ofNat_add, Nat.add_zero, hmem _ (by omega), if_pos (by omega), frameByte_slot _ hget hj]
      | succ k =>
        have hframe := h.frames k t hk slot hslot
        rwa [show d + (k + 1) + 1 = d + 1 + k + 1 by omega]
    · rw [h.regs r hr, List.getLast?_cons, Option.getD_some]
      cases trapped.getLast? with
      | some t => rfl
      | none => exact get_afterTrap (piece s) hr

/-- **Traps over traps.** As long as there is RAM for the frames, whatever pieces of program run between the traps: each
trap has left the stack 148 bytes lower, with a frame that still holds its registers. -/
theorem traps_run (ram : Ram) (top : Word) (htop : top.toNat % 4 = 0) (hhigh : top.toNat ≤ ram.high.toNat)
    (pieces : List (Cpu → Cpu)) (hkeeps : ∀ piece ∈ pieces, KeepsStack top piece)
    (hlow : ram.low.toNat + 148 * pieces.length ≤ top.toNat) (s : Cpu) (hsp : s.get .sp = top) :
    ∃ u trapped, traps ram pieces s = some (u, trapped) ∧ trapped.length = pieces.length ∧
      u.get .sp = top - BitVec.ofNat 32 (148 * pieces.length) ∧
      (∀ k t, trapped[k]? = some t → ∀ slot ∈ frameSlots,
        Holds u.mem (top - BitVec.ofNat 32 (148 * (k + 1)) + BitVec.ofNat 32 slot.2) (t.get slot.1)) ∧
      ∀ r, r ≠ .sp → u.get r = (trapped.getLast?.getD s).get r := by
  have hstart : s.get .sp = stackAt top 0 := hsp.trans (BitVec.sub_zero top).symm
  obtain ⟨u, trapped, hrun, hlen, h⟩ := trapped_run htop hhigh pieces hkeeps 0 s hstart (by rwa [Nat.zero_add])
  refine ⟨u, trapped, hrun, hlen, ?_, fun k t hk slot hslot => ?_, h.regs⟩
  · rw [h.stack, hlen, Nat.zero_add]
    rfl
  · have hframe := h.frames k t hk slot hslot
    rwa [Nat.zero_add] at hframe

theorem traps_run_two :
    let ram : Ram := ⟨0x80110000, 0x80120000, by decide⟩
    let s : Cpu := ⟨fun r => if r = .sp then 0x80120000 else 7, fun _ => 0xFF, fun _ => 0, fun _ => ⟨0, 0, 0, 0⟩, []⟩
    ∃ u trapped, traps ram [id, fun s => s.set .t0 9] s = some (u, trapped) ∧ u.get .sp = 0x8011FED8 := by
  intro ram s
  have hset : KeepsStack 0x80120000 fun s => s.set .t0 9 :=
    fun s => ⟨Cpu.get_set_of_ne s (by decide) 9, fun _ _ => rfl⟩
  have hkeeps : ∀ piece ∈ [id, fun s : Cpu => s.set .t0 9], KeepsStack 0x80120000 piece := by
    simp only [List.forall_mem_cons]
    exact ⟨fun _ => ⟨rfl, fun _ _ => rfl⟩, hset, nofun⟩
  obtain ⟨u, trapped, hrun, -, hstack, -⟩ := traps_run ram 0x80120000 (by decide) (by decide) _ hkeeps (by decide) s rfl
  exact ⟨u, trapped, hrun, hstack⟩

end QDNix.Mips
