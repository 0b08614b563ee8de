import QDNix.I386.Isr

/-!
# Where the exception stubs are transparent

`isrCommon_run` says what the common tail makes of the stack it finds: two words to discard, then the three
that `iret` takes. It gives every general register back but loads all four data segment registers with the
saved DS. A stub finds the right words below its own two exactly when it pushes its dummy error code for a
vector without one; for vectors 17 and 21, which have one, the tail is off by a word and ESP comes back
short (`transparent_iff`).
-/

namespace QDNix.I386

open X86

variable {s : Cpu} {ws : List Word}

def dataSegs : List SReg := [.ds, .es, .fs, .gs]

/-! ### The parts of the common tail -/

def loadSegs : List (Instr Label) := dataSegs.map fun r => .movToSeg r .eax

/-- DS saved, the kernel's segment loaded. -/
def enterSegs : List (Instr Label) := .movFromSeg .eax .ds :: .push .eax :: .movImm16 .eax 0x10 :: loadSegs

/-- The saved DS loaded. -/
def leaveSegs : List (Instr Label) := .pop .eax :: loadSegs

theorem execAll_loadSegs (s : Cpu) :
    (execAll loadSegs s).gpr = s.gpr ∧ (execAll loadSegs s).mem = s.mem ∧
      ∀ r, (execAll loadSegs s).sreg r = if r ∈ dataSegs then (s.gpr .eax).setWidth 16 else s.sreg r := by
  refine ⟨rfl, rfl, fun r => ?_⟩
  cases r <;> rfl

theorem stack_loadSegs (h : s.Stack ws) : (execAll loadSegs s).Stack ws := h

/-- Only EAX may change among the general registers, and the stack pointer moves by `n`. -/
structure Moves (n : Word) (s t : Cpu) : Prop where
  esp : t.gpr .esp = s.gpr .esp + n
  gpr : ∀ r, r ≠ .esp → r ≠ .eax → t.gpr r = s.gpr r

theorem enterSegs_spec (h : s.Stack ws) (hroom : ws.length < 2 ^ 30) :
    ∃ w : Word, w.setWidth 16 = s.sreg .ds ∧ (execAll enterSegs s).Stack (w :: ws) ∧
      Moves (-4) s (execAll enterSegs s) ∧ ∀ r ∉ dataSegs, (execAll enterSegs s).sreg r = s.sreg r := by
  let t := s.set .eax (setLow (s.gpr .eax) (s.sreg .ds))
  let u := t.push (t.gpr .eax)
  let v := u.set .eax (setLow (u.gpr .eax) 0x10)
  have hexec : execAll enterSegs s = execAll loadSegs v := rfl
  obtain ⟨hgpr, -, hsreg⟩ := execAll_loadSegs v
  have hstack : v.Stack (t.gpr .eax :: ws) := ((h.set (by decide) _).push _ hroom).set (by decide) _
  rw [hexec]
  refine ⟨t.gpr .eax, ?_, stack_loadSegs hstack, ⟨?_, fun r hesp heax => ?_⟩, fun r hr => ?_⟩
  · rw [Cpu.gpr_set, setWidth_setLow]
  · rw [hgpr, Cpu.gpr_set_of_ne _ _ (by decide), Cpu.esp_push, Cpu.gpr_set_of_ne _ _ (by decide),
      BitVec.sub_eq_add_neg]
  · rw [hgpr, Cpu.gpr_set_of_ne _ _ heax, Cpu.gpr_push _ _ hesp, Cpu.gpr_set_of_ne _ _ heax]
  · rw [hsreg, if_neg hr]
    rfl

theorem leaveSegs_spec {w : Word} (h : s.Stack (w :: ws)) :
    (execAll leaveSegs s).Stack ws ∧ Moves 4 s (execAll leaveSegs s) ∧
      ∀ r, (execAll leaveSegs s).sreg r = if r ∈ dataSegs then w.setWidth 16 else s.sreg r := by
  let t := (s.drop 4).set .eax s.top
  have hexec : execAll leaveSegs s = execAll loadSegs t := rfl
  obtain ⟨hgpr, -, hsreg⟩ := execAll_loadSegs t
  have hstack : t.Stack ws := h.drop.set (by decide) _
  rw [hexec]
  refine ⟨stack_loadSegs hstack, ⟨?_, fun r hesp heax => ?_⟩, fun r => ?_⟩
  · rw [hgpr, Cpu.gpr_set_of_ne _ _ (by decide), Cpu.esp_drop]
  · rw [hgpr, Cpu.gpr_set_of_ne _ _ heax, Cpu.gpr_drop _ _ hesp]
  · rw [hsreg, Cpu.gpr_set, h.top]
    rfl

/-! ### The common tail -/

theorem mem_order (r : Reg) : r ∈ Cpu.order := by cases r <;> decide

theorem popa_iret_run {regs : Reg → Word} {n e ip c f : Word}
    (h : s.Stack (Cpu.order.reverse.map regs ++ n :: e :: ip :: c :: f :: ws)) :
    ∃ s', run isrCode 3 [.popa, .addImm .esp 8, .iret] s = some (ip, s') ∧ s'.gpr .esp = s.gpr .esp + 52 ∧
      (∀ r ≠ .esp, s'.gpr r = regs r) ∧ s'.eflags = f ∧
      ∀ r, s'.sreg r = if r = .cs then c.setWidth 16 else s.sreg r := by
  obtain ⟨hstack, hesp, hgpr, hsreg⟩ := Cpu.Stack.popAll regs Cpu.order.reverse h
  let t := (Cpu.popa s).drop 8
  have htop : t.Stack (ip :: c :: f :: ws) := hstack.drop_two
  have htake : (t.drop 8).top = f := htop.drop_two.top
  refine ⟨exec (Λ := Label) .iret (exec (Λ := Label) (.addImm .esp 8) (Cpu.popa s)), ?_, ?_, fun r hr => ?_, htake,
    fun r => ?_⟩
  · exact congrArg (fun w => some (w, _)) htop.top
  · show ((t.drop 12).gpr .esp) = _
    rw [Cpu.esp_drop, Cpu.esp_drop, Cpu.popa, hesp]
    show s.gpr .esp + 4 * 8 + 8 + 12 = _
    bv_omega
  · show (t.drop 12).gpr r = _
    rw [Cpu.gpr_drop _ _ hr, Cpu.gpr_drop _ _ hr, Cpu.popa, hgpr r hr, if_pos (List.mem_reverse.mpr (mem_order r))]
  · show Function.update t.sreg .cs ((t.drop 4).top.setWidth 16) r = _
    rw [htop.drop.top, Function.update_apply, Cpu.sreg_drop, Cpu.popa, hsreg]

/-- What a stub leaves of the machine `s`: the stack pointer moved by `n`, CS and EFLAGS taken from the words
`c` and `f`, DS in all four data segment registers. -/
structure Leaves (s s' : Cpu) (n c f : Word) : Prop where
  esp : s'.gpr .esp = s.gpr .esp + n
  gpr : ∀ r ≠ .esp, s'.gpr r = s.gpr r
  eflags : s'.eflags = f
  sreg : ∀ r, s'.sreg r = if r = .cs then c.setWidth 16 else if r ∈ dataSegs then s.sreg .ds else s.sreg r

theorem isrCommon_run {n e ip c f : Word} (h : s.Stack (n :: e :: ip :: c :: f :: ws))
    (hroom : ws.length < 2 ^ 29) : ∃ s', run isrCode 16 isrCommon s = some (ip, s') ∧ Leaves s s' 20 c f := by
  obtain ⟨hstack₁, hesp₁, -, hsreg₁⟩ := h.pushAll s.gpr Cpu.order (by simp [Cpu.order]; omega)
  obtain ⟨w, hw, hstack₂, hmoves₂, hsreg₂⟩ := enterSegs_spec hstack₁ (by simp [Cpu.order]; omega)
  obtain ⟨hstack₃, hmoves₃, hsreg₃⟩ := leaveSegs_spec hstack₂
  rw [← List.map_reverse] at hstack₃
  obtain ⟨s', hrun, hesp, hgpr, hflags, hsreg⟩ := popa_iret_run hstack₃
  refine ⟨s', ?_, ?_, hgpr, hflags, fun r => ?_⟩
  · have hrun₂ := run_straight isrCode enterSegs (leaveSegs ++ [.popa, .addImm .esp 8, .iret]) (by decide)
      s.pusha 8
    have hrun₃ := run_straight isrCode leaveSegs [.popa, .addImm .esp 8, .iret] (by decide)
      (execAll enterSegs s.pusha) 3
    exact (hrun₂.trans hrun₃).trans hrun
  · rw [hesp, hmoves₃.esp, hmoves₂.esp, hesp₁]
    show s.gpr .esp - 4 * 8 + -4 + 4 + 52 = _
    bv_omega
  · rw [hsreg, hsreg₃, hw, hsreg₁]
    by_cases hr : r ∈ dataSegs
    · simp only [if_pos hr]
    · rw [if_neg hr, if_neg hr, hsreg₂ r hr, hsreg₁]

/-! ### The stubs -/

theorem Leaves.of_push {t s' : Cpu} {v n c f : Word} (h : Leaves (t.push v) s' (n + 4) c f) : Leaves t s' n c f := by
  refine ⟨?_, fun r hr => ?_, h.eflags, h.sreg⟩
  · rw [h.esp, Cpu.esp_push]
    bv_omega
  · rw [h.gpr r hr, Cpu.gpr_push _ _ hr]

theorem isrNoErr_run {ip c f : Word} (h : s.Stack (ip :: c :: f :: ws)) (hroom : ws.length < 2 ^ 29) (x : Word) :
    ∃ s', run isrCode 20 (isrNoErr x) s = some (ip, s') ∧ Leaves s s' 12 c f := by
  let t := exec (Λ := Label) .cli s
  have hstack : t.Stack (ip :: c :: f :: ws) := h
  obtain ⟨s', hrun, hleaves⟩ := isrCommon_run
    ((hstack.push 0 (by simp; omega)).push x (by simp; omega)) hroom
  have hback : Leaves t s' 12 c f := (hleaves.of_push (n := 16)).of_push
  exact ⟨s', hrun, hback.esp, hback.gpr, hback.eflags, hback.sreg⟩

theorem isrErr_run {e ip c f : Word} (h : s.Stack (e :: ip :: c :: f :: ws)) (hroom : ws.length < 2 ^ 29)
    (x : Word) : ∃ s', run isrCode 19 (isrErr x) s = some (ip, s') ∧ Leaves s s' 16 c f := by
  let t := exec (Λ := Label) .cli s
  have hstack : t.Stack (e :: ip :: c :: f :: ws) := h
  obtain ⟨s', hrun, hleaves⟩ := isrCommon_run (hstack.push x (by simp; omega)) hroom
  have hback : Leaves t s' 16 c f := hleaves.of_push
  exact ⟨s', hrun, hback.esp, hback.gpr, hback.eflags, hback.sreg⟩

/-! ### Transparency -/

/-- The vectors whose stub is an `ISR_ERR`. -/
def isErrStub (vector : Fin 32) : Bool := vector.val = 8 ∨ (10 ≤ vector.val ∧ vector.val ≤ 14)

theorem isrList_eq : ∀ vector : Fin 32, isrList.get vector =
    if isErrStub vector then isrErr (BitVec.ofNat 32 vector) else isrNoErr (BitVec.ofNat 32 vector) := by
  decide

theorem pushesError_iff : ∀ vector : Fin 32,
    PushesError vector ↔ isErrStub vector = true ∨ vector = 17 ∨ vector = 21 := by
  decide

variable {vector : Fin 32} {gate : Gate} {eip : Word}

/-- The three words every exception pushes. -/
def frame (eip : Word) (s : Cpu) : Cpu := ((s.push s.eflags).push ((s.sreg .cs).setWidth 32)).push eip

theorem stack_frame (eip : Word) (s : Cpu) :
    (frame eip s).Stack [eip, (s.sreg .cs).setWidth 32, s.eflags] := by
  have hnil : s.Stack [] := trivial
  exact ((hnil.push _ (by simp)).push _ (by simp)).push _ (by simp)

theorem Leaves.of_frame {s' : Cpu} {n c f : Word} (h : Leaves (frame eip s) s' (n + 12) c f) :
    Leaves s s' n c f := by
  have hsum : n + 12 = n + 4 + 4 + 4 := by bv_omega
  rw [hsum] at h
  exact h.of_push.of_push.of_push

theorem deliver_of_error (h : PushesError vector) (gate : Gate) (error eip : Word) (s : Cpu) :
    deliver vector gate error eip s =
      { ((frame eip s).push error).setSeg .cs gate.cs with eflags := gate.eflags } := by
  rw [deliver, if_pos h, frame]

theorem deliver_of_noError (h : ¬ PushesError vector) (gate : Gate) (error eip : Word) (s : Cpu) :
    deliver vector gate error eip s = { (frame eip s).setSeg .cs gate.cs with eflags := gate.eflags } := by
  rw [deliver, if_neg h, frame]

theorem Leaves.of_gate {t s' : Cpu} {n c f : Word}
    (h : Leaves { t.setSeg .cs gate.cs with eflags := gate.eflags } s' n c f) : Leaves t s' n c f := by
  refine ⟨h.esp, h.gpr, h.eflags, fun r => ?_⟩
  rw [h.sreg]
  cases r <;> rfl

theorem fitting_run (gate : Gate) (error eip : Word) (s : Cpu) (h17 : vector ≠ 17) (h21 : vector ≠ 21) :
    ∃ fuel s', run isrCode fuel (isrList.get vector) (deliver vector gate error eip s) = some (eip, s') ∧
      Leaves s s' 0 ((s.sreg .cs).setWidth 32) s.eflags := by
  rw [isrList_eq]
  by_cases herr : PushesError vector
  · have hstub : isErrStub vector = true := by simpa [h17, h21] using (pushesError_iff vector).mp herr
    have hstack := (stack_frame eip s).push error (by simp)
    obtain ⟨s', hrun, hleaves⟩ := isrErr_run (s := deliver vector gate error eip s)
      (by rw [deliver_of_error herr]; exact hstack) (by simp) (BitVec.ofNat 32 vector)
    rw [deliver_of_error herr] at hleaves
    refine ⟨19, s', by rw [if_pos hstub, hrun], ?_⟩
    exact Leaves.of_frame (Leaves.of_push (n := 12) hleaves.of_gate)
  · have hstub : isErrStub vector = false := by
      rw [pushesError_iff, not_or] at herr
      simpa using herr.1
    obtain ⟨s', hrun, hleaves⟩ := isrNoErr_run (s := deliver vector gate error eip s)
      (by rw [deliver_of_noError herr]; exact stack_frame eip s) (by simp) (BitVec.ofNat 32 vector)
    rw [deliver_of_noError herr] at hleaves
    refine ⟨20, s', by rw [if_neg (by simp [hstub]), hrun], ?_⟩
    exact Leaves.of_frame (n := 0) hleaves.of_gate

/-- The stubs of vectors 17 and 21 return through the error code, one word short. -/
theorem misfitting_run (gate : Gate) (error eip : Word) (s : Cpu) (h : vector = 17 ∨ vector = 21) :
    ∃ fuel s', run isrCode fuel (isrList.get vector) (deliver vector gate error eip s) = some (error, s') ∧
      Leaves s s' (-4) eip ((s.sreg .cs).setWidth 32) := by
  have herr : PushesError vector := (pushesError_iff vector).mpr (.inr h)
  have hstub : isErrStub vector = false := by rcases h with rfl | rfl <;> decide
  obtain ⟨s', hrun, hleaves⟩ := isrNoErr_run (s := deliver vector gate error eip s)
    (by rw [deliver_of_error herr]; exact (stack_frame eip s).push error (by simp)) (by simp)
    (BitVec.ofNat 32 vector)
  rw [deliver_of_error herr] at hleaves
  refine ⟨20, s', by rw [isrList_eq, if_neg (by simp [hstub]), hrun], ?_⟩
  exact Leaves.of_frame (Leaves.of_push (n := 8) hleaves.of_gate)

/-- **A stub is transparent exactly when its vector is neither 17 nor 21 and ES, FS and GS held what DS did.** -/
theorem transparent_iff (vector : Fin 32) (gate : Gate) (error eip : Word) (s : Cpu) :
    Transparent vector gate error eip s ↔
      vector ≠ 17 ∧ vector ≠ 21 ∧ s.sreg .es = s.sreg .ds ∧ s.sreg .fs = s.sreg .ds ∧ s.sreg .gs = s.sreg .ds := by
  constructor
  · rintro ⟨fuel, s', hrun, hgpr, -, hsreg⟩
    by_cases hmisfit : vector = 17 ∨ vector = 21
    · obtain ⟨fuel', s'', hrun', hleaves⟩ := misfitting_run gate error eip s hmisfit
      obtain ⟨-, rfl⟩ := Prod.mk.inj (run_unique hrun hrun')
      have hesp := hleaves.esp
      rw [hgpr] at hesp
      exact absurd hesp (by bv_omega)
    · rw [not_or] at hmisfit
      obtain ⟨fuel', s'', hrun', hleaves⟩ := fitting_run gate error eip s hmisfit.1 hmisfit.2
      obtain ⟨-, rfl⟩ := Prod.mk.inj (run_unique hrun hrun')
      have hseg := hleaves.sreg
      rw [hsreg] at hseg
      exact ⟨hmisfit.1, hmisfit.2, hseg .es, hseg .fs, hseg .gs⟩
  · rintro ⟨h17, h21, hes, hfs, hgs⟩
    obtain ⟨fuel, s', hrun, hleaves⟩ := fitting_run gate error eip s h17 h21
    refine ⟨fuel, s', hrun, funext fun r => ?_, hleaves.eflags, funext fun r => ?_⟩
    · by_cases hr : r = .esp
      · rw [hr, hleaves.esp]
        exact BitVec.add_zero _
      · exact hleaves.gpr r hr
    · rw [hleaves.sreg]
      cases r with
      | cs => simp
      | ss => rfl
      | ds => rfl
      | es => exact hes.symm
      | fs => exact hfs.symm
      | gs => exact hgs.symm

/-- An interrupted program; ES may hold what DS does not. -/
def interrupted (es : Selector) : Cpu where
  gpr := fun _ => 0x8000
  sreg := fun r => if r = .cs then 0x08 else if r = .es then es else 0x10
  eflags := 0x202
  mem := fun _ => 0

/-- An alignment check, for which the CPU pushes an error code of 0, and a breakpoint with an ES of its own. -/
theorem not_transparent_interrupted :
    ¬ Transparent 17 ⟨0x08, 0⟩ 0 0x1000 (interrupted 0x10) ∧
    ¬ Transparent 3 ⟨0x08, 0⟩ 0 0x1000 (interrupted 0x18) := by
  constructor
  · rintro ⟨fuel, s', hrun, -, -, -⟩
    obtain ⟨fuel', s'', hrun', -⟩ := misfitting_run ⟨0x08, 0⟩ 0 0x1000 (interrupted 0x10) (.inl rfl)
    have heip := (Prod.mk.inj (run_unique hrun hrun')).1
    exact absurd heip (by decide)
  · rintro ⟨fuel, s', hrun, -, -, hsreg⟩
    obtain ⟨fuel', s'', hrun', hleaves⟩ := fitting_run ⟨0x08, 0⟩ 0 0x1000 (interrupted 0x18)
      (show (3 : Fin 32) ≠ 17 by decide) (by decide)
    obtain ⟨-, rfl⟩ := Prod.mk.inj (run_unique hrun hrun')
    have hes := hleaves.sreg .es
    rw [hsreg] at hes
    exact absurd hes (by decide)

end QDNix.I386
