import QDNix.Lib.Transmit

/-!
# Polled output

A routine reads a status register until the value lets it go on, then stores its item: `PollStore`. It runs,
once for each item of a text, against a device that moves by itself between the accesses; a schedule says who
moves.

`Always P` says that every step of a run satisfies `P`. A device `Transmits` when its transmit register is a
`Port`. Where no store of a run overwrites, the run is one of a `Sender`, so nothing is lost whatever it is
that the routine polls (`sent_run`).
-/

namespace Polled

open Transmit Relation

/-- `while (busy(*status)); *data = value;` -/
structure PollStore (α ν : Type) where
  statusAddr : α
  busy : ν → Bool
  dataAddr : α
  value : ν

/-- A memory-mapped device: what it does by itself, and at an access. A read may have an effect, and finds an
`ω` in the bits the device leaves open. -/
structure Device (δ α ν ω ε : Type) where
  move : δ → ε → δ
  read : δ → α → ω → ν × δ
  write : δ → α → ν → δ

inductive Pc
  | poll | store
deriving DecidableEq, Repr

/-- The items whose calls have not returned, the first of them in the running call, and the device. -/
structure Sys (β δ : Type) where
  todo : List β
  pc : Pc
  dev : δ
deriving DecidableEq, Repr

/-- Who moves next. -/
inductive Choice (ω ε : Type)
  | device (e : ε)
  | cpu (other : ω)
deriving DecidableEq, Repr

variable {α β δ ν ω ε : Type} (d : Device δ α ν ω ε) (routine : β → PollStore α ν)

/-- One access of the running call. -/
def cpuStep (s : Sys β δ) (other : ω) : Sys β δ :=
  match s.todo with
  | [] => s
  | b :: todo =>
    match s.pc with
    | .poll =>
      let r := d.read s.dev (routine b).statusAddr other
      { s with pc := if (routine b).busy r.1 then .poll else .store, dev := r.2 }
    | .store => ⟨todo, .poll, d.write s.dev (routine b).dataAddr (routine b).value⟩

def step (s : Sys β δ) : Choice ω ε → Sys β δ
  | .device e => { s with dev := d.move s.dev e }
  | .cpu other => cpuStep d routine s other

def run (s : Sys β δ) (schedule : List (Choice ω ε)) : Sys β δ := schedule.foldl (step d routine) s

@[simp] theorem run_nil (s : Sys β δ) : run d routine s [] = s := rfl

@[simp] theorem run_cons (s : Sys β δ) (c : Choice ω ε) (cs : List (Choice ω ε)) :
    run d routine s (c :: cs) = run d routine (step d routine s c) cs := rfl

theorem step_poll {s : Sys β δ} {b : β} {todo : List β} (htodo : s.todo = b :: todo) (hpc : s.pc = .poll)
    (other : ω) :
    step d routine s (.cpu other) =
      { s with
        pc := if (routine b).busy (d.read s.dev (routine b).statusAddr other).1 then .poll else .store
        dev := (d.read s.dev (routine b).statusAddr other).2 } := by
  rw [step, cpuStep, htodo]
  simp only [hpc]

theorem step_store {s : Sys β δ} {b : β} {todo : List β} (htodo : s.todo = b :: todo) (hpc : s.pc = .store)
    (other : ω) :
    step d routine s (.cpu other) = ⟨todo, .poll, d.write s.dev (routine b).dataAddr (routine b).value⟩ := by
  rw [step, cpuStep, htodo]
  simp only [hpc]

theorem step_finished {s : Sys β δ} (htodo : s.todo = []) (other : ω) : step d routine s (.cpu other) = s := by
  rw [step, cpuStep, htodo]

/-! ### Properties of every step -/

/-- Every step of a run satisfies `P`. -/
def Always (P : Sys β δ → Choice ω ε → Prop) : Sys β δ → List (Choice ω ε) → Prop
  | _, [] => True
  | s, c :: cs => P s c ∧ Always P (step d routine s c) cs

variable {d routine}

theorem run_fixed {s : Sys β δ} (h : ∀ c, step d routine s c = s) (schedule : List (Choice ω ε)) :
    run d routine s schedule = s := by
  induction schedule with
  | nil => rfl
  | cons c cs ih => rw [run_cons, h, ih]

theorem always_fixed {P : Sys β δ → Choice ω ε → Prop} {s : Sys β δ} (h : ∀ c, step d routine s c = s)
    (schedule : List (Choice ω ε)) : Always d routine P s schedule ↔ ∀ c ∈ schedule, P s c := by
  induction schedule with
  | nil => simp [Always]
  | cons c cs ih => rw [Always, h, ih, List.forall_mem_cons]

/-! ### The transmit register -/

variable (d routine)

variable (port : δ → Port β)

/-- The transmit register of the device is a port: the device may drain it, reads leave it alone, and the
routine's store is a store of its item. -/
structure Transmits : Prop where
  move : ∀ s e, port (d.move s e) = port s ∨ port (d.move s e) = (port s).drain
  read : ∀ s addr other, port (d.read s addr other).2 = port s
  write : ∀ s b, port (d.write s (routine b).dataAddr (routine b).value) = (port s).store b

/-- The next step stores into a full register. -/
def Overwrites (s : Sys β δ) : Choice ω ε → Prop
  | .device _ => False
  | .cpu _ => s.todo ≠ [] ∧ s.pc = .store ∧ (port s.dev).holding ≠ none

/-- No store of a run is made while the register is full. -/
def Safe (s : Sys β δ) (schedule : List (Choice ω ε)) : Prop :=
  Always d routine (fun s c => ¬ Overwrites port s c) s schedule

theorem safe_device (s : Sys β δ) (e : ε) (cs : List (Choice ω ε)) :
    Safe d routine port s (.device e :: cs) ↔ Safe d routine port (step d routine s (.device e)) cs :=
  and_iff_right id

theorem safe_poll {s : Sys β δ} (hpc : s.pc = .poll) (other : ω) (cs : List (Choice ω ε)) :
    Safe d routine port s (.cpu other :: cs) ↔ Safe d routine port (step d routine s (.cpu other)) cs :=
  and_iff_right fun hover => Pc.noConfusion (hpc.symm.trans hover.2.1)

theorem safe_store {s : Sys β δ} (htodo : s.todo ≠ []) (hpc : s.pc = .store) (other : ω)
    (cs : List (Choice ω ε)) :
    Safe d routine port s (.cpu other :: cs) ↔
      (port s.dev).holding = none ∧ Safe d routine port (step d routine s (.cpu other)) cs := by
  refine and_congr_left' ⟨fun h => ?_, fun hempty hover => hover.2.2 hempty⟩
  exact Classical.not_not.mp fun hfull => h ⟨htodo, hpc, hfull⟩

def Sys.sender (s : Sys β δ) : Sender β := ⟨port s.dev, s.todo⟩

variable {d routine port}

theorem step_sends (h : Transmits d routine port) {s : Sys β δ} {c : Choice ω ε} (hc : ¬ Overwrites port s c) :
    ReflTransGen Sender.Step (s.sender port) ((step d routine s c).sender port) := by
  cases c with
  | device e =>
    rcases h.move s.dev e with hsame | hdrain
    · have hstay : (step d routine s (.device e)).sender port = s.sender port := by
        simp [step, Sys.sender, hsame]
      rw [hstay]
    · refine .single ?_
      have hstep : (step d routine s (.device e)).sender port = ⟨(port s.dev).drain, s.todo⟩ := by
        simp [step, Sys.sender, hdrain]
      rw [hstep]
      exact .drain (s.sender port)
  | cpu other =>
    cases htodo : s.todo with
    | nil => rw [step_finished d routine htodo]
    | cons b todo =>
      cases hpc : s.pc with
      | poll =>
        rw [step_poll d routine htodo hpc, Sys.sender, Sys.sender]
        simp only [h.read]
        exact .refl
      | store =>
        have hempty : (port s.dev).holding = none :=
          Classical.not_not.mp fun hfull => hc ⟨by simp [htodo], hpc, hfull⟩
        rw [step_store d routine htodo hpc, Sys.sender, Sys.sender, h.write, htodo]
        exact .single (.send _ b todo hempty)

/-- **Nothing is lost, repeated or reordered** in a run that never stores into a full register. -/
theorem sent_run (h : Transmits d routine port) (schedule : List (Choice ω ε)) : ∀ s : Sys β δ,
    Safe d routine port s schedule →
      (port (run d routine s schedule).dev).sent ++ (run d routine s schedule).todo =
        (port s.dev).sent ++ s.todo := by
  induction schedule with
  | nil => exact fun s _ => rfl
  | cons c cs ih =>
    intro s hsafe
    have hstep := Sender.steps_conserve (step_sends h hsafe.1)
    exact (ih _ hsafe.2).trans hstep

end Polled
