import Mathlib.Logic.Relation

/-!
# A one-place transmit register

A port is a holding register with room for one item and the line behind it. Its device may move the item to
the line at any time (`drain`); a store into a full register loses what was in it. `Sender` is the party that
stores only into an empty register; whatever the interleaving, what it has sent followed by what it has
still to send stays the same (`Sender.steps_conserve`).

A concrete driver is verified by mapping it to a `Sender`: each of its steps must be a step of the sender or
leave it where it is.
-/

universe u

namespace Transmit

variable {β : Type u}

/-- The holding register and the line. -/
structure Port (β : Type u) where
  holding : Option β
  line : List β
deriving DecidableEq, Repr

namespace Port

/-- Nothing held, nothing sent. -/
def idle : Port β := ⟨none, []⟩

/-- The device puts the held item on the line. -/
def drain (p : Port β) : Port β :=
  match p.holding with
  | none => p
  | some b => ⟨none, p.line ++ [b]⟩

def store (p : Port β) (b : β) : Port β := { p with holding := some b }

/-- Everything on the line, then the item still held. -/
def sent (p : Port β) : List β := p.line ++ p.holding.toList

@[simp] theorem sent_idle : (idle : Port β).sent = [] := rfl

@[simp] theorem sent_drain (p : Port β) : p.drain.sent = p.sent := by
  obtain ⟨_ | b, line⟩ := p <;> simp [drain, sent]

theorem sent_store {p : Port β} (h : p.holding = none) (b : β) : (p.store b).sent = p.sent ++ [b] := by
  simp [store, sent, h]

@[simp] theorem holding_drain (p : Port β) : p.drain.holding = none := by
  obtain ⟨_ | b, line⟩ := p <;> rfl

/-! ### Stores that do not look at the register -/

/-- What gets out of a register stored to unguarded: some items may be lost, the last one not yet. -/
def Lossy (stored sent : List β) : Prop := List.Sublist sent stored ∧ sent.getLast? = stored.getLast?

theorem lossy_refl (stored : List β) : Lossy stored stored := ⟨.refl stored, rfl⟩

theorem lossy_store {stored : List β} {p : Port β} (h : Lossy stored p.sent) (b : β) :
    Lossy (stored ++ [b]) (p.store b).sent := by
  have hline : List.Sublist p.line stored := List.Sublist.trans (List.sublist_append_left p.line _) h.1
  have hsent : (p.store b).sent = p.line ++ [b] := rfl
  rw [hsent]
  exact ⟨hline.append (.refl [b]), by simp⟩

end Port

/-- A party with items still to send, and its port. -/
structure Sender (β : Type u) where
  port : Port β
  todo : List β

namespace Sender

/-- The device drains at any time; the sender stores its next item when the register is empty. -/
inductive Step : Sender β → Sender β → Prop
  | drain (s : Sender β) : Step s { s with port := s.port.drain }
  | send (p : Port β) (b : β) (todo : List β) (h : p.holding = none) : Step ⟨p, b :: todo⟩ ⟨p.store b, todo⟩

theorem step_conserves {s s' : Sender β} (h : Step s s') :
    s'.port.sent ++ s'.todo = s.port.sent ++ s.todo := by
  cases h with
  | drain => rw [Port.sent_drain]
  | send p b todo hempty => simp [Port.sent_store hempty]

/-- **Nothing is lost, repeated or reordered**, whatever the interleaving. -/
theorem steps_conserve {s s' : Sender β} (h : Relation.ReflTransGen Step s s') :
    s'.port.sent ++ s'.todo = s.port.sent ++ s.todo := by
  induction h with
  | refl => rfl
  | tail _ hstep ih => rw [step_conserves hstep, ih]

end Sender

end Transmit
