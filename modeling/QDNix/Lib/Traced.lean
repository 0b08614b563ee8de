import Mathlib.Data.List.Basic

/-!
# Traced computations

`Traced ε α` is a C computation seen from outside: the events it showed, in order, and the value it
returned, `none` once it has run into undefined behaviour. Events shown before that point stay in the
trace; nothing after it happens (`undef_bind`).

Two rules carry proofs about loops. `Sat P Q m` says that `m` returns, with every event in `P` and its
value in `Q`; `sat_foldlM` runs an invariant over a list of operations, and the invariant may speak of
the operations still to come. `map_foldlM` is functional refinement: if each step commutes with an
abstraction function while the invariant holds, so does the whole run, events included.

Arrays are vectors; `store` and `load` are undefined outside their bounds. `filled v k` is the part of an
array that a loop writing `v[0], v[1], …` has filled so far.
-/

universe u u' v w

/-- The events of a run and the value it returned, `none` for undefined behaviour. -/
structure Traced (ε : Type u) (α : Type v) where
  events : List ε
  value? : Option α

namespace Traced

variable {ε : Type u} {α β γ σ τ : Type v} {ο : Type w}

@[ext] theorem ext' {m n : Traced ε α} (he : m.events = n.events) (hv : m.value? = n.value?) : m = n := by
  cases m
  cases n
  simp_all

instance : Monad (Traced ε) where
  pure a := ⟨[], some a⟩
  bind m f := match m.value? with
    | none => ⟨m.events, none⟩
    | some a => ⟨m.events ++ (f a).events, (f a).value?⟩

/-- Show one event. -/
def emit (e : ε) : Traced ε PUnit := ⟨[e], some ⟨⟩⟩

/-- Undefined behaviour. -/
def undef : Traced ε α := ⟨[], none⟩

/-- The run has no undefined behaviour. -/
def Defined (m : Traced ε α) : Prop := m.value?.isSome = true

instance (m : Traced ε α) : Decidable m.Defined := inferInstanceAs (Decidable (_ = true))

@[simp] theorem events_pure (a : α) : (pure a : Traced ε α).events = [] := rfl

@[simp] theorem value?_pure (a : α) : (pure a : Traced ε α).value? = some a := rfl

theorem bind_of_some {m : Traced ε α} {a : α} (h : m.value? = some a) (f : α → Traced ε β) :
    m >>= f = ⟨m.events ++ (f a).events, (f a).value?⟩ := by
  show (match m.value? with
    | none => _
    | some a => _) = _
  rw [h]

theorem bind_of_none {m : Traced ε α} (h : m.value? = none) (f : α → Traced ε β) :
    m >>= f = ⟨m.events, none⟩ := by
  show (match m.value? with
    | none => _
    | some a => _) = _
  rw [h]

theorem bind_pure_id (m : Traced ε α) : m >>= pure = m := by
  cases h : m.value? with
  | none => exact (bind_of_none h _).trans (ext' rfl h.symm)
  | some a => exact (bind_of_some h _).trans (ext' (List.append_nil _) h.symm)

theorem bind_bind (m : Traced ε α) (f : α → Traced ε β) (g : β → Traced ε γ) :
    m >>= f >>= g = m >>= fun a => f a >>= g := by
  cases h : m.value? with
  | none => rw [bind_of_none h f, bind_of_none rfl, bind_of_none h]
  | some a =>
    rw [bind_of_some h f, bind_of_some h]
    cases hf : (f a).value? with
    | none =>
      rw [bind_of_none hf]
      rfl
    | some b =>
      rw [bind_of_some hf]
      exact ext' (List.append_assoc _ _ _) rfl

instance : LawfulMonad (Traced ε) :=
  LawfulMonad.mk' _ bind_pure_id (fun _ f => bind_of_some rfl f) bind_bind

@[simp] theorem events_emit (e : ε) : (emit e).events = [e] := rfl

@[simp] theorem value?_emit (e : ε) : (emit e).value? = some ⟨⟩ := rfl

@[simp] theorem emit_bind (e : ε) (f : PUnit → Traced ε β) :
    emit e >>= f = ⟨e :: (f ⟨⟩).events, (f ⟨⟩).value?⟩ := rfl

@[simp] theorem undef_bind (f : α → Traced ε β) : (undef >>= f : Traced ε β) = undef := rfl

@[simp] theorem events_map (f : α → β) (m : Traced ε α) : (f <$> m).events = m.events := by
  rw [map_eq_pure_bind]
  cases h : m.value? with
  | none => rw [bind_of_none h]
  | some a => rw [bind_of_some h, events_pure, List.append_nil]

@[simp] theorem value?_map (f : α → β) (m : Traced ε α) : (f <$> m).value? = m.value?.map f := by
  rw [map_eq_pure_bind]
  cases h : m.value? with
  | none => rw [bind_of_none h]; rfl
  | some a => rw [bind_of_some h]; rfl

/-! ### Total correctness -/

/-- `m` returns a value in `Q`, and every event on the way is in `P`. -/
def Sat (P : ε → Prop) (Q : α → Prop) (m : Traced ε α) : Prop :=
  (∀ e ∈ m.events, P e) ∧ ∃ a, m.value? = some a ∧ Q a

variable {P : ε → Prop} {Q : α → Prop}

theorem Sat.bind {R : β → Prop} {m : Traced ε α} {f : α → Traced ε β} (hm : Sat P Q m)
    (hf : ∀ a, Q a → Sat P R (f a)) : Sat P R (m >>= f) := by
  obtain ⟨hevents, a, hvalue, ha⟩ := hm
  obtain ⟨hevents', b, hvalue', hb⟩ := hf a ha
  rw [bind_of_some hvalue]
  refine ⟨fun e he => ?_, b, hvalue', hb⟩
  rcases List.mem_append.mp he with he | he
  · exact hevents e he
  · exact hevents' e he

theorem sat_pure {a : α} (h : Q a) : Sat P Q (pure a) := ⟨by simp, a, rfl, h⟩

theorem sat_emit {e : ε} {f : PUnit → Traced ε α} (he : P e) (hf : Sat P Q (f ⟨⟩)) : Sat P Q (emit e >>= f) := by
  obtain ⟨hevents, a, hvalue, ha⟩ := hf
  refine ⟨fun e' he' => ?_, a, hvalue, ha⟩
  rcases List.mem_cons.mp he' with rfl | he'
  · exact he
  · exact hevents e' he'

/-- The invariant rule for a run over a list of operations. `I os s` may depend on the operations `os` that
are still to come. -/
theorem sat_foldlM {I : List ο → σ → Prop} {step : σ → ο → Traced ε σ}
    (hstep : ∀ o os s, I (o :: os) s → Sat P (I os) (step s o)) :
    ∀ (os : List ο) (s : σ), I os s → Sat P (I []) (os.foldlM step s) := by
  intro os
  induction os with
  | nil => exact fun s h => ⟨by simp, s, rfl, h⟩
  | cons o os ih =>
    intro s h
    rw [List.foldlM_cons]
    exact (hstep o os s h).bind ih

theorem events_bind {I : List ε → Prop} (happend : ∀ s t, I s → I t → I (s ++ t)) {m : Traced ε α}
    {f : α → Traced ε β} (hm : I m.events) (hf : ∀ a, m.value? = some a → I (f a).events) : I (m >>= f).events := by
  cases hvalue : m.value? with
  | none => rwa [bind_of_none hvalue]
  | some a =>
    rw [bind_of_some hvalue]
    exact happend _ _ hm (hf a hvalue)

/-- Functional refinement of runs: where every step commutes with `f`, the run does. -/
theorem map_foldlM {I : List ο → σ → Prop} {step : σ → ο → Traced ε σ} {step' : τ → ο → Traced ε τ}
    {f : σ → τ} (hstep : ∀ o os s, I (o :: os) s → f <$> step s o = step' (f s) o)
    (hinv : ∀ o os s s', I (o :: os) s → (step s o).value? = some s' → I os s') :
    ∀ (os : List ο) (s : σ), I os s → f <$> os.foldlM step s = os.foldlM step' (f s) := by
  intro os
  induction os with
  | nil => intro s _; simp
  | cons o os ih =>
    intro s h
    rw [List.foldlM_cons, List.foldlM_cons, ← hstep o os s h, map_bind]
    cases hs : (step s o).value? with
    | none =>
      rw [bind_of_none hs, bind_of_none (by simp [hs]), events_map]
    | some s' =>
      have hs' : (f <$> step s o).value? = some (f s') := by simp [hs]
      rw [bind_of_some hs, bind_of_some hs', ih s' (hinv o os s s' h hs), events_map]

/-! ### Other events -/

section Relabel

variable {ε' : Type u'}

/-- The same computation, each event shown as the events `f` makes of it. -/
def relabel (f : ε → List ε') (m : Traced ε α) : Traced ε' α := ⟨m.events.flatMap f, m.value?⟩

variable (f : ε → List ε')

@[simp] theorem relabel_pure (a : α) : relabel f (pure a : Traced ε α) = pure a := rfl

@[simp] theorem value?_relabel (m : Traced ε α) : (relabel f m).value? = m.value? := rfl

@[simp] theorem relabel_undef : relabel f (undef : Traced ε α) = undef := rfl

@[simp] theorem relabel_emit (e : ε) : relabel f (emit e) = ⟨f e, some ⟨⟩⟩ := by
  simp [relabel]

theorem relabel_bind (m : Traced ε α) (k : α → Traced ε β) :
    relabel f (m >>= k) = relabel f m >>= fun a => relabel f (k a) := by
  cases h : m.value? with
  | none =>
    have h' : (relabel f m).value? = none := h
    rw [bind_of_none h, bind_of_none h']
    rfl
  | some a =>
    have h' : (relabel f m).value? = some a := h
    rw [bind_of_some h, bind_of_some h']
    simp [relabel]

theorem relabel_ite {c : Prop} [Decidable c] (m m' : Traced ε α) :
    relabel f (if c then m else m') = if c then relabel f m else relabel f m' := apply_ite _ _ _ _

theorem relabel_emit_of_nil {f : ε → List ε'} {e : ε} (h : f e = []) (k : PUnit → Traced ε α) :
    relabel f (emit e >>= k) = relabel f (k ⟨⟩) := by
  rw [emit_bind, relabel, List.flatMap_cons, h, List.nil_append]
  rfl

theorem events_relabel_map (g : ε → ε') (m : Traced ε α) : (relabel (fun e => [g e]) m).events = m.events.map g :=
  List.map_eq_flatMap.symm

theorem relabel_relabel {f : ε → List ε'} {g : ε' → List ε} (h : ∀ e, (f e).flatMap g = [e])
    (m : Traced ε α) : relabel g (relabel f m) = m := by
  refine ext' ?_ rfl
  simp only [relabel, List.flatMap_assoc, h]
  exact List.flatMap_singleton' m.events

end Relabel

/-! ### Arrays -/

variable {n : Nat}

/-- `v[i] = b`, undefined outside the array. -/
def store (v : Vector α n) (i : Nat) (b : α) : Traced ε (Vector α n) :=
  if h : i < n then pure (v.set i b h) else undef

/-- `v[i]`, undefined outside the array. -/
def load (v : Vector α n) (i : Nat) : Traced ε α :=
  if h : i < n then pure v[i] else undef

theorem store_of_lt (v : Vector α n) {i : Nat} (h : i < n) (b : α) :
    (store v i b : Traced ε _) = pure (v.set i b h) := dif_pos h

theorem store_of_le (v : Vector α n) {i : Nat} (h : n ≤ i) (b : α) :
    (store v i b : Traced ε _) = undef := dif_neg (by omega)

theorem load_of_le (v : Vector α n) {i : Nat} (h : n ≤ i) : (load v i : Traced ε α) = undef :=
  dif_neg (by omega)

theorem load_of_lt (v : Vector α n) {i : Nat} (h : i < n) : (load v i : Traced ε α) = pure v[i] := dif_pos h

theorem relabel_store {ε' : Type u'} (f : ε → List ε') (v : Vector α n) (i : Nat) (b : α) :
    relabel f (store v i b) = store v i b := by
  unfold store
  split <;> rfl

theorem relabel_load {ε' : Type u'} (f : ε → List ε') (v : Vector α n) (i : Nat) :
    relabel f (load v i) = load v i := by
  unfold load
  split <;> rfl

/-- The first `k` cells of an array. -/
def filled (v : Vector α n) (k : Nat) : List α := v.toList.take k

@[simp] theorem filled_zero (v : Vector α n) : filled v 0 = [] := rfl

theorem length_filled (v : Vector α n) {k : Nat} (h : k ≤ n) : (filled v k).length = k := by
  simp [filled, h]

theorem filled_succ (v : Vector α n) {k : Nat} (h : k < n) : filled v (k + 1) = filled v k ++ [v[k]] := by
  have hlen : k < v.toList.length := by simpa using h
  rw [filled, filled, List.take_add_one, List.getElem?_eq_getElem hlen]
  simp

theorem filled_set (v : Vector α n) {k : Nat} (h : k < n) (b : α) :
    filled (v.set k b h) (k + 1) = filled v k ++ [b] := by
  have hlen : k < v.toList.length := by simpa using h
  rw [filled, filled, Vector.toList_set, List.take_add_one, List.take_set_of_le (Nat.le_refl k),
    List.getElem?_set_self hlen]
  rfl

end Traced
