import QDNix.Geminid.Handler

/-!
# Fragmented requests

The handler reads once, so it decides on the first piece of a request. A first piece of one byte makes it
read outside the buffer; a longer one is judged as if it were the request. Behind the first CR nothing of a
request matters (`pathPart_append_cr`), so the judgement is that of the whole request when the piece ends in
CR LF, or when the request lacks the scheme anyway, and only then (`decision_fragments_iff`).
-/

namespace QDNix.Geminid

open CString Traced

/-! ### The first piece and the whole -/

theorem pathPart_append_cr (has : Bool) (text rest : List Byte) :
    pathPart has (text ++ ch '\r' :: rest) = pathPart has text := by
  induction text generalizing has with
  | nil => rw [List.nil_append, pathPart_cons, if_pos (.inl rfl), pathPart_nil]
  | cons c text ih => rw [List.cons_append, pathPart_cons, pathPart_cons, ih, ih]

theorem scheme_before_cr {line rest : List Byte} (h : scheme <+: line ++ ch '\r' :: rest) : scheme <+: line := by
  rcases List.prefix_or_prefix_of_prefix h (List.prefix_append line _) with hs | ⟨tail, hs⟩
  · exact hs
  · rw [← hs, List.prefix_append_right_inj] at h
    cases tail with
    | nil => exact ⟨[], by rw [List.append_nil, ← hs, List.append_nil]⟩
    | cons c tail =>
      obtain ⟨rfl, -⟩ := List.cons_prefix_cons.mp h
      have hmem : ch '\r' ∈ scheme := hs ▸ List.mem_append_right line List.mem_cons_self
      exact absurd hmem (by decide)

variable {first tail : List Byte}

theorem requestPath_of_line (hline : [ch '\r', ch '\n'] <:+ first) (hend : [ch '\r', ch '\n'] <:+ first ++ tail) :
    requestPath (first ++ tail) = requestPath first := by
  obtain ⟨line, rfl⟩ := hline
  have hwhole : line ++ [ch '\r', ch '\n'] ++ tail = line ++ ch '\r' :: ch '\n' :: tail := by simp
  rw [hwhole] at hend ⊢
  by_cases hs : scheme <+: line
  · have hnine : 9 ≤ line.length := hs.length_le
    have hpart : ∀ rest, pathPart false ((line ++ ch '\r' :: rest).drop 9) = pathPart false (line.drop 9) := by
      intro rest
      rw [List.drop_append_of_le_length hnine, pathPart_append_cr]
    have hreq : ∀ rest, [ch '\r', ch '\n'] <:+ line ++ ch '\r' :: rest → IsRequest (line ++ ch '\r' :: rest) :=
      fun rest h => ⟨h, hs.trans (List.prefix_append _ _)⟩
    rw [requestPath, requestPath, if_pos (hreq _ hend), if_pos (hreq _ (List.suffix_append line _)), hpart, hpart]
  · have hreq : ∀ rest, ¬ IsRequest (line ++ ch '\r' :: rest) := fun rest h => hs (scheme_before_cr h.2)
    rw [requestPath, requestPath, if_neg (hreq _), if_neg (hreq _)]

theorem requestPath_first_iff (hend : [ch '\r', ch '\n'] <:+ first ++ tail) :
    requestPath first = requestPath (first ++ tail) ↔
      ¬ scheme <+: first ++ tail ∨ [ch '\r', ch '\n'] <:+ first := by
  by_cases hline : [ch '\r', ch '\n'] <:+ first
  · simp [hline, requestPath_of_line hline hend]
  · have hfirst : requestPath first = none := if_neg fun h => hline h.1
    rw [hfirst, or_iff_left hline]
    constructor
    · intro h hs
      rw [requestPath, if_pos ⟨hend, hs⟩] at h
      split at h <;> cases h
    · exact fun hs => (if_neg fun h => hs h.2).symm

/-! ### Decisions -/

inductive Decision
  | accepted (path : List Byte)
  | rejected
deriving DecidableEq, Repr

/-- The last thing a completed run shows: the path it prints, on a line, or the reply. -/
def decision {α : Type} (m : Traced Event α) : Option Decision :=
  if m.Defined then
    match m.events.getLast? with
    | some (.printf text) => some (.accepted text.dropLast)
    | some (.sslWrite _) => some .rejected
    | _ => none
  else none

/-- The decision that a path, or none, stands for. -/
def Decision.ofPath : Option (List Byte) → Decision
  | none => .rejected
  | some path => .accepted path

theorem ofPath_inj {p q : Option (List Byte)} : Decision.ofPath p = Decision.ofPath q ↔ p = q := by
  cases p <;> cases q <;> simp [Decision.ofPath]

variable {received : List Byte} (stack : Vector Byte MAX_BUFFER) (path : Path) (rest : List (List Byte))

theorem decision_eq (hlen : received.length < MAX_BUFFER) (htwo : 2 ≤ (cstr received).length) :
    decision (geminiProtocolHandler stack path (received :: rest)) =
      some (.ofPath (requestPath (cstr received))) := by
  cases hpath : requestPath (cstr received) with
  | none =>
    obtain ⟨es, -, hrun⟩ := handler_rejects stack path rest hlen htwo hpath
    rw [hrun, decision, if_pos (by rfl), List.getLast?_concat]
    rfl
  | some p =>
    obtain ⟨es, path', -, hrun⟩ := handler_accepts stack path rest hlen htwo hpath
    rw [hrun, decision, if_pos (by rfl), List.getLast?_concat]
    simp [Decision.ofPath]

theorem decision_short (hne : received ≠ []) (hlen : received.length < MAX_BUFFER)
    (hshort : (cstr received).length < 2) :
    decision (geminiProtocolHandler stack path (received :: rest)) = none := by
  rw [handler_short stack path rest hne hlen hshort]
  rfl

/-- **A fragmented request is decided like the whole exactly when its first piece has two bytes and either
holds the whole line or belongs to a request without the scheme.** -/
theorem decision_fragments_iff (stack stack' : Vector Byte MAX_BUFFER) (path path' : Path)
    (request first : List Byte) (rest : List (List Byte)) (hpieces : (first :: rest).flatten = request)
    (hne : ∀ piece ∈ first :: rest, piece ≠ []) (htwo : 2 ≤ request.length) (hlen : request.length < MAX_BUFFER)
    (hend : [ch '\r', ch '\n'] <:+ request) (hzero : 0 ∉ request) :
    decision (geminiProtocolHandler stack path (first :: rest)) =
        decision (geminiProtocolHandler stack' path' [request]) ↔
      2 ≤ first.length ∧ (¬ scheme <+: request ∨ [ch '\r', ch '\n'] <:+ first) := by
  have hsplit : request = first ++ rest.flatten := hpieces.symm
  have hfirst : first.length < MAX_BUFFER := by
    have := congrArg List.length hsplit
    rw [List.length_append] at this
    omega
  have hcstr : cstr first = first :=
    cstr_of_notMem fun h => hzero (hsplit ▸ List.mem_append_left _ h)
  have hcstr' : cstr request = request := cstr_of_notMem hzero
  rw [decision_eq stack' path' [] hlen (by rwa [hcstr']), hcstr']
  by_cases hshort : 2 ≤ first.length
  · rw [decision_eq stack path rest hfirst (by rwa [hcstr]), hcstr, Option.some_inj, ofPath_inj,
      and_iff_right hshort, hsplit]
    exact requestPath_first_iff (hsplit ▸ hend)
  · rw [decision_short stack path rest (hne first List.mem_cons_self) hfirst (by rw [hcstr]; omega)]
    simp [hshort]

/-- `gemini://a/` and CR LF, cut inside the scheme, on a stack and a path of zeros. -/
theorem not_decision_fragments :
    decision (geminiProtocolHandler (Vector.replicate MAX_BUFFER 0) (Vector.replicate MAX_PATH 0)
        [scheme.take 7, scheme.drop 7 ++ [ch 'a', ch '/', ch '\r', ch '\n']]) ≠
      decision (geminiProtocolHandler (Vector.replicate MAX_BUFFER 0) (Vector.replicate MAX_PATH 0)
        [scheme ++ [ch 'a', ch '/', ch '\r', ch '\n']]) := by
  rw [decision_eq _ _ _ (by decide) (by decide), decision_eq _ _ _ (by decide) (by decide)]
  decide

theorem decision_fragments_whole :
    decision (geminiProtocolHandler (Vector.replicate MAX_BUFFER 0) (Vector.replicate MAX_PATH 0)
        [scheme ++ [ch 'a', ch '/', ch '\r', ch '\n'], [ch '\r', ch '\n']]) =
      decision (geminiProtocolHandler (Vector.replicate MAX_BUFFER 1) (Vector.replicate MAX_PATH 0)
        [scheme ++ [ch 'a', ch '/', ch '\r', ch '\n', ch '\r', ch '\n']]) :=
  (decision_fragments_iff _ _ _ _ _ _ _ rfl (by decide) (by decide) (by decide) (by decide) (by decide)).mpr
    ⟨by decide, .inr (by decide)⟩

end QDNix.Geminid
