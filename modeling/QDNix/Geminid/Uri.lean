import QDNix.Geminid.Request

/-!
# Requests and the path taken out of them

A request line is a host without slash and a path from the first slash on. Whatever an earlier call left in
the static buffer, `gemini_get_path` takes the path back out of a request built that way
(`getPath_extracts`).

It is no parser of URIs: between the scheme and the final CR LF anything goes, and what it returns is the
first line from its first slash on, a query included (`getPath_accepts`).
-/

namespace QDNix.Geminid

open CString Traced

variable {n : Nat}

/-! ### Lines -/

/-- A host: no slash, no line end. -/
def IsHost (host : List Byte) : Prop := ∀ c ∈ host, c ≠ ch '/' ∧ inLine c = true

/-- A path: a slash first, no line end. -/
def IsPath (p : List Byte) : Prop := p.head? = some (ch '/') ∧ ∀ c ∈ p, inLine c = true

/-- The text behind a line: a CR or an LF comes first. -/
def EndsLine (rest : List Byte) : Prop := rest.head? = some (ch '\r') ∨ rest.head? = some (ch '\n')

/-- The path `/` stands for the index page. -/
def indexed (p : List Byte) : List Byte := if p = [ch '/'] then indexGmi else p

theorem not_lineEnd {c : Byte} (h : inLine c = true) : ¬ (c = ch '\r' ∨ c = ch '\n') := by
  simpa [inLine, not_or] using h

theorem pathPart_endsLine (has : Bool) {rest : List Byte} (h : EndsLine rest) : pathPart has rest = [] := by
  cases rest with
  | nil => exact absurd h (by simp [EndsLine])
  | cons c rest =>
    have hc : c = ch '\r' ∨ c = ch '\n' := by simpa [EndsLine] using h
    rw [pathPart_cons, if_pos hc]

theorem pathPart_host {host : List Byte} (h : IsHost host) (rest : List Byte) :
    pathPart false (host ++ rest) = pathPart false rest := by
  induction host with
  | nil => rfl
  | cons c host ih =>
    obtain ⟨hslash, hline⟩ := h c List.mem_cons_self
    rw [List.cons_append, pathPart_cons, if_neg (not_lineEnd hline), if_pos ⟨rfl, hslash⟩]
    exact ih fun d hd => h d (List.mem_cons_of_mem _ hd)

theorem pathPart_copied {text rest : List Byte} (h : ∀ c ∈ text, inLine c = true) (hrest : EndsLine rest) :
    pathPart true (text ++ rest) = text := by
  induction text with
  | nil => exact pathPart_endsLine true hrest
  | cons c text ih =>
    have hline := h c List.mem_cons_self
    rw [List.cons_append, pathPart_cons, if_neg (not_lineEnd hline), if_neg (by simp)]
    rw [ih fun d hd => h d (List.mem_cons_of_mem _ hd)]

theorem pathPart_line {host p rest : List Byte} (hhost : IsHost host) (hp : IsPath p) (hrest : EndsLine rest) :
    pathPart false (host ++ p ++ rest) = p := by
  obtain ⟨hslash, hline⟩ := hp
  cases p with
  | nil => cases hslash
  | cons c p =>
    obtain rfl : c = ch '/' := Option.some.inj hslash
    rw [List.append_assoc, pathPart_host hhost, List.cons_append, pathPart_cons,
      if_neg (not_lineEnd (hline _ List.mem_cons_self)), if_neg (by simp)]
    rw [pathPart_copied (fun d hd => hline d (List.mem_cons_of_mem _ hd)) hrest]

theorem requestPath_line {host p rest : List Byte} (hhost : IsHost host) (hp : IsPath p) (hrest : EndsLine rest)
    (hend : [ch '\r', ch '\n'] <:+ scheme ++ host ++ p ++ rest) :
    requestPath (scheme ++ host ++ p ++ rest) = some (indexed p) := by
  have hscheme : scheme <+: scheme ++ host ++ p ++ rest := by
    rw [List.append_assoc, List.append_assoc]
    exact List.prefix_append _ _
  have hdrop : (scheme ++ host ++ p ++ rest).drop 9 = host ++ p ++ rest := by
    rw [List.append_assoc, List.append_assoc, List.append_assoc]
    exact List.drop_left' rfl
  rw [requestPath, if_pos ⟨hend, hscheme⟩, hdrop, pathPart_line hhost hp hrest, indexed]
  split <;> rfl

theorem requestPath_eq_none {s : List Byte} :
    requestPath s = none ↔ ¬ scheme <+: s ∨ ¬ [ch '\r', ch '\n'] <:+ s := by
  rw [← not_and_or, and_comm]
  constructor
  · intro h (hreq : IsRequest s)
    rw [requestPath, if_pos hreq] at h
    split at h <;> cases h
  · exact fun h => if_neg h

/-! ### Calls -/

/-- What a call returns: nothing if it is undefined, else `NULL` or the string pointed to. -/
def returned (m : Traced Event (Option Path)) : Option (Option (List Byte)) :=
  m.value?.map fun r => r.map fun p => cstr p.toList

theorem returned_eq (path : Path) {req : Vector Byte n} (hzero : 0#8 ∈ req.toList)
    (htwo : 2 ≤ (cstr req.toList).length) (hlen : (cstr req.toList).length < MAX_BUFFER) :
    returned (geminiGetPath path req) = some (requestPath (cstr req.toList)) := by
  obtain ⟨-, r, hr, hpath, -⟩ := geminiGetPath_sat path hzero rfl htwo hlen
  rw [returned, hr, Option.map_some, hpath]

/-- **Path extraction undoes request construction**, whatever `path` held before. Nothing comes back exactly
for strings without the scheme or without a final CR LF. -/
theorem getPath_extracts (path : Path) (req : Vector Byte n) (hzero : 0#8 ∈ req.toList)
    (htwo : 2 ≤ (cstr req.toList).length) (hlen : (cstr req.toList).length < MAX_BUFFER) :
    (∀ host p, IsHost host → IsPath p → cstr req.toList = scheme ++ host ++ p ++ [ch '\r', ch '\n'] →
      returned (geminiGetPath path req) = some (some (indexed p))) ∧
    (returned (geminiGetPath path req) = some none ↔
      ¬ scheme <+: cstr req.toList ∨ ¬ [ch '\r', ch '\n'] <:+ cstr req.toList) := by
  rw [returned_eq path hzero htwo hlen]
  constructor
  · intro host p hhost hp hreq
    rw [hreq, requestPath_line hhost hp (.inl rfl) (List.suffix_append _ _)]
  · rw [Option.some_inj, requestPath_eq_none]

theorem getPath_extracts_short :
    let path : Path := overwrite (Vector.replicate MAX_PATH 0) [ch '/', ch 'a', ch 'b', ch 'c']
    let req : Vector Byte 15 := ⟨(scheme ++ [ch 'h', ch '/', ch 'a', ch '\r', ch '\n', 0]).toArray, rfl⟩
    returned (geminiGetPath path req) = some (some [ch '/', ch 'a']) := by
  intro path req
  have hextract := (getPath_extracts path req (by decide) (by decide) (by decide)).1
  exact hextract [ch 'h'] [ch '/', ch 'a'] (by simp [IsHost, inLine]; decide) ⟨rfl, by decide⟩ (by decide)

/-! ### The grammar of URIs -/

/-- A request by the grammar: scheme, authority, path, query and line end. -/
structure IsUri (s authority p query : List Byte) : Prop where
  eq : s = scheme ++ authority ++ p ++ query ++ [ch '\r', ch '\n']
  authority_ne : authority ≠ []
  authority_chars : ∀ c ∈ authority, c ≠ ch '/' ∧ c ≠ ch '?' ∧ c ≠ ch '#' ∧ inLine c = true
  path_starts : p = [] ∨ p.head? = some (ch '/')
  path_chars : ∀ c ∈ p, c ≠ ch '?' ∧ c ≠ ch '#' ∧ inLine c = true
  query_starts : query = [] ∨ query.head? = some (ch '?')
  query_chars : ∀ c ∈ query, inLine c = true

/-- The answer the grammar asks for: the path without its query, the index page for the empty path too. -/
def FollowsGrammar (s : List Byte) (r : Option (List Byte)) : Prop :=
  (r ≠ none ↔ ∃ authority p query, IsUri s authority p query) ∧
    ∀ authority p query, IsUri s authority p query → r = some (if p = [] then indexGmi else indexed p)

/-- **What is accepted**: every string with the scheme at its front and CR LF at its end. Where the first line
has a slash behind the scheme, the result is the line from there on, with its query. -/
theorem getPath_accepts (path : Path) (req : Vector Byte n) (hzero : 0#8 ∈ req.toList)
    (htwo : 2 ≤ (cstr req.toList).length) (hlen : (cstr req.toList).length < MAX_BUFFER) :
    ∃ r, returned (geminiGetPath path req) = some r ∧
      (r ≠ none ↔ scheme <+: cstr req.toList ∧ [ch '\r', ch '\n'] <:+ cstr req.toList) ∧
      ∀ host p rest, IsHost host → IsPath p → EndsLine rest → cstr req.toList = scheme ++ host ++ p ++ rest →
        r ≠ none → r = some (indexed p) := by
  refine ⟨_, returned_eq path hzero htwo hlen, ?_, fun host p rest hhost hp hrest hreq hsome => ?_⟩
  · rw [Ne, requestPath_eq_none, not_or, not_not, not_not]
  · rw [Ne, requestPath_eq_none, not_or, not_not, not_not] at hsome
    rw [hreq] at hsome ⊢
    exact requestPath_line hhost hp hrest hsome.2

theorem getPath_accepts_second_line :
    let req : Vector Byte 17 := ⟨(scheme ++ [ch 'h', ch '/', ch '?', ch '\n', ch '/', ch '\r', ch '\n', 0]).toArray, rfl⟩
    ∃ r, returned (geminiGetPath (Vector.replicate MAX_PATH 0) req) = some r ∧ r = some [ch '/', ch '?'] := by
  intro req
  obtain ⟨r, hr, haccept, hline⟩ :=
    getPath_accepts (Vector.replicate MAX_PATH 0) req (by decide) (by decide) (by decide)
  exact ⟨r, hr, hline [ch 'h'] [ch '/', ch '?'] [ch '\n', ch '/', ch '\r', ch '\n']
    (by simp [IsHost, inLine]; decide) ⟨rfl, by decide⟩ (.inr rfl) (by decide) (haccept.mpr (by decide))⟩

/-- A query, which comes back with the path, and an empty authority, which is accepted. -/
theorem not_followsGrammar :
    let query : Vector Byte 15 := ⟨(scheme ++ [ch 'h', ch '/', ch '?', ch '\r', ch '\n', 0]).toArray, rfl⟩
    let empty : Vector Byte 13 := ⟨(scheme ++ [ch '/', ch '\r', ch '\n', 0]).toArray, rfl⟩
    (∃ r, returned (geminiGetPath (Vector.replicate MAX_PATH 0) query) = some r ∧
      ¬ FollowsGrammar (cstr query.toList) r) ∧
    (∃ r, returned (geminiGetPath (Vector.replicate MAX_PATH 0) empty) = some r ∧
      ¬ FollowsGrammar (cstr empty.toList) r) := by
  intro query empty
  constructor
  · refine ⟨_, returned_eq _ (by decide) (by decide) (by decide), fun h => ?_⟩
    have huri : IsUri (cstr query.toList) [ch 'h'] [ch '/'] [ch '?'] :=
      ⟨by decide, by decide, by decide, by decide, by decide, by decide, by decide⟩
    exact absurd (h.2 _ _ _ huri) (by decide)
  · refine ⟨_, returned_eq _ (by decide) (by decide) (by decide), fun h => ?_⟩
    obtain ⟨authority, p, q, huri⟩ := h.1.mp (by decide)
    obtain ⟨c, rest, hauth⟩ := List.exists_cons_of_ne_nil huri.authority_ne
    have hchars := huri.authority_chars c (by rw [hauth]; exact List.mem_cons_self)
    have heq := huri.eq
    rw [hauth, List.append_assoc, List.append_assoc, List.append_assoc] at heq
    have hempty : cstr empty.toList = scheme ++ [ch '/', ch '\r', ch '\n'] := by decide
    rw [hempty, List.append_cancel_left_eq] at heq
    exact hchars.1 (List.cons.inj heq).1.symm

end QDNix.Geminid
