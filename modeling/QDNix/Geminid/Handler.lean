import QDNix.Geminid.Request

/-!
# The gemini handler, piece by piece

The handler acts on the first piece alone. `handler_full` and `handler_short` are the two ways it leaves its
arrays: a piece that fills the buffer, and one with fewer than two characters before its first NUL. Every
other piece is answered as `requestPath` says (`handler_rejects`, `handler_accepts`), and
`accesses_inBounds_iff` draws the line.
-/

namespace QDNix.Geminid

open CString Traced

variable {received : List Byte}

/-- The buffer as `gemini_get_path` sees it. -/
def requestBuffer (stack : Vector Byte MAX_BUFFER) (received : List Byte) : Vector Byte MAX_BUFFER :=
  overwrite stack (received ++ [0])

theorem toList_requestBuffer (stack : Vector Byte MAX_BUFFER) (hlen : received.length < MAX_BUFFER) :
    (requestBuffer stack received).toList = received ++ 0 :: stack.toList.drop (received.length + 1) := by
  rw [requestBuffer, toList_overwrite stack (by rw [List.length_append]; exact hlen)]
  simp

theorem zero_mem_requestBuffer (stack : Vector Byte MAX_BUFFER) (hlen : received.length < MAX_BUFFER) :
    0#8 ∈ (requestBuffer stack received).toList := by
  rw [toList_requestBuffer stack hlen]
  simp

theorem cstr_requestBuffer (stack : Vector Byte MAX_BUFFER) (hlen : received.length < MAX_BUFFER) :
    cstr (requestBuffer stack received).toList = cstr received := by
  rw [toList_requestBuffer stack hlen]
  exact cstr_append_zero _ _

theorem sslRead_piece (hlen : received.length ≤ MAX_BUFFER) (rest : List (List Byte)) :
    sslRead (received :: rest) MAX_BUFFER = (received, rest) := by
  rw [sslRead, if_pos hlen, List.take_of_length_le hlen]

variable (stack : Vector Byte MAX_BUFFER) (path : Path) (rest : List (List Byte))

theorem handler_full (hlen : received.length = MAX_BUFFER) :
    geminiProtocolHandler stack path (received :: rest) = ⟨[.storeBuffer MAX_BUFFER], none⟩ := by
  have hpos : 0 < received.length := by rw [hlen]; decide
  rw [geminiProtocolHandler, sslRead_piece (by omega)]
  simp only [if_pos hpos, store_of_le _ (Nat.le_of_eq hlen.symm), undef_bind]
  rw [hlen]
  rfl

theorem handler_reads (hne : received ≠ []) (hlen : received.length < MAX_BUFFER) :
    geminiProtocolHandler stack path (received :: rest) = (do
      emit (.storeBuffer received.length)
      emit (.printf (cstr received))
      let result ← geminiGetPath path (requestBuffer stack received)
      answer (requestBuffer stack received) path rest result) := by
  rw [geminiProtocolHandler, sslRead_piece (by omega)]
  simp only [if_pos (List.length_pos_iff.mpr hne), store_of_lt _ hlen, pure_bind, set_overwrite]
  rw [← requestBuffer, readStr_eq (zero_mem_requestBuffer stack hlen), cstr_requestBuffer stack hlen]
  simp only [pure_bind]

/-- Fewer than two characters: `len - 2` wraps around. -/
theorem handler_short (hne : received ≠ []) (hlen : received.length < MAX_BUFFER)
    (hshort : (cstr received).length < 2) :
    geminiProtocolHandler stack path (received :: rest) =
      ⟨[.storeBuffer received.length, .printf (cstr received), .readReq (2 ^ 64 + (cstr received).length - 2)],
        none⟩ := by
  have hread : readReq (requestBuffer stack received) (2 ^ 64 + (cstr received).length - 2) =
      ⟨[.readReq (2 ^ 64 + (cstr received).length - 2)], none⟩ := by
    have hout : MAX_BUFFER ≤ 2 ^ 64 + (cstr received).length - 2 := show 1024 ≤ _ by omega
    rw [readReq, load_of_le _ hout]
    rfl
  have hpath : geminiGetPath path (requestBuffer stack received) =
      ⟨[.readReq (2 ^ 64 + (cstr received).length - 2)], none⟩ := by
    rw [geminiGetPath, strlen_eq (zero_mem_requestBuffer stack hlen), cstr_requestBuffer stack hlen, pure_bind,
      lacksCrLf, sizeSub_of_lt hshort (by decide), hread]
    rfl
  rw [handler_reads stack path rest hne hlen, hpath]
  rfl

/-- The bytes sent for a rejected request: the reply line and its terminator, then what lies behind them in
the buffer. -/
def reply (stack : Vector Byte MAX_BUFFER) (received : List Byte) : List Byte :=
  invalidUri ++ 0 :: (received ++ 0 :: stack.toList.drop (received.length + 1)).drop 17

theorem answer_reject (hlen : received.length < MAX_BUFFER) :
    answer (requestBuffer stack received) path rest none =
      ⟨[.sslWrite (reply stack received)], some (path, rest)⟩ := by
  have hbytes : (overwrite (requestBuffer stack received) (invalidUri ++ [0#8])).toList = reply stack received := by
    rw [toList_overwrite _ (by decide), toList_requestBuffer stack hlen, reply, List.append_assoc]
    rfl
  rw [answer, strcpy_eq _ (by decide), pure_bind, List.take_of_length_le (by simp), hbytes]
  rfl

theorem answer_accept {path' : Path} (hzero : 0#8 ∈ path'.toList) (client : List (List Byte))
    (buffer : Vector Byte MAX_BUFFER) : answer buffer path client (some path') =
      ⟨[.printf (cstr path'.toList ++ [ch '\n'])], some (path', client)⟩ := by
  rw [answer, readStr_eq hzero]
  rfl

theorem ne_nil_of_two_le {s : List Byte} (h : 2 ≤ (cstr s).length) : s ≠ [] := by
  rintro rfl
  exact absurd h (by decide)

section Answered

variable (hlen : received.length < MAX_BUFFER) (htwo : 2 ≤ (cstr received).length)

include hlen htwo

theorem getPath_received : Sat (Event.Access (cstr received).length)
    (fun r => r.map (fun p => cstr p.toList) = requestPath (cstr received) ∧ ∀ p, r = some p → 0#8 ∈ p.toList)
    (geminiGetPath path (requestBuffer stack received)) :=
  geminiGetPath_sat path (zero_mem_requestBuffer stack hlen) (cstr_requestBuffer stack hlen) htwo
    (Nat.lt_of_le_of_lt (length_cstr_le received) hlen)

theorem handler_rejects (hreject : requestPath (cstr received) = none) :
    ∃ es, (∀ e ∈ es, e.Access (cstr received).length) ∧
      geminiProtocolHandler stack path (received :: rest) =
        ⟨.storeBuffer received.length :: .printf (cstr received) :: es ++ [.sslWrite (reply stack received)],
          some (path, rest)⟩ := by
  obtain ⟨haccess, r, hr, hpath, -⟩ := getPath_received stack path hlen htwo
  rw [hreject, Option.map_eq_none_iff] at hpath
  subst hpath
  refine ⟨_, haccess, ?_⟩
  rw [handler_reads stack path rest (ne_nil_of_two_le htwo) hlen, bind_of_some hr, answer_reject stack path rest hlen]
  simp only [emit_bind, List.cons_append]

theorem handler_accepts {p : List Byte} (haccept : requestPath (cstr received) = some p) :
    ∃ es path', (∀ e ∈ es, e.Access (cstr received).length) ∧
      geminiProtocolHandler stack path (received :: rest) =
        ⟨.storeBuffer received.length :: .printf (cstr received) :: es ++ [.printf (p ++ [ch '\n'])],
          some (path', rest)⟩ := by
  obtain ⟨haccess, r, hr, hpath, hzero⟩ := getPath_received stack path hlen htwo
  rw [haccept, Option.map_eq_some_iff] at hpath
  obtain ⟨path', rfl, hp⟩ := hpath
  refine ⟨_, path', haccess, ?_⟩
  rw [handler_reads stack path rest (ne_nil_of_two_le htwo) hlen, bind_of_some hr,
    answer_accept path (hzero _ rfl), hp]
  simp only [emit_bind, List.cons_append]

end Answered

/-! ### Bounds -/

/-- An access inside its array or, for the request, inside the string of `len` characters. -/
def Event.InBounds (len : Nat) : Event → Prop
  | .storeBuffer idx => idx < MAX_BUFFER
  | .readReq idx => idx < len
  | .storePath idx => idx < MAX_PATH
  | _ => True

/-- No undefined behaviour on a piece, and every access in bounds. -/
structure AccessesInBounds (received : List Byte) : Prop where
  defined : (geminiProtocolHandler stack path (received :: rest)).Defined
  accesses : ∀ e ∈ (geminiProtocolHandler stack path (received :: rest)).events, e.InBounds (cstr received).length

theorem Event.Access.inBounds {len : Nat} {e : Event} (h : e.Access len) : e.InBounds len := by
  cases e with
  | storeBuffer idx => exact h.elim
  | readReq idx => exact h
  | storePath idx => exact h
  | printf text => trivial
  | sslWrite bytes => trivial

theorem inBounds_answered (hlt : received.length < MAX_BUFFER) {es : List Event} {last : Event}
    (hes : ∀ e ∈ es, e.Access (cstr received).length) (hlast : last.InBounds (cstr received).length) :
    ∀ e ∈ Event.storeBuffer received.length :: .printf (cstr received) :: es ++ [last],
      e.InBounds (cstr received).length := by
  intro e he
  rw [List.mem_append, List.mem_cons, List.mem_cons, List.mem_singleton] at he
  rcases he with (rfl | rfl | he) | rfl
  · exact hlt
  · trivial
  · exact (hes e he).inBounds
  · exact hlast

/-- **The handler stays in bounds exactly on pieces shorter than the buffer with at least two characters
before the first NUL.** -/
theorem accesses_inBounds_iff (hne : received ≠ []) (hle : received.length ≤ MAX_BUFFER) :
    AccessesInBounds stack path rest received ↔ received.length < MAX_BUFFER ∧ 2 ≤ (cstr received).length := by
  constructor
  · rintro ⟨hdefined, -⟩
    have hlt : received.length < MAX_BUFFER := by
      by_contra hfull
      rw [handler_full stack path rest (by omega)] at hdefined
      exact absurd hdefined (by simp [Defined])
    refine ⟨hlt, ?_⟩
    by_contra hshort
    rw [handler_short stack path rest hne hlt (by omega)] at hdefined
    exact absurd hdefined (by simp [Defined])
  · rintro ⟨hlt, htwo⟩
    cases hpath : requestPath (cstr received) with
    | none =>
      obtain ⟨es, hes, hrun⟩ := handler_rejects stack path rest hlt htwo hpath
      refine ⟨by simp [Defined, hrun], ?_⟩
      rw [hrun]
      exact inBounds_answered hlt hes trivial
    | some p =>
      obtain ⟨es, path', hes, hrun⟩ := handler_accepts stack path rest hlt htwo hpath
      refine ⟨by simp [Defined, hrun], ?_⟩
      rw [hrun]
      exact inBounds_answered hlt hes trivial

theorem accesses_inBounds_crlf : AccessesInBounds (Vector.replicate MAX_BUFFER 0) (Vector.replicate MAX_PATH 0) []
    [ch '\r', ch '\n'] :=
  (accesses_inBounds_iff _ _ [] (by decide) (by decide)).mpr ⟨by decide, by decide⟩

/-- One byte, and a full buffer: `req[2 ^ 64 - 1]` and `buffer[1024]`. -/
theorem not_accesses_inBounds :
    ¬ AccessesInBounds (Vector.replicate MAX_BUFFER 0) (Vector.replicate MAX_PATH 0) [] [ch 'a'] ∧
    ¬ AccessesInBounds (Vector.replicate MAX_BUFFER 0) (Vector.replicate MAX_PATH 0) []
      (List.replicate MAX_BUFFER (ch 'a')) := by
  constructor
  · rintro ⟨-, h⟩
    rw [handler_short _ _ _ (by decide) (by decide) (by decide)] at h
    have hread : 2 ^ 64 - 1 < 1 := h (.readReq (2 ^ 64 - 1)) (by decide)
    omega
  · rintro ⟨-, h⟩
    rw [handler_full _ _ _ List.length_replicate] at h
    exact absurd (h (.storeBuffer MAX_BUFFER) List.mem_cons_self) (lt_irrefl 1024)

end QDNix.Geminid
