import QDNix.Geminid.Handler

/-!
# What the error reply gives away

The reply to a rejected request is the whole buffer: the reply line, then the rest of the request and of the
stack array the handler never initialised. So no rejected request gets the bare reply line, and two stacks
answer alike exactly when they agree behind both (`reply_leaks`).
-/

namespace QDNix.Geminid

open CString Traced

variable {received : List Byte}

/-- The bytes passed to `SSL_write`. -/
def written : List Event → List Byte
  | [] => []
  | .sslWrite bytes :: es => bytes ++ written es
  | _ :: es => written es

theorem written_append (es es' : List Event) : written (es ++ es') = written es ++ written es' := by
  induction es with
  | nil => rfl
  | cons e es ih => cases e <;> simp [written, ih]

theorem written_accesses {len : Nat} {es : List Event} (h : ∀ e ∈ es, e.Access len) : written es = [] := by
  induction es with
  | nil => rfl
  | cons e es ih =>
    have hes := ih fun e' he' => h e' (List.mem_cons_of_mem _ he')
    have he := h e List.mem_cons_self
    cases e with
    | storeBuffer idx => exact he.elim
    | readReq idx => exact hes
    | storePath idx => exact hes
    | printf text => exact he.elim
    | sslWrite bytes => exact he.elim

/-- `gemini_get_path` rejects the request, whatever the stack and the path hold. -/
def Rejects (received : List Byte) : Prop :=
  ∀ stack path, (geminiGetPath path (requestBuffer stack received)).value? = some none

theorem rejects_iff (hlen : received.length < MAX_BUFFER) (htwo : 2 ≤ (cstr received).length) :
    Rejects received ↔ requestPath (cstr received) = none := by
  constructor
  · intro h
    obtain ⟨-, r, hr, hpath, -⟩ :=
      getPath_received (Vector.replicate MAX_BUFFER 0) (Vector.replicate MAX_PATH 0) hlen htwo
    rw [h] at hr
    rw [← hpath, ← Option.some.inj hr, Option.map_none]
  · intro h stack path
    obtain ⟨-, r, hr, hpath, -⟩ := getPath_received stack path hlen htwo
    rw [h, Option.map_eq_none_iff] at hpath
    rw [hr, hpath]

variable (stack stack' : Vector Byte MAX_BUFFER) (path : Path) (rest : List (List Byte))

theorem written_rejected (hlen : received.length < MAX_BUFFER) (htwo : 2 ≤ (cstr received).length)
    (hreject : Rejects received) :
    written (geminiProtocolHandler stack path (received :: rest)).events = reply stack received := by
  obtain ⟨es, hes, hrun⟩ :=
    handler_rejects stack path rest hlen htwo ((rejects_iff hlen htwo).mp hreject)
  rw [hrun, written_append]
  simp [written, written_accesses hes]

/-! ### The reply -/

theorem length_reply (hlen : received.length < MAX_BUFFER) : (reply stack received).length = MAX_BUFFER := by
  have hlen' : received.length < 1024 := hlen
  have hstack : stack.toList.length = 1024 := Vector.length_toList
  have hline : invalidUri.length = 16 := rfl
  simp only [reply, List.length_append, List.length_cons, List.length_drop, hstack, hline]
  show _ = 1024
  omega

theorem getElem?_buffer (i : Nat) : (received ++ 0 :: stack.toList.drop (received.length + 1))[i]? =
    if received.length < i then stack[i]? else (received ++ [0])[i]? := by
  by_cases hi : received.length < i
  · obtain ⟨k, rfl⟩ : ∃ k, i = received.length + (k + 1) := ⟨i - (received.length + 1), by omega⟩
    rw [if_pos hi, List.getElem?_append_right (by omega), Nat.add_sub_cancel_left, List.getElem?_cons_succ,
      List.getElem?_drop, Vector.getElem?_toList, Nat.add_assoc, Nat.add_comm 1]
  · have hlt : i < (received ++ [0]).length := by
      rw [List.length_append, List.length_singleton]
      omega
    rw [if_neg hi, List.append_cons, List.getElem?_append_left hlt]

theorem reply_eq_iff : reply stack received = reply stack' received ↔
    ∀ i, 17 ≤ i → received.length < i → stack[i]? = stack'[i]? := by
  rw [reply, reply, List.append_right_inj, List.cons_inj_right]
  constructor
  · intro h i h17 hi
    have hi' := congrArg (fun l => l[i - 17]?) h
    simp only [List.getElem?_drop, Nat.add_sub_cancel' h17, getElem?_buffer, if_pos hi] at hi'
    exact hi'
  · intro h
    apply List.ext_getElem?
    intro i
    rw [List.getElem?_drop, List.getElem?_drop, getElem?_buffer, getElem?_buffer]
    by_cases hi : received.length < 17 + i
    · rw [if_pos hi, if_pos hi, h _ (Nat.le_add_right 17 i) hi]
    · rw [if_neg hi, if_neg hi]

/-- The same reply from any two stacks, and nothing in it but the reply line. -/
def CleanReply (received : List Byte) : Prop :=
  ∀ path rest stack stack',
    written (geminiProtocolHandler stack path (received :: rest)).events =
      written (geminiProtocolHandler stack' path (received :: rest)).events ∧
    written (geminiProtocolHandler stack path (received :: rest)).events = invalidUri

/-- **No rejected request gets a clean reply**, and the stack shows everywhere behind the reply line and the
request. -/
theorem reply_leaks (hlen : received.length < MAX_BUFFER) (htwo : 2 ≤ (cstr received).length)
    (hreject : Rejects received) :
    ¬ CleanReply received ∧
    ∀ path rest stack stack',
      written (geminiProtocolHandler stack path (received :: rest)).events =
        written (geminiProtocolHandler stack' path (received :: rest)).events ↔
      ∀ i, 17 ≤ i → received.length < i → stack[i]? = stack'[i]? := by
  constructor
  · intro h
    let zeros := Vector.replicate MAX_BUFFER (0 : Byte)
    have hclean := (h (Vector.replicate MAX_PATH 0) [] zeros zeros).2
    rw [written_rejected _ _ _ hlen htwo hreject] at hclean
    have hlong := congrArg List.length hclean
    rw [length_reply _ hlen] at hlong
    exact absurd hlong (by decide)
  · intro path rest stack stack'
    rw [written_rejected _ _ _ hlen htwo hreject, written_rejected _ _ _ hlen htwo hreject]
    exact reply_eq_iff stack stack'

theorem reply_leaks_hi :
    let hi := [ch 'h', ch 'i']
    ¬ CleanReply hi ∧
    ∀ path rest stack stack',
      written (geminiProtocolHandler stack path (hi :: rest)).events =
        written (geminiProtocolHandler stack' path (hi :: rest)).events ↔
      ∀ i, 17 ≤ i → 2 < i → stack[i]? = stack'[i]? :=
  reply_leaks (by decide) (by decide) ((rejects_iff (by decide) (by decide)).mpr (by decide))

/-- The request `hi`, on a stack of zeros and on one of ones. -/
theorem not_clean_hi :
    let reply := fun b => written (geminiProtocolHandler (Vector.replicate MAX_BUFFER b)
      (Vector.replicate MAX_PATH 0) [[ch 'h', ch 'i']]).events
    reply 0 ≠ reply 1 ∧ reply 0 ≠ invalidUri ∧ ¬ CleanReply [ch 'h', ch 'i'] := by
  intro reply
  have hreject : Rejects [ch 'h', ch 'i'] := (rejects_iff (by decide) (by decide)).mpr (by decide)
  have hreply : ∀ b, reply b = Geminid.reply (Vector.replicate MAX_BUFFER b) [ch 'h', ch 'i'] :=
    fun b => written_rejected _ _ _ (by decide) (by decide) hreject
  have hdiffer : reply 0 ≠ reply 1 := by
    rw [hreply, hreply, Ne, reply_eq_iff]
    intro h
    have hcell := h 1023 (by decide) (by decide)
    rw [Vector.getElem?_replicate, Vector.getElem?_replicate] at hcell
    exact absurd hcell (by decide)
  refine ⟨hdiffer, fun hclean => ?_, fun hclean => hdiffer (hclean _ _ _ _).1⟩
  have hlong : (Geminid.reply (Vector.replicate MAX_BUFFER 0) [ch 'h', ch 'i']).length = MAX_BUFFER :=
    length_reply _ (by decide)
  rw [← hreply, hclean] at hlong
  exact absurd hlong (by decide)

end QDNix.Geminid
