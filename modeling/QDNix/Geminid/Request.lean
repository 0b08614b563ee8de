import QDNix.Geminid.Gemini

/-!
# What `gemini_get_path` computes

On a request of 2 to 1023 characters, `geminiGetPath` stays inside its arrays, prints nothing and returns
what `requestPath` says: the part of the request line from the first `/` behind the scheme, with `/` itself
standing for the index page.

A build may set `MAX_PATH` to another size; `geminiGetPathIn` is the function with a path of `m` bytes. The
copying loop stops at `MAX_BUFFER` characters whatever `m` is, and writes the terminator behind them
(`copyLoopIn_sat`).
-/

namespace QDNix.Geminid

open CString Traced

variable {m n : Nat}

/-! ### The abstract request -/

/-- Neither CR nor LF. -/
def inLine (c : Byte) : Bool := c ≠ ch '\r' ∧ c ≠ ch '\n'

/-- The path in what follows the scheme; the loop has passed the host name, or has not. -/
def pathPart (hasPassHostname : Bool) (text : List Byte) : List Byte :=
  if hasPassHostname then text.takeWhile inLine else (text.takeWhile inLine).dropWhile (· ≠ ch '/')

/-- The request ends in CR LF and starts with the scheme. -/
def IsRequest (s : List Byte) : Prop := [ch '\r', ch '\n'] <:+ s ∧ scheme <+: s

instance (s : List Byte) : Decidable (IsRequest s) := inferInstanceAs (Decidable (_ ∧ _))

def requestPath (s : List Byte) : Option (List Byte) :=
  if IsRequest s then
    if pathPart false (s.drop 9) = [ch '/'] then some indexGmi else some (pathPart false (s.drop 9))
  else none

theorem pathPart_nil (has : Bool) : pathPart has [] = [] := by cases has <;> rfl

theorem pathPart_cons (has : Bool) (c : Byte) (text : List Byte) : pathPart has (c :: text) =
    if c = ch '\r' ∨ c = ch '\n' then []
    else if has = false ∧ c ≠ ch '/' then pathPart false text
    else c :: pathPart true text := by
  by_cases hend : c = ch '\r' ∨ c = ch '\n'
  · have hline : inLine c = false := by rcases hend with rfl | rfl <;> decide
    cases has <;> simp [pathPart, hline, hend]
  · have hline : inLine c = true := by simpa [inLine, not_or] using hend
    cases has with
    | true => simp [pathPart, hline, hend]
    | false =>
      rw [if_neg hend]
      by_cases hslash : c = ch '/'
      · subst hslash
        simp [pathPart, hline]
      · simp [pathPart, hline, hslash]

theorem pathPart_subset (has : Bool) (text : List Byte) : pathPart has text ⊆ text := by
  intro c hc
  cases has with
  | true => exact (List.takeWhile_sublist _).mem hc
  | false => exact (List.takeWhile_sublist _).mem ((List.dropWhile_sublist _).mem hc)

/-! ### A path of any size -/

/-- `path[idx] = c` -/
def storePathIn (path : Vector Byte m) (idx : Nat) (c : Byte) : Traced Event (Vector Byte m) := do
  emit (.storePath idx)
  store path idx c

/-- The copying loop of `gemini_get_path`, as in `copyLoop`. -/
def copyLoopIn (req : Vector Byte n) : (rounds i j : Nat) → (hasPassHostname : Bool) → Vector Byte m →
    Traced Event (Vector Byte m × Nat)
  | 0, _, j, _, path => pure (path, j)
  | rounds + 1, i, j, hasPassHostname, path =>
    if j < MAX_BUFFER then do
      let c ← readReq req i
      if c = ch '\r' ∨ c = ch '\n' then pure (path, j)
      else if hasPassHostname = false ∧ c ≠ ch '/' then copyLoopIn req rounds (i + 1) j false path
      else do
        let path ← storePathIn path j c
        copyLoopIn req rounds (i + 1) (j + 1) true path
    else pure (path, j)

/-- `gemini_get_path` with `static char path[m]`. -/
def geminiGetPathIn (path : Vector Byte m) (req : Vector Byte n) : Traced Event (Option (Vector Byte m)) := do
  let len ← strlen req
  let lacks ← lacksCrLf req len
  if lacks then pure none
  else if strncmp scheme req.toList 9 ≠ 0 then pure none
  else do
    let (path, j) ← copyLoopIn req (len - 9) 9 0 false path
    let path ← storePathIn path j 0
    if strcmp [ch '/'] path.toList = 0 then do
      let path ← strcpy path indexGmi
      pure (some path)
    else pure (some path)

theorem copyLoopIn_eq (req : Vector Byte n) (rounds i j : Nat) (has : Bool) (path : Path) :
    copyLoopIn req rounds i j has path = copyLoop req rounds i j has path := by
  induction rounds generalizing i j has path with
  | zero => rfl
  | succ rounds ih =>
    rw [copyLoopIn, copyLoop]
    simp only [ih]
    rfl

theorem geminiGetPathIn_eq (path : Path) (req : Vector Byte n) : geminiGetPathIn path req = geminiGetPath path req := by
  simp only [geminiGetPathIn, copyLoopIn_eq]
  rfl

/-- What `gemini_get_path` returns with room enough: the path cut to `MAX_BUFFER` characters. -/
def cutPath (s : List Byte) : Option (List Byte) :=
  if IsRequest s then
    if pathPart false (s.drop 9) = [ch '/'] then some indexGmi
    else some ((pathPart false (s.drop 9)).take MAX_BUFFER)
  else none

theorem length_pathPart_le (has : Bool) (text : List Byte) : (pathPart has text).length ≤ text.length := by
  cases has with
  | true => exact (List.takeWhile_sublist _).length_le
  | false => exact ((List.dropWhile_sublist _).trans (List.takeWhile_sublist _)).length_le

theorem cutPath_of_lt {s : List Byte} (h : s.length < MAX_BUFFER) : cutPath s = requestPath s := by
  have hshort : (pathPart false (s.drop 9)).length ≤ MAX_BUFFER := by
    have := length_pathPart_le false (s.drop 9)
    rw [List.length_drop] at this
    omega
  rw [cutPath, requestPath, List.take_of_length_le hshort]

/-! ### Accesses -/

/-- An access of `gemini_get_path`, inside the request string or the path array. -/
def Event.Access (len : Nat) : Event → Prop
  | .readReq idx => idx < len
  | .storePath idx => idx < MAX_PATH
  | _ => False

theorem sizeSub_of_le {len k : Nat} (h : k ≤ len) (hlen : len < 2 ^ 64) : sizeSub len k = len - k := by
  rw [sizeSub, BitVec.toNat_sub, BitVec.toNat_ofNat, BitVec.toNat_ofNat]
  omega

theorem sizeSub_of_lt {len k : Nat} (h : len < k) (hk : k < 2 ^ 64) : sizeSub len k = 2 ^ 64 + len - k := by
  rw [sizeSub, BitVec.toNat_sub, BitVec.toNat_ofNat, BitVec.toNat_ofNat]
  omega

section Sat

variable {P : Event → Prop} {req : Vector Byte n} {s : List Byte} (hread : ∀ idx < s.length, P (.readReq idx))
  (hstore : ∀ idx < m, P (.storePath idx)) (hs : s <+: req.toList)

include hs in
theorem readReq_eq {i : Nat} (hi : i < s.length) : readReq req i = emit (.readReq i) >>= fun _ => pure s[i] := by
  have hn : i < n := by
    have := hs.length_le
    rw [Vector.length_toList] at this
    omega
  have hget : req[i] = s[i] := by
    rw [hs.getElem hi]
    rfl
  rw [readReq, load_of_lt req hn, hget]

include hread hs in
theorem readReq_sat {i : Nat} (hi : i < s.length) : Sat P (· = s[i]) (readReq req i) := by
  rw [readReq_eq hs hi]
  exact sat_emit (hread i hi) (sat_pure rfl)

include hstore in
theorem storePathIn_sat (path : Vector Byte m) {j : Nat} (hj : j < m) (c : Byte) :
    Sat P (· = path.set j c hj) (storePathIn path j c) := by
  refine sat_emit (hstore j hj) ?_
  rw [store_of_lt path hj]
  exact sat_pure rfl

include hread hstore hs in
/-- Where the path has room, the loop appends to it what `pathPart` takes from the rest of the request, up to
`MAX_BUFFER` characters. -/
theorem copyLoopIn_sat (rounds i j : Nat) (has : Bool) (path : Vector Byte m) (hi : i + rounds = s.length)
    (hj : j ≤ MAX_BUFFER) (hroom : min (j + (pathPart has (s.drop i)).length) MAX_BUFFER ≤ m) :
    Sat P (fun r => r.2 = min (j + (pathPart has (s.drop i)).length) MAX_BUFFER ∧
      filled r.1 r.2 = (filled path j ++ pathPart has (s.drop i)).take MAX_BUFFER)
      (copyLoopIn req rounds i j has path) := by
  have hfilled : ∀ (path : Vector Byte m), (filled path j).length ≤ MAX_BUFFER :=
    fun path => (List.length_take_le _ _).trans hj
  induction rounds generalizing i j has path with
  | zero =>
    rw [List.drop_eq_nil_of_le (by omega), pathPart_nil]
    refine sat_pure ⟨by simp; omega, ?_⟩
    rw [List.append_nil, List.take_of_length_le (hfilled path)]
  | succ rounds ih =>
    have hlt : i < s.length := by omega
    rw [copyLoopIn]
    by_cases hmax : j < MAX_BUFFER
    · rw [if_pos hmax]
      apply (readReq_sat hread hs hlt).bind
      intro c hc
      have hdrop : s.drop i = c :: s.drop (i + 1) := by rw [hc, List.drop_eq_getElem_cons hlt]
      rw [hdrop, pathPart_cons] at hroom ⊢
      by_cases hend : c = ch '\r' ∨ c = ch '\n'
      · rw [if_pos hend, if_pos hend]
        refine sat_pure ⟨by simp; omega, ?_⟩
        rw [List.append_nil, List.take_of_length_le (hfilled path)]
      · rw [if_neg hend] at hroom
        rw [if_neg hend, if_neg hend]
        by_cases hhost : has = false ∧ c ≠ ch '/'
        · rw [if_pos hhost] at hroom
          rw [if_pos hhost, if_pos hhost]
          exact ih (i + 1) j false path (by omega) hj hroom hfilled
        · rw [if_neg hhost, List.length_cons] at hroom
          rw [if_neg hhost, if_neg hhost, List.length_cons]
          have hjm : j < m := by omega
          apply (storePathIn_sat hstore path hjm c).bind
          intro path' hpath'
          subst hpath'
          have hrest := ih (i + 1) (j + 1) true (path.set j c hjm) (by omega) hmax (by omega)
            fun path => (List.length_take_le _ _).trans hmax
          rwa [filled_set, List.append_assoc, List.singleton_append, Nat.add_assoc, Nat.add_comm 1] at hrest
    · have hfull : (filled path j).length = MAX_BUFFER := by
        rw [length_filled path (by omega)]
        omega
      rw [if_neg hmax]
      refine sat_pure ⟨by omega, ?_⟩
      rw [← hfull, List.take_left]

/-! ### `gemini_get_path` -/

include hread hs in
theorem lacksCrLf_sat (htwo : 2 ≤ s.length) (hsize : s.length < 2 ^ 64) :
    Sat P (fun lacks => lacks = false ↔ [ch '\r', ch '\n'] <:+ s) (lacksCrLf req s.length) := by
  have hcr : s.length - 2 < s.length := by omega
  have hlf : s.length - 1 < s.length := by omega
  have hsuffix : [ch '\r', ch '\n'] <:+ s ↔ s[s.length - 2] = ch '\r' ∧ s[s.length - 1] = ch '\n' := by
    have hdrop : s.drop (s.length - 2) = [s[s.length - 2], s[s.length - 1]] := by
      rw [List.drop_eq_getElem_cons hcr, show s.length - 2 + 1 = s.length - 1 by omega,
        List.drop_eq_getElem_cons hlf, List.drop_eq_nil_of_le (by omega)]
    rw [List.suffix_iff_eq_drop, List.length_cons, List.length_singleton, hdrop]
    simp [eq_comm]
  rw [lacksCrLf, sizeSub_of_le htwo hsize, sizeSub_of_le (by omega) hsize]
  apply (readReq_sat hread hs hcr).bind
  intro c hc
  by_cases hc' : c = ch '\r'
  · rw [if_neg (not_not.mpr hc')]
    apply (readReq_sat hread hs hlf).bind
    intro d hd
    apply sat_pure
    simp [hsuffix, ← hc, ← hd, hc']
  · rw [if_pos hc']
    apply sat_pure
    simp [hsuffix, ← hc, hc']

end Sat

/-- The path has room for what the function puts into it. -/
structure HasRoom (m : Nat) (s : List Byte) : Prop where
  terminator : min (pathPart false (s.drop 9)).length MAX_BUFFER < m
  index : pathPart false (s.drop 9) = [ch '/'] → indexGmi.length < m

theorem take_eq_slash_iff (p : List Byte) : p.take MAX_BUFFER = [ch '/'] ↔ p = [ch '/'] := by
  rcases p with _ | ⟨c, _ | ⟨d, p⟩⟩
  · exact Iff.rfl
  · exact Iff.rfl
  · apply iff_of_false
    · rintro ⟨⟩
    · rintro ⟨⟩

section GetPath

variable {P : Event → Prop} {req : Vector Byte n} {s : List Byte}

/-- What `gemini_get_path` does behind its loop. -/
def finishPath (path : Vector Byte m) (j : Nat) : Traced Event (Option (Vector Byte m)) := do
  let path ← storePathIn path j 0
  if strcmp [ch '/'] path.toList = 0 then do
    let path ← strcpy path indexGmi
    pure (some path)
  else pure (some path)

theorem strcmp_terminated_iff {p : List Byte} (path : Vector Byte m) {j : Nat} (hj : j < m)
    (hfilled : filled path j = p.take MAX_BUFFER) (hfree : 0#8 ∉ p) :
    cstr (path.set j 0#8 hj).toList = p.take MAX_BUFFER ∧
      (strcmp [ch '/'] (path.set j 0#8 hj).toList = 0 ↔ p = [ch '/']) := by
  have hcstr : cstr (path.set j 0#8 hj).toList = p.take MAX_BUFFER := by
    rw [cstr_set_zero path hj (hfilled ▸ fun h => hfree (List.mem_of_mem_take h)), hfilled]
  refine ⟨hcstr, ?_⟩
  rw [strcmp_eq_zero, hcstr, eq_comm, ← take_eq_slash_iff]
  rfl

theorem finishPath_sat (hstore : ∀ idx < m, P (.storePath idx)) {p : List Byte} (path : Vector Byte m) {j : Nat}
    (hj : j < m) (hfilled : filled path j = p.take MAX_BUFFER) (hfree : 0#8 ∉ p)
    (hindex : p = [ch '/'] → indexGmi.length < m) :
    Sat P (fun r => ∃ q, r = some q ∧ 0#8 ∈ q.toList ∧
      cstr q.toList = if p = [ch '/'] then indexGmi else p.take MAX_BUFFER) (finishPath path j) := by
  obtain ⟨hcstr, hcmp⟩ := strcmp_terminated_iff path hj hfilled hfree
  apply (storePathIn_sat hstore path hj 0#8).bind
  intro path' hpath'
  subst hpath'
  by_cases hroot : p = [ch '/']
  · rw [if_pos (hcmp.mpr hroot), if_pos hroot, strcpy_eq _ (hindex hroot), pure_bind]
    exact sat_pure ⟨_, rfl, zero_mem_overwrite _ (hindex hroot), cstr_overwrite _ (hindex hroot) (by decide)⟩
  · rw [if_neg (mt hcmp.mp hroot), if_neg hroot]
    exact sat_pure ⟨_, rfl, zero_mem_set path hj, hcstr⟩

theorem zero_notMem_pathPart (hs : cstr req.toList = s) (has : Bool) (k : Nat) : 0#8 ∉ pathPart has (s.drop k) :=
  fun h => zero_notMem_cstr req.toList (hs ▸ List.mem_of_mem_drop (pathPart_subset _ _ h))

theorem geminiGetPathIn_sat (hread : ∀ idx < s.length, P (.readReq idx)) (hstore : ∀ idx < m, P (.storePath idx))
    (path : Vector Byte m) (hzero : 0#8 ∈ req.toList) (hs : cstr req.toList = s) (htwo : 2 ≤ s.length)
    (hsize : s.length < 2 ^ 64) (hroom : IsRequest s → HasRoom m s) :
    Sat P (fun r => r.map (fun p => cstr p.toList) = cutPath s ∧ ∀ p, r = some p → 0#8 ∈ p.toList)
      (geminiGetPathIn path req) := by
  have hreq : s <+: req.toList := hs ▸ List.takeWhile_prefix _
  have hscheme : strncmp scheme req.toList 9 = 0 ↔ scheme <+: s := by
    rw [← hs, zero_free_starts_cstr (by decide)]
    exact strncmp_eq_zero (by decide) req.toList
  rw [geminiGetPathIn, strlen_eq hzero, hs, pure_bind]
  apply (lacksCrLf_sat hread hreq htwo hsize).bind
  intro lacks hlacks
  cases lacks with
  | true =>
    rw [if_pos rfl]
    refine sat_pure ⟨?_, nofun⟩
    have hnot : ¬ [ch '\r', ch '\n'] <:+ s := fun h => absurd (hlacks.mpr h) (by decide)
    simp [cutPath, IsRequest, hnot]
  | false =>
    have hcrlf := hlacks.mp rfl
    rw [if_neg (by decide)]
    by_cases hsch : scheme <+: s
    · rw [if_neg (not_not.mpr (hscheme.mpr hsch))]
      have hnine : 9 ≤ s.length := hsch.length_le
      obtain ⟨hterm, hindex⟩ := hroom ⟨hcrlf, hsch⟩
      apply (copyLoopIn_sat hread hstore hreq (s.length - 9) 9 0 false path (by omega) (by decide)
        (by rw [Nat.zero_add]; omega)).bind
      intro ⟨path', j⟩ ⟨hj, hfilled⟩
      rw [Nat.zero_add] at hj
      rw [filled_zero, List.nil_append] at hfilled
      obtain ⟨hevents, _, hvalue, p, rfl, hnul, hcstr⟩ := finishPath_sat hstore path' (by omega) hfilled
        (zero_notMem_pathPart hs _ _) hindex
      refine ⟨hevents, some p, hvalue, ?_, fun q hq => Option.some.inj hq ▸ hnul⟩
      rw [cutPath, if_pos ⟨hcrlf, hsch⟩, Option.map_some, hcstr]
      split <;> rfl
    · rw [if_pos (mt hscheme.mp hsch)]
      exact sat_pure ⟨by simp [cutPath, IsRequest, hsch], nofun⟩

/-- **`gemini_get_path` computes `requestPath`**, for requests of 2 to 1023 characters, inside its arrays. -/
theorem geminiGetPath_sat (path : Path) (hzero : 0#8 ∈ req.toList) (hs : cstr req.toList = s)
    (htwo : 2 ≤ s.length) (hlen : s.length < MAX_BUFFER) :
    Sat (Event.Access s.length)
      (fun r => r.map (fun p => cstr p.toList) = requestPath s ∧ ∀ p, r = some p → 0#8 ∈ p.toList)
      (geminiGetPath path req) := by
  have hlen' : s.length < 1024 := hlen
  have hroom : HasRoom MAX_PATH s := by
    refine ⟨?_, fun _ => by decide⟩
    have hpart := length_pathPart_le false (s.drop 9)
    rw [List.length_drop] at hpart
    change min _ 1024 < 1024
    omega
  rw [← cutPath_of_lt hlen, ← geminiGetPathIn_eq]
  exact geminiGetPathIn_sat (fun _ h => h) (fun _ h => h) path hzero hs htwo (by omega) fun _ => hroom

end GetPath

end QDNix.Geminid
