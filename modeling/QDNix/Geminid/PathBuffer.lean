import QDNix.Geminid.Request

/-!
# The bounds of the static path

`gemini_get_path` bounds its loop by `MAX_BUFFER`, sizes the array by `MAX_PATH`, which a build may set, and
writes the terminator behind the loop. With the sizes of the source a path of 1024 characters or more fills
the array, and its terminator is stored one byte behind it. `pathSafe_iff` says when the function keeps to
the array, for any size of it and any request.
-/

namespace QDNix.Geminid

open CString Traced

variable {m n : Nat}

/-- A store into the path lies inside it. -/
def Event.InPath (m : Nat) : Event → Prop
  | .storePath idx => idx < m
  | _ => True

/-- The function returns, every store to the path and the copy of the index page lie inside it, and what is
returned is a string inside it. -/
def PathSafe (path : Vector Byte m) (req : Vector Byte n) : Prop :=
  Sat (Event.InPath m) (fun r => ∀ p, r = some p → 0#8 ∈ p.toList) (geminiGetPathIn path req)

section Over

variable {req : Vector Byte n} {s : List Byte}

theorem storePathIn_some (path : Vector Byte m) {j : Nat} (hj : j < m) (c : Byte) :
    (storePathIn path j c).value? = some (path.set j c hj) := by
  rw [storePathIn, store_of_lt path hj]
  rfl

theorem storePathIn_none (path : Vector Byte m) {j : Nat} (hj : m ≤ j) (c : Byte) :
    (storePathIn path j c).value? = none := by
  rw [storePathIn, store_of_le path hj]
  rfl

theorem copyLoopIn_none (hs : s <+: req.toList) (rounds i j : Nat) (has : Bool) (path : Vector Byte m)
    (hi : i + rounds = s.length) (hj : j ≤ m)
    (hover : m < min (j + (pathPart has (s.drop i)).length) MAX_BUFFER) :
    (copyLoopIn req rounds i j has path).value? = none := by
  induction rounds generalizing i j has path with
  | zero =>
    rw [List.drop_eq_nil_of_le (by omega), pathPart_nil, List.length_nil] at hover
    omega
  | succ rounds ih =>
    have hlt : i < s.length := by omega
    obtain ⟨c, hc⟩ : ∃ c, c = s[i] := ⟨_, rfl⟩
    have hdrop : s.drop i = c :: s.drop (i + 1) := by rw [hc, List.drop_eq_getElem_cons hlt]
    have hread : (readReq req i).value? = some c := by
      rw [readReq_eq hs hlt, hc]
      rfl
    rw [hdrop, pathPart_cons] at hover
    rw [copyLoopIn, if_pos (by omega), bind_of_some hread]
    dsimp only
    by_cases hend : c = ch '\r' ∨ c = ch '\n'
    · rw [if_pos hend, List.length_nil] at hover
      omega
    · rw [if_neg hend] at hover
      rw [if_neg hend]
      by_cases hhost : has = false ∧ c ≠ ch '/'
      · rw [if_pos hhost] at hover
        rw [if_pos hhost]
        exact ih (i + 1) j false path (by omega) hj hover
      · rw [if_neg hhost, List.length_cons] at hover
        rw [if_neg hhost]
        rcases Nat.lt_or_ge j m with hroom | hfull
        · rw [bind_of_some (storePathIn_some path hroom c)]
          exact ih (i + 1) (j + 1) true (path.set j c hroom) (by omega) hroom (by omega)
        · rw [bind_of_none (storePathIn_none path hfull c)]

theorem finishPath_none {p : List Byte} (path : Vector Byte m) {j : Nat}
    (hfilled : filled path j = p.take MAX_BUFFER) (hfree : 0#8 ∉ p)
    (hroom : ¬ (j < m ∧ (p = [ch '/'] → indexGmi.length < m))) : (finishPath path j).value? = none := by
  rw [finishPath]
  rcases Nat.lt_or_ge j m with hj | hj
  · have hroot : p = [ch '/'] := by
      by_contra hne
      exact hroom ⟨hj, fun h => absurd h hne⟩
    have hindex : ¬ indexGmi.length < m := fun h => hroom ⟨hj, fun _ => h⟩
    obtain ⟨-, hcmp⟩ := strcmp_terminated_iff path hj hfilled hfree
    have hstored : (storePathIn path j 0).value? = some (path.set j 0#8 hj) := storePathIn_some path hj 0
    rw [bind_of_some hstored]
    dsimp only
    rw [if_pos (hcmp.mpr hroot), strcpy, if_neg hindex]
    rfl
  · rw [bind_of_none (storePathIn_none path hj 0)]

theorem geminiGetPathIn_none (path : Vector Byte m) (hzero : 0#8 ∈ req.toList) (hs : cstr req.toList = s)
    (htwo : 2 ≤ s.length) (hsize : s.length < 2 ^ 64) (hreq : IsRequest s) (hroom : ¬ HasRoom m s) :
    (geminiGetPathIn path req).value? = none := by
  obtain ⟨hcrlf, hsch⟩ := hreq
  have hstart : s <+: req.toList := hs ▸ List.takeWhile_prefix _
  have hscheme : strncmp scheme req.toList 9 = 0 := (strncmp_eq_zero (by decide) req.toList).mpr (hsch.trans hstart)
  have hlacks : (lacksCrLf req s.length).value? = some false := by
    obtain ⟨-, lacks, hvalue, hiff⟩ := lacksCrLf_sat (P := fun _ => True) (fun _ _ => trivial) hstart htwo hsize
    rw [hvalue, hiff.mpr hcrlf]
  have hnine : 9 ≤ s.length := hsch.length_le
  rw [geminiGetPathIn, strlen_eq hzero, hs, pure_bind, bind_of_some hlacks]
  dsimp only
  rw [if_neg (by decide), if_neg (not_not.mpr hscheme)]
  rcases Nat.lt_or_ge m (min (pathPart false (s.drop 9)).length MAX_BUFFER) with hover | hle
  · rw [bind_of_none (copyLoopIn_none hstart (s.length - 9) 9 0 false path (by omega) (by omega)
      (by rwa [Nat.zero_add]))]
  · obtain ⟨-, ⟨path', j⟩, hvalue, hj, hfilled⟩ := copyLoopIn_sat (P := fun _ => True) (fun _ _ => trivial)
      (fun _ _ => trivial) hstart (s.length - 9) 9 0 false path (by omega) (by decide) (by rwa [Nat.zero_add])
    rw [Nat.zero_add] at hj
    rw [filled_zero, List.nil_append] at hfilled
    rw [bind_of_some hvalue]
    apply finishPath_none path' hfilled (zero_notMem_pathPart hs _ _)
    intro hfit
    exact hroom ⟨hj ▸ hfit.1, hfit.2⟩

/-- **The function keeps to the path exactly if it rejects the request or the path has room** for what the
request names and a terminator. -/
theorem pathSafe_iff (path : Vector Byte m) (hzero : 0#8 ∈ req.toList) (htwo : 2 ≤ (cstr req.toList).length)
    (hsize : (cstr req.toList).length < 2 ^ 64) :
    PathSafe path req ↔ (IsRequest (cstr req.toList) → HasRoom m (cstr req.toList)) := by
  constructor
  · rintro ⟨-, r, hvalue, -⟩ hreq
    by_contra hroom
    rw [geminiGetPathIn_none path hzero rfl htwo hsize hreq hroom] at hvalue
    cases hvalue
  · intro hroom
    obtain ⟨hevents, r, hvalue, -, hnul⟩ := geminiGetPathIn_sat (P := Event.InPath m) (fun _ _ => trivial)
      (fun _ h => h) path hzero rfl htwo hsize hroom
    exact ⟨hevents, r, hvalue, hnul⟩

end Over

/-- The string `s` in memory. -/
def stored (s : List Byte) : Vector Byte (s.length + 1) := ⟨(s ++ [0]).toArray, by simp⟩

theorem toList_stored (s : List Byte) : (stored s).toList = s ++ [0] := rfl

theorem cstr_stored {s : List Byte} (h : 0#8 ∉ s) : cstr (stored s).toList = s := by
  rw [toList_stored]
  exact (cstr_append_zero s []).trans (cstr_of_notMem h)

theorem zero_mem_stored (s : List Byte) : 0#8 ∈ (stored s).toList := by
  rw [toList_stored]
  exact List.mem_append_right _ (List.mem_singleton_self _)

theorem pathSafe_iff_root :
    0#8 ∈ (stored (scheme ++ [ch '/', ch '\r', ch '\n'])).toList ∧
      2 ≤ (cstr (stored (scheme ++ [ch '/', ch '\r', ch '\n'])).toList).length ∧
      (cstr (stored (scheme ++ [ch '/', ch '\r', ch '\n'])).toList).length < 2 ^ 64 ∧
      PathSafe (Vector.replicate MAX_PATH 0) (stored (scheme ++ [ch '/', ch '\r', ch '\n'])) := by
  have hcstr : cstr (stored (scheme ++ [ch '/', ch '\r', ch '\n'])).toList =
      scheme ++ [ch '/', ch '\r', ch '\n'] := cstr_stored (by decide)
  have htwo : 2 ≤ (cstr (stored (scheme ++ [ch '/', ch '\r', ch '\n'])).toList).length := by
    rw [hcstr]
    decide
  have hsize : (cstr (stored (scheme ++ [ch '/', ch '\r', ch '\n'])).toList).length < 2 ^ 64 := by
    rw [hcstr]
    decide
  refine ⟨zero_mem_stored _, htwo, hsize, (pathSafe_iff _ (zero_mem_stored _) htwo hsize).mpr fun _ => ?_⟩
  rw [hcstr]
  exact ⟨by decide, fun _ => by decide⟩

/-- A request whose path has as many characters as the array. -/
def longRequest : List Byte := scheme ++ List.replicate MAX_PATH (ch '/') ++ [ch '\r', ch '\n']

theorem not_pathSafe_long :
    0#8 ∈ (stored longRequest).toList ∧ 2 ≤ (cstr (stored longRequest).toList).length ∧
      ¬ PathSafe (Vector.replicate MAX_PATH 0) (stored longRequest) := by
  have hzero : 0#8 ∉ longRequest := by
    rw [longRequest, List.mem_append, List.mem_append, List.mem_replicate]
    decide
  have hlen : longRequest.length = 9 + MAX_PATH + 2 := by
    rw [longRequest, List.length_append, List.length_append, List.length_replicate]
    rfl
  have hreq : IsRequest longRequest := by
    refine ⟨List.suffix_append _ _, ?_⟩
    rw [longRequest, List.append_assoc]
    exact List.prefix_append _ _
  have hpart : pathPart false (longRequest.drop 9) = List.replicate MAX_PATH (ch '/') := by
    have hdrop : longRequest.drop 9 = List.replicate MAX_PATH (ch '/') ++ [ch '\r', ch '\n'] := by
      rw [longRequest, List.append_assoc]
      rfl
    have htake : ((List.replicate MAX_PATH (ch '/') ++ [ch '\r', ch '\n']).takeWhile inLine) =
        List.replicate MAX_PATH (ch '/') := by
      rw [List.takeWhile_append_of_pos fun c hc => by rw [List.eq_of_mem_replicate hc]; decide]
      exact List.append_nil _
    rw [hdrop, pathPart, if_neg (by decide), htake]
    rfl
  have hroom : ¬ HasRoom MAX_PATH longRequest := by
    rintro ⟨hterm, -⟩
    rw [hpart, List.length_replicate] at hterm
    exact absurd hterm (by decide)
  refine ⟨zero_mem_stored _, by rw [cstr_stored hzero, hlen]; decide, ?_⟩
  rintro ⟨-, r, hvalue, -⟩
  rw [geminiGetPathIn_none _ (zero_mem_stored _) (cstr_stored hzero) (by rw [hlen]; decide)
    (by rw [hlen]; decide) hreq hroom] at hvalue
  cases hvalue

end QDNix.Geminid
