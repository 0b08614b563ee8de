import QDNix.Lib.Shell

/-!
# Fetching an archive

`download_and_verify` of `build.sh` and `download` of `tools/build-gnutoolchain.sh` fetch an archive unless a
file with the right checksum is there already. They differ in a pair of quotes: without it, the output of a
failed check is no argument at all, `[ ! = "OK" ]` compares the exclamation mark, and the file that failed the
check is taken as it is. So `build.sh` goes on with verified archives only, over any number of runs and whatever
is fetched, and the other script exactly if the first file it ever gets is right (`downloads_verified`).

A checksum is a function of the content. What a fetch leaves is arbitrary, also where it fails.
-/

namespace QDNix.Tools

open Shell

variable {Content : Type}

/-- What a fetch leaves under the archive's name, and whether it succeeds. -/
structure Fetch (Content : Type) where
  left : Option Content
  ok : Bool

/-- The file afterwards, and the archive that is unpacked; none where the script ends. -/
structure Outcome (Content : Type) where
  file : Option Content
  unpacked : Option Content

def okWord : Word := ['O', 'K']

variable (hash : Content → Word) (want name : Word)

/-- The output of `verify`. -/
def verify : Option Content → List Char
  | some c => if hash c = want then okWord else []
  | none => []

def isFile (file : Option Content) (w : Word) : Bool := w = name ∧ file.isSome

/-- `download_and_verify`; `set -e` ends the script where `curl` fails. -/
def downloadAndVerify (file : Option Content) (fetch : Fetch Content) : Outcome Content :=
  if test (isFile name file) [bang, ['-', 'f'], name] = .yes ∨
      test (isFile name file) [bang, verify hash want file, ['=', '='], okWord] = .yes then
    if fetch.ok then
      if test (isFile name fetch.left) [verify hash want fetch.left, ['=', '='], okWord] = .yes then
        ⟨fetch.left, fetch.left⟩
      else ⟨fetch.left, none⟩
    else ⟨fetch.left, none⟩
  else ⟨file, file⟩

/-- `download`, which goes on where `wget` fails. -/
def download (file : Option Content) (fetch : Fetch Content) : Outcome Content :=
  if test (isFile name file) [bang, ['-', 'f'], name] = .yes ∨
      test (isFile name file) ([bang] ++ fields (verify hash want file) ++ [['='], okWord]) = .yes then
    if test (isFile name fetch.left) (fields (verify hash want fetch.left) ++ [['='], okWord]) = .yes then
      ⟨fetch.left, fetch.left⟩
    else ⟨fetch.left, none⟩
  else ⟨file, file⟩

/-- What each of several runs unpacks. -/
def unpacks (script : Option Content → Fetch Content → Outcome Content) :
    Option Content → List (Fetch Content) → List (Option Content)
  | _, [] => []
  | file, fetch :: fetches => (script file fetch).unpacked :: unpacks script (script file fetch).file fetches

/-- All that is unpacked has the checksum. -/
def AllVerified (archives : List (Option Content)) : Prop := ∀ c, some c ∈ archives → hash c = want

/-- The first file there is at the begin of a run has the checksum. -/
def FirstRight : Option Content → List (Fetch Content) → Prop
  | some c, _ :: _ => hash c = want
  | none, fetch :: fetches => FirstRight fetch.left fetches
  | _, [] => True

/-! ### The checks -/

theorem fields_ok : fields okWord = [okWord] := fields_word (by simp [okWord, isIfs]) (by simp [okWord])

theorem isFile_name (file : Option Content) : isFile name file name = file.isSome := by
  simp [isFile]

variable {hash want}

theorem verify_of_right {c : Content} (h : hash c = want) : verify hash want (some c) = okWord := if_pos h

theorem verify_of_wrong {c : Content} (h : hash c ≠ want) : verify hash want (some c) = [] := if_neg h

theorem verify_eq_ok_iff (file : Option Content) :
    verify hash want file = okWord ↔ ∃ c, file = some c ∧ hash c = want := by
  cases file with
  | none => simp [verify, okWord]
  | some c => by_cases h : hash c = want <;> simp [verify, h, okWord]

theorem right_of_verify {file : Option Content} (h : verify hash want file = okWord) {c : Content}
    (hc : file = some c) : hash c = want := by
  obtain ⟨d, hd, hright⟩ := (verify_eq_ok_iff file).mp h
  rw [← hright, Option.some.inj (hc.symm.trans hd)]

variable (hash want)

theorem test_fields_verify (file : Option Content) (exists' : Word → Bool) :
    test exists' (fields (verify hash want file) ++ [['='], okWord]) = .yes ↔ verify hash want file = okWord := by
  by_cases h : verify hash want file = okWord
  · rw [h, fields_ok, List.singleton_append, test_eq _ (.inl rfl), of_eq_yes, decide_eq_true_eq]
  · have hnil : verify hash want file = [] := by
      cases file with
      | none => rfl
      | some c => exact verify_of_wrong fun hc => h (verify_of_right hc)
    rw [hnil, fields_nil, List.nil_append, test_lone_eq]
    exact iff_of_false (fun herror => by cases herror) (by decide)

/-! ### One run -/

theorem downloadAndVerify_eq (file : Option Content) (fetch : Fetch Content) :
    downloadAndVerify hash want name file fetch =
      if verify hash want file = okWord then ⟨file, file⟩
      else ⟨fetch.left, if fetch.ok ∧ verify hash want fetch.left = okWord then fetch.left else none⟩ := by
  unfold downloadAndVerify
  rw [test_not_file, test_not_eq _ (.inr rfl), test_eq _ (.inr rfl), isFile_name]
  simp only [of_eq_yes, decide_eq_true_eq, Bool.not_eq_true']
  by_cases hright : verify hash want file = okWord
  · have hsome : ¬ file.isSome = false := by
      obtain ⟨c, rfl, -⟩ := (verify_eq_ok_iff file).mp hright
      exact Bool.noConfusion
    rw [if_pos hright, if_neg (by simp [hright, hsome])]
  · rw [if_neg hright, if_pos (.inr hright)]
    by_cases hok : fetch.ok = true
    · by_cases hleft : verify hash want fetch.left = okWord <;> simp [hok, hleft]
    · simp [hok]

theorem download_some (c : Content) (fetch : Fetch Content) :
    download hash want name (some c) fetch = ⟨some c, some c⟩ := by
  unfold download
  rw [test_not_file, isFile_name]
  refine if_neg ?_
  rw [of_eq_yes]
  by_cases hright : hash c = want
  · rw [verify_of_right hright, fields_ok, List.append_assoc, List.singleton_append, List.singleton_append,
      test_not_eq _ (.inl rfl), of_eq_yes]
    simp
  · rw [verify_of_wrong hright, fields_nil, List.append_nil, List.singleton_append, test_bang_eq, of_eq_yes]
    simp [bang, okWord]

theorem download_none (fetch : Fetch Content) :
    download hash want name none fetch =
      ⟨fetch.left, if verify hash want fetch.left = okWord then fetch.left else none⟩ := by
  unfold download
  rw [test_not_file, isFile_name, if_pos (.inl rfl)]
  by_cases hright : verify hash want fetch.left = okWord
  · rw [if_pos ((test_fields_verify hash want fetch.left _).mpr hright), if_pos hright]
  · rw [if_neg (mt (test_fields_verify hash want fetch.left _).mp hright), if_neg hright]

/-! ### Many runs -/

theorem forall_some_mem_cons {P : Content → Prop} {a : Option Content} {archives : List (Option Content)} :
    (∀ c, some c ∈ a :: archives → P c) ↔ (∀ c, a = some c → P c) ∧ ∀ c, some c ∈ archives → P c := by
  simp only [List.mem_cons, or_imp, forall_and]
  exact and_congr_left' (forall_congr' fun c => imp_congr_left eq_comm)

theorem allVerified_cons {a : Option Content} {archives : List (Option Content)} :
    AllVerified hash want (a :: archives) ↔ (∀ c, a = some c → hash c = want) ∧ AllVerified hash want archives :=
  forall_some_mem_cons

theorem build_verified (fetches : List (Fetch Content)) : ∀ file,
    AllVerified hash want (unpacks (downloadAndVerify hash want name) file fetches) := by
  induction fetches with
  | nil => exact fun _ c hc => absurd hc List.not_mem_nil
  | cons fetch fetches ih =>
    intro file
    rw [unpacks, allVerified_cons]
    refine ⟨fun c hc => ?_, ih _⟩
    rw [downloadAndVerify_eq] at hc
    by_cases hright : verify hash want file = okWord
    · rw [if_pos hright] at hc
      exact right_of_verify hright hc
    · rw [if_neg hright] at hc
      obtain ⟨hfetched, hleft⟩ := Option.ite_none_right_eq_some.mp hc
      exact right_of_verify hfetched.2 hleft

theorem toolchain_verified_iff (fetches : List (Fetch Content)) : ∀ file,
    AllVerified hash want (unpacks (download hash want name) file fetches) ↔ FirstRight hash want file fetches := by
  induction fetches with
  | nil =>
    intro file
    refine iff_of_true (fun c hc => absurd hc List.not_mem_nil) ?_
    cases file <;> trivial
  | cons fetch fetches ih =>
    intro file
    rw [unpacks, allVerified_cons]
    cases file with
    | some c =>
      rw [download_some, ih]
      constructor
      · exact fun h => h.1 c rfl
      · intro h
        refine ⟨fun c' hc' => Option.some.inj hc' ▸ h, ?_⟩
        cases fetches with
        | nil => trivial
        | cons => exact h
    | none =>
      rw [download_none, ih]
      refine and_iff_right fun c hc => ?_
      obtain ⟨hleft, hc⟩ := Option.ite_none_right_eq_some.mp hc
      exact right_of_verify hleft hc

/-- **Which archives are unpacked**, over any number of runs and whatever each fetch leaves: in `build.sh` verified
ones only; in the other script so exactly if the first file it gets is right. -/
theorem downloads_verified (file : Option Content) (fetches : List (Fetch Content)) :
    AllVerified hash want (unpacks (downloadAndVerify hash want name) file fetches) ∧
    (AllVerified hash want (unpacks (download hash want name) file fetches) ↔ FirstRight hash want file fetches) :=
  ⟨build_verified hash want name fetches file, toolchain_verified_iff hash want name fetches file⟩

/-- A broken archive left by a first run is unpacked by the second. -/
example : unpacks (download (fun c : Word => c) okWord ['g', 'c', 'c']) none [⟨some [], true⟩, ⟨some okWord, true⟩] =
    [none, some []] := by decide

end QDNix.Tools
