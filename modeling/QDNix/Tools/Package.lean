import QDNix.Tools.Download

/-!
# The packages of `external`

The rules of `share/mk/qdnix.pkg.mk`. The rule of the archive downloads and checks it; a check that fails ends
`make`, but it leaves the archive, and for the next run of `make fetch` an archive that is there is made. So a package
is unpacked unchecked exactly where a run comes after one that left a wrong archive, with no `make clean` between
the two (`packages_verified`).

Of the time stamps there is only whether `make` finds `dist` older than the archive: any answer is possible. There is
no target `.DELETE_ON_ERROR`. `curl` succeeds also with the page of an error.
-/

namespace QDNix.Tools

open Shell

/-- What a package defines. -/
structure Package where
  url : Bool
  sha256sum : Option Word
  b2sum : Option Word

/-- The outcomes of a run: what `curl` leaves, whether `dist` is found older, whether `tar` and `mv` succeed. -/
structure Round (Content : Type) extends Fetch Content where
  stale : Bool
  unpack : Bool

inductive Command (Content : Type)
  | fetch (r : Round Content)
  | clean

/-- The archive, and whether `dist` is there. -/
structure Workspace (Content : Type) where
  archive : Option Content
  dist : Bool

variable {Content : Type} (sha256 blake2b : Content → Word) (pkg : Package)

/-- Whether `hash.py verify` succeeds. It wants a hash after `-H`. -/
def hashPy (hash : Content → Word) (file : Option Content) (want : Word) : Bool :=
  want ≠ [] ∧ file.any fun c => hash c = want

/-- Some sum is defined and not empty. -/
def Package.checked : Bool := pkg.sha256sum.any (· ≠ []) || pkg.b2sum.any (· ≠ [])

/-- What there is once `curl` has run, if it does. -/
def Package.fetched (left : Option Content) : Option Content := if pkg.url then left else none

/-- The rule of the archive: whether all its commands succeed. -/
def makeArchive (r : Fetch Content) : Bool :=
  (!pkg.url || r.ok) && (!pkg.checked ||
    pkg.sha256sum.all (hashPy sha256 (pkg.fetched r.left)) && pkg.b2sum.all (hashPy blake2b (pkg.fetched r.left)))

/-- The rule of `dist`, and what it unpacks. -/
def makeDist (w : Workspace Content) (r : Round Content) : Workspace Content × Option Content :=
  (⟨w.archive, w.dist || w.archive.isSome && r.unpack⟩, w.archive)

/-- `make fetch` -/
def makeFetch (w : Workspace Content) (r : Round Content) : Workspace Content × Option Content :=
  match w.archive with
  | none =>
    let w := { w with archive := pkg.fetched r.left }
    if makeArchive sha256 blake2b pkg r.toFetch then makeDist w r else (w, none)
  | some _ => if w.dist && !r.stale then (w, none) else makeDist w r

def make (w : Workspace Content) : Command Content → Workspace Content × Option Content
  | .fetch r => makeFetch sha256 blake2b pkg w r
  | .clean => (⟨none, false⟩, none)

/-- What each of several runs unpacks. -/
def makeAll : Workspace Content → List (Command Content) → List (Option Content)
  | _, [] => []
  | w, command :: commands =>
    (make sha256 blake2b pkg w command).2 :: makeAll (make sha256 blake2b pkg w command).1 commands

/-- An archive that passes the checks of its package. -/
def Right (c : Content) : Prop :=
  pkg.checked = true → (∀ want, pkg.sha256sum = some want → want ≠ [] ∧ sha256 c = want) ∧
    ∀ want, pkg.b2sum = some want → want ≠ [] ∧ blake2b c = want

/-- All that is unpacked is right. -/
def AllRight (archives : List (Option Content)) : Prop := ∀ c, some c ∈ archives → Right sha256 blake2b pkg c

/-- Where `make fetch` finds an archive, it is right. -/
def FoundRight : Option Content → List (Command Content) → Prop
  | _, [] => True
  | none, .fetch r :: commands => FoundRight (pkg.fetched r.left) commands
  | some c, .fetch _ :: commands => Right sha256 blake2b pkg c ∧ FoundRight (some c) commands
  | _, .clean :: commands => FoundRight none commands

/-! ### One run -/

theorem hashPy_some (hash : Content → Word) (c : Content) (want : Word) :
    hashPy hash (some c) want = true ↔ want ≠ [] ∧ hash c = want := by
  simp [hashPy]

theorem all_hashPy (hash : Content → Word) (c : Content) (sum : Option Word) :
    sum.all (hashPy hash (some c)) = true ↔ ∀ want, sum = some want → want ≠ [] ∧ hash c = want := by
  cases sum with
  | none => simp
  | some want => simp [hashPy_some]

theorem right_of_makeArchive {r : Fetch Content} (h : makeArchive sha256 blake2b pkg r = true) {c : Content}
    (hc : pkg.fetched r.left = some c) : Right sha256 blake2b pkg c := by
  intro hchecked
  have hsums := (Bool.and_eq_true_iff.mp h).2
  rw [hchecked, Bool.not_true, Bool.false_or, Bool.and_eq_true, hc] at hsums
  exact ⟨(all_hashPy sha256 c _).mp hsums.1, (all_hashPy blake2b c _).mp hsums.2⟩

/-! ### Many runs -/

theorem allRight_cons {a : Option Content} {archives : List (Option Content)} :
    AllRight sha256 blake2b pkg (a :: archives) ↔
      (∀ c, a = some c → Right sha256 blake2b pkg c) ∧ AllRight sha256 blake2b pkg archives :=
  forall_some_mem_cons

/-- `dist` is there only with a right archive. -/
def Workspace.Sound (w : Workspace Content) : Prop :=
  w.dist = true → ∃ c, w.archive = some c ∧ Right sha256 blake2b pkg c

theorem sound_makeDist {w : Workspace Content} (hw : w.Sound sha256 blake2b pkg)
    (hright : ∀ c, w.archive = some c → Right sha256 blake2b pkg c) (r : Round Content) :
    (makeDist w r).1.Sound sha256 blake2b pkg := by
  intro hdist
  rcases Bool.or_eq_true_iff.mp hdist with hold | hnew
  · exact hw hold
  · obtain ⟨c, hc⟩ := Option.isSome_iff_exists.mp (Bool.and_eq_true_iff.mp hnew).1
    exact ⟨c, hc, hright c hc⟩

theorem allRight_makeAll_iff (commands : List (Command Content)) : ∀ w : Workspace Content,
    w.Sound sha256 blake2b pkg →
      (AllRight sha256 blake2b pkg (makeAll sha256 blake2b pkg w commands) ↔
        FoundRight sha256 blake2b pkg w.archive commands) := by
  induction commands with
  | nil =>
    intro w _
    refine iff_of_true (fun c hc => absurd hc List.not_mem_nil) ?_
    cases w.archive <;> trivial
  | cons command commands ih =>
    rintro ⟨archive, dist⟩ hw
    rw [makeAll, allRight_cons]
    cases command with
    | clean =>
      have hclean : Workspace.Sound sha256 blake2b pkg ⟨none, false⟩ := fun h => absurd h Bool.false_ne_true
      rw [make, ih _ hclean]
      cases archive <;> exact and_iff_right fun c hc => absurd hc (Option.some_ne_none c).symm
    | fetch r =>
      cases archive with
      | none =>
        have hdist : dist = false := by
          cases dist with
          | false => rfl
          | true =>
            obtain ⟨c, hc, -⟩ := hw rfl
            cases hc
        subst hdist
        have hsound : Workspace.Sound sha256 blake2b pkg ⟨pkg.fetched r.left, false⟩ :=
          fun h => absurd h Bool.false_ne_true
        rw [make, makeFetch]
        by_cases hmade : makeArchive sha256 blake2b pkg r.toFetch = true
        · have hright : ∀ c, pkg.fetched r.left = some c → Right sha256 blake2b pkg c :=
            fun c hc => right_of_makeArchive sha256 blake2b pkg hmade hc
          simp only [if_pos hmade]
          rw [ih _ (sound_makeDist sha256 blake2b pkg hsound hright r)]
          exact and_iff_right hright
        · simp only [if_neg hmade]
          rw [ih _ hsound]
          exact and_iff_right fun c hc => absurd hc (Option.some_ne_none c).symm
      | some c =>
        rw [make, makeFetch, FoundRight]
        by_cases hfresh : (dist && !r.stale) = true
        · have hright : Right sha256 blake2b pkg c := by
            obtain ⟨c', hc', hright⟩ := hw (Bool.and_eq_true_iff.mp hfresh).1
            exact Option.some.inj hc' ▸ hright
          simp only [if_pos hfresh]
          rw [ih _ hw, and_iff_right hright]
          exact and_iff_right fun c hc => absurd hc (Option.some_ne_none c).symm
        · simp only [if_neg hfresh]
          constructor
          · rintro ⟨hunpacked, hrest⟩
            have hsound := sound_makeDist sha256 blake2b pkg hw hunpacked r
            exact ⟨hunpacked c rfl, (ih _ hsound).mp hrest⟩
          · rintro ⟨hright, hrest⟩
            have hunpacked : ∀ c', some c = some c' → Right sha256 blake2b pkg c' :=
              fun c' hc' => Option.some.inj hc' ▸ hright
            have hsound := sound_makeDist sha256 blake2b pkg hw hunpacked r
            exact ⟨hunpacked, (ih _ hsound).mpr hrest⟩

/-- **Which packages are unpacked**, over any runs of `make fetch` and `make clean` and whatever they meet: right
ones only, exactly if every archive that a run finds is right. -/
theorem packages_verified (commands : List (Command Content)) :
    AllRight sha256 blake2b pkg (makeAll sha256 blake2b pkg ⟨none, false⟩ commands) ↔
      FoundRight sha256 blake2b pkg none commands :=
  allRight_makeAll_iff sha256 blake2b pkg commands ⟨none, false⟩ fun h => absurd h Bool.false_ne_true

/-- The error page that a first run left is unpacked by the second. -/
example : makeAll (fun c : Word => c) (fun c => c) ⟨true, some okWord, none⟩ ⟨none, false⟩
    [.fetch ⟨⟨some [], true⟩, false, true⟩, .fetch ⟨⟨some okWord, true⟩, false, true⟩] = [none, some []] := by decide

end QDNix.Tools
