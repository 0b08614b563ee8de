import QDNix.Lib.Shell
import QDNix.Lib.Traced
import Mathlib.Data.List.Infix
import Mathlib.Data.List.Nodup

/-!
# The map of the website

`tools/site-map-gen.sh` walks the generated site. Its variables are global, so every call of `recurse_readir`
writes the ones its caller uses; the words of a loop are made before its first round, and each round sets what it
reads, so nothing comes of it. What comes out has an entry for each of the pages that `Tree.pages` makes of the tree
alone (`site_map_lists`): what the globs show below directories without doxygen in their names, each once, and one page
too many for a directory with nothing to show, where the glob stays as it is. But with a slash at the end of the
argument the slash goes with it, and the host name runs into what follows.

A tree is given by the entries of its root in the order of the glob. The argument is taken to be a word that matches
itself only.
-/

namespace QDNix.SiteMap

open Shell Traced

structure Name where
  chars : Word
  ne : chars ≠ []
  slash : '/' ∉ chars
deriving DecidableEq

/-- `*` does not match a name that begins with a dot. -/
def Name.hidden (name : Name) : Bool := name.chars.head? = some '.'

/-- The entries of a directory; a file has the day of its last change. -/
inductive Tree
  | nil
  | file (name : Name) (lastmod : Word) (rest : Tree)
  | dir (name : Name) (entries rest : Tree)

/-- The glob has a match. -/
def Tree.visible : Tree → Bool
  | .nil => false
  | .file name _ rest => !name.hidden || rest.visible
  | .dir name _ rest => !name.hidden || rest.visible

/-- Characters with a meaning in a pattern, or in front of one. -/
def special : List Char := ['*', '?', '[', '\\', '#', '%']

/-- An argument of the script that is not empty and has none of these characters. -/
structure Root where
  chars : Word
  ne : chars ≠ []
  literal : ∀ c ∈ special, c ∉ chars

/-- The variables of the script. -/
structure Vars where
  dir : Word
  m : Word
  lastmod : Word

def hostname : Word := "https://qdnix.d0p1.eu".toList

def doxygen : Word := ['d', 'o', 'x', 'y', 'g', 'e', 'n']

/-- The lines of one page. -/
def url (loc lastmod : Word) : List Word :=
  ["<url>".toList, "<loc>".toList ++ loc ++ "</loc>".toList, "<lastmod>".toList ++ lastmod ++ "</lastmod>".toList,
    "</url>".toList]

def echo (lines : List Word) : Traced Word PUnit := ⟨lines, some ⟨⟩⟩

/-- The branch of the loop for what is no directory; `date` prints `day`. -/
def page (root : Root) (day : Word) (vars : Vars) : Traced Word Vars := do
  let vars := { vars with lastmod := day }
  echo (url (replaceFirst root.chars hostname vars.m) vars.lastmod)
  pure vars

/-- A call of `recurse_readir`, around the rounds of its loop. A glob without a match stays as it is: there is no
such file, and `date` prints nothing. -/
def call (root : Root) (arg : Word) (visible : Bool) (rounds : Word → Vars → Traced Word Vars) (vars : Vars) :
    Traced Word Vars :=
  let vars := { vars with dir := stripLast '/' arg }
  if visible then rounds vars.dir vars else page root [] { vars with m := vars.dir ++ ['/', '*'] }

/-- The branch of the loop for a directory. -/
def enter (root : Root) (visible : Bool) (rounds : Word → Vars → Traced Word Vars) (vars : Vars) :
    Traced Word Vars :=
  if doxygen <:+: vars.m then pure vars else call root vars.m visible rounds vars

/-- The rounds of the loop, on words made when `dir` was the directory. -/
def rounds (root : Root) : Tree → Word → Vars → Traced Word Vars
  | .nil, _, vars => pure vars
  | .file name day rest, dir, vars =>
    if name.hidden then rounds root rest dir vars
    else do
      let vars ← page root day { vars with m := dir ++ '/' :: name.chars }
      rounds root rest dir vars
  | .dir name entries rest, dir, vars =>
    if name.hidden then rounds root rest dir vars
    else do
      let vars ← enter root entries.visible (rounds root entries) { vars with m := dir ++ '/' :: name.chars }
      rounds root rest dir vars

def recurseReadir (root : Root) (arg : Word) (t : Tree) (vars : Vars) : Traced Word Vars :=
  call root arg t.visible (rounds root t) vars

def opening : List Word :=
  ["<?xml version=\"1.0\" encoding=\"UTF-8\"?>".toList,
    "<urlset xmlns=\"http://www.sitemaps.org/schemas/sitemap/0.9\">".toList]

def closing : List Word := ["</urlset>".toList]

/-- The whole script. -/
def siteMapGen (root : Root) (t : Tree) : Traced Word Vars := do
  echo opening
  let vars ← recurseReadir root root.chars t ⟨[], [], []⟩
  echo closing
  pure vars

/-! ### The pages of a tree -/

structure Page where
  dirs : List Name
  leaf : Word
  lastmod : Word

def Page.path (p : Page) : List Word := p.dirs.map Name.chars ++ [p.leaf]

def joined (path : List Word) : Word := path.flatMap fun w => '/' :: w

/-- The directory is walked. -/
def Enters (root : Root) (name : Name) : Prop :=
  name.hidden = false ∧ ¬ doxygen <:+: root.chars ∧ ¬ doxygen <:+: name.chars

instance (root : Root) (name : Name) : Decidable (Enters root name) := inferInstanceAs (Decidable (_ ∧ _))

/-- The page of a glob that stays as it is. -/
def star : Page := ⟨[], ['*'], []⟩

/-- The pages of the entries that the glob shows. -/
def Tree.shown (root : Root) : Tree → List Page
  | .nil => []
  | .file name day rest => (if name.hidden then [] else [⟨[], name.chars, day⟩]) ++ rest.shown root
  | .dir name entries rest =>
    (if Enters root name then
      (if entries.visible then entries.shown root else [star]).map fun p => { p with dirs := name :: p.dirs }
    else []) ++ rest.shown root

/-- The pages of a directory with these entries. -/
def Tree.pages (root : Root) (t : Tree) : List Page := if t.visible then t.shown root else [star]

/-- Where a page is. -/
def loc (path : List Word) : Word := hostname ++ joined path

/-- Where the script says it is. A slash at the end of the argument is replaced with it. -/
def Root.said (root : Root) (path : List Word) : Word :=
  hostname ++ if root.chars.getLast? = some '/' then (joined path).drop 1 else joined path

/-- The files of a directory, and its directories. -/
def Tree.files : Tree → List (Name × Word)
  | .nil => []
  | .file name day rest => (name, day) :: rest.files
  | .dir _ _ rest => rest.files

def Tree.dirs : Tree → List (Name × Tree)
  | .nil => []
  | .file _ _ rest => rest.dirs
  | .dir name entries rest => (name, entries) :: rest.dirs

/-- The directories that are walked, with the way to them. -/
inductive Walked (root : Root) : Tree → List Name → Tree → Prop
  | here (t : Tree) : Walked root t [] t
  | enter {t entries u : Tree} {name : Name} {way : List Name} :
    (name, entries) ∈ t.dirs → Enters root name → Walked root entries way u → Walked root t (name :: way) u

/-- What a directory shows: its visible files, or else the glob. -/
def Tree.Shows (u : Tree) (leaf lastmod : Word) : Prop :=
  (∃ name, (name, lastmod) ∈ u.files ∧ name.hidden = false ∧ leaf = name.chars) ∨
    u.visible = false ∧ leaf = ['*'] ∧ lastmod = []

def Tree.names : Tree → List Name
  | .nil => []
  | .file name _ rest => name :: rest.names
  | .dir name _ rest => name :: rest.names

/-- No directory has two entries of one name. -/
def Tree.Distinct : Tree → Prop
  | .nil => True
  | .file name _ rest => name ∉ rest.names ∧ rest.Distinct
  | .dir name entries rest => name ∉ rest.names ∧ entries.Distinct ∧ rest.Distinct

/-! ### What is printed -/

/-- The script goes on, having printed these lines. -/
def Prints (lines : List Word) (m : Traced Word Vars) : Prop := m.events = lines ∧ ∃ vars, m.value? = some vars

theorem prints_pure (vars : Vars) : Prints [] (pure vars) := ⟨rfl, vars, rfl⟩

theorem Prints.bind {lines lines' : List Word} {m : Traced Word Vars} {f : Vars → Traced Word Vars}
    (hm : Prints lines m) (hf : ∀ vars, Prints lines' (f vars)) : Prints (lines ++ lines') (m >>= f) := by
  obtain ⟨rfl, vars, hvars⟩ := hm
  obtain ⟨rfl, vars', hvars'⟩ := hf vars
  rw [bind_of_some hvars]
  exact ⟨by rw [(hf vars).1], vars', hvars'⟩

theorem prints_echo {lines : List Word} (text : List Word) {f : PUnit → Traced Word Vars}
    (hf : Prints lines (f ⟨⟩)) : Prints (text ++ lines) (echo text >>= f) := by
  obtain ⟨rfl, vars, hvars⟩ := hf
  exact ⟨rfl, vars, hvars⟩

variable (root : Root)

theorem prints_page (day : Word) (vars : Vars) :
    Prints (url (replaceFirst root.chars hostname vars.m) day) (page root day vars) := by
  rw [← List.append_nil (url _ day)]
  exact prints_echo _ (prints_pure _)

/-- The lines of some pages below the directory `dir`. -/
def linesOf (dir : Word) (pages : List Page) : List Word :=
  pages.flatMap fun p => url (replaceFirst root.chars hostname (dir ++ joined p.path)) p.lastmod

theorem linesOf_append (dir : Word) (pages pages' : List Page) :
    linesOf root dir (pages ++ pages') = linesOf root dir pages ++ linesOf root dir pages' := List.flatMap_append

theorem joined_cons (w : Word) (path : List Word) : joined (w :: path) = '/' :: w ++ joined path := rfl

theorem linesOf_below (dir : Word) (name : Name) (pages : List Page) :
    linesOf root dir (pages.map fun p => { p with dirs := name :: p.dirs }) =
      linesOf root (dir ++ '/' :: name.chars) pages := by
  rw [linesOf, List.flatMap_map, linesOf]
  congr 1
  funext p
  rw [List.append_assoc]
  rfl

theorem prints_call {arg dir : Word} (hdir : stripLast '/' arg = dir) {t : Tree}
    (hrounds : ∀ vars, Prints (linesOf root dir (t.shown root)) (rounds root t dir vars)) (vars : Vars) :
    Prints (linesOf root dir (t.pages root)) (call root arg t.visible (rounds root t) vars) := by
  rw [call, hdir, Tree.pages]
  by_cases hvisible : t.visible = true
  · rw [if_pos hvisible, if_pos hvisible]
    exact hrounds _
  · rw [if_neg hvisible, if_neg hvisible]
    have hlines : linesOf root dir [star] = url (replaceFirst root.chars hostname (dir ++ ['/', '*'])) [] :=
      List.append_nil _
    rw [hlines]
    exact prints_page root [] _

theorem strip_name (dir : Word) (name : Name) : stripLast '/' (dir ++ '/' :: name.chars) = dir ++ '/' :: name.chars := by
  have hsplit : dir ++ '/' :: name.chars = (dir ++ ['/']) ++ name.chars := by simp
  rw [hsplit]
  exact stripLast_append name.ne name.slash

theorem doxygen_below (dir : Word) (name : Name) :
    doxygen <:+: dir ++ '/' :: name.chars ↔ doxygen <:+: dir ∨ doxygen <:+: name.chars :=
  infix_separated_iff (by decide) (by decide)

theorem prints_rounds (t : Tree) : ∀ dir vars, (doxygen <:+: dir ↔ doxygen <:+: root.chars) →
    Prints (linesOf root dir (t.shown root)) (rounds root t dir vars) := by
  induction t with
  | nil => exact fun _ vars _ => prints_pure vars
  | file name day rest ih =>
    intro dir vars hdir
    rw [rounds, Tree.shown]
    by_cases hhidden : name.hidden = true
    · rw [if_pos hhidden, if_pos hhidden]
      exact ih dir vars hdir
    · rw [if_neg hhidden, if_neg hhidden, linesOf_append]
      apply Prints.bind _ fun vars => ih dir vars hdir
      have hlines : linesOf root dir [⟨[], name.chars, day⟩] =
          url (replaceFirst root.chars hostname (dir ++ '/' :: name.chars)) day := by
        simp [linesOf, Page.path, joined]
      rw [hlines]
      exact prints_page root day _
  | dir name entries rest ihEntries ih =>
    intro dir vars hdir
    rw [rounds, Tree.shown]
    by_cases hhidden : name.hidden = true
    · have hout : ¬ Enters root name := fun h => Bool.false_ne_true (h.1.symm.trans hhidden)
      rw [if_pos hhidden, if_neg hout]
      exact ih dir vars hdir
    · rw [if_neg hhidden, linesOf_append]
      apply Prints.bind _ fun vars => ih dir vars hdir
      rw [enter]
      by_cases hdoxygen : doxygen <:+: dir ++ '/' :: name.chars
      · have hout : ¬ Enters root name := by
          rintro ⟨-, hroot, hname⟩
          rcases (doxygen_below dir name).mp hdoxygen with h | h
          · exact hroot (hdir.mp h)
          · exact hname h
        rw [if_neg hout, if_pos hdoxygen]
        exact prints_pure _
      · have hnone := hdoxygen
        rw [doxygen_below, not_or] at hnone
        have hin : Enters root name := ⟨eq_false_of_ne_true hhidden, mt hdir.mpr hnone.1, hnone.2⟩
        have hbelow : doxygen <:+: dir ++ '/' :: name.chars ↔ doxygen <:+: root.chars :=
          iff_of_false hdoxygen hin.2.1
        rw [if_pos hin, if_neg hdoxygen, linesOf_below]
        exact prints_call root (strip_name dir name) (fun vars => ihEntries _ vars hbelow) _

theorem joined_eq_cons {path : List Word} (h : path ≠ []) : ∃ u, joined path = '/' :: u := by
  obtain ⟨w, rest, rfl⟩ := List.exists_cons_of_ne_nil h
  exact ⟨_, joined_cons w rest⟩

theorem replaced {path : List Word} (h : path ≠ []) :
    replaceFirst root.chars hostname (stripLast '/' root.chars ++ joined path) = root.said path := by
  obtain ⟨u, hu⟩ := joined_eq_cons h
  rw [Root.said, hu]
  rcases stripLast_spec '/' root.chars with ⟨hlast, hsplit⟩ | ⟨hlast, hsame⟩
  · have hword : stripLast '/' root.chars ++ '/' :: u = root.chars ++ u := by
      conv_rhs => rw [hsplit]
      simp
    rw [if_pos hlast, hword, replaceFirst_append root.ne]
    rfl
  · rw [if_neg hlast, hsame, replaceFirst_append root.ne]

theorem path_ne_nil (p : Page) : p.path ≠ [] := by simp [Page.path]

theorem prints_siteMapGen (t : Tree) :
    Prints (opening ++ ((t.pages root).flatMap fun p => url (root.said p.path) p.lastmod) ++ closing)
      (siteMapGen root t) := by
  have hdir : doxygen <:+: stripLast '/' root.chars ↔ doxygen <:+: root.chars := by
    rcases stripLast_spec '/' root.chars with ⟨-, hsplit⟩ | ⟨-, hsame⟩
    · conv_rhs => rw [hsplit]
      rw [infix_separated_iff (by decide) (by decide), or_iff_left (by decide)]
    · rw [hsame]
  have hlines : linesOf root (stripLast '/' root.chars) (t.pages root) =
      (t.pages root).flatMap fun p => url (root.said p.path) p.lastmod := by
    unfold linesOf
    congr 1
    funext p
    rw [replaced root (path_ne_nil p)]
  rw [List.append_assoc, ← hlines]
  apply prints_echo
  apply Prints.bind (prints_call root rfl (fun vars => prints_rounds root t _ vars hdir) _)
  intro vars
  rw [← List.append_nil closing]
  exact prints_echo _ (prints_pure vars)

/-! ### Where the pages are said to be -/

theorem said_eq_iff {path : List Word} (h : path ≠ []) :
    root.said path = loc path ↔ root.chars.getLast? ≠ some '/' := by
  obtain ⟨u, hu⟩ := joined_eq_cons h
  rw [Root.said, loc, hu]
  by_cases hlast : root.chars.getLast? = some '/'
  · rw [if_pos hlast]
    refine iff_of_false (fun heq => ?_) (not_not.mpr hlast)
    have hlen := congrArg List.length (List.append_cancel_left heq)
    rw [List.drop_one, List.tail_cons, List.length_cons] at hlen
    omega
  · rw [if_neg hlast]
    exact iff_of_true rfl hlast

theorem url_inj {l l' lastmod lastmod' : Word} (h : url l lastmod = url l' lastmod') : l = l' := by
  obtain ⟨-, h⟩ := List.cons.inj h
  obtain ⟨hloc, -⟩ := List.cons.inj h
  exact List.append_cancel_left (List.append_cancel_right hloc)

theorem said_pages_iff (pages : List Page) :
    (pages.flatMap fun p => url (root.said p.path) p.lastmod) = (pages.flatMap fun p => url (loc p.path) p.lastmod) ↔
      root.chars.getLast? ≠ some '/' ∨ pages = [] := by
  constructor
  · intro heq
    cases pages with
    | nil => exact .inr rfl
    | cons p pages =>
      rw [List.flatMap_cons, List.flatMap_cons] at heq
      have hfirst := (List.append_inj heq rfl).1
      exact .inl ((said_eq_iff root (path_ne_nil p)).mp (url_inj hfirst))
  · rintro (hlast | rfl)
    · congr 1
      funext p
      rw [(said_eq_iff root (path_ne_nil p)).mpr hlast]
    · rfl

/-! ### Which pages there are -/

theorem shown_of_not_visible {t : Tree} (h : t.visible = false) : t.shown root = [] := by
  induction t with
  | nil => rfl
  | file name day rest ih =>
    rw [Tree.visible, Bool.or_eq_false_iff, Bool.not_eq_false'] at h
    rw [Tree.shown, if_pos h.1, ih h.2]
    rfl
  | dir name entries rest _ ih =>
    rw [Tree.visible, Bool.or_eq_false_iff, Bool.not_eq_false'] at h
    have hout : ¬ Enters root name := fun hin => Bool.false_ne_true (hin.1.symm.trans h.1)
    rw [Tree.shown, if_neg hout, ih h.2]
    rfl

theorem mem_pages (t : Tree) (p : Page) :
    p ∈ t.pages root ↔ p ∈ t.shown root ∨ t.visible = false ∧ p = star := by
  rw [Tree.pages]
  by_cases h : t.visible = true
  · rw [if_pos h]
    exact (or_iff_left fun hnot => Bool.false_ne_true (hnot.1.symm.trans h)).symm
  · have hnot : t.visible = false := eq_false_of_ne_true h
    rw [if_neg h, shown_of_not_visible root hnot, List.mem_singleton]
    simp [hnot]

theorem mem_shown (t : Tree) (p : Page) : p ∈ t.shown root ↔
    (p.dirs = [] ∧ ∃ name, (name, p.lastmod) ∈ t.files ∧ name.hidden = false ∧ p.leaf = name.chars) ∨
    ∃ name entries way, p.dirs = name :: way ∧ (name, entries) ∈ t.dirs ∧ Enters root name ∧
      ⟨way, p.leaf, p.lastmod⟩ ∈ entries.pages root := by
  obtain ⟨way, leaf, lastmod⟩ := p
  induction t with
  | nil => simp [Tree.shown, Tree.files, Tree.dirs]
  | file name day rest ih =>
    have hself : ⟨way, leaf, lastmod⟩ ∈ (if name.hidden = true then [] else [Page.mk [] name.chars day]) ↔
        way = [] ∧ lastmod = day ∧ name.hidden = false ∧ leaf = name.chars := by
      rw [List.mem_ite_nil_left, List.mem_singleton, Page.mk.injEq, Bool.not_eq_true]
      tauto
    rw [Tree.shown, List.mem_append, ih, hself, Tree.files, Tree.dirs, ← or_assoc, ← and_or_left]
    simp only [List.mem_cons, Prod.mk.injEq, or_and_right, exists_or, and_assoc, exists_eq_left]
  | dir name entries rest _ ih =>
    rw [Tree.shown, List.mem_append, ih, Tree.files, Tree.dirs, ← or_assoc, or_comm (b := way = [] ∧ _), or_assoc]
    refine or_congr_right ?_
    constructor
    · rintro (hself | ⟨n, e, w, hway, hmem, hin, hp⟩)
      · obtain ⟨hin, hself⟩ := List.mem_ite_nil_right.mp hself
        obtain ⟨p, hp, heq⟩ := List.mem_map.mp hself
        cases heq
        exact ⟨name, entries, p.dirs, rfl, List.mem_cons_self .., hin, hp⟩
      · exact ⟨n, e, w, hway, List.mem_cons_of_mem _ hmem, hin, hp⟩
    · rintro ⟨n, e, w, rfl, hmem, hin, hp⟩
      rcases List.mem_cons.mp hmem with heq | hmem
      · obtain ⟨rfl, rfl⟩ := Prod.mk.inj heq
        exact .inl (List.mem_ite_nil_right.mpr ⟨hin, List.mem_map.mpr ⟨_, hp, rfl⟩⟩)
      · exact .inr ⟨n, e, w, rfl, hmem, hin, hp⟩

theorem walked_nil {t u : Tree} : Walked root t [] u ↔ u = t := by
  constructor
  · intro h
    cases h
    rfl
  · rintro rfl
    exact .here _

theorem walked_cons {t u : Tree} {name : Name} {way : List Name} : Walked root t (name :: way) u ↔
    ∃ entries, (name, entries) ∈ t.dirs ∧ Enters root name ∧ Walked root entries way u := by
  constructor
  · intro h
    cases h with
    | enter hmem hin hrest => exact ⟨_, hmem, hin, hrest⟩
  · rintro ⟨entries, hmem, hin, hrest⟩
    exact .enter hmem hin hrest

theorem mem_pages_iff (p : Page) : ∀ t : Tree,
    p ∈ t.pages root ↔ ∃ u, Walked root t p.dirs u ∧ u.Shows p.leaf p.lastmod := by
  obtain ⟨way, leaf, lastmod⟩ := p
  induction way with
  | nil =>
    intro t
    rw [mem_pages, mem_shown]
    simp only [walked_nil, exists_eq_left, Tree.Shows, star, Page.mk.injEq, true_and]
    refine or_congr_left (or_iff_left ?_)
    rintro ⟨_, _, _, hdirs, -⟩
    cases hdirs
  | cons name way ih =>
    intro t
    rw [mem_pages, mem_shown]
    constructor
    · rintro ((⟨hway, -⟩ | ⟨n, entries, w, hway, hmem, hin, hp⟩) | ⟨-, hstar⟩)
      · cases hway
      · obtain ⟨rfl, rfl⟩ := List.cons.inj hway
        obtain ⟨u, hwalked, hshows⟩ := (ih entries).mp hp
        exact ⟨u, .enter hmem hin hwalked, hshows⟩
      · cases hstar
    · rintro ⟨u, hwalked, hshows⟩
      obtain ⟨entries, hmem, hin, hrest⟩ := (walked_cons root).mp hwalked
      exact .inl (.inr ⟨name, entries, way, rfl, hmem, hin, (ih entries).mpr ⟨u, hrest, hshows⟩⟩)

/-! ### Each page once -/

theorem name_ext {name name' : Name} (h : name.chars = name'.chars) : name = name' := by
  cases name
  cases name'
  obtain rfl := h
  rfl

theorem head_shown {t : Tree} {p : Page} (hp : p ∈ t.shown root) :
    ∃ name ∈ t.names, p.path.head? = some name.chars := by
  induction t with
  | nil => exact absurd hp List.not_mem_nil
  | file name day rest ih =>
    rcases List.mem_append.mp hp with hp | hp
    · obtain rfl := List.mem_singleton.mp (List.mem_ite_nil_left.mp hp).2
      exact ⟨name, List.mem_cons_self .., rfl⟩
    · obtain ⟨n, hn, hhead⟩ := ih hp
      exact ⟨n, List.mem_cons_of_mem _ hn, hhead⟩
  | dir name entries rest _ ih =>
    rcases List.mem_append.mp hp with hp | hp
    · obtain ⟨q, -, rfl⟩ := List.mem_map.mp (List.mem_ite_nil_right.mp hp).2
      exact ⟨name, List.mem_cons_self .., rfl⟩
    · obtain ⟨n, hn, hhead⟩ := ih hp
      exact ⟨n, List.mem_cons_of_mem _ hn, hhead⟩

theorem nodup_append {name : Name} {rest : Tree} (hname : name ∉ rest.names) {paths : List (List Word)}
    (hpaths : paths.Nodup) (hhead : ∀ path ∈ paths, path.head? = some name.chars)
    (hrest : ((rest.shown root).map Page.path).Nodup) : (paths ++ (rest.shown root).map Page.path).Nodup := by
  rw [List.nodup_append]
  refine ⟨hpaths, hrest, ?_⟩
  rintro path hpath path' hpath' rfl
  obtain ⟨p, hp, rfl⟩ := List.mem_map.mp hpath'
  obtain ⟨n, hn, hhead'⟩ := head_shown root hp
  have hsame : name = n := name_ext (Option.some.inj ((hhead _ hpath).symm.trans hhead'))
  exact hname (hsame ▸ hn)

theorem nodup_pages {t : Tree} (h : ((t.shown root).map Page.path).Nodup) :
    ((t.pages root).map Page.path).Nodup := by
  rw [Tree.pages]
  by_cases hvisible : t.visible = true
  · rwa [if_pos hvisible]
  · rw [if_neg hvisible]
    exact List.nodup_singleton _

theorem nodup_shown {t : Tree} (ht : t.Distinct) : ((t.shown root).map Page.path).Nodup := by
  induction t with
  | nil => exact List.nodup_nil
  | file name day rest ih =>
    rw [Tree.shown, List.map_append]
    apply nodup_append root ht.1 _ _ (ih ht.2)
    · by_cases hhidden : name.hidden = true
      · rw [if_pos hhidden]
        exact List.nodup_nil
      · rw [if_neg hhidden]
        exact List.nodup_singleton _
    · intro path hpath
      obtain ⟨p, hp, rfl⟩ := List.mem_map.mp hpath
      obtain rfl := List.mem_singleton.mp (List.mem_ite_nil_left.mp hp).2
      rfl
  | dir name entries rest ihEntries ih =>
    obtain ⟨hname, hentries, hrest⟩ := ht
    rw [Tree.shown, List.map_append]
    apply nodup_append root hname _ _ (ih hrest)
    · by_cases hin : Enters root name
      · rw [if_pos hin, List.map_map]
        have hbelow := (nodup_pages root (ihEntries hentries)).map (List.cons_injective (a := name.chars))
        rwa [List.map_map] at hbelow
      · rw [if_neg hin]
        exact List.nodup_nil
    · intro path hpath
      obtain ⟨p, hp, rfl⟩ := List.mem_map.mp hpath
      obtain ⟨q, -, rfl⟩ := List.mem_map.mp (List.mem_ite_nil_right.mp hp).2
      rfl

theorem slash_path {t : Tree} {p : Page} (hp : p ∈ t.pages root) : ∀ w ∈ p.path, '/' ∉ w := by
  obtain ⟨u, -, hshows⟩ := (mem_pages_iff root p t).mp hp
  intro w hw
  rcases List.mem_append.mp hw with hw | hw
  · obtain ⟨name, -, rfl⟩ := List.mem_map.mp hw
    exact name.slash
  · obtain rfl := List.mem_singleton.mp hw
    rcases hshows with ⟨name, -, -, hleaf⟩ | ⟨-, hleaf, -⟩
    · rw [hleaf]
      exact name.slash
    · rw [hleaf]
      decide

theorem takeWhile_joined (path : List Word) : (joined path).takeWhile (· ≠ '/') = [] := by
  cases path <;> rfl

theorem joined_injOn {path path' : List Word} (h : ∀ w ∈ path, '/' ∉ w) (h' : ∀ w ∈ path', '/' ∉ w)
    (heq : joined path = joined path') : path = path' := by
  induction path generalizing path' with
  | nil =>
    cases path' with
    | nil => rfl
    | cons w path' => cases heq
  | cons w path ih =>
    cases path' with
    | nil => cases heq
    | cons w' path' =>
      rw [List.forall_mem_cons] at h h'
      have hall : ∀ {v : Word}, '/' ∉ v → ∀ c ∈ v, decide (c ≠ '/') = true := fun hv c hc =>
        decide_eq_true fun heq => hv (heq ▸ hc)
      have htail : w ++ joined path = w' ++ joined path' := (List.cons.inj heq).2
      have hword := congrArg (List.takeWhile (· ≠ '/')) htail
      rw [List.takeWhile_append_of_pos (hall h.1), List.takeWhile_append_of_pos (hall h'.1), takeWhile_joined,
        takeWhile_joined, List.append_nil, List.append_nil] at hword
      subst hword
      rw [ih h.2 h'.2 (List.append_cancel_left htail)]

/-- **The map of a site**, for every tree and every argument that matches itself only. Whatever the calls do to each
other's variables, it has each page at its place, if and only if the argument does not end in a slash or there is no
page. The pages are what the directories that are walked show, and none is there twice. -/
theorem site_map_lists (t : Tree) (ht : t.Distinct) :
    (Prints (opening ++ ((t.pages root).flatMap fun p => url (loc p.path) p.lastmod) ++ closing) (siteMapGen root t) ↔
      root.chars.getLast? ≠ some '/' ∨ t.pages root = []) ∧
    (∀ p, p ∈ t.pages root ↔ ∃ u, Walked root t p.dirs u ∧ u.Shows p.leaf p.lastmod) ∧
    ((t.pages root).map fun p => loc p.path).Nodup := by
  obtain ⟨hprinted, hends⟩ := prints_siteMapGen root t
  refine ⟨?_, fun p => mem_pages_iff root p t, ?_⟩
  · rw [← said_pages_iff, Prints, hprinted, and_iff_left hends, List.append_left_inj, List.append_right_inj]
  · have hpaths := nodup_pages root (nodup_shown root ht)
    have hlocs := hpaths.map_on (f := loc) fun path hpath path' hpath' heq => by
      obtain ⟨p, hp, rfl⟩ := List.mem_map.mp hpath
      obtain ⟨p', hp', rfl⟩ := List.mem_map.mp hpath'
      exact joined_injOn (slash_path root hp) (slash_path root hp') (List.append_cancel_left heq)
    rwa [List.map_map] at hlocs

/-- A page, and a directory with a hidden file only. -/
def site : Tree :=
  .file ⟨['a'], by decide, by decide⟩ ['1'] (.dir ⟨['b'], by decide, by decide⟩
    (.file ⟨['.', 'c'], by decide, by decide⟩ ['2'] .nil) .nil)

theorem site_map_lists_site :
    let root : Root := ⟨['w'], by decide, by simp [special]⟩
    Prints (opening ++ (url (hostname ++ ['/', 'a']) ['1'] ++ url (hostname ++ ['/', 'b', '/', '*']) []) ++ closing)
      (siteMapGen root site) ∧ ((site.pages root).map fun p => loc p.path).Nodup := by
  intro root
  have hsite : site.Distinct := ⟨by decide, List.not_mem_nil, ⟨List.not_mem_nil, trivial⟩, trivial⟩
  have hlast : root.chars.getLast? ≠ some '/' := by decide
  obtain ⟨hprints, -, hnodup⟩ := site_map_lists root site hsite
  exact ⟨hprints.mpr (.inl hlast), hnodup⟩

end QDNix.SiteMap
