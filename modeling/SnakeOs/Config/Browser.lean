import SnakeOs.Config.Forms
import SnakeOs.Lib.Glob

/-! The folder browser `filebrowser.cgi`: which directories `list_dir` lists. -/

namespace SnakeOs.Config
open Lib

/-- The device that the page runs on: `fits` is `fnmatch`. -/
structure Device where
  tree : Tree
  fits : Line → Line → Bool
  cwd : Path

def Device.files (d : Device) : Line → List Line := metaOnly (d.tree.glob d.fits d.cwd)

/-- What `echo ${VALUE}` prints. -/
def printedValue (d : Device) (value : Line) : List Char := echo (unquoted d.files [blankLines value])

/-- `CURDIR=$(echo ${FORM_folder} | cut -d ' ' -f 1)`. -/
def curdir (d : Device) (folder : Line) : Line :=
  cmdSubst ((fileLines (printedValue d folder)).flatMap fun l => cutField ' ' 1 l ++ ['\n'])

/-- `sed 's,\.\.,,g'`: a newline or a NUL byte ends a line, and is printed again. -/
def sedDots (line : Line) : List Char → List Char
  | [] => sedDelete ['.', '.'] line
  | c :: cs =>
    if c = '\n' ∨ c = '\x00' then sedDelete ['.', '.'] line ++ c :: sedDots [] cs
    else sedDots (line ++ [c]) cs

/-- `$(echo $CURDIR | sed 's,\.\.,,g')`. -/
def cleared (d : Device) (folder : Line) : Line :=
  cmdSubst (sedDots [] (printedValue d (curdir d folder)))

def usbName : Line := "usb".toList

def usb : Path := [usbName]

/-- `/usb/$(...)` as words. -/
def findWords (d : Device) (folder : Line) : List Line :=
  splitWords ('/' :: (usbName ++ '/' :: blankLines (cleared d folder)))

/-- The paths that `find` starts from: the arguments in front of its expression. -/
def findPaths (d : Device) (folder : Line) : List Line :=
  ((findWords d folder).flatMap (expandWord d.files)).takeWhile fun w =>
    w.head? ≠ some '-' && w ≠ ['!'] && w ≠ ['(']

/-- The directories that `list_dir` lists. -/
def listDir (d : Device) (folder : Line) : List Path :=
  ((findPaths d folder).filterMap (d.tree.resolve d.cwd)).filter (· ∈ d.tree.dirs)

/-- The names of a path behind `/usb`. -/
def behindUsb (w : Line) : Option (List Line) :=
  match w.splitOn '/' with
  | [] :: n :: ns => if n = usbName then some ns else none
  | _ => none

/-- The names, read from `k` levels below a directory on, never lead above it. -/
def staysBelow : Nat → List Line → Bool
  | _, [] => true
  | k, n :: ns =>
    if n = [] ∨ n = ['.'] then staysBelow k ns
    else if n = ['.', '.'] then k ≠ 0 && staysBelow (k - 1) ns
    else staysBelow (k + 1) ns

/-- Every path of `find` that names a directory starts with `/usb` and never leads above it. -/
def Inside (d : Device) (folder : Line) : Prop :=
  ∀ w ∈ findPaths d folder, (∃ p ∈ d.tree.dirs, d.tree.resolve d.cwd w = some p) →
    (behindUsb w).any (staysBelow 0) = true

/-- No path of `find` names `usb` a second time. -/
def NoReturn (d : Device) (folder : Line) : Prop :=
  ∀ w ∈ findPaths d folder, usbName ∉ (behindUsb w).getD (w.splitOn '/')

/-- A pattern that takes the parent of a directory for one of its names. -/
def climbs (fits : Line → Line → Bool) (c : Line) : Bool := isMeta c && namesFit fits c ['.', '.']

/-- No NUL byte is printed for the folder, which is left as one word, and none of its components
is a pattern for `..`. -/
structure Contained (d : Device) (folder : Line) : Prop where
  nul : '\x00' ∉ printedValue d (curdir d folder)
  word : ∃ w, findWords d folder = [w] ∧ ∀ c ∈ w.splitOn '/', climbs d.fits c = false

/-- What starts with no dot still starts with none. -/
theorem sedDelete_head {l : Line} (h : l.head? ≠ some '.') :
    (sedDelete ['.', '.'] l).head? ≠ some '.' := by
  cases l with
  | nil => simp [sedDelete, sedDeleteFrom]
  | cons c cs =>
    have hc : c ≠ '.' := by simpa using h
    simp [sedDelete, sedDeleteFrom, List.isPrefixOf, Ne.symm hc, hc]

/-- Deleting pairs of dots leaves none: a kept dot has no dot behind it. -/
theorem sedDelete_dots (n : Nat) (l : Line) : ¬ ['.', '.'] <:+: sedDeleteFrom ['.', '.'] n l := by
  fun_induction sedDeleteFrom ['.', '.'] n l with
  | case1 => simp
  | case2 n c cs ih => exact ih
  | case3 c cs hp ih => exact ih
  | case4 c cs hp ih =>
    rw [List.infix_cons_iff, not_or]
    refine ⟨fun hpre => ?_, ih⟩
    obtain ⟨rfl, hdot⟩ := List.cons_prefix_cons.mp hpre
    have hhead : cs.head? ≠ some '.' := by
      intro hd
      obtain ⟨rest, rfl⟩ := List.head?_eq_some_iff.mp hd
      exact hp (by simp [List.isPrefixOf])
    obtain ⟨rest, hrest⟩ := hdot
    exact sedDelete_head hhead (by rw [sedDelete, ← hrest]; rfl)

section
variable {t : Tree} {p q : Path}

theorem step_cases {n : Line} (h : t.step p n = some q) :
    (n = [] ∨ n = ['.']) ∧ q = p ∨ n = ['.', '.'] ∧ q = p.dropLast ∨
      (n ≠ [] ∧ n ≠ ['.'] ∧ n ≠ ['.', '.']) ∧ q = p ++ [n] := by
  rw [Tree.step] at h
  split_ifs at h with hdir hdot hdots hm
  · exact .inl ⟨hdot, (Option.some.inj h).symm⟩
  · exact .inr (.inl ⟨hdots, (Option.some.inj h).symm⟩)
  · obtain ⟨hempty, hone⟩ := not_or.mp hdot
    exact .inr (.inr ⟨⟨hempty, hone, hdots⟩, (Option.some.inj h).symm⟩)

/-- Names that never lead above `/usb` end in it. -/
theorem walk_below {r : Path} {ns : List Line} (h : t.walk (usb ++ r) ns = some q)
    (hn : staysBelow r.length ns = true) : usb <+: q := by
  induction ns generalizing r with
  | nil =>
    obtain rfl := Option.some.inj h
    exact List.prefix_append usb r
  | cons n ns ih =>
    obtain ⟨p, hp, hq⟩ := Option.bind_eq_some_iff.mp h
    rw [staysBelow] at hn
    rcases step_cases hp with ⟨hdot, rfl⟩ | ⟨rfl, rfl⟩ | ⟨⟨hempty, hone, hdots⟩, rfl⟩
    · rw [if_pos hdot] at hn
      exact ih hq hn
    · rw [if_neg (by decide), if_pos rfl, Bool.and_eq_true, decide_eq_true_eq] at hn
      have hr : r ≠ [] := fun he => hn.1 (he ▸ rfl)
      rw [List.dropLast_append_of_ne_nil hr] at hq
      exact ih hq (by rw [List.length_dropLast]; exact hn.2)
    · rw [if_neg (not_or.mpr ⟨hempty, hone⟩), if_neg hdots] at hn
      rw [List.append_assoc] at hq
      exact ih hq (by rw [List.length_append]; exact hn)

/-- From outside no path comes into `/usb` but by its name. -/
theorem walk_outside {ns : List Line} (h : t.walk p ns = some q) (hp : ¬ usb <+: p)
    (hn : usbName ∉ ns) : ¬ usb <+: q := by
  induction ns generalizing p with
  | nil => exact Option.some.inj h ▸ hp
  | cons n ns ih =>
    obtain ⟨hne, hns⟩ := not_or.mp (List.mem_cons.not.mp hn)
    obtain ⟨r, hr, hq⟩ := Option.bind_eq_some_iff.mp h
    refine ih hq (fun husb => hp ?_) hns
    rcases step_cases hr with ⟨-, rfl⟩ | ⟨-, rfl⟩ | ⟨-, rfl⟩
    · exact husb
    · exact husb.trans (List.dropLast_prefix p)
    · rcases List.prefix_concat_iff.mp husb with he | husb
      · have hlast : [] ++ [usbName] = p ++ [n] := he
        exact absurd (List.append_inj' hlast rfl).2 (by simpa using hne)
      · exact husb

/-- Names that lead above `/usb` end outside when they do not name it again. -/
theorem walk_above {r : Path} {ns : List Line} (h : t.walk (usb ++ r) ns = some q)
    (hn : staysBelow r.length ns = false) (husb : usbName ∉ ns) : ¬ usb <+: q := by
  induction ns generalizing r with
  | nil => cases hn
  | cons n ns ih =>
    obtain ⟨-, hns⟩ := not_or.mp (List.mem_cons.not.mp husb)
    obtain ⟨p, hp, hq⟩ := Option.bind_eq_some_iff.mp h
    rw [staysBelow] at hn
    rcases step_cases hp with ⟨hdot, rfl⟩ | ⟨rfl, rfl⟩ | ⟨⟨hempty, hone, hdots⟩, rfl⟩
    · rw [if_pos hdot] at hn
      exact ih hq hn hns
    · rw [if_neg (by decide), if_pos rfl] at hn
      cases r with
      | nil => exact walk_outside hq (by decide) hns
      | cons m r =>
        rw [List.dropLast_append_of_ne_nil (List.cons_ne_nil m r)] at hq
        exact ih hq (by rw [List.length_dropLast]; simpa using hn) hns
    · rw [if_neg (not_or.mpr ⟨hempty, hone⟩), if_neg hdots] at hn
      rw [List.append_assoc] at hq
      exact ih hq (by rw [List.length_append]; exact hn) hns

theorem behindUsb_eq {w : Line} {ns : List Line} :
    behindUsb w = some ns ↔ w.splitOn '/' = [] :: usbName :: ns := by
  unfold behindUsb
  split
  · rename_i n ms hsplit
    rw [hsplit]
    split_ifs with hn
    · simp [hn]
    · simp [hn]
  · rename_i hother
    exact ⟨nofun, fun h => absurd h (hother _ _)⟩

/-- A path behind `/usb` is walked from there. -/
theorem resolve_behind {cwd : Path} {w : Line} {ns : List Line} (hw : behindUsb w = some ns)
    (h : t.resolve cwd w = some q) : t.walk usb ns = some q := by
  have hsplit := behindUsb_eq.mp hw
  have hhead : w.head? = some '/' := by
    have hjoin : ['/'].intercalate (w.splitOn '/') = w := List.intercalate_splitOn '/'
    rw [← hjoin, hsplit, List.intercalate_cons_cons]
    rfl
  rw [Tree.resolve, if_neg (fun he => by rw [he] at hhead; cases hhead), if_pos hhead, hsplit,
    Tree.walk, Tree.step, if_neg (not_not.mpr t.root), if_pos (.inl rfl), Option.bind_some,
    Tree.walk] at h
  obtain ⟨r, hr, hq⟩ := Option.bind_eq_some_iff.mp h
  rcases step_cases hr with ⟨hdot, -⟩ | ⟨hdots, -⟩ | ⟨-, rfl⟩
  · exact absurd hdot (by decide)
  · exact absurd hdots (by decide)
  · exact hq

theorem staysBelow_down {k : Nat} {ns : List Line} (h : ['.', '.'] ∉ ns) :
    staysBelow k ns = true := by
  induction ns generalizing k with
  | nil => rfl
  | cons n ns ih =>
    obtain ⟨hne, hns⟩ := not_or.mp (List.mem_cons.not.mp h)
    rw [staysBelow, if_neg (Ne.symm hne)]
    split_ifs <;> exact ih hns

end

theorem mem_sedDelete {pat : Line} (n : Nat) (l : Line) : ∀ c ∈ sedDeleteFrom pat n l, c ∈ l := by
  fun_induction sedDeleteFrom pat n l with
  | case1 => simp
  | case2 n c cs ih => exact fun x hx => List.mem_cons_of_mem c (ih x hx)
  | case3 c cs hp ih => exact fun x hx => List.mem_cons_of_mem c (ih x hx)
  | case4 c cs hp ih =>
    intro x hx
    rcases List.mem_cons.mp hx with rfl | hx
    · exact List.mem_cons_self
    · exact List.mem_cons_of_mem c (ih x hx)

theorem mem_sedDots (text : List Char) (line : Line) : ∀ c ∈ sedDots line text, c ∈ line ∨ c ∈ text := by
  fun_induction sedDots line text with
  | case1 line => exact fun c hc => .inl (mem_sedDelete 0 line c hc)
  | case2 line c cs hend ih =>
    intro x hx
    rcases List.mem_append.mp hx with hx | hx
    · exact .inl (mem_sedDelete 0 line x hx)
    · rcases List.mem_cons.mp hx with rfl | hx
      · exact .inr List.mem_cons_self
      · rcases ih x hx with h | h
        · cases h
        · exact .inr (List.mem_cons_of_mem c h)
  | case3 line c cs hend ih =>
    intro x hx
    rcases ih x hx with h | h
    · rcases List.mem_append.mp h with h | h
      · exact .inl h
      · exact .inr (List.mem_singleton.mp h ▸ List.mem_cons_self)
    · exact .inr (List.mem_cons_of_mem c h)

/-- A pair of dots does not reach over another character. -/
theorem dots_within {a b : Line} {c : Char} (hc : c ≠ '.') (h : ['.', '.'] <:+: a ++ c :: b) :
    ['.', '.'] <:+: a ∨ ['.', '.'] <:+: b := by
  induction a with
  | nil =>
    rcases List.infix_cons_iff.mp h with h | h
    · exact absurd (List.cons_prefix_cons.mp h).1.symm hc
    · exact .inr h
  | cons x a ih =>
    rcases List.infix_cons_iff.mp h with h | h
    · refine .inl (List.IsPrefix.isInfix ?_)
      obtain ⟨rfl, hrest⟩ := List.cons_prefix_cons.mp h
      cases a with
      | nil => exact absurd (List.cons_prefix_cons.mp hrest).1.symm hc
      | cons y a =>
        obtain ⟨rfl, -⟩ := List.cons_prefix_cons.mp hrest
        exact ⟨a, rfl⟩
    · exact (ih h).imp_left fun h => List.infix_cons h

/-- The filter leaves no pair of dots in any line. -/
theorem sedDots_none (line : Line) (text : List Char) : ¬ ['.', '.'] <:+: sedDots line text := by
  fun_induction sedDots line text with
  | case1 line => exact sedDelete_dots 0 line
  | case2 line c cs hend ih =>
    intro h
    have hc : c ≠ '.' := by
      rintro rfl
      rcases hend with h | h <;> cases h
    exact (dots_within hc h).elim (sedDelete_dots 0 line) ih
  | case3 line c cs hend ih => exact ih

section
variable {d : Device} {folder : Line}

theorem cleared_dots (h : '\x00' ∉ printedValue d (curdir d folder)) :
    ¬ ['.', '.'] <:+: cleared d folder := by
  have hnul : (sedDots [] (printedValue d (curdir d folder))).filter (· ≠ '\x00') =
      sedDots [] (printedValue d (curdir d folder)) := by
    refine List.filter_eq_self.mpr fun c hc => decide_eq_true ?_
    rintro rfl
    rcases mem_sedDots _ _ _ hc with hm | hm
    · cases hm
    · exact h hm
  intro hin
  rw [cleared, cmdSubst, hnul] at hin
  exact sedDots_none _ _ (hin.trans (List.rdropWhile_prefix _ _).isInfix)

theorem blankLines_dots {v : Line} (h : ['.', '.'] <:+: blankLines v) : ['.', '.'] <:+: v := by
  obtain ⟨a, b, hab⟩ := h
  obtain ⟨v1, v3, rfl, h1, -⟩ := List.map_eq_append_iff.mp hab.symm
  obtain ⟨x, v2, rfl, -, hdots⟩ := List.map_eq_append_iff.mp h1
  obtain ⟨c, e, rfl, hc, he⟩ : ∃ c e, v2 = [c, e] ∧ c = '.' ∧ e = '.' := by
    rcases v2 with _ | ⟨c, _ | ⟨e, _ | ⟨f, v2⟩⟩⟩ <;> simp at hdots
    refine ⟨c, e, rfl, ?_, ?_⟩
    · have := hdots.1
      split_ifs at this
      · exact absurd this (by decide)
      · exact this
    · have := hdots.2
      split_ifs at this
      · exact absurd this (by decide)
      · exact this
  exact ⟨x, v3, by rw [hc, he]⟩

theorem infix_intercalate {ns : List Line} {n : Line} (h : n ∈ ns) : n <:+: ['/'].intercalate ns := by
  induction ns with
  | nil => cases h
  | cons m ns ih =>
    cases ns with
    | nil =>
      obtain rfl := List.mem_singleton.mp h
      exact ⟨[], [], by simp⟩
    | cons k ns =>
      rw [List.intercalate_cons_cons, List.append_assoc]
      rcases List.mem_cons.mp h with rfl | h
      · exact (List.prefix_append n _).isInfix
      · obtain ⟨a, b, hab⟩ := ih h
        exact ⟨m ++ '/' :: a, b, by rw [← hab]; simp⟩

/-- The word that is looked for starts with `/usb/`. -/
theorem findWords_usb {w : Line} (hw : findWords d folder = [w]) :
    ∃ x, w = '/' :: (usbName ++ '/' :: x) := by
  obtain ⟨a, b, htext, ha, hb, -⟩ := splitWords_first hw
  have hstart : a = [] := by
    cases a with
    | nil => rfl
    | cons c a =>
      have hc : c = '/' := (List.cons.inj htext).1.symm
      have := ha c List.mem_cons_self
      rw [hc] at this
      cases this
  have htext : ('/' :: (usbName ++ ['/'])) ++ blankLines (cleared d folder) = w ++ b := by
    rw [hstart, List.nil_append] at htext
    rw [← htext]
    simp
  rcases List.append_eq_append_iff.mp htext with ⟨x, rfl, -⟩ | ⟨x, hx, hrest⟩
  · exact ⟨x, by simp⟩
  · cases x with
    | nil => exact ⟨[], by simpa using hx.symm⟩
    | cons c x =>
      -- no blank is in `/usb/`
      have hc := hb c (by rw [hrest]; rfl)
      have hmem : c ∈ '/' :: (usbName ++ ['/']) := by rw [hx]; simp
      have hnone : ∀ c ∈ '/' :: (usbName ++ ['/']), isBlank c = false := by decide
      rw [hnone c hmem] at hc
      cases hc

/-- The paths that a word of `find` becomes have a name for each of its components. -/
theorem expandWord_names {w r : Line} (hr : r ∈ expandWord d.files w) :
    ∃ ns, r = ['/'].intercalate ns ∧ List.Forall₂ (fun c n => n = c ∨
      isMeta c = true ∧ namesFit d.fits c n = true ∧ '/' ∉ n) (w.splitOn '/') ns := by
  rcases mem_expandWord hr with rfl | hr
  · exact ⟨r.splitOn '/', (List.intercalate_splitOn '/').symm,
      List.forall₂_same.mpr fun c _ => .inl rfl⟩
  · unfold Device.files metaOnly at hr
    split at hr
    · exact Tree.mem_expmeta ((List.mem_insertionSort _).mp hr)
    · cases hr

/-- Where no component is a pattern for `..`, the names have none. -/
theorem names_down {cs ns : List Line} (hns : List.Forall₂ (fun c n => n = c ∨
      isMeta c = true ∧ namesFit d.fits c n = true ∧ '/' ∉ n) cs ns)
    (hslash : ∀ c ∈ cs, '/' ∉ c) (hdots : ['.', '.'] ∉ cs) (hclimb : ∀ c ∈ cs, climbs d.fits c = false) :
    (∀ n ∈ ns, '/' ∉ n) ∧ ['.', '.'] ∉ ns := by
  induction hns with
  | nil => exact ⟨by simp, List.not_mem_nil⟩
  | @cons c n cs ns hcn _ ih =>
    obtain ⟨hs, hd⟩ := ih (fun x hx => hslash x (List.mem_cons_of_mem c hx))
      (fun hm => hdots (List.mem_cons_of_mem c hm)) fun x hx => hclimb x (List.mem_cons_of_mem c hx)
    rcases hcn with rfl | ⟨hmeta, hfit, hn⟩
    · refine ⟨by simpa using ⟨hslash n List.mem_cons_self, hs⟩, ?_⟩
      rw [List.mem_cons, not_or]
      exact ⟨fun he => hdots (by simp [← he]), hd⟩
    · refine ⟨by simpa using ⟨hn, hs⟩, ?_⟩
      rw [List.mem_cons, not_or]
      refine ⟨?_, hd⟩
      rintro rfl
      have hc := hclimb c List.mem_cons_self
      rw [climbs, hmeta, hfit] at hc
      cases hc

/-- The filter leaves a contained folder inside: its words have no `..`, nor what they are
expanded to. -/
theorem Contained.inside (h : Contained d folder) : Inside d folder := by
  obtain ⟨w, hw, hclimb⟩ := h.word
  have hdots : ¬ ['.', '.'] <:+: w := by
    intro hin
    have hword : w <:+: '/' :: (usbName ++ '/' :: blankLines (cleared d folder)) :=
      (mem_splitWords w (by rw [← findWords, hw]; exact List.mem_singleton.mpr rfl)).2
    have hall : ['.', '.'] <:+: ('/' :: usbName) ++ '/' :: blankLines (cleared d folder) :=
      hin.trans hword
    rcases dots_within (by decide) hall with h' | h'
    · exact absurd (h'.subset List.mem_cons_self) (by decide)
    · exact cleared_dots h.nul (blankLines_dots h')
  intro r hr _
  have hr : r ∈ expandWord d.files w := by
    have := List.takeWhile_subset _ hr
    rwa [hw, List.flatMap_singleton] at this
  obtain ⟨ns, rfl, hns⟩ := expandWord_names hr
  obtain ⟨hslash, hdown⟩ := names_down hns (not_mem_splitOn '/' w) (fun hm => hdots (by
    have := infix_intercalate hm
    rwa [List.intercalate_splitOn] at this)) hclimb
  obtain ⟨x, rfl⟩ := findWords_usb hw
  have hsplit : ('/' :: (usbName ++ '/' :: x)).splitOn '/' = [] :: usbName :: x.splitOn '/' := by
    have hempty : ([] ++ '/' :: (usbName ++ '/' :: x)).splitOn '/' =
        [] :: (usbName ++ '/' :: x).splitOn '/' :=
      List.splitOn_append_cons_self_of_not_mem List.not_mem_nil _
    rw [List.nil_append] at hempty
    rw [hempty, List.splitOn_append_cons_self_of_not_mem (by decide)]
  rw [hsplit] at hns
  cases hns with
  | cons hempty hns =>
    cases hns with
    | @cons _ n _ ns husb hns =>
      obtain rfl := hempty.resolve_right fun hm => absurd hm.1 (by decide)
      obtain rfl := husb.resolve_right fun hm => absurd hm.1 (by decide)
      have hbehind : behindUsb (['/'].intercalate ([] :: usbName :: ns)) = some ns :=
        behindUsb_eq.mpr (List.splitOn_intercalate '/' hslash (List.cons_ne_nil _ _))
      rw [hbehind]
      exact staysBelow_down fun hm => hdown (by simp [hm])

/-- What is listed lies in `/usb` when the paths of `find` never lead above it, and only then
unless one comes back by the name. The filter leaves nothing that leads above but patterns. -/
theorem listDir_usb (d : Device) (folder : Line) :
    (Inside d folder → ∀ p ∈ listDir d folder, usb <+: p) ∧
    (¬ usb <+: d.cwd → NoReturn d folder → (∀ p ∈ listDir d folder, usb <+: p) →
      Inside d folder) ∧
    (Contained d folder → Inside d folder) := by
  refine ⟨fun h p hp => ?_, fun hcwd hreturn hall w hw hdir => ?_, Contained.inside⟩
  · obtain ⟨hp, hdir⟩ := List.mem_filter.mp hp
    obtain ⟨w, hw, hresolve⟩ := List.mem_filterMap.mp hp
    have hany := h w hw ⟨p, of_decide_eq_true hdir, hresolve⟩
    cases hb : behindUsb w with
    | none =>
      rw [hb] at hany
      cases hany
    | some ns =>
      rw [hb] at hany
      exact walk_below (r := []) (resolve_behind hb hresolve) hany
  · obtain ⟨p, hp, hresolve⟩ := hdir
    have husb : usb <+: p := hall p (List.mem_filter.mpr
      ⟨List.mem_filterMap.mpr ⟨w, hw, hresolve⟩, decide_eq_true hp⟩)
    have hnone := hreturn w hw
    cases hb : behindUsb w with
    | none =>
      rw [hb, Option.getD_none] at hnone
      rw [Tree.resolve] at hresolve
      split_ifs at hresolve with hempty hroot
      · exact absurd husb (walk_outside hresolve (by decide) hnone)
      · exact absurd husb (walk_outside hresolve hcwd hnone)
    | some ns =>
      rw [hb, Option.getD_some] at hnone
      rw [Option.any_some]
      by_contra hs
      exact walk_above (r := []) (resolve_behind hb hresolve) (by simpa using hs) hnone husb

end

/-- A disk with one folder. -/
def oneFolder : Tree where
  dirs := [[], usb, usb ++ [['x']]]
  others := []
  root := List.mem_cons_self
  closed := by decide
  proper := by decide

def oneFolderDevice : Device := ⟨oneFolder, fnmatchAll, []⟩

/-- A pattern that goes up from `x` and down again, and one that fits nothing. -/
theorem listDir_usb_x :
    (listDir oneFolderDevice "x/.?/x".toList ≠ [] ∧
      ∀ p ∈ listDir oneFolderDevice "x/.?/x".toList, usb <+: p) ∧
    Inside oneFolderDevice "nosuch/.?".toList ∧ Inside oneFolderDevice ['x'] := by
  have hup : Inside oneFolderDevice "x/.?/x".toList := by
    intro w hw _
    have hpaths : findPaths oneFolderDevice "x/.?/x".toList = ["/usb/x/../x".toList] := by
      decide +kernel
    rw [hpaths, List.mem_singleton] at hw
    rw [hw]
    decide
  refine ⟨⟨by decide +kernel, (listDir_usb oneFolderDevice _).1 hup⟩,
    (listDir_usb oneFolderDevice _).2.1 (by decide) ?_ (by decide +kernel),
    (listDir_usb oneFolderDevice _).2.2 ⟨by decide +kernel, "/usb/x".toList, by decide +kernel,
      by decide +kernel⟩⟩
  unfold NoReturn
  decide +kernel

/-- The pattern `.?` goes up twice. -/
theorem listDir_root : ¬ ∀ p ∈ listDir oneFolderDevice "x/.?/.?".toList, usb <+: p := by
  have hroot : [] ∈ listDir oneFolderDevice "x/.?/.?".toList := by decide +kernel
  intro h
  exact absurd (h [] hroot) (by decide)

end SnakeOs.Config
