import SnakeOs.Lib.Shell

/-! Paths in a tree of directories without links, and the pathname expansion of the shell over it. -/

namespace SnakeOs.Lib

/-- The names from the root to a file. -/
abbrev Path := List Line

/-- A name that a directory can hold. -/
structure ProperName (n : Line) : Prop where
  nonempty : n ≠ []
  slash : '/' ∉ n
  dot : n ≠ ['.']
  dots : n ≠ ['.', '.']

instance (n : Line) : Decidable (ProperName n) :=
  decidable_of_iff (n ≠ [] ∧ '/' ∉ n ∧ n ≠ ['.'] ∧ n ≠ ['.', '.'])
    ⟨fun ⟨a, b, c, d⟩ => ⟨a, b, c, d⟩, fun ⟨a, b, c, d⟩ => ⟨a, b, c, d⟩⟩

/-- Directories and other files. -/
structure Tree where
  dirs : List Path
  others : List Path
  root : [] ∈ dirs
  closed : ∀ p ∈ dirs ++ others, p.dropLast ∈ dirs
  proper : ∀ p ∈ dirs ++ others, ∀ n ∈ p, ProperName n

/-- One name of a path. -/
def Tree.step (t : Tree) (p : Path) (n : Line) : Option Path :=
  if p ∉ t.dirs then none
  else if n = [] ∨ n = ['.'] then some p
  else if n = ['.', '.'] then some p.dropLast
  else if p ++ [n] ∈ t.dirs ++ t.others then some (p ++ [n]) else none

def Tree.walk (t : Tree) (p : Path) : List Line → Option Path
  | [] => some p
  | n :: ns => (t.step p n).bind fun q => t.walk q ns

/-- What a path stands for in a working directory. -/
def Tree.resolve (t : Tree) (cwd : Path) (text : Line) : Option Path :=
  if text = [] then none
  else t.walk (if text.head? = some '/' then [] else cwd) (text.splitOn '/')

/-- `readdir`. -/
def Tree.readdir (t : Tree) (p : Path) : List Line :=
  ['.'] :: ['.', '.'] ::
    (t.dirs ++ t.others).filterMap fun q => if q.dropLast = p then q.getLast? else none

/-- The names in a directory, given by its path with a slash behind it. -/
def Tree.entries (t : Tree) (cwd : Path) (text : Line) : List Line :=
  if text = [] then t.readdir cwd
  else match t.resolve cwd text with
    | some p => t.readdir p
    | none => []

/-- A set in a pattern has a member and an end. -/
def isSet (cs : Line) : Bool := ((if cs.head? = some '!' then cs.tail else cs).drop 1).contains ']'

/-- A component that `expmeta` reads a directory for. -/
def isMeta : Line → Bool
  | [] => false
  | c :: cs => c == '*' || c == '?' || (c == '[' && isSet cs) || isMeta cs

section
variable (t : Tree) (fits : Line → Line → Bool) (cwd : Path)

/-- A name that starts with a dot needs a pattern that does. -/
def namesFit (c n : Line) : Bool := (n.head? ≠ some '.' || c.head? = some '.') && fits c n

/-- `expmeta`, by components; `pre` is the path so far. -/
def Tree.expmeta : Line → List Line → List Line
  | _, [] => []
  | pre, [c] =>
    if isMeta c then ((t.entries cwd pre).filter (namesFit fits c)).map (pre ++ ·)
    else if (t.resolve cwd (pre ++ c)).isSome then [pre ++ c] else []
  | pre, c :: rest =>
    if isMeta c then ((t.entries cwd pre).filter (namesFit fits c)).flatMap fun n =>
      Tree.expmeta (pre ++ n ++ ['/']) rest
    else Tree.expmeta (pre ++ c ++ ['/']) rest

/-- The sorted names that a word is expanded to. -/
def Tree.glob (w : Line) : List Line :=
  (t.expmeta fits cwd [] (w.splitOn '/')).insertionSort (· ≤ ·)

end

theorem Tree.readdir_slash (t : Tree) (p : Path) : ∀ n ∈ t.readdir p, '/' ∉ n := by
  intro n hn
  simp only [readdir, List.mem_cons, List.mem_filterMap] at hn
  rcases hn with rfl | rfl | ⟨q, hq, hlast⟩
  · decide
  · decide
  · split at hlast
    · exact (t.proper q hq n (List.mem_of_getLast? hlast)).slash
    · cases hlast

theorem Tree.entries_slash (t : Tree) (cwd : Path) (text : Line) :
    ∀ n ∈ t.entries cwd text, '/' ∉ n := by
  unfold entries
  split
  · exact t.readdir_slash cwd
  · split
    · exact t.readdir_slash _
    · simp

section
variable {t : Tree} {fits : Line → Line → Bool} {cwd : Path}

/-- Every component stays or is a name that fits it. -/
theorem Tree.mem_expmeta {r : Line} : ∀ {pre : Line} {cs : List Line}, r ∈ t.expmeta fits cwd pre cs →
    ∃ ns, r = pre ++ ['/'].intercalate ns ∧
      List.Forall₂ (fun c n => n = c ∨ isMeta c = true ∧ namesFit fits c n = true ∧ '/' ∉ n) cs ns := by
  intro pre cs
  fun_induction Tree.expmeta t fits cwd pre cs with
  | case1 => simp
  | case2 pre c hmeta =>
    intro h
    obtain ⟨n, hn, rfl⟩ := List.mem_map.mp h
    obtain ⟨hn, hfit⟩ := List.mem_filter.mp hn
    exact ⟨[n], by simp, .cons (.inr ⟨hmeta, hfit, t.entries_slash cwd pre n hn⟩) .nil⟩
  | case3 pre c =>
    intro h
    exact ⟨[c], by simpa using h, .cons (.inl rfl) .nil⟩
  | case4 => simp
  | case5 pre c rest hne hmeta ih =>
    intro h
    obtain ⟨n, hn, hr⟩ := List.mem_flatMap.mp h
    obtain ⟨hn, hfit⟩ := List.mem_filter.mp hn
    obtain ⟨ns, rfl, hall⟩ := ih n hr
    cases ns with
    | nil =>
      cases hall
      exact absurd rfl (hne ·)
    | cons m ns =>
      refine ⟨n :: m :: ns, ?_, .cons (.inr ⟨hmeta, hfit, t.entries_slash cwd pre n hn⟩) hall⟩
      simp [List.intercalate_cons_cons]
  | case6 pre c rest hne hmeta ih =>
    intro h
    obtain ⟨ns, rfl, hall⟩ := ih h
    cases ns with
    | nil =>
      cases hall
      exact absurd rfl (hne ·)
    | cons m ns =>
      refine ⟨c :: m :: ns, ?_, .cons (.inl rfl) hall⟩
      simp [List.intercalate_cons_cons]

end

end SnakeOs.Lib
