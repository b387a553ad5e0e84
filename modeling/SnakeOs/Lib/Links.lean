import SnakeOs.Lib.Glob

/-! Paths in a tree with symbolic links. -/

namespace SnakeOs.Lib

inductive Node
  | dir
  | file
  | link (target : Line)
deriving DecidableEq

structure LinkTree where
  entries : List (Path × Node)
  root : entries.lookup [] = some .dir
  closed : ∀ e ∈ entries, entries.lookup e.1.dropLast = some .dir
  proper : ∀ e ∈ entries, ∀ n ∈ e.1, ProperName n ∧ '\x00' ∉ n

def LinkTree.node (t : LinkTree) (p : Path) : Option Node := t.entries.lookup p

/-- Where a path starts. -/
def pathStart (cwd : Path) (text : Line) : Path := if text.head? = some '/' then [] else cwd

/-- The components of a path, up to the first link, which `follow` goes through. -/
def LinkTree.walkTo (t : LinkTree) (follow : Path → Line → List Line → Option Path) (p : Path) :
    List Line → Option Path
  | [] => some p
  | n :: ns =>
    if t.node p ≠ some .dir then none
    else if n = [] ∨ n = ['.'] then t.walkTo follow p ns
    else if n = ['.', '.'] then t.walkTo follow p.dropLast ns
    else match t.node (p ++ [n]) with
      | none => none
      | some (.link target) => follow p target ns
      | some _ => t.walkTo follow (p ++ [n]) ns

/-- The components of a path through at most so many links. -/
def LinkTree.walk (t : LinkTree) : Nat → Path → List Line → Option Path
  | 0 => t.walkTo fun _ _ _ => none
  | k + 1 => t.walkTo fun p target ns =>
    if target = [] then none else t.walk k (pathStart p target) (target.splitOn '/' ++ ns)

/-- What a path stands for: the names of the file without any link on the way. -/
def LinkTree.resolve (t : LinkTree) (limit : Nat) (cwd : Path) (text : Line) : Option Path :=
  if text = [] then none else t.walk limit (pathStart cwd text) (text.splitOn '/')

/-- A path from the root as text. -/
def pathText (p : Path) : Line := if p = [] then ['/'] else ['/'].intercalate ([] :: p)

/-- A file that is no link. -/
def LinkTree.Canonical (t : LinkTree) (p : Path) : Prop := t.node p = some .dir ∨ t.node p = some .file

section
variable {t : LinkTree} {p q : Path} {limit : Nat} {cwd : Path}

theorem LinkTree.node_root : t.node [] = some .dir := t.root

theorem LinkTree.entry (h : t.node p ≠ none) : ∃ e ∈ t.entries, e.1 = p := by
  obtain ⟨x, hx⟩ := Option.ne_none_iff_exists'.mp h
  obtain ⟨as, bs, he, -⟩ := List.lookup_eq_some_iff.mp hx
  exact ⟨(p, x), by simp [he], rfl⟩

theorem LinkTree.parent_dir (h : t.node p ≠ none) : t.node p.dropLast = some .dir := by
  obtain ⟨e, he, rfl⟩ := LinkTree.entry h
  exact t.closed e he

theorem LinkTree.proper_names (h : t.node p ≠ none) : ∀ n ∈ p, ProperName n ∧ '\x00' ∉ n := by
  obtain ⟨e, he, rfl⟩ := LinkTree.entry h
  exact t.proper e he

/-- Everything on the way to a file is a directory. -/
theorem LinkTree.way_dir (ns : List Line) (h : t.node (q ++ ns) ≠ none) (hne : ns ≠ []) :
    t.node q = some .dir := by
  induction ns using List.reverseRecOn with
  | nil => exact absurd rfl hne
  | append_singleton ns n ih =>
    have hparent := LinkTree.parent_dir h
    rw [← List.append_assoc, List.dropLast_concat] at hparent
    cases ns with
    | nil => rwa [List.append_nil] at hparent
    | cons m ns => exact ih (by rw [hparent]; simp) (List.cons_ne_nil m ns)

theorem LinkTree.Canonical.exists (h : t.Canonical p) : t.node p ≠ none := by
  rcases h with h | h <;> rw [h] <;> simp

theorem LinkTree.walkTo_canonical {follow : Path → Line → List Line → Option Path}
    (hf : ∀ p target ns q, t.node p = some .dir → follow p target ns = some q → t.Canonical q)
    {ns : List Line} (hp : t.Canonical p) (h : t.walkTo follow p ns = some q) : t.Canonical q := by
  fun_induction LinkTree.walkTo t follow p ns with
  | case1 p => exact Option.some.inj h ▸ hp
  | case2 => cases h
  | case3 p n ns hdir hn ih => exact ih hp h
  | case4 p ns hdir hn ih => exact ih (.inl (LinkTree.parent_dir (LinkTree.Canonical.exists hp))) h
  | case5 => cases h
  | case6 p n ns hdir hn hdots target hlink => exact hf p target ns q (by simpa using hdir) h
  | case7 p n ns hdir hn hdots x hx hnode ih =>
    refine ih ?_ h
    cases x with
    | dir => exact .inl hnode
    | file => exact .inr hnode
    | link target => exact absurd rfl (hx target)

theorem LinkTree.walk_canonical {ns : List Line} (hp : t.Canonical p)
    (h : t.walk limit p ns = some q) : t.Canonical q := by
  induction limit generalizing p q ns with
  | zero => exact LinkTree.walkTo_canonical (fun _ _ _ _ _ h => by cases h) hp h
  | succ k ih =>
    refine LinkTree.walkTo_canonical (fun p target ns q hdir h => ?_) hp h
    split_ifs at h
    refine ih ?_ h
    unfold pathStart
    split_ifs
    · exact .inl LinkTree.node_root
    · exact .inl hdir

/-- A path stands for a file that is no link. -/
theorem LinkTree.resolve_canonical (hcwd : t.node cwd = some .dir) {text : Line}
    (h : t.resolve limit cwd text = some p) : t.Canonical p := by
  rw [resolve] at h
  split_ifs at h
  refine LinkTree.walk_canonical ?_ h
  unfold pathStart
  split_ifs
  · exact .inl LinkTree.node_root
  · exact .inl hcwd

/-- No component of a canonical path is followed. -/
theorem LinkTree.walkTo_names {follow : Path → Line → List Line → Option Path} (ns : List Line)
    (h : t.Canonical (q ++ ns)) : t.walkTo follow q ns = some (q ++ ns) := by
  induction ns generalizing q with
  | nil => simp [walkTo]
  | cons n ns ih =>
    have hexists := LinkTree.Canonical.exists h
    have hdir : t.node q = some .dir := LinkTree.way_dir (n :: ns) hexists (List.cons_ne_nil n ns)
    obtain ⟨hn, -⟩ := LinkTree.proper_names hexists n (by simp)
    have hassoc : q ++ n :: ns = q ++ [n] ++ ns := by simp
    rw [hassoc] at h hexists ⊢
    have hnode : t.Canonical (q ++ [n]) := by
      cases ns with
      | nil => rwa [List.append_nil] at h
      | cons m ns => exact .inl (LinkTree.way_dir (m :: ns) hexists (List.cons_ne_nil m ns))
    rw [walkTo, if_neg (not_not.mpr hdir), if_neg (not_or.mpr ⟨hn.nonempty, hn.dot⟩), if_neg hn.dots]
    rcases hnode with hnode | hnode <;> rw [hnode] <;> exact ih h

theorem pathText_split (h : ∀ n ∈ p, '/' ∉ n) :
    (pathText p).splitOn '/' = [] :: if p = [] then [[]] else p := by
  unfold pathText
  split_ifs
  · decide
  · exact List.splitOn_intercalate '/' (by simpa using h) (List.cons_ne_nil _ _)

theorem pathText_start (p : Path) : (pathText p).head? = some '/' := by
  unfold pathText
  split_ifs with hp
  · rfl
  · obtain ⟨n, ns, rfl⟩ := List.exists_cons_of_ne_nil hp
    rw [List.intercalate_cons_cons]
    rfl

theorem pathText_ne_nil (p : Path) : pathText p ≠ [] := by
  intro h
  have hstart := pathText_start p
  rw [h] at hstart
  cases hstart

/-- The text of a canonical path stands for it, wherever it is read. -/
theorem LinkTree.resolve_pathText (h : t.Canonical p) : t.resolve limit cwd (pathText p) = some p := by
  have hslash : ∀ n ∈ p, '/' ∉ n := fun n hn =>
    (LinkTree.proper_names (LinkTree.Canonical.exists h) n hn).1.slash
  have hroot (follow : Path → Line → List Line → Option Path) :
      t.walkTo follow [] ([] :: if p = [] then [[]] else p) = some p := by
    rw [walkTo, if_neg (not_not.mpr node_root), if_pos (.inl rfl)]
    split_ifs with hp
    · rw [walkTo, if_neg (not_not.mpr node_root), if_pos (.inl rfl), walkTo, hp]
    · exact LinkTree.walkTo_names p h
  rw [resolve, if_neg (pathText_ne_nil p), pathStart, if_pos (pathText_start p), pathText_split hslash]
  cases limit with
  | zero => exact hroot _
  | succ k => exact hroot _

end

end SnakeOs.Lib
