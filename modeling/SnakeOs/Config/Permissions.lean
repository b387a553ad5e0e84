import SnakeOs.Config.Browser
import SnakeOs.Lib.Links
import SnakeOs.Lib.Regex
import SnakeOs.Lib.Test

/-! The permissions of a user's folder: `set_permissions` of `user.cgi`. -/

namespace SnakeOs.Config
open Lib

/-- The device with the links on its disks: `files` is what the shell finds for a pattern,
`accounts` whether `grep -q` finds one in `/etc/passwd`. -/
structure LinkedDevice where
  tree : LinkTree
  limit : Nat
  cwd : Path
  inDir : tree.node cwd = some .dir
  files : Line → List Line
  accounts : Line → Bool
  ops : TestOps

def LinkedDevice.resolve (d : LinkedDevice) : Line → Option Path := d.tree.resolve d.limit d.cwd

/-- `[ -d w ]`. -/
def LinkedDevice.isDir (d : LinkedDevice) (w : Line) : Bool :=
  match d.resolve w with
  | some p => d.tree.node p = some .dir
  | none => false

def LinkedDevice.tests (d : LinkedDevice) : TestOps :=
  ⟨fun op w => if op = ['-', 'd'] then some (d.isDir w) else d.ops.unary op w, d.ops.binary⟩

/-- What `readlink -f w` finds; a word with a dash is read as options. -/
def LinkedDevice.canonical (d : LinkedDevice) (w : Line) : Option Path :=
  if w.head? = some '-' ∧ w ≠ ['-'] then none else d.resolve w

/-- `$(readlink -f w)`. -/
def readlinkF (d : LinkedDevice) (w : Line) : Line :=
  match d.canonical w with
  | some p => cmdSubst (pathText p ++ ['\n'])
  | none => []

inductive Program
  | chown
  | chmod
deriving DecidableEq

structure Command where
  program : Program
  words : List Line
deriving DecidableEq

/-- The words that are no options. -/
def operands : List Line → List Line
  | [] => []
  | w :: ws =>
    if w = ['-', '-'] then ws
    else if w.head? = some '-' ∧ w ≠ ['-'] then operands ws
    else w :: operands ws

/-- The paths behind the owner or the mode. -/
def Command.paths (c : Command) : List Line := (operands c.words).tail

/-- `^/usb/.`. -/
def usbPattern : Line := '^' :: '/' :: (usbName ++ ['/', '.'])

/-- The folder that `set_permissions` refuses. -/
def invalidDirectory (d : LinkedDevice) (homedir : Line) : Prop :=
  bracket d.tests (['-', 'z'] :: shellWords d.files [homedir]) = some true ∨
    bracket d.tests [['!'], ['-', 'd'], homedir] = some true ∨
    (fileLines (echo [homedir])).any (grep usbPattern) = false

instance (d : LinkedDevice) (homedir : Line) : Decidable (invalidDirectory d homedir) :=
  inferInstanceAs (Decidable (_ ∨ _))

def validUser (d : LinkedDevice) (uname : Line) : Bool := d.accounts ('^' :: (uname ++ [':']))

/-- The modes that the choices stand for. -/
def choiceModes : List (Line × Line) :=
  [("user".toList, "700".toList), ("allread".toList, "755".toList), ("all".toList, "777".toList)]

/-- The two commands that every choice but the current permissions comes to. -/
def changeMode (d : LinkedDevice) (rflag : List Line) (uname homedir mode : Line) : List Command :=
  [⟨.chown, rflag ++ shellWords d.files [uname ++ ':' :: uname, homedir]⟩,
    ⟨.chmod, rflag ++ mode :: shellWords d.files [homedir]⟩]

/-- `set_permissions` with its arguments: what it says, or the commands it runs. -/
def setPermissions (d : LinkedDevice) (args : List Line) : Except Line (List Command) :=
  let uname := args.getD 0 []
  let homedir := readlinkF d (args.getD 2 [])
  let rflag :=
    if bracket d.tests [args.getD 3 [], ['=', '='], ['1']] = some true then [['-', 'R']] else []
  if validUser d uname = false then .error "set_permissions: invalid username".toList
  else if invalidDirectory d homedir then .error "set_permissions: invalid directory".toList
  else if args.getD 1 [] = "current".toList then .ok []
  else match choiceModes.lookup (args.getD 1 []) with
    | some mode => .ok (changeMode d rflag uname homedir mode)
    | none => .error "set_permissions: invalid permissions".toList

/-- The paths that `chown` and `chmod` get. -/
def passedPaths (d : LinkedDevice) (args : List Line) : List Line :=
  match setPermissions d args with
  | .ok commands => commands.flatMap Command.paths
  | .error _ => []

structure PermissionsForm where
  uname : Line
  permissions : Line
  shared : Line
  recursive : Line

/-- `set_permissions ${UNAME} ${PERMISSIONS} ${SHARED} ${RECURSIVE}`. -/
def PermissionsForm.args (d : LinkedDevice) (form : PermissionsForm) : List Line :=
  shellWords d.files [formField d.files form.uname, formField d.files form.permissions,
    formField d.files form.shared, formField d.files form.recursive]

/-- A directory strictly below `/usb`. -/
def BelowUsb (d : LinkedDevice) (w : Line) : Prop :=
  ∃ p, d.resolve w = some p ∧ d.tree.node p = some .dir ∧ usb <+: p ∧ p ≠ usb

/-- A request that changes nothing. -/
def Refused (d : LinkedDevice) (args : List Line) : Prop :=
  validUser d (args.getD 0 []) = false ∨ invalidDirectory d (readlinkF d (args.getD 2 [])) ∨
    args.getD 1 [] ∉ choiceModes.map Prod.fst

/-- The owner is one word, and the canonical path of the folder one that stands for itself. -/
structure Whole (d : LinkedDevice) (args : List Line) : Prop where
  owner : ∃ o, shellWords d.files [args.getD 0 [] ++ ':' :: args.getD 0 []] = [o]
  folder : ∃ p, d.canonical (args.getD 2 []) = some p ∧ OneWord (pathText p) ∧
    expandWord d.files (pathText p) = [pathText p]

/-- The words behind the owner and the mode. -/
def pieces (d : LinkedDevice) (uname homedir : Line) : List Line :=
  (operands (shellWords d.files [uname ++ ':' :: uname, homedir])).tail ++
    operands (shellWords d.files [homedir])

section
variable {d : LinkedDevice} {args : List Line} {uname homedir : Line}

theorem operands_rflag {rflag : List Line} (h : rflag = [['-', 'R']] ∨ rflag = []) (ws : List Line) :
    operands (rflag ++ ws) = operands ws := by
  rcases h with rfl | rfl
  · rw [List.singleton_append, operands, if_neg (by decide), if_pos (by decide)]
  · rfl

theorem mem_operands {w : Line} {ws : List Line} (h : w ∈ operands ws) : w ∈ ws := by
  fun_induction operands ws with
  | case1 => exact h
  | case2 ws => exact List.mem_cons_of_mem _ h
  | case3 x ws _ _ ih => exact List.mem_cons_of_mem x (ih h)
  | case4 x ws _ _ ih =>
    rcases List.mem_cons.mp h with rfl | h
    · exact List.mem_cons_self
    · exact List.mem_cons_of_mem x (ih h)

/-- The first word is never behind the first operand. -/
theorem mem_operands_tail {w o : Line} {ws : List Line} (h : w ∈ (operands (o :: ws)).tail) :
    w ∈ ws := by
  rw [operands] at h
  split_ifs at h
  · exact List.mem_of_mem_tail h
  · exact mem_operands (List.mem_of_mem_tail h)
  · exact mem_operands h

theorem changeMode_paths {rflag : List Line} (h : rflag = [['-', 'R']] ∨ rflag = []) {mode : Line}
    (hm : mode.head? ≠ some '-') : (changeMode d rflag uname homedir mode).flatMap Command.paths =
      pieces d uname homedir := by
  have hmode : operands (mode :: shellWords d.files [homedir]) =
      mode :: operands (shellWords d.files [homedir]) := by
    rw [operands, if_neg (fun he => hm (by rw [he]; rfl)), if_neg (fun he => hm he.1)]
  simp [changeMode, Command.paths, operands_rflag h, hmode, pieces]

/-- What is passed on, where the request is not refused. -/
theorem passedPaths_eq (h : ¬ Refused d args) :
    passedPaths d args = pieces d (args.getD 0 []) (readlinkF d (args.getD 2 [])) := by
  obtain ⟨huser, hdir, hchoice⟩ : validUser d (args.getD 0 []) ≠ false ∧
      ¬ invalidDirectory d (readlinkF d (args.getD 2 [])) ∧
      args.getD 1 [] ∈ choiceModes.map Prod.fst := by
    simpa [Refused, not_or] using h
  have hcurrent : args.getD 1 [] ≠ "current".toList := by
    intro he
    rw [he] at hchoice
    exact absurd hchoice (by decide)
  have hmode : ∃ mode, choiceModes.lookup (args.getD 1 []) = some mode ∧
      mode.head? ≠ some '-' := by
    generalize args.getD 1 [] = choice at hchoice
    have hall : ∀ choice ∈ choiceModes.map Prod.fst, ∃ mode, choiceModes.lookup choice = some mode ∧
        mode.head? ≠ some '-' := by
      intro choice hc
      simp only [choiceModes, List.map_cons, List.map_nil, List.mem_cons, List.not_mem_nil,
        or_false] at hc
      rcases hc with rfl | rfl | rfl
      · exact ⟨_, rfl, by decide⟩
      · exact ⟨_, rfl, by decide⟩
      · exact ⟨_, rfl, by decide⟩
    exact hall choice hchoice
  obtain ⟨mode, hmode, hhead⟩ := hmode
  have hset : setPermissions d args = .ok (changeMode d
      (if bracket d.tests [args.getD 3 [], ['=', '='], ['1']] = some true then [['-', 'R']] else [])
      (args.getD 0 []) (readlinkF d (args.getD 2 [])) mode) := by
    unfold setPermissions
    dsimp only
    rw [if_neg huser, if_neg hdir, if_neg hcurrent, hmode]
  rw [passedPaths, hset]
  refine changeMode_paths ?_ hhead
  split_ifs
  · exact .inl rfl
  · exact .inr rfl

theorem passedPaths_refused (h : Refused d args) : passedPaths d args = [] := by
  have hset : setPermissions d args = .ok [] ∨ ∃ message, setPermissions d args = .error message := by
    unfold setPermissions
    dsimp only
    by_cases huser : validUser d (args.getD 0 []) = false
    · exact .inr ⟨_, if_pos huser⟩
    rw [if_neg huser]
    by_cases hdir : invalidDirectory d (readlinkF d (args.getD 2 []))
    · exact .inr ⟨_, if_pos hdir⟩
    rw [if_neg hdir]
    by_cases hcurrent : args.getD 1 [] = "current".toList
    · exact .inl (if_pos hcurrent)
    rw [if_neg hcurrent]
    have hnone : choiceModes.lookup (args.getD 1 []) = none := by
      refine List.lookup_eq_none_iff.mpr fun e he => bne_iff_ne.mpr fun hx => ?_
      exact (h.resolve_left huser).resolve_left hdir (hx ▸ List.mem_map_of_mem he)
    rw [hnone]
    exact .inr ⟨_, rfl⟩
  rw [passedPaths]
  rcases hset with h | ⟨message, h⟩ <;> rw [h]
  rfl

theorem grep_usb {l : Line} (h : grep usbPattern l = true) :
    ∃ c rest, l = '/' :: (usbName ++ '/' :: c :: rest) := by
  have hp : parsePattern true ('/' :: (usbName ++ ['/', '.'])) =
      some ⟨false, literals ('/' :: (usbName ++ ['/'])) ++ [⟨.any, false⟩], false⟩ := by decide
  rw [usbPattern, grep, hp] at h
  obtain ⟨rest, rfl, hrest⟩ := (matchItems_literals false _ _ l).mp h
  cases rest with
  | nil => cases hrest
  | cons c rest => exact ⟨c, rest, by simp⟩

/-- A canonical path with `/usb/.` in front is strictly below `/usb`. -/
theorem canonical_below {t : LinkTree} {p : Path} (h : t.Canonical p)
    (hu : grep usbPattern (pathText p) = true) : usb <+: p ∧ p ≠ usb := by
  obtain ⟨c, rest, htext⟩ := grep_usb hu
  have hslash : ∀ n ∈ p, '/' ∉ n := fun n hn =>
    (LinkTree.proper_names (LinkTree.Canonical.exists h) n hn).1.slash
  cases p with
  | nil => exact absurd htext (by simp [pathText, usbName])
  | cons n ns =>
    rw [pathText, if_neg (List.cons_ne_nil n ns), List.intercalate_cons_cons, List.nil_append,
      List.singleton_append] at htext
    have htext := (List.cons.inj htext).2
    cases ns with
    | nil =>
      rw [List.intercalate_singleton] at htext
      exact absurd (htext ▸ by simp) (hslash n List.mem_cons_self)
    | cons m ns =>
      rw [List.intercalate_cons_cons, List.append_assoc, List.singleton_append] at htext
      have hn : n = usbName :=
        first_field_inj (hslash n List.mem_cons_self) (by decide) htext
      exact ⟨⟨m :: ns, by rw [hn]; rfl⟩, by simp [usb]⟩

/-- A folder that stays whole is what was looked at. -/
theorem Whole.below (h : Whole d args)
    (hv : ¬ invalidDirectory d (readlinkF d (args.getD 2 []))) {w : Line}
    (hw : w ∈ pieces d (args.getD 0 []) (readlinkF d (args.getD 2 []))) : BelowUsb d w := by
  obtain ⟨o, ho⟩ := h.owner
  obtain ⟨p, hp, hone, hexpand⟩ := h.folder
  have hcanonical : d.tree.Canonical p := by
    rw [LinkedDevice.canonical] at hp
    split_ifs at hp
    exact LinkTree.resolve_canonical d.inDir hp
  have hhome : readlinkF d (args.getD 2 []) = pathText p := by
    rw [readlinkF, hp]
    exact cmdSubst_newlines hone.nul hone.newline 1
  rw [hhome] at hv hw
  have hresolve : d.resolve (pathText p) = some p := LinkTree.resolve_pathText hcanonical
  have hecho : echo [pathText p] = pathText p ++ ['\n'] := by
    simpa using echo_words (by rw [pathText_start]; decide) []
  have hlines : fileLines (echo [pathText p]) = [pathText p] := by
    rw [hecho, fileLines_eq (by simp [hone.nul]), textLines_line hone.newline]
    rfl
  obtain ⟨-, hv⟩ := not_or.mp hv
  obtain ⟨hdir, husb⟩ := not_or.mp hv
  rw [hlines, List.any_cons, List.any_nil, Bool.or_false] at husb
  have hd : d.isDir (pathText p) = true := by
    rw [bracket_not_unop (by decide)] at hdir
    simpa [TestOps.unop, LinkedDevice.tests] using hdir
  have hbelow : BelowUsb d (pathText p) := by
    refine ⟨p, hresolve, ?_, canonical_below hcanonical (by simpa using husb)⟩
    rw [LinkedDevice.isDir, hresolve] at hd
    exact of_decide_eq_true hd
  have hword : shellWords d.files [pathText p] = [pathText p] :=
    shellWords_single hone.word hone.newline hexpand
  rw [pieces, ← List.singleton_append, shellWords_append, ho, hword] at hw
  have hone : w = pathText p := by
    rcases List.mem_append.mp hw with hw | hw
    · simpa using mem_operands_tail hw
    · simpa using mem_operands hw
  exact hone ▸ hbelow

/-- What `set_permissions` passes on are directories below `/usb` where the folder stays
whole; a refused request passes nothing on. -/
theorem passed_below_usb (d : LinkedDevice) (form : PermissionsForm)
    (h : Refused d (form.args d) ∨ Whole d (form.args d)) :
    ∀ w ∈ passedPaths d (form.args d), BelowUsb d w := by
  generalize form.args d = args at h
  intro w hw
  by_cases hr : Refused d args
  · rw [passedPaths_refused hr] at hw
    exact absurd hw List.not_mem_nil
  · have hdir : ¬ invalidDirectory d (readlinkF d (args.getD 2 [])) := fun hi => hr (.inr (.inl hi))
    rw [passedPaths_eq hr] at hw
    exact (h.resolve_left hr).below hdir hw

end

/-- Folders that a user can make: the link `l` stands for a folder `etc` in a folder `a` with
a blank behind its name, the link `m` for the folder `b`. -/
def linkedFolders : LinkTree where
  entries := [([], .dir), (usb, .dir), ([['e', 't', 'c']], .dir), (usb ++ [['a', ' ']], .dir),
    (usb ++ [['a', ' '], ['e', 't', 'c']], .dir), (usb ++ [['l']], .link "/usb/a /etc".toList),
    (usb ++ [['b']], .dir), (usb ++ [['m']], .link ['b'])]
  root := rfl
  closed := by decide
  proper := by decide

def linkedDevice : LinkedDevice where
  tree := linkedFolders
  limit := 32
  cwd := []
  inDir := rfl
  files := fun _ => []
  accounts := fun pattern => pattern = "^u:".toList
  ops := noOps

/-- A folder behind a link, with all that is in it. -/
theorem passed_below_usb_b :
    let form : PermissionsForm := ⟨['u'], "all".toList, "/usb/m".toList, ['1']⟩
    passedPaths linkedDevice (form.args linkedDevice) = ["/usb/b".toList, "/usb/b".toList] ∧
      ∀ w ∈ passedPaths linkedDevice (form.args linkedDevice), BelowUsb linkedDevice w := by
  intro form
  have hargs : form.args linkedDevice = [['u'], "all".toList, "/usb/m".toList, ['1']] := by
    decide +kernel
  refine ⟨by decide +kernel, passed_below_usb linkedDevice form (.inr ?_)⟩
  rw [hargs]
  exact ⟨⟨"u:u".toList, by decide +kernel⟩, usb ++ [['b']], by decide +kernel,
    ⟨⟨by decide, by decide⟩, by decide, by decide⟩, by decide +kernel⟩

theorem passed_etc : ¬ ∀ w ∈ passedPaths linkedDevice
    (PermissionsForm.args linkedDevice ⟨['u'], "user".toList, "/usb/l".toList, []⟩),
    BelowUsb linkedDevice w := by
  intro h
  obtain ⟨p, hp, -, hbelow, -⟩ := h "/etc".toList (by decide +kernel)
  have hetc : linkedDevice.resolve "/etc".toList = some [['e', 't', 'c']] := by decide +kernel
  obtain rfl := Option.some.inj (hetc.symm.trans hp)
  exact absurd hbelow (by decide)

end SnakeOs.Config
