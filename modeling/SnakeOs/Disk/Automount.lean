import SnakeOs.Config.Readers
import SnakeOs.Lib.Runs
import SnakeOs.Lib.Test

/-! The script `automount`, which mounts partitions under `/usb`, and the page `diskname.cgi`,
which gives them names. -/

namespace SnakeOs.Disk
open Lib

/-- A partition `sdXn`; its minor number is no multiple of 16, so `automount` does not skip it. -/
structure Part where
  letter : Char
  num : Nat
  lower : letter.isLower = true
  range : 1 ≤ num ∧ num ≤ 15
deriving DecidableEq

def Part.name (d : Part) : Line := 's' :: 'd' :: d.letter :: Nat.toDigits 10 d.num

/-- An entry of `/proc/mounts` for a partition. -/
structure Mount where
  dev : Part
  dir : Line
deriving DecidableEq

def usb (name : Line) : Line := "/usb/".toList ++ name

def opt : Line := "/opt".toList

/-- What the scripts find on the device. `info` is what `blkid` says of a partition, `swapReady`
that the swap file is there and has its signature; `regex` and `sed` are what grep and sed do with
patterns outside this model. -/
structure Env where
  attached : List Part
  info : Part → Option Line
  config : List Line
  options : Mount → Line
  optDir : Bool
  swapReady : Line → List Mount → Bool
  files : Line → List Line
  ops : TestOps
  regex : Line → Line → Bool
  sed : Line → List Line → List Line

/-- Only mounts of partitions are kept; `swap` is the file that `/proc/swaps` shows. -/
structure Box where
  mounts : List Mount
  diskname : Option (List Line)
  swap : Option Line
deriving DecidableEq

/-- The newest of the mounts it is given goes; on a folder that is the one on top. -/
def umount (p : Mount → Bool) (mounts : List Mount) : List Mount :=
  (mounts.reverse.eraseP p).reverse

/-- What is on top of the folders of the entries goes, one after another. -/
def umountFolders (entries mounts : List Mount) : List Mount :=
  entries.foldl (fun mounts m => umount (fun x => x.dir = m.dir) mounts) mounts

/-- `umount` of a device, which goes through its entries from the newest on. -/
def umountDevice (d : Part) (mounts : List Mount) : List Mount :=
  umountFolders (mounts.filter fun m => m.dev = d).reverse mounts

section
variable (env : Env)

/-- The words of an unquoted variable. -/
def words (value : Line) : List Line := unquoted (metaOnly env.files) (textLines [] value)

/-- `[`; an error counts as false. -/
def test (args : List Line) : Bool := bracket env.ops args == some true

/-- `grep`, where a newline separates patterns. -/
def grepLines (pat : Line) (lines : List Line) : List Line :=
  lines.filter fun l => (pat.splitOn '\n').any fun p =>
    if (parsePattern true (if p.head? = some '^' then p.tail else p)).isSome then grep p l
    else env.regex p l

def mountLine (m : Mount) : Line :=
  "/dev/".toList ++ m.dev.name ++ ' ' :: (m.dir ++ ' ' :: env.options m)

def blkid : List Line :=
  env.attached.filterMap fun d => (env.info d).map ("/dev/".toList ++ d.name ++ ": ".toList ++ ·)

/-- `grep "^/dev/$MDEV"`. -/
def devLine (d : Part) (line : Line) : Bool := grep ('^' :: ("/dev/".toList ++ d.name)) line

/-- `DISKID`: the blanks and quotes of the line go, and `=` becomes `_`. -/
def diskid (d : Part) : Line :=
  capturedLines (((blkid env).filter (devLine d)).map fun l =>
    cutField ':' 2 ((trDelete '"' (trDelete ' ' l)).map fun c => if c = '=' then '_' else c))

/-- What `grep "^${DISKID}:" /etc/default/diskname | cut -d : -f 2` prints. -/
def names (s : Box) (d : Part) : List Line :=
  match s.diskname with
  | some lines => (grepLines env ('^' :: (diskid env d ++ [':'])) lines).map (cutField ':' 2)
  | none => []

/-- The mounts that `grep "^/dev/$MDEV" /proc/mounts` finds. -/
def devMounts (s : Box) (d : Part) : List Mount := s.mounts.filter fun m => devLine d (mountLine env m)

def useSwap : Bool :=
  test env (words env (Config.bootRead "use_swap".toList env.config) ++ ["-eq".toList, ['1']])

/-- `/etc/init.d/swapsvc autostart`; the tests of the file fail on more than one word. -/
def swapsvcAutostart (s : Box) : Box :=
  if useSwap env then
    match words env (Config.bootRead "swapfile".toList env.config) with
    | [file] =>
      if file ≠ "empty".toList ∧ env.swapReady file s.mounts then { s with swap := some file } else s
    | _ => s
  else s

def swapsvcStop (s : Box) : Box :=
  match words env (Config.bootRead "swapfile".toList env.config) with
  | [file] =>
    if file ≠ "empty".toList ∧ s.swap = some file then { s with swap := none } else s
  | _ => s

def useOpkg : Bool :=
  test env (words env (Config.bootRead "use_opkg".toList env.config) ++ ["-eq".toList, ['1']])

/-- `[ "$MPOINT" = $(grep "opkg_disk=" ...) ]`. -/
def isOpkgDisk (mpoint : Line) : Bool :=
  test env (mpoint :: ['='] :: words env (Config.bootRead "opkg_disk".toList env.config))

def opkgUnlink (s : Box) : Box :=
  if useOpkg env then { s with mounts := umount (fun m => m.dir = opt) s.mounts } else s

/-- The entry of a bind mount has the device of the directory it shows. -/
def bindOpt (dir : Line) (s : Box) : Box :=
  match s.mounts.reverse.find? fun m => m.dir = dir with
  | some m => { s with mounts := s.mounts ++ [⟨m.dev, opt⟩] }
  | none => s

def opkgLink (mpoint : Line) (s : Box) : Box :=
  if useOpkg env then
    if env.optDir = false then s
    else if grepLines env (usb mpoint) (s.mounts.map (mountLine env)) = [] then s
    else bindOpt (usb mpoint)
      (if s.mounts.any fun m => m.dir = opt then opkgUnlink env s else s)
  else s

/-- `mount /dev/$MDEV /usb/$MPOINT` of a partition that is not mounted. -/
def mountUsb (d : Part) (mpoint : Line) (s : Box) : Box :=
  match words env (usb mpoint) with
  | [dir] => if d ∈ env.attached then { s with mounts := s.mounts ++ [⟨d, dir⟩] } else s
  | _ => s

/-- `MPOINT` of `automount $MDEV add`. -/
def addMpoint (s : Box) (d : Part) : Line :=
  if capturedLines (names env s d) = [] then d.name else capturedLines (names env s d)

/-- `automount $MDEV add`, without the scripts of `/opt/etc/automount.d`. -/
def automountAdd (s : Box) (d : Part) : Box :=
  let mpoint := addMpoint env s d
  if devMounts env s d = [] then
    let s := swapsvcAutostart env (mountUsb env d mpoint s)
    if isOpkgDisk env mpoint then opkgLink env ((words env mpoint).headD []) s else s
  else s

/-- `sed -n 's,^\(/usb/\)\(sd[a-z][0-9]\).*$,\2,p' /proc/swaps`. -/
def swapMounted (s : Box) : Line :=
  match s.swap with
  | some ('/' :: 'u' :: 's' :: 'b' :: '/' :: 's' :: 'd' :: x :: n :: _) =>
    if x.isLower ∧ n.isDigit then ['s', 'd', x, n] else []
  | _ => []

/-- The commands that `automount $MDEV remove` runs. -/
inductive Ran
  | opkgUnlink
  | swapsvcStop
  | umount
deriving DecidableEq

structure Removal where
  box : Box
  mpoint : Line
  ran : List Ran

/-- `automount $MDEV remove`. The test of `/opt/etc/automount.d` lacks a bracket and always fails;
the folders that are removed at the end are not mounted. -/
def automountRemove (s : Box) (d : Part) : Removal :=
  let mpoint := capturedLines ((devMounts env s d).map fun m =>
    cutField '/' 3 (cutField ' ' 2 (mountLine env m)))
  let unlinks := isOpkgDisk env mpoint
  let s := if unlinks then opkgUnlink env s else s
  let stops := decide (swapMounted s = mpoint)
  let s := if stops then swapsvcStop env s else s
  ⟨{ s with mounts := umountDevice d (umountDevice d s.mounts) }, mpoint,
    (if unlinks then [.opkgUnlink] else []) ++ (if stops then [.swapsvcStop] else []) ++
      [.umount, .umount]⟩

/-- `sed -ri "/^$1:.*/d" /etc/default/diskname`. -/
def deleteNames (id : Line) (lines : List Line) : List Line :=
  if ∀ c ∈ id, PlainEre c ∧ c ≠ '/' ∧ c ≠ '\n' then lines.filter fun l => ¬ id ++ [':'] <+: l
  else env.sed ("/^".toList ++ id ++ ":.*/d".toList) lines

/-- `set_diskname`; missing arguments are empty. -/
def setDiskname (args : List Line) (s : Box) : Box :=
  let line := args.getD 0 [] ++ ':' :: (args.getD 1 [] ++ ':' :: args.getD 2 [])
  { s with diskname := some ((s.diskname.map (deleteNames env (args.getD 0 []))).getD [] ++
    textLines [] (echo (words env line))) }

def removeDiskname (args : List Line) (s : Box) : Box :=
  { s with diskname := s.diskname.map (deleteNames env (args.getD 0 [])) }

/-- A call of one of the scripts and functions. -/
inductive Event
  | add (d : Part)
  | remove (d : Part)
  | setDiskname (args : List Line)
  | removeDiskname (args : List Line)

def Event.apply (s : Box) : Event → Box
  | .add d => automountAdd env s d
  | .remove d => (automountRemove env s d).box
  | .setDiskname args => Disk.setDiskname env args s
  | .removeDiskname args => Disk.removeDiskname env args s

/-- A name that the page lets through. -/
structure Name where
  text : Line
  word : ∀ c ∈ text, (c.isAlphanum || c == '_') = true
  length : 3 ≤ text.length ∧ text.length ≤ 15

/-- Hot-plug events and the requests of `diskname.cgi`, which carry the form's fields. -/
inductive Action
  | add (d : Part)
  | remove (d : Part)
  | saveName (diskid : Line) (diskname : Name) (diskinfo : Line) (dev : Part) (mounted : Line)
  | removeName (diskid : Line) (dev : Part) (mounted : Line)

/-- `$(echo ${FORM_x} | cut -d ' ' -f 1)`. -/
def formField (value : Line) : Line :=
  capturedLines ((textLines [] (echo (words env value))).map (cutField ' ' 1))

/-- The page remounts the partition around the change when its `mounted` field is not empty. -/
def remounting (dev : Part) (mounted : Line) (change : Event) : List Event :=
  if formField env mounted ≠ [] then [.remove dev, change, .add dev] else [change]

def Action.events : Action → List Event
  | .add d => [.add d]
  | .remove d => [.remove d]
  | .saveName diskid diskname diskinfo dev mounted =>
    remounting env dev mounted (.setDiskname ([diskid, diskname.text, diskinfo].flatMap fun v =>
      words env (formField env v)))
  | .removeName diskid dev mounted =>
    remounting env dev mounted (.removeDiskname (words env (formField env diskid)))

def runEvents (s : Box) (es : List Event) : Box := es.foldl (Event.apply env) s

def actionStep (s : Box) (a : Action) : Option Box := some (runEvents env s (a.events env))

end

end SnakeOs.Disk
