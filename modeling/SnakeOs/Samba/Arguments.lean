import SnakeOs.Lib.Echo
import SnakeOs.Lib.Test
import SnakeOs.Samba.Passwd

/-! The script `smbpasswd` with any arguments, and the calls it makes. -/

namespace SnakeOs.Samba.Smbpasswd
open Lib

/-- What `adduser` reads of its arguments. -/
structure AddUser where
  operands : List Line
  home : Option Line
  gecos : Line
  shell : Line
  group : Option Line
  system : Bool
  uid : Option Line

def noOptions : AddUser :=
  ⟨[], none, "Linux User,,,".toList, "/bin/sh".toList, none, false, none⟩

/-- An option with a value. -/
def AddUser.set (o : AddUser) (letter : Char) (value : Line) : AddUser :=
  if letter = 'h' then { o with home := some value }
  else if letter = 'g' then { o with gecos := value }
  else if letter = 's' then { o with shell := value }
  else if letter = 'G' then { o with group := some value }
  else { o with uid := some value }

/-- The letters of one word, and the last one if its value is the next word. -/
def AddUser.letters (o : AddUser) : Line → Option (AddUser × Option Char)
  | [] => some (o, none)
  | c :: cs =>
    if c ∈ ['h', 'g', 's', 'G', 'u'] then
      some (if cs = [] then (o, some c) else (o.set c cs, none))
    else if c = 'S' then AddUser.letters { o with system := true } cs
    else if c = 'D' ∨ c = 'H' then AddUser.letters o cs
    else none

/-- `getopt32(argv, "h:g:s:G:DSHu:")`. -/
def AddUser.parse (o : AddUser) : List Line → Option AddUser
  | [] => some o
  | w :: ws =>
    if w = ['-', '-'] then some { o with operands := o.operands ++ ws }
    else if w.head? = some '-' ∧ w ≠ ['-'] then
      match o.letters w.tail with
      | none => none
      | some (o, none) => AddUser.parse o ws
      | some (o, some letter) =>
        match ws with
        | [] => none
        | v :: ws => AddUser.parse (o.set letter v) ws
    else AddUser.parse { o with operands := o.operands ++ [w] } ws

/-- The programs for any arguments: `ids` are the numbers that `adduser` finds, if it finds some,
and `script` is what sed does with a script that is not modelled. -/
structure Host extends Tools where
  ops : TestOps
  regex : Line → Line → Bool
  ids : AddUser → List Line → Option (Nat × Nat)
  script : Line → List Line → List Line

/-- A program that changes accounts, with its arguments or the lines of its input. -/
inductive Call
  | adduser (words : List Line)
  | deluser (words : List Line)
  | chpasswd (input : List Line)

/-- Who a call is for; `adduser` and `deluser` take one name. -/
def Call.users : Call → List Line
  | .adduser words =>
    match (noOptions.parse words).map AddUser.operands with
    | some [user] => [user]
    | _ => []
  | .deluser [user] => [user]
  | .deluser _ => []
  | .chpasswd input => input.map fun l => l.takeWhile (· ≠ ':')

structure Device where
  accounts : Accounts
  calls : List Call

/-- A command with the words behind its option; `salt` gives a salt for each password. -/
inductive Request
  | add (args : List Line) (salt : Nat → Line)
  | remove (args : List Line)

namespace Host
section
variable (t : Host)

/-- The words of unquoted variables. -/
def words (values : List Line) : List Line :=
  values.flatMap fun v => unquoted (metaOnly t.files) (textLines [] v)

def test (args : List Line) : Bool := bracket t.ops args == some true

/-- `grep "^$1:"`, where a newline separates patterns. -/
def found (name : Line) (lines : List Line) : List Line :=
  lines.filter fun l => (('^' :: (name ++ [':'])).splitOn '\n').any fun p =>
    if (parsePattern true (if p.head? = some '^' then p.tail else p)).isSome then grep p l
    else t.regex p l

def adduser (args : List Line) (passwd : List Line) : List Line :=
  match noOptions.parse args with
  | some o =>
    match o.operands, t.ids o passwd with
    | [user], some (uid, gid) =>
      if passwd.any (user ++ [':'] <+: ·) then passwd
      else passwd ++ textLines [] (user ++ ':' :: ([':'].intercalate [['x'], Nat.toDigits 10 uid,
        Nat.toDigits 10 gid, o.gecos, o.home.getD ("/home/".toList ++ user), o.shell] ++ ['\n']))
    | _, _ => passwd
  | none => passwd

def deluser (args : List Line) (passwd : List Line) : List Line :=
  match args with
  | [user] => passwd.filter fun l => ¬ user ++ [':'] <+: l
  | _ => passwd

/-- `chpasswd -m`, which ends at a line without a colon or with an unknown user. -/
def chpasswd (salt : Nat → Line) : Nat → List Line → List Line → List Line
  | _, [], passwd => passwd
  | k, l :: input, passwd =>
    let user := l.takeWhile (· ≠ ':')
    if ':' ∈ l ∧ passwd.any (user ++ [':'] <+: ·) then
      chpasswd salt (k + 1) input
        (Smbpasswd.chpasswd user (t.crypt (salt k) ((l.dropWhile (· ≠ ':')).drop 1)) passwd)
    else passwd

/-- `USERINFO`. -/
def userinfo (home : Line) (lines : List Line) : Line :=
  match t.words ["home=".toList ++ home] with
  | [word] =>
    if "home=".toList <+: word then substLines (lines.map (withHome (awkValue (word.drop 5))))
    else cmdSubst (t.awk [word] lines)
  | words => cmdSubst (t.awk words lines)

/-- The number that the script reads for a name. -/
def readUid (name : Line) (passwd : List Line) : Line :=
  substLines ((t.found name passwd).map (cutField ':' 3))

def updateUser (name home smbpass : Line) (a : Accounts) : Accounts :=
  ⟨sed t.other (substCmd '_' ['^'] (name ++ [':']) (t.userinfo home (t.found name a.passwd))) a.passwd,
    sed t.other (substCmd ',' ['^'] (name ++ [':'])
      (name ++ ':' :: t.readUid name a.passwd ++ ':' :: smbpass ++ [':'])) a.smbpasswd⟩

/-- The arguments of `adduser`. -/
def addArgs (name home : Line) : List Line :=
  t.words [name] ++ "-h".toList :: (t.words [home] ++
    ["-D", "-H", "-s", "/sbin/nologin"].map String.toList)

def createUser (name home smbpass : Line) (a : Accounts) : Accounts :=
  let passwd := t.adduser (t.addArgs name home) a.passwd
  ⟨passwd, a.smbpasswd ++ textLines []
    (echo [name ++ ':' :: t.readUid name passwd ++ ':' :: smbpass ++ ":[U]:LCT-4294967295".toList])⟩

/-- `[ "$1" != "root" ] || [ "$1" != "nobody" ] || [ "$1" != "ftp" ]`. -/
def guard (name : Line) : Bool :=
  t.test [name, "!=".toList, "root".toList] || t.test [name, "!=".toList, "nobody".toList] ||
    t.test [name, "!=".toList, "ftp".toList]

/-- Both tests of `set_user`. -/
def accepts (name home pass : Line) : Bool :=
  t.guard name && t.test ["-n".toList, name, "-a".toList, "-n".toList, home, "-a".toList,
    "-n".toList, pass]

/-- What `echo $1:$3` sends to `chpasswd`. -/
def chpasswdInput (name pass : Line) : List Line := textLines [] (echo (t.words [name ++ ':' :: pass]))

def setUser (salt : Nat → Line) (name home pass : Line) (d : Device) : Device :=
  if t.accepts name home pass then
    let smbpass := t.smbencrypt ((t.words [pass]).headD [])
    let input := t.chpasswdInput name pass
    let has := (t.found name d.accounts.smbpasswd).length = 1
    let a := if has then t.updateUser name home smbpass d.accounts
      else t.createUser name home smbpass d.accounts
    ⟨⟨t.chpasswd salt 0 input a.passwd, a.smbpasswd⟩,
      d.calls ++ (if has then [] else [.adduser (t.addArgs name home)]) ++ [.chpasswd input]⟩
  else d

/-- `sed -ri "/^$1:.*/d"`. -/
def deleteLines (name : Line) (lines : List Line) : List Line :=
  if ∀ c ∈ name, PlainEre c ∧ c ≠ '/' ∧ c ≠ '\n' then lines.filter fun l => ¬ name ++ [':'] <+: l
  else t.script ("/^".toList ++ name ++ ":.*/d".toList) lines

/-- The branch of `delete` for a name that `/etc/smbpasswd` has. -/
def removes (name : Line) (a : Accounts) : Bool :=
  t.guard name && t.test ["-n".toList, name] && (t.found name a.smbpasswd).length = 1

def delete (name : Line) (d : Device) : Device :=
  if t.removes name d.accounts then
    ⟨⟨deluser (t.words [name]) d.accounts.passwd, t.deleteLines name d.accounts.smbpasswd⟩,
      d.calls ++ [.deluser (t.words [name])]⟩
  else d

/-- `smbpasswd -a` and `smbpasswd -x`: the arguments are split again on their way to the function. -/
def smbpasswd (d : Device) : Request → Device
  | .add args salt =>
    let ws := t.words (args.take 3)
    t.setUser salt (ws.getD 0 []) (ws.getD 1 []) (ws.getD 2 []) d
  | .remove args => t.delete ((t.words (args.take 1)).getD 0 []) d

def step (d : Device) (r : Request) : Option Device := some (t.smbpasswd d r)

end
end Host

end SnakeOs.Samba.Smbpasswd
