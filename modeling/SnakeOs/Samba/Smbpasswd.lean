import SnakeOs.Lib.Files
import SnakeOs.Lib.Runs
import SnakeOs.Lib.Sed

/-! The script `smbpasswd`, which keeps `/etc/smbpasswd` and `/etc/passwd` together. -/

namespace SnakeOs.Samba.Smbpasswd
open Lib

structure Accounts where
  passwd : List Line
  smbpasswd : List Line

/-- A name that the user page lets through. -/
structure User where
  name : Line
  word : ∀ c ∈ name, (c.isAlphanum || c == '_') = true
  length : 5 ≤ name.length ∧ name.length ≤ 15

structure Password where
  text : Line
  word : ∀ c ∈ text, (c.isAlphanum || c == '_') = true
  length : 5 ≤ text.length ∧ text.length ≤ 14

/-- An absolute path without blanks. -/
structure Home where
  path : Line
  root : path.head? = some '/'
  chars : ∀ c ∈ path, isBlank c = false ∧ c ≠ '\n' ∧ c ≠ '\x00'

/-- The programs that the script runs. `files` gives the names a pattern matches, `other` and
`awk` are what sed and awk do with commands and arguments outside this model, `uid` is the free
number that `adduser` takes, and a password is encrypted with a salt. -/
structure Tools where
  files : Line → List Line
  other : Line → List Line → List Line
  awk : List Line → List Line → List Char
  uid : List Line → Nat
  smbencrypt : Line → Line
  crypt : Line → Line → Line
  smbencrypt_chars : ∀ text, ∀ c ∈ smbencrypt text, c.isAlphanum = true ∨ c = ':'
  crypt_chars : ∀ salt text, ∀ c ∈ crypt salt text, c ≠ ':' ∧ c ≠ '\n' ∧ c ≠ '\x00'

inductive Command
  | add (user : User) (home : Home) (pass : Password) (salt : Line)
  | remove (user : User)

def Command.user : Command → Line
  | .add user _ _ _ => user.name
  | .remove user => user.name

/-- `grep "^$1:"`. -/
def userLines (name : Line) (lines : List Line) : List Line :=
  lines.filter (grep ('^' :: (name ++ [':'])))

/-- What a pipeline over lines leaves in a variable. -/
def substLines (lines : List Line) : Line := cmdSubst (lines.flatMap (· ++ ['\n']))

/-- The text of a variable that awk is given with `-v`; the counter runs down an escape sequence. -/
def awkEscapes : Nat → Line → Line
  | _, [] => []
  | n + 1, _ :: cs => awkEscapes n cs
  | 0, c :: cs =>
    if c = '\\' then
      let e := processEscapeSequence cs
      if e.2 = 0 then cs.take 1 ++ awkEscapes 1 cs else e.1 :: awkEscapes e.2 cs
    else c :: awkEscapes 0 cs

def awkValue (text : Line) : Line := (awkEscapes 0 text).takeWhile (· ≠ '\x00')

/-- The `n`-th field between colons, from zero. -/
def field (n : Nat) (line : Line) : Line := (line.splitOn ':').getD n []

/-- `{ print $1":"$2":"$3":"$4":"$5":"home":"$7}`. -/
def withHome (home line : Line) : Line :=
  [':'].intercalate [field 0 line, field 1 line, field 2 line, field 3 line, field 4 line, home,
    field 6 line]

section
variable (t : Tools)

/-- `awk -F: -v home=$2 '...'`. -/
def awkHome (home : Line) (lines : List Line) : Line :=
  match unquoted (metaOnly t.files) ["home=".toList ++ home] with
  | [word] =>
    if "home=".toList <+: word then substLines (lines.map (withHome (awkValue (word.drop 5))))
    else cmdSubst (t.awk [word] lines)
  | words => cmdSubst (t.awk words lines)

/-- `adduser name -h home -D -H -s /sbin/nologin`: with more than one word for the home it
fails, as it does when the name is in use. -/
def adduser (name home : Line) (passwd : List Line) : List Line :=
  match unquoted (metaOnly t.files) [home] with
  | [home] =>
    if passwd.any (name ++ [':'] <+: ·) then passwd
    else passwd ++ [[':'].intercalate [name, ['x'], Nat.toDigits 10 (t.uid passwd),
      Nat.toDigits 10 (t.uid passwd), "Linux User,,,".toList, home, "/sbin/nologin".toList]]
  | _ => passwd

/-- A line with another password. -/
def withPassword (name hash line : Line) : Line :=
  name ++ ':' :: (hash ++ (line.drop (name.length + 1)).dropWhile (· ≠ ':'))

/-- `echo name:pass | chpasswd -m`. -/
def chpasswd (name hash : Line) (passwd : List Line) : List Line :=
  passwd.map fun l => if name ++ [':'] <+: l then withPassword name hash l else l

/-- The branch of `set_user` for a name that `/etc/smbpasswd` has. -/
def updateUser (name home smbpass : Line) (a : Accounts) : Accounts :=
  let uid := substLines ((userLines name a.passwd).map (cutField ':' 3))
  let userinfo := awkHome t home (userLines name a.passwd)
  ⟨sed t.other (substCmd '_' ['^'] (name ++ [':']) userinfo) a.passwd,
    sed t.other (substCmd ',' ['^'] (name ++ [':'])
      (name ++ ':' :: uid ++ ':' :: smbpass ++ [':'])) a.smbpasswd⟩

/-- The branch for a new name. -/
def createUser (name home smbpass : Line) (a : Accounts) : Accounts :=
  let passwd := adduser t name home a.passwd
  let uid := substLines ((userLines name passwd).map (cutField ':' 3))
  ⟨passwd, a.smbpasswd ++ textLines []
    (name ++ ':' :: uid ++ ':' :: smbpass ++ ":[U]:LCT-4294967295\n".toList)⟩

/-- The guard against `root`, `nobody` and `ftp` joins inequalities with "or", so it always holds. -/
def setUser (salt : Line) (args : List Line) (a : Accounts) : Accounts :=
  let name := args.getD 0 []
  let home := args.getD 1 []
  let pass := args.getD 2 []
  if name = [] ∨ home = [] ∨ pass = [] then a
  else
    let smbpass := t.smbencrypt pass
    let b := if (userLines name a.smbpasswd).length = 1 then updateUser t name home smbpass a
      else createUser t name home smbpass a
    ⟨chpasswd name (t.crypt salt pass) b.passwd, b.smbpasswd⟩

/-- `sed -ri "/^$1:.*/d"` and `deluser`. -/
def delete (name : Line) (a : Accounts) : Accounts :=
  if (userLines name a.smbpasswd).length = 1 then
    ⟨a.passwd.filter fun l => ¬ name ++ [':'] <+: l,
      a.smbpasswd.filter fun l => !grep ('^' :: (name ++ [':', '.', '*'])) l⟩
  else a

/-- `smbpasswd -a` and `smbpasswd -x`; the arguments are not quoted. -/
def smbpasswd (a : Accounts) : Command → Accounts
  | .add user home pass salt =>
    setUser t salt (unquoted (metaOnly t.files) [user.name, home.path, pass.text]) a
  | .remove user => delete user.name a

def smbpasswdStep (a : Accounts) (c : Command) : Option Accounts := some (smbpasswd t a c)

end

end SnakeOs.Samba.Smbpasswd
