import SnakeOs.Lib.Regex
import SnakeOs.Lib.Shell
import SnakeOs.Lib.Test

/-! `/etc/smb.conf` as shipped and `smbshare`, the script that keeps the shares in it.
`files` is pathname expansion in the working directory of the script, `ops` what `[` says of the
files there. -/

namespace SnakeOs.Samba
open Lib

def shipped : List Line :=
  ["#======================= Global Settings =====================================  ".toList,
   "[global]                                                                        ".toList,
   "server string = SNAKE".toList,
   "smb passwd file = /etc/smbpasswd".toList,
   "security = SHARE".toList,
   "workgroup = WORKGROUP".toList,
   "encrypt passwords = true".toList,
   "short preserve case = yes".toList,
   "preserve case = yes".toList,
   "guest account = ftp                                                             ".toList,
   "guest ok = yes".toList,
   "force user = root".toList,
   "force group = root".toList,
   "socket options = SO_KEEPALIVE TCP_NODELAY SO_RCVBUF=16384 SO_SNDBUF=16384".toList,
   "character set = ISO8859-1".toList,
   "client code page = 850".toList,
   "#============================ Share Definitions ============================== ".toList]

/-- `$i` of a function or of the script; unset is empty. -/
def arg (args : List Line) (i : Nat) : Line := args.getD (i - 1) []

def bracket (name : Line) : Line := '[' :: (name ++ [']'])

/-- `[ -n "$1" -a -n "$2" -a "$3" ]`, which comes to no test of a file. -/
def hasFields (args : List Line) : Bool :=
  Lib.bracket noOps [['-', 'n'], arg args 1, ['-', 'a'], ['-', 'n'], arg args 2, ['-', 'a'],
    arg args 3] = some true

/-- What `add_share` prints. -/
def addShare (args : List Line) : List Char :=
  if hasFields args then
    echo [bracket (arg args 1)] ++
      echo ["    comment = ".toList ++ arg args 1] ++
      echo ["    path = ".toList ++ arg args 2] ++
      echo ["    writeable = ".toList ++ arg args 3] ++
      if arg args 4 ≠ [] then echo ["    valid users = ".toList ++ arg args 4] else []
  else []

/-- The loop of `config_remove` over the values of `LINE`. -/
def removeLoop (files : Line → List Line) (shareName : Line) : Bool → List Line → List Char
  | _, [] => []
  | remove, line :: lines =>
    let remove :=
      if cutBytes 1 (captured (echo [line])) = ['['] then decide (line = bracket shareName)
      else remove
    (if remove then [] else echo (unquoted files [line])) ++
      removeLoop files shareName remove lines

def configRemove (files : Line → List Line) (args conf : List Line) : List Char :=
  removeLoop files (arg args 1) false (readLines true [] conf) ++ echo [[]]

def delete (files : Line → List Line) (args conf : List Line) : List Line :=
  textLines [] (configRemove files (unquoted files [arg args 1]) conf)

def setShare (files : Line → List Line) (args conf : List Line) : List Line :=
  delete files (unquoted files [arg args 1]) conf ++
    textLines [] (addShare (unquoted files [arg args 1, arg args 2, arg args 3, arg args 4]))

/-- `SKIP`: the number of the last line with a marker, as `grep -n` counts. -/
def skip (conf : List Line) : Option Nat :=
  (((conf.zipIdx 1).filter fun l => grep "#==".toList l.1).getLast?).map Prod.snd

/-- `[ -z $VALUE ]`, where the words may hold more operators. -/
def testEmpty (ops : TestOps) (words : List Line) : Bool :=
  Lib.bracket ops (['-', 'z'] :: words) = some true

/-- The body of the loop of `list`. -/
def listLine (ops : TestOps) (files : Line → List Line) (line : Line) : List Char :=
  let actualValue := trDelete ' ' (cutField '=' 2 (captured (echo [line])))
  if testEmpty ops (unquoted files [actualValue]) then echo [[]]
  else echo ("-n".toList :: unquoted files [actualValue ++ ['|']])

/-- The lines `list` prints. Without a marker `sed` gets no number and prints nothing. -/
def list (ops : TestOps) (files : Line → List Line) (conf : List Line) : List Line :=
  let shares := match skip conf with
    | some n => conf.drop n
    | none => []
  let out := (readLines true [] shares).flatMap (listLine ops files)
  (sortB (textLines [] out)).filter fun l => !grep "^$".toList l

def getShare (ops : TestOps) (files : Line → List Line) (args conf : List Line) : List Line :=
  (list ops files conf).filter (grep ("\\[".toList ++ arg args 1 ++ "\\]".toList))

def delShareuser (ops : TestOps) (files : Line → List Line) (args conf : List Line) : List Line :=
  let found := (list ops files conf).filter (grep (".*|".toList ++ arg args 1 ++ "|$".toList))
  (unquoted files (found.map (cutField '|' 2))).foldl
    (fun conf share => delete files (unquoted files [share]) conf) conf

def usage : List Line :=
  ["Usage:".toList,
   "  smbconf [options] [share] [path] [write] [user]".toList,
   "options:".toList,
   "  -a      add or modify share".toList,
   "  -x      delete share".toList,
   "  -xuser  delete shares of certain user".toList,
   "  -get    get share info".toList,
   "  -list\tlist all shares".toList]

/-- The script: the new `/etc/smb.conf` and what is printed. -/
def smbshare (ops : TestOps) (files : Line → List Line) (args conf : List Line) :
    List Line × List Line :=
  if arg args 1 = "-a".toList then
    (setShare files (unquoted files [arg args 2, arg args 3, arg args 4, arg args 5]) conf, [])
  else if arg args 1 = "-x".toList then (delete files (unquoted files [arg args 2]) conf, [])
  else if arg args 1 = "-xuser".toList then
    (delShareuser ops files (unquoted files [arg args 2]) conf, [])
  else if arg args 1 = "-get".toList then
    (conf, getShare ops files (unquoted files [arg args 2]) conf)
  else if arg args 1 = "-list".toList then (conf, list ops files conf)
  else (conf, usage)

end SnakeOs.Samba
