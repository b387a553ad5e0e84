import SnakeOs.Config.Funcs
import SnakeOs.Lib.Runs

/-! The Apply actions of the DDNS, Samba and FTP pages and `set_hostname`: every setting goes to
`/etc/default/config` and to the file of its service. -/

namespace SnakeOs.Config
open Lib

inductive File
  | config
  | inadyn
  | smb
  | vsftpd
deriving DecidableEq

abbrev Etc := File → List Line

def Etc.edit (e : Etc) (f : File) (g : List Line → List Line) : Etc := Function.update e f (g (e f))

/-- A form field: the forms restrict nothing, but text has no blanks here. -/
structure Field where
  text : Line
  chars : ∀ c ∈ text, isBlank c = false ∧ c ≠ '\n' ∧ c ≠ '\x00'

def Field.empty : Field := ⟨[], by simp⟩

section
variable (other : Line → List Line → List Line) (files : Line → List Line)

/-- `$(echo ${FORM_x} | cut -d ' ' -f 1)`. -/
def firstField (value : Line) : Line :=
  cmdSubst ((textLines [] (echo (unquoted (metaOnly files) [value]))).flatMap fun l =>
    cutField ' ' 1 l ++ ['\n'])

/-- What an unquoted `${1}` at the end of a call passes on. -/
def argument (value : Line) : Line := (unquoted (metaOnly files) [value]).headD []

/-- A checkbox as `${X:-0}` gives it. -/
def checkbox (checked : Bool) : Line := if checked then ['1'] else ['0']

/-- `set_config key ${1}`. -/
def configSet (key value : Line) (e : Etc) : Etc :=
  e.edit .config (setConfig other key (argument files value))

/-- A setting that goes to the configuration and, with its own command, to another file. -/
def setBoth (key : Line) (f : File) (cmd : Line → Line) (value : Line) (e : Etc) : Etc :=
  (configSet other files key value e).edit f (sed other (cmd value))

def setDdnsProvider : Line → Etc → Etc :=
  setBoth other files "ddns_provider".toList .inadyn fun v =>
    substCmd ',' ['^'] "dyndns_system".toList ("dyndns_system ".toList ++ v)

def setDdnsAlias : Line → Etc → Etc :=
  setBoth other files "ddns_alias".toList .inadyn fun v =>
    substCmd ',' ['^'] "alias".toList ("alias ".toList ++ v)

def setDdnsUser : Line → Etc → Etc :=
  setBoth other files "ddns_user".toList .inadyn fun v =>
    substCmd ',' ['^'] "username".toList ("username ".toList ++ v)

def setDdnsPass : Line → Etc → Etc :=
  setBoth other files "ddns_pass".toList .inadyn fun v =>
    substCmd ',' ['^'] "password".toList ("password ".toList ++ v)

/-- `args` are `${1}` to `${5}`; those that are missing are empty. -/
def setDdnsinfo (args : List Line) (e : Etc) : Etc :=
  let e := configSet other files "ddns_enable".toList (args.getD 0 []) e
  if args.getD 0 [] = ['1'] then
    setDdnsPass other files (argument files (args.getD 4 []))
      (setDdnsUser other files (argument files (args.getD 3 []))
        (setDdnsAlias other files (argument files (args.getD 2 []))
          (setDdnsProvider other files (argument files (args.getD 1 [])) e)))
  else e

structure DdnsFields where
  ddnsProvider : Field
  ddnsAlias : Field
  ddnsUser : Field
  ddnsPass : Field

/-- Apply of `mg-ddns.cgi`. The page disables the fields when the box is not checked. -/
def applyDdns (fields : Option DdnsFields) (e : Etc) : Etc :=
  let f := fields.getD ⟨.empty, .empty, .empty, .empty⟩
  setDdnsinfo other files (unquoted (metaOnly files) [checkbox fields.isSome,
    firstField files f.ddnsProvider.text, firstField files f.ddnsAlias.text,
    firstField files f.ddnsUser.text, firstField files f.ddnsPass.text]) e

structure SambaFields where
  security : Field
  workgroup : Field

/-- Apply of `mg-samba.cgi`. -/
def applySamba (fields : Option SambaFields) (e : Etc) : Etc :=
  let e := configSet other files "samba_enable".toList (checkbox fields.isSome) e
  match fields with
  | none => e
  | some f =>
    let e := setBoth other files "smbsecurity".toList .smb (fun v =>
      substCmd '/' [] "security = ".toList ("security = ".toList ++ v))
      (firstField files f.security.text) e
    setBoth other files "smbworkgroup".toList .smb (fun v =>
      substCmd '/' [] "workgroup = ".toList ("workgroup = ".toList ++ v))
      (firstField files f.workgroup.text) e

/-- `sed -ri "s,^key=.*,key=YES,g" /etc/vsftpd.conf`, or `NO`. -/
def vsftpdSwitch (key : Line) (on : Bool) (e : Etc) : Etc :=
  e.edit .vsftpd (sed other (substCmd ',' ['^'] (key ++ ['='])
    (setting key (if on then "YES".toList else "NO".toList))))

def setFtpAnonymous (on : Bool) (e : Etc) : Etc :=
  vsftpdSwitch other "anonymous_enable".toList on
    (configSet other files "ftp_anonymous".toList (checkbox on) e)

def setFtpAnondir : Line → Etc → Etc :=
  setBoth other files "ftp_anondir".toList .vsftpd fun v =>
    substCmd ',' ['^'] "anon_root=".toList ("anon_root=".toList ++ v)

def setFtpAnononly (on : Bool) (e : Etc) : Etc :=
  vsftpdSwitch other "local_enable".toList (!on)
    (configSet other files "ftp_anononly".toList (checkbox on) e)

def setFtpAnonrw (on : Bool) (e : Etc) : Etc :=
  vsftpdSwitch other "anon_mkdir_write_enable".toList on
    (vsftpdSwitch other "anon_upload_enable".toList on
      (configSet other files "ftp_anonrw".toList (checkbox on) e))

structure FtpFields where
  shared : Field
  enable : Bool
  anon : Bool
  anonrw : Bool
  anononly : Bool

/-- Apply of `mg-ftp.cgi`. -/
def applyFtp (f : FtpFields) (e : Etc) : Etc :=
  let e := setFtpAnondir other files (argument files (firstField files f.shared.text)) e
  let e := configSet other files "ftp_enable".toList (checkbox f.enable) e
  let e := setFtpAnonymous other files f.anon e
  let e := setFtpAnonrw other files f.anonrw e
  setFtpAnononly other files f.anononly e

/-- What `set_hostname` does to the two files; it also sets the name that is used now. -/
def setHostname (name : Line) (e : Etc) : Etc :=
  (e.edit .config (sed other (substCmd ',' [] "hostname=".toList ("hostname=".toList ++ name)))).edit
    .smb (sed other (substCmd ',' [] "server string = ".toList ("server string = ".toList ++ name)))

inductive Action
  | ddns (fields : Option DdnsFields)
  | samba (fields : Option SambaFields)
  | ftp (fields : FtpFields)
  | setHostname (name : Field)

def applyAction (e : Etc) : Action → Etc
  | .ddns fields => applyDdns other files fields e
  | .samba fields => applySamba other files fields e
  | .ftp fields => applyFtp other files fields e
  | .setHostname name => setHostname other name.text e

end

/-- The settings that stand in two files. -/
inductive Setting
  | ddnsProvider
  | ddnsAlias
  | ddnsUser
  | ddnsPass
  | smbworkgroup
  | smbsecurity
  | hostname
  | ftpAnondir
deriving DecidableEq

/-- What an action asks for. -/
def Action.submitted : Action → Setting → Option Line
  | .ddns (some f), .ddnsProvider => some f.ddnsProvider.text
  | .ddns (some f), .ddnsAlias => some f.ddnsAlias.text
  | .ddns (some f), .ddnsUser => some f.ddnsUser.text
  | .ddns (some f), .ddnsPass => some f.ddnsPass.text
  | .samba (some f), .smbworkgroup => some f.workgroup.text
  | .samba (some f), .smbsecurity => some f.security.text
  | .ftp f, .ftpAnondir => some f.shared.text
  | .setHostname name, .hostname => some name.text
  | _, _ => none

/-- The files, and what was last asked for each setting. -/
structure Run where
  etc : Etc
  asked : Setting → Option Line

def actionStep (other : Line → List Line → List Line) (files : Line → List Line) (r : Run)
    (a : Action) : Option Run :=
  some ⟨applyAction other files r.etc a, fun s => (a.submitted s).or (r.asked s)⟩

end SnakeOs.Config
