import SnakeOs.Config.Forms
import SnakeOs.Samba.Store

/-! Shares under arbitrary names: which commands leave the other shares and the global section
alone. -/

namespace SnakeOs.Samba
open Lib
open Config (OneWord)

/-- What a command means for the shares. `add_share` takes some words for operators and then
prints nothing. -/
def Cmd.effect (m : Shares) : Cmd → Shares
  | .add name s => Function.update m name (if hasFields (fields name s) then some s else none)
  | .remove name => Function.update m name none
  | .removeUser user => fun name => (m name).filter fun s => s.user ≠ some user

/-- The shares after a sequence of commands. -/
def effects (cmds : List Cmd) : Shares := cmds.foldl Cmd.effect fun _ => none

/-- A word that a pattern of `grep` has for itself. -/
def Searched (w : Line) : Prop := OneWord w ∧ ∀ c ∈ w, Inner c

/-- A command that the script reads as it was meant, where the shares are `m`: the new share is
read as it was written, the global section is not deleted, and the user is no pattern, no two
fields and not what the last field of a share without a user says. -/
def Cmd.Clear (m : Shares) : Cmd → Prop
  | .add name s => SoundShare (name, s)
  | .remove name => OneWord name ∧ name ≠ "global".toList
  | .removeUser user => Searched user ∧ '|' ∉ user ∧
      ∀ n s, m n = some s → s.user = none → s.write ≠ user

/-- Every command of a run is clear in the state it meets. -/
def ClearRun : Shares → List Cmd → Prop
  | _, [] => True
  | m, c :: cmds => c.Clear m ∧ ClearRun (c.effect m) cmds

/-- `-list` prints exactly the shares of the map. -/
def Lists (ops : TestOps) (files : Line → List Line) (conf : List Line) (m : Shares) : Prop :=
  ∃ shares : List (Line × Share), (shares.map Prod.fst).Nodup ∧
    (∀ n s, (n, s) ∈ shares ↔ m n = some s) ∧
    (smbshare ops files ["-list".toList] conf).2.Perm (shares.map fun p => record p.1 p.2)

/-- No share is seen under the name of another, none goes with another's user, and the global
section is as it was shipped but for blanks around its lines. -/
structure Isolated (ops : TestOps) (files : Line → List Line) (conf : List Line) (m : Shares) :
    Prop where
  global : globalLines conf = shipped.map trim
  list : Lists ops files conf m
  get : ∀ n, Searched n →
    (smbshare ops files ["-get".toList, n] conf).2 = ((m n).map (record n)).toList
  removeUser : ∀ u, (Cmd.removeUser u).Clear m →
    Lists ops files (smbshare ops files (Cmd.removeUser u).args conf).1
      fun n => (m n).filter fun s => s.user ≠ some u

section
variable {ops : TestOps} {files : Line → List Line} (hf : ∀ w, files w = []) {conf : List Line} {m : Shares}

include hf

theorem Holding.lists (h : Holding conf m) : Lists ops files conf m := by
  obtain ⟨es, hl, hm⟩ := h
  exact ⟨content es, hl.names, fun n s => (hm n s).symm, list_perm hf hl⟩

/-- A clear command does what it means. -/
theorem effect_holding {c : Cmd} (hc : c.Clear m) (h : Holding conf m) :
    Holding (smbshare ops files c.args conf).1 (c.effect m) := by
  cases c with
  | add name s => exact add_holding hf hc h
  | remove name =>
    rw [smbshare_remove, unquoted_word hf hc.1.word]
    exact delete_holding hf hc.1.word hc.2 h
  | removeUser u =>
    obtain ⟨⟨hword, hu⟩, hbar, hw⟩ := hc
    exact removeUser_holding hf hword.word hu hbar hw h

theorem effects_holding {cmds : List Cmd} (hc : ClearRun m cmds) (h : Holding conf m) :
    Holding (cmds.foldl (fun conf c => (smbshare ops files c.args conf).1) conf)
      (cmds.foldl Cmd.effect m) := by
  induction cmds generalizing conf m with
  | nil => exact h
  | cons c cmds ih => exact ih hc.2 (effect_holding hf hc.1 h)

theorem Holding.isolated (h : Holding conf m) : Isolated ops files conf m where
  global := by
    obtain ⟨es, hl, -⟩ := h
    exact hl.globalLines
  list := h.lists hf
  get n hn := get_holding hf h hn.1.word hn.2
  removeUser u hu := (effect_holding hf (c := .removeUser u) hu h).lists hf

end

/-- In a run of clear commands every share keeps to itself. -/
theorem names_isolated {ops : TestOps} {files : Line → List Line} (hf : ∀ w, files w = [])
    {cmds : List Cmd} (hc : ClearRun (fun _ => none) cmds) :
    Isolated ops files (runConf ops files cmds) (effects cmds) :=
  (effects_holding hf hc (represents_iff.mp shipped_represents).1).isolated hf

/-- Names with special characters; a share is replaced and those of one user go. -/
def oddCmds : List Cmd :=
  [.add "my-music.2".toList ⟨"/usb/music".toList, "yes".toList, none⟩,
   .add "*docs*".toList ⟨"/usb/docs".toList, "no".toList, some "alice".toList⟩,
   .remove "a|b=c".toList, .removeUser "alice".toList]

theorem names_isolated_odd : Isolated noOps (fun _ => []) (runConf noOps (fun _ => []) oddCmds)
    (effects oddCmds) := by
  have hword : ∀ w ∈ ["a|b=c".toList, "alice".toList], OneWord w := fun w hw =>
    have hall : ∀ w ∈ ["a|b=c".toList, "alice".toList],
        (w ≠ [] ∧ ∀ c ∈ w, isBlank c = false) ∧ '\n' ∉ w ∧ '\x00' ∉ w := by decide
    ⟨(hall w hw).1, (hall w hw).2.1, (hall w hw).2.2⟩
  have hadd : ∀ p ∈ [("my-music.2".toList, (⟨"/usb/music".toList, "yes".toList, none⟩ : Share)),
      ("*docs*".toList, ⟨"/usb/docs".toList, "no".toList, some "alice".toList⟩)], SoundShare p := by
    decide
  refine names_isolated (fun _ => rfl) ⟨hadd _ (by simp), hadd _ (by simp), ⟨hword _ (by simp), by decide⟩,
    ⟨⟨hword _ (by simp), by decide⟩, by decide, fun n s hs hu he => ?_⟩, trivial⟩
  -- no share without a user says anything but `yes`
  simp only [Cmd.effect, Function.update_apply] at hs
  split_ifs at hs <;> cases hs
  · cases hu
  · exact absurd he (by decide)

def abcShare : Share := ⟨"/usb/abc".toList, "yes".toList, none⟩

/-- The section of the shipped file can be deleted, and a dot finds any character. -/
theorem names_not_isolated :
    globalLines (runConf noOps (fun _ => []) [.remove "global".toList]) ≠ shipped.map trim ∧
      record "abc".toList abcShare ∈ (smbshare noOps (fun _ => []) ["-get".toList, "a.c".toList]
        (runConf noOps (fun _ => []) [.add "abc".toList abcShare])).2 := by
  refine ⟨by decide +kernel, ?_⟩
  have hf : ∀ w, (fun _ => [] : Line → List Line) w = [] := fun _ => rfl
  have hsound : SoundShare ("abc".toList, abcShare) := by decide
  have hclear : ClearRun (fun _ => none) [.add "abc".toList abcShare] := ⟨hsound, trivial⟩
  have hholding : Holding (runConf noOps (fun _ => []) [.add "abc".toList abcShare])
      (effects [.add "abc".toList abcShare]) :=
    effects_holding hf hclear (represents_iff.mp shipped_represents).1
  generalize runConf noOps (fun _ => []) [.add "abc".toList abcShare] = conf at hholding ⊢
  obtain ⟨es, hl, hm⟩ := hholding
  have hmem : ("abc".toList, abcShare) ∈ content es := (hm _ _).mp (by decide)
  have hword : "a.c".toList ≠ [] ∧ ∀ c ∈ "a.c".toList, isBlank c = false := by decide
  rw [smbshare_get hf hword, List.mem_filter, (list_perm hf hl).mem_iff]
  exact ⟨List.mem_map.mpr ⟨_, hmem, rfl⟩, by decide⟩

end SnakeOs.Samba
