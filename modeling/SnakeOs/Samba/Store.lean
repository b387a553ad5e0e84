import SnakeOs.Samba.Records
import SnakeOs.Lib.Slots

namespace SnakeOs.Samba
open Lib

/-- The shares as a map from their names. -/
abbrev Shares := Line → Option Share

inductive Cmd
  | add (name : Line) (share : Share)
  | remove (name : Line)
  | removeUser (user : Line)
deriving DecidableEq

/-- The arguments of the script. -/
def Cmd.args : Cmd → List Line
  | .add name s => "-a".toList :: fields name s
  | .remove name => ["-x".toList, name]
  | .removeUser user => ["-xuser".toList, user]

def Cmd.Valid : Cmd → Prop
  | .add name s => ValidShare (name, s)
  | .remove name => IsWord name ∧ name ≠ "global".toList
  | .removeUser user => IsUser user

instance : (c : Cmd) → Decidable c.Valid
  | .add _ _ => inferInstanceAs (Decidable (_ ∧ _ ∧ _))
  | .remove _ => inferInstanceAs (Decidable (_ ∧ _))
  | .removeUser _ => inferInstanceAs (Decidable (IsUser _))

/-- What a command means for the shares. -/
def Cmd.apply (m : Shares) : Cmd → Shares
  | .add name s => Function.update m name (some s)
  | .remove name => Function.update m name none
  | .removeUser user => fun name => (m name).filter fun s => s.user ≠ some user

/-- The file after a sequence of commands. -/
def runConf (ops : TestOps) (files : Line → List Line) (cmds : List Cmd) : List Line :=
  cmds.foldl (fun conf c => (smbshare ops files c.args conf).1) shipped

/-- The shares after a sequence of commands. -/
def runShares (cmds : List Cmd) : Shares := cmds.foldl Cmd.apply fun _ => none

/-- The file holds exactly the shares of the map. -/
def Represents (conf : List Line) (m : Shares) : Prop :=
  ∃ es, Layout conf es ∧ ∀ n s, m n = some s ↔ (n, s) ∈ content es

/-- The file holds exactly these shares, under any names that are read as they were written. -/
def Holding (conf : List Line) (m : Shares) : Prop :=
  ∃ es, Holds conf es ∧ ∀ n s, m n = some s ↔ (n, s) ∈ content es

theorem represents_iff {conf : List Line} {m : Shares} :
    Represents conf m ↔ Holding conf m ∧ ∀ n s, m n = some s → ValidShare (n, s) := by
  constructor
  · rintro ⟨es, hl, hm⟩
    exact ⟨⟨es, hl.holds, hm⟩, fun n s h => hl.valid _ ((hm n s).mp h)⟩
  · rintro ⟨⟨es, hl, hm⟩, hv⟩
    exact ⟨es, hl.layout fun p hp => hv p.1 p.2 ((hm p.1 p.2).mpr hp), hm⟩

theorem shipped_represents : Represents shipped fun _ => none :=
  ⟨[], shipped_layout, by simp [content]⟩

section Commands

variable {ops : TestOps} {files : Line → List Line} (hf : ∀ w, files w = []) {conf : List Line} {m : Shares}

/-- The script on each of its options. -/
theorem smbshare_add (name : Line) (s : Share) :
    (smbshare ops files (Cmd.add name s).args conf).1 = setShare files (unquoted files
      [name, s.path, s.write, s.user.getD []]) conf := by
  obtain ⟨-, -, -, hu⟩ := arg_fields name s
  rw [← hu]
  rfl

theorem smbshare_remove (name : Line) : (smbshare ops files (Cmd.remove name).args conf).1 =
    delete files (unquoted files [name]) conf := rfl

theorem smbshare_removeUser (user : Line) :
    (smbshare ops files (Cmd.removeUser user).args conf).1 =
      delShareuser ops files (unquoted files [user]) conf := rfl

include hf

theorem add_holding {name : Line} {s : Share} (hs : SoundShare (name, s)) (h : Holding conf m) :
    Holding (smbshare ops files (Cmd.add name s).args conf).1
      (Function.update m name (if hasFields (fields name s) then some s else none)) := by
  obtain ⟨es, hl, hm⟩ := h
  rw [smbshare_add, unquoted_fields hf hs]
  obtain ⟨es', hl', hcon⟩ := setShare_holds hf hs hl
  refine ⟨es', hl', fun n t => ?_⟩
  rw [hcon, List.mem_append, List.mem_filter, ← hm]
  by_cases he : n = name
  · split_ifs <;> simp [he, eq_comm]
  · split_ifs <;> simp [he]

theorem delete_holding {name : Line} (hw : Word name) (hg : name ≠ "global".toList)
    (h : Holding conf m) :
    Holding (delete files [name] conf) (Function.update m name none) := by
  obtain ⟨es, hl, hm⟩ := h
  obtain ⟨es', hl', hcon, -⟩ := delete_holds hf hw hg hl
  refine ⟨es', hl', fun n s => ?_⟩
  rw [hcon, List.mem_filter, ← hm]
  by_cases he : n = name
  · simp [he]
  · simp [he]

/-- Deleting shares one after the other. -/
theorem deletes_holding {names : List Line}
    (hn : ∀ n ∈ names, Word n ∧ n ≠ "global".toList) (h : Holding conf m) :
    Holding (names.foldl (fun conf n => delete files (unquoted files [n]) conf) conf)
      (fun n => if n ∈ names then none else m n) := by
  induction names generalizing conf m with
  | nil => simpa using h
  | cons n names ih =>
    obtain ⟨hw, hg⟩ := hn n List.mem_cons_self
    have hrest := ih (fun x hx => hn x (List.mem_cons_of_mem _ hx)) (delete_holding hf hw hg h)
    rw [List.foldl_cons, unquoted_word hf hw]
    convert hrest using 2 with x
    by_cases hx : x = n
    · simp [hx]
    · simp [hx]

theorem unquoted_words {ws : List Line} (hw : ∀ w ∈ ws, Word w) : unquoted files ws = ws := by
  rw [unquoted_eq_split hf]
  induction ws with
  | nil => rfl
  | cons w ws ih =>
    rw [List.flatMap_cons, (hw w List.mem_cons_self).split,
      ih fun v hv => hw v (List.mem_cons_of_mem _ hv)]
    rfl

/-- The names `-xuser` finds. -/
theorem mem_found {es : List Entry} (hl : Holds conf es) {u : Line}
    (hu : ∀ c ∈ u, Inner c) (hbar : '|' ∉ u)
    (hw : ∀ p ∈ content es, p.2.user = none → p.2.write ≠ u) {n : Line} :
    n ∈ ((list ops files conf).filter (grep (".*|".toList ++ u ++ "|$".toList))).map
        (cutField '|' 2) ↔ ∃ s, (n, s) ∈ content es ∧ s.user = some u := by
  simp only [List.mem_map, List.mem_filter, (list_perm hf hl).mem_iff, grep_user hu]
  constructor
  · rintro ⟨_, ⟨⟨⟨name, s⟩, hp, rfl⟩, hsuffix⟩, rfl⟩
    have hs := hl.sound _ hp
    rw [cutField_record hs.name]
    exact ⟨s, hp, (record_user hs hbar (hw _ hp)).mp hsuffix⟩
  · rintro ⟨s, hp, hsu⟩
    have hs := hl.sound _ hp
    exact ⟨record n s, ⟨⟨(n, s), hp, rfl⟩, (record_user hs hbar (hw _ hp)).mpr hsu⟩,
      cutField_record hs.name s⟩

theorem removeUser_holding {u : Line} (hword : Word u) (hu : ∀ c ∈ u, Inner c) (hbar : '|' ∉ u)
    (hw : ∀ n s, m n = some s → s.user = none → s.write ≠ u) (h : Holding conf m) :
    Holding (smbshare ops files (Cmd.removeUser u).args conf).1 ((Cmd.removeUser u).apply m) := by
  obtain ⟨es, hl, hm⟩ := h
  have hfound {n : Line} : n ∈ ((list ops files conf).filter
      (grep (".*|".toList ++ u ++ "|$".toList))).map (cutField '|' 2) ↔
        ∃ s, (n, s) ∈ content es ∧ s.user = some u :=
    mem_found hf hl hu hbar fun p hp => hw p.1 p.2 ((hm p.1 p.2).mpr hp)
  have hsound : ∀ n ∈ ((list ops files conf).filter
      (grep (".*|".toList ++ u ++ "|$".toList))).map (cutField '|' 2), Word n ∧ n ≠ "global".toList := by
    intro n hn
    obtain ⟨s, hp, -⟩ := hfound.mp hn
    exact ⟨(hl.sound _ hp).name.word, (hl.sound _ hp).1⟩
  have hdel := deletes_holding hf hsound ⟨es, hl, hm⟩
  rw [smbshare_removeUser, unquoted_word hf hword, delShareuser,
    show arg [u] 1 = u from rfl, unquoted_words hf fun n hn => (hsound n hn).1]
  convert hdel using 2 with n
  simp only [Cmd.apply, hfound, ← hm]
  cases hn : m n with
  | none => simp
  | some s => simp [Option.filter_some]

omit hf in
/-- Valid commands leave valid shares. -/
theorem Cmd.apply_valid {c : Cmd} (hc : c.Valid) (hm : ∀ n s, m n = some s → ValidShare (n, s)) :
    ∀ n s, c.apply m n = some s → ValidShare (n, s) := by
  intro n s h
  cases c with
  | add name t =>
    rw [Cmd.apply, Function.update_apply] at h
    split_ifs at h with he
    · rw [he, ← Option.some.inj h]
      exact hc
    · exact hm n s h
  | remove name =>
    rw [Cmd.apply, Function.update_apply] at h
    split_ifs at h
    exact hm n s h
  | removeUser u => exact hm n s (Option.eq_some_of_filter_eq_some h)

theorem cmd_represents {c : Cmd} (hc : c.Valid) (h : Represents conf m) :
    Represents (smbshare ops files c.args conf).1 (c.apply m) := by
  obtain ⟨h, hv⟩ := represents_iff.mp h
  refine represents_iff.mpr ⟨?_, Cmd.apply_valid hc hv⟩
  cases c with
  | add name s =>
    have hadd : Holding (smbshare ops files (Cmd.add name s).args conf).1 _ :=
      add_holding hf (ValidShare.sound hc) h
    rwa [if_pos (hasFields_fields hc.1 hc.2.2)] at hadd
  | remove name =>
    rw [smbshare_remove, unquoted_word hf hc.1.safe.sound.word]
    exact delete_holding hf hc.1.safe.sound.word hc.2 h
  | removeUser u =>
    refine removeUser_holding hf hc.1.safe.sound.word (fun c h => (hc.1.safe.plain c h).inner)
      (hc.1.safe.not_mem (by decide)) (fun n s hn hs he => ?_) h
    have hlen : s.write.length < 5 := by
      rcases (hv n s hn).2.2.write with h | h <;> rw [h] <;> decide
    rw [he] at hlen
    exact absurd hc.2 (Nat.not_le_of_lt hlen)

theorem run_represents {cmds : List Cmd} (hc : ∀ c ∈ cmds, c.Valid) (h : Represents conf m) :
    Represents (cmds.foldl (fun conf c => (smbshare ops files c.args conf).1) conf)
      (cmds.foldl Cmd.apply m) := by
  induction cmds generalizing conf m with
  | nil => exact h
  | cons c cmds ih =>
    exact ih (fun d hd => hc d (List.mem_cons_of_mem _ hd))
      (cmd_represents hf (hc c List.mem_cons_self) h)

theorem smbshare_get {n : Line} (hw : Word n) : (smbshare ops files ["-get".toList, n] conf).2 =
    (list ops files conf).filter (grep ("\\[".toList ++ n ++ "\\]".toList)) := by
  show getShare ops files (unquoted files [n]) conf = _
  rw [unquoted_word hf hw]
  rfl

/-- `-get` prints the record of the name or nothing. -/
theorem get_holding (h : Holding conf m) {n : Line} (hw : Word n) (hn : ∀ c ∈ n, Inner c) :
    (smbshare ops files ["-get".toList, n] conf).2 = ((m n).map (record n)).toList := by
  obtain ⟨es, hl, hm⟩ := h
  have hlist : (list ops files conf).Perm _ := list_perm hf hl
  have hperm := hlist.filter (grep ("\\[".toList ++ n ++ "\\]".toList))
  have hsame : ((content es).map fun p => record p.1 p.2).filter
      (grep ("\\[".toList ++ n ++ "\\]".toList)) =
      ((content es).filter fun p => p.1 = n).map fun p => record p.1 p.2 := by
    rw [List.filter_map]
    congr 1
    refine List.filter_congr fun p hp => ?_
    rw [Bool.eq_iff_iff, Function.comp_apply, grep_bracket hn, record_bracket (hl.sound p hp),
      decide_eq_true_iff]
  rw [hsame] at hperm
  rw [smbshare_get hf hw]
  cases hmn : m n with
  | none =>
    have hnil : ((content es).filter fun p => p.1 = n) = [] := by
      refine List.filter_eq_nil_iff.mpr fun p hp hk => ?_
      have := (hm p.1 p.2).mpr hp
      rw [of_decide_eq_true hk, hmn] at this
      cases this
    rw [hnil] at hperm
    exact hperm.eq_nil
  | some s =>
    rw [filter_key hl.names ((hm n s).mp hmn)] at hperm
    exact List.perm_singleton.mp hperm

end Commands

/-- The lines up to the header of the first share, without surrounding blanks and without
empty lines: the markers and the `[global]` section. -/
def globalLines (conf : List Line) : List Line :=
  let lines := conf.map trim
  let before := lines.takeWhile fun l => l.head? ≠ some '['
  let rest := lines.drop before.length
  (before ++ rest.take 1 ++ (rest.drop 1).takeWhile fun l => l.head? ≠ some '[').filter
    fun l => l ≠ []

theorem Holds.globalLines {es : List Entry} {conf : List Line} (h : Holds conf es) :
    Samba.globalLines conf = header := by
  obtain ⟨k, hk⟩ := h.lines
  have hfirst : ∀ l ∈ header.take 1, decide (l.head? ≠ some '[') = true := fun l hl =>
    decide_eq_true (header_other l (List.mem_append_left _ hl))
  have hrest : ∀ l ∈ header.drop 2 ++ List.replicate k [], decide (l.head? ≠ some '[') = true := by
    intro l hl
    rcases List.mem_append.mp hl with hl | hl
    · exact decide_eq_true (header_other l (List.mem_append_right _ hl))
    · rw [List.eq_of_mem_replicate hl]
      rfl
  have hshares : (es.flatMap Entry.lines).takeWhile (fun l => decide (l.head? ≠ some '[')) = [] := by
    cases es with
    | nil => rfl
    | cons e es => rfl
  have hkeep : header.filter (fun l => decide (l ≠ [])) = header :=
    List.filter_eq_self.mpr fun l hl => decide_eq_true (header_lines l hl).2
  have hbefore : (laidOut k es).takeWhile (fun l => decide (l.head? ≠ some '[')) =
      header.take 1 := by
    rw [laidOut_split, List.takeWhile_append_of_pos hfirst]
    simp [bracket]
  have hdrop : (laidOut k es).drop (header.take 1).length = bracket "global".toList ::
      ((header.drop 2 ++ List.replicate k []) ++ es.flatMap Entry.lines) := by
    rw [laidOut_split, List.drop_left]
  simp only [Samba.globalLines, hk, hbefore, hdrop, List.take_succ_cons, List.take_zero,
    List.drop_succ_cons, List.drop_zero, List.takeWhile_append_of_pos hrest, hshares,
    List.append_nil]
  -- the empty lines are dropped
  have hlines : header.take 1 ++ [bracket "global".toList] ++
      (header.drop 2 ++ List.replicate k []) = header ++ List.replicate k [] := by
    conv_rhs => rw [header_split]
    simp only [List.append_assoc, List.cons_append, List.nil_append]
  rw [hlines, List.filter_append, hkeep]
  simp

/-- The store as seen from outside: listing, single records and the global section. -/
structure Stores (ops : TestOps) (files : Line → List Line) (conf : List Line) (m : Shares) :
    Prop where
  list : ∃ shares : List (Line × Share), (shares.map Prod.fst).Nodup ∧
    (∀ n s, (n, s) ∈ shares ↔ m n = some s) ∧
    (smbshare ops files ["-list".toList] conf).2.Perm (shares.map fun p => record p.1 p.2)
  get : ∀ n, IsWord n →
    (smbshare ops files ["-get".toList, n] conf).2 = ((m n).map (record n)).toList
  global : globalLines conf = shipped.map trim

/-- After any commands the script shows the map they make. -/
theorem store_refines_map {ops : TestOps} {files : Line → List Line} (hf : ∀ w, files w = [])
    {cmds : List Cmd} (hc : ∀ c ∈ cmds, c.Valid) :
    Stores ops files (runConf ops files cmds) (runShares cmds) := by
  have h : Represents (runConf ops files cmds) (runShares cmds) :=
    run_represents hf hc shipped_represents
  obtain ⟨hholding, -⟩ := represents_iff.mp h
  refine ⟨?_, fun n hn => ?_, ?_⟩
  · obtain ⟨es, hl, hm⟩ := hholding
    exact ⟨content es, hl.names, fun n s => (hm n s).symm, list_perm hf hl⟩
  · exact get_holding hf hholding hn.safe.sound.word fun c hc => (hn.safe.plain c hc).inner
  · obtain ⟨es, hl, -⟩ := hholding
    exact hl.globalLines

/-- Two shares are added, one is replaced, and those of one user go. -/
def sampleCmds : List Cmd :=
  [.add "music".toList ⟨"/usb/music".toList, "yes".toList, none⟩,
   .add "docs".toList ⟨"/usb/docs".toList, "no".toList, some "alice".toList⟩,
   .add "music".toList ⟨"/usb/mp3".toList, "no".toList, none⟩,
   .removeUser "alice".toList]

theorem store_refines_map_sample :
    runShares sampleCmds "docs".toList = none ∧
      runShares sampleCmds "music".toList = some ⟨"/usb/mp3".toList, "no".toList, none⟩ ∧
      Stores noOps (fun _ => []) (runConf noOps (fun _ => []) sampleCmds) (runShares sampleCmds) :=
  ⟨by decide +kernel, by decide +kernel,
    store_refines_map (fun _ => rfl) (by decide +kernel)⟩

end SnakeOs.Samba
