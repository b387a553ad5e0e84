import SnakeOs.Lib.Files
import SnakeOs.Lib.Reread
import SnakeOs.Lib.Runs
import SnakeOs.Lib.Sed
import SnakeOs.Samba.Store

/-! `smbshare` leaves one more empty line behind with every change of the file. -/

namespace SnakeOs.Samba
open Lib

/-- The values that `config_remove` prints. -/
def kept (name : Line) : Bool → List Line → List Line
  | _, [] => []
  | remove, line :: lines =>
    let remove :=
      if cutBytes 1 (captured (echo [line])) = ['['] then decide (line = bracket name)
      else remove
    (if remove then [] else [line]) ++ kept name remove lines

theorem removeLoop_kept (files : Line → List Line) (name : Line) (remove : Bool)
    (lines : List Line) : removeLoop files name remove lines =
      (kept name remove lines).flatMap fun l => echo (unquoted files [l]) := by
  induction lines generalizing remove with
  | nil => rfl
  | cons line lines ih =>
    simp only [removeLoop, kept, List.flatMap_append, ih]
    congr 1
    split <;> split <;> simp

theorem kept_sublist (name : Line) (remove : Bool) (lines : List Line) :
    (kept name remove lines).Sublist lines := by
  induction lines generalizing remove with
  | nil => exact List.Sublist.refl _
  | cons line lines ih =>
    simp only [kept]
    split <;> split
    · exact (ih _).cons line
    · exact (ih _).cons_cons line
    · exact (ih _).cons line
    · exact (ih _).cons_cons line

/-- Without the name of the share everything is kept. -/
theorem kept_all {name : Line} {lines : List Line} (h : bracket name ∉ lines) :
    kept name false lines = lines := by
  induction lines with
  | nil => rfl
  | cons line lines ih =>
    obtain ⟨hl, hls⟩ := not_or.mp (List.mem_cons.not.mp h)
    simp [kept, Ne.symm hl, ih hls]

theorem kept_append (name : Line) (remove : Bool) (xs ys : List Line) :
    ∃ r, kept name remove (xs ++ ys) = kept name remove xs ++ kept name r ys := by
  induction xs generalizing remove with
  | nil => exact ⟨remove, rfl⟩
  | cons x xs ih =>
    obtain ⟨r, hr⟩ := ih (if cutBytes 1 (captured (echo [x])) = ['['] then
      decide (x = bracket name) else remove)
    exact ⟨r, by simp only [List.cons_append, kept, hr, List.append_assoc]⟩

section
variable {name : Line} {lines vs : List Line}

theorem kept_ne (h : ∀ v ∈ vs, Value lines v) (remove : Bool) : bracket name ∉ kept name remove vs := by
  induction vs generalizing remove with
  | nil => exact List.not_mem_nil
  | cons v vs ih =>
    have ih (r : Bool) := ih (fun x hx => h x (List.mem_cons_of_mem _ hx)) r
    simp only [kept, List.mem_append, not_or]
    refine ⟨fun hm => ?_, ih _⟩
    by_cases hv : v = bracket name
    · rw [if_pos (((h v List.mem_cons_self).cut '[').mpr (by rw [hv]; rfl)), if_pos (by simpa using hv)] at hm
      cases hm
    · split at hm <;> split at hm <;> simp at hm <;> exact hv hm.symm

/-- A removed section goes on to its end. -/
theorem kept_removed (h : ∀ v ∈ vs, Value lines v ∧ v.head? ≠ some '[') : kept name true vs = [] := by
  induction vs with
  | nil => rfl
  | cons v vs ih =>
    obtain ⟨hv, hset⟩ := h v List.mem_cons_self
    simp [kept, hv.cut, hset, ih fun x hx => h x (List.mem_cons_of_mem _ hx)]

end

theorem ordinary_nil : Ordinary [] := ⟨by simp, by simp [firstChar], by simp [firstChar], by simp⟩

theorem bracket_word {name : Line} (hn : IsWord name) : Word (bracket name) := by
  refine ⟨by simp [bracket], fun c hc => ?_⟩
  simp only [bracket, List.mem_cons, List.mem_append, List.not_mem_nil, or_false] at hc
  rcases hc with rfl | hc | rfl
  · rfl
  · exact (hn.safe.tidyChar c hc).1
  · rfl

section
variable {files : Line → List Line} (hf : PlainNames files) {name : Line} {conf : List Line}

include hf

/-- The file after a change. -/
theorem delete_kept (h : ∀ l ∈ conf, Ordinary l) (args : List Line) :
    delete files args conf = (kept (arg (unquoted files [arg args 1]) 1) false
      (readLines true [] conf)).map (printedLine files) ++ [[]] := by
  have hvalue := readLines_value h (.inl ⟨rfl, rfl⟩) List.not_mem_nil
  have hkept : ∀ v ∈ kept (arg (unquoted files [arg args 1]) 1) false (readLines true [] conf),
      Value conf v := fun v hv => hvalue v ((kept_sublist _ _ _).subset hv)
  have hout : configRemove files (unquoted files [arg args 1]) conf =
      printed ((kept (arg (unquoted files [arg args 1]) 1) false
        (readLines true [] conf)).map (printedLine files) ++ [[]]) := by
    rw [configRemove, removeLoop_kept, printed_append]
    congr 1
    rw [printed, List.flatMap_map]
    exact List.flatMap_congr fun v hv => ((hkept v hv).echo hf).1
  rw [delete, hout]
  refine textLines_flatMap fun l hl => ?_
  rcases List.mem_append.mp hl with hl | hl
  · obtain ⟨v, hv, rfl⟩ := List.mem_map.mp hl
    exact ((hkept v hv).echo hf).2.1.newline
  · rw [List.mem_singleton.mp hl]
    exact List.not_mem_nil

theorem delete_ordinary (h : ∀ l ∈ conf, Ordinary l) (args : List Line) :
    ∀ l ∈ delete files args conf, Ordinary l := by
  have hvalue := readLines_value h (.inl ⟨rfl, rfl⟩) List.not_mem_nil
  rw [delete_kept hf h]
  intro l hl
  rcases List.mem_append.mp hl with hl | hl
  · obtain ⟨v, hv, rfl⟩ := List.mem_map.mp hl
    exact ((hvalue v ((kept_sublist _ _ _).subset hv)).echo hf).2.1
  · rw [List.mem_singleton.mp hl]
    exact ordinary_nil

/-- A deleted share is not in the file. -/
theorem delete_absent (h : ∀ l ∈ conf, Ordinary l) (args : List Line) (hn : IsWord name)
    (ha : arg (unquoted files [arg args 1]) 1 = name) :
    bracket name ∉ readLines true [] (delete files args conf) := by
  intro hm
  have hvalue := readLines_value h (.inl ⟨rfl, rfl⟩) List.not_mem_nil
  have hnew := readLines_value (delete_ordinary hf h args) (.inl ⟨rfl, rfl⟩) List.not_mem_nil _ hm
  obtain ⟨-, l, hl, hbracket⟩ := hnew.header rfl
  rw [delete_kept hf h, ha] at hl
  rcases List.mem_append.mp hl with hl | hl
  · obtain ⟨v, hv, rfl⟩ := List.mem_map.mp hl
    have hv' := hvalue v ((kept_sublist _ _ _).subset hv)
    have heq := eq_of_printedLine hf hv' (bracket_word hn) rfl hbracket.symm
    exact kept_ne hvalue false (heq ▸ hv)
  · rw [List.mem_singleton.mp hl] at hbracket
    cases hbracket

theorem printed_count {vs : List Line} (h : ∀ v ∈ vs, Value conf v) :
    (vs.map (printedLine files)).flatten.count '\\' ≤ vs.flatten.count '\\' := by
  induction vs with
  | nil => simp
  | cons v vs ih =>
    simp only [List.map_cons, List.flatten_cons, List.count_append]
    exact Nat.add_le_add ((h v List.mem_cons_self).echo hf).2.2
      (ih fun x hx => h x (List.mem_cons_of_mem v hx))

/-- Without the share every value is printed, and one more line: the file cannot be the same. -/
theorem delete_ne (h : ∀ l ∈ conf, Ordinary l) (args : List Line)
    (ha : bracket (arg (unquoted files [arg args 1]) 1) ∉ readLines true [] conf) :
    delete files args conf ≠ conf := by
  have hvalue := readLines_value h (.inl ⟨rfl, rfl⟩) List.not_mem_nil
  intro he
  rw [delete_kept hf h, kept_all ha] at he
  -- a joined line costs a backslash, which no line gets back
  have hcount := readLines_count conf true []
  have hprinted := printed_count hf hvalue
  have hlen := congrArg List.length he
  have hslash := congrArg (fun l : List Line => l.flatten.count '\\') he
  simp only [List.length_append, List.length_map, List.length_singleton, List.flatten_append,
    List.count_append, List.flatten_singleton, List.count_nil] at hlen hslash hcount
  omega

end

/-- The lines of a share as `add_share` prints them. -/
def addedLines (args : List Line) : List Line :=
  bracket (arg args 1) :: (["    comment = ".toList ++ arg args 1, "    path = ".toList ++ arg args 2,
    "    writeable = ".toList ++ arg args 3] ++
      if arg args 4 ≠ [] then ["    valid users = ".toList ++ arg args 4] else [])

theorem addShare_printed (args : List Line) :
    addShare args = if hasFields args then printed (addedLines args) else [] := by
  have hline (l : Line) (h : l.head? ≠ some '-') : echo [l] = printed [l] := echo_line h
  rw [addShare, hline _ (by simp [bracket]), hline _ (by simp), hline _ (by simp), hline _ (by simp),
    hline ("    valid users = ".toList ++ arg args 4) (by simp)]
  split
  · split_ifs <;> simp [addedLines, printed, *]
  · rfl

theorem newline_arg {args : List Line} (h : ∀ x ∈ args, '\n' ∉ x) (i : Nat) : '\n' ∉ arg args i := by
  rw [arg, List.getD_eq_getElem?_getD]
  cases hi : args[i - 1]? with
  | none => simp
  | some x => exact h x (List.mem_of_getElem? hi)

/-- Behind its header a share has settings only. -/
theorem addedLines_settings {args : List Line} (h : ∀ x ∈ args, '\n' ∉ x) :
    ∀ l ∈ (addedLines args).tail, Ordinary l ∧ firstChar l ≠ some '[' := by
  have hsetting (key x : Line) (c : Char) (hkey : firstChar (key ++ x) = some c)
      (hc : c ≠ '-' ∧ c ≠ '\\' ∧ c ≠ '[') (hk : '\n' ∉ key) (hx : '\n' ∉ x) :
      Ordinary (key ++ x) ∧ firstChar (key ++ x) ≠ some '[' := by
    have hset : firstChar (key ++ x) ≠ some '[' := by
      rw [hkey]
      simpa using hc.2.2
    refine ⟨⟨by simp [hk, hx], ?_, ?_, fun h => absurd h hset⟩, hset⟩ <;> rw [hkey]
    · simpa using hc.1
    · simpa using hc.2.1
  intro l hl
  simp only [addedLines, List.tail_cons, List.mem_append, List.mem_cons, List.not_mem_nil,
    or_false] at hl
  rcases hl with (rfl | rfl | rfl) | hl
  · exact hsetting _ _ 'c' rfl (by decide) (by decide) (newline_arg h 1)
  · exact hsetting _ _ 'p' rfl (by decide) (by decide) (newline_arg h 2)
  · exact hsetting _ _ 'w' rfl (by decide) (by decide) (newline_arg h 3)
  · split at hl
    · rw [List.mem_singleton.mp hl]
      exact hsetting _ _ 'v' rfl (by decide) (by decide) (newline_arg h 4)
    · cases hl

/-- The header of a share with a word for its name. -/
theorem bracket_ordinary {name : Line} (hn : IsWord name) : Ordinary (bracket name) :=
  have ht := bracket_tidy hn.safe.sound
  ⟨ht.newline, by simp [firstChar, bracket, isBlank], by simp [firstChar, bracket, isBlank],
    fun _ => ht.backslash⟩

theorem addedLines_ordinary {args : List Line} (h : ∀ x ∈ args, '\n' ∉ x) (hn : IsWord (arg args 1)) :
    ∀ l ∈ addedLines args, Ordinary l := by
  intro l hl
  rcases List.mem_cons.mp hl with rfl | hl
  · exact bracket_ordinary hn
  · exact (addedLines_settings h l hl).1

/-- A share that is added again goes as a whole. -/
theorem kept_addedLines {args : List Line} (h : ∀ x ∈ args, '\n' ∉ x) (hn : IsWord (arg args 1))
    (remove : Bool) : kept (arg args 1) remove (readLines true [] (addedLines args)) = [] := by
  have ht := bracket_tidy hn.safe.sound
  obtain ⟨hchars, hjoined⟩ := readPart_start ht.backslash
  have hread : readLines true [] (addedLines args) =
      bracket (arg args 1) :: readLines true [] (addedLines args).tail := by
    have hhead : trimEnd ([] ++ (readPart true (bracket (arg args 1))).chars) =
        bracket (arg args 1) := by
      rw [List.nil_append, hchars]
      exact ht.trimmed
    conv_lhs => rw [addedLines, readLines, if_neg (by simp [hjoined]), hhead]
    rfl
  have hheader : Value [bracket (arg args 1)] (trim (bracket (arg args 1))) :=
    Value.of_header List.mem_cons_self (bracket_ordinary hn) rfl
  rw [ht.trimmed] at hheader
  have hrest := readLines_value (fun l hl => (addedLines_settings h l hl).1) (.inl ⟨rfl, rfl⟩)
    List.not_mem_nil
  rw [hread]
  simp only [kept, (hheader.cut '[').mpr rfl, ↓reduceIte, decide_true, List.nil_append]
  refine kept_removed fun v hv => ⟨hrest v hv, fun hset => ?_⟩
  obtain ⟨-, l, hl, rfl⟩ := (hrest v hv).header hset
  exact (addedLines_settings h l hl).2 (firstChar_of_trim hset)

/-- A word is an argument as it is. -/
theorem unquoted_cons_word (files : Line → List Line) {name : Line} (hn : IsWord name)
    (args : List Line) : unquoted (metaOnly files) (name :: args) = name :: unquoted (metaOnly files) args := by
  have hplain := unquoted_plain files hn.1 fun c hc =>
    not_mem_of_word (List.all_eq_true.mp hn.2 c hc) (by decide)
  rw [unquoted, List.flatMap_singleton] at hplain
  simp [unquoted, hplain]

theorem newline_unquoted {files : Line → List Line} (hf : PlainNames files) {args : List Line}
    (h : ∀ x ∈ args, '\n' ∉ x) : ∀ x ∈ unquoted files args, '\n' ∉ x := by
  intro x hx hc
  obtain ⟨v, hv, hx⟩ := List.mem_flatMap.mp hx
  have hmem : x ∈ unquoted files [v] := by rwa [unquoted, List.flatMap_singleton]
  rcases mem_unquoted_value hf hmem with ⟨-, hin⟩ | ⟨hn, -⟩
  · exact h v hv (hin.subset hc)
  · exact hn hc

/-- One command of the script, whatever its arguments are. -/
def smbshareStep (ops : TestOps) (files : Line → List Line) (conf args : List Line) :
    Option (List Line) :=
  some (smbshare ops files args conf).1

/-- Shares are added under names of word characters. -/
def WordName (_conf args : List Line) : Prop :=
  (∀ x ∈ args, '\n' ∉ x) ∧ (arg args 1 = "-a".toList → IsWord (arg args 2))

theorem shipped_ordinary : ∀ l ∈ shipped, Ordinary l := by
  intro l hl
  have ht := header_tidy _ (List.mem_map_of_mem hl)
  have hslash : '\\' ∉ l := fun hc => ht.backslash (mem_trim hc rfl)
  refine ⟨fun hc => ht.newline (mem_trim hc rfl), fun hd => ht.start (trim_head hd), fun he => ?_,
    fun _ => hslash⟩
  exact ht.backslash (List.mem_of_mem_head? (trim_head he))

/-- The file holds no share and ends in `n` empty lines. -/
structure Grown (n : Nat) (conf : List Line) : Prop where
  ends : ∃ a m, conf = a ++ m :: List.replicate n [] ∧ trim m = header.getD 16 []
  backslash : ∀ l ∈ conf, '\\' ∉ l
  absent : bracket ['x'] ∉ readLines true [] conf

theorem marker_tidy : Tidy (header.getD 16 []) := by
  have hlen : 16 < header.length := Nat.lt_succ_self 16
  rw [List.getD_eq_getElem?_getD, List.getElem?_eq_getElem hlen, Option.getD_some]
  exact header_tidy _ (List.getElem_mem hlen)

/-- There is one section header in the file. -/
theorem shipped_absent {name : Line} (hn : name ≠ "global".toList) :
    bracket name ∉ readLines true [] shipped := by
  rw [readLines_eq_trim shipped_layout.backslash, show shipped.map trim = header from rfl,
    header_split]
  intro hm
  simp only [List.mem_append, List.mem_cons] at hm
  rcases hm with hm | hm | hm
  · exact header_other _ (List.mem_append_left _ hm) rfl
  · exact hn (List.append_cancel_right (List.cons.inj hm).2)
  · exact header_other _ (List.mem_append_right _ hm) rfl

theorem shipped_grown : Grown 0 shipped where
  ends := ⟨shipped.take 16, shipped.getD 16 [], rfl, rfl⟩
  backslash := shipped_layout.backslash
  absent := shipped_absent (by decide)

/-- `-list` prints nothing for such a file. -/
theorem Grown.list {ops : TestOps} {files : Line → List Line} {n : Nat} {conf : List Line} (h : Grown n conf) :
    (smbshare ops files ["-list".toList] conf).2 = [] := by
  obtain ⟨a, m, rfl, hm⟩ := h.ends
  have hgrep : grep "#==".toList m = true :=
    (grep_marker m).mpr (header_marker.trans (hm ▸ trim_infix m))
  have hblank : grep "#==".toList [] = false := by decide
  have hskip : skip (a ++ m :: List.replicate n []) = some (a.length + 1) :=
    skip_eq a hgrep fun l hl => List.eq_of_mem_replicate hl ▸ hblank
  have hdrop : (a ++ m :: List.replicate n []).drop (a.length + 1) = List.replicate n [] := by
    rw [List.append_cons, List.drop_left' (by simp)]
  have hread : readLines true [] (List.replicate n []) = List.replicate n [] := by
    rw [readLines_eq_trim, List.map_replicate]
    · rfl
    · intro l hl
      rw [List.eq_of_mem_replicate hl]
      exact List.not_mem_nil
  show Samba.list ops files _ = []
  simp only [Samba.list, hskip, hdrop, hread, list_blanks, textLines_replicate]
  rw [List.filter_eq_nil_iff]
  intro l hl
  rw [sortB, List.mem_insertionSort] at hl
  rw [List.eq_of_mem_replicate hl]
  decide

theorem smbshare_a {ops : TestOps} (files : Line → List Line) (name path write user : Line) (conf : List Line) :
    (smbshare ops files ["-a".toList, name, path, write, user] conf).1 =
      setShare files (unquoted files [name, path, write, user]) conf := rfl

theorem smbshare_x {ops : TestOps} (files : Line → List Line) (name : Line) (conf : List Line) :
    (smbshare ops files ["-x".toList, name] conf).1 =
      delete files (unquoted files [name]) conf := rfl

section
variable {ops : TestOps} {files : Line → List Line} (hf : PlainNames files) {name : Line}
  {conf : List Line}

include hf

/-- What `set_share` puts behind the file that `delete` leaves. -/
theorem setShare_added (hn : IsWord name) {args : List Line} (hargs : ∀ x ∈ args, '\n' ∉ x) :
    ∃ added, (∀ l ∈ added, Ordinary l) ∧
      (∀ remove, kept name remove (readLines true [] added) = []) ∧
      ∀ c, setShare (metaOnly files) (name :: args) c = delete (metaOnly files) [name] c ++ added := by
  have hone := unquoted_cons_word files hn []
  obtain ⟨rest, hrest, hset⟩ : ∃ rest, (∀ x ∈ rest, '\n' ∉ x) ∧
      ∀ c, setShare (metaOnly files) (name :: args) c = delete (metaOnly files) [name] c ++
        textLines [] (addShare (name :: rest)) := by
    have hall : ∀ x ∈ name :: args, '\n' ∉ x := by
      simpa using ⟨hn.safe.not_mem (by decide), hargs⟩
    refine ⟨unquoted (metaOnly files) [arg (name :: args) 2, arg (name :: args) 3,
      arg (name :: args) 4], newline_unquoted (metaOnly_plain hf) ?_, fun c => ?_⟩
    · simp only [List.mem_cons, List.not_mem_nil, or_false]
      rintro x (rfl | rfl | rfl) <;> exact newline_arg hall _
    · have hname : arg (name :: args) 1 = name := rfl
      rw [setShare, hname, hone, unquoted_cons_word files hn]
      rfl
  have hline : ∀ x ∈ name :: rest, '\n' ∉ x := by
    simpa using ⟨hn.safe.not_mem (by decide), hrest⟩
  rw [addShare_printed] at hset
  split at hset
  · have hord := addedLines_ordinary hline hn
    refine ⟨_, hord, kept_addedLines hline hn, fun c => ?_⟩
    rw [hset, printed, textLines_flatMap fun l hl => (hord l hl).newline]
  · refine ⟨[], by simp, fun _ => rfl, fun c => ?_⟩
    rw [hset]
    rfl

theorem deletes_ordinary (h : ∀ l ∈ conf, Ordinary l) (names : List Line) :
    ∀ l ∈ names.foldl (fun conf n => delete files (unquoted files [n]) conf) conf, Ordinary l := by
  induction names generalizing conf with
  | nil => exact h
  | cons n names ih => exact ih (delete_ordinary hf h _)

/-- The new file is one that `delete` left, with a share behind it or not. -/
theorem step_ordinary (h : ∀ l ∈ conf, Ordinary l) {args : List Line} (ha : WordName conf args) :
    ∀ l ∈ (smbshare ops (metaOnly files) args conf).1, Ordinary l := by
  have hm := metaOnly_plain hf
  unfold smbshare
  split_ifs with hadd hx hxuser
  · obtain ⟨hargs, hname⟩ := ha
    have hn := hname hadd
    have hrest : ∀ x ∈ unquoted (metaOnly files) [arg args 3, arg args 4, arg args 5], '\n' ∉ x := by
      refine newline_unquoted hm fun x hx => ?_
      simp only [List.mem_cons, List.not_mem_nil, or_false] at hx
      rcases hx with rfl | rfl | rfl <;> exact newline_arg hargs _
    obtain ⟨added, hord, -, hset⟩ := setShare_added hf hn hrest
    simp only [unquoted_cons_word files hn, hset]
    intro l hl
    rcases List.mem_append.mp hl with hl | hl
    · exact delete_ordinary hm h _ l hl
    · exact hord l hl
  · exact delete_ordinary hm h _
  · exact deletes_ordinary hm h _
  · exact h
  · exact h
  · exact h

theorem reach_ordinary (h : Reach (smbshareStep ops (metaOnly files)) WordName shipped conf) :
    ∀ l ∈ conf, Ordinary l := by
  refine h.invariant (I := fun conf => ∀ l ∈ conf, Ordinary l) shipped_ordinary
    fun u args t hu hok hs => ?_
  obtain rfl := Option.some.inj hs
  exact step_ordinary hf hu hok

/-- Adding a share twice leaves one line more than adding it once. -/
theorem add_twice_ne (h : ∀ l ∈ conf, Ordinary l) (hn : IsWord name) {path write user : Line}
    (hargs : '\n' ∉ path ∧ '\n' ∉ write ∧ '\n' ∉ user) :
    (smbshare ops (metaOnly files) ["-a".toList, name, path, write, user]
        (smbshare ops (metaOnly files) ["-a".toList, name, path, write, user] conf).1).1 ≠
      (smbshare ops (metaOnly files) ["-a".toList, name, path, write, user] conf).1 := by
  have hm := metaOnly_plain hf
  have hrest : ∀ x ∈ unquoted (metaOnly files) [path, write, user], '\n' ∉ x :=
    newline_unquoted hm (by simpa using hargs)
  obtain ⟨added, hord, hkept, hset⟩ := setShare_added hf hn hrest
  have hadd (c : List Line) :
      (smbshare ops (metaOnly files) ["-a".toList, name, path, write, user] c).1 =
      delete (metaOnly files) [name] c ++ added := by
    rw [← hset c, ← unquoted_cons_word files hn, smbshare_a]
  have hone : arg (unquoted (metaOnly files) [arg [name] 1]) 1 = name := by
    rw [show arg [name] 1 = name from rfl, unquoted_cons_word files hn]
    rfl
  have hdel := delete_ordinary hm h [name]
  have habsent := delete_absent hm h [name] hn hone
  -- the section that was added is removed again, and nothing else
  have hagain : delete (metaOnly files) [name] (delete (metaOnly files) [name] conf ++ added) =
      delete (metaOnly files) [name] (delete (metaOnly files) [name] conf) := by
    have hboth : ∀ l ∈ delete (metaOnly files) [name] conf ++ added, Ordinary l := by
      intro l hl
      rcases List.mem_append.mp hl with hl | hl
      · exact hdel l hl
      · exact hord l hl
    rw [delete_kept hm hboth, delete_kept hm hdel, hone, delete_kept hm h, List.append_assoc,
      List.singleton_append, readLines_append_blank]
    obtain ⟨r, hr⟩ := kept_append name false (readLines true [] ((kept (arg (unquoted
      (metaOnly files) [arg [name] 1]) 1) false (readLines true [] conf)).map
      (printedLine (metaOnly files)) ++ [[]])) (readLines true [] added)
    rw [hr, hkept, List.append_nil]
  rw [hadd, hadd, hagain]
  intro he
  exact delete_ne hm hdel [name] (by rwa [hone]) (List.append_cancel_right he)

theorem remove_absent_ne (h : ∀ l ∈ conf, Ordinary l) (hn : IsWord name)
    (ha : bracket name ∉ readLines true [] conf) :
    (smbshare ops (metaOnly files) ["-x".toList, name] conf).1 ≠ conf := by
  have hargs : unquoted (metaOnly files) [name] = [name] := unquoted_cons_word files hn []
  rw [smbshare_x, hargs]
  refine delete_ne (metaOnly_plain hf) h [name] ?_
  rwa [show arg [name] 1 = name from rfl, hargs]

/-- Deleting a share that is not there adds an empty line. -/
theorem Grown.remove {n : Nat} (h : ∀ l ∈ conf, Ordinary l) (hg : Grown n conf) :
    Grown (n + 1) (smbshare ops (metaOnly files) ["-x".toList, ['x']] conf).1 := by
  have hm := metaOnly_plain hf
  have hn : IsWord ['x'] := by decide
  have hargs : unquoted (metaOnly files) [['x']] = [['x']] := unquoted_cons_word files hn []
  have hone : arg (unquoted (metaOnly files) [arg [['x']] 1]) 1 = ['x'] := by
    rw [show arg [['x']] 1 = ['x'] from rfl, hargs]
    rfl
  have hread : readLines true [] conf = conf.map trim := readLines_eq_trim hg.backslash
  have hdel : delete (metaOnly files) [['x']] conf =
      (conf.map trim).map (printedLine (metaOnly files)) ++ [[]] := by
    rw [delete_kept hm h, hone, kept_all hg.absent, hread]
  have hvalue := readLines_value h (.inl ⟨rfl, rfl⟩) List.not_mem_nil
  rw [smbshare_x, hargs]
  refine ⟨?_, fun l hl => ?_, delete_absent hm h _ hn hone⟩
  · obtain ⟨a, m, rfl, hmark⟩ := hg.ends
    refine ⟨(a.map trim).map (printedLine (metaOnly files)), header.getD 16 [], ?_, ?_⟩
    · have hprint : printedLine (metaOnly files) (header.getD 16 []) = header.getD 16 [] := by
        rw [printedLine, unquoted_metaOnly files (by decide +kernel)]
        exact marker_tidy.words
      have hnil : printedLine (metaOnly files) (trim []) = [] := rfl
      rw [hdel]
      simp only [List.map_append, List.map_cons, hmark, hprint, List.map_replicate, hnil]
      rw [List.append_assoc, List.cons_append, ← List.replicate_succ']
    · exact marker_tidy.trimmed
  · rw [hdel] at hl
    rcases List.mem_append.mp hl with hl | hl
    · obtain ⟨v, hv, rfl⟩ := List.mem_map.mp hl
      have hv' := hvalue v (hread ▸ hv)
      obtain ⟨x, hx, rfl⟩ := List.mem_map.mp hv
      have hin := trim_infix x
      have hcount := (hv'.echo hm).2.2
      rw [List.count_eq_zero.mpr fun hc => hg.backslash x hx (hin.subset hc)] at hcount
      exact List.count_eq_zero.mp (Nat.le_zero.mp hcount)
    · rw [List.mem_singleton.mp hl]
      exact List.not_mem_nil

/-- Files without shares of any size are reached. -/
theorem reach_grown (n : Nat) :
    ∃ conf, Reach (smbshareStep ops (metaOnly files)) WordName shipped conf ∧ Grown n conf := by
  induction n with
  | zero => exact ⟨shipped, .start, shipped_grown⟩
  | succ n ih =>
    obtain ⟨conf, hreach, hgrown⟩ := ih
    have hname : WordName conf ["-x".toList, ['x']] := by
      refine ⟨by decide, fun h => ?_⟩
      have hne : arg ["-x".toList, ['x']] 1 ≠ "-a".toList := by decide
      exact absurd h hne
    exact ⟨_, hreach.next hname rfl, hgrown.remove hf (reach_ordinary hf hreach)⟩

end

/-- The number of characters of a file. -/
def size (conf : List Line) : Nat := (printed conf).length

theorem length_le_size (conf : List Line) : conf.length ≤ size conf := by
  induction conf with
  | nil => exact Nat.le_refl 0
  | cons l conf ih =>
    simp only [size, printed, List.flatMap_cons, List.length_append, List.length_cons,
      List.length_nil] at ih ⊢
    omega

theorem Grown.size {n : Nat} {conf : List Line} (h : Grown n conf) : n < size conf := by
  obtain ⟨a, m, rfl, -⟩ := h.ends
  refine Nat.lt_of_lt_of_le ?_ (length_le_size _)
  simp only [List.length_append, List.length_cons, List.length_replicate]
  omega

/-- No share update is idempotent on the file: adding a share twice, or deleting one that is not
there, always changes it, and its size has no bound in what `-list` shows. -/
theorem updates_change_file {ops : TestOps} {files : Line → List Line} (hf : PlainNames files) :
    (∀ conf, Reach (smbshareStep ops (metaOnly files)) WordName shipped conf →
      (∀ name path write user, IsWord name → '\n' ∉ path ∧ '\n' ∉ write ∧ '\n' ∉ user →
        (smbshare ops (metaOnly files) ["-a".toList, name, path, write, user]
            (smbshare ops (metaOnly files) ["-a".toList, name, path, write, user] conf).1).1 ≠
          (smbshare ops (metaOnly files) ["-a".toList, name, path, write, user] conf).1) ∧
      ∀ name, IsWord name → bracket name ∉ readLines true [] conf →
        (smbshare ops (metaOnly files) ["-x".toList, name] conf).1 ≠ conf) ∧
    ∀ bound : List Line → Nat, ∃ conf,
      Reach (smbshareStep ops (metaOnly files)) WordName shipped conf ∧
      bound (smbshare ops (metaOnly files) ["-list".toList] conf).2 < size conf := by
  refine ⟨fun conf h => ⟨fun name path write user hn hargs => ?_, fun name hn ha => ?_⟩,
    fun bound => ?_⟩
  · exact add_twice_ne hf (reach_ordinary hf h) hn hargs
  · exact remove_absent_ne hf (reach_ordinary hf h) hn ha
  · obtain ⟨conf, hreach, hgrown⟩ := reach_grown hf (bound [])
    refine ⟨conf, hreach, ?_⟩
    rw [hgrown.list]
    exact hgrown.size

/-- A directory in which no pattern matches. -/
theorem noFiles_plain : PlainNames fun _ => [] := fun _ _ hn => absurd hn List.not_mem_nil

def addMusic (conf : List Line) : List Line :=
  (smbshare noOps (metaOnly fun _ => [])
    ["-a".toList, "music".toList, "/usb/music".toList, "yes".toList, []] conf).1

/-- On the shipped file the second of two equal commands adds an empty line. -/
theorem music_added_twice :
    Reach (smbshareStep noOps (metaOnly fun _ => [])) WordName shipped shipped ∧
    addMusic (addMusic shipped) ≠ addMusic shipped :=
  ⟨.start, add_twice_ne noFiles_plain shipped_ordinary (by decide) (by decide)⟩

theorem updates_change_file_shipped :
    addMusic (addMusic shipped) ≠ addMusic shipped ∧
      (smbshare noOps (metaOnly fun _ => []) ["-x".toList, "music".toList] shipped).1 ≠
        shipped := by
  obtain ⟨hadd, hremove⟩ := (updates_change_file noFiles_plain).1 shipped .start
  exact ⟨hadd _ _ _ [] (by decide) (by decide), hremove _ (by decide) (shipped_absent (by decide))⟩

end SnakeOs.Samba
