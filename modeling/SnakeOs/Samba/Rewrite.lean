import SnakeOs.Samba.Layout

namespace SnakeOs.Samba
open Lib

/-- Printing lines as they are. -/
def printed (lines : List Line) : List Char := lines.flatMap fun l => l ++ ['\n']

theorem printed_append (xs ys : List Line) : printed (xs ++ ys) = printed xs ++ printed ys :=
  List.flatMap_append

/-- A section is its header and lines that are none. -/
theorem entry_body {e : Entry} (hs : SoundShare (e.name, e.share)) :
    ∃ body, e.lines = bracket e.name :: body ∧ ∀ l ∈ body, Tidy l ∧ l.head? ≠ some '[' := by
  refine ⟨(sectionLines e.name e.share).tail ++ List.replicate e.blanks [], rfl, fun l hl => ?_⟩
  rcases List.mem_append.mp hl with hl | hl
  · obtain ⟨key, v, rfl, hk, hw, hv⟩ := mem_settings hs hl
    exact ⟨setting_tidy hk hw hv, setting_head hk hw v (by decide)⟩
  · rw [List.eq_of_mem_replicate hl]
    exact ⟨Tidy.nil, by simp⟩

section Loop

variable {files : Line → List Line} (hf : ∀ w, files w = []) {name : Line}

include hf

/-- A section header decides whether the lines after it are kept. -/
theorem removeLoop_bracket {m : Line} (hm : SoundWord m) (remove : Bool) (lines : List Line) :
    removeLoop files name remove (bracket m :: lines) =
      if m = name then removeLoop files name true lines
      else bracket m ++ '\n' :: removeLoop files name false lines := by
  have hcut : cutBytes 1 (captured (echo [bracket m])) = ['['] := by
    rw [captured_echo (bracket_tidy hm)]
    rfl
  have hiff : bracket m = bracket name ↔ m = name := by simp [bracket]
  simp only [removeLoop, hcut, ↓reduceIte, hiff]
  by_cases he : m = name
  · simp [he]
  · simp [he, (bracket_tidy hm).echo hf]

theorem removeLoop_body {ls : List Line} (h : ∀ l ∈ ls, Tidy l ∧ l.head? ≠ some '[')
    (remove : Bool) (lines : List Line) :
    removeLoop files name remove (ls ++ lines) =
      (if remove then [] else printed ls) ++ removeLoop files name remove lines := by
  induction ls with
  | nil => simp [printed]
  | cons l ls ih =>
    obtain ⟨ht, hs⟩ := h l List.mem_cons_self
    have hcut : cutBytes 1 (captured (echo [l])) ≠ ['['] := by
      rw [captured_echo ht, cutBytes]
      intro he
      cases l with
      | nil => cases he
      | cons c l => exact hs (by simpa using he)
    rw [List.cons_append, removeLoop, if_neg hcut,
      ih fun x hx => h x (List.mem_cons_of_mem _ hx)]
    cases remove <;> simp [printed, ht.echo hf]

theorem removeLoop_entry {e : Entry} (hs : SoundShare (e.name, e.share)) (remove : Bool)
    (lines : List Line) : removeLoop files name remove (e.lines ++ lines) =
      if e.name = name then removeLoop files name true lines
      else printed e.lines ++ removeLoop files name false lines := by
  obtain ⟨body, hbody, htidy⟩ := entry_body hs
  rw [hbody, List.cons_append, removeLoop_bracket hf hs.name, removeLoop_body hf htidy,
    removeLoop_body hf htidy]
  simp [printed]

theorem removeLoop_entries {es : List Entry} (h : ∀ p ∈ content es, SoundShare p)
    (remove : Bool) : removeLoop files name remove (es.flatMap Entry.lines) =
      printed ((es.filter fun e => e.name ≠ name).flatMap Entry.lines) := by
  induction es generalizing remove with
  | nil => rfl
  | cons e es ih =>
    have hs := h _ (mem_content List.mem_cons_self)
    have ih := ih fun p hp => h p (List.mem_cons_of_mem _ hp)
    rw [List.flatMap_cons, removeLoop_entry hf hs, ih, ih]
    by_cases he : e.name = name
    · simp [he]
    · simp [he, printed_append]

/-- `config_remove` drops the section of the name and nothing else. -/
theorem removeLoop_laidOut {k : Nat} {es : List Entry} (h : ∀ p ∈ content es, SoundShare p)
    (hn : name ≠ "global".toList) : removeLoop files name false (laidOut k es) =
      printed (laidOut k (es.filter fun e => e.name ≠ name)) := by
  have hglobal : SoundWord "global".toList := (safeWord_of_all (by decide)).sound
  have hfirst : ∀ l ∈ header.take 1, Tidy l ∧ l.head? ≠ some '[' := fun l hl =>
    ⟨header_tidy l (List.mem_of_mem_take hl), header_other l (List.mem_append_left _ hl)⟩
  have hrest : ∀ l ∈ header.drop 2 ++ List.replicate k [], Tidy l ∧ l.head? ≠ some '[' := by
    intro l hl
    rcases List.mem_append.mp hl with hl | hl
    · exact ⟨header_tidy l (List.mem_of_mem_drop hl), header_other l (List.mem_append_right _ hl)⟩
    · rw [List.eq_of_mem_replicate hl]
      exact ⟨Tidy.nil, by simp⟩
  rw [laidOut_split, laidOut_split, removeLoop_body hf hfirst,
    removeLoop_bracket hf hglobal, if_neg (Ne.symm hn), removeLoop_body hf hrest,
    removeLoop_entries hf h]
  simp [printed]

end Loop

/-- One more empty line at the end belongs to the last section. -/
theorem laidOut_pad (k : Nat) {es : List Entry} (h : ∀ e ∈ es.dropLast, 0 < e.blanks) :
    ∃ k' es', laidOut k es ++ [[]] = laidOut k' es' ∧ content es' = content es ∧
      ∀ e ∈ es', 0 < e.blanks := by
  rcases List.eq_nil_or_concat es with rfl | ⟨init, last, rfl⟩
  · refine ⟨k + 1, [], ?_, rfl, by simp⟩
    simp [laidOut, List.replicate_succ']
  · rw [List.concat_eq_append] at h ⊢
    rw [List.dropLast_concat] at h
    refine ⟨k, init ++ [{ last with blanks := last.blanks + 1 }], ?_, by simp [content], ?_⟩
    · simp [laidOut, Entry.lines, List.replicate_succ']
    · intro e he
      rcases List.mem_append.mp he with he | he
      · exact h e he
      · obtain rfl := List.mem_singleton.mp he
        exact Nat.succ_pos _

theorem unquoted_word {files : Line → List Line} (hf : ∀ w, files w = []) {w : Line}
    (hw : Word w) : unquoted files [w] = [w] := by
  rw [unquoted_eq_split hf, List.flatMap_singleton, hw.split]

theorem apart_filter {es : List Entry} (h : ∀ e ∈ es.dropLast, 0 < e.blanks)
    (p : Entry → Bool) : ∀ e ∈ (es.filter p).dropLast, 0 < e.blanks := by
  rcases List.eq_nil_or_concat es with rfl | ⟨init, last, rfl⟩
  · simp
  · rw [List.concat_eq_append] at h ⊢
    rw [List.dropLast_concat] at h
    intro e he
    refine h e ?_
    rw [List.filter_append] at he
    cases hl : p last with
    | true =>
      rw [List.filter_singleton, hl, cond_true, List.dropLast_concat] at he
      exact List.mem_of_mem_filter he
    | false =>
      rw [List.filter_singleton, hl, cond_false, List.append_nil] at he
      exact List.mem_of_mem_filter (List.mem_of_mem_dropLast he)

/-- What `delete` leaves of the lines. -/
theorem delete_lines {files : Line → List Line} (hf : ∀ w, files w = []) {name : Line}
    (hw : Word name) (hn : name ≠ "global".toList) {conf : List Line} {k : Nat}
    {es : List Entry} (hk : conf.map trim = laidOut k es) (hb : ∀ l ∈ conf, '\\' ∉ l)
    (hv : ∀ p ∈ content es, SoundShare p) :
    delete files [name] conf = laidOut k (es.filter fun e => e.name ≠ name) ++ [[]] := by
  have hkeep : ∀ p ∈ content (es.filter fun e => e.name ≠ name), SoundShare p := by
    intro p hp
    obtain ⟨e, he, rfl⟩ := List.mem_map.mp hp
    exact hv _ (mem_content (List.mem_of_mem_filter he))
  have hout : configRemove files [name] conf =
      printed (laidOut k (es.filter fun e => e.name ≠ name) ++ [[]]) := by
    rw [configRemove, readLines_eq_trim hb, hk, printed_append]
    exact congrArg (· ++ ['\n']) (removeLoop_laidOut hf hv hn)
  rw [delete, show arg [name] 1 = name from rfl, unquoted_word hf hw, hout]
  refine textLines_flatMap fun l hl => ?_
  rcases List.mem_append.mp hl with hl | hl
  · exact (laidOut_tidy hkeep l hl).newline
  · rw [List.mem_singleton.mp hl]
    exact List.not_mem_nil

/-- `delete` removes the share of the name; every share has an empty line after it then. -/
theorem delete_holds {files : Line → List Line} (hf : ∀ w, files w = []) {name : Line}
    (hw : Word name) (hn : name ≠ "global".toList) {conf : List Line} {es : List Entry}
    (h : Holds conf es) : ∃ es', Holds (delete files [name] conf) es' ∧
      content es' = (content es).filter (fun p => p.1 ≠ name) ∧ ∀ e ∈ es', 0 < e.blanks := by
  obtain ⟨k, hk⟩ := h.lines
  obtain ⟨k', es', hpad, hcon, hblanks⟩ :=
    laidOut_pad k (apart_filter h.apart fun e => e.name ≠ name)
  have hcontent : content es' = (content es).filter (fun p => p.1 ≠ name) := by
    rw [hcon, content, content, List.filter_map]
    rfl
  have hsound : ∀ p ∈ content es', SoundShare p := by
    rw [hcontent]
    exact fun p hp => h.sound p (List.mem_of_mem_filter hp)
  have hlines := delete_lines hf hw hn hk h.backslash h.sound
  rw [hpad] at hlines
  have htidy : ∀ l ∈ delete files [name] conf, Tidy l := hlines ▸ laidOut_tidy hsound
  refine ⟨es', ⟨⟨k', ?_⟩, fun l hl => (htidy l hl).backslash, hsound, ?_, ?_⟩, hcontent, hblanks⟩
  · rw [← hlines]
    conv_rhs => rw [← List.map_id (delete files [name] conf)]
    exact List.map_congr_left fun l hl => (htidy l hl).trimmed
  · exact fun e he => hblanks e (List.mem_of_mem_dropLast he)
  · rw [hcontent]
    exact h.names.sublist (List.filter_sublist.map _)

/-- The lines `add_share` prints for a share. -/
def newSection (name : Line) (s : Share) : List Line :=
  bracket name :: (sectionLines name s).tail.map ("    ".toList ++ ·)

theorem arg_fields (name : Line) (s : Share) : arg (fields name s) 1 = name ∧
    arg (fields name s) 2 = s.path ∧ arg (fields name s) 3 = s.write ∧
    arg (fields name s) 4 = s.user.getD [] := by
  refine ⟨rfl, rfl, rfl, ?_⟩
  cases hu : s.user <;> simp [arg, fields, hu]

/-- Words of path characters are no operators. -/
theorem not_binop {w : Line} (hw : w.all isPathChar = true) : w ∉ testBinops := by
  have hall : ∀ b ∈ testBinops, b.all isPathChar = false := by decide
  intro h
  rw [hall w h] at hw
  cases hw

theorem hasFields_fields {name : Line} {s : Share} (hn : IsWord name) (hs : s.Valid) :
    hasFields (fields name s) = true := by
  obtain ⟨h1, h2, h3, -⟩ := arg_fields name s
  have hword : name.all isPathChar = true :=
    List.all_eq_true.mpr fun c hc => by simp [isPathChar, List.all_eq_true.mp hn.2 c hc]
  have hsafe := fields_safe hn hs
  have hwrite : s.write ≠ ['('] := by
    rcases hs.write with h | h <;> rw [h] <;> decide
  rw [hasFields, h1, h2, h3, decide_eq_true_iff, bracket_nonempty]
  exact ⟨⟨hn.1, not_binop hword⟩, ⟨(hsafe s.path (by simp [fields])).1, not_binop hs.path.2⟩,
    (hsafe s.write (by simp [fields])).1, hwrite⟩

theorem echo_line {line : Line} (h : line.head? ≠ some '-') : echo [line] = printed [line] := by
  rw [echo_words h, List.intercalate_singleton, printed, List.flatMap_singleton]

theorem addShare_eq {name : Line} {s : Share} (hs : SoundShare (name, s)) :
    addShare (fields name s) =
      if hasFields (fields name s) then printed (newSection name s) else [] := by
  have hne : ∀ v ∈ fields name s, v ≠ [] := fun v hv => (hs.2 v hv).1
  have hbracket : echo [bracket name] = printed [bracket name] := echo_line (by simp [bracket])
  have hset (key : List Line) (v : Line) : echo ["    ".toList ++ setting key v] =
      printed ["    ".toList ++ setting key v] := echo_line (by simp)
  -- the texts of the script are the indented settings
  have hcomment : "    comment = ".toList ++ name = "    ".toList ++
      setting ["comment".toList] name := by rw [setting_eq (by simp)]; rfl
  have hpath : "    path = ".toList ++ s.path = "    ".toList ++
      setting ["path".toList] s.path := by rw [setting_eq (by simp)]; rfl
  have hwrite : "    writeable = ".toList ++ s.write = "    ".toList ++
      setting ["writeable".toList] s.write := by rw [setting_eq (by simp)]; rfl
  have huser (u : Line) : "    valid users = ".toList ++ u = "    ".toList ++
      setting ["valid".toList, "users".toList] u := by rw [setting_eq (by simp)]; rfl
  have hlast : (if s.user.getD [] ≠ [] then
      echo ["    valid users = ".toList ++ s.user.getD []] else []) =
      printed ((s.user.map fun u => "    ".toList ++
        setting ["valid".toList, "users".toList] u).toList) := by
    cases hu : s.user with
    | none => rfl
    | some u =>
      have hune : u ≠ [] := hne u (by simp [fields, hu])
      rw [Option.getD_some, if_pos hune, huser, hset]
      rfl
  obtain ⟨h1, h2, h3, h4⟩ := arg_fields name s
  rw [addShare, h1, h2, h3, h4, hcomment, hpath, hwrite, hbracket, hset, hset, hset,
    hlast, ← printed_append, ← printed_append, ← printed_append, ← printed_append]
  rw [newSection, sectionLines]
  cases s.user <;> rfl

theorem trim_indented (l : Line) : trim ("    ".toList ++ l) = trim l := by
  simp [trim, isBlank]

theorem newSection_trim {name : Line} {s : Share} (hs : SoundShare (name, s)) :
    (newSection name s).map trim = sectionLines name s := by
  have htidy := sectionLines_tidy hs
  have hhead : sectionLines name s = bracket name :: (sectionLines name s).tail := rfl
  rw [newSection, List.map_cons, List.map_map, (bracket_tidy hs.name).trimmed]
  conv_rhs => rw [hhead, ← List.map_id (sectionLines name s).tail]
  congr 1
  refine List.map_congr_left fun l hl => ?_
  rw [Function.comp_apply, trim_indented]
  exact (htidy l (List.mem_of_mem_tail hl)).trimmed

theorem mem_newSection {name : Line} {s : Share} (hs : SoundShare (name, s)) {l : Line}
    (h : l ∈ newSection name s) : '\n' ∉ l ∧ '\\' ∉ l := by
  rcases List.mem_cons.mp h with rfl | h
  · exact ⟨(bracket_tidy hs.name).newline, (bracket_tidy hs.name).backslash⟩
  · obtain ⟨m, hm, rfl⟩ := List.mem_map.mp h
    have ht := sectionLines_tidy hs m (List.mem_of_mem_tail hm)
    have hi : ∀ c ∈ "    ".toList, c ≠ '\n' ∧ c ≠ '\\' := by simp
    refine ⟨fun hc => ?_, fun hc => ?_⟩
    · rcases List.mem_append.mp hc with hc | hc
      · exact (hi _ hc).1 rfl
      · exact ht.newline hc
    · rcases List.mem_append.mp hc with hc | hc
      · exact (hi _ hc).2 rfl
      · exact ht.backslash hc

/-- Unquoted expansion leaves the fields as they are; an unset user is no field. -/
theorem unquoted_fields {files : Line → List Line} (hf : ∀ w, files w = []) {name : Line}
    {s : Share} (hs : SoundShare (name, s)) :
    unquoted files [name, s.path, s.write, s.user.getD []] = fields name s := by
  have hsplit : ∀ v ∈ fields name s, splitWords v = [v] := fun v hv => (hs.2 v hv).word.split
  simp only [fields, List.cons_append, List.nil_append, List.forall_mem_cons] at hsplit
  obtain ⟨hname, hpath, hwrite, huser⟩ := hsplit
  rw [unquoted_eq_split hf]
  simp only [List.flatMap_cons, hname, hpath, hwrite, fields]
  cases hu : s.user with
  | none => rfl
  | some u =>
    rw [Option.getD_some, huser u (by simp [hu])]
    rfl

/-- `set_share` puts the share at the end, in place of one of its name, unless `add_share` takes
its fields for operators. -/
theorem setShare_holds {files : Line → List Line} (hf : ∀ w, files w = []) {name : Line}
    {s : Share} (hs : SoundShare (name, s)) {conf : List Line} {es : List Entry}
    (h : Holds conf es) : ∃ es', Holds (setShare files (fields name s) conf) es' ∧
      content es' = (content es).filter (fun p => p.1 ≠ name) ++
        if hasFields (fields name s) then [(name, s)] else [] := by
  obtain ⟨es₁, h₁, hcon, hblanks⟩ := delete_holds hf hs.name.word hs.1 h
  obtain ⟨k, hk⟩ := h₁.lines
  have hset : setShare files (fields name s) conf = delete files [name] conf ++
      if hasFields (fields name s) then newSection name s else [] := by
    obtain ⟨ha, hb, hc, hd⟩ := arg_fields name s
    rw [setShare, ha, hb, hc, hd, unquoted_word hf hs.name.word, unquoted_fields hf hs,
      addShare_eq hs]
    congr 1
    split_ifs
    · exact textLines_flatMap fun l hl => (mem_newSection hs hl).1
    · rfl
  rw [hset]
  split_ifs
  · have hcontent : content (es₁ ++ [⟨name, s, 0⟩]) =
        (content es).filter (fun p => p.1 ≠ name) ++ [(name, s)] := by
      rw [content, List.map_append]
      exact congrArg (· ++ [(name, s)]) hcon
    refine ⟨es₁ ++ [⟨name, s, 0⟩], ⟨⟨k, ?_⟩, ?_, ?_, ?_, ?_⟩, hcontent⟩
    · rw [List.map_append, hk, newSection_trim hs]
      simp [laidOut, Entry.lines]
    · intro l hl
      rcases List.mem_append.mp hl with hl | hl
      · exact h₁.backslash l hl
      · exact (mem_newSection hs hl).2
    · rw [hcontent]
      intro p hp
      rcases List.mem_append.mp hp with hp | hp
      · exact h.sound p (List.mem_of_mem_filter hp)
      · rw [List.mem_singleton.mp hp]
        exact hs
    · rw [List.dropLast_concat]
      exact hblanks
    · have hnot : name ∉ ((content es).filter fun p => p.1 ≠ name).map Prod.fst := by simp
      have hnames := h₁.names
      rw [hcon] at hnames
      rw [hcontent, List.map_append]
      simpa using List.Nodup.concat hnot hnames
  · rw [List.append_nil, List.append_nil]
    exact ⟨es₁, h₁, hcon⟩

end SnakeOs.Samba
