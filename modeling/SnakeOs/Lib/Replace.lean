import SnakeOs.Lib.Sed

/-! What a substitution of sed makes of any text between its delimiters. -/

namespace SnakeOs.Lib

/-- A backslash and a character in a replacement. -/
def escaped (whole : Line) (d : Char) : Line :=
  if d = '0' then whole else if d.isDigit then [] else if d = 'n' then ['\n']
  else if d = 't' then ['\t'] else [d]

/-- What a replacement, as it is written, puts for a match. -/
def emitted (whole : Line) : Line → Line
  | [] => []
  | c :: cs =>
    if c = '\\' then
      match cs with
      | [] => []
      | d :: cs => escaped whole d ++ emitted whole cs
    else if c = '&' then whole ++ emitted whole cs
    else c :: emitted whole cs

/-- The first line of a replacement that is shorter than the match is not longer than what is
written, and shorter if anything special is written. -/
theorem emitted_short {whole : Line} (hw : '\n' ∉ whole) (text : Line)
    (h : ((emitted whole text).takeWhile (· ≠ '\n')).length < whole.length) :
    ((emitted whole text).takeWhile (· ≠ '\n')).length ≤ text.length ∧
      (text.length ≤ ((emitted whole text).takeWhile (· ≠ '\n')).length →
        ∀ c ∈ text, c ≠ '\\' ∧ c ≠ '&') := by
  have hlong (rest : Line) : whole.length ≤ ((whole ++ rest).takeWhile (· ≠ '\n')).length := by
    rw [List.takeWhile_append_of_pos fun c hc => by simpa using fun he : c = '\n' => hw (he ▸ hc)]
    simp
  fun_induction emitted whole text with
  | case1 => simp
  | case2 => simp
  | case3 d cs ih =>
    by_cases h0 : d = '0'
    · rw [escaped, if_pos h0] at h
      have := hlong (emitted whole cs)
      omega
    · have hone : ∃ e, escaped whole d = e ∧ e.length ≤ 1 := by
        refine ⟨_, rfl, ?_⟩
        unfold escaped
        rw [if_neg h0]
        split_ifs <;> simp
      obtain ⟨e, he, hlen⟩ := hone
      rw [he] at h ⊢
      have hshort : ((e ++ emitted whole cs).takeWhile (· ≠ '\n')).length < ('\\' :: d :: cs).length := by
        cases e with
        | nil =>
          have := (ih h).1
          simp only [List.nil_append, List.length_cons]
          omega
        | cons c e =>
          obtain rfl : e = [] := by simpa using hlen
          by_cases hc : c = '\n'
          · simp [hc]
          · have hcons : (c :: emitted whole cs).takeWhile (· ≠ '\n') =
                c :: (emitted whole cs).takeWhile (· ≠ '\n') := by simp [hc]
            rw [List.singleton_append, hcons, List.length_cons] at h ⊢
            have := (ih (by omega)).1
            simp only [List.length_cons]
            omega
      exact ⟨hshort.le, fun hle => absurd hshort (by omega)⟩
  | case4 cs _ ih =>
    have := hlong (emitted whole cs)
    omega
  | case5 c cs hesc hamp ih =>
    by_cases hc : c = '\n'
    · simp [hc]
    · have hcons : (c :: emitted whole cs).takeWhile (· ≠ '\n') =
          c :: (emitted whole cs).takeWhile (· ≠ '\n') := by simp [hc]
      rw [hcons, List.length_cons] at h ⊢
      obtain ⟨hle, hplain⟩ := ih (by omega)
      simp only [List.length_cons, Nat.add_le_add_iff_right, List.forall_mem_cons]
      exact ⟨hle, fun hge => ⟨⟨hesc, hamp⟩, hplain hge⟩⟩

theorem parseEscapes_escape {src dst d : Char} (cs : Line) (h : d ≠ src) :
    parseEscapes src dst ('\\' :: d :: cs) = '\\' :: d :: parseEscapes src dst cs := by
  simp [parseEscapes, h]

theorem parseEscapes_src (src dst : Char) (cs : Line) :
    parseEscapes src dst ('\\' :: src :: cs) = dst :: parseEscapes src dst cs := by
  simp [parseEscapes]

theorem parseEscapes_char {src dst c : Char} (cs : Line) (h : c ≠ '\\') :
    parseEscapes src dst (c :: cs) = c :: parseEscapes src dst cs := by
  rw [parseEscapes.eq_def]
  simp [h]

theorem expandReplace_char {whole : Line} {c : Char} (cs : Line) (h : c ≠ '\\') :
    expandReplace whole (c :: cs) =
      (if c = '&' then whole else [c]) ++ expandReplace whole cs := by
  rw [expandReplace.eq_def]
  by_cases ha : c = '&' <;> simp [h, ha]

/-- The escapes of newlines and tabs are read first, and the others with the match. -/
theorem expandReplace_copy (whole text : Line) :
    expandReplace whole (copyParsingEscapes text) = emitted whole text := by
  fun_induction emitted whole text with
  | case1 => rfl
  | case2 => rfl
  | case3 d cs ih =>
    unfold copyParsingEscapes at ih ⊢
    unfold escaped
    by_cases hn : d = 'n'
    · rw [hn, parseEscapes_src, parseEscapes_char _ (by decide),
        expandReplace_char _ (by decide), ih]
      rfl
    · rw [parseEscapes_escape _ hn]
      by_cases ht : d = 't'
      · rw [ht, parseEscapes_src, expandReplace_char _ (by decide), ih]
        rfl
      · rw [parseEscapes_escape _ ht, expandReplace, if_pos rfl, ih]
        by_cases h0 : d = '0'
        · simp [h0]
        · by_cases hd : d.isDigit = true <;> simp [h0, hd, hn, ht]
  | case4 cs hesc ih =>
    unfold copyParsingEscapes at ih ⊢
    rw [parseEscapes_char _ hesc, parseEscapes_char _ hesc, expandReplace_char _ hesc, ih]
    rfl
  | case5 c cs hesc hamp ih =>
    unfold copyParsingEscapes at ih ⊢
    rw [parseEscapes_char _ hesc, parseEscapes_char _ hesc, expandReplace_char _ hesc, ih,
      if_neg hamp]
    rfl

theorem emitted_char {whole : Line} {c : Char} (cs : Line) (hesc : c ≠ '\\') (hamp : c ≠ '&') :
    emitted whole (c :: cs) = c :: emitted whole cs := by
  rw [emitted.eq_def]
  simp [hesc, hamp]

theorem emitted_append {whole a : Line} (h : ∀ c ∈ a, c ≠ '\\' ∧ c ≠ '&') (text : Line) :
    emitted whole (a ++ text) = a ++ emitted whole text := by
  induction a with
  | nil => rfl
  | cons c a ih =>
    obtain ⟨hesc, hamp⟩ := h c List.mem_cons_self
    rw [List.cons_append, emitted_char _ hesc hamp, ih fun d hd => h d (List.mem_cons_of_mem c hd)]
    rfl

/-- The text behind a delimiter. -/
theorem nextDelim_split {d : Char} {brackets : Bool} {s : Scan} {text v rest : Line}
    (h : nextDelim d brackets s text = some (v, rest)) : text = v ++ d :: rest := by
  induction text generalizing s v with
  | nil => cases h
  | cons c text ih =>
    rw [nextDelim] at h
    split at h
    · rename_i hc
      obtain ⟨rfl, rfl⟩ := Prod.mk.inj (Option.some.inj h)
      rw [hc.2.2]
      rfl
    · obtain ⟨⟨v', rest'⟩, hnext, heq⟩ := Option.map_eq_some_iff.mp h
      obtain ⟨rfl, rfl⟩ := Prod.mk.inj heq
      rw [ih hnext]
      rfl

/-- Without backslashes the text ends at the first delimiter. -/
theorem nextDelim_not_mem {d : Char} {text v rest : Line}
    (h : nextDelim d false .plain text = some (v, rest)) (hv : '\\' ∉ v) : d ∉ v := by
  induction text generalizing v with
  | nil => cases h
  | cons c text ih =>
    rw [nextDelim] at h
    split at h
    · obtain ⟨rfl, rfl⟩ := Prod.mk.inj (Option.some.inj h)
      simp
    · rename_i hne
      obtain ⟨⟨v', rest'⟩, hnext, heq⟩ := Option.map_eq_some_iff.mp h
      obtain ⟨rfl, rfl⟩ := Prod.mk.inj heq
      obtain ⟨hc, hv'⟩ := not_or.mp (List.mem_cons.not.mp hv)
      have hscan : Scan.next false .plain c = .plain := by simp [Scan.next, Ne.symm hc]
      rw [hscan] at hnext hne
      rw [List.mem_cons, not_or]
      exact ⟨fun he => hne ⟨rfl, rfl, he.symm⟩, ih hnext hv'⟩

/-- An anchored substitution is made once. -/
theorem parseFlags_which {f f' : Flags} {flags : Line}
    (h : parseFlags true none f flags = .ok f') : f'.which = f.which := by
  induction flags generalizing f with
  | nil =>
    cases h
    rfl
  | cons c cs ih =>
    simp only [parseFlags, if_true] at h
    split_ifs at h
    · exact ih h
    · exact ih h
    · exact ih h
    · exact ih (f := { f with print := true }) h
    · exact ih (f := { f with icase := true }) h
    · cases h
      rfl
    · cases h
      rfl

section
variable {w text : Line} {d : Char}

/-- A substitution of whole lines, as it is read. -/
structure Reads (w text : Line) (s : Subst) : Prop where
  anchored : s.anchored = true
  items : s.items = wordRest w
  which : s.which = 1
  replace : s.replace = copyParsingEscapes text

/-- The readings of `s<d>^w.*<d>text<d>g`: the text ends at the first delimiter that no
backslash stands in front of. -/
theorem readSubst_cases (hd : d ∉ ['\\', '[', '.', '*', '^']) (hdg : d ≠ 'g') (hdw : d ∉ w)
    (hw : ∀ c ∈ w, DotEre c) {s : Subst} (h : readSubst (substCmd d ['^'] w text) = .ok s) :
    ∃ v rest, Reads w v s ∧ text = v ++ rest ∧ (rest = [] ∨ rest.head? = some d) ∧
      ('\\' ∉ v → d ∉ v) := by
  have hdel : Delimits d w [] := ⟨hd, hdw, by simp⟩
  have hpat := hdel.pattern hw ['^'] (by simp)
  have hnext : nextDelim d true .plain (['^'] ++ w ++ ['.', '*'] ++ d :: (text ++ [d, 'g'])) =
      some (['^'] ++ w ++ ['.', '*'], text ++ [d, 'g']) :=
    nextDelim_text hdel.char (fun c hc => ⟨(hpat c hc).1, (hpat c hc).2.1, fun _ => (hpat c hc).2.2⟩) _
  have hcopy : copyParsingEscapes (['^'] ++ w ++ ['.', '*']) = ['^'] ++ w ++ ['.', '*'] :=
    copyParsingEscapes_plain fun hm => (hpat _ hm).2.1 rfl
  have hitems : parseEre (['^'] ++ w ++ ['.', '*']).tail = some (wordRest w) := parseEre_wordRest hw
  rw [substCmd, readSubst, hnext] at h
  simp only at h
  cases htext : nextDelim d false .plain (text ++ [d, 'g']) with
  | none => simp [htext] at h
  | some p =>
    obtain ⟨v, flags⟩ := p
    have hhead : ((['^'] ++ w ++ ['.', '*']).head? == some '^') = true := rfl
    simp only [htext, hcopy, hhead, if_true, hitems] at h
    split at h
    · cases h
    · cases h
    · rename_i f hflags
      split_ifs at h with hother
      cases h
      have hsplit := nextDelim_split htext
      have hfirst := nextDelim_not_mem htext
      rcases List.append_eq_append_iff.mp hsplit with ⟨as, hv, hend⟩ | ⟨bs, ht, hend⟩
      · -- the delimiter at the end of the command
        cases as with
        | nil => exact ⟨v, [], ⟨rfl, rfl, parseFlags_which hflags, rfl⟩, by simp [hv], .inl rfl, hfirst⟩
        | cons c as =>
          obtain ⟨-, hend⟩ := List.cons.inj hend
          cases as with
          | nil => exact absurd (List.cons.inj hend).1.symm hdg
          | cons c as => simp at hend
      · refine ⟨v, bs, ⟨rfl, rfl, parseFlags_which hflags, rfl⟩, ht, ?_, hfirst⟩
        cases bs with
        | nil => exact .inl rfl
        | cons c bs => exact .inr (congrArg some (List.cons.inj hend).1.symm)

/-- Every line that starts with the word, its dots any characters, becomes the replacement,
or two of it. -/
theorem Reads.line {s : Subst} (h : Reads w text s) {line : Line} (hn : '\n' ∉ line) :
    s.line line = if startsDotted w line then
        (if s.print then [emitted line text, emitted line text] else [emitted line text]).flatMap
          (·.splitOn '\n')
      else [line] := by
  obtain ⟨hanchor, hitems, hwhich, hreplace⟩ := h
  have hfind : s.find true line = if startsDotted w line then some ⟨[], line, []⟩ else none := by
    rw [Subst.find, hanchor, if_pos rfl, if_pos rfl, hitems, matchHere_wordRest]
  by_cases hpre : startsDotted w line = true
  · rw [if_pos hpre] at hfind ⊢
    have hloop : s.loop (line.length + 2) 0 line = (emitted line text, true) := by
      simp [Subst.loop, hfind, hwhich, hreplace, expandReplace_copy]
    simp [Subst.line, hloop, List.flatMap_def]
  · rw [if_neg hpre] at hfind ⊢
    rw [Subst.line_none hfind, line_splitOn hn]

end

section
variable {k old : Line}

/-- A matched line does not start with what a special character in the replacement leaves. -/
theorem whole_apart {c : Char} (hc : c ∉ k) (hne : c ≠ '=') {q : Line} (hq : '=' ∉ q)
    (y z : Line) : k ++ '=' :: (old ++ y) ≠ q ++ c :: z := by
  intro h
  rcases List.append_eq_append_iff.mp h with ⟨as, hqk, hend⟩ | ⟨bs, hk, hend⟩
  · cases as with
    | nil => exact hne (List.cons.inj hend).1.symm
    | cons d as =>
      obtain rfl : '=' = d := (List.cons.inj hend).1
      exact hq (by simp [hqk])
  · cases bs with
    | nil => exact hne (List.cons.inj hend).1
    | cons d bs =>
      obtain rfl : c = d := (List.cons.inj hend).1
      exact hc (by simp [hk])

/-- A replacement that gives itself is plain: what its first escape leaves over would have to
be made up for behind it, again and again. -/
theorem emitted_fixed (hk : '\\' ∉ k ∧ '&' ∉ k) {x : Line} :
    ∀ {q s : Line}, '=' ∉ q → emitted (k ++ '=' :: old) x = q ++ x ++ s →
      q = [] ∧ ∀ c ∈ x, c ≠ '\\' ∧ c ≠ '&' := by
  generalize hwhole : k ++ '=' :: old = whole
  fun_induction emitted whole x with
  | case1 =>
    intro q s hq h
    exact ⟨(List.append_eq_nil_iff.mp (List.append_eq_nil_iff.mp h.symm).1).1, by simp⟩
  | case2 =>
    intro q s hq h
    simp at h
  | case3 d cs ih =>
    intro q s hq h
    exfalso
    have hleft (q' : Line) (hq' : '=' ∉ q') (hne : q' ≠ [])
        (h' : emitted whole cs = q' ++ cs ++ s) : False := hne (ih hq' h').1
    by_cases h0 : d = '0'
    · rw [escaped, if_pos h0, ← hwhole, List.append_assoc, List.cons_append, List.append_assoc] at h
      exact whole_apart hk.1 (by decide) hq _ _ h
    · by_cases hdigit : d.isDigit = true
      · rw [escaped, if_neg h0, if_pos hdigit, List.nil_append] at h
        refine hleft (q ++ ['\\', d]) ?_ (by simp) (by simpa using h)
        have hd : '=' ≠ d := fun he => by
          rw [← he] at hdigit
          cases hdigit
        simp [hq, hd]
      · obtain ⟨e, he, hesc, heq⟩ : ∃ e, escaped whole d = [e] ∧ (e = '\\' → d = '\\') ∧
            (d = '=' → e = '=') := by
          unfold escaped
          rw [if_neg h0, if_neg hdigit]
          by_cases hn : d = 'n'
          · exact ⟨'\n', by simp [hn], fun he => absurd he (by decide), by simp [hn]⟩
          · by_cases ht : d = 't'
            · exact ⟨'\t', by simp [ht], fun he => absurd he (by decide), by simp [ht]⟩
            · exact ⟨d, by simp [hn, ht], id, id⟩
        rw [he, List.singleton_append] at h
        cases q with
        | nil =>
          obtain ⟨hslash, h⟩ := List.cons.inj h
          have hd := hesc hslash
          exact hleft [d] (by simp [hd]) (by simp) h
        | cons a q =>
          obtain ⟨rfl, h⟩ := List.cons.inj h
          obtain ⟨hne, hq⟩ := not_or.mp (List.mem_cons.not.mp hq)
          have hd : '=' ≠ d := fun hd => hne (heq hd.symm).symm
          exact hleft (q ++ ['\\', d]) (by simp [hq, hd]) (by simp) (by simpa using h)
  | case4 cs hesc ih =>
    intro q s hq h
    rw [← hwhole, List.append_assoc, List.cons_append, List.append_assoc] at h
    exact absurd h (whole_apart hk.2 (by decide) hq _ _)
  | case5 c cs hesc hamp ih =>
    intro q s hq h
    cases q with
    | nil =>
      obtain ⟨-, hplain⟩ := ih (q := []) hq (List.cons.inj h).2
      exact ⟨rfl, by simpa using ⟨⟨hesc, hamp⟩, hplain⟩⟩
    | cons a q =>
      exfalso
      obtain ⟨rfl, h⟩ := List.cons.inj h
      obtain ⟨hne, hq⟩ := not_or.mp (List.mem_cons.not.mp hq)
      have hfixed := ih (q := q ++ [c]) (s := s) (by simpa using ⟨hq, hne⟩) (by simpa using h)
      simp at hfixed

/-- The start of a replacement as far as it gives no `=`, with what comes next. -/
structure Upto (k : Line) (text out : Line) : Prop where
  split : ∃ a ra, '=' ∉ a ∧ '=' ∉ ra ∧ ra.length ≤ a.length ∧
    ((text = a ∧ out = ra) ∨ ∃ k' c rest more, text = a ++ c :: rest ∧ out = ra ++ k' ++ '=' :: more ∧
      (k' = [] ∨ k' = k ∧ (c = '\\' ∨ c = '&')))

theorem Upto.cons {text out : Line} (h : Upto k text out) {u e : Line} (hu : '=' ∉ u) (he : '=' ∉ e)
    (hlen : e.length ≤ u.length) : Upto k (u ++ text) (e ++ out) := by
  obtain ⟨a, ra, ha, hra, hle, hcases⟩ := h.split
  refine ⟨u ++ a, e ++ ra, by simp [hu, ha], by simp [he, hra], ?_, ?_⟩
  · simp only [List.length_append]
    omega
  · rcases hcases with ⟨rfl, rfl⟩ | ⟨k', c, rest, more, rfl, rfl, hk⟩
    · exact .inl ⟨rfl, rfl⟩
    · exact .inr ⟨k', c, rest, more, by simp, by simp, hk⟩

theorem emitted_upto (text : Line) : Upto k text (emitted (k ++ '=' :: old) text) := by
  generalize hwhole : k ++ '=' :: old = whole
  fun_induction emitted whole text with
  | case1 => exact ⟨[], [], by simp, by simp, Nat.le_refl 0, .inl ⟨rfl, rfl⟩⟩
  | case2 => exact ⟨['\\'], [], by decide, by simp, Nat.zero_le 1, .inl ⟨rfl, rfl⟩⟩
  | case3 d cs ih =>
    by_cases h0 : d = '0'
    · refine ⟨[], [], by simp, by simp, Nat.le_refl 0, .inr ⟨k, '\\', d :: cs, old ++ emitted whole cs,
        rfl, ?_, .inr ⟨rfl, .inl rfl⟩⟩⟩
      rw [escaped, if_pos h0, ← hwhole]
      simp
    · by_cases heq : d = '='
      · refine ⟨[], [], by simp, by simp, Nat.le_refl 0, .inr ⟨[], '\\', d :: cs, emitted whole cs,
          rfl, ?_, .inl rfl⟩⟩
        rw [heq]
        rfl
      · refine ih.cons (u := ['\\', d]) (by simpa using Ne.symm heq) ?_ ?_
        · unfold escaped
          split_ifs <;> simp [Ne.symm heq]
        · unfold escaped
          split_ifs <;> simp
  | case4 cs hesc ih =>
    refine ⟨[], [], by simp, by simp, Nat.le_refl 0, .inr ⟨k, '&', cs, old ++ emitted whole cs,
      rfl, ?_, .inr ⟨rfl, .inr rfl⟩⟩⟩
    rw [← hwhole]
    simp
  | case5 c cs hesc hamp ih =>
    by_cases heq : c = '='
    · exact ⟨[], [], by simp, by simp, Nat.le_refl 0, .inr ⟨[], c, cs, emitted whole cs, rfl,
        by rw [heq]; rfl, .inl rfl⟩⟩
    · exact ih.cons (u := [c]) (e := [c]) (by simpa using Ne.symm heq) (by simpa using Ne.symm heq)
        (Nat.le_refl 1)

end

end SnakeOs.Lib
