import SnakeOs.Lib.Text

/-! The shell's `[`, as a recursive descent over its words. -/

namespace SnakeOs.Lib

inductive TestToken
  | unop
  | binop
  | not
  | and
  | or
  | lparen
  | rparen
  | operand
  deriving DecidableEq

def testUnops : List Line :=
  ["-r", "-w", "-x", "-e", "-f", "-d", "-c", "-b", "-p", "-u", "-g", "-k", "-s", "-t", "-z", "-n",
    "-h", "-O", "-G", "-L", "-S"].map String.toList

def testBinops : List Line :=
  ["=", "==", "!=", "<", ">", "-eq", "-ne", "-ge", "-gt", "-le", "-lt", "-nt", "-ot",
    "-ef"].map String.toList

def checkOperator (w : Line) : TestToken :=
  if w ∈ testUnops then .unop
  else if w ∈ testBinops then .binop
  else if w = ['!'] then .not
  else if w = ['-', 'a'] then .and
  else if w = ['-', 'o'] then .or
  else if w = ['('] then .lparen
  else if w = [')'] then .rparen
  else .operand

/-- The operators that look at files. -/
def testFileOps : List Line :=
  ["-r", "-w", "-x", "-e", "-f", "-d", "-c", "-b", "-p", "-u", "-g", "-k", "-s", "-h", "-O", "-G",
    "-L", "-S", "-nt", "-ot", "-ef"].map String.toList

/-- What the operators say that do not only compare strings; `none` is an error. -/
structure TestOps where
  unary : Line → Line → Option Bool
  binary : Line → Line → Line → Option Bool

/-- Operators that all fail. -/
def noOps : TestOps := ⟨fun _ _ => none, fun _ _ _ => none⟩

def TestOps.unop (ops : TestOps) (op arg : Line) : Option Bool :=
  if op = ['-', 'z'] then some (arg = [])
  else if op = ['-', 'n'] then some (arg ≠ [])
  else ops.unary op arg

def TestOps.binop (ops : TestOps) (a op b : Line) : Option Bool :=
  if op = ['='] ∨ op = ['=', '='] then some (a = b)
  else if op = ['!', '='] then some (a ≠ b)
  else ops.binary op a b

/-- An expression in front of the words, and what it leaves. -/
abbrev TestParser := List Line → Option (Bool × List Line)

/-- `primary`, with the parser of what parentheses hold. A binary operator in second place
goes before everything. -/
def testPrimary (ops : TestOps) (inner : TestParser) : TestParser
  | [] => none
  | a :: args =>
    if checkOperator a = .lparen then
      (inner args).bind fun
        | (v, b :: rest) => if checkOperator b = .rparen then some (v, rest) else none
        | (_, []) => none
    else match args with
      | b :: c :: rest =>
        if checkOperator b = .binop then (ops.binop a b c).map (·, rest)
        else if checkOperator a = .unop then (ops.unop a b).map (·, c :: rest)
        else some (a ≠ [], args)
      | [b] =>
        if checkOperator a = .unop then (ops.unop a b).map (·, [])
        else if checkOperator b = .binop then none
        else some (a ≠ [], args)
      | [] => some (a ≠ [], [])

/-- `nexpr`; an exclamation mark alone is true. -/
def testNexpr (ops : TestOps) (inner : TestParser) : TestParser
  | [] => testPrimary ops inner []
  | a :: args =>
    if checkOperator a = .not then
      match args with
      | [] => some (true, [])
      | b :: args => (testNexpr ops inner (b :: args)).map fun r => (!r.1, r.2)
    else testPrimary ops inner (a :: args)

/-- A chain of `inner` expressions with the operator `op` between them; the last one is
always there. -/
def testChain (inner : TestParser) (op : TestToken) (combine : Bool → Bool → Bool) :
    Nat → TestParser
  | 0, _ => none
  | n + 1, args =>
    (inner args).bind fun
      | (v, a :: rest) =>
        if checkOperator a = op then
          (testChain inner op combine n rest).map fun r => (combine r.1 v, r.2)
        else some (v, a :: rest)
      | (v, []) => some (v, [])

/-- `oexpr` over `aexpr`, for at most `n` open parentheses. -/
def testOexpr (ops : TestOps) : Nat → TestParser
  | 0, _ => none
  | n + 1, args =>
    testChain (testChain (testNexpr ops (testOexpr ops n)) .and and (args.length + 1)) .or or
      (args.length + 1) args

/-- `test_main` on the words between the brackets: `none` when it complains, with a status
that counts as false. -/
def bracket (ops : TestOps) (args : List Line) : Option Bool :=
  if args = [] then some false
  else (testOexpr ops (args.length + 1) args).bind fun r => if r.2 = [] then some r.1 else none

section
variable {ops : TestOps} {a b c : Line}

theorem checkOperator_equals : checkOperator ['='] = .binop := by decide

theorem checkOperator_not : checkOperator a = .not ↔ a = ['!'] := by
  refine ⟨fun h => ?_, fun h => h ▸ by decide⟩
  unfold checkOperator at h
  split_ifs at h with _ _ h1
  exact h1

theorem checkOperator_lparen : checkOperator a = .lparen ↔ a = ['('] := by
  refine ⟨fun h => ?_, fun h => h ▸ by decide⟩
  unfold checkOperator at h
  split_ifs at h with _ _ _ _ _ h1
  exact h1

theorem checkOperator_rparen : checkOperator a = .rparen ↔ a = [')'] := by
  refine ⟨fun h => ?_, fun h => h ▸ by decide⟩
  unfold checkOperator at h
  split_ifs at h with _ _ _ _ _ _ h1
  exact h1

/-- One expression and nothing behind it. -/
theorem testChain_last {inner : TestParser} {args : List Line} {v : Bool}
    (h : inner args = some (v, [])) (op : TestToken) (combine : Bool → Bool → Bool) (n : Nat) :
    testChain inner op combine (n + 1) args = some (v, []) := by
  simp [testChain, h]

/-- One expression and a word behind it, which only the operator of the chain may be, and
then something is missing. -/
theorem testChain_word {inner : TestParser} {args : List Line} {v : Bool}
    (h : inner args = some (v, [b])) (hnil : inner [] = none) (op : TestToken)
    (combine : Bool → Bool → Bool) (n : Nat) :
    testChain inner op combine (n + 1) args =
      if checkOperator b = op then none else some (v, [b]) := by
  have hrest : testChain inner op combine n [] = none := by
    cases n <;> simp [testChain, hnil]
  simp [testChain, h, hrest]

theorem testChain_none {inner : TestParser} {args : List Line} (h : inner args = none)
    (op : TestToken) (combine : Bool → Bool → Bool) (n : Nat) :
    testChain inner op combine n args = none := by
  cases n <;> simp [testChain, h]

/-- An expression that leaves a word leaves it to the end. -/
theorem testOexpr_word {n : Nat} {args : List Line} {v : Bool}
    (h : testNexpr ops (testOexpr ops n) args = none ∨
      testNexpr ops (testOexpr ops n) args = some (v, [b])) :
    testOexpr ops (n + 1) args = none ∨ testOexpr ops (n + 1) args = some (v, [b]) := by
  have hnil : testNexpr ops (testOexpr ops n) [] = none := rfl
  rw [testOexpr]
  rcases h with h | h
  · exact .inl (testChain_none (testChain_none h _ _ _) _ _ _)
  · have hand := testChain_word h hnil .and and args.length
    split_ifs at hand
    · exact .inl (testChain_none hand _ _ _)
    · rw [testChain_word hand (testChain_none hnil _ _ _)]
      split_ifs
      · exact .inl rfl
      · exact .inr rfl

/-- An equals sign with one word behind it is read as an operand. -/
theorem testNexpr_equals (ops : TestOps) (inner : TestParser) (b : Line) :
    testNexpr ops inner [['='], b] = none ∨
      testNexpr ops inner [['='], b] = some (true, [b]) := by
  by_cases hb : checkOperator b = .binop <;>
    simp [testNexpr, testPrimary, checkOperator_equals, hb]

/-- The words `a = b` are a comparison, unless `a` is taken for an operator. -/
theorem bracket_compare (hn : a ≠ ['!']) (hp : a ≠ ['(']) :
    bracket ops [a, ['='], b] = some (decide (a = b)) := by
  have hprimary (inner : TestParser) :
      testNexpr ops inner [a, ['='], b] = some (decide (a = b), []) := by
    simp [testNexpr, testPrimary, checkOperator_not.not.mpr hn, checkOperator_lparen.not.mpr hp,
      checkOperator_equals, TestOps.binop]
  have hchain := testChain_last (testChain_last (hprimary (testOexpr ops 3)) .and and 3) .or or 3
  simp only [bracket, testOexpr, List.length_cons, List.length_nil, Nat.reduceAdd] at hchain ⊢
  rw [hchain]
  rfl

/-- The exclamation mark negates the equals sign, and `b` is left over. -/
theorem bracket_not : bracket ops [['!'], ['='], b] = none := by
  have hnexpr (inner : TestParser) : testNexpr ops inner [['!'], ['='], b] = none ∨
      testNexpr ops inner [['!'], ['='], b] = some (false, [b]) := by
    have he : testNexpr ops inner [['!'], ['='], b] =
        (testNexpr ops inner [['='], b]).map fun r => (!r.1, r.2) := by
      rw [testNexpr, if_pos (checkOperator_not.mpr rfl)]
    rw [he]
    rcases testNexpr_equals ops inner b with h | h <;> simp [h]
  rcases testOexpr_word (hnexpr (testOexpr ops 3)) with h | h <;> simp [bracket, h]

/-- Parentheses hold the equals sign if `b` closes them. -/
theorem bracket_paren (hb : b ≠ [')']) : bracket ops [['('], ['='], b] = none := by
  have hnexpr : testNexpr ops (testOexpr ops 3) [['('], ['='], b] = none := by
    have hnot : checkOperator ['('] ≠ .not := checkOperator_not.not.mpr (by decide)
    rw [testNexpr, if_neg hnot, testPrimary, if_pos (checkOperator_lparen.mpr rfl)]
    rcases testOexpr_word (testNexpr_equals ops (testOexpr ops 2) b) with h | h
    · rw [h]
      rfl
    · rw [h]
      exact if_neg (checkOperator_rparen.not.mpr hb)
  have hall : testOexpr ops 4 [['('], ['='], b] = none :=
    testChain_none (testChain_none hnexpr _ _ _) _ _ _
  simp [bracket, hall]

theorem bracket_parens : bracket ops [['('], ['='], [')']] = some true := rfl

theorem checkOperator_binop : checkOperator a = .binop ↔ a ∈ testBinops := by
  refine ⟨fun h => ?_, fun h => ?_⟩
  · unfold checkOperator at h
    split_ifs at h with _ h1
    exact h1
  · have hall : ∀ w ∈ testBinops, checkOperator w = .binop := by decide
    exact hall a h

/-- `[ -z a ]`. -/
theorem bracket_empty : bracket ops [['-', 'z'], a] = some (decide (a = [])) := by
  have hz : checkOperator ['-', 'z'] = .unop := by decide
  have hnexpr (inner : TestParser) :
      testNexpr ops inner [['-', 'z'], a] = some (decide (a = []), []) := by
    simp [testNexpr, testPrimary, hz, TestOps.unop]
  have hchain := testChain_last (testChain_last (hnexpr (testOexpr ops 2)) .and and 2) .or or 2
  simp only [bracket, testOexpr, List.length_cons, List.length_nil, Nat.reduceAdd] at hchain ⊢
  rw [hchain]
  rfl

/-- `[ ! op a ]` with an operator of one word. -/
theorem bracket_not_unop {op : Line} (ho : checkOperator op = .unop) :
    bracket ops [['!'], op, a] = (ops.unop op a).map (!·) := by
  have hnexpr (inner : TestParser) : testNexpr ops inner [['!'], op, a] =
      (ops.unop op a).map fun v => (!v, []) := by
    rw [testNexpr, if_pos (checkOperator_not.mpr rfl)]
    simp [testNexpr, testPrimary, ho, Function.comp_def]
  cases hv : ops.unop op a with
  | none =>
    rw [hv] at hnexpr
    have hchain := testChain_none (testChain_none (hnexpr (testOexpr ops 3)) .and and 4) .or or 4
    simp only [bracket, testOexpr, List.length_cons, List.length_nil, Nat.reduceAdd] at hchain ⊢
    rw [hchain]
    rfl
  | some v =>
    rw [hv] at hnexpr
    have hchain := testChain_last (testChain_last (hnexpr (testOexpr ops 3)) .and and 3) .or or 3
    simp only [bracket, testOexpr, List.length_cons, List.length_nil, Nat.reduceAdd] at hchain ⊢
    rw [hchain]
    rfl

/-- `-n` with a word behind it that is no operator between two words. -/
theorem testNexpr_nonempty (ops : TestOps) (inner : TestParser) (a d : Line) (rest : List Line) :
    testNexpr ops inner (['-', 'n'] :: a :: d :: rest) =
      if a ∈ testBinops then (ops.binop ['-', 'n'] a d).map (·, rest)
      else some (decide (a ≠ []), d :: rest) := by
  have hn : checkOperator ['-', 'n'] = .unop := by decide
  simp [testNexpr, testPrimary, hn, checkOperator_binop, TestOps.unop]

theorem testNexpr_single (ops : TestOps) {inner : TestParser} (hi : inner [] = none) (c : Line) :
    testNexpr ops inner [c] = if c = ['('] then none else some (decide (c ≠ []), []) := by
  by_cases hc : c = ['!']
  · subst hc
    rfl
  · simp [testNexpr, testPrimary, checkOperator_not, checkOperator_lparen, hc, hi]

/-- One step of a chain. -/
theorem testChain_step {inner : TestParser} {args rest : List Line} {v : Bool} {w : Line}
    (h : inner args = some (v, w :: rest)) (op : TestToken) (combine : Bool → Bool → Bool)
    (n : Nat) : testChain inner op combine (n + 1) args =
      if checkOperator w = op then
        (testChain inner op combine n rest).map fun r => (combine r.1 v, r.2)
      else some (v, w :: rest) := by
  simp [testChain, h]

/-- An expression that cannot start with nothing does not end in an operator. -/
theorem testChain_operator {inner : TestParser} {args : List Line} {v : Bool}
    (h : inner args = some (v, [c])) (hnil : inner [] = none) (op : TestToken)
    (combine : Bool → Bool → Bool) (n : Nat) :
    testChain inner op combine n args = none ∨ testChain inner op combine n args = some (v, [c]) := by
  cases n with
  | zero => exact .inl rfl
  | succ n =>
    rw [testChain_word h hnil]
    split_ifs
    · exact .inl rfl
    · exact .inr rfl

/-- `[ -n a -a -n b -a c ]`. -/
theorem bracket_nonempty : bracket ops [['-', 'n'], a, ['-', 'a'], ['-', 'n'], b, ['-', 'a'], c] =
    some true ↔ (a ≠ [] ∧ a ∉ testBinops) ∧ (b ≠ [] ∧ b ∉ testBinops) ∧ c ≠ [] ∧ c ≠ ['('] := by
  have hnil : testOexpr ops 7 [] = none := testChain_none (testChain_none rfl _ _ _) _ _ _
  have hand : checkOperator ['-', 'a'] = .and := by decide
  have hun : checkOperator ['-', 'n'] = .unop := by decide
  have hfirst := testNexpr_nonempty ops (testOexpr ops 7) a ['-', 'a']
    [['-', 'n'], b, ['-', 'a'], c]
  have hsecond := testNexpr_nonempty ops (testOexpr ops 7) b ['-', 'a'] [c]
  have hthird := testNexpr_single ops hnil c
  have hbracket : bracket ops [['-', 'n'], a, ['-', 'a'], ['-', 'n'], b, ['-', 'a'], c] =
      (testChain (testChain (testNexpr ops (testOexpr ops 7)) .and and 8) .or or 8
        [['-', 'n'], a, ['-', 'a'], ['-', 'n'], b, ['-', 'a'], c]).bind
        fun r => if r.2 = [] then some r.1 else none := rfl
  rw [hbracket]
  have hnone : testNexpr ops (testOexpr ops 7) [] = none := rfl
  generalize testNexpr ops (testOexpr ops 7) = nexpr at hfirst hsecond hthird hnone ⊢
  by_cases ha : a ∈ testBinops
  · -- the operator takes three words, and what is left does not go on
    rw [if_pos ha] at hfirst
    cases ho : ops.binop ['-', 'n'] a ['-', 'a'] with
    | none =>
      rw [ho] at hfirst
      rw [testChain_none (testChain_none hfirst _ _ _)]
      simp [ha]
    | some v =>
      rw [ho] at hfirst
      have hchain := testChain_step hfirst .and and 7
      rw [hun, if_neg (by decide)] at hchain
      rw [testChain_step hchain, hun, if_neg (by decide)]
      simp [ha]
  · rw [if_neg ha] at hfirst
    have hchain := testChain_step hfirst .and and 7
    rw [hand, if_pos rfl] at hchain
    by_cases hb : b ∈ testBinops
    · have hrest : testChain nexpr .and and 7 [['-', 'n'], b, ['-', 'a'], c] = none ∨
          ∃ v, testChain nexpr .and and 7 [['-', 'n'], b, ['-', 'a'], c] = some (v, [c]) := by
        rw [if_pos hb] at hsecond
        cases ho : ops.binop ['-', 'n'] b ['-', 'a'] with
        | none => exact .inl (testChain_none (hsecond.trans (by rw [ho]; rfl)) _ _ _)
        | some v =>
          rw [ho] at hsecond
          rcases testChain_operator hsecond hnone .and and 7 with h | h
          · exact .inl h
          · exact .inr ⟨v, h⟩
      rcases hrest with hrest | ⟨v, hrest⟩
      · rw [hrest] at hchain
        rw [testChain_none hchain]
        simp [hb]
      · rw [hrest] at hchain
        rcases testChain_operator hchain (testChain_none hnone _ _ _) .or or 8 with h | h <;>
          simp [h, hb]
    · rw [if_neg hb] at hsecond
      have hnext := testChain_step hsecond .and and 6
      rw [hand, if_pos rfl] at hnext
      by_cases hc : c = ['(']
      · rw [if_pos hc] at hthird
        rw [hnext, testChain_none hthird] at hchain
        rw [testChain_none hchain]
        simp [hc]
      · rw [if_neg hc] at hthird
        rw [hnext, testChain_last hthird] at hchain
        rw [testChain_last hchain]
        simp [ha, hb, hc, and_comm]

end

section
variable {ops ops' : TestOps} {words : List Line}

/-- Two parsers that do the same on every end of the words, and leave an end of it. -/
def Tracks (words : List Line) (p q : TestParser) : Prop :=
  ∀ args, args <:+ words → p args = q args ∧ ∀ r ∈ p args, r.2 <:+ args

/-- The operators among the words say the same. -/
def Agree (ops ops' : TestOps) (words : List Line) : Prop :=
  ∀ op ∈ words, ops.unary op = ops'.unary op ∧ ops.binary op = ops'.binary op

theorem Agree.unop (h : Agree ops ops' words) {op : Line} (ho : op ∈ words) (a : Line) :
    ops.unop op a = ops'.unop op a := by
  rw [TestOps.unop, TestOps.unop, (h op ho).1]

theorem Agree.binop (h : Agree ops ops' words) {op : Line} (ho : op ∈ words) (a b : Line) :
    ops.binop a op b = ops'.binop a op b := by
  rw [TestOps.binop, TestOps.binop, (h op ho).2]

theorem Tracks.primary {inner inner' : TestParser} (hi : Tracks words inner inner')
    (h : Agree ops ops' words) :
    Tracks words (testPrimary ops inner) (testPrimary ops' inner') := by
  intro args hargs
  cases args with
  | nil => exact ⟨rfl, fun r hr => absurd hr (Option.not_mem_none r)⟩
  | cons a args =>
    have ha : a ∈ words := hargs.subset List.mem_cons_self
    have htail : args <:+ words := (List.suffix_cons a args).trans hargs
    simp only [testPrimary]
    split
    · obtain ⟨he, hleft⟩ := hi args htail
      rw [← he]
      refine ⟨rfl, fun r hr => ?_⟩
      obtain ⟨⟨v, rest⟩, hin, hr⟩ := Option.mem_bind_iff.mp hr
      cases rest with
      | nil => exact absurd hr (Option.not_mem_none r)
      | cons b rest =>
        simp only at hr
        split at hr
        · obtain rfl := Option.some.inj hr
          exact (List.suffix_cons b rest).trans ((hleft _ hin).trans (List.suffix_cons a args))
        · exact absurd hr (Option.not_mem_none r)
    · match args with
      | [] => exact ⟨rfl, fun r hr => Option.some.inj hr ▸ List.suffix_cons a []⟩
      | [b] =>
        simp only [h.unop ha b, true_and]
        split
        · intro r hr
          obtain ⟨v, -, rfl⟩ := Option.map_eq_some_iff.mp hr
          exact List.nil_suffix
        · split
          · exact fun r hr => absurd hr (Option.not_mem_none r)
          · exact fun r hr => Option.some.inj hr ▸ List.suffix_cons a [b]
      | b :: c :: rest =>
        have hb : b ∈ words := htail.subset List.mem_cons_self
        have hend : rest <:+ a :: b :: c :: rest := List.suffix_append [a, b, c] rest
        simp only [h.unop ha b, h.binop hb a c, true_and]
        split
        · intro r hr
          obtain ⟨v, -, rfl⟩ := Option.map_eq_some_iff.mp hr
          exact hend
        · split
          · intro r hr
            obtain ⟨v, -, rfl⟩ := Option.map_eq_some_iff.mp hr
            exact List.suffix_append [a, b] (c :: rest)
          · exact fun r hr => Option.some.inj hr ▸ List.suffix_cons a _

theorem Tracks.nexpr {inner inner' : TestParser} (hi : Tracks words inner inner')
    (h : Agree ops ops' words) : Tracks words (testNexpr ops inner) (testNexpr ops' inner') := by
  intro args hargs
  induction args with
  | nil => exact hi.primary h [] hargs
  | cons a args ih =>
    have htail : args <:+ words := (List.suffix_cons a args).trans hargs
    cases args with
    | nil =>
      rw [testNexpr, testNexpr]
      split
      · exact ⟨rfl, fun r hr => Option.some.inj hr ▸ List.nil_suffix⟩
      · exact hi.primary h _ hargs
    | cons b args =>
      rw [testNexpr, testNexpr]
      split
      · obtain ⟨he, hleft⟩ := ih htail
        rw [he]
        refine ⟨rfl, fun r hr => ?_⟩
        obtain ⟨s, hs, rfl⟩ := Option.map_eq_some_iff.mp hr
        exact (hleft s (he.trans hs)).trans (List.suffix_cons a _)
      · exact hi.primary h _ hargs

theorem Tracks.chain {p q : TestParser} (h : Tracks words p q) (op : TestToken)
    (combine : Bool → Bool → Bool) (n : Nat) :
    Tracks words (testChain p op combine n) (testChain q op combine n) := by
  induction n with
  | zero => exact fun args _ => ⟨rfl, fun r hr => absurd hr (Option.not_mem_none r)⟩
  | succ n ih =>
    intro args hargs
    obtain ⟨he, hleft⟩ := h args hargs
    rw [testChain, testChain, ← he]
    cases hp : p args with
    | none => exact ⟨rfl, fun r hr => absurd hr (Option.not_mem_none r)⟩
    | some s =>
      obtain ⟨v, rest⟩ := s
      have hrest : rest <:+ args := hleft _ hp
      cases rest with
      | nil => exact ⟨rfl, fun r hr => Option.some.inj hr ▸ hrest⟩
      | cons a rest =>
        have hend : rest <:+ args := (List.suffix_cons a rest).trans hrest
        obtain ⟨hsame, hnext⟩ := ih rest (hend.trans hargs)
        simp only [Option.bind_some]
        split
        · rw [hsame]
          refine ⟨rfl, fun r hr => ?_⟩
          obtain ⟨s, hs, rfl⟩ := Option.map_eq_some_iff.mp hr
          exact (hnext s (hsame.trans hs)).trans hend
        · exact ⟨rfl, fun r hr => Option.some.inj hr ▸ hrest⟩

theorem Tracks.oexpr (h : Agree ops ops' words) (n : Nat) :
    Tracks words (testOexpr ops n) (testOexpr ops' n) := by
  induction n with
  | zero => exact fun args _ => ⟨rfl, fun r hr => absurd hr (Option.not_mem_none r)⟩
  | succ n ih =>
    intro args hargs
    exact ((ih.nexpr h).chain .and and (args.length + 1)).chain .or or (args.length + 1) args hargs

/-- Only the operators among the words are asked. -/
theorem bracket_congr (h : Agree ops ops' words) : bracket ops words = bracket ops' words := by
  rw [bracket, bracket, (Tracks.oexpr h _ words (List.suffix_refl words)).1]

end

end SnakeOs.Lib
