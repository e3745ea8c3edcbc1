import ExprTree.Proofs.Collected
import ExprTree.Proofs.Origins
import ExprTree.Proofs.Printed

/-!
What a result says about how it was read. A node that is neither an operator's nor a conditional's
was read as one operand, with no operator after it; a call that is nothing more was read as its
callee and its arguments; and what gives no node at all has passed nothing but blanks.
-/

namespace ExprTree.Results

open Parse Standard Reading Printed Precedence Collected

/-- Whether a node joins others by an operator or as a conditional. -/
def isJoined : Node → Bool
  | .binary _ _ _ | .logical _ _ _ | .conditional _ _ _ => true
  | _ => false

section

variable {n : Node} {s t : State}

theorem ahead_pastBlanks (s : State) :
    (pastBlanks s).cursor.ahead = s.cursor.ahead.dropWhile isBlank :=
  Cursor.ahead_skipBlanks s.cursor

/-- Without blanks ahead the state stays. -/
theorem pastBlanks_of_not_blank (h : ∀ c ∈ s.cursor.peek?, isBlank c = false) :
    pastBlanks s = s := by
  have hnone : s.cursor.ahead.takeWhile isBlank = [] := by
    cases hahead : s.cursor.ahead with
    | nil => rfl
    | cons c rest => simp [h c (by rw [peek?_of_ahead hahead]; rfl)]
  rw [pastBlanks, Cursor.skipBlanks, hnone, List.length_nil, Cursor.advance_zero]

theorem pastBlanks_of_peek {c : Char} (hc : s.cursor.peek? = some c) (hblank : isBlank c = false) :
    pastBlanks s = s := by
  apply pastBlanks_of_not_blank
  intro d hd
  rw [Option.mem_def, hc, Option.some.injEq] at hd
  rwa [← hd]

theorem not_blank_pastBlanks (s : State) :
    ∀ c ∈ (pastBlanks s).cursor.peek?, isBlank c = false := by
  intro c hc
  rw [Cursor.peek?, ahead_pastBlanks] at hc
  have hhead := List.head?_dropWhile_not isBlank s.cursor.ahead
  rw [Option.mem_def.mp hc] at hhead
  simpa using hhead

theorem pastBlanks_pastBlanks (s : State) : pastBlanks (pastBlanks s) = pastBlanks s :=
  pastBlanks_of_not_blank (not_blank_pastBlanks s)

theorem operand_pastBlanks (s : State) : rules .operand (pastBlanks s) = rules .operand s := by
  rw [rules_eq, rules_eq]
  change (skipBlanks >>= _) (pastBlanks s) = (skipBlanks >>= _) s
  rw [bind_skipBlanks_apply, bind_skipBlanks_apply]
  exact congrArg _ (pastBlanks_pastBlanks s)

theorem items_pastBlanks (bracket : Bracket) (s : State) :
    rules (.items bracket) (pastBlanks s) = rules (.items bracket) s := by
  rw [rules_eq, rules_eq]
  change (skipBlanks >>= _) (pastBlanks s) = (skipBlanks >>= _) s
  rw [bind_skipBlanks_apply, bind_skipBlanks_apply]
  exact congrArg _ (pastBlanks_pastBlanks s)

/-- The binary operator that a text begins with. -/
def operatorAt (text : List Char) : Option (String × Int) :=
  OperatorTable.standard.binaryAt? (text.take OperatorTable.standard.longestBinary)

theorem binaryOperator_none_iff : binaryOperator .standard s = .done none t ↔
    t = pastBlanks s ∧ operatorAt t.cursor.ahead = none := by
  unfold binaryOperator
  rw [bind_skipBlanks_apply, bind_here_apply]
  dsimp only
  constructor
  · intro h
    cases hat : Grammar.standard.operators.binaryAt?
        (s.cursor.skipBlanks.ahead.take Grammar.standard.operators.longestBinary) with
    | none =>
      rw [hat] at h
      cases h
      exact ⟨rfl, hat⟩
    | some o =>
      rw [hat] at h
      cases h
  · rintro ⟨rfl, hat⟩
    have hat : Grammar.standard.operators.binaryAt?
        (s.cursor.skipBlanks.ahead.take Grammar.standard.operators.longestBinary) = none := hat
    rw [hat]
    rfl

/-- A node without a name was not cut off a longer name. -/
theorem splitGlued_done_iff {start : Cursor} {left : Node} (hname : n.name? = none) :
    splitGlued rules start left s = .done n t ↔ n = left ∧ t = s := by
  have hleft : left.name? = none → splitGlued rules start left s = .done left s := by
    intro hleft
    have hglued : gluedTest? (left.name?.getD "").toList = none := by
      rw [hleft]
      decide
    unfold splitGlued
    simp only [hglued]
    rfl
  constructor
  · intro h
    rcases Origins.splitGlued_cases h with hsame | ⟨test, -, rfl, -⟩
    · exact hsame
    · cases hname
  · rintro ⟨rfl, rfl⟩
    exact hleft hname

theorem isJoined_ofOperator (operator : String) (left right : Node) :
    isJoined (.ofOperator operator left right) = true := by
  unfold Node.ofOperator
  split <;> rfl

/-- What a binary expression may give: nothing, its first operand if no operator follows, a name
that an operator is inside of, or the node of an operator. -/
theorem binary_cases {a : Option Node} (h : binary .standard rules s = .done a t) :
    a = none ∧ rules .operand s = .done none t ∨
      ∃ n left u, a = some n ∧ rules .operand s = .done (some left) u ∧
        ((∃ v, binaryOperator .standard u = .done none v ∧
          splitGlued rules (pastBlanks s).cursor left v = .done n t) ∨
        (∃ w, n = .plain w) ∨ isJoined n = true) := by
  have hoperand := operand_pastBlanks s
  cases Origins.binary_cases h with
  | nothing hleft => exact .inl ⟨rfl, hoperand.symm.trans hleft⟩
  | alone hleft hoperator hsplit =>
    exact .inr ⟨_, _, _, rfl, hoperand.symm.trans hleft, .inl ⟨_, hoperator, hsplit⟩⟩
  | word hleft hw hoperator hinside hrest =>
    exact .inr ⟨_, _, _, rfl, hoperand.symm.trans hleft, .inr (.inl ⟨_, rfl⟩)⟩
  | @operators left right _ operator precedence _ _ _ _ hleft hoperator hinside hright hchain =>
    obtain ⟨items, -, rfl⟩ := tree_of_chain hchain
    obtain ⟨_, _, _, htree⟩ := tree_cons left ⟨operator, precedence, right⟩ items
    refine .inr ⟨_, _, _, rfl, hoperand.symm.trans hleft, .inr (.inr ?_)⟩
    rw [htree, isJoined_ofOperator]

theorem binary_done_iff (hname : n.name? = none) (hn : isJoined n = false) :
    binary .standard rules s = .done (some n) t ↔ ∃ u, rules .operand s = .done (some n) u ∧
      t = pastBlanks u ∧ operatorAt t.cursor.ahead = none := by
  constructor
  · intro h
    rcases binary_cases h with ⟨hnone, -⟩ | ⟨m, left, u, hm, hleft, hcases⟩
    · cases hnone
    · cases hm
      rcases hcases with ⟨v, ho, hsplit⟩ | ⟨w, rfl⟩ | hjoined
      · obtain ⟨rfl, rfl⟩ := (splitGlued_done_iff hname).mp hsplit
        exact ⟨u, hleft, binaryOperator_none_iff.mp ho⟩
      · cases hname
      · rw [hn] at hjoined
        cases hjoined
  · rintro ⟨u, hleft, ht⟩
    unfold binary
    rw [bind_skipBlanks_apply, bind_here_apply]
    change (rules .operand >>= _) (pastBlanks s) = _
    rw [bind_of_done ((operand_pastBlanks s).trans hleft)]
    simp only [bind_here_apply]
    rw [bind_of_done (binaryOperator_none_iff.mpr ht)]
    simp only
    rw [bind_of_done ((splitGlued_done_iff hname).mpr ⟨rfl, rfl⟩)]
    rfl

/-- An expression is a binary one, or a conditional with it as its test. -/
theorem expression_cases {a : Option Node} (h : rules .expression s = .done a t) :
    a = none ∧ binary .standard rules s = .done none t ∨
      ∃ test u, binary .standard rules s = .done (some test) u ∧
        (a = some test ∧ t = pastBlanks u ∧ t.cursor.peek? ≠ some '?' ∨
          ∃ consequent alternate, a = some (.conditional test consequent alternate)) := by
  rw [rules_eq] at h
  cases Origins.expression_cases h with
  | nothing hbinary => exact .inl ⟨rfl, hbinary⟩
  | alone hbinary hquestion => exact .inr ⟨_, _, hbinary, .inl ⟨rfl, rfl, hquestion⟩⟩
  | conditional hbinary hquestion hconsequent hcolon halternate =>
    exact .inr ⟨_, _, hbinary, .inr ⟨_, _, rfl⟩⟩

/-- A node that joins nothing is an expression exactly if it is an operand that neither an operator
nor the mark of a conditional follows. -/
theorem expression_done_iff (hname : n.name? = none) (hn : isJoined n = false) :
    rules .expression s = .done (some n) t ↔ ∃ u, rules .operand s = .done (some n) u ∧
      t = pastBlanks u ∧ operatorAt t.cursor.ahead = none ∧ t.cursor.peek? ≠ some '?' := by
  constructor
  · intro h
    rcases expression_cases h with ⟨hnone, -⟩ | ⟨test, v, hbinary, hcases⟩
    · cases hnone
    · rcases hcases with ⟨htest, rfl, hquestion⟩ | ⟨consequent, alternate, hconditional⟩
      · cases htest
        obtain ⟨u, hu, rfl, hat⟩ := (binary_done_iff hname hn).mp hbinary
        rw [pastBlanks_pastBlanks] at hquestion ⊢
        exact ⟨u, hu, rfl, hat, hquestion⟩
      · cases hconditional
        cases hn
  · rintro ⟨u, hu, rfl, hat, hquestion⟩
    rw [rules_eq]
    change expression .standard rules s = _
    unfold expression
    rw [bind_of_done ((binary_done_iff hname hn).mpr ⟨u, hu, rfl, hat⟩)]
    simp only [bind_skipBlanks_apply]
    change (eat '?' >>= _) (pastBlanks (pastBlanks u)) = _
    rw [pastBlanks_pastBlanks, bind_eat_apply, if_neg hquestion]
    rfl

theorem exists_operand_of_expression (h : rules .expression s = .done (some n) t) :
    ∃ m u, rules .operand s = .done (some m) u := by
  rcases expression_cases h with ⟨hnone, -⟩ | ⟨test, u, hbinary, -⟩
  · cases hnone
  · rcases binary_cases hbinary with ⟨hnone, -⟩ | ⟨m, left, v, -, hleft, -⟩
    · cases hnone
    · exact ⟨left, v, hleft⟩

theorem operand_eq_none (h : rules .operand s = .done none t) : t = pastBlanks s := by
  rw [rules_eq] at h
  cases Origins.operand_cases h with
  | nothing hpeek => rfl
  | operator hpeek hc hoperator =>
    cases (Origins.leadingOperator_ends s).of_done hoperator with
    | nothing => rfl

theorem expression_eq_none (h : rules .expression s = .done none t) : t = pastBlanks s := by
  rcases expression_cases h with ⟨-, hbinary⟩ | ⟨test, u, -, hcases⟩
  · rcases binary_cases hbinary with ⟨-, hoperand⟩ | ⟨n, left, u, hsome, -⟩
    · exact operand_eq_none hoperand
    · cases hsome
  · rcases hcases with ⟨hsome, -⟩ | ⟨consequent, alternate, hsome⟩ <;> cases hsome

/-- Without a further expression only separators and blanks are left. -/
theorem mem_separators_of_statements (h : rules .statements s = .done [] t) :
    ∀ c ∈ s.cursor.ahead, c ∈ [';', ',', ' ', '\t'] := by
  induction hahead : s.cursor.ahead generalizing s with
  | nil => exact fun c hc => absurd hc List.not_mem_nil
  | cons c rest ih =>
    have hpeek : s.cursor.peek? = some c := by rw [peek?_of_ahead hahead, List.head?_cons]
    rw [rules_eq] at h
    cases (Origins.statements_ends (g := .standard) s).of_done h with
    | nothing hend =>
      rw [hpeek] at hend
      cases hend
    | separator hc' hc hrest =>
      obtain rfl := Option.some.inj (hpeek.symm.trans hc')
      have hrest := ih hrest (ahead_advance_one hahead)
      intro d hd
      rcases List.mem_cons.mp hd with rfl | hd
      · simp only [List.mem_cons]
        tauto
      · exact hrest d hd
    | blanks hpeek hc hexpression hend =>
      obtain rfl := expression_eq_none hexpression
      rw [Cursor.peek?, ahead_pastBlanks, List.head?_eq_none_iff, List.dropWhile_eq_nil_iff,
        hahead] at hend
      intro d hd
      have hblank := hend d hd
      simp only [isBlank, Bool.or_eq_true, beq_iff_eq] at hblank
      simp only [List.mem_cons]
      tauto

/-- A source is one expression if an expression is read and no further one after it. -/
theorem statements_single_iff {c : Char} (hc : s.cursor.peek? = some c)
    (hother : ¬ (c = ';' ∨ c = ',')) (hn : ∀ body, n ≠ .compound body) :
    (∃ ns t, rules .statements s = .done ns t ∧ n = .ofStatements ns) ↔
      ∃ u t, rules .expression s = .done (some n) u ∧ rules .statements u = .done [] t := by
  rw [rules_eq]
  constructor
  · rintro ⟨ns, t, h, rfl⟩
    cases (Origins.statements_ends (g := .standard) s).of_done h with
    | nothing hend =>
      rw [hc] at hend
      cases hend
    | separator hpeek hseparator =>
      obtain rfl := Option.some.inj (hc.symm.trans hpeek)
      exact absurd hseparator hother
    | blanks => exact absurd rfl (hn [])
    | @expression _ m ms u _ hpeek hc hexpression hrest =>
      cases ms with
      | nil => exact ⟨u, t, hexpression, hrest⟩
      | cons m' ms => exact absurd rfl (hn (m :: m' :: ms))
  · rintro ⟨u, t, hexpression, hnil⟩
    refine ⟨[n], t, (statements_of_other hc hother).trans ?_, rfl⟩
    exact (bind_of_done hexpression _).trans (bind_of_done hnil _)

/-- The links of a node, from its head on. -/
def linkCount : Node → Nat
  | .member _ object _ => linkCount object + 1
  | .call callee _ => linkCount callee + 1
  | _ => 0

/-- A node comes back from its links as it is, or with more of them. -/
theorem links_cases {rounds : Nat} {head : Node}
    (h : run .standard rounds (.links head) s = .done n t) :
    n = head ∧ t = s ∨ linkCount head < linkCount n := by
  induction rounds generalizing head s with
  | zero => cases h
  | succ rounds ih =>
    cases (Origins.links_ends head s).of_done h with
    | last => exact .inl ⟨rfl, rfl⟩
    | @next next _ _ _ hlink hlinks =>
      have hnext : linkCount next = linkCount head + 1 := by cases hlink <;> rfl
      rcases ih hlinks with ⟨rfl, -⟩ | hlt
      · omega
      · omega

theorem name?_of_linkCount (h : 0 < linkCount n) : n.name? = none := by
  cases n with
  | identifier w object property => exact absurd h (Nat.lt_irrefl 0)
  | _ => rfl

/-- A node without a name is an operand as it is. -/
theorem ofTerm_of_name? (hname : n.name? = none) (s : State) :
    ofTerm .standard rules (.node n) s = .done n s := by
  cases n with
  | identifier => cases hname
  | _ => rfl

theorem joinName_of_name? (hname : n.name? = none) (s : State) :
    joinName letters n s = .done n s := by
  unfold joinName
  rw [bind_here_apply]
  cases n with
  | identifier => cases hname
  | _ => rfl

/-- A list of items is at its end, or a comma is passed, or an item is read. -/
theorem items_cases {bracket : Bracket} {ns : List Node}
    (h : rules (.items bracket) s = .done ns t) :
    ∃ c, (pastBlanks s).cursor.peek? = some c ∧
      (c = bracket.closing ∧ ns = [] ∨ c = ',' ∨ c ≠ bracket.closing ∧ c ≠ ',' ∧
        ∃ n u ms, rules .expression (pastBlanks s) = .done (some n) u ∧
          rules (.items bracket) u = .done ms t ∧ ns = n :: ms) := by
  rw [rules_eq] at h
  cases (Origins.items_ends (g := .standard) bracket s).of_done h with
  | close hclose => exact ⟨_, hclose, .inl ⟨rfl, rfl⟩⟩
  | comma hcomma => exact ⟨_, hcomma, .inr (.inl rfl)⟩
  | item hpeek hc hitem hn hitems =>
    exact ⟨_, hpeek, .inr (.inr ⟨hc.1, hc.2, _, _, _, hitem, hitems, rfl⟩)⟩

/-- An item that is read is the first one. -/
theorem items_cons {bracket : Bracket} {c : Char} {u : State} {ms : List Node}
    (hpeek : (pastBlanks s).cursor.peek? = some c) (hclosing : c ≠ bracket.closing)
    (hcomma : c ≠ ',') (hn : ∀ body, n ≠ .compound body)
    (hexpression : rules .expression (pastBlanks s) = .done (some n) u)
    (hms : rules (.items bracket) u = .done ms t) :
    rules (.items bracket) s = .done (n :: ms) t := by
  have hpeek : s.cursor.skipBlanks.peek? = some c := hpeek
  have hexpression : rules .expression { s with cursor := s.cursor.skipBlanks } =
    .done (some n) u := hexpression
  rw [rules_eq]
  change items rules bracket s = _
  unfold items
  rw [bind_skipBlanks_apply, bind_peek_apply, hpeek]
  simp only [hclosing, hcomma, if_false]
  rw [bind_of_done hexpression]
  have hitem : (do return n :: (← rules (.items bracket)) : Parse (List Node)) u =
      .done (n :: ms) t := bind_of_done hms _
  cases n with
  | compound body => exact absurd rfl (hn body)
  | _ => exact hitem

/-- The characters that may follow an operand and that no operand begins with. -/
def followers : List Char :=
  ['|', '^', '&', '=', '<', '>', '*', '/', '%', '?']

section

variable {c : Char} {rest : List Char}

theorem operand_of_follower (hs : s.cursor.ahead.dropWhile isBlank = c :: rest)
    (hc : c ∈ followers) : ∃ u, rules .operand s = .done none u := by
  have hall : ∀ d ∈ followers, (d.isDigit || d == '.') = false ∧ d ≠ '\'' ∧ d ≠ '"' ∧
      (letters.isStart d || d == '(') = false ∧ d ≠ '[' ∧
      OperatorTable.standard.unaryAt? [d] = none := forall_mem_of_all (by decide +kernel)
  obtain ⟨hdigit, hquote, hquotes, hprimary, hbracket, hunary⟩ := hall c hc
  obtain ⟨u, hu, hoperand⟩ := operand_eq hs
  have hlongest : OperatorTable.standard.longestUnary = 1 := by decide +kernel
  have hat : Grammar.standard.operators.unaryAt?
      (u.cursor.ahead.take Grammar.standard.operators.longestUnary) = none := by
    change OperatorTable.standard.unaryAt?
      (u.cursor.ahead.take OperatorTable.standard.longestUnary) = none
    rw [hu, hlongest]
    exact hunary
  refine ⟨u, ?_⟩
  rw [hoperand]
  simp only [hdigit, hquote, hquotes, hprimary, hbracket, Bool.false_eq_true, if_false]
  unfold leadingOperator
  rw [bind_here_apply]
  simp only [hat]
  rfl

/-- No operand begins with `!=`. -/
theorem operand_of_unequal (hs : s.cursor.ahead.dropWhile isBlank = '!' :: '=' :: rest) :
    rules .operand s ≠ .done (some n) t := by
  intro h
  obtain ⟨u, hu, hoperand⟩ := operand_eq hs
  have hat : Grammar.standard.operators.unaryAt?
      (u.cursor.ahead.take Grammar.standard.operators.longestUnary) = some "!" := by
    have hbang : "!" ∈ OperatorTable.standardUnary := by decide
    rw [hu]
    exact unaryAt?_of_mem hbang ('=' :: rest)
  rw [hoperand, if_neg (by decide), if_neg (by decide), if_neg (by decide), if_neg (by decide),
    if_neg (by decide)] at h
  unfold leadingOperator at h
  simp only [bind_here_apply, hat, bind_advance_apply] at h
  obtain ⟨m, v, hunary, -⟩ := bind_eq_done.mp h
  obtain ⟨argument, w, hargument, -⟩ := bind_eq_done.mp hunary
  have hequals : (u.cursor.advance "!".length).ahead = '=' :: rest := ahead_advance_one hu
  obtain ⟨w', hnone⟩ := operand_of_follower
    (s := { u with cursor := u.cursor.advance "!".length })
    (by rw [hequals, dropWhile_isBlank_cons (by decide)]) (by decide)
  rw [require_eq_done, hnone] at hargument
  cases hargument

/-- Where an operand begins, no binary operator does, signs apart, nor does the mark of a
conditional. -/
theorem operatorAt_of_operand (h : rules .operand s = .done (some n) t)
    (hs : s.cursor.ahead.dropWhile isBlank = c :: rest) (hsign : c ≠ '+' ∧ c ≠ '-') :
    operatorAt (c :: rest) = none ∧ c ≠ '?' := by
  have hfollower : c ∉ followers := by
    intro hc
    obtain ⟨u, hnone⟩ := operand_of_follower hs hc
    rw [hnone] at h
    cases h
  have hall : ∀ o ∈ OperatorTable.standardBinary, o.1.toList.head?.all (fun d => decide
      (d ∈ followers ∨ d = '+' ∨ d = '-')) = true ∨
        '!' :: '=' :: o.1.toList.drop 2 = o.1.toList := by decide +kernel
  refine ⟨binaryAt?_eq_none_iff.mpr fun o hmem hbegins => ?_, ?_⟩
  · obtain ⟨more, hmore⟩ := hbegins
    rcases hall o hmem with hfirst | hunequal
    · obtain ⟨d, more', hd⟩ := List.exists_cons_of_ne_nil (shape_of_mem hmem).ne_nil
      obtain rfl : d = c := by
        rw [hd] at hmore
        simp at hmore
        exact hmore.1
      rw [hd] at hfirst
      simp [hfollower, hsign] at hfirst
    · rw [← hunequal] at hmore
      exact operand_of_unequal (by rw [hs, ← hmore]; rfl) h
  · rintro rfl
    exact hfollower (by decide)

end

end

end ExprTree.Results
