import ExprTree.Proofs.Precedence
import ExprTree.Proofs.Reading
import ExprTree.Proofs.Settled

/-!
What a printed part is read as, at each level of the grammar: as the head of a primary, as an
operand, as operands with operators between them, as an item of a list, as a whole expression. A
part is read right up to what may follow it; the further a level is from a primary, the less may
follow. Each level is read as all levels below it, and in parentheses as all levels.
-/

namespace ExprTree.Printed

open Parse Standard Print Reading Precedence

/-- The rules of the standard grammar. -/
abbrev rules : Rules := settled .standard

theorem rules_eq (r : Rule) (s : State) : rules r s = round .standard rules r s :=
  settled_eq isStart_question r s

/-- A text that begins with a character of its own: not with a blank, nor with what may stand
between or after expressions, nor with what would make `==` out of `=`. -/
def Opens (text : List Char) : Prop :=
  ∃ c rest, text = c :: rest ∧ c ∉ [' ', '\t', ',', ')', ']', ';', '=']

/-- What may follow an expression whose end is one of the characters after blanks. -/
structure Closing (cs after : List Char) : Prop where
  first : ∀ c ∈ after.head?, c ∈ ends
  visible : ∀ c ∈ (after.dropWhile isBlank).head?, c ∈ cs

/-- What may follow an operand: the end of a binary expression, or an operator between blanks. -/
inductive Follows : List Char → Prop
  | closing {after : List Char} : Closing marks after → Follows after
  | operator {operator : String} {precedence : Int} {rest : List Char} :
    (operator, precedence) ∈ OperatorTable.standardBinary →
    Follows (' ' :: (operator.toList ++ ' ' :: rest))

/-- What may follow a whole expression. -/
def closers : List Char :=
  [')', ']', ':']

/-- What may follow an item of a list. -/
def separators : List Char :=
  ',' :: closers

theorem separators_of_closers : ∀ c ∈ closers, c ∈ separators :=
  forall_mem_of_all (by decide)

theorem marks_of_separators : ∀ c ∈ separators, c ∈ marks :=
  forall_mem_of_all (by decide)

/-- Read as the head of a primary: what is left to read are its links. -/
structure HeadReads (n : Node) (text : List Char) : Prop where
  core : Core n
  opens : ∃ c rest, text = c :: rest ∧ (letters.isStart c = true ∨ c = '(')
  reads : ∀ after s, (∀ c ∈ after.head?, letters.isPart c = false ∧ c ≠ '=') →
    s.cursor.ahead = text ++ after →
    ∃ t, t.cursor.ahead = after.dropWhile isBlank ∧
      rules .primary s = (do return .node (← rules (.links n)) : Parse Term) t

/-- Read as an operand. -/
structure OperandReads (n : Node) (text : List Char) : Prop where
  core : Core n
  opens : Opens text
  reads : ∀ after s, Follows after → s.cursor.ahead.dropWhile isBlank = text ++ after →
    ∃ rest, Done (rules .operand s) (some n) rest ∧
      rest.dropWhile isBlank = after.dropWhile isBlank

/-- The text of operators with their operands, each operator between blanks. -/
inductive Spelled : List Item → List Char → Prop
  | nil : Spelled [] []
  | cons {i : Item} {items : List Item} {text more : List Char} :
    (i.operator, i.precedence) ∈ OperatorTable.standardBinary → OperandReads i.operand text →
    Spelled items more →
    Spelled (i :: items) (' ' :: (i.operator.toList ++ ' ' :: (text ++ more)))

/-- Read as operands with operators between them that bind as tightly as given at least. -/
def ChainReads (precedence : Int) (n : Node) (text : List Char) : Prop :=
  ∃ first items firstText more, text = firstText ++ more ∧ OperandReads first firstText ∧
    Spelled items more ∧ (∀ i ∈ items, precedence ≤ i.precedence) ∧ n = tree first items

/-- Read as an expression in front of certain characters. -/
structure ExpressionReads (cs : List Char) (n : Node) (text : List Char) : Prop where
  opens : Opens text
  reads : ∀ after s, Closing cs after → s.cursor.ahead.dropWhile isBlank = text ++ after →
    Done (rules .expression s) (some n) (after.dropWhile isBlank)

/-- Read at a level, and at all levels below it. -/
structure ReadsAs (level : Int) (n : Node) (text : List Char) : Prop where
  whole : ExpressionReads closers n text
  item : 1 ≤ level → ExpressionReads separators n text
  chain : ∀ p, 1 ≤ p → 1 + p ≤ level → ChainReads p n text
  operand : 12 ≤ level → OperandReads n text
  head : 13 ≤ level → HeadReads n text

section

variable {n : Node} {text after : List Char} {level : Int}

theorem ReadsAs.of_le {level' : Int} (h : ReadsAs level n text) (hle : level' ≤ level) :
    ReadsAs level' n text :=
  ⟨h.whole, fun hlevel => h.item (by omega), fun p hp hlevel => h.chain p hp (by omega),
    fun hlevel => h.operand (by omega), fun hlevel => h.head (by omega)⟩

theorem Closing.mono {cs cs' : List Char} (h : Closing cs after) (hcs : ∀ c ∈ cs, c ∈ cs') :
    Closing cs' after :=
  ⟨h.first, fun c hc => hcs c (h.visible c hc)⟩

theorem closing_cons {cs rest : List Char} {c : Char} (hc : c ∈ ends) (hcs : c ∈ cs)
    (hblank : isBlank c = false) : Closing cs (c :: rest) := by
  constructor
  · exact forall_mem_head?_cons rest hc
  · rw [dropWhile_isBlank_cons hblank]
    exact forall_mem_head?_cons rest hcs

/-- A mark of a conditional with a blank in front of it. -/
theorem closing_blank_cons {cs rest : List Char} {c : Char} (hcs : c ∈ cs)
    (hblank : isBlank c = false) : Closing cs (' ' :: c :: rest) := by
  have hdrop : (' ' :: c :: rest).dropWhile isBlank = c :: rest := by
    rw [List.dropWhile_cons_of_pos (by decide), dropWhile_isBlank_cons hblank]
  constructor
  · exact forall_mem_head?_cons _ (by decide)
  · rw [hdrop]
    exact forall_mem_head?_cons rest hcs

theorem Opens.append (h : Opens text) (after : List Char) :
    (text ++ after).dropWhile isBlank = text ++ after := by
  obtain ⟨c, rest, rfl, hc⟩ := h
  refine dropWhile_isBlank_cons ?_ _
  by_contra hblank
  simp only [isBlank, Bool.not_eq_false, Bool.or_eq_true, beq_iff_eq] at hblank
  rcases hblank with rfl | rfl <;> simp at hc

/-- The text of an operator is not blank in front. -/
theorem dropWhile_operator {operator : String} {precedence : Int} {rest : List Char}
    (h : (operator, precedence) ∈ OperatorTable.standardBinary) :
    (' ' :: (operator.toList ++ rest)).dropWhile isBlank = operator.toList ++ rest := by
  have hshape := shape_of_mem h
  cases hop : operator.toList with
  | nil =>
    have hpos := hshape.length_pos
    simp [hop] at hpos
  | cons c more =>
    have hblank := (hshape.first c (by simp [hop])).2.2.1
    rw [List.dropWhile_cons_of_pos (by decide), List.cons_append, dropWhile_isBlank_cons hblank]

theorem Follows.first (h : Follows after) : ∀ c ∈ after.head?, c ∈ ends := by
  cases h with
  | closing h => exact h.first
  | operator h => exact forall_mem_head?_cons _ (by decide)

/-- No link follows. -/
theorem Follows.not_link (h : Follows after) :
    ∀ c ∈ (after.dropWhile isBlank).head?, c ∉ ['.', '[', '('] := by
  cases h with
  | closing h =>
    intro c hc
    have hmarks : ∀ d ∈ marks, d ∉ ['.', '[', '('] := forall_mem_of_all (by decide)
    exact hmarks c (h.visible c hc)
  | @operator operator precedence rest h =>
    intro c hc
    rw [dropWhile_operator h, List.head?_append_of_ne_nil _ (shape_of_mem h).ne_nil] at hc
    exact ((shape_of_mem h).first c hc).2.1

/-- No name is glued on with `!`. -/
theorem Follows.not_join (h : Follows after) {c : Cursor}
    (hc : c.ahead = after.dropWhile isBlank) : joinFollows letters c = false := by
  have hnext : c.peek? = some '!' → ∀ d ∈ c.peekAt? 1, letters.isStart d = false := by
    rw [Cursor.peek?, Cursor.peekAt?, hc]
    intro hbang d hd
    cases h with
    | closing h =>
      have hmarks : '!' ∉ marks := by decide
      exact absurd (h.visible '!' hbang) hmarks
    | @operator operator precedence rest h =>
      rw [dropWhile_operator h] at hd
      by_cases hlength : 1 < operator.toList.length
      · rw [List.getElem?_append_left hlength] at hd
        exact (shape_of_mem h).second d hd
      · have hone : operator.toList.length = 1 := by
          have := (shape_of_mem h).length_pos
          omega
        rw [List.getElem?_append_right (by omega), hone] at hd
        obtain rfl : ' ' = d := by simpa using hd
        decide
  unfold joinFollows
  by_cases hbang : c.peek? = some '!'
  · cases hd : c.peekAt? 1 with
    | none => simp
    | some d => simp [hnext hbang d hd]
  · simp [hbang]

end

section

variable {n : Node} {text after : List Char} {s : State}

theorem joinName_of_not_join {l : Letters} (n : Node) (h : joinFollows l s.cursor = false) :
    joinName l n s = .done n s := by
  unfold joinName
  rw [bind_here_apply, h]
  cases n with
  | identifier w object property => cases object <;> rfl
  | _ => rfl

theorem read?_eq_none {c : Char} {rest : List Char} (hdigit : c.isDigit = false)
    (hpoint : c ≠ '.') : Numeral.read? (c :: rest) = none := by
  have hfraction : Numeral.munchFraction (c :: rest) = (none, c :: rest) := by
    unfold Numeral.munchFraction
    split <;> simp_all
  have hmantissa : (Numeral.munch (c :: rest)).1.mantissa = [] := by
    simp [Numeral.munch, Numeral.mantissa, hdigit, hfraction]
  unfold Numeral.read?
  split
  · rename_i n hmunch
    rw [hmunch] at hmantissa
    simp [Numeral.isComplete, hmantissa]
  · rfl

theorem read?_word {w : String} (hw : IsWord w) : Numeral.read? w.toList = none := by
  obtain ⟨c, rest, hc, hstart, -⟩ := hw
  rw [hc]
  exact read?_eq_none (isDigit_of_isStart hstart) (ne_of_isStart hstart (by decide))

/-- No operator in front of an operand begins like a name. -/
theorem isUnary_of_isStart {w : String} {c : Char} {rest : List Char} (hw : w.toList = c :: rest)
    (hc : letters.isStart c = true) : OperatorTable.standard.isUnary w = false := by
  have hall : ∀ o ∈ OperatorTable.standard.unary,
      o.toList.head?.any letters.isStart = false := by decide +kernel
  by_contra hunary
  have hmem : w ∈ OperatorTable.standard.unary := by
    simpa [OperatorTable.isUnary] using hunary
  have hfirst := hall w hmem
  rw [hw, List.head?_cons, Option.any_some, hc] at hfirst
  cases hfirst

theorem isUnary_word {w : String} (hw : IsWord w) :
    Grammar.standard.operators.isUnary w = false := by
  obtain ⟨c, rest, hc, hstart, -⟩ := hw
  exact isUnary_of_isStart hc hstart

/-- A printed primary is an operand as it is. -/
theorem ofTerm_core (hn : Core n) (s : State) :
    ofTerm .standard rules (.node n) s = .done n s := by
  cases hn with
  | name hw =>
    unfold ofTerm
    simp only [Node.plain, isUnary_word hw, read?_word hw, Bool.false_eq_true, if_false]
    rfl
  | @operator operator precedence left right =>
    unfold Node.ofOperator
    split <;> rfl
  | _ => rfl

/-- The name of a printed node holds no `?` to cut it at. -/
theorem gluedTest?_core (hn : Core n) : gluedTest? (n.name?.getD "").toList = none := by
  have hsplit : ∀ cs : List Char, '?' ∉ cs → splitAtLast '?' cs = none := by
    intro cs hcs
    cases h : splitAtLast '?' cs with
    | none => rfl
    | some parts =>
      rw [Progress.splitAtLast_eq_some h] at hcs
      simp at hcs
  have hname : '?' ∉ (n.name?.getD "").toList := by
    cases hn with
    | @name w hw =>
      obtain ⟨c, rest, hc, hstart, hrest⟩ := hw
      simp only [Node.plain, Node.name?, Option.getD_some, hc, List.mem_cons, not_or]
      refine ⟨(ne_of_isStart hstart (by decide)).symm, fun hmem => ?_⟩
      exact absurd (hrest '?' hmem) (by decide)
    | operator =>
      rw [Node.name?_ofOperator]
      simp
    | _ => simp [Node.name?]
  unfold gluedTest?
  rw [hsplit _ hname]

/-- What an operand is by its first character. -/
theorem operand_eq {c : Char} (hs : s.cursor.ahead.dropWhile isBlank = c :: text) :
    ∃ t : State, t.cursor.ahead = c :: text ∧ rules .operand s =
      (if c.isDigit || c == '.' then do return some (← numeralOperand .standard rules c)
      else if c = '\'' then do return some (← joinableText letters)
      else if c = '"' then do
        let (value, raw) ← quotation
        return some (.literal (.string value) raw)
      else if letters.isStart c || c == '(' then do
        return some (← primaryOperand .standard rules)
      else if c = '[' then do
        advance 1
        return some (.array (← rules (.items .square)))
      else leadingOperator .standard rules : Parse (Option Node)) t := by
  refine ⟨{ s with cursor := s.cursor.skipBlanks }, by rw [Cursor.ahead_skipBlanks, hs], ?_⟩
  have hpeek : s.cursor.skipBlanks.peek? = some c := by
    rw [Cursor.peek?, Cursor.ahead_skipBlanks, hs, List.head?_cons]
  rw [rules_eq]
  change operand .standard rules s = _
  unfold operand
  simp only [bind_skipBlanks_apply, bind_peek_apply, hpeek]

/-- An operand that begins like a name is a primary. -/
theorem primaryOperand_of_isStart {c : Char} (hc : letters.isStart c = true) {α : Type}
    (numeral text quoted primary array leading : α) :
    (if c.isDigit || c == '.' then numeral else if c = '\'' then text
      else if c = '"' then quoted else if letters.isStart c || c == '(' then primary
      else if c = '[' then array else leading) = primary := by
  have hdigit := isDigit_of_isStart hc
  have hother : c ∉ ['.', '\'', '"'] := not_mem_of_isStart hc (by decide)
  simp only [List.mem_cons, not_or] at hother
  simp only [hdigit, hother, hc, Bool.or_eq_true, beq_iff_eq, Bool.false_eq_true, false_or,
    true_or, if_false, if_true]

theorem HeadReads.operand (h : HeadReads n text) : OperandReads n text := by
  obtain ⟨c, rest, rfl, hc⟩ := h.opens
  have hopens : Opens (c :: rest) := by
    refine ⟨c, rest, rfl, ?_⟩
    rcases hc with hc | rfl
    · exact not_mem_of_isStart hc (by decide)
    · decide
  refine ⟨h.core, hopens, fun after s hafter hs => ?_⟩
  refine ⟨after.dropWhile isBlank, ?_, List.dropWhile_idempotent _ _⟩
  obtain ⟨u, hu, hoperand⟩ := operand_eq hs
  have hafter' : ∀ d ∈ after.head?, letters.isPart d = false ∧ d ≠ '=' := by
    have hends : ∀ d ∈ ends, letters.isPart d = false ∧ d ≠ '=' := forall_mem_of_all (by decide)
    exact fun d hd => hends d (hafter.first d hd)
  obtain ⟨t, ht, hprimary⟩ := h.reads after u hafter' hu
  have hlinks : rules (.links n) t = .done n t := by
    rw [rules_eq]
    change links .standard rules n t = _
    rw [links_eq, bind_peek_apply, peek?_of_ahead ht]
    have hnot := hafter.not_link
    cases hhead : (after.dropWhile isBlank).head? with
    | none => rfl
    | some d =>
      have hd := hnot d hhead
      simp only [List.mem_cons, not_or] at hd
      simp only [Option.some.injEq, hd, if_false]
      rfl
  have hterm : rules .primary u = .done (.node n) t := by
    rw [hprimary, bind_of_done hlinks]
    rfl
  have hprimaryOperand : Done (primaryOperand .standard rules u) n (after.dropWhile isBlank) := by
    refine ⟨t, ?_, ht⟩
    unfold primaryOperand
    rw [bind_of_done hterm]
    simp only
    rw [bind_of_done (joinName_of_not_join n (hafter.not_join ht)), ofTerm_core h.core]
  rw [hoperand]
  rcases hc with hc | rfl
  · rw [primaryOperand_of_isStart hc]
    exact hprimaryOperand.map some
  · exact hprimaryOperand.map some

theorem positive_of_mem {operator : String} {precedence : Int}
    (h : (operator, precedence) ∈ OperatorTable.standardBinary) :
    1 ≤ precedence ∧ precedence ≤ 10 := by
  have hall : ∀ o ∈ OperatorTable.standardBinary, 1 ≤ o.2 ∧ o.2 ≤ 10 := by decide
  exact hall _ h

theorem Spelled.follows {items : List Item} {more : List Char} (h : Spelled items more)
    (hafter : Closing marks after) : Follows (more ++ after) := by
  cases h with
  | nil => exact .closing hafter
  | cons hmem hoperand hmore =>
    rw [List.cons_append, List.append_assoc, List.cons_append]
    exact .operator hmem

theorem Spelled.append {items items' : List Item} {more more' : List Char}
    (h : Spelled items more) (h' : Spelled items' more') :
    Spelled (items ++ items') (more ++ more') := by
  induction h with
  | nil => exact h'
  | cons hmem hoperand hmore ih =>
    simp only [List.cons_append, List.append_assoc]
    exact .cons hmem hoperand ih

/-- Operators and operands are all fed to the stack, in their order. -/
theorem chain_done {items : List Item} {more : List Char} (h : Spelled items more)
    (hafter : Closing marks after) (stack : OperatorStack)
    (hs : s.cursor.ahead.dropWhile isBlank = (more ++ after).dropWhile isBlank) :
    Done (rules (.chain stack) s) (items.foldl feed stack).finish
      (after.dropWhile isBlank) := by
  induction h generalizing stack s with
  | nil =>
    rw [rules_eq]
    have hvisible : ∀ c ∈ (after.dropWhile isBlank).head?, c ∈ marks ∨ letters.isPart c = true :=
      fun c hc => .inl (hafter.visible c hc)
    exact (binaryOperator_done_none rfl hs hvisible).bind fun t ht => done_pure ht
  | @cons i items text more hmem hoperand hmore ih =>
    have hahead : s.cursor.ahead.dropWhile isBlank =
        i.operator.toList ++ ' ' :: (text ++ (more ++ after)) := by
      simp only [hs, List.cons_append, List.append_assoc, dropWhile_operator hmem]
    rw [rules_eq]
    refine (binaryOperator_done_some hmem hahead).bind fun t ht => ?_
    have hpositive : ¬ i.precedence ≤ 0 := by
      have := (positive_of_mem hmem).1
      omega
    simp only [hpositive, if_false]
    obtain ⟨rest, hright, hrest⟩ := hoperand.reads (more ++ after) t (hmore.follows hafter) (by
      rw [ht, List.dropWhile_cons_of_pos (by decide), hoperand.opens.append])
    refine (hright.require _).bind fun u hu => ?_
    exact ih (feed stack i) (by rw [hu, hrest])

/-- An operand that no operator follows is the whole of a binary expression, cut or not. -/
theorem binary_of_split {g : Grammar} {parts : Rules} {m : Node} {rest more : List Char}
    (hg : g.operators = .standard)
    (h : Done (parts .operand { s with cursor := s.cursor.skipBlanks }) (some n) rest)
    (hrest : rest.dropWhile isBlank = after.dropWhile isBlank)
    (hafter : ∀ c ∈ (after.dropWhile isBlank).head?, c ∈ marks ∨ letters.isPart c = true)
    (hsplit : ∀ u : State, u.cursor.ahead = after.dropWhile isBlank →
      Done (splitGlued parts s.cursor.skipBlanks n u) m more) :
    Done (binary g parts s) (some m) more := by
  unfold binary
  simp only [bind_skipBlanks_apply, bind_here_apply]
  refine h.bind fun t ht => ?_
  simp only [bind_here_apply]
  refine (binaryOperator_done_none hg (by rw [ht, hrest]) hafter).bind fun u hu => ?_
  exact (hsplit u hu).map some

theorem binary_of_operand {g : Grammar} {parts : Rules} {rest : List Char}
    (hg : g.operators = .standard)
    (h : Done (parts .operand { s with cursor := s.cursor.skipBlanks }) (some n) rest)
    (hrest : rest.dropWhile isBlank = after.dropWhile isBlank)
    (hafter : ∀ c ∈ (after.dropWhile isBlank).head?, c ∈ marks ∨ letters.isPart c = true)
    (hname : gluedTest? (n.name?.getD "").toList = none) :
    Done (binary g parts s) (some n) (after.dropWhile isBlank) := by
  refine binary_of_split hg h hrest hafter fun u hu => ?_
  simp only [splitGlued, hname]
  exact done_pure hu

/-- Operands with operators between them are read to the end, as their tree. -/
theorem ChainReads.binary_done {precedence : Int} (h : ChainReads precedence n text)
    (hafter : Closing marks after) (hs : s.cursor.ahead.dropWhile isBlank = text ++ after) :
    Done (binary .standard rules s) (some n) (after.dropWhile isBlank) := by
  obtain ⟨first, items, firstText, more, rfl, hfirst, hmore, -, rfl⟩ := h
  rw [List.append_assoc] at hs
  obtain ⟨rest, hleft, hrest⟩ := hfirst.reads (more ++ after)
    { s with cursor := s.cursor.skipBlanks } (hmore.follows hafter) (dropWhile_skipBlanks hs)
  cases hmore with
  | nil =>
    rw [tree_nil]
    exact binary_of_operand rfl hleft hrest (fun c hc => .inl (hafter.visible c hc))
      (gluedTest?_core hfirst.core)
  | @cons i items text more hmem hoperand hmore =>
    unfold binary
    simp only [bind_skipBlanks_apply, bind_here_apply]
    refine hleft.bind fun t ht => ?_
    have hahead : t.cursor.ahead.dropWhile isBlank =
        i.operator.toList ++ ' ' :: (text ++ (more ++ after)) := by
      simp only [ht, hrest, List.cons_append, List.append_assoc, dropWhile_operator hmem]
    simp only [bind_here_apply]
    refine (binaryOperator_done_some hmem hahead).bind fun u hu => ?_
    have hword : ∀ isolated next,
        isInsideWord .standard first isolated i.operator next = false := by
      intro isolated next
      have hpart : i.operator.toList.head?.any Grammar.standard.letters.isPart = false := by
        cases hhead : i.operator.toList.head? with
        | none => rfl
        | some c => exact ((shape_of_mem hmem).first c hhead).2.2.2
      simp [isInsideWord, hpart]
    simp only [bind_peek_apply, hword, Bool.false_eq_true, if_false]
    obtain ⟨rest', hright, hrest'⟩ := hoperand.reads (more ++ after) u (hmore.follows hafter) (by
      rw [hu, List.dropWhile_cons_of_pos (by decide), hoperand.opens.append])
    refine (hright.require _).bind fun v hv => ?_
    rw [← finish_foldl_feed first i items]
    exact chain_done hmore hafter _ (by rw [hv, hrest'])

theorem ChainReads.opens {precedence : Int} (h : ChainReads precedence n text) : Opens text := by
  obtain ⟨first, items, firstText, more, rfl, hfirst, -⟩ := h
  obtain ⟨c, rest, rfl, hc⟩ := hfirst.opens
  exact ⟨c, rest ++ more, rfl, hc⟩

/-- A binary expression that is not the test of a conditional is the whole expression. -/
theorem expression_of_binary {g : Grammar} {parts : Rules} {rest : List Char}
    (h : Done (binary g parts s) (some n) rest)
    (hrest : (rest.dropWhile isBlank).head? ≠ some '?') :
    Done (expression g parts s) (some n) (rest.dropWhile isBlank) := by
  refine h.bind fun t ht => ?_
  refine (skipBlanks_done (by rw [ht])).bind fun u hu => ?_
  exact (not_eat_done hu hrest).bind fun v hv => done_pure hv

/-- A binary expression in front of a `?` is the test of a conditional. -/
theorem expression_of_branches {g : Grammar} {parts : Rules} {test consequent alternate : Node}
    {afterTest branches afterConsequent last rest : List Char}
    (htest : Done (binary g parts s) (some test) afterTest)
    (hquestion : afterTest.dropWhile isBlank = '?' :: branches)
    (hconsequent : ∀ t : State, t.cursor.ahead = branches → t.inBranch = true →
      Done (parts .expression t) (some consequent) afterConsequent)
    (hcolon : afterConsequent.dropWhile isBlank = ':' :: last)
    (halternate : ∀ t : State, t.cursor.ahead = last →
      Done (parts .expression t) (some alternate) rest) :
    Done (expression g parts s) (some (.conditional test consequent alternate)) rest := by
  refine htest.bind fun t ht => ?_
  refine (skipBlanks_done (by rw [ht, hquestion])).bind fun u hu => ?_
  refine (eat_done hu).bind fun v hv => ?_
  simp only [if_true, bind_setInBranch_apply]
  refine ((hconsequent { v with inBranch := true } hv rfl).require _).bind fun w hw => ?_
  refine (skipBlanks_done (by rw [hw, hcolon])).bind fun x hx => ?_
  refine (expect_done hx _).bind fun y hy => ?_
  exact ((halternate y hy).require _).bind fun z hz => ⟨_, rfl, hz⟩

theorem ChainReads.expression {precedence : Int} (h : ChainReads precedence n text) :
    ExpressionReads separators n text := by
  refine ⟨h.opens, fun after s hafter hs => ?_⟩
  have hbinary := h.binary_done (hafter.mono marks_of_separators) hs
  have hquestion : ((after.dropWhile isBlank).dropWhile isBlank).head? ≠ some '?' := by
    rw [List.dropWhile_idempotent]
    exact fun hc => absurd (hafter.visible '?' hc) (by decide)
  rw [rules_eq]
  have hdone := expression_of_binary hbinary hquestion
  rwa [List.dropWhile_idempotent] at hdone

theorem conditional_reads {test consequent alternate : Node}
    {testText consequentText alternateText : List Char} (htest : ChainReads 1 test testText)
    (hconsequent : ExpressionReads closers consequent consequentText)
    (halternate : ExpressionReads separators alternate alternateText) :
    ExpressionReads separators (.conditional test consequent alternate)
      (testText ++ ' ' :: '?' :: ' ' ::
        (consequentText ++ ' ' :: ':' :: ' ' :: alternateText)) := by
  obtain ⟨c, rest, htext, hc⟩ := htest.opens
  refine ⟨⟨c, _, by rw [htext, List.cons_append], hc⟩, fun after s hafter hs => ?_⟩
  have hquestion : Closing marks (' ' :: '?' :: ' ' ::
      (consequentText ++ ' ' :: ':' :: ' ' :: (alternateText ++ after))) :=
    closing_blank_cons (by decide) (by decide)
  have hcolon : Closing closers (' ' :: ':' :: ' ' :: (alternateText ++ after)) :=
    closing_blank_cons (by decide) (by decide)
  have hblank : ∀ (d : Char) (text : List Char), isBlank d = false →
      (' ' :: d :: text).dropWhile isBlank = d :: text := by
    intro d text hd
    rw [List.dropWhile_cons_of_pos (by decide), dropWhile_isBlank_cons hd]
  have hquestionDone := htest.binary_done hquestion (by rw [hs]; simp)
  have hconsequentDone : ∀ t : State, t.cursor.ahead = ' ' :: (consequentText ++
      ' ' :: ':' :: ' ' :: (alternateText ++ after)) → t.inBranch = true →
      Done (rules .expression t) (some consequent) (':' :: ' ' :: (alternateText ++ after)) := by
    intro t ht _
    have hdone := hconsequent.reads _ t hcolon (by
      rw [ht, List.dropWhile_cons_of_pos (by decide), hconsequent.opens.append])
    rwa [hblank ':' _ (by decide)] at hdone
  have halternateDone : ∀ t : State, t.cursor.ahead = ' ' :: (alternateText ++ after) →
      Done (rules .expression t) (some alternate) (after.dropWhile isBlank) := by
    intro t ht
    exact halternate.reads _ t hafter (by
      rw [ht, List.dropWhile_cons_of_pos (by decide), halternate.opens.append])
  rw [hblank '?' _ (by decide)] at hquestionDone
  rw [rules_eq]
  exact expression_of_branches hquestionDone (dropWhile_isBlank_cons (by decide) _)
    hconsequentDone (dropWhile_isBlank_cons (by decide) _) halternateDone

/-- Any expression in parentheses is the head of a primary. -/
theorem group_reads (hn : Core n) (h : ExpressionReads closers n text) :
    HeadReads n ('(' :: (text ++ [')'])) := by
  refine ⟨hn, ⟨'(', _, rfl, .inr rfl⟩, fun after s _ hs => ?_⟩
  have hs' : s.cursor.ahead = '(' :: (text ++ ')' :: after) := by simp [hs]
  have hclose : Closing closers (')' :: after) := closing_cons (by decide) (by decide) (by decide)
  have hgroup : Done (group rules s) n after := by
    refine (advance_done hs').bind fun t ht => ?_
    refine ((h.reads _ t hclose (by rw [ht, h.opens.append])).require _).bind fun u hu => ?_
    rw [dropWhile_isBlank_cons (by decide)] at hu
    refine (skipBlanks_done (by rw [hu, dropWhile_isBlank_cons (by decide)])).bind fun v hv => ?_
    exact (expect_done hv _).bind fun w hw => done_pure hw
  obtain ⟨t, hdone, ht⟩ := hgroup
  refine ⟨{ t with cursor := t.cursor.skipBlanks }, ahead_skipBlanks_of_ahead ht, ?_⟩
  have hpeek : s.cursor.peek? = some '(' := by rw [peek?_of_ahead hs', List.head?_cons]
  rw [rules_eq]
  change primary .standard rules s = _
  unfold primary
  simp only [bind_bind, bind_peek_apply, hpeek, if_true]
  rw [bind_of_done hdone]
  rfl

theorem OperandReads.chain (h : OperandReads n text) (precedence : Int) :
    ChainReads precedence n text :=
  ⟨n, [], text, [], by simp, h, .nil, by simp, by simp⟩

theorem ChainReads.of_le {p q : Int} (h : ChainReads p n text) (hle : q ≤ p) :
    ChainReads q n text := by
  obtain ⟨first, items, firstText, more, htext, hfirst, hmore, hitems, hn⟩ := h
  exact ⟨first, items, firstText, more, htext, hfirst, hmore,
    fun i hi => Int.le_trans hle (hitems i hi), hn⟩

theorem whole_readsAs (h : ExpressionReads closers n text) : ReadsAs 0 n text :=
  ⟨h, by omega, by omega, by omega, by omega⟩

theorem item_readsAs (h : ExpressionReads separators n text) : ReadsAs 1 n text :=
  ⟨⟨h.opens, fun after s hafter hs => h.reads after s (hafter.mono separators_of_closers) hs⟩,
    fun _ => h, by omega, by omega, by omega⟩

theorem chain_readsAs {p : Int} (h : ChainReads p n text) (hp : p ≤ 10) :
    ReadsAs (1 + p) n text :=
  ⟨(item_readsAs h.expression).whole, fun _ => h.expression, fun q _ hq => h.of_le (by omega),
    by omega, by omega⟩

theorem operand_readsAs (h : OperandReads n text) : ReadsAs 12 n text :=
  ⟨(item_readsAs (h.chain 1).expression).whole, fun _ => (h.chain 1).expression,
    fun p _ _ => h.chain p, fun _ => h, by omega⟩

theorem head_readsAs (h : HeadReads n text) (level : Int) : ReadsAs level n text :=
  ⟨(operand_readsAs h.operand).whole, fun _ => (h.operand.chain 1).expression,
    fun p _ _ => h.operand.chain p, fun _ => h.operand, fun _ => h⟩

/-- In parentheses where it needs them, a part is read as its place asks for. -/
theorem ReadsAs.wrap (hn : Core n) (h : ReadsAs (tightness n) n text) (level : Int) :
    ReadsAs level n (Print.wrap level n text) := by
  unfold Print.wrap
  split
  · exact head_readsAs (group_reads hn h.whole) level
  · exact h.of_le (by omega)

end

end ExprTree.Printed
