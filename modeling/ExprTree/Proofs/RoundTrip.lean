import ExprTree.Proofs.NamedArguments

/-!
Printed trees are read back. For each kind of tree a lemma says at which level its text is read,
given how its parts are; the induction over `Core` puts them together.
-/

namespace ExprTree.RoundTrip

open Parse Standard Print Reading Precedence Printed NamedArguments QuotedText

section

variable {n : Node} {text after : List Char} {s : State}

theorem word_reads {w : String} (hw : IsWord w) (hn : Core (Grammar.standard.wordNode w)) :
    HeadReads (Grammar.standard.wordNode w) w.toList := by
  obtain ⟨c, rest, hc, hstart, -⟩ := id hw
  refine ⟨hn, ⟨c, rest, hc, .inl hstart⟩, fun after s hafter hs => ?_⟩
  obtain ⟨t, hname, ht⟩ := name_done hw (fun d hd => (hafter d hd).1) hs
  have hparen : s.cursor.peek? ≠ some '(' := by
    rw [peek?_of_ahead hs, hc, List.cons_append, List.head?_cons, ne_eq, Option.some.injEq]
    exact ne_of_isStart hstart (by decide)
  have hequals : ¬ (t.cursor.peek? = some '=' ∧ t.cursor.peekAt? 1 ≠ some '=') := by
    rw [peek?_of_ahead ht]
    exact fun h => (hafter '=' h.1).2 rfl
  have hword : word .standard rules s = .done (.node (Grammar.standard.wordNode w)) t := by
    unfold word
    rw [bind_of_done hname, bind_here_apply]
    simp only [hequals, if_false]
    rfl
  refine ⟨{ t with cursor := t.cursor.skipBlanks }, ahead_skipBlanks_of_ahead ht, ?_⟩
  rw [rules_eq]
  change primary .standard rules s = _
  unfold primary
  simp only [bind_bind, bind_peek_apply, hparen, if_false]
  rw [bind_of_done hword]
  rfl

/-- A link after the head of a primary gives the head of a primary again. -/
theorem link_reads {head : Node} {headText : List Char} (hhead : HeadReads head headText)
    (hn : Core n) {mark : Char} (hmark : mark ∈ ['.', '[', '('])
    (hlink : ∀ after s, (∀ c ∈ after.head?, letters.isPart c = false ∧ c ≠ '=') →
      s.cursor.ahead = mark :: (text ++ after) →
      ∃ t, t.cursor.ahead = after.dropWhile isBlank ∧
        rules (.links head) s = rules (.links n) t) :
    HeadReads n (headText ++ mark :: text) := by
  obtain ⟨c, rest, hc, hfirst⟩ := hhead.opens
  refine ⟨hn, ⟨c, _, by rw [hc, List.cons_append], hfirst⟩, fun after s hafter hs => ?_⟩
  have hother : ∀ d ∈ ['.', '[', '('], (letters.isPart d = false ∧ d ≠ '=') ∧
      isBlank d = false := forall_mem_of_all (by decide)
  have hmark' : ∀ d ∈ (mark :: (text ++ after)).head?, letters.isPart d = false ∧ d ≠ '=' :=
    forall_mem_head?_cons _ (hother mark hmark).1
  obtain ⟨t, ht, hprimary⟩ := hhead.reads _ s hmark' (by simpa using hs)
  rw [dropWhile_isBlank_cons (hother mark hmark).2] at ht
  obtain ⟨u, hu, hlinks⟩ := hlink after t hafter ht
  exact ⟨u, hu, hprimary.trans (bind_congr_apply hlinks _)⟩

theorem property_reads {object : Node} {objectText : List Char} {w : String}
    (hobject : HeadReads object objectText) (hw : IsWord w) :
    HeadReads (.member false object (.plain w)) (objectText ++ '.' :: w.toList) := by
  refine link_reads hobject (.property hobject.core hw) (by decide) fun after s hafter hs => ?_
  have hpeek : s.cursor.peek? = some '.' := by rw [peek?_of_ahead hs, List.head?_cons]
  have hskip : ({ s with cursor := (s.cursor.advance 1).skipBlanks } : State).cursor.ahead =
      w.toList ++ after := by
    obtain ⟨c, rest, hc, hstart, -⟩ := hw
    rw [ahead_skipBlanks_of_ahead (ahead_advance_one hs), hc, List.cons_append,
      dropWhile_isBlank_cons (isBlank_of_isStart hstart)]
  obtain ⟨t, hname, ht⟩ := name_done hw (fun d hd => (hafter d hd).1) hskip
  refine ⟨{ t with cursor := t.cursor.skipBlanks }, ahead_skipBlanks_of_ahead ht, ?_⟩
  rw [rules_eq]
  change links .standard rules object s = _
  rw [links_eq, bind_peek_apply, hpeek]
  simp only [if_true, bind_advance_apply, bind_skipBlanks_apply]
  rw [bind_of_done hname]
  rfl

theorem subscript_reads {object : Node} {objectText : List Char}
    (hobject : HeadReads object objectText) (hn : Core n) (h : ExpressionReads closers n text) :
    HeadReads (.member true object n) (objectText ++ '[' :: (text ++ [']'])) := by
  refine link_reads hobject (.subscript hobject.core hn) (by decide) fun after s hafter hs => ?_
  have hpeek : s.cursor.peek? = some '[' := by rw [peek?_of_ahead hs, List.head?_cons]
  have hclose : Closing closers (']' :: after) := closing_cons (by decide) (by decide) (by decide)
  have hblank : (']' :: after).dropWhile isBlank = ']' :: after :=
    dropWhile_isBlank_cons (by decide) after
  have hinside : ({ s with cursor := s.cursor.advance 1 } : State).cursor.ahead =
      text ++ ']' :: after := by
    rw [ahead_advance_one hs, List.append_assoc, List.singleton_append]
  obtain ⟨t, hproperty, ht⟩ := (h.reads _ _ hclose (by rw [hinside, h.opens.append])).require
    .noExpression
  obtain ⟨u, hskip, hu⟩ := skipBlanks_done (by rw [ht, hblank, hblank])
  obtain ⟨v, hbracket, hv⟩ := expect_done hu .openSubscript
  refine ⟨{ v with cursor := v.cursor.skipBlanks }, ahead_skipBlanks_of_ahead hv, ?_⟩
  rw [rules_eq]
  change links .standard rules object s = _
  rw [links_eq, bind_peek_apply, hpeek]
  simp only [Option.some.injEq, Char.reduceEq, if_false, if_true, bind_advance_apply]
  rw [bind_of_done hproperty, bind_of_done hskip, bind_of_done hbracket]
  rfl

theorem ne_compound (hn : Core n) (body : List Node) : n ≠ .compound body := by
  cases hn with
  | operator =>
    unfold Node.ofOperator
    split <;> simp
  | _ => simp [Node.plain]

theorem items_close {bracket : Bracket}
    (hs : s.cursor.ahead.dropWhile isBlank = bracket.closing :: after) :
    Done (rules (.items bracket) s) [] after := by
  rw [rules_eq]
  refine (skipBlanks_done hs).bind fun t ht => ?_
  rw [bind_peek_apply, peek?_of_ahead ht, List.head?_cons]
  simp only [if_true]
  exact (advance_done ht).bind fun u hu => done_pure hu

theorem items_comma {bracket : Bracket} {ns : List Node} {rest : List Char}
    (hs : s.cursor.ahead.dropWhile isBlank = ',' :: text)
    (hmore : ∀ t : State, t.cursor.ahead = text → Done (rules (.items bracket) t) ns rest) :
    Done (rules (.items bracket) s) ns rest := by
  have hclosing : ',' ≠ bracket.closing := by cases bracket <;> decide
  rw [rules_eq]
  refine (skipBlanks_done hs).bind fun t ht => ?_
  rw [bind_peek_apply, peek?_of_ahead ht, List.head?_cons]
  simp only [hclosing, if_false, if_true]
  exact (advance_done ht).bind hmore

theorem items_item {bracket : Bracket} {cs : List Char} {ns : List Node} {rest : List Char}
    (hn : Core n) (h : ExpressionReads cs n text) (hafter : Closing cs after)
    (hs : s.cursor.ahead.dropWhile isBlank = text ++ after)
    (hmore : ∀ t : State, t.cursor.ahead = after.dropWhile isBlank →
      Done (rules (.items bracket) t) ns rest) :
    Done (rules (.items bracket) s) (n :: ns) rest := by
  obtain ⟨c, more, hc, hopen⟩ := h.opens
  simp only [List.mem_cons, not_or] at hopen
  have hclosing : c ≠ bracket.closing := by cases bracket <;> simp [Bracket.closing, hopen]
  rw [rules_eq]
  refine (skipBlanks_done hs).bind fun t ht => ?_
  rw [bind_peek_apply, peek?_of_ahead ht, hc, List.cons_append, List.head?_cons]
  simp only [hclosing, hopen, if_false]
  refine (h.reads after t hafter (by rw [ht, h.opens.append])).bind fun u hu => ?_
  have hitem : Done ((do return n :: (← rules (.items bracket)) : Parse (List Node)) u)
      (n :: ns) rest := (hmore u hu).map (n :: ·)
  cases n with
  | compound body => exact absurd rfl (ne_compound hn body)
  | _ => exact hitem

theorem commas_itemTexts (n m : Node) (ns : List Node) :
    commas (itemTexts (n :: m :: ns)) =
      wrap 1 n (bare n) ++ ',' :: commas (itemTexts (m :: ns)) := by
  cases ns <;> simp [itemTexts, commas]

theorem closing_facts (bracket : Bracket) : bracket.closing ∈ ends ∧ bracket.closing ∈ closers ∧
    isBlank bracket.closing = false := by
  cases bracket <;> decide

/-- Printed items are read up to the closing bracket. -/
theorem items_done (bracket : Bracket) (after : List Char) :
    ∀ (ns : List Node) (s : State), (∀ n ∈ ns, Core n ∧ ReadsAs (tightness n) n (bare n)) →
      s.cursor.ahead.dropWhile isBlank =
        (commas (itemTexts ns) ++ bracket.closing :: after).dropWhile isBlank →
      Done (rules (.items bracket) s) ns after
  | [], s, _, hs => by
    have hblank := (closing_facts bracket).2.2
    apply items_close
    rw [hs, itemTexts, commas, List.nil_append, dropWhile_isBlank_cons hblank]
  | [n], s, hns, hs => by
    obtain ⟨hn, hreads⟩ := hns n List.mem_cons_self
    obtain ⟨hends, hclosers, hblank⟩ := closing_facts bracket
    rw [itemTexts, commas, hreads.whole.opens.append] at hs
    refine items_item hn hreads.whole (closing_cons hends hclosers hblank) hs fun t ht => ?_
    rw [dropWhile_isBlank_cons hblank] at ht
    exact items_close (by rw [ht, dropWhile_isBlank_cons hblank])
  | n :: m :: ns, s, hns, hs => by
    obtain ⟨hn, hreads⟩ := hns n List.mem_cons_self
    have hitem := (hreads.wrap hn 1).item (Int.le_refl 1)
    have hcomma : Closing separators
        (',' :: (commas (itemTexts (m :: ns)) ++ bracket.closing :: after)) :=
      closing_cons (by decide) (by decide) (by decide)
    rw [commas_itemTexts, List.append_assoc, hitem.opens.append, List.cons_append] at hs
    refine items_item hn hitem hcomma hs fun t ht => ?_
    rw [dropWhile_isBlank_cons (by decide)] at ht
    refine items_comma (by rw [ht, dropWhile_isBlank_cons (by decide)]) fun u hu => ?_
    exact items_done bracket after (m :: ns) u
      (fun k hk => hns k (List.mem_cons_of_mem n hk)) (by rw [hu])

theorem call_reads {callee : Node} {calleeText : List Char} {arguments : List Node}
    (hcallee : HeadReads callee calleeText)
    (harguments : ∀ n ∈ arguments, Core n ∧ ReadsAs (tightness n) n (bare n)) :
    HeadReads (.call callee arguments)
      (calleeText ++ '(' :: (commas (itemTexts arguments) ++ [')'])) := by
  refine link_reads hcallee (.call hcallee.core fun n hn => (harguments n hn).1) (by decide)
    fun after s hafter hs => ?_
  have hpeek : s.cursor.peek? = some '(' := by rw [peek?_of_ahead hs, List.head?_cons]
  obtain ⟨t, hitems, ht⟩ := items_done .round after arguments
    { s with cursor := s.cursor.advance 1 } harguments
    (by rw [ahead_advance_one hs, List.append_assoc]; rfl)
  refine ⟨{ t with cursor := t.cursor.skipBlanks }, ahead_skipBlanks_of_ahead ht, ?_⟩
  rw [rules_eq]
  change links .standard rules callee s = _
  rw [links_eq, bind_peek_apply, hpeek]
  simp only [Option.some.injEq, Char.reduceEq, if_false, if_true, bind_advance_apply]
  rw [bind_of_done hitems]
  rfl

theorem number_reads {x : Binary64} {w : String} (hw : Numeral.read? w.toList = some x) :
    OperandReads (.literal (.number x) w) w.toList := by
  obtain ⟨c, rest, hc⟩ : ∃ c rest, w.toList = c :: rest := by
    cases h : w.toList with
    | nil =>
      have hnil : Numeral.read? [] = none := by decide
      rw [h, hnil] at hw
      cases hw
    | cons c rest => exact ⟨c, rest, rfl⟩
  have hfirst : c.isDigit = true ∨ c = '.' := by
    by_contra hfirst
    simp only [not_or, Bool.not_eq_true] at hfirst
    rw [hc, read?_eq_none hfirst.1 hfirst.2] at hw
    cases hw
  have hopens : Opens w.toList := by
    refine ⟨c, rest, hc, fun hmem => ?_⟩
    have hother : ∀ d ∈ [' ', '\t', ',', ')', ']', ';', '='], d.isDigit = false ∧ d ≠ '.' :=
      forall_mem_of_all (by decide)
    simp [hother c hmem] at hfirst
  have hstart : letters.isStart c = false := by
    by_contra hstart
    have hstart := Bool.of_not_eq_false hstart
    rcases hfirst with hdigit | rfl
    · rw [isDigit_of_isStart hstart] at hdigit
      cases hdigit
    · exact absurd hstart (by decide)
  refine ⟨.number hw, hopens, fun after s hafter hs => ⟨after, ?_, rfl⟩⟩
  rw [hc, List.cons_append] at hs
  obtain ⟨t, ht, hoperand⟩ := operand_eq hs
  have hcond : (c.isDigit || c == '.') = true := by simpa using hfirst
  rw [hoperand, hcond]
  simp only [if_true, numeralOperand, hstart, Bool.false_eq_true, if_false]
  exact (numeral_done hw hafter.first (by rw [ht, hc, List.cons_append])).map some

theorem text_reads {quote : Char} {value raw : String} (hquote : quote = '"' ∨ quote = '\'')
    (htext : IsText quote value.toList raw.toList) :
    OperandReads (.literal (.string value) raw) raw.toList := by
  obtain ⟨body, hraw, -⟩ := id htext
  have hopens : Opens raw.toList := by
    refine ⟨quote, body ++ [quote], hraw, ?_⟩
    rcases hquote with rfl | rfl <;> decide
  refine ⟨.text hquote htext, hopens, fun after s hafter hs => ⟨after, ?_, rfl⟩⟩
  have hahead : s.cursor.ahead.dropWhile isBlank = quote :: (body ++ [quote] ++ after) := by
    rw [hs, hraw, List.cons_append]
  obtain ⟨t, ht, hoperand⟩ := operand_eq hahead
  obtain ⟨u, hquotation, hu⟩ := quotation_done hquote htext (ht.trans (hahead.symm.trans hs))
  have hjoin : joinFollows letters u.cursor = false := by
    have hbang : u.cursor.peek? ≠ some '!' := by
      rw [peek?_of_ahead hu]
      exact fun h => absurd (hafter.first '!' h) (by decide)
    simp [joinFollows, hbang]
  rw [hoperand]
  rcases hquote with rfl | rfl
  · simp only [Char.reduceEq, if_false, if_true]
    rw [if_neg (by decide)]
    exact ⟨u, by rw [bind_of_done hquotation]; rfl, hu⟩
  · simp only [if_true]
    rw [if_neg (by decide)]
    have hjoinable : Done (joinableText letters t) (.literal (.string value) raw) after := by
      unfold joinableText
      rw [bind_of_done hquotation]
      simp only [bind_here_apply, hjoin, Bool.false_eq_true, if_false]
      exact ⟨u, rfl, hu⟩
    exact hjoinable.map some

theorem array_reads {elements : List Node}
    (helements : ∀ n ∈ elements, Core n ∧ ReadsAs (tightness n) n (bare n)) :
    OperandReads (.array elements) ('[' :: (commas (itemTexts elements) ++ [']'])) := by
  refine ⟨.array fun n hn => (helements n hn).1, ⟨'[', _, rfl, by decide⟩,
    fun after s hafter hs => ⟨after, ?_, rfl⟩⟩
  rw [List.cons_append, List.append_assoc] at hs
  obtain ⟨t, ht, hoperand⟩ := operand_eq hs
  rw [hoperand, if_neg (by decide), if_neg (by decide), if_neg (by decide), if_neg (by decide),
    if_pos rfl]
  refine (advance_done ht).bind fun u hu => ?_
  refine (items_done .square after elements u helements ?_).map fun ns => some (Node.array ns)
  rw [hu]
  rfl

theorem unary_reads {operator : String} (hoperator : operator ∈ OperatorTable.standardUnary)
    (h : OperandReads n text) :
    OperandReads (.unary operator n true) (operator.toList ++ text) := by
  have hall : ∀ o ∈ OperatorTable.standardUnary, ∃ c, o.toList = [c] ∧
      c ∉ [' ', '\t', ',', ')', ']', ';', '='] ∧ (c.isDigit || c == '.') = false ∧ c ≠ '\'' ∧
      c ≠ '"' ∧ (letters.isStart c || c == '(') = false ∧ c ≠ '[' := by
    simp only [OperatorTable.standardUnary, List.forall_mem_cons]
    refine ⟨⟨'-', by decide⟩, ⟨'!', by decide⟩, ⟨'~', by decide⟩, ⟨'+', by decide⟩, by simp⟩
  obtain ⟨c, hc, hopen, hdigit, hquote, hquotes, hprimary, hbracket⟩ := hall operator hoperator
  refine ⟨.unary hoperator h.core, ⟨c, text, by rw [hc, List.singleton_append], hopen⟩, ?_⟩
  intro after s hafter hs
  rw [hc, List.append_assoc, List.singleton_append] at hs
  obtain ⟨t, ht, hoperand⟩ := operand_eq hs
  have hahead : t.cursor.ahead = operator.toList ++ (text ++ after) := by
    rw [ht, hc, List.singleton_append]
  have hunary : Grammar.standard.operators.unaryAt?
      (t.cursor.ahead.take Grammar.standard.operators.longestUnary) = some operator := by
    rw [hahead]
    exact unaryAt?_of_mem hoperator (text ++ after)
  have hinside : ({ t with cursor := t.cursor.advance operator.length } : State).cursor.ahead =
      text ++ after := by
    rw [← String.length_toList]
    exact ahead_advance_of_append hahead
  obtain ⟨rest, hargument, hrest⟩ := h.reads after _ hafter (by rw [hinside, h.opens.append])
  refine ⟨rest, ?_, hrest⟩
  rw [hoperand]
  simp only [hdigit, hquote, hquotes, hprimary, hbracket, Bool.false_eq_true, if_false]
  unfold leadingOperator
  simp only [bind_here_apply, hunary, bind_advance_apply]
  exact ((hargument.require (.noOperand operator)).map (Node.unary operator · true)).map some

theorem operator_reads {operator : String} {precedence : Int} {left right : Node}
    {leftText rightText : List Char}
    (hmem : (operator, precedence) ∈ OperatorTable.standardBinary)
    (hleft : ChainReads precedence left leftText)
    (hright : ChainReads (precedence + 1) right rightText) :
    ChainReads precedence (.ofOperator operator left right)
      (leftText ++ ' ' :: (operator.toList ++ ' ' :: rightText)) := by
  obtain ⟨first, items, firstText, more, rfl, hfirst, hmore, hitems, rfl⟩ := hleft
  obtain ⟨first', items', firstText', more', rfl, hfirst', hmore', hitems', rfl⟩ := hright
  have hrest : Spelled (⟨operator, precedence, first'⟩ :: items')
      (' ' :: (operator.toList ++ ' ' :: (firstText' ++ more'))) := .cons hmem hfirst' hmore'
  refine ⟨first, items ++ ⟨operator, precedence, first'⟩ :: items', firstText, _, ?_, hfirst,
    hmore.append hrest, ?_, ?_⟩
  · rw [List.append_assoc]
  · intro i hi
    rcases List.mem_append.mp hi with hi | hi
    · exact hitems i hi
    · rcases List.mem_cons.mp hi with rfl | hi
      · exact Int.le_refl _
      · have := hitems' i hi
        omega
  · rw [tree_append hitems fun i hi => by
      have := hitems' i hi
      dsimp only
      omega]

end

theorem precedence_of_mem {operator : String} {p : Int}
    (h : (operator, p) ∈ OperatorTable.standardBinary) : precedence operator = p := by
  rw [precedence, precedence?_of_mem h, Option.getD_some]

theorem bare_ofOperator (operator : String) (left right : Node) :
    bare (.ofOperator operator left right) =
      infixed operator left (bare left) right (bare right) := by
  unfold Node.ofOperator
  split <;> rw [bare]

theorem tightness_ofOperator (operator : String) (left right : Node) :
    tightness (.ofOperator operator left right) = 1 + precedence operator := by
  unfold Node.ofOperator
  split <;> rfl

/-- The literals that are words. -/
theorem wordNode_of_literal {w : String} {value : LiteralValue}
    (hw : Grammar.wordLiteral? w = some value) :
    IsWord w ∧ Grammar.standard.wordNode w = .literal value w ∧
      tightness (.literal value w) = 13 := by
  have hnode : Grammar.standard.wordNode w = .literal value w := by rw [Grammar.wordNode, hw]
  unfold Grammar.wordLiteral? at hw
  split at hw
  · rename_i htrue
    obtain rfl : .bool true = value := by simpa using hw
    exact ⟨⟨'t', ['r', 'u', 'e'], by rw [htrue]; rfl, by decide,
      forall_mem_of_all (by decide)⟩, hnode, rfl⟩
  · split at hw
    · rename_i hfalse
      obtain rfl : .bool false = value := by simpa using hw
      exact ⟨⟨'f', ['a', 'l', 's', 'e'], by rw [hfalse]; rfl, by decide,
        forall_mem_of_all (by decide)⟩, hnode, rfl⟩
    · split at hw
      · rename_i hnull
        obtain rfl : .null = value := by simpa using hw
        exact ⟨⟨'n', ['u', 'l', 'l'], by rw [hnull]; rfl, by decide,
          forall_mem_of_all (by decide)⟩, hnode, rfl⟩
      · cases hw

/-- What stands in parentheses as the left operand of an operator of precedence `p`, or as the right
one of an operator of precedence `p - 1`. -/
theorem tightness_lt_iff {n : Node} (hn : Core n) {p : Int} (hpos : 1 ≤ p) (hle : p ≤ 11) :
    tightness n < 1 + p ↔ (∃ keys, n = .keyValues keys) ∨
      (∃ test consequent alternate, n = .conditional test consequent alternate) ∨
      ∃ operator q left right, (operator, q) ∈ OperatorTable.standardBinary ∧
        n = .ofOperator operator left right ∧ q < p := by
  constructor
  · intro hlt
    cases hn with
    | @operator operator q left right hmem hleft hright =>
      rw [tightness_ofOperator, precedence_of_mem hmem] at hlt
      exact .inr (.inr ⟨operator, q, left, right, hmem, rfl, by omega⟩)
    | conditional => exact .inr (.inl ⟨_, _, _, rfl⟩)
    | keyValues => exact .inl ⟨_, rfl⟩
    | word hw =>
      rw [(wordNode_of_literal hw).2.2] at hlt
      omega
    | _ =>
      simp only [tightness, Node.plain] at hlt
      omega
  · rintro (⟨keys, rfl⟩ | ⟨test, consequent, alternate, rfl⟩ |
      ⟨operator, q, left, right, hmem, rfl, hlt⟩)
    · simp only [tightness]
      omega
    · simp only [tightness]
      omega
    · rw [tightness_ofOperator, precedence_of_mem hmem]
      omega

/-- Each tree of the standard grammar is read, at the level of its kind, from its text. -/
theorem core_reads {n : Node} (hn : Core n) : ReadsAs (tightness n) n (bare n) := by
  induction hn with
  | @name w hw hliteral hthis =>
    have hnode : Grammar.standard.wordNode w = .plain w := by
      rw [Grammar.wordNode, hliteral]
      exact if_neg hthis
    have h := word_reads hw (hnode ▸ .name hw hliteral hthis)
    rw [hnode] at h
    exact head_readsAs h _
  | @word value w hw =>
    obtain ⟨hword, hnode, htight⟩ := wordNode_of_literal hw
    have h := word_reads hword (hnode ▸ .word hw)
    rw [hnode] at h
    exact head_readsAs h _
  | number hw => exact operand_readsAs (number_reads hw)
  | text hquote htext => exact operand_readsAs (text_reads hquote htext)
  | this =>
    have hword : IsWord Grammar.standardThisWord :=
      ⟨'t', ['h', 'i', 's'], rfl, by decide, forall_mem_of_all (by decide)⟩
    exact head_readsAs (word_reads hword .this) _
  | property hobject hw ih =>
    rw [bare]
    exact head_readsAs (property_reads ((ih.wrap hobject 13).head (Int.le_refl _)) hw) _
  | subscript hobject hproperty ihobject ihproperty =>
    rw [bare]
    exact head_readsAs (subscript_reads ((ihobject.wrap hobject 13).head (Int.le_refl _)) hproperty
      ihproperty.whole) _
  | call hcallee harguments ihcallee iharguments =>
    rw [bare]
    exact head_readsAs (call_reads ((ihcallee.wrap hcallee 13).head (Int.le_refl _))
      fun a ha => ⟨harguments a ha, iharguments a ha⟩) _
  | unary hoperator hargument ih =>
    rw [bare]
    exact operand_readsAs (unary_reads hoperator ((ih.wrap hargument 12).operand (Int.le_refl _)))
  | @operator operator p left right hmem hleft hright ihleft ihright =>
    obtain ⟨hone, hten⟩ := positive_of_mem hmem
    rw [bare_ofOperator, tightness_ofOperator, infixed, precedence_of_mem hmem]
    refine chain_readsAs (operator_reads hmem ?_ ?_) hten
    · exact (ihleft.wrap hleft (1 + p)).chain p hone (Int.le_refl _)
    · exact (ihright.wrap hright (2 + p)).chain (p + 1) (by omega) (by omega)
  | conditional htest hconsequent halternate ihtest ihconsequent ihalternate =>
    rw [bare]
    refine item_readsAs (conditional_reads ?_ ihconsequent.whole ?_)
    · exact (ihtest.wrap htest 2).chain 1 (by omega) (by omega)
    · exact (ihalternate.wrap halternate 1).item (Int.le_refl _)
  | array helements ih =>
    rw [bare]
    exact operand_readsAs (array_reads fun e he => ⟨helements e he, ih e he⟩)
  | @keyValues keys hkeys hnodup hentries hvalues ih =>
    rw [bare]
    refine whole_readsAs (keyValues_reads hkeys hnodup (fun k hk => (hentries k hk).2) ?_)
    intro p hp
    obtain ⟨k, hk, hpair⟩ := List.mem_flatMap.mp hp
    obtain ⟨v, hv, rfl⟩ := List.mem_map.mp hpair
    exact ⟨(hentries k hk).1, ((ih k hk v hv).wrap (hvalues k hk v hv) 1).item (Int.le_refl _)⟩

/-- A printed tree is read back as itself. -/
theorem parse_print {n : Node} (hn : Core n) :
    Grammar.standard.parse (print n) = .ok n := by
  have hwhole := (core_reads hn).whole
  obtain ⟨c, rest, hc, hopen⟩ := hwhole.opens
  simp only [List.mem_cons, not_or] at hopen
  have hahead : (State.start (print n)).cursor.ahead = bare n := by
    rw [State.start, Cursor.start, print, String.toList_ofList]
  have hpeek : (State.start (print n)).cursor.peek? = some c := by
    rw [peek?_of_ahead hahead, hc, List.head?_cons]
  obtain ⟨t, hexpression, ht⟩ := hwhole.reads [] (.start (print n)) ⟨by simp, by simp⟩
    (by simpa [hahead] using hwhole.opens.append [])
  have hend : rules .statements t = .done [] t := by
    rw [rules_eq]
    exact statements_of_end (peek?_of_ahead ht)
  have hstatements : rules .statements (.start (print n)) = .done [n] t := by
    have hother : ¬ (c = ';' ∨ c = ',') := by simp [hopen]
    rw [rules_eq]
    exact (statements_of_other hpeek hother).trans
      ((bind_of_done hexpression _).trans (bind_of_done hend _))
  exact (parse_eq_ok_iff isStart_question).mpr ⟨[n], t, hstatements, rfl⟩

/-- A right operand keeps its parentheses, and a named argument needs none at the end. -/
theorem parse_print_call :
    let n : Node := .call (.plain "f") [.ofOperator "*" (.plain "a")
      (.ofOperator "-" (.plain "b") (.plain "c")),
      .keyValues [("k", .single (.literal (.number (.ofInt 1)) "1"))]]
    Core n ∧ print n = "f(a * (b - c),k=1)" ∧ Grammar.standard.parse (print n) = .ok n := by
  have hstart : ∀ c ∈ ['a', 'b', 'c', 'f', 'k'], letters.isStart c = true :=
    forall_mem_of_all (by decide)
  have hword : ∀ c ∈ ['a', 'b', 'c', 'f', 'k'], IsWord (String.singleton c) := fun c hc =>
    ⟨c, [], by simp, hstart c hc, by simp⟩
  have hfree : ∀ c ∈ ['a', 'b', 'c', 'f', 'k'],
      Grammar.wordLiteral? (String.singleton c) = none ∧
        String.singleton c ≠ Grammar.standardThisWord := forall_mem_of_all (by decide)
  have hname : ∀ c ∈ ['a', 'b', 'c', 'f', 'k'], Core (.plain (String.singleton c)) := fun c hc =>
    .name (hword c hc) (hfree c hc).1 (hfree c hc).2
  have htimes : ("*", 10) ∈ OperatorTable.standardBinary := by decide
  have hminus : ("-", 9) ∈ OperatorTable.standardBinary := by decide
  have hproduct : Core (.ofOperator "*" (.plain "a")
      (.ofOperator "-" (.plain "b") (.plain "c"))) :=
    .operator htimes (hname 'a' (by decide))
      (.operator hminus (hname 'b' (by decide)) (hname 'c' (by decide)))
  have hone : Core (.literal (.number (.ofInt 1)) "1") := .number (by decide +kernel)
  have hnamed : Core (.keyValues [("k", .single (.literal (.number (.ofInt 1)) "1"))]) := by
    refine .keyValues (by simp) (by simp [Keyed.keys]) ?_ ?_
    · simpa [WellCounted] using hword 'k' (by decide)
    · simpa [Entry.values] using hone
  have hcall : Core (.call (.plain "f") [.ofOperator "*" (.plain "a")
      (.ofOperator "-" (.plain "b") (.plain "c")),
      .keyValues [("k", .single (.literal (.number (.ofInt 1)) "1"))]]) := by
    refine .call (hname 'f' (by decide)) ?_
    simp only [List.forall_mem_cons]
    exact ⟨hproduct, hnamed, by simp⟩
  exact ⟨hcall, by decide +kernel, parse_print hcall⟩

end ExprTree.RoundTrip
