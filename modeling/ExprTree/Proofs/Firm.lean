import ExprTree.Proofs.Forward
import ExprTree.Proofs.Stacks

/-!
The rules in a grammar whose names have no `?`. Every name that a rule makes is `Firm` there, so no
name is cut to nothing and no list stands still: an expression that is read passes a character at
least, and a rule uses up no more rounds than `Rule.need` says.
-/

namespace ExprTree

open Cursor

/-- The name of the node, if it has one, begins with a character other than `?`. -/
def Node.Firm (n : Node) : Prop :=
  ∀ w, n.name? = some w → ∃ c rest, w.toList = c :: rest ∧ c ≠ '?'

namespace Node

theorem Firm.plain {w : String} {c : Char} {rest : List Char} (hw : w.toList = c :: rest)
    (hc : c ≠ '?') : (Node.plain w).Firm := by
  intro w' hw'
  obtain rfl : w = w' := by simpa [Node.plain, name?] using hw'
  exact ⟨c, rest, hw, hc⟩

theorem firm_of_name?_eq_none {n : Node} (h : n.name? = none) : n.Firm := by
  intro w hw
  rw [h] at hw
  cases hw

end Node

namespace Rule

/-- A rule gives firm nodes if it is handed firm ones. -/
def Firm : (r : Rule) → r.Answer → Prop
  | .expression, a | .operand, a => ∀ n ∈ a, n.Firm
  | .primary, a => ∀ n, a = .node n → n.Firm
  | .links head, a => head.Firm → a.Firm
  | .chain stack, a => stack.Whole → (∀ n ∈ stack.operands, n.Firm) → ∀ n ∈ a, n.Firm
  | .items _, _ | .pairs _, _ | .statements, _ => True

/-- What a rule called in one state may give, and in which state. -/
def Advances : (r : Rule) → State → r.Answer → State → Prop
  | .expression, s, a, t =>
    s.cursor.Reaches t.cursor ∧ ∀ n ∈ a, s.cursor.Passes t.cursor ∧ n.Firm
  | .operand, s, a, t =>
    s.cursor.Reaches t.cursor ∧ ∀ n ∈ a, s.cursor.Passes t.cursor ∧ n.Firm
  | .primary, s, a, t => s.cursor.Passes t.cursor ∧ ∀ n, a = .node n → n.Firm
  | .links _, s, _, t => s.cursor.Reaches t.cursor
  | .items _, s, _, t => s.cursor.Passes t.cursor
  | .chain _, s, _, t => s.cursor.Reaches t.cursor
  | .pairs _, s, _, t => s.cursor.Reaches t.cursor
  | .statements, _, _, _ => True

end Rule

namespace Progress

open Parse Outcome Lexemes Origins

/-- All rules give firm nodes. -/
def FirmRules (rules : Rules) : Prop :=
  Holds (fun r _ a _ => r.Firm a) rules

/-- The rules go forward as they should, and are unfinished only for want of rounds. -/
def Advance (rules : Rules) (rounds : Nat) : Prop :=
  ∀ r s, (rules r s).Ends (r.Advances s) (fun _ => True) (rounds < r.need s)

section

variable {g : Grammar} {rules : Rules} {s t : State}

theorem firm_wordNode {w : String} {c : Char} {rest : List Char} (hw : w.toList = c :: rest)
    (hc : c ≠ '?') : (g.wordNode w).Firm := by
  unfold Grammar.wordNode
  split
  · exact Node.firm_of_name?_eq_none rfl
  · split
    · exact Node.firm_of_name?_eq_none rfl
    · exact .plain hw hc

/-- A letter that may begin a name is not `?`. -/
theorem ne_question {c : Char} (hq : g.letters.isStart '?' = false)
    (hc : g.letters.isStart c = true) : c ≠ '?' := by
  rintro rfl
  rw [hq] at hc
  cases hc

theorem firm_head (hq : g.letters.isStart '?' = false) (h : FirmRules rules) {n : Node}
    (hn : HeadBy g rules s (.node n) t) : n.Firm := by
  cases hn with
  | word hparen hname =>
    obtain ⟨c, rest, hw, hc⟩ := exists_cons_of_name hname
    exact firm_wordNode hw (ne_question hq hc)
  | group hopen hinside => exact h hinside n rfl

theorem firm_primary (hq : g.letters.isStart '?' = false) (h : FirmRules rules) {x : Term}
    (hx : PrimaryBy g rules s x t) : Rule.primary.Firm x := by
  cases hx with
  | pair => exact fun _ hn => nomatch hn
  | linked hhead hlinks => exact forall_eq_node (h hlinks (firm_head hq h hhead))

/-- What is read with a link is no name. -/
theorem firm_links (h : FirmRules rules) {head n : Node} (hn : LinksBy g rules head s n t)
    (hhead : head.Firm) : n.Firm := by
  cases hn with
  | last => exact hhead
  | next hlink hlinks => exact h hlinks (Node.firm_of_name?_eq_none hlink.name?_eq_none)

theorem firm_join {l : Letters} {n m : Node} (hn : n.Firm) (h : joinName l n s = .done m t) :
    m.Firm := by
  cases (joinName_ends l n s).of_done h with
  | alone => exact hn
  | @joined w suffix property _ hfollows hname =>
    obtain ⟨c, more, hw, hc⟩ := hn w rfl
    rintro _ ⟨⟩
    exact ⟨c, more ++ '!' :: suffix.toList, by simp [hw], hc⟩

/-- A text in single quotes begins with its quote, also as a name that goes on with a `!`. -/
theorem firm_joinableText {l : Letters} {n : Node} (hpeek : s.cursor.peek? = some '\'')
    (h : joinableText l s = .done n t) : n.Firm := by
  cases (joinableText_ends l s).of_done h with
  | alone => exact Node.firm_of_name?_eq_none rfl
  | @joined value raw suffix _ _ htext hfollows hname =>
    cases (quotation_ends s).of_done htext with
    | @closed quote rest hahead =>
      rw [Cursor.peek?, hahead, List.head?_cons, Option.some.injEq] at hpeek
      rintro _ ⟨⟩
      exact ⟨quote, (Quotation.scan quote rest).raw ++ '!' :: suffix.toList, by simp,
        hpeek ▸ by decide⟩

/-- A numeral begins with its first character, also a name that is made of one. -/
theorem firm_numeral {l : Letters} {c : Char} {n : Node} (hpeek : s.cursor.peek? = some c)
    (hc : c.isDigit = true ∨ c = '.') (h : numeral l s = .done n t) : n.Firm := by
  cases (numeral_ends l s).of_done h with
  | number => exact Node.firm_of_name?_eq_none rfl
  | @name m w _ hm hall hname =>
    obtain ⟨rest, hrest⟩ := ahead_of_peek hpeek
    obtain ⟨more, hmore⟩ := exists_text_munch rest hc
    rw [hrest] at hm
    have hquestion : c ≠ '?' := by
      rintro rfl
      revert hc
      decide
    have hw : (String.ofList m.text ++ w).toList = c :: (more ++ w.toList) := by simp [hm, hmore]
    exact .plain hw hquestion

theorem firm_term (h : FirmRules rules) {x : Term} (hx : TermBy g rules s x t) :
    Rule.primary.Firm x := by
  cases hx with
  | again hnumeral hprimary => exact h hprimary
  | pair hprimary => exact h hprimary
  | node hprimary hjoin => exact forall_eq_node (firm_join (h hprimary _ rfl) hjoin)

theorem firm_ofTerm {x : Term} {n : Node} (hx : Rule.primary.Firm x)
    (hn : OfTermBy g rules s x n t) : n.Firm := by
  cases hn with
  | pairs => exact Node.firm_of_name?_eq_none rfl
  | operator => exact Node.firm_of_name?_eq_none rfl
  | number => exact Node.firm_of_name?_eq_none rfl
  | whole n => exact hx n rfl

theorem firm_operand (h : FirmRules rules) {a : Option Node}
    (ha : OperandBy g rules { s with cursor := s.cursor.skipBlanks } a t) : ∀ n ∈ a, n.Firm := by
  cases ha with
  | nothing => exact nofun
  | numeral hpeek hc hnumeral =>
    rcases (numeralOperand_ends hpeek).of_done hnumeral with hnumeral | ⟨x, u, hx, hn⟩
    · exact forall_mem_some (firm_numeral hpeek hc hnumeral)
    · exact forall_mem_some (firm_ofTerm (firm_term h hx) hn)
  | joinable hpeek htext => exact forall_mem_some (firm_joinableText hpeek htext)
  | text => exact forall_mem_some (Node.firm_of_name?_eq_none rfl)
  | primary hpeek hc hprimary =>
    obtain ⟨x, u, hx, hn⟩ := (primaryOperand_ends hpeek hc).of_done hprimary
    exact forall_mem_some (firm_ofTerm (firm_term h hx) hn)
  | array => exact forall_mem_some (Node.firm_of_name?_eq_none rfl)
  | operator hpeek hc hoperator =>
    cases (leadingOperator_ends s).of_done hoperator with
    | nothing => exact nofun
    | operator => exact forall_mem_some (Node.firm_of_name?_eq_none rfl)

theorem firm_carried : OperatorStack.Carried fun stack => ∀ n ∈ stack.operands, n.Firm := by
  intro right left operands operator precedence operators h
  rw [List.forall_mem_cons, List.forall_mem_cons] at h
  exact List.forall_mem_cons.mpr
    ⟨Node.firm_of_name?_eq_none (Node.name?_ofOperator operator left right), h.2.2⟩

theorem firm_chain (h : FirmRules rules) {stack : OperatorStack} {a : Option Node}
    (ha : ChainBy g rules stack s a t) : (Rule.chain stack).Firm a := by
  intro hwhole hstack
  cases ha with
  | finish =>
    obtain ⟨n, hn, hlast⟩ := firm_carried.finish hwhole hstack
    rw [hn]
    exact forall_mem_some (hlast n List.mem_cons_self)
  | @operand operator precedence right _ _ _ _ hoperator hpositive hright hchain =>
    obtain ⟨hreduced, hoperands⟩ := firm_carried.reduceFor hwhole hstack precedence
    exact h hchain (OperatorStack.whole_push hreduced operator precedence right)
      (List.forall_mem_cons.mpr ⟨h hright right rfl, hoperands⟩)

theorem exists_cons_of_gluedTest? {n : Node} {test : List Char} (hn : n.Firm)
    (h : gluedTest? (n.name?.getD "").toList = some test) :
    ∃ c more, test = c :: more ∧ c ≠ '?' := by
  obtain ⟨after, hafter⟩ := gluedTest?_eq_some h
  cases hname : n.name? with
  | none => simp [hname] at hafter
  | some w =>
    obtain ⟨c, rest, hw, hc⟩ := hn w hname
    simp only [hname, Option.getD_some, hw] at hafter
    cases test with
    | nil =>
      rw [List.nil_append, List.cons.injEq] at hafter
      exact absurd hafter.1 hc
    | cons d more =>
      rw [List.cons_append, List.cons.injEq] at hafter
      exact ⟨d, more, rfl, hafter.1 ▸ hc⟩

/-- The part of a firm name in front of a `?` is not empty. -/
theorem firm_splitGlued {start : Cursor} {left n : Node} (hleft : left.Firm)
    (hn : splitGlued rules start left s = .done n t) : n.Firm := by
  rcases splitGlued_cases hn with ⟨rfl, -⟩ | ⟨test, htest, rfl, -⟩
  · exact hleft
  · obtain ⟨c, more, rfl, hc⟩ := exists_cons_of_gluedTest? hleft htest
    exact .plain String.toList_ofList hc

/-- A name that goes on after an operator inside of it begins as before. -/
theorem firm_binary (h : FirmRules rules) {a : Option Node} (ha : binary g rules s = .done a t) :
    ∀ n ∈ a, n.Firm := by
  cases binary_cases ha with
  | nothing => exact nofun
  | alone hleft hoperator hsplit => exact forall_mem_some (firm_splitGlued (h hleft _ rfl) hsplit)
  | @word left w operator rest _ _ _ _ hleft hw =>
    obtain ⟨c, more, hc, hne⟩ := h hleft left rfl w hw
    have hjoined : (w ++ operator ++ rest).toList =
        c :: (more ++ operator.toList ++ rest.toList) := by simp [hc]
    exact forall_mem_some (.plain hjoined hne)
  | @operators left right _ operator precedence _ _ _ _ hleft hoperator hinside hright hchain =>
    refine h hchain (OperatorStack.whole_start left operator precedence right) ?_
    simp [OperatorStack.start, h hright right rfl, h hleft left rfl]

theorem firm_expression (h : FirmRules rules) {a : Option Node} (ha : ExpressionBy g rules s a t) :
    ∀ n ∈ a, n.Firm := by
  cases ha with
  | nothing => exact nofun
  | alone hbinary => exact firm_binary h hbinary
  | conditional => exact forall_mem_some (Node.firm_of_name?_eq_none rfl)

theorem firm_run (hq : g.letters.isStart '?' = false) (rounds : Nat) :
    FirmRules (run g rounds) := by
  refine holds_run (fun n h r s a t ha => ?_) rounds
  cases r with
  | expression => exact firm_expression h ha
  | operand => exact firm_operand h ha
  | primary => exact firm_primary hq h ha
  | links head => exact firm_links h ha
  | chain stack => exact firm_chain h ha
  | items | pairs | statements => trivial

end

section

variable {g : Grammar} {r : Rule} {s t : State} {rounds : Nat}

theorem not_firm_empty : ¬ (Node.plain "").Firm := by
  intro h
  obtain ⟨c, rest, hempty, -⟩ := h "" rfl
  cases hempty

/-- A firm node is not the empty name, so it is found past the place where the rule begins. -/
theorem advances_of_gets {a : r.Answer} (hgets : r.Gets s a t) (hfirm : r.Firm a) :
    r.Advances s a t := by
  have hskip := s.cursor.reaches_skipBlanks
  cases r with
  | expression =>
    refine ⟨hskip.trans hgets.1, fun n hn => ⟨?_, hfirm n hn⟩⟩
    rcases hgets.2 n hn with hpass | ⟨rfl, -⟩
    · exact hskip.trans_passes hpass
    · exact absurd (hfirm _ hn) not_firm_empty
  | operand =>
    exact ⟨hskip.trans hgets.1, fun n hn => ⟨hskip.trans_passes (hgets.2 n hn), hfirm n hn⟩⟩
  | items => exact hskip.trans_passes hgets
  | primary => exact ⟨hgets, hfirm⟩
  | links | chain | pairs => exact hgets
  | statements => trivial

/-- No list stands still, so every call leaves fewer rounds to be needed. -/
theorem need_lt_of_asks {r' : Rule} {u : State} (hq : g.letters.isStart '?' = false)
    (hasks : Asks g (run g rounds) r s r' u) : r'.need u < r.need s := by
  have hgets := Forward.gets_run g rounds
  have hinner : r.Inner → r'.need u < r.need s := by
    intro hr
    rcases (Forward.onward_of_asks hgets hr hasks).need_lt with hneed | ⟨b, rfl, rfl, -, hdone, -⟩
    · exact hneed
    · exact absurd (firm_run hq rounds hdone _ rfl) not_firm_empty
  cases r with
  | statements =>
    cases hasks with
    | separated hpeek =>
      have hlt := (passes_of_peek hpeek).2
      simp only [Rule.need, Rule.rank]
      omega
    | statement =>
      simp only [Rule.need, Rule.rank]
      omega
    | moreStatements hexpression =>
      have hadvances := advances_of_gets (hgets hexpression) (firm_run hq rounds hexpression)
      have hlt := (hadvances.2 _ rfl).1.2
      simp only [Rule.need, Rule.rank]
      omega
  | _ => exact hinner trivial

theorem lt_need_of_unfinished (hq : g.letters.isStart '?' = false)
    (h : run g rounds r s = .unfinished) : rounds < r.need s := by
  induction rounds generalizing r s with
  | zero =>
    have hrank := r.rank_le.1
    rw [Rule.need]
    omega
  | succ rounds ih =>
    obtain ⟨r', u, hasks, hu⟩ := waits_of_unfinished h
    have hneed := need_lt_of_asks hq hasks
    have hlt := ih hu
    omega

/-- However many rounds are given, the rules advance. -/
theorem advance_run (hq : g.letters.isStart '?' = false) (rounds : Nat) :
    Advance (run g rounds) rounds := by
  intro r s
  cases ho : run g rounds r s with
  | done a t => exact advances_of_gets (Forward.gets_run g rounds ho) (firm_run hq rounds ho)
  | failed e => trivial
  | unfinished => exact lt_need_of_unfinished hq ho

end

end Progress

end ExprTree
