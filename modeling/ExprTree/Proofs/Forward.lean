import ExprTree.Proofs.Origins
import ExprTree.Proofs.Progress

/-!
How far the rules get in any grammar, also where `?` is a character of names. A name that begins
with `?` can be cut to nothing, and then an expression is the empty name at the very place where it
began; this is the only one that passes no character. All calls that a rule makes go onward: past
the place where the rule begins to read, or there to a rule of lower rank. The one exception is a
list that calls itself again in front of such an empty name.
-/

namespace ExprTree

open Cursor

namespace Rule

/-- Where a rule begins to read. Expressions, operands and lists pass the blanks first. -/
def place : Rule → Cursor → Cursor
  | .expression, c | .operand, c | .items _, c => c.skipBlanks
  | _, c => c

/-- All rules but the one for whole sources, which no other rule calls. -/
def Inner : Rule → Prop
  | .statements => False
  | _ => True

theorem reaches_place (r : Rule) (c : Cursor) : c.Reaches (r.place c) := by
  cases r with
  | expression | operand | items => exact c.reaches_skipBlanks
  | primary | links | chain | pairs | statements => exact .refl c

theorem rank_le (r : Rule) : 1 ≤ r.rank ∧ r.rank ≤ 4 := by
  cases r <;> simp [rank]

/-- How far a rule called in one state gets with what it gives. -/
def Gets : (r : Rule) → State → r.Answer → State → Prop
  | .expression, s, a, t => s.cursor.skipBlanks.Reaches t.cursor ∧
    ∀ n ∈ a, s.cursor.skipBlanks.Passes t.cursor ∨ n = .plain "" ∧ t.cursor = s.cursor.skipBlanks
  | .operand, s, a, t => s.cursor.skipBlanks.Reaches t.cursor ∧
    ∀ n ∈ a, s.cursor.skipBlanks.Passes t.cursor
  | .primary, s, _, t => s.cursor.Passes t.cursor
  | .items _, s, _, t => s.cursor.skipBlanks.Passes t.cursor
  | .links _, s, _, t | .chain _, s, _, t | .pairs _, s, _, t | .statements, s, _, t =>
    s.cursor.Reaches t.cursor

end Rule

namespace Forward

open Parse Outcome Origins Progress

section

variable {g : Grammar} {rules : Rules} {r r' : Rule} {s t u : State}

/-- No rule goes back. -/
theorem reaches_of_done (h : Holds Rule.Gets rules) {a : r.Answer} (hdone : rules r s = .done a t) :
    s.cursor.Reaches t.cursor := by
  have hgets : r.Gets s a t := h hdone
  cases r with
  | expression | operand | items => exact s.cursor.reaches_skipBlanks.trans hgets.1
  | primary => exact hgets.1
  | links | chain | pairs | statements => exact hgets

theorem passes_of_head (h : Holds Rule.Gets rules) {x : Term} (hx : HeadBy g rules s x t) :
    s.cursor.Passes t.cursor := by
  cases hx with
  | word hparen hname => exact passes_of_name hname
  | pair hparen hname hequals hvalue =>
    exact (passes_of_name hname).trans_reaches
      ((reaches_advance _ 1).trans (reaches_of_done h hvalue))
  | group hopen hinside hclose =>
    exact (passes_of_peek hopen).trans_reaches ((reaches_of_done h hinside).trans
      ((reaches_skipBlanks _).trans (reaches_advance _ 1)))

theorem passes_of_primary (h : Holds Rule.Gets rules) {x : Term} (hx : PrimaryBy g rules s x t) :
    s.cursor.Passes t.cursor := by
  cases hx with
  | pair hhead => exact passes_of_head h hhead
  | linked hhead hlinks =>
    exact (passes_of_head h hhead).trans_reaches ((reaches_skipBlanks _).trans (h hlinks))

theorem passes_of_link (h : Holds Rule.Gets rules) {head n : Node}
    (hn : LinkBy g rules head s n t) : s.cursor.Passes t.cursor := by
  cases hn with
  | property hpoint hname =>
    exact (passes_of_peek hpoint).trans_reaches ((reaches_skipBlanks _).trans
      ((passes_of_name hname).1.trans (reaches_skipBlanks _)))
  | subscript hopen hinside hclose =>
    exact (passes_of_peek hopen).trans_reaches ((reaches_of_done h hinside).trans
      ((reaches_skipBlanks _).trans ((reaches_advance _ 1).trans (reaches_skipBlanks _))))
  | call hopen hitems =>
    exact (passes_of_peek hopen).trans_reaches
      ((reaches_of_done h hitems).trans (reaches_skipBlanks _))

theorem reaches_of_links (h : Holds Rule.Gets rules) {head n : Node}
    (hn : LinksBy g rules head s n t) : s.cursor.Reaches t.cursor := by
  cases hn with
  | last => exact .refl _
  | next hlink hlinks => exact (passes_of_link h hlink).1.trans (h hlinks)

theorem passes_of_items (h : Holds Rule.Gets rules) {b : Bracket} {ns : List Node}
    (hns : ItemsBy rules b s ns t) : s.cursor.Passes t.cursor := by
  cases hns with
  | close hclose => exact passes_of_peek hclose
  | comma hcomma hitems =>
    exact (passes_of_peek hcomma).trans_reaches (reaches_of_done h hitems)
  | item hpeek hc hitem hn hitems =>
    exact ((reaches_of_done h hitem).trans (reaches_skipBlanks _)).trans_passes (h hitems)

theorem reaches_afterComma (s : State) : s.cursor.Reaches (afterComma s).cursor := by
  unfold afterComma
  split
  · exact (reaches_skipBlanks _).trans ((reaches_advance _ 1).trans (reaches_skipBlanks _))
  · exact (reaches_skipBlanks _).trans (reaches_skipBlanks _)

theorem reaches_of_pairs (h : Holds Rule.Gets rules) {keys found : Keyed (Entry Node)}
    (hfound : PairsBy g rules keys s found t) : s.cursor.Reaches t.cursor := by
  cases hfound with
  | nothing => exact .refl _
  | other => exact .refl _
  | pair hpeek hprimary hpairs => exact (h hprimary).1.trans (h hpairs)

theorem passes_of_term (h : Holds Rule.Gets rules) {x : Term} (hx : TermBy g rules s x t) :
    s.cursor.Passes t.cursor := by
  cases hx with
  | again hnumeral hprimary => exact h hprimary
  | pair hprimary => exact h hprimary
  | node hprimary hjoin => exact Passes.trans_reaches (h hprimary) (reaches_of_joinName hjoin)

theorem reaches_of_ofTerm (h : Holds Rule.Gets rules) {x : Term} {n : Node}
    (hn : OfTermBy g rules s x n t) : s.cursor.Reaches t.cursor := by
  cases hn with
  | pairs hpairs => exact h hpairs
  | operator hw hargument => exact reaches_of_done h hargument
  | number => exact .refl _
  | whole => exact .refl _

/-- What is found as an operand passes a character, whichever way it is found. -/
theorem gets_operand (h : Holds Rule.Gets rules) {a : Option Node}
    (ha : OperandBy g rules { s with cursor := s.cursor.skipBlanks } a t) :
    Rule.operand.Gets s a t := by
  have hsome : ∀ n : Node, s.cursor.skipBlanks.Passes t.cursor → Rule.operand.Gets s (some n) t :=
    fun n hpass => ⟨hpass.1, fun _ _ => hpass⟩
  have hterm : ∀ x u n, TermBy g rules { s with cursor := s.cursor.skipBlanks } x u →
      OfTermBy g rules u x n t → s.cursor.skipBlanks.Passes t.cursor :=
    fun x u n hx hn => (passes_of_term h hx).trans_reaches (reaches_of_ofTerm h hn)
  cases ha with
  | nothing => exact ⟨.refl _, nofun⟩
  | numeral hpeek hc hnumeral =>
    rcases (numeralOperand_ends hpeek).of_done hnumeral with hnumeral | ⟨x, u, hx, hn⟩
    · exact hsome _ (passes_of_numeral hpeek hc hnumeral)
    · exact hsome _ (hterm x u _ hx hn)
  | joinable hpeek htext => exact hsome _ (passes_of_joinableText htext)
  | text hpeek htext => exact hsome _ (passes_of_quotation htext)
  | primary hpeek hc hprimary =>
    obtain ⟨x, u, hx, hn⟩ := (primaryOperand_ends hpeek hc).of_done hprimary
    exact hsome _ (hterm x u _ hx hn)
  | array hopen hitems =>
    exact hsome _ ((passes_of_peek hopen).trans_reaches (reaches_of_done h hitems))
  | operator hpeek hc hoperator =>
    cases (leadingOperator_ends s).of_done hoperator with
    | nothing => exact ⟨.refl _, nofun⟩
    | operator hop hargument =>
      exact hsome _ ((passes_of_unaryAt? hop).trans_reaches
        (reaches_of_done h hargument))

theorem reaches_of_chain (h : Holds Rule.Gets rules) {stack : OperatorStack} {a : Option Node}
    (ha : ChainBy g rules stack s a t) : s.cursor.Reaches t.cursor := by
  cases ha with
  | finish hoperator => exact reaches_of_binaryOperator hoperator
  | operand hoperator hpositive hright hchain =>
    exact (reaches_of_binaryOperator hoperator).trans
      ((reaches_of_done h hright).trans (h hchain))

/-- Behind the operand a name may be cut. Cut to nothing, it leaves the empty name where the operand
began. -/
theorem gets_splitGlued {left n : Node} (hpass : s.cursor.skipBlanks.Passes u.cursor)
    (hn : splitGlued rules s.cursor.skipBlanks left u = .done n t) :
    Rule.expression.Gets s (some n) t := by
  rcases splitGlued_cases hn with ⟨rfl, rfl⟩ | ⟨test, -, rfl, rfl⟩
  · exact ⟨hpass.1, fun _ _ => .inl hpass⟩
  · refine ⟨reaches_advance _ _, ?_⟩
    rintro n ⟨⟩
    cases test with
    | nil => exact .inr ⟨rfl, advance_zero _⟩
    | cons c more =>
      refine .inl (passes_advance (Nat.succ_pos _) ?_)
      intro hnil
      have hlt := hpass.2
      simp [hnil] at hlt

/-- The first operand of an expression, and the place where an operator is looked for. -/
theorem passes_of_left (h : Holds Rule.Gets rules) {left : Node}
    (hleft : rules .operand { s with cursor := s.cursor.skipBlanks } = .done (some left) t) :
    s.cursor.skipBlanks.Passes t.cursor := by
  have hpass := (h hleft).2 left rfl
  rwa [skipBlanks_skipBlanks] at hpass

theorem gets_binary (h : Holds Rule.Gets rules) {a : Option Node}
    (ha : binary g rules s = .done a t) : Rule.expression.Gets s a t := by
  cases binary_cases ha with
  | nothing hleft =>
    have hreach := (h hleft).1
    rw [skipBlanks_skipBlanks] at hreach
    exact ⟨hreach, nofun⟩
  | alone hleft hoperator hsplit =>
    exact gets_splitGlued ((passes_of_left h hleft).trans_reaches
      (reaches_of_binaryOperator hoperator)) hsplit
  | word hleft hw hoperator hinside hrest =>
    have hpass := (passes_of_left h hleft).trans_reaches
      ((reaches_of_binaryOperator hoperator).trans (passes_of_name hrest).1)
    exact ⟨hpass.1, fun _ _ => .inl hpass⟩
  | operators hleft hoperator hinside hright hchain =>
    have hpass := (passes_of_left h hleft).trans_reaches
      ((reaches_of_binaryOperator hoperator).trans
        ((reaches_of_done h hright).trans (h hchain)))
    exact ⟨hpass.1, fun _ _ => .inl hpass⟩

/-- The `?` of a conditional is passed, after blanks. -/
theorem passes_question (h : Holds Rule.Gets rules) {test : Node}
    (htest : binary g rules s = .done (some test) t)
    (hquestion : t.cursor.skipBlanks.peek? = some '?') :
    s.cursor.skipBlanks.Passes (t.cursor.skipBlanks.advance 1) :=
  ((gets_binary h htest).1.trans (reaches_skipBlanks _)).trans_passes (passes_of_peek hquestion)

/-- The colon of a conditional is passed, after its consequent and blanks. -/
theorem passes_colon (h : Holds Rule.Gets rules) {test consequent : Node}
    (htest : binary g rules s = .done (some test) t)
    (hquestion : t.cursor.skipBlanks.peek? = some '?')
    (hconsequent : rules .expression ⟨t.cursor.skipBlanks.advance 1, true⟩ =
      .done (some consequent) u) :
    s.cursor.skipBlanks.Passes (u.cursor.skipBlanks.advance 1) :=
  (passes_question h htest hquestion).trans_reaches ((reaches_of_done h hconsequent).trans
    ((reaches_skipBlanks _).trans (reaches_advance _ 1)))

theorem gets_expression (h : Holds Rule.Gets rules) {a : Option Node}
    (ha : ExpressionBy g rules s a t) : Rule.expression.Gets s a t := by
  cases ha with
  | nothing hbinary => exact gets_binary h hbinary
  | alone hbinary hquestion =>
    obtain ⟨hreach, hsome⟩ := gets_binary h hbinary
    refine ⟨hreach.trans (reaches_skipBlanks _), fun n hn => ?_⟩
    rcases hsome n hn with hpass | ⟨hn, ht⟩
    · exact .inl (hpass.trans_reaches (reaches_skipBlanks _))
    · exact .inr ⟨hn, by simp only [ht, skipBlanks_skipBlanks]⟩
  | conditional hbinary hquestion hconsequent hcolon halternate =>
    have hpass := (passes_colon h hbinary hquestion hconsequent).trans_reaches
      (reaches_of_done h halternate)
    exact ⟨hpass.1, fun _ _ => .inl hpass⟩

theorem reaches_of_statements (h : Holds Rule.Gets rules) {ns : List Node}
    (hns : StatementsBy rules s ns t) : s.cursor.Reaches t.cursor := by
  cases hns with
  | nothing => exact .refl _
  | separator hpeek hc hrest => exact (reaches_advance _ 1).trans (h hrest)
  | blanks hpeek hc hexpression => exact reaches_of_done h hexpression
  | expression hpeek hc hexpression hrest => exact (reaches_of_done h hexpression).trans (h hrest)

theorem gets_of_answerBy (h : Holds Rule.Gets rules) {a : r.Answer}
    (ha : AnswerBy g rules r s a t) : r.Gets s a t := by
  cases r with
  | expression => exact gets_expression h ha
  | operand => exact gets_operand h ha
  | primary => exact passes_of_primary h ha
  | links head => exact reaches_of_links h ha
  | items b => exact passes_of_items h ha
  | chain stack => exact reaches_of_chain h ha
  | pairs keys => exact (reaches_afterComma s).trans (reaches_of_pairs h ha)
  | statements => exact reaches_of_statements h ha

/-- However many rounds are given, the rules get as far as they should. -/
theorem gets_run (g : Grammar) (n : Nat) : Holds Rule.Gets (run g n) :=
  holds_run (fun _ h _ _ _ _ => gets_of_answerBy h) n

end

/-- A list finds an item where it is, the empty name, and is still there afterwards. -/
def StandsStill (rules : Rules) (b : Bracket) (s t : State) : Prop :=
  (∃ c, s.cursor.peek? = some c ∧ c ≠ b.closing ∧ c ≠ ',') ∧
    rules .expression s = .done (some (.plain "")) t ∧ t.cursor = s.cursor

/-- How a call lies to the rule that makes it. -/
inductive Onward (rules : Rules) : Rule → State → Rule → State → Prop
  | passes {r r' : Rule} {s u : State} : r'.Inner →
    (r.place s.cursor).Passes u.cursor → Onward rules r s r' u
  | lower {r r' : Rule} {s u : State} : r'.Inner →
    (r.place s.cursor).Reaches u.cursor → r'.rank < r.rank → Onward rules r s r' u
  | again {b : Bracket} {s u : State} :
    StandsStill rules b { s with cursor := s.cursor.skipBlanks } u →
    Onward rules (.items b) s (.items b) u

theorem Onward.inner {rules : Rules} {r r' : Rule} {s u : State} (h : Onward rules r s r' u) :
    r'.Inner := by
  cases h with
  | passes hr' => exact hr'
  | lower hr' => exact hr'
  | again => trivial

/-- But for the list that calls itself again, a call leaves fewer rounds to be needed. -/
theorem Onward.need_lt {rules : Rules} {r r' : Rule} {s u : State} (h : Onward rules r s r' u) :
    r'.need u < r.need s ∨ ∃ b, r = .items b ∧ r' = .items b ∧
      StandsStill rules b { s with cursor := s.cursor.skipBlanks } u := by
  have hplace := (r.reaches_place s.cursor).length_le
  have hranks := r.rank_le
  have hranks' := r'.rank_le
  cases h with
  | passes _ hpass =>
    have hlength := hpass.2
    refine .inl ?_
    rw [Rule.need, Rule.need]
    omega
  | lower _ hreach hrank =>
    have hlength := hreach.length_le
    refine .inl ?_
    rw [Rule.need, Rule.need]
    omega
  | again hstill => exact .inr ⟨_, rfl, rfl, hstill⟩

section

variable {g : Grammar} {rules : Rules} {r r' : Rule} {s u : State}

/-- All calls go onward. -/
theorem onward_of_asks (h : Holds Rule.Gets rules) (hr : r.Inner) (hasks : Asks g rules r s r' u) :
    Onward rules r s r' u := by
  cases hasks with
  | left => exact .lower trivial (.refl _) (by decide)
  | follows hleft hoperator | right hleft hoperator =>
    exact .passes trivial ((passes_of_left h hleft).trans_reaches
      (reaches_of_binaryOperator hoperator))
  | operators hleft hoperator hright =>
    exact .passes trivial ((passes_of_left h hleft).trans_reaches
      ((reaches_of_binaryOperator hoperator).trans (reaches_of_done h hright)))
  | consequent htest hquestion => exact .passes trivial (passes_question h htest hquestion)
  | alternate htest hquestion hconsequent =>
    exact .passes trivial (passes_colon h htest hquestion hconsequent)
  | primary => exact .lower trivial (.refl _) (by decide)
  | elements hopen => exact .passes trivial (passes_of_peek hopen)
  | argument hop => exact .passes trivial (passes_of_unaryAt? hop)
  | wordArgument hterm => exact .passes trivial (passes_of_term h hterm)
  | morePairs hterm => exact .passes trivial (passes_of_term h hterm)
  | value hname =>
    exact .passes trivial ((passes_of_name hname).trans_reaches (reaches_advance _ 1))
  | group hopen => exact .passes trivial (passes_of_peek hopen)
  | links hhead =>
    exact .passes trivial ((passes_of_head h hhead).trans_reaches (reaches_skipBlanks _))
  | subscript head hopen => exact .passes trivial (passes_of_peek hopen)
  | arguments head hopen => exact .passes trivial (passes_of_peek hopen)
  | moreLinks hlink => exact .passes trivial (passes_of_link h hlink)
  | afterComma hcomma => exact .passes trivial (passes_of_peek hcomma)
  | item => exact .lower trivial (.refl _) (by simp [Rule.rank])
  | @moreItems _ _ _ c _ hpeek hc hitem =>
    rcases (h hitem).2 _ rfl with hpass | ⟨rfl, ht⟩
    · rw [skipBlanks_skipBlanks] at hpass
      exact .passes trivial hpass
    · rw [skipBlanks_skipBlanks] at ht
      exact .again ⟨⟨c, hpeek, hc⟩, hitem, ht⟩
  | pair => exact .lower trivial (reaches_afterComma s) (by simp [Rule.rank])
  | pairs hprimary => exact .passes trivial ((reaches_afterComma s).trans_passes (h hprimary))
  | operand stack hoperator => exact .passes trivial (passes_of_binaryOperator hoperator)
  | chain stack hoperator hright =>
    exact .passes trivial ((passes_of_binaryOperator hoperator).trans_reaches
      (reaches_of_done h hright))
  | separated => exact hr.elim
  | statement => exact hr.elim
  | moreStatements => exact hr.elim

theorem reaches_of_asks (h : Holds Rule.Gets rules) (hasks : Asks g rules r s r' u) :
    s.cursor.Reaches u.cursor := by
  have hinner : r.Inner → s.cursor.Reaches u.cursor := by
    intro hr
    refine (r.reaches_place s.cursor).trans ?_
    cases onward_of_asks h hr hasks with
    | passes _ hpass => exact hpass.1
    | lower _ hreach => exact hreach
    | again hstill =>
      rw [hstill.2.2]
      exact .refl _
  cases r with
  | statements =>
    cases hasks with
    | separated => exact reaches_advance _ 1
    | statement => exact .refl _
    | moreStatements hexpression => exact reaches_of_done h hexpression
  | _ => exact hinner trivial

end

end Forward

end ExprTree
