import ExprTree.Node.Tag
import ExprTree.Proofs.Lexemes

/-!
What the rules do, rule by rule. `AnswerBy` lists the ways in which a rule comes to its answer, with
what is known on each way, and `Asks` the calls that it makes. `round_ends` says that this is
all: a rule that fails has an error of its own or that of a call, and it is left unfinished only by
a call. What holds of all answers is then shown way by way, and `holds_run` takes it through any
number of rounds.
-/

namespace ExprTree.Origins

open Parse Outcome Lexemes

section

variable {α : Type} {p : Parse α} {s t : State}

theorem forall_mem_some {P : α → Prop} {a : α} (ha : P a) : ∀ b ∈ some a, P b := by
  rintro b ⟨⟩
  exact ha

theorem forall_eq_node {P : Node → Prop} {n : Node} (hn : P n) :
    ∀ m, Term.node n = .node m → P m := by
  rintro m ⟨⟩
  exact hn

theorem lookAhead_state {found : Option α} (h : lookAhead p s = .done found t) : t = s := by
  unfold lookAhead at h
  cases hp : p s with
  | done a u =>
    rw [hp] at h
    cases h
    rfl
  | failed e =>
    rw [hp] at h
    cases h
    rfl
  | unfinished =>
    rw [hp] at h
    cases h

end

variable {g : Grammar} {rules : Rules} {s t : State}

/-- The ways to a primary without its links: a word, a named argument with a single `=` after its
name, or a group. -/
inductive HeadBy (g : Grammar) (rules : Rules) (s : State) : Term → State → Prop
  | word {w : String} {t : State} (hparen : s.cursor.peek? ≠ some '(')
      (hname : name g.letters s = .done w t)
      (hplain : ¬ (t.cursor.peek? = some '=' ∧ t.cursor.peekAt? 1 ≠ some '=')) :
      HeadBy g rules s (.node (g.wordNode w)) t
  | pair {w : String} {value : Node} {t u : State} (hparen : s.cursor.peek? ≠ some '(')
      (hname : name g.letters s = .done w t)
      (hequals : t.cursor.peek? = some '=' ∧ t.cursor.peekAt? 1 ≠ some '=')
      (hvalue : rules .expression { t with cursor := t.cursor.advance 1 } =
        .done (some value) u) : HeadBy g rules s (.pair w value) u
  | group {n : Node} {t : State} (hopen : s.cursor.peek? = some '(')
      (hinside : rules .expression { s with cursor := s.cursor.advance 1 } = .done (some n) t)
      (hclose : t.cursor.skipBlanks.peek? = some ')') :
      HeadBy g rules s (.node n) { t with cursor := t.cursor.skipBlanks.advance 1 }

/-- The ways to a primary. A named argument has no links. -/
inductive PrimaryBy (g : Grammar) (rules : Rules) (s : State) : Term → State → Prop
  | pair {w : String} {value : Node} {t : State} (hhead : HeadBy g rules s (.pair w value) t) :
      PrimaryBy g rules s (.pair w value) t
  | linked {head n : Node} {t u : State} (hhead : HeadBy g rules s (.node head) t)
      (hlinks : rules (.links head) { t with cursor := t.cursor.skipBlanks } = .done n u) :
      PrimaryBy g rules s (.node n) u

/-- What one link makes of a head: a property, an item of it, or a call. -/
inductive LinkBy (g : Grammar) (rules : Rules) (head : Node) (s : State) : Node → State → Prop
  | property {w : String} {t : State} (hpoint : s.cursor.peek? = some '.')
      (hname : name g.letters { s with cursor := (s.cursor.advance 1).skipBlanks } = .done w t) :
      LinkBy g rules head s (.member false head (.plain w))
        { t with cursor := t.cursor.skipBlanks }
  | subscript {property : Node} {t : State} (hopen : s.cursor.peek? = some '[')
      (hinside : rules .expression { s with cursor := s.cursor.advance 1 } =
        .done (some property) t)
      (hclose : t.cursor.skipBlanks.peek? = some ']') :
      LinkBy g rules head s (.member true head property)
        { t with cursor := (t.cursor.skipBlanks.advance 1).skipBlanks }
  | call {arguments : List Node} {t : State} (hopen : s.cursor.peek? = some '(')
      (hitems : rules (.items .round) { s with cursor := s.cursor.advance 1 } =
        .done arguments t) :
      LinkBy g rules head s (.call head arguments) { t with cursor := t.cursor.skipBlanks }

theorem LinkBy.name?_eq_none {head n : Node} (h : LinkBy g rules head s n t) : n.name? = none := by
  cases h <;> rfl

/-- The ways to a node with its links: there is none ahead, or one and further ones. -/
inductive LinksBy (g : Grammar) (rules : Rules) (head : Node) (s : State) : Node → State → Prop
  | last (hpeek : ∀ c ∈ ['.', '[', '('], s.cursor.peek? ≠ some c) : LinksBy g rules head s head s
  | next {n m : Node} {t u : State} (hlink : LinkBy g rules head s n t)
      (hlinks : rules (.links n) t = .done m u) : LinksBy g rules head s m u

/-- The ways to the items of a list, from a place with no blanks ahead. -/
inductive ItemsBy (rules : Rules) (b : Bracket) (s : State) : List Node → State → Prop
  | close (hclose : s.cursor.peek? = some b.closing) :
      ItemsBy rules b s [] { s with cursor := s.cursor.advance 1 }
  | comma {ns : List Node} {t : State} (hcomma : s.cursor.peek? = some ',')
      (hitems : rules (.items b) { s with cursor := s.cursor.advance 1 } = .done ns t) :
      ItemsBy rules b s ns t
  | item {c : Char} {n : Node} {ns : List Node} {t u : State} (hpeek : s.cursor.peek? = some c)
      (hc : c ≠ b.closing ∧ c ≠ ',') (hitem : rules .expression s = .done (some n) t)
      (hn : n.tag ≠ .compound) (hitems : rules (.items b) t = .done ns u) :
      ItemsBy rules b s (n :: ns) u

/-- The ways to further named arguments, from the place where the next one would begin. What is
read there and is none is not passed. -/
inductive PairsBy (g : Grammar) (rules : Rules) (keys : Keyed (Entry Node)) (s : State) :
    Keyed (Entry Node) → State → Prop
  | nothing (hpeek : s.cursor.peek?.any g.letters.isStart = false) : PairsBy g rules keys s keys s
  | other {n : Node} {t : State} (hpeek : s.cursor.peek?.any g.letters.isStart = true)
      (hprimary : rules .primary s = .done (.node n) t) :
      PairsBy g rules keys s keys { t with cursor := s.cursor }
  | pair {key : String} {value : Node} {found : Keyed (Entry Node)} {t u : State}
      (hpeek : s.cursor.peek?.any g.letters.isStart = true)
      (hprimary : rules .primary s = .done (.pair key value) t)
      (hpairs : rules (.pairs (addValue keys key value)) t = .done found u) :
      PairsBy g rules keys s found u

/-- The ways to a term that an operand is made of. -/
inductive TermBy (g : Grammar) (rules : Rules) (s : State) : Term → State → Prop
  /-- A primary that is read where a numeral was tried. -/
  | again {x : Term} {e : ParseError} {t : State} (hnumeral : numeral g.letters s = .failed e)
      (hprimary : rules .primary s = .done x t) : TermBy g rules s x t
  | pair {key : String} {value : Node} {t : State}
      (hprimary : rules .primary s = .done (.pair key value) t) :
      TermBy g rules s (.pair key value) t
  | node {n m : Node} {t u : State} (hprimary : rules .primary s = .done (.node n) t)
      (hjoin : joinName g.letters n t = .done m u) : TermBy g rules s (.node m) u

/-- What an operand makes of a term. -/
inductive OfTermBy (g : Grammar) (rules : Rules) (s : State) : Term → Node → State → Prop
  | pairs {key : String} {value : Node} {keys : Keyed (Entry Node)} {t : State}
      (hpairs : rules (.pairs (addValue [] key value)) s = .done keys t) :
      OfTermBy g rules s (.pair key value) (.keyValues keys) t
  | operator {w : String} {property : Option Node} {argument : Node} {t : State}
      (hw : g.operators.isUnary w = true) (hargument : rules .operand s = .done (some argument) t) :
      OfTermBy g rules s (.node (.identifier w none property)) (.unary w argument true) t
  | number {w : String} {property : Option Node} {x : Binary64}
      (hw : g.operators.isUnary w = false) (hx : Numeral.read? w.toList = some x) :
      OfTermBy g rules s (.node (.identifier w none property)) (.literal (.number x) w) s
  | whole (n : Node) : OfTermBy g rules s (.node n) n s

/-- The ways to an operand, from a place with no blanks ahead. -/
inductive OperandBy (g : Grammar) (rules : Rules) (s : State) : Option Node → State → Prop
  | nothing (hpeek : s.cursor.peek? = none) : OperandBy g rules s none s
  | numeral {c : Char} {a : Node} {t : State} (hpeek : s.cursor.peek? = some c)
      (hc : c.isDigit = true ∨ c = '.') (h : numeralOperand g rules c s = .done a t) :
      OperandBy g rules s (some a) t
  | joinable {a : Node} {t : State} (hpeek : s.cursor.peek? = some '\'')
      (h : joinableText g.letters s = .done a t) : OperandBy g rules s (some a) t
  | text {value raw : String} {t : State} (hpeek : s.cursor.peek? = some '"')
      (h : quotation s = .done (value, raw) t) :
      OperandBy g rules s (some (.literal (.string value) raw)) t
  | primary {c : Char} {a : Node} {t : State} (hpeek : s.cursor.peek? = some c)
      (hc : g.letters.isStart c = true ∨ c = '(') (h : primaryOperand g rules s = .done a t) :
      OperandBy g rules s (some a) t
  | array {elements : List Node} {t : State} (hpeek : s.cursor.peek? = some '[')
      (h : rules (.items .square) { s with cursor := s.cursor.advance 1 } = .done elements t) :
      OperandBy g rules s (some (.array elements)) t
  | operator {c : Char} {a : Option Node} {t : State} (hpeek : s.cursor.peek? = some c)
      (hc : c ∉ ['.', '\'', '"', '(', '['] ∧ c.isDigit = false ∧ g.letters.isStart c = false)
      (h : leadingOperator g rules s = .done a t) : OperandBy g rules s a t

/-- The ways to an operand that begins with an operator. -/
inductive LeadingBy (g : Grammar) (rules : Rules) (s : State) : Option Node → State → Prop
  | nothing (hop : g.operators.unaryAt? (s.cursor.ahead.take g.operators.longestUnary) = none) :
      LeadingBy g rules s none s
  | operator {operator : String} {argument : Node} {t : State}
      (hop : g.operators.unaryAt? (s.cursor.ahead.take g.operators.longestUnary) = some operator)
      (hargument : rules .operand { s with cursor := s.cursor.advance operator.length } =
        .done (some argument) t) :
      LeadingBy g rules s (some (.unary operator argument true)) t

/-- The ways to the rest of a binary expression: it is at its end, or there is an operator with an
operand after it. -/
inductive ChainBy (g : Grammar) (rules : Rules) (stack : OperatorStack) (s : State) :
    Option Node → State → Prop
  | finish {o : Option (String × Int)} {t : State} (hoperator : binaryOperator g s = .done o t)
      (hlast : ∀ p ∈ o, p.2 ≤ 0) : ChainBy g rules stack s stack.finish t
  | operand {operator : String} {precedence : Int} {right : Node} {a : Option Node}
      {t u v : State} (hoperator : binaryOperator g s = .done (some (operator, precedence)) t)
      (hpositive : 0 < precedence) (hright : rules .operand t = .done (some right) u)
      (hchain : rules (.chain ((stack.reduceFor precedence).push operator precedence right)) u =
        .done a v) : ChainBy g rules stack s a v

/-- A node is given back whole, or is a name that is cut so that the part before its last `?` is
left. -/
theorem splitGlued_cases {start : Cursor} {left a : Node}
    (h : splitGlued rules start left s = .done a t) :
    (a = left ∧ t = s) ∨ ∃ test, gluedTest? (left.name?.getD "").toList = some test ∧
      a = .plain (String.ofList test) ∧ t = { s with cursor := start.advance test.length } := by
  unfold splitGlued at h
  cases hglued : gluedTest? (left.name?.getD "").toList with
  | none =>
    rw [hglued] at h
    cases h
    exact .inl ⟨rfl, rfl⟩
  | some test =>
    rw [hglued] at h
    obtain ⟨follows, u, hfollows, hdone⟩ := bind_eq_done.mp h
    have hu : u = s := by
      rw [ite_step] at hfollows
      split at hfollows
      · obtain ⟨found, v, hfound, hfollows⟩ := bind_eq_done.mp hfollows
        cases hfollows
        exact lookAhead_state hfound
      · cases hfollows
        rfl
    rw [hu, ite_step] at hdone
    split at hdone
    · cases hdone
      exact .inr ⟨test, rfl, rfl, rfl⟩
    · cases hdone
      exact .inl ⟨rfl, rfl⟩

/-- The ways to a binary expression, from a place with no blanks ahead: no operand, one operand with
no operator after it, a name that goes on with an operator, or operands with operators. -/
inductive BinaryBy (g : Grammar) (rules : Rules) (s : State) : Option Node → State → Prop
  | nothing {t : State} (hleft : rules .operand s = .done none t) : BinaryBy g rules s none t
  | alone {left a : Node} {t u v : State} (hleft : rules .operand s = .done (some left) u)
      (hoperator : binaryOperator g u = .done none v)
      (hsplit : splitGlued rules s.cursor left v = .done a t) : BinaryBy g rules s (some a) t
  | word {left : Node} {w operator rest : String} {precedence : Int} {t u v : State}
      (hleft : rules .operand s = .done (some left) u) (hw : left.name? = some w)
      (hoperator : binaryOperator g u = .done (some (operator, precedence)) v)
      (hinside : isInsideWord g left (u.cursor.previous?.any isBlank) operator v.cursor.peek? =
        true)
      (hrest : name g.letters v = .done rest t) :
      BinaryBy g rules s (some (.plain (w ++ operator ++ rest))) t
  | operators {left right : Node} {a : Option Node} {operator : String} {precedence : Int}
      {t u v w : State} (hleft : rules .operand s = .done (some left) u)
      (hoperator : binaryOperator g u = .done (some (operator, precedence)) v)
      (hinside : isInsideWord g left (u.cursor.previous?.any isBlank) operator v.cursor.peek? =
        false)
      (hright : rules .operand v = .done (some right) w)
      (hchain : rules (.chain (.start left operator precedence right)) w = .done a t) :
      BinaryBy g rules s a t

/-- The ways to an expression: no binary expression, one in front of no `?`, or a conditional. -/
inductive ExpressionBy (g : Grammar) (rules : Rules) (s : State) : Option Node → State → Prop
  | nothing {t : State} (hbinary : binary g rules s = .done none t) :
      ExpressionBy g rules s none t
  | alone {a : Node} {u : State} (hbinary : binary g rules s = .done (some a) u)
      (hquestion : u.cursor.skipBlanks.peek? ≠ some '?') :
      ExpressionBy g rules s (some a) { u with cursor := u.cursor.skipBlanks }
  | conditional {test consequent alternate : Node} {t u v : State}
      (hbinary : binary g rules s = .done (some test) u)
      (hquestion : u.cursor.skipBlanks.peek? = some '?')
      (hconsequent : rules .expression ⟨u.cursor.skipBlanks.advance 1, true⟩ =
        .done (some consequent) v)
      (hcolon : v.cursor.skipBlanks.peek? = some ':')
      (halternate : rules .expression { v with cursor := v.cursor.skipBlanks.advance 1 } =
        .done (some alternate) t) :
      ExpressionBy g rules s (some (.conditional test consequent alternate))
        { t with inBranch := false }

/-- The ways to the statements of a source. Blanks may stand at its end. -/
inductive StatementsBy (rules : Rules) (s : State) : List Node → State → Prop
  | nothing (hend : s.cursor.peek? = none) : StatementsBy rules s [] s
  | separator {c : Char} {ns : List Node} {t : State} (hpeek : s.cursor.peek? = some c)
      (hc : c = ';' ∨ c = ',')
      (hrest : rules .statements { s with cursor := s.cursor.advance 1 } = .done ns t) :
      StatementsBy rules s ns t
  | blanks {c : Char} {t : State} (hpeek : s.cursor.peek? = some c) (hc : ¬ (c = ';' ∨ c = ','))
      (hexpression : rules .expression s = .done none t) (hend : t.cursor.peek? = none) :
      StatementsBy rules s [] t
  | expression {c : Char} {n : Node} {ns : List Node} {t u : State}
      (hpeek : s.cursor.peek? = some c) (hc : ¬ (c = ';' ∨ c = ','))
      (hexpression : rules .expression s = .done (some n) t)
      (hrest : rules .statements t = .done ns u) : StatementsBy rules s (n :: ns) u

/-- The ways in which a rule comes to an answer. -/
def AnswerBy (g : Grammar) (rules : Rules) : (r : Rule) → State → r.Answer → State → Prop
  | .expression, s, a, t => ExpressionBy g rules s a t
  | .operand, s, a, t => OperandBy g rules { s with cursor := s.cursor.skipBlanks } a t
  | .primary, s, a, t => PrimaryBy g rules s a t
  | .links head, s, a, t => LinksBy g rules head s a t
  | .items b, s, a, t => ItemsBy rules b { s with cursor := s.cursor.skipBlanks } a t
  | .chain stack, s, a, t => ChainBy g rules stack s a t
  | .pairs keys, s, a, t => PairsBy g rules keys (afterComma s) a t
  | .statements, s, a, t => StatementsBy rules s a t

/-- The calls that a rule makes: in one state it asks a rule for its answer in another. -/
inductive Asks (g : Grammar) (rules : Rules) : Rule → State → Rule → State → Prop
  | left (s : State) :
      Asks g rules .expression s .operand { s with cursor := s.cursor.skipBlanks }
  /-- Whether an expression follows is looked at where a name with a colon at its end is cut. -/
  | follows {s t u : State} {left : Node}
      (hleft : rules .operand { s with cursor := s.cursor.skipBlanks } = .done (some left) t)
      (hoperator : binaryOperator g t = .done none u) : Asks g rules .expression s .expression u
  | right {s t u : State} {left : Node} {o : String × Int}
      (hleft : rules .operand { s with cursor := s.cursor.skipBlanks } = .done (some left) t)
      (hoperator : binaryOperator g t = .done (some o) u) : Asks g rules .expression s .operand u
  | operators {s t u v : State} {left right : Node} {o : String × Int}
      (hleft : rules .operand { s with cursor := s.cursor.skipBlanks } = .done (some left) t)
      (hoperator : binaryOperator g t = .done (some o) u)
      (hright : rules .operand u = .done (some right) v) :
      Asks g rules .expression s (.chain (.start left o.1 o.2 right)) v
  | consequent {s t : State} {test : Node} (htest : binary g rules s = .done (some test) t)
      (hquestion : t.cursor.skipBlanks.peek? = some '?') :
      Asks g rules .expression s .expression ⟨t.cursor.skipBlanks.advance 1, true⟩
  | alternate {s t u : State} {test consequent : Node}
      (htest : binary g rules s = .done (some test) t)
      (hquestion : t.cursor.skipBlanks.peek? = some '?')
      (hconsequent : rules .expression ⟨t.cursor.skipBlanks.advance 1, true⟩ =
        .done (some consequent) u)
      (hcolon : u.cursor.skipBlanks.peek? = some ':') :
      Asks g rules .expression s .expression
        { u with cursor := u.cursor.skipBlanks.advance 1 }
  | primary {s : State} {c : Char} (hpeek : s.cursor.skipBlanks.peek? = some c)
      (hc : g.letters.isStart c = true ∨ c = '(') :
      Asks g rules .operand s .primary { s with cursor := s.cursor.skipBlanks }
  | elements {s : State} (hopen : s.cursor.skipBlanks.peek? = some '[') :
      Asks g rules .operand s (.items .square)
        { s with cursor := s.cursor.skipBlanks.advance 1 }
  | argument {s : State} {operator : String} (hop : g.operators.unaryAt?
        (s.cursor.skipBlanks.ahead.take g.operators.longestUnary) = some operator) :
      Asks g rules .operand s .operand
        { s with cursor := s.cursor.skipBlanks.advance operator.length }
  | wordArgument {s t : State} {w : String} {property : Option Node}
      (hterm : TermBy g rules { s with cursor := s.cursor.skipBlanks }
        (.node (.identifier w none property)) t) : Asks g rules .operand s .operand t
  | morePairs {s t : State} {key : String} {value : Node}
      (hterm : TermBy g rules { s with cursor := s.cursor.skipBlanks } (.pair key value) t) :
      Asks g rules .operand s (.pairs (addValue [] key value)) t
  | value {s t : State} {w : String} (hname : name g.letters s = .done w t)
      (hequals : t.cursor.peek? = some '=') :
      Asks g rules .primary s .expression { t with cursor := t.cursor.advance 1 }
  | group {s : State} (hopen : s.cursor.peek? = some '(') :
      Asks g rules .primary s .expression { s with cursor := s.cursor.advance 1 }
  | links {s t : State} {head : Node} (hhead : HeadBy g rules s (.node head) t) :
      Asks g rules .primary s (.links head) { t with cursor := t.cursor.skipBlanks }
  | subscript {s : State} (head : Node) (hopen : s.cursor.peek? = some '[') :
      Asks g rules (.links head) s .expression { s with cursor := s.cursor.advance 1 }
  | arguments {s : State} (head : Node) (hopen : s.cursor.peek? = some '(') :
      Asks g rules (.links head) s (.items .round) { s with cursor := s.cursor.advance 1 }
  | moreLinks {s t : State} {head n : Node} (hlink : LinkBy g rules head s n t) :
      Asks g rules (.links head) s (.links n) t
  | afterComma {s : State} {b : Bracket} (hcomma : s.cursor.skipBlanks.peek? = some ',') :
      Asks g rules (.items b) s (.items b)
        { s with cursor := s.cursor.skipBlanks.advance 1 }
  | item (s : State) (b : Bracket) :
      Asks g rules (.items b) s .expression { s with cursor := s.cursor.skipBlanks }
  | moreItems {s t : State} {b : Bracket} {c : Char} {n : Node}
      (hpeek : s.cursor.skipBlanks.peek? = some c) (hc : c ≠ b.closing ∧ c ≠ ',')
      (hitem : rules .expression { s with cursor := s.cursor.skipBlanks } = .done (some n) t) :
      Asks g rules (.items b) s (.items b) t
  | pair (s : State) (keys : Keyed (Entry Node)) :
      Asks g rules (.pairs keys) s .primary (Parse.afterComma s)
  | pairs {s t : State} {keys : Keyed (Entry Node)} {key : String} {value : Node}
      (hprimary : rules .primary (Parse.afterComma s) = .done (.pair key value) t) :
      Asks g rules (.pairs keys) s (.pairs (addValue keys key value)) t
  | operand {s t : State} {o : String × Int} (stack : OperatorStack)
      (hoperator : binaryOperator g s = .done (some o) t) :
      Asks g rules (.chain stack) s .operand t
  | chain {s t u : State} {o : String × Int} {right : Node} (stack : OperatorStack)
      (hoperator : binaryOperator g s = .done (some o) t)
      (hright : rules .operand t = .done (some right) u) :
      Asks g rules (.chain stack) s (.chain ((stack.reduceFor o.2).push o.1 o.2 right)) u
  | separated {s : State} {c : Char} (hpeek : s.cursor.peek? = some c) :
      Asks g rules .statements s .statements { s with cursor := s.cursor.advance 1 }
  | statement (s : State) : Asks g rules .statements s .expression s
  | moreStatements {s t : State} {n : Node} (hexpression : rules .expression s = .done (some n) t) :
      Asks g rules .statements s .statements t

/-- Why a rule fails: a call does, or there is an error of its own. An own error about a missing
item is one about an expression that was not found, or is a compound. -/
inductive FailsBy (g : Grammar) (rules : Rules) (r : Rule) (s : State) (e : ParseError) : Prop
  | call {r' : Rule} {u : State} (hasks : Asks g rules r s r' u) (h : rules r' u = .failed e)
  | own (h : Minor e)
  | item {b : Bracket} {a : Option Node} {t : State} (hr : r = .items b)
      (hitem : rules .expression { s with cursor := s.cursor.skipBlanks } = .done a t)
      (ha : ∀ n ∈ a, n.tag = .compound) (he : e.index = t.cursor.index)

/-- A rule waits for a call that is left unfinished. -/
def Waits (g : Grammar) (rules : Rules) (r : Rule) (s : State) : Prop :=
  ∃ r' u, Asks g rules r s r' u ∧ rules r' u = .unfinished

section

variable {α : Type} {p : Parse α} {Q : α → State → Prop} {r r' : Rule} {u : State}

/-- A call that a rule makes, and what comes of it. -/
theorem ends_call (hasks : Asks g rules r s r' u) {Q : r'.Answer → State → Prop}
    (hQ : ∀ a t, rules r' u = .done a t → Q a t) :
    (rules r' u).Ends Q (FailsBy g rules r s) (Waits g rules r s) := by
  cases h : rules r' u with
  | done a t => exact hQ a t h
  | failed e => exact .call hasks h
  | unfinished => exact ⟨r', u, hasks, h⟩

/-- A piece that asks no rule. -/
theorem ends_lexeme {Q' : α → State → Prop} (hp : (p u).Ends Q' Minor False)
    (hQ : ∀ a t, p u = .done a t → Q a t) :
    (p u).Ends Q (FailsBy g rules r s) (Waits g rules r s) :=
  hp.self.mono hQ (fun _ he => .own he) False.elim

end

section

-- each rule is walked through once, with what it does at each of its steps

theorem word_ends (hparen : s.cursor.peek? ≠ some '(') :
    (word g rules s).Ends (HeadBy g rules s) (FailsBy g rules .primary s)
      (Waits g rules .primary s) := by
  unfold word
  rw [ends_bind]
  refine ends_lexeme (name_ends g.letters s) fun w t hname => ?_
  simp only [ends_bind, ends_here, ends_ite, ends_advance, ends_require, ends_pure]
  split
  · rename_i hequals
    refine ends_call (.value hname hequals.1) fun a u ha => ?_
    cases a with
    | none => exact .own (by rintro ⟨⟩)
    | some value => exact .pair hparen hname hequals ha
  · rename_i hplain
    exact .word hparen hname hplain

theorem group_ends (hopen : s.cursor.peek? = some '(') :
    (group rules s).Ends (fun n t => HeadBy g rules s (.node n) t) (FailsBy g rules .primary s)
      (Waits g rules .primary s) := by
  unfold group
  simp only [ends_bind, ends_advance, ends_require, ends_skipBlanks, ends_expect, ends_pure]
  refine ends_call (.group hopen) fun a t ha => ?_
  cases a with
  | none => exact .own (by rintro ⟨⟩)
  | some n =>
    simp only
    split
    · rename_i hclose
      exact .group hopen ha hclose
    · exact .own (by rintro ⟨⟩)

theorem primary_ends (s : State) :
    (primary g rules s).Ends (PrimaryBy g rules s) (FailsBy g rules .primary s)
      (Waits g rules .primary s) := by
  unfold primary
  rw [ends_bind]
  refine Ends.imp (Q := HeadBy g rules s) (E := FailsBy g rules .primary s)
    (U := Waits g rules .primary s) ?_ ?_
  · simp only [ends_bind, ends_peek, ends_ite, ends_pure]
    split
    · rename_i hopen
      exact group_ends hopen
    · rename_i hparen
      exact word_ends hparen
  · intro x t hhead
    cases x with
    | pair w value => exact .pair hhead
    | node n =>
      simp only [ends_bind, ends_skipBlanks, ends_pure]
      exact ends_call (.links hhead) fun m u hlinks => .linked hhead hlinks

theorem links_ends (head : Node) (s : State) :
    (links g rules head s).Ends (LinksBy g rules head s) (FailsBy g rules (.links head) s)
      (Waits g rules (.links head) s) := by
  have hnext : ∀ (n : Node) (t : State), LinkBy g rules head s n t →
      (rules (.links n) t).Ends (LinksBy g rules head s) (FailsBy g rules (.links head) s)
        (Waits g rules (.links head) s) :=
    fun n t hlink => ends_call (.moreLinks hlink) fun m u hlinks => .next hlink hlinks
  rw [links_eq]
  simp only [ends_bind, ends_peek, ends_ite, ends_advance, ends_skipBlanks, ends_require,
    ends_expect, ends_pure]
  split
  · rename_i hpoint
    exact ends_lexeme (name_ends g.letters _) fun w t hname => hnext _ _ (.property hpoint hname)
  · rename_i hpoint
    split
    · rename_i hopen
      refine ends_call (.subscript head hopen) fun a t ha => ?_
      cases a with
      | none => exact .own (by rintro ⟨⟩)
      | some property =>
        simp only
        split
        · rename_i hclose
          exact hnext _ _ (.subscript hopen ha hclose)
        · exact .own (by rintro ⟨⟩)
    · rename_i hsquare
      split
      · rename_i hopen
        exact ends_call (.arguments head hopen) fun ns t hitems => hnext _ _ (.call hopen hitems)
      · rename_i hround
        exact .last (by simp [hpoint, hsquare, hround])

theorem items_ends (b : Bracket) (s : State) :
    (items rules b s).Ends (ItemsBy rules b { s with cursor := s.cursor.skipBlanks })
      (FailsBy g rules (.items b) s) (Waits g rules (.items b) s) := by
  unfold items
  simp only [ends_bind, ends_skipBlanks, ends_peek]
  cases hpeek : s.cursor.skipBlanks.peek? with
  | none => exact .own (by rintro ⟨⟩)
  | some c =>
    simp only [ends_ite, ends_bind, ends_advance, ends_pure]
    split
    · rename_i hclose
      exact .close (hclose ▸ hpeek)
    · rename_i hclose
      split
      · rename_i hcomma
        exact ends_call (.afterComma (hcomma ▸ hpeek)) fun ns t hitems =>
          .comma (hcomma ▸ hpeek) hitems
      · rename_i hcomma
        refine ends_call (.item s b) fun a t ha => ?_
        have hmissing : (∀ n ∈ a, n.tag = .compound) →
            ((fail .noItem : Parse (List Node)) t).Ends
              (ItemsBy rules b { s with cursor := s.cursor.skipBlanks })
              (FailsBy g rules (.items b) s) (Waits g rules (.items b) s) :=
          fun hnone => .item rfl ha hnone rfl
        have hitem : ∀ n, a = some n → n.tag ≠ .compound →
            ((do return n :: (← rules (.items b)) : Parse (List Node)) t).Ends
              (ItemsBy rules b { s with cursor := s.cursor.skipBlanks })
              (FailsBy g rules (.items b) s) (Waits g rules (.items b) s) := by
          rintro n rfl hn
          simp only [ends_bind, ends_pure]
          exact ends_call (.moreItems hpeek ⟨hclose, hcomma⟩ ha) fun ns u hitems =>
            .item hpeek ⟨hclose, hcomma⟩ ha hn hitems
        rcases a with _ | n
        · exact hmissing (by rintro _ ⟨⟩)
        · cases n with
          | compound body => exact hmissing (by rintro _ ⟨⟩; rfl)
          | _ => exact hitem _ rfl (by rintro ⟨⟩)

theorem pairs_ends (keys : Keyed (Entry Node)) (s : State) :
    (pairs g rules keys s).Ends (PairsBy g rules keys (afterComma s))
      (FailsBy g rules (.pairs keys) s) (Waits g rules (.pairs keys) s) := by
  unfold pairs
  rw [bind_afterComma_apply]
  simp only [ends_bind, ends_here, ends_ite, ends_pure]
  split
  · rename_i hpeek
    refine ends_call (.pair s keys) fun x t hprimary => ?_
    cases x with
    | node n => exact .other hpeek hprimary
    | pair key value =>
      exact ends_call (.pairs hprimary) fun found u hpairs => .pair hpeek hprimary hpairs
  · rename_i hpeek
    exact .nothing (Bool.of_not_eq_true hpeek)

theorem applyUnary_ends (operator : String) {u : State}
    (hasks : Asks g rules .operand s .operand u) :
    (applyUnary rules operator u).Ends (fun n t => ∃ argument,
        rules .operand u = .done (some argument) t ∧ n = .unary operator argument true)
      (FailsBy g rules .operand s) (Waits g rules .operand s) := by
  unfold applyUnary
  simp only [ends_bind, ends_require, ends_pure]
  refine ends_call hasks fun a t ha => ?_
  cases a with
  | none => exact .own (by rintro ⟨⟩)
  | some argument => exact ⟨argument, ha, rfl⟩

theorem ofTerm_ends {x : Term} {u : State}
    (hterm : TermBy g rules { s with cursor := s.cursor.skipBlanks } x u) :
    (ofTerm g rules x u).Ends (OfTermBy g rules u x) (FailsBy g rules .operand s)
      (Waits g rules .operand s) := by
  unfold ofTerm
  split
  · simp only [ends_bind, ends_pure]
    exact ends_call (.morePairs hterm) fun keys t hpairs => .pairs hpairs
  · rename_i w property
    rw [ends_ite]
    split
    · rename_i hw
      refine (applyUnary_ends w (.wordArgument hterm)).imp ?_
      rintro n t ⟨argument, hargument, rfl⟩
      exact .operator hw hargument
    · rename_i hw
      cases hx : Numeral.read? w.toList with
      | none => exact .whole _
      | some x => exact .number (Bool.of_not_eq_true hw) hx
  · exact .whole _

theorem numeralOperand_ends {c : Char} (hpeek : s.cursor.skipBlanks.peek? = some c) :
    (numeralOperand g rules c { s with cursor := s.cursor.skipBlanks }).Ends
      (fun a t => numeral g.letters { s with cursor := s.cursor.skipBlanks } = .done a t ∨
        ∃ x u, TermBy g rules { s with cursor := s.cursor.skipBlanks } x u ∧
          OfTermBy g rules u x a t)
      (FailsBy g rules .operand s) (Waits g rules .operand s) := by
  unfold numeralOperand
  rw [ends_ite]
  split
  · rename_i hstart
    rw [ends_recover]
    cases hnumeral : numeral g.letters { s with cursor := s.cursor.skipBlanks } with
    | done a t => exact .inl rfl
    | unfinished => exact absurd hnumeral ((numeral_ends g.letters _).ne_unfinished id)
    | failed e =>
      change ((_ : Parse Node) _).Ends _ _ _
      rw [ends_bind]
      refine ends_call (.primary hpeek (.inl hstart)) fun x u hprimary => ?_
      have hterm := TermBy.again hnumeral hprimary
      exact (ofTerm_ends hterm).imp fun a t ha => .inr ⟨x, u, hterm, ha⟩
  · exact ends_lexeme (numeral_ends g.letters _) fun a t hnumeral => .inl hnumeral

theorem primaryOperand_ends {c : Char} (hpeek : s.cursor.skipBlanks.peek? = some c)
    (hc : g.letters.isStart c = true ∨ c = '(') :
    (primaryOperand g rules { s with cursor := s.cursor.skipBlanks }).Ends
      (fun a t => ∃ x u, TermBy g rules { s with cursor := s.cursor.skipBlanks } x u ∧
        OfTermBy g rules u x a t)
      (FailsBy g rules .operand s) (Waits g rules .operand s) := by
  unfold primaryOperand
  rw [ends_bind]
  refine ends_call (.primary hpeek hc) fun x t hprimary => ?_
  cases x with
  | pair key value =>
    have hterm := TermBy.pair (g := g) hprimary
    exact (ofTerm_ends hterm).imp fun a u ha => ⟨_, t, hterm, ha⟩
  | node n =>
    rw [ends_bind]
    refine ends_lexeme (joinName_ends g.letters n t) fun m u hjoin => ?_
    have hterm := TermBy.node hprimary hjoin
    exact (ofTerm_ends hterm).imp fun a v ha => ⟨_, u, hterm, ha⟩

theorem leadingOperator_ends (s : State) :
    (leadingOperator g rules { s with cursor := s.cursor.skipBlanks }).Ends
      (LeadingBy g rules { s with cursor := s.cursor.skipBlanks })
      (FailsBy g rules .operand s) (Waits g rules .operand s) := by
  unfold leadingOperator
  simp only [ends_bind, ends_here]
  cases hop : g.operators.unaryAt?
      (s.cursor.skipBlanks.ahead.take g.operators.longestUnary) with
  | none => exact .nothing hop
  | some operator =>
    simp only [ends_bind, ends_advance, ends_pure]
    refine (applyUnary_ends operator (.argument hop)).imp ?_
    rintro n t ⟨argument, hargument, rfl⟩
    exact .operator hop hargument

theorem operand_ends (s : State) :
    (operand g rules s).Ends (OperandBy g rules { s with cursor := s.cursor.skipBlanks })
      (FailsBy g rules .operand s) (Waits g rules .operand s) := by
  unfold operand
  simp only [ends_bind, ends_skipBlanks, ends_peek]
  cases hpeek : s.cursor.skipBlanks.peek? with
  | none => exact .nothing hpeek
  | some c =>
    simp only [ends_ite, ends_bind, ends_pure, ends_advance, Bool.or_eq_true, beq_iff_eq]
    split
    · rename_i hnumeral
      exact (numeralOperand_ends hpeek).self.imp fun a t => .numeral hpeek hnumeral
    · rename_i hnumeral
      split
      · rename_i hquote
        exact ends_lexeme (joinableText_ends g.letters _) fun a t => .joinable (hquote ▸ hpeek)
      · rename_i hquote
        split
        · rename_i hdouble
          refine ends_lexeme (quotation_ends _) ?_
          rintro ⟨value, raw⟩ t htext
          exact .text (hdouble ▸ hpeek) htext
        · rename_i hdouble
          split
          · rename_i hprimary
            exact (primaryOperand_ends hpeek hprimary).self.imp fun a t => .primary hpeek hprimary
          · rename_i hprimary
            split
            · rename_i hopen
              exact ends_call (.elements (hopen ▸ hpeek)) fun ns t hitems =>
                .array (hopen ▸ hpeek) hitems
            · rename_i hopen
              refine (leadingOperator_ends s).self.imp fun a t => .operator hpeek ⟨?_, ?_, ?_⟩
              · rw [not_or] at hnumeral hprimary
                simp [hnumeral.2, hquote, hdouble, hprimary.2, hopen]
              · exact Bool.eq_false_iff.mpr fun hc => hnumeral (.inl hc)
              · exact Bool.eq_false_iff.mpr fun hc => hprimary (.inl hc)

theorem chain_ends (stack : OperatorStack) (s : State) :
    (chain g rules stack s).Ends (ChainBy g rules stack s) (FailsBy g rules (.chain stack) s)
      (Waits g rules (.chain stack) s) := by
  unfold chain
  rw [ends_bind]
  refine ends_lexeme (binaryOperator_ends g s) ?_
  rintro (_ | ⟨operator, precedence⟩) t hoperator
  · exact .finish hoperator (by rintro _ ⟨⟩)
  · simp only [ends_ite, ends_bind, ends_require, ends_pure]
    split
    · rename_i hlast
      exact .finish hoperator (by rintro _ ⟨⟩; exact hlast)
    · rename_i hpositive
      refine ends_call (.operand stack hoperator) fun a u hright => ?_
      cases a with
      | none => exact .own (by rintro ⟨⟩)
      | some right =>
        exact ends_call (.chain stack hoperator hright) fun b v =>
          .operand hoperator (Int.not_le.mp hpositive) hright

/-- A name is cut in front of its last `?`, or it is looked whether an expression follows it. -/
theorem splitGlued_ends {start : Cursor} {left : Node} {u : State}
    (hasks : Asks g rules .expression s .expression u) :
    (splitGlued rules start left u).Ends (fun _ _ => True) (FailsBy g rules .expression s)
      (Waits g rules .expression s) := by
  unfold splitGlued
  cases gluedTest? (left.name?.getD "").toList with
  | none => trivial
  | some test =>
    simp only [ends_bind, ends_ite, ends_lookAhead, ends_moveTo, ends_pure, ite_self]
    split
    · exact (ends_call hasks fun _ _ _ => trivial).mono (fun _ _ h => h) (fun _ _ => trivial) id
    · trivial

theorem binary_ends (s : State) :
    (binary g rules s).Ends (BinaryBy g rules { s with cursor := s.cursor.skipBlanks })
      (FailsBy g rules .expression s) (Waits g rules .expression s) := by
  unfold binary
  simp only [ends_bind, ends_skipBlanks, ends_here]
  refine ends_call (.left s) fun a t hleft => ?_
  cases a with
  | none => exact .nothing hleft
  | some left =>
    simp only [ends_bind, ends_here]
    refine ends_lexeme (binaryOperator_ends g t) ?_
    rintro (_ | ⟨operator, precedence⟩) u hoperator
    · simp only [ends_bind, ends_pure]
      exact (splitGlued_ends (.follows hleft hoperator)).self.imp fun a v =>
        .alone hleft hoperator
    · simp only [ends_bind, ends_peek, ends_ite, ends_pure]
      split
      · rename_i hinside
        refine ends_lexeme (name_ends g.letters u) fun rest v hrest => ?_
        have hname : left.name?.isSome = true := by
          simp only [isInsideWord, Bool.and_eq_true] at hinside
          exact hinside.1.1.1
        obtain ⟨w, hw⟩ := Option.isSome_iff_exists.mp hname
        rw [hw, Option.getD_some]
        exact .word hleft hw hoperator hinside hrest
      · rename_i hinside
        rw [ends_require]
        refine ends_call (.right hleft hoperator) fun b v hright => ?_
        cases b with
        | none => exact .own (by rintro ⟨⟩)
        | some right =>
          exact ends_call (.operators hleft hoperator hright) fun c w =>
            .operators hleft hoperator (Bool.of_not_eq_true hinside) hright

theorem expression_ends (s : State) :
    (expression g rules s).Ends (ExpressionBy g rules s) (FailsBy g rules .expression s)
      (Waits g rules .expression s) := by
  unfold expression
  rw [ends_bind]
  refine (binary_ends s).self.imp fun a t hbinary => ?_
  cases a with
  | none => exact .nothing hbinary
  | some test =>
    simp only [ends_bind, ends_skipBlanks, ends_eat]
    split
    · rename_i hquestion
      simp only [ite_true, ends_bind, ends_setInBranch, ends_require, ends_skipBlanks, ends_expect,
        ends_pure]
      refine ends_call (.consequent hbinary hquestion) fun b u hb => ?_
      cases b with
      | none => exact .own (by rintro ⟨⟩)
      | some consequent =>
        simp only
        split
        · rename_i hcolon
          refine ends_call (.alternate hbinary hquestion hb hcolon) fun c v hc => ?_
          cases c with
          | none => exact .own (by rintro ⟨⟩)
          | some alternate => exact .conditional hbinary hquestion hb hcolon hc
        · exact .own (by rintro ⟨⟩)
    · rename_i hquestion
      exact .alone hbinary hquestion

theorem statements_ends (s : State) :
    (statements rules s).Ends (StatementsBy rules s) (FailsBy g rules .statements s)
      (Waits g rules .statements s) := by
  unfold statements
  simp only [ends_bind, ends_peek]
  cases hpeek : s.cursor.peek? with
  | none => exact .nothing hpeek
  | some c =>
    simp only [ends_ite, ends_bind, ends_advance]
    split
    · rename_i hc
      exact ends_call (.separated hpeek) fun ns t => .separator hpeek hc
    · rename_i hc
      refine ends_call (.statement s) fun a t hexpression => ?_
      cases a with
      | none =>
        simp only [ends_bind, ends_peek]
        cases hend : t.cursor.peek? with
        | none => exact .blanks hpeek hc hexpression hend
        | some c => exact .own (by rintro ⟨⟩)
      | some n =>
        simp only [ends_bind, ends_pure]
        exact ends_call (.moreStatements hexpression) fun ns u =>
          .expression hpeek hc hexpression

/-- With the rules for its parts, a rule comes to its answer in one of the ways that are listed, and
calls rules as listed. -/
theorem round_ends (r : Rule) (s : State) :
    (round g rules r s).Ends (AnswerBy g rules r s) (FailsBy g rules r s) (Waits g rules r s) := by
  cases r with
  | expression => exact expression_ends s
  | operand => exact operand_ends s
  | primary => exact primary_ends s
  | links head => exact links_ends head s
  | items b => exact items_ends b s
  | chain stack => exact chain_ends stack s
  | pairs keys => exact pairs_ends keys s
  | statements => exact statements_ends s

end

theorem operand_cases {a : Option Node} (h : operand g rules s = .done a t) :
    OperandBy g rules { s with cursor := s.cursor.skipBlanks } a t :=
  (operand_ends s).of_done h

theorem binary_cases {a : Option Node} (h : binary g rules s = .done a t) :
    BinaryBy g rules { s with cursor := s.cursor.skipBlanks } a t :=
  (binary_ends s).of_done h

theorem expression_cases {a : Option Node} (h : expression g rules s = .done a t) :
    ExpressionBy g rules s a t :=
  (expression_ends s).of_done h

theorem pairs_cases {keys found : Keyed (Entry Node)} (h : pairs g rules keys s = .done found t) :
    PairsBy g rules keys (afterComma s) found t :=
  (pairs_ends keys s).of_done h

theorem waits_of_unfinished {r : Rule} {n : Nat} (h : run g (n + 1) r s = .unfinished) :
    Waits g (run g n) r s :=
  (round_ends r s).of_unfinished h

theorem failsBy_of_failed {r : Rule} {n : Nat} {e : ParseError}
    (h : run g (n + 1) r s = .failed e) : FailsBy g (run g n) r s e :=
  (round_ends r s).of_failed h

/-- All answers of the rules satisfy a condition. -/
def Holds (P : (r : Rule) → State → r.Answer → State → Prop) (rules : Rules) : Prop :=
  ∀ ⦃r s a t⦄, rules r s = .done a t → P r s a t

/-- A condition on answers that passes from the answers which a rule is given to its own holds of
all answers, however many rounds there are. -/
theorem holds_run {P : (r : Rule) → State → r.Answer → State → Prop}
    (h : ∀ n, Holds P (run g n) → ∀ r s a t, AnswerBy g (run g n) r s a t → P r s a t) (n : Nat) :
    Holds P (run g n) := by
  induction n with
  | zero => rintro r s a t ⟨⟩
  | succ n ih => exact fun r s a t hdone => h n ih r s a t ((round_ends r s).of_done hdone)

end ExprTree.Origins
