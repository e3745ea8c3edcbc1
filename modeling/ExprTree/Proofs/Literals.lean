import ExprTree.Proofs.Decimals
import ExprTree.Proofs.Origins
import ExprTree.Proofs.QuotedTexts
import ExprTree.Proofs.Shapes
import ExprTree.Proofs.Stacks

/-!
The literals of the trees that a parse returns. `Spells` says of a value and a text, without a
reader of either, that the text is a spelling of the value: a decimal numeral, a text between quotes
with its escapes resolved, or a word. Every literal of a tree has such a spelling, whichever grammar
it was read in and wherever it stands, so its value is determined by its spelling.
-/

namespace ExprTree.Literals

open Parse Decimals Node QuotedText Lexemes Origins

/-- The text is a spelling of the value. -/
def Spells : LiteralValue → String → Prop
  | .number x, raw => IsDecimal raw.toList ∧ Numeral.read? raw.toList = some x
  | .string s, raw => ∃ quote, (quote = '"' ∨ quote = '\'') ∧ IsText quote s.toList raw.toList
  | .bool true, raw => raw = "true"
  | .bool false, raw => raw = "false"
  | .null, raw => raw = "null"

/-- All literals in a tree are spelled. -/
def Spelled (n : Node) : Prop :=
  ∀ value raw, .literal value raw ∈ n.parts → Spells value raw

section

variable {n : Node} {value : LiteralValue} {raw : String}

theorem spells_number {x : Binary64} (h : Numeral.read? raw.toList = some x) :
    Spells (.number x) raw :=
  ⟨isDecimal_iff.mpr (by rw [h]; rfl), h⟩

theorem spells_word (h : Grammar.wordLiteral? raw = some value) : Spells value raw := by
  unfold Grammar.wordLiteral? at h
  split at h
  · cases h
    assumption
  · split at h
    · cases h
      assumption
    · split at h
      · cases h
        assumption
      · cases h

/-- The value that a spelling determines. -/
def meaning? (raw : String) : Option LiteralValue :=
  match raw.toList with
  | '"' :: rest | '\'' :: rest => some (.string (String.ofList (decode rest.dropLast)))
  | _ =>
    match Grammar.wordLiteral? raw with
    | some value => some value
    | none => (Numeral.read? raw.toList).map .number

/-- A decimal numeral begins with a digit or a point. -/
theorem head_of_isDecimal {cs : List Char} (h : IsDecimal cs) :
    ∃ c rest, cs = c :: rest ∧ (c.isDigit = true ∨ c = '.') := by
  obtain ⟨mantissa, exponent, rfl, hmantissa, -⟩ := h
  cases hmantissa with
  | whole hds =>
    obtain ⟨d, ds, rfl⟩ := List.exists_cons_of_ne_nil hds.1
    exact ⟨d, ds ++ exponent, rfl, .inl (hds.2 d List.mem_cons_self)⟩
  | @point ds fs hds =>
    obtain ⟨d, ds, rfl⟩ := List.exists_cons_of_ne_nil hds.1
    exact ⟨d, ds ++ '.' :: fs ++ exponent, rfl, .inl (hds.2 d List.mem_cons_self)⟩
  | @fraction fs hfs => exact ⟨'.', fs ++ exponent, rfl, .inr rfl⟩

/-- The spelling of a number is no word that is a literal. -/
theorem wordLiteral?_of_isDecimal (h : IsDecimal raw.toList) :
    Grammar.wordLiteral? raw = none := by
  obtain ⟨c, rest, hraw, hc⟩ := head_of_isDecimal h
  have hne : ∀ w : String, (∃ d ds, w.toList = d :: ds ∧ d.isDigit = false ∧ d ≠ '.') →
      raw ≠ w := by
    intro w hw heq
    obtain ⟨d, ds, hd, hdigit, hpoint⟩ := hw
    rw [heq, hd, List.cons.injEq] at hraw
    obtain ⟨rfl, -⟩ := hraw
    rcases hc with hc | hc
    · rw [hdigit] at hc
      cases hc
    · exact hpoint hc
  rw [Grammar.wordLiteral?, if_neg (hne _ ⟨_, _, rfl, by decide, by decide⟩),
    if_neg (hne _ ⟨_, _, rfl, by decide, by decide⟩),
    if_neg (hne _ ⟨_, _, rfl, by decide, by decide⟩)]

theorem meaning?_of_spells (h : Spells value raw) : meaning? raw = some value := by
  cases value with
  | number x =>
    obtain ⟨hdecimal, hvalue⟩ := h
    obtain ⟨c, rest, hraw, hc⟩ := head_of_isDecimal hdecimal
    unfold meaning?
    split
    · rename_i hquote
      rw [hraw, List.cons.injEq] at hquote
      obtain ⟨rfl, -⟩ := hquote
      rcases hc with hc | hc <;> cases hc
    · rename_i hquote
      rw [hraw, List.cons.injEq] at hquote
      obtain ⟨rfl, -⟩ := hquote
      rcases hc with hc | hc <;> cases hc
    · rw [wordLiteral?_of_isDecimal hdecimal, hvalue]
      rfl
  | string s =>
    obtain ⟨quote, hquote, body, hraw, -, hvalue⟩ := h
    have hbody : (body ++ [quote]).dropLast = body := List.dropLast_concat
    unfold meaning?
    rw [hraw]
    rcases hquote with rfl | rfl <;>
      simp only [hbody, ← hvalue, String.ofList_toList]
  | bool b => cases b <;> (rw [show raw = _ from h]; decide)
  | null => rw [show raw = _ from h]; decide

theorem spelled_iff : Spelled n ↔
    (∀ value raw, n = .literal value raw → Spells value raw) ∧ ∀ c ∈ n.children, Spelled c := by
  have hparts := forall_parts_iff (n := n)
    (p := fun m => ∀ value raw, m = .literal value raw → Spells value raw)
  have hsame : ∀ m : Node, Spelled m ↔
      ∀ k ∈ m.parts, ∀ value raw, k = .literal value raw → Spells value raw := by
    intro m
    constructor
    · rintro h k hk value raw rfl
      exact h value raw hk
    · intro h value raw hmem
      exact h _ hmem value raw rfl
  simp only [hsame]
  exact hparts

theorem spelled_literal (h : Spells value raw) : Spelled (.literal value raw) := by
  refine spelled_iff.mpr ⟨?_, List.forall_mem_nil _⟩
  rintro _ _ ⟨⟩
  exact h

/-- A tree that is no literal itself is spelled if its children are. -/
theorem spelled_of_children (hn : ∀ value raw, n ≠ .literal value raw)
    (h : ∀ c ∈ n.children, Spelled c) : Spelled n :=
  spelled_iff.mpr ⟨fun value raw heq => absurd heq (hn value raw), h⟩

theorem spelled_plain (w : String) : Spelled (plain w) :=
  spelled_of_children (by rintro _ _ ⟨⟩) (List.forall_mem_nil _)

theorem spelled_wordNode (g : Grammar) (w : String) : Spelled (g.wordNode w) := by
  unfold Grammar.wordNode
  split
  · exact spelled_literal (spells_word ‹_›)
  · split
    · exact spelled_of_children (by rintro _ _ ⟨⟩) (List.forall_mem_nil _)
    · exact spelled_plain w

theorem spelled_joined (name base suffix : String) :
    Spelled (.identifier name (some (plain base)) (some (plain suffix))) := by
  refine spelled_of_children (by rintro _ _ ⟨⟩) ?_
  simp [children, spelled_plain]

theorem spelled_ofOperator {operator : String} {left right : Node} (hleft : Spelled left)
    (hright : Spelled right) : Spelled (.ofOperator operator left right) := by
  unfold Node.ofOperator
  split <;> exact spelled_of_children (by rintro _ _ ⟨⟩) (by simp [children, hleft, hright])

end

/-- The values of named arguments are spelled. -/
def SpelledKeys (keys : Keyed (Entry Node)) : Prop :=
  ∀ k ∈ keys, ∀ v ∈ k.2.values, Spelled v

theorem spelledKeys_addValue {keys : Keyed (Entry Node)} {key : String} {value : Node}
    (hkeys : SpelledKeys keys) (hvalue : Spelled value) :
    SpelledKeys (addValue keys key value) := by
  intro k hk v hv
  rcases Shapes.mem_values_addValue hk hv with rfl | ⟨k', hk', hv'⟩
  · exact hvalue
  · exact hkeys k' hk' v hv'

theorem spelled_keyValues {keys : Keyed (Entry Node)} (h : SpelledKeys keys) :
    Spelled (.keyValues keys) := by
  refine spelled_of_children (by rintro _ _ ⟨⟩) fun c hc => ?_
  obtain ⟨k, hk, hv⟩ := List.mem_flatMap.mp hc
  exact h k hk c hv

/-- The operands of a stack are spelled. -/
def SpelledStack (stack : OperatorStack) : Prop :=
  ∀ n ∈ stack.operands, Spelled n

theorem spelledStack_carried : OperatorStack.Carried SpelledStack := by
  intro right left operands operator precedence operators h
  simp only [SpelledStack, List.forall_mem_cons] at h ⊢
  exact ⟨spelled_ofOperator h.2.1 h.1, h.2.2⟩

/-- What a rule gives is spelled, given that what it was handed is. -/
def Answered : (r : Rule) → r.Answer → Prop
  | .expression, a => ∀ n ∈ a, Spelled n
  | .operand, a => ∀ n ∈ a, Spelled n
  | .primary, .node n => Spelled n
  | .primary, .pair _ value => Spelled value
  | .links head, a => Spelled head → Spelled a
  | .items _, a => ∀ n ∈ a, Spelled n
  | .chain stack, a => stack.Whole → SpelledStack stack → ∀ n ∈ a, Spelled n
  | .pairs keys, a => SpelledKeys keys → SpelledKeys a
  | .statements, a => ∀ n ∈ a, Spelled n

/-- All answers of the rules are spelled. -/
abbrev SpelledRules (rules : Rules) : Prop :=
  Holds (fun r _ a _ => Answered r a) rules

section

variable {g : Grammar} {rules : Rules} {s t : State} {n : Node}

theorem spelled_numeral {l : Letters} (h : numeral l s = .done n t) : Spelled n := by
  cases (numeral_ends l s).of_done h with
  | @number m hm hcomplete =>
    have hm : WellFormed m := hm ▸ wellFormed_munch s.cursor.ahead
    refine spelled_literal (spells_number ?_)
    rw [String.toList_ofList]
    exact read?_eq_some_iff.mpr ⟨m, hm, hcomplete, rfl, rfl⟩
  | name => exact spelled_plain _

/-- A quoted text means what its spelling says, and its quote is the character ahead. -/
theorem isText_of_quotation {value raw : String} (h : quotation s = .done (value, raw) t) :
    ∃ quote, s.cursor.peek? = some quote ∧ IsText quote value.toList raw.toList := by
  cases (quotation_ends s).of_done h with
  | @closed quote rest hahead hclosed =>
    refine ⟨quote, by rw [Cursor.peek?, hahead, List.head?_cons], ?_⟩
    rw [String.toList_ofList, String.toList_ofList]
    exact isText_scan hclosed

theorem spelled_quotation {c : Char} {value raw : String} (hpeek : s.cursor.peek? = some c)
    (hc : c = '"' ∨ c = '\'') (h : quotation s = .done (value, raw) t) :
    Spelled (.literal (.string value) raw) := by
  obtain ⟨quote, hquote, htext⟩ := isText_of_quotation h
  obtain rfl : c = quote := Option.some.inj (hpeek.symm.trans hquote)
  exact spelled_literal ⟨c, hc, htext⟩

theorem spelled_joinName {l : Letters} {m : Node} (hn : Spelled n)
    (h : joinName l n s = .done m t) : Spelled m := by
  cases (joinName_ends l n s).of_done h with
  | alone => exact hn
  | joined => exact spelled_joined _ _ _

theorem spelled_joinableText {l : Letters} (hpeek : s.cursor.peek? = some '\'')
    (h : joinableText l s = .done n t) : Spelled n := by
  cases (joinableText_ends l s).of_done h with
  | alone htext => exact spelled_quotation hpeek (.inr rfl) htext
  | joined => exact spelled_joined _ _ _

theorem answered_head (h : SpelledRules rules) {x : Term} (hx : HeadBy g rules s x t) :
    Answered .primary x := by
  cases hx with
  | word => exact spelled_wordNode g _
  | pair hparen hname hequals hvalue => exact h hvalue _ rfl
  | group hopen hinside hclose => exact h hinside _ rfl

theorem answered_primary (h : SpelledRules rules) {x : Term} (hx : PrimaryBy g rules s x t) :
    Answered .primary x := by
  cases hx with
  | pair hhead => exact answered_head h hhead
  | linked hhead hlinks => exact h hlinks (answered_head h hhead)

theorem spelled_link (h : SpelledRules rules) {head : Node} (hlink : LinkBy g rules head s n t)
    (hhead : Spelled head) : Spelled n := by
  cases hlink with
  | property =>
    exact spelled_of_children (by rintro _ _ ⟨⟩) (by simp [children, hhead, spelled_plain])
  | subscript hopen hinside hclose =>
    have hproperty := h hinside _ rfl
    exact spelled_of_children (by rintro _ _ ⟨⟩) (by simp [children, hhead, hproperty])
  | call hopen hitems =>
    exact spelled_of_children (by rintro _ _ ⟨⟩) (List.forall_mem_cons.mpr ⟨hhead, h hitems⟩)

theorem spelled_links (h : SpelledRules rules) {head : Node} (hn : LinksBy g rules head s n t)
    (hhead : Spelled head) : Spelled n := by
  cases hn with
  | last => exact hhead
  | next hlink hlinks => exact h hlinks (spelled_link h hlink hhead)

theorem spelled_items (h : SpelledRules rules) {b : Bracket} {ns : List Node}
    (hns : ItemsBy rules b s ns t) : ∀ n ∈ ns, Spelled n := by
  cases hns with
  | close => exact List.forall_mem_nil _
  | comma hcomma hitems => exact h hitems
  | item hpeek hc hitem hn hitems => exact List.forall_mem_cons.mpr ⟨h hitem _ rfl, h hitems⟩

theorem spelled_pairs (h : SpelledRules rules) {keys found : Keyed (Entry Node)}
    (hfound : PairsBy g rules keys s found t) (hkeys : SpelledKeys keys) : SpelledKeys found := by
  cases hfound with
  | nothing => exact hkeys
  | other => exact hkeys
  | pair hpeek hprimary hpairs => exact h hpairs (spelledKeys_addValue hkeys (h hprimary))

theorem answered_term (h : SpelledRules rules) {x : Term} (hx : TermBy g rules s x t) :
    Answered .primary x := by
  cases hx with
  | again hnumeral hprimary => exact h hprimary
  | pair hprimary => exact h hprimary
  | node hprimary hjoin => exact spelled_joinName (h hprimary) hjoin

theorem spelled_unary {operator : String} (hn : Spelled n) : Spelled (.unary operator n true) :=
  spelled_of_children (by rintro _ _ ⟨⟩) (by simp [children, hn])

/-- A word that is a number where digits are characters of names is a decimal numeral. -/
theorem spelled_ofTerm (h : SpelledRules rules) {x : Term} (hx : Answered .primary x)
    (hn : OfTermBy g rules s x n t) : Spelled n := by
  cases hn with
  | pairs hpairs =>
    exact spelled_keyValues (h hpairs (spelledKeys_addValue (List.forall_mem_nil _) hx))
  | operator hw hargument => exact spelled_unary (h hargument _ rfl)
  | number hw hread => exact spelled_literal (spells_number hread)
  | whole => exact hx

theorem spelled_operand (h : SpelledRules rules) {a : Option Node}
    (ha : OperandBy g rules { s with cursor := s.cursor.skipBlanks } a t) :
    ∀ n ∈ a, Spelled n := by
  cases ha with
  | nothing => exact nofun
  | numeral hpeek hc hnumeral =>
    rcases (numeralOperand_ends hpeek).of_done hnumeral with hnumeral | ⟨x, u, hx, hn⟩
    · exact forall_mem_some (spelled_numeral hnumeral)
    · exact forall_mem_some (spelled_ofTerm h (answered_term h hx) hn)
  | joinable hpeek htext => exact forall_mem_some (spelled_joinableText hpeek htext)
  | text hpeek htext => exact forall_mem_some (spelled_quotation hpeek (.inl rfl) htext)
  | primary hpeek hc hprimary =>
    obtain ⟨x, u, hx, hn⟩ := (primaryOperand_ends hpeek hc).of_done hprimary
    exact forall_mem_some (spelled_ofTerm h (answered_term h hx) hn)
  | array hpeek hitems =>
    exact forall_mem_some (spelled_of_children (by rintro _ _ ⟨⟩) (h hitems))
  | operator hpeek hc hoperator =>
    cases (leadingOperator_ends s).of_done hoperator with
    | nothing => exact nofun
    | operator hop hargument => exact forall_mem_some (spelled_unary (h hargument _ rfl))

theorem spelled_chain (h : SpelledRules rules) {stack : OperatorStack} {a : Option Node}
    (ha : ChainBy g rules stack s a t) : Answered (.chain stack) a := by
  intro hwhole hstack
  cases ha with
  | finish =>
    obtain ⟨n, hn, hlast⟩ := spelledStack_carried.finish hwhole hstack
    rw [hn]
    exact forall_mem_some (hlast n List.mem_cons_self)
  | @operand operator precedence right _ _ _ _ hoperator hpositive hright hchain =>
    obtain ⟨hwhole', hreduced⟩ := spelledStack_carried.reduceFor hwhole hstack precedence
    exact h hchain (OperatorStack.whole_push hwhole' operator precedence right)
      (List.forall_mem_cons.mpr ⟨h hright _ rfl, hreduced⟩)

theorem spelled_binary (h : SpelledRules rules) {a : Option Node}
    (ha : Parse.binary g rules s = .done a t) : ∀ n ∈ a, Spelled n := by
  cases binary_cases ha with
  | nothing => exact nofun
  | alone hleft hoperator hsplit =>
    rcases splitGlued_cases hsplit with ⟨rfl, -⟩ | ⟨test, -, rfl, -⟩
    · exact h hleft
    · exact forall_mem_some (spelled_plain _)
  | word => exact forall_mem_some (spelled_plain _)
  | @operators left right _ operator precedence _ _ _ _ hleft hoperator hinside hright hchain =>
    refine h hchain (OperatorStack.whole_start left operator precedence right) ?_
    simp [SpelledStack, OperatorStack.start, h hleft left rfl, h hright right rfl]

theorem spelled_expression (h : SpelledRules rules) {a : Option Node}
    (ha : ExpressionBy g rules s a t) : ∀ n ∈ a, Spelled n := by
  cases ha with
  | nothing => exact nofun
  | alone hbinary => exact spelled_binary h hbinary
  | conditional hbinary hquestion hconsequent hcolon halternate =>
    have htest := spelled_binary h hbinary _ rfl
    have hconsequent := h hconsequent _ rfl
    have halternate := h halternate _ rfl
    refine forall_mem_some (spelled_of_children (by rintro _ _ ⟨⟩) ?_)
    simp [children, htest, hconsequent, halternate]

theorem spelled_statements (h : SpelledRules rules) {ns : List Node}
    (hns : StatementsBy rules s ns t) : ∀ n ∈ ns, Spelled n := by
  cases hns with
  | nothing => exact List.forall_mem_nil _
  | separator hpeek hc hrest => exact h hrest
  | blanks => exact List.forall_mem_nil _
  | expression hpeek hc hexpression hrest =>
    exact List.forall_mem_cons.mpr ⟨h hexpression _ rfl, h hrest⟩

/-- In any number of rounds every rule gives trees whose literals are spelled. -/
theorem answered_run (g : Grammar) (rounds : Nat) : SpelledRules (run g rounds) := by
  refine holds_run (fun n h r s a t ha => ?_) rounds
  cases r with
  | expression => exact spelled_expression h ha
  | operand => exact spelled_operand h ha
  | primary => exact answered_primary h ha
  | links head => exact spelled_links h ha
  | items b => exact spelled_items h ha
  | chain stack => exact spelled_chain h ha
  | pairs keys => exact spelled_pairs h ha
  | statements => exact spelled_statements h ha

end

theorem spelled_of_parse {g : Grammar} {source : String} {t : Node} (h : g.parse source = .ok t) :
    Spelled t := by
  obtain ⟨ns, u, hrun, rfl⟩ := exists_statements_of_parse h
  have hns : ∀ n ∈ ns, Spelled n := answered_run g _ hrun
  unfold Node.ofStatements
  split
  · exact hns _ List.mem_cons_self
  · exact spelled_of_children (by rintro _ _ ⟨⟩) hns

/-- Every literal in the tree of a source is spelled by its text: a number by a decimal numeral,
which is what its value is read from, a text between quotes by its characters and escapes, and a
truth value or `null` by its word. Exactly the decimal numerals stand for numbers, so the reading
of one cannot fail, and no text is a spelling of two values. -/
theorem spells_of_mem_parts (g : Grammar) (source : String) (t : Node)
    (h : g.parse source = .ok t) :
    (∀ value raw, .literal value raw ∈ t.parts → Spells value raw) ∧
    (∀ cs, IsDecimal cs ↔ (Numeral.read? cs).isSome = true) ∧
    ∀ raw value value', Spells value raw → Spells value' raw → value = value' := by
  refine ⟨spelled_of_parse h, fun cs => isDecimal_iff, fun raw value value' hv hv' => ?_⟩
  exact Option.some.inj ((meaning?_of_spells hv).symm.trans (meaning?_of_spells hv'))

/-- A name that digits between names made a numeral, beside a fraction, a text with an escaped
quote and all letters that stand for control characters, and a word. -/
theorem spells_of_mem_parts_merged_numeral :
    let g := (Grammar.standard.addLetters "13").addBinary "5" 2
    let text : LiteralValue := .string "it's\n\r\t\x08\x0c\x0b\\z"
    let t : Node := .array [.literal (.number (.ofDecimal 1 53)) "1e53",
      .literal (.number (.ofDecimal 5 (-1))) ".5",
      .literal text "'it\\'s\\n\\r\\t\\b\\f\\v\\\\\\z'", .literal .null "null"]
    g.parse "[((1e)53), .5, 'it\\'s\\n\\r\\t\\b\\f\\v\\\\\\z', null]" = .ok t ∧
      ∀ value raw, .literal value raw ∈ t.parts → Spells value raw := by
  intro g text t
  have hparse : g.parse "[((1e)53), .5, 'it\\'s\\n\\r\\t\\b\\f\\v\\\\\\z', null]" = .ok t := by
    decide +kernel
  exact ⟨hparse, (spells_of_mem_parts g _ t hparse).1⟩

end ExprTree.Literals
