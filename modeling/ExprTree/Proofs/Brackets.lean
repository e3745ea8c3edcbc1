import ExprTree.Proofs.Accounting
import Mathlib.Data.List.TakeWhile

/-!
Only sources with balanced brackets have trees. In the standard grammar, and in a text without
single quotes, a rule passes brackets that are well nested among themselves and only whole
double-quoted texts; the rule for the items of a list passes the bracket that closes it besides. So
what is read up to the end of a source is balanced. The look at one named argument too many is taken
back, and then only what came before it has been passed.
-/

namespace ExprTree.Brackets

open Parse Standard Lexemes Origins

open Accounting (Side)

/-- The brackets, opening and closing ones. -/
def brackets : List Char :=
  ['(', ')', '[', ']']

/-- The brackets of a text from left to right, without those in double-quoted texts. Nothing if one
of these texts is not closed. -/
def outline : Side → List Char → Option (List Char)
  | .outside, [] => some []
  | .inside, [] => none
  | .escaped, [] => none
  | .outside, c :: cs =>
    if c = '"' then outline .inside cs
    else if c ∈ brackets then (outline .outside cs).map (c :: ·)
    else outline .outside cs
  | .inside, c :: cs =>
    outline (if c = '"' then .outside else if c = '\\' then .escaped else .inside) cs
  | .escaped, _ :: cs => outline .inside cs

/-- Brackets of which each opening one is closed by one of its kind, and what is between the two is
well nested itself. -/
inductive Nested : List Char → Prop
  | nil : Nested []
  | wrap (b : Bracket) {xs ys : List Char} :
      Nested xs → Nested ys → Nested (b.opening :: (xs ++ b.closing :: ys))

theorem Nested.append {xs ys : List Char} (hxs : Nested xs) (hys : Nested ys) :
    Nested (xs ++ ys) := by
  induction hxs with
  | nil => exact hys
  | @wrap b inner rest hinner _ _ ih =>
    rw [List.cons_append, List.append_assoc, List.cons_append]
    exact .wrap b hinner ih

/-- From one place of a text to another the brackets `bs` are passed, and no part of a quoted
text. -/
def Passing (bs : List Char) (c d : Cursor) : Prop :=
  d.text = c.text ∧ outline .outside c.ahead = (outline .outside d.ahead).map (bs ++ ·)

/-- The brackets that are passed are well nested. -/
def Even (c d : Cursor) : Prop :=
  ∃ bs, Nested bs ∧ Passing bs c d

/-- The brackets that are passed are well nested up to the last one, which closes a list. -/
def Closes (b : Bracket) (c d : Cursor) : Prop :=
  ∃ bs, Nested bs ∧ Passing (bs ++ [b.closing]) c d

section

variable {c d e : Cursor} {bs bs' : List Char} {b : Bracket}

theorem Passing.trans (h : Passing bs c d) (h' : Passing bs' d e) : Passing (bs ++ bs') c e := by
  refine ⟨h'.1.trans h.1, ?_⟩
  rw [h.2, h'.2, Option.map_map]
  congr 1
  funext rest
  exact (List.append_assoc bs bs' rest).symm

theorem Even.text (h : Even c d) : d.text = c.text := by
  obtain ⟨_, -, htext, -⟩ := h
  exact htext

theorem Even.unquoted (h : Even c d) (hquote : '\'' ∉ c.text) : '\'' ∉ d.text :=
  h.text ▸ hquote

theorem even_of_outline (htext : d.text = c.text)
    (h : outline .outside c.ahead = outline .outside d.ahead) : Even c d :=
  ⟨[], .nil, htext, by simp [h]⟩

theorem Even.refl (c : Cursor) : Even c c :=
  even_of_outline rfl rfl

theorem Even.trans (h : Even c d) (h' : Even d e) : Even c e := by
  obtain ⟨bs, hbs, hpass⟩ := h
  obtain ⟨bs', hbs', hpass'⟩ := h'
  exact ⟨bs ++ bs', hbs.append hbs', hpass.trans hpass'⟩

theorem Even.closes (h : Even c d) (h' : Closes b d e) : Closes b c e := by
  obtain ⟨bs, hbs, hpass⟩ := h
  obtain ⟨bs', hbs', hpass'⟩ := h'
  refine ⟨bs ++ bs', hbs.append hbs', ?_⟩
  rw [List.append_assoc]
  exact hpass.trans hpass'

theorem opening_mem (b : Bracket) : b.opening ∈ brackets ∧ b.opening ≠ '"' := by
  cases b <;> decide

theorem closing_mem (b : Bracket) : b.closing ∈ brackets ∧ b.closing ≠ '"' := by
  cases b <;> decide

theorem passing_bracket {x : Char} (hx : c.peek? = some x) (hbracket : x ∈ brackets ∧ x ≠ '"') :
    Passing [x] c (c.advance 1) := by
  obtain ⟨rest, hrest⟩ := List.head?_eq_some_iff.mp hx
  refine ⟨c.text_advance 1, ?_⟩
  rw [Cursor.ahead_advance, hrest, outline, if_neg hbracket.2, if_pos hbracket.1]
  rfl

/-- The bracket that closes a list. -/
theorem closes_of_peek? (hclose : c.peek? = some b.closing) : Closes b c (c.advance 1) :=
  ⟨[], .nil, passing_bracket hclose (closing_mem b)⟩

/-- A list that is closed, with the bracket that opens it. -/
theorem Closes.open (hopen : c.peek? = some b.opening) (h : Closes b (c.advance 1) d) :
    Even c d := by
  obtain ⟨bs, hbs, hpass⟩ := h
  refine ⟨b.opening :: (bs ++ [b.closing]), .wrap b hbs .nil, ?_⟩
  exact (passing_bracket hopen (opening_mem b)).trans hpass

/-- What is between two brackets, with both of them. -/
theorem Even.wrap (hopen : c.peek? = some b.opening) (h : Even (c.advance 1) d)
    (hclose : d.peek? = some b.closing) : Even c (d.advance 1) :=
  (h.closes (closes_of_peek? hclose)).open hopen

end

section

variable {c : Cursor} {cs rest : List Char}

theorem outline_append (hcs : ∀ x ∈ cs, x ∉ '"' :: brackets) :
    outline .outside (cs ++ rest) = outline .outside rest := by
  induction cs with
  | nil => rfl
  | cons x cs ih =>
    obtain ⟨hx, hcs⟩ := List.forall_mem_cons.mp hcs
    rw [List.mem_cons, not_or] at hx
    rw [List.cons_append, outline, if_neg hx.1, if_neg hx.2, ih hcs]

/-- A quoted text is passed as a whole. -/
theorem outline_scan (hclosed : (Quotation.scan '"' cs).closed = true) :
    outline .inside cs = outline .outside (cs.drop (Quotation.scan '"' cs).raw.length) := by
  fun_induction Quotation.scan '"' cs with
  | case1 => cases hclosed
  | case2 cs => rfl
  | case3 => cases hclosed
  | case4 e cs _ _ ih => exact ih hclosed
  | case5 c cs hquote hslash _ ih =>
    rw [outline, if_neg hquote, if_neg hslash, ih hclosed]
    rfl

theorem even_prefix (hcs : cs <+: c.ahead) (hplain : ∀ x ∈ cs, x ∉ '"' :: brackets) :
    Even c (c.advance cs.length) := by
  obtain ⟨rest, hrest⟩ := hcs
  refine even_of_outline (c.text_advance _) ?_
  rw [Cursor.ahead_advance, ← hrest, List.drop_left, outline_append hplain]

theorem even_char {x : Char} (hx : c.peek? = some x) (hplain : x ∉ '"' :: brackets) :
    Even c (c.advance 1) := by
  obtain ⟨rest, hrest⟩ := List.head?_eq_some_iff.mp hx
  have hbegins : [x] <+: c.ahead := ⟨rest, hrest.symm⟩
  exact even_prefix hbegins (by simpa using hplain)

theorem even_skipBlanks (c : Cursor) : Even c c.skipBlanks := by
  refine even_prefix (List.takeWhile_prefix isBlank) fun x hx => ?_
  have hblank : x = ' ' ∨ x = '\t' := by simpa [isBlank] using List.mem_takeWhile_imp hx
  rcases hblank with rfl | rfl <;> decide

theorem Even.skip {d : Cursor} (h : Even c d) : Even c d.skipBlanks :=
  h.trans (even_skipBlanks d)

/-- A character that is to be found in a tree, a point or a blank is no bracket. -/
theorem not_bracket {x : Char} (hx : x ∉ '"' :: Accounting.silent ∨ x = '.') :
    x ∉ '"' :: brackets := by
  have hall : ∀ y ∈ '"' :: brackets, y ∈ '"' :: Accounting.silent ∧ y ≠ '.' :=
    forall_mem_of_all (by decide)
  intro hbracket
  obtain ⟨hsilent, hpoint⟩ := hall x hbracket
  rcases hx with hx | hx
  · exact hx hsilent
  · exact hpoint hx

theorem not_bracket_of_isPart {x : Char} (hx : letters.isPart x = true) : x ∉ '"' :: brackets :=
  not_bracket (.inl (Accounting.not_mem_of_isPart hx))

theorem even_operator {operator : String} {n : Nat} (hbegins : operator.toList <+: c.ahead.take n)
    (hplain : operator.toList.all (fun x => decide (x ∉ '"' :: brackets)) = true) :
    Even c (c.advance operator.length) := by
  rw [← String.length_toList]
  exact even_prefix (hbegins.trans (List.take_prefix n c.ahead)) (forall_mem_of_all hplain)

theorem even_unaryAt? {operator : String} {n : Nat}
    (h : OperatorTable.standard.unaryAt? (c.ahead.take n) = some operator) :
    Even c (c.advance operator.length) := by
  have hunary : OperatorTable.standard.unary = OperatorTable.standardUnary := by decide +kernel
  have hall : ∀ o ∈ OperatorTable.standardUnary,
      o.toList.all (fun x => decide (x ∉ '"' :: brackets)) = true := by decide +kernel
  obtain ⟨hregistered, hbegins⟩ := OperatorTable.unaryAt?_spec h
  rw [OperatorTable.isUnary, hunary, List.contains_iff_mem] at hregistered
  exact even_operator hbegins (hall _ hregistered)

variable {s t : State}

theorem even_name {w : String} (h : name letters s = .done w t) : Even s.cursor t.cursor := by
  obtain ⟨-, -, -, -, rfl⟩ := name_cases h
  exact even_prefix (List.takeWhile_prefix _) fun x hx =>
    not_bracket_of_isPart (List.all_eq_true.mp List.all_takeWhile x hx)

theorem even_quotation {p : String × String} (hpeek : s.cursor.peek? = some '"')
    (h : quotation s = .done p t) : Even s.cursor t.cursor := by
  cases (quotation_ends s).of_done h with
  | @closed quote rest hahead hclosed =>
    obtain rfl : quote = '"' := by simpa [Cursor.peek?, hahead] using hpeek
    refine even_of_outline (s.cursor.text_advance _) ?_
    rw [Cursor.ahead_advance, hahead, List.drop_succ_cons, outline, if_pos rfl,
      outline_scan hclosed]

theorem even_munch (c : Cursor) : Even c (c.advance (Numeral.munch c.ahead).1.text.length) := by
  refine even_prefix ⟨_, Numeral.text_munch c.ahead⟩ fun x hx => ?_
  have hsigns : ∀ y ∈ ['+', '-', '.'], y ∉ '"' :: brackets := forall_mem_of_all (by decide)
  rcases Accounting.isNumeric_of_munch c.ahead x hx with hpart | hsign
  · exact not_bracket_of_isPart hpart
  · exact hsigns x hsign

theorem even_numeral {n : Node} (h : numeral letters s = .done n t) : Even s.cursor t.cursor := by
  have hmunch := even_munch s.cursor
  cases (numeral_ends letters s).of_done h with
  | number hn => exact hn ▸ hmunch
  | name hn hall hname => exact (hn ▸ hmunch).trans (even_name hname)

theorem even_joinName {n m : Node} (h : joinName letters n s = .done m t) :
    Even s.cursor t.cursor := by
  cases (joinName_ends letters n s).of_done h with
  | alone => exact .refl _
  | joined hfollows hname =>
    exact (even_char (peek_of_joinFollows hfollows) (by decide)).trans (even_name hname)

theorem even_binaryOperator {o : Option (String × Int)}
    (h : binaryOperator .standard s = .done o t) : Even s.cursor t.cursor := by
  have hall : ∀ o ∈ OperatorTable.standardBinary,
      o.1.toList.all (fun x => decide (x ∉ '"' :: brackets)) = true := by decide +kernel
  cases (binaryOperator_ends .standard s).of_done h with
  | nothing => exact even_skipBlanks _
  | operator hop =>
    obtain ⟨hprecedence, hbegins⟩ := OperatorTable.binaryAt?_spec hop
    exact (even_skipBlanks _).trans
      (even_operator hbegins (hall _ (mem_of_precedence? hprecedence)))

theorem even_afterComma (s : State) : Even s.cursor (afterComma s).cursor := by
  unfold afterComma
  split
  · rename_i hcomma
    exact ((even_skipBlanks _).trans (even_char hcomma (by decide))).skip
  · exact (even_skipBlanks _).skip

end

/-- How the brackets are that a rule passes. -/
def Moves : Rule → Cursor → Cursor → Prop
  | .items b, c, d => Closes b c d
  | .statements, c, d => Even c d ∧ d.ahead = []
  | _, c, d => Even c d

/-- In a text without single quotes a rule passes brackets as it should. -/
def Keeps (r : Rule) (s : State) (_ : r.Answer) (t : State) : Prop :=
  '\'' ∉ s.cursor.text → Moves r s.cursor t.cursor

section

variable {rules : Rules} {s t : State} {n : Node}

theorem even_head (h : Holds Keeps rules) (hquote : '\'' ∉ s.cursor.text) {x : Term}
    (hx : HeadBy .standard rules s x t) : Even s.cursor t.cursor := by
  cases hx with
  | word hparen hname => exact even_name hname
  | pair hparen hname hequals hvalue =>
    have hsign := (even_name hname).trans (even_char hequals.1 (by decide))
    exact hsign.trans (h hvalue (hsign.unquoted hquote))
  | group hopen hinside hclose =>
    have hafter : '\'' ∉ (s.cursor.advance 1).text := by rwa [Cursor.text_advance]
    have hgroup : Even (s.cursor.advance 1) _ := h hinside hafter
    exact hgroup.skip.wrap (b := .round) hopen hclose

theorem even_primary (h : Holds Keeps rules) (hquote : '\'' ∉ s.cursor.text) {x : Term}
    (hx : PrimaryBy .standard rules s x t) : Even s.cursor t.cursor := by
  cases hx with
  | pair hhead => exact even_head h hquote hhead
  | linked hhead hlinks =>
    have hpassed := (even_head h hquote hhead).skip
    exact hpassed.trans (h hlinks (hpassed.unquoted hquote))

theorem even_link (h : Holds Keeps rules) (hquote : '\'' ∉ s.cursor.text) {head : Node}
    (hlink : LinkBy .standard rules head s n t) : Even s.cursor t.cursor := by
  have hafter : '\'' ∉ (s.cursor.advance 1).text := by rwa [Cursor.text_advance]
  cases hlink with
  | property hpoint hname =>
    exact ((even_char hpoint (by decide)).skip.trans (even_name hname)).skip
  | subscript hopen hinside hclose =>
    have hproperty : Even (s.cursor.advance 1) _ := h hinside hafter
    exact (hproperty.skip.wrap (b := .square) hopen hclose).skip
  | call hopen hitems =>
    have harguments : Closes .round (s.cursor.advance 1) _ := h hitems hafter
    exact (harguments.open hopen).skip

theorem even_links (h : Holds Keeps rules) (hquote : '\'' ∉ s.cursor.text) {head : Node}
    (hn : LinksBy .standard rules head s n t) : Even s.cursor t.cursor := by
  cases hn with
  | last => exact .refl _
  | next hlink hlinks =>
    have hpassed := even_link h hquote hlink
    exact hpassed.trans (h hlinks (hpassed.unquoted hquote))

theorem closes_items (h : Holds Keeps rules) (hquote : '\'' ∉ s.cursor.text) {b : Bracket}
    {ns : List Node} (hns : ItemsBy rules b s ns t) : Closes b s.cursor t.cursor := by
  cases hns with
  | close hclose => exact closes_of_peek? hclose
  | comma hcomma hitems =>
    have hpassed := even_char hcomma (by decide)
    exact hpassed.closes (h hitems (hpassed.unquoted hquote))
  | item hpeek hc hitem hn hitems =>
    have hpassed : Even _ _ := h hitem hquote
    exact hpassed.closes (h hitems (hpassed.unquoted hquote))

/-- What was read in search of one more named argument is not passed. -/
theorem even_pairs (h : Holds Keeps rules) (hquote : '\'' ∉ s.cursor.text)
    {keys found : Keyed (Entry Node)} (hkeys : PairsBy .standard rules keys s found t) :
    Even s.cursor t.cursor := by
  cases hkeys with
  | nothing => exact .refl _
  | other => exact .refl _
  | pair hpeek hprimary hpairs =>
    have hpassed : Even _ _ := h hprimary hquote
    exact hpassed.trans (h hpairs (hpassed.unquoted hquote))

theorem even_term (h : Holds Keeps rules) (hquote : '\'' ∉ s.cursor.text) {x : Term}
    (hx : TermBy .standard rules s x t) : Even s.cursor t.cursor := by
  cases hx with
  | again hnumeral hprimary => exact h hprimary hquote
  | pair hprimary => exact h hprimary hquote
  | node hprimary hjoin =>
    have hpassed : Even _ _ := h hprimary hquote
    exact hpassed.trans (even_joinName hjoin)

theorem even_ofTerm (h : Holds Keeps rules) (hquote : '\'' ∉ s.cursor.text) {x : Term}
    (hn : OfTermBy .standard rules s x n t) : Even s.cursor t.cursor := by
  cases hn with
  | pairs hpairs => exact h hpairs hquote
  | operator hw hargument => exact h hargument hquote
  | number => exact .refl _
  | whole => exact .refl _

theorem even_operand (h : Holds Keeps rules) (hquote : '\'' ∉ s.cursor.text) {a : Option Node}
    (ha : OperandBy .standard rules { s with cursor := s.cursor.skipBlanks } a t) :
    Even s.cursor.skipBlanks t.cursor := by
  have hskipped := (even_skipBlanks s.cursor).unquoted hquote
  have hterm : ∀ {x u} {n : Node},
      TermBy .standard rules { s with cursor := s.cursor.skipBlanks } x u →
      OfTermBy .standard rules u x n t → Even s.cursor.skipBlanks t.cursor := by
    intro x u n hx hn
    have hpassed := even_term h hskipped hx
    exact hpassed.trans (even_ofTerm h (hpassed.unquoted hskipped) hn)
  cases ha with
  | nothing => exact .refl _
  | numeral hpeek hc hnumeral =>
    rcases (numeralOperand_ends hpeek).of_done hnumeral with hnumeral | ⟨x, u, hx, hn⟩
    · exact even_numeral hnumeral
    · exact hterm hx hn
  | joinable hpeek => exact absurd (Accounting.mem_of_peek? hpeek) hskipped
  | text hpeek htext => exact even_quotation hpeek htext
  | primary hpeek hc hprimary =>
    obtain ⟨x, u, hx, hn⟩ := (primaryOperand_ends hpeek hc).of_done hprimary
    exact hterm hx hn
  | array hpeek hitems =>
    have hafter : '\'' ∉ (s.cursor.skipBlanks.advance 1).text := by rwa [Cursor.text_advance]
    have helements : Closes .square (s.cursor.skipBlanks.advance 1) _ := h hitems hafter
    exact helements.open (b := .square) hpeek
  | operator hpeek hc hoperator =>
    cases (leadingOperator_ends s).of_done hoperator with
    | nothing => exact .refl _
    | operator hop hargument =>
      have hpassed := even_unaryAt? hop
      exact hpassed.trans (h hargument (hpassed.unquoted hskipped))

theorem even_chain (h : Holds Keeps rules) (hquote : '\'' ∉ s.cursor.text)
    {stack : OperatorStack} {a : Option Node} (ha : ChainBy .standard rules stack s a t) :
    Even s.cursor t.cursor := by
  cases ha with
  | finish hoperator => exact even_binaryOperator hoperator
  | operand hoperator hpositive hright hchain =>
    have hop := even_binaryOperator hoperator
    have hpassed := hop.trans (h hright (hop.unquoted hquote))
    exact hpassed.trans (h hchain (hpassed.unquoted hquote))

/-- Without single quotes no name is cut, so nothing that was passed is taken back here. -/
theorem even_binary (h : Holds Keeps rules) (hclean : Holds Accounting.Accounts rules)
    (hquote : '\'' ∉ s.cursor.text) {a : Option Node}
    (ha : binary .standard rules s = .done a t) : Even s.cursor t.cursor := by
  have hskip := even_skipBlanks s.cursor
  have hskipped := hskip.unquoted hquote
  cases binary_cases ha with
  | nothing hleft => exact hskip.trans (h hleft hskipped)
  | alone hleft hoperator hsplit =>
    rw [Accounting.splitGlued_of_clean _ (hclean hleft hskipped).reads.clean] at hsplit
    cases hsplit
    exact (hskip.trans (h hleft hskipped)).trans (even_binaryOperator hoperator)
  | word hleft hw hoperator hinside hrest =>
    have hop := (hskip.trans (h hleft hskipped)).trans (even_binaryOperator hoperator)
    exact hop.trans (even_name hrest)
  | operators hleft hoperator hinside hright hchain =>
    have hop := (hskip.trans (h hleft hskipped)).trans (even_binaryOperator hoperator)
    have hpassed := hop.trans (h hright (hop.unquoted hquote))
    exact hpassed.trans (h hchain (hpassed.unquoted hquote))

theorem even_expression (h : Holds Keeps rules) (hclean : Holds Accounting.Accounts rules)
    (hquote : '\'' ∉ s.cursor.text) {a : Option Node}
    (ha : ExpressionBy .standard rules s a t) : Even s.cursor t.cursor := by
  cases ha with
  | nothing hbinary => exact even_binary h hclean hquote hbinary
  | alone hbinary => exact (even_binary h hclean hquote hbinary).skip
  | conditional hbinary hquestion hconsequent hcolon halternate =>
    have htest := (even_binary h hclean hquote hbinary).skip
    have hmark := htest.trans (even_char hquestion (by decide))
    have hpassed := hmark.trans (h hconsequent (hmark.unquoted hquote))
    have hbranch := hpassed.skip.trans (even_char hcolon (by decide))
    exact hbranch.trans (h halternate (hbranch.unquoted hquote))

theorem moves_statements (h : Holds Keeps rules) (hquote : '\'' ∉ s.cursor.text)
    {ns : List Node} (hns : StatementsBy rules s ns t) :
    Moves .statements s.cursor t.cursor := by
  cases hns with
  | nothing hend => exact ⟨.refl _, List.head?_eq_none_iff.mp hend⟩
  | @separator x _ _ hpeek hc hrest =>
    have hplain : x ∉ '"' :: brackets := by rcases hc with rfl | rfl <;> decide
    have hpassed := even_char hpeek hplain
    obtain ⟨heven, hend⟩ := h hrest (hpassed.unquoted hquote)
    exact ⟨hpassed.trans heven, hend⟩
  | blanks hpeek hc hexpression hend => exact ⟨h hexpression hquote, List.head?_eq_none_iff.mp hend⟩
  | expression hpeek hc hexpression hrest =>
    have hpassed : Even _ _ := h hexpression hquote
    obtain ⟨heven, hend⟩ := h hrest (hpassed.unquoted hquote)
    exact ⟨hpassed.trans heven, hend⟩

/-- However many rounds are given, the rules pass brackets as they should. -/
theorem keeps_run (rounds : Nat) : Holds Keeps (run .standard rounds) := by
  refine holds_run (fun n h r s a t ha hquote => ?_) rounds
  have hskip := even_skipBlanks s.cursor
  cases r with
  | expression => exact even_expression h (Accounting.accounts_run n) hquote ha
  | operand => exact hskip.trans (even_operand h hquote ha)
  | primary => exact even_primary h hquote ha
  | links head => exact even_links h hquote ha
  | items b => exact hskip.closes (closes_items h (hskip.unquoted hquote) ha)
  | chain stack => exact even_chain h hquote ha
  | pairs keys =>
    have hcomma := even_afterComma s
    exact hcomma.trans (even_pairs h (hcomma.unquoted hquote) ha)
  | statements => exact moves_statements h hquote ha

end

/-- In the standard grammar, a source without single quotes that has a tree closes all its
double-quoted texts, and the brackets outside of them are well nested. -/
theorem nested_of_parse (source : String) (hquote : '\'' ∉ source.toList) (t : Node)
    (h : Grammar.standard.parse source = .ok t) :
    ∃ bs, outline .outside source.toList = some bs ∧ Nested bs := by
  obtain ⟨ns, u, hrun, -⟩ := exists_statements_of_parse h
  obtain ⟨⟨bs, hbs, -, houtline⟩, hend⟩ := keeps_run _ hrun hquote
  refine ⟨bs, ?_, hbs⟩
  have hwhole : outline .outside source.toList =
      (outline .outside u.cursor.ahead).map (bs ++ ·) := houtline
  rw [hwhole, hend, outline, Option.map_some, List.append_nil]

/-- A closing bracket in a quoted text, and named arguments in front of a group that is read
twice. -/
theorem nested_of_parse_quoted_bracket :
    let source := "f(\"a)\\\"[\", k=1 (b)[c]) ? [] : x[0]"
    ('\'' ∉ source.toList ∧ ∃ t, Grammar.standard.parse source = .ok t) ∧
      ∃ bs, outline .outside source.toList = some bs ∧ Nested bs := by
  intro source
  have hquote : '\'' ∉ source.toList := by decide
  cases ht : Grammar.standard.parse source with
  | error e =>
    have hok : (Grammar.standard.parse source).isOk = true := by decide +kernel
    rw [ht] at hok
    cases hok
  | ok t => exact ⟨⟨hquote, t, rfl⟩, nested_of_parse source hquote t ht⟩

end ExprTree.Brackets
