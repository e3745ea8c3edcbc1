import ExprTree.Proofs.Forward
import ExprTree.Proofs.Parts
import ExprTree.Proofs.Print
import ExprTree.Proofs.Stacks
import Mathlib.Tactic.Common

/-!
The trees that a parse returns, in any grammar. `Proper` says what one node of such a tree looks
like, and `Regular` says it of all nodes and that none of them is a compound, which only whole
sources are. The rules keep both: what a rule is handed may be assumed to be regular, and what it
gives is. A rule that finds no expression has passed blanks and nothing else, so the error about a
missing comma is one about a place where no expression begins.
-/

namespace ExprTree

namespace Node

/-- What one node of a returned tree looks like. -/
def Proper (g : Grammar) : Node → Prop
  | .compound body => body.length ≠ 1
  | .identifier name object property =>
    (object = none ∧ property = none) ∨
      ∃ base raw suffix, object = some (plain base) ∧ property = some (plain suffix) ∧
        name = raw ++ "!" ++ suffix
  | .literal _ _ | .this | .call _ _ | .conditional _ _ _ | .array _ => True
  | .member computed _ property => computed = true ∨ ∃ w, property = plain w
  | .unary operator _ leading => leading = true ∧ g.operators.isUnary operator = true
  | .binary operator _ _ =>
    (g.operators.precedence? operator).isSome = true ∧ ¬ (operator = "&&" ∨ operator = "||")
  | .logical operator _ _ =>
    (g.operators.precedence? operator).isSome = true ∧ (operator = "&&" ∨ operator = "||")
  | .keyValues keys =>
    keys ≠ [] ∧ (Keyed.keys keys).Nodup ∧ ∀ k ∈ keys, Print.WellCounted k.2

/-- A tree of proper nodes without a compound in it. -/
def Regular (g : Grammar) (n : Node) : Prop :=
  ∀ m ∈ n.parts, m.Proper g ∧ m.tag ≠ .compound

end Node

namespace Shapes

open Parse Node Lexemes Origins

section

variable {g : Grammar} {n : Node}

theorem regular_iff :
    n.Regular g ↔ (n.Proper g ∧ n.tag ≠ .compound) ∧ ∀ c ∈ n.children, c.Regular g :=
  forall_parts_iff

theorem regular_plain (w : String) : (plain w).Regular g :=
  regular_iff.mpr ⟨⟨.inl ⟨rfl, rfl⟩, by simp [plain, tag]⟩, by simp [plain, children]⟩

theorem regular_literal (value : LiteralValue) (raw : String) : (literal value raw).Regular g :=
  regular_iff.mpr ⟨⟨trivial, by simp [tag]⟩, by simp [children]⟩

theorem regular_wordNode (w : String) : (g.wordNode w).Regular g := by
  unfold Grammar.wordNode
  split
  · exact regular_literal _ w
  · split
    · exact regular_iff.mpr ⟨⟨trivial, by simp [tag]⟩, by simp [children]⟩
    · exact regular_plain w

theorem regular_joined (raw base suffix : String) :
    (identifier (raw ++ "!" ++ suffix) (some (plain base)) (some (plain suffix))).Regular g := by
  refine regular_iff.mpr ⟨⟨.inr ⟨base, raw, suffix, rfl, rfl, rfl⟩, by simp [tag]⟩, ?_⟩
  intro c hc
  simp only [children, Option.toList_some, List.singleton_append, List.mem_cons, List.not_mem_nil,
    or_false] at hc
  rcases hc with rfl | rfl
  · exact regular_plain base
  · exact regular_plain suffix

theorem regular_member {object property : Node} {computed : Bool} (hobject : object.Regular g)
    (hproperty : property.Regular g) (hplain : computed = true ∨ ∃ w, property = plain w) :
    (member computed object property).Regular g := by
  refine regular_iff.mpr ⟨⟨hplain, by simp [tag]⟩, ?_⟩
  simp [children, hobject, hproperty]

theorem regular_call {callee : Node} {arguments : List Node} (hcallee : callee.Regular g)
    (harguments : ∀ a ∈ arguments, a.Regular g) : (call callee arguments).Regular g := by
  refine regular_iff.mpr ⟨⟨trivial, by simp [tag]⟩, ?_⟩
  rw [children, List.forall_mem_cons]
  exact ⟨hcallee, harguments⟩

theorem regular_unary {operator : String} {argument : Node}
    (hop : g.operators.isUnary operator = true) (hargument : argument.Regular g) :
    (unary operator argument true).Regular g := by
  refine regular_iff.mpr ⟨⟨⟨rfl, hop⟩, by simp [tag]⟩, ?_⟩
  simp [children, hargument]

/-- An operator's node is logical exactly for `&&` and `||`. -/
theorem regular_ofOperator {operator : String} {left right : Node}
    (hop : (g.operators.precedence? operator).isSome = true) (hleft : left.Regular g)
    (hright : right.Regular g) : (ofOperator operator left right).Regular g := by
  unfold ofOperator
  split
  · rename_i hlogical
    refine regular_iff.mpr ⟨⟨⟨hop, hlogical⟩, by simp [tag]⟩, ?_⟩
    simp [children, hleft, hright]
  · rename_i hbinary
    refine regular_iff.mpr ⟨⟨⟨hop, hbinary⟩, by simp [tag]⟩, ?_⟩
    simp [children, hleft, hright]

theorem regular_conditional {test consequent alternate : Node} (htest : test.Regular g)
    (hconsequent : consequent.Regular g) (halternate : alternate.Regular g) :
    (conditional test consequent alternate).Regular g := by
  refine regular_iff.mpr ⟨⟨trivial, by simp [tag]⟩, ?_⟩
  simp [children, htest, hconsequent, halternate]

theorem regular_array {elements : List Node} (helements : ∀ e ∈ elements, e.Regular g) :
    (array elements).Regular g :=
  regular_iff.mpr ⟨⟨trivial, by simp [tag]⟩, helements⟩

/-- Named arguments with distinct keys, with as many values as a key came, all of them regular. -/
structure Gathered (g : Grammar) (keys : Keyed (Entry Node)) : Prop where
  nodup : keys.keys.Nodup
  counted : ∀ k ∈ keys, Print.WellCounted k.2
  regular : ∀ k ∈ keys, ∀ v ∈ k.2.values, v.Regular g

theorem gathered_nil : Gathered g [] :=
  ⟨List.nodup_nil, List.forall_mem_nil _, List.forall_mem_nil _⟩

theorem wellCounted_push {entry : Entry Node} (h : Print.WellCounted entry) (value : Node) :
    Print.WellCounted (entry.push value) := by
  cases entry with
  | single v => simp [Entry.push, Entry.values, Print.WellCounted]
  | many vs =>
    rw [Print.WellCounted] at h
    simp only [Entry.push, Entry.values, Print.WellCounted, List.length_append, List.length_cons,
      List.length_nil]
    omega

/-- One more named argument brings no value but its own. -/
theorem mem_values_addValue {keys : Keyed (Entry Node)} {key : String} {value v : Node}
    {k : String × Entry Node} (hk : k ∈ addValue keys key value) (hv : v ∈ k.2.values) :
    v = value ∨ ∃ k' ∈ keys, v ∈ k'.2.values := by
  rcases Keyed.mem_alter hk with hold | rfl | ⟨entry, hmem, rfl⟩
  · exact .inr ⟨k, hold, hv⟩
  · exact .inl (by simpa [Entry.values] using hv)
  · rw [Entry.values_push, List.mem_append, List.mem_singleton] at hv
    exact hv.symm.imp_right fun hold => ⟨_, hmem, hold⟩

/-- One more named argument: a new key with one value, or one more value of a key. -/
theorem gathered_addValue {keys : Keyed (Entry Node)} {key : String} {value : Node}
    (h : Gathered g keys) (hvalue : value.Regular g) : Gathered g (addValue keys key value) := by
  refine ⟨Keyed.nodup_keys_alter h.nodup key _, ?_, ?_⟩
  · intro k hk
    rcases Keyed.mem_alter hk with hold | rfl | ⟨entry, hmem, rfl⟩
    · exact h.counted k hold
    · trivial
    · exact wellCounted_push (h.counted _ hmem) value
  · intro k hk v hv
    rcases mem_values_addValue hk hv with rfl | ⟨k', hk', hv'⟩
    · exact hvalue
    · exact h.regular k' hk' v hv'

theorem addValue_ne_nil (keys : Keyed (Entry Node)) (key : String) (value : Node) :
    addValue keys key value ≠ [] := by
  cases keys with
  | nil => simp [addValue, Keyed.alter]
  | cons k keys =>
    simp only [addValue, Keyed.alter]
    split <;> exact List.cons_ne_nil _ _

theorem regular_keyValues {keys : Keyed (Entry Node)} (hne : keys ≠ []) (h : Gathered g keys) :
    (keyValues keys).Regular g := by
  refine regular_iff.mpr ⟨⟨⟨hne, h.nodup, h.counted⟩, by simp [tag]⟩, ?_⟩
  intro c hc
  obtain ⟨k, hk, hv⟩ := List.mem_flatMap.mp hc
  exact h.regular k hk c hv

/-- A stack of regular operands and registered operators. -/
structure Stacked (g : Grammar) (s : OperatorStack) : Prop where
  operands : ∀ n ∈ s.operands, n.Regular g
  operators : ∀ o ∈ s.operators, (g.operators.precedence? o.1).isSome = true

theorem stacked_start {operator : String} {precedence : Int} {left right : Node}
    (hop : (g.operators.precedence? operator).isSome = true) (hleft : left.Regular g)
    (hright : right.Regular g) : Stacked g (.start left operator precedence right) := by
  refine ⟨?_, ?_⟩ <;> simp [OperatorStack.start, hleft, hright, hop]

theorem stacked_push {s : OperatorStack} (h : Stacked g s) {operator : String}
    (hop : (g.operators.precedence? operator).isSome = true) (precedence : Int) {right : Node}
    (hright : right.Regular g) : Stacked g (s.push operator precedence right) :=
  ⟨List.forall_mem_cons.mpr ⟨hright, h.operands⟩, List.forall_mem_cons.mpr ⟨hop, h.operators⟩⟩

theorem stacked_carried : OperatorStack.Carried (Stacked g) := by
  rintro right left operands operator precedence operators ⟨hoperands, hoperators⟩
  simp only [List.forall_mem_cons] at hoperands hoperators
  obtain ⟨hright, hleft, hbelow⟩ := hoperands
  exact ⟨List.forall_mem_cons.mpr ⟨regular_ofOperator hoperators.1 hleft hright, hbelow⟩,
    hoperators.2⟩

theorem finish_regular {s : OperatorStack} (hs : s.Whole) (h : Stacked g s) :
    ∃ n, s.finish = some n ∧ n.Regular g := by
  obtain ⟨n, hn, hlast⟩ := stacked_carried.finish hs h
  exact ⟨n, hn, hlast.operands n List.mem_cons_self⟩

end

/-- What is found is regular, and where nothing is, only blanks were passed. -/
def Finds (g : Grammar) (s : State) (a : Option Node) (t : State) : Prop :=
  (∀ n ∈ a, n.Regular g) ∧ (a = none → t = { s with cursor := s.cursor.skipBlanks })

/-- What a rule gives in a grammar: regular trees, given that what it was handed is regular. -/
def Yields (g : Grammar) : (r : Rule) → State → r.Answer → State → Prop
  | .expression, s, a, t => Finds g s a t
  | .operand, s, a, t => Finds g s a t
  | .primary, _, a, _ =>
    match a with
    | .node n => n.Regular g
    | .pair _ value => value.Regular g
  | .links head, _, a, _ => head.Regular g → a.Regular g
  | .items _, _, a, _ => ∀ n ∈ a, n.Regular g
  | .chain stack, _, a, _ => stack.Whole → Stacked g stack → ∃ n, a = some n ∧ n.Regular g
  | .pairs keys, _, a, _ => Gathered g keys → keys ≠ [] → Gathered g a ∧ a ≠ []
  | .statements, _, a, _ => ∀ n ∈ a, n.Regular g

section

variable {g : Grammar} {rules : Rules} {s t u : State}

theorem finds_some {n : Node} (hn : n.Regular g) : Finds g s (some n) t :=
  ⟨forall_mem_some hn, nofun⟩

theorem precedence?_of_binaryOperator {o : String × Int}
    (h : binaryOperator g s = .done (some o) t) :
    (g.operators.precedence? o.1).isSome = true := by
  cases (binaryOperator_ends g s).of_done h with
  | operator hop => simp [(OperatorTable.binaryAt?_spec hop).1]

theorem regular_numeral {l : Letters} {n : Node} (h : numeral l s = .done n t) : n.Regular g := by
  cases (numeral_ends l s).of_done h with
  | number => exact regular_literal _ _
  | name => exact regular_plain _

theorem regular_joinableText {l : Letters} {n : Node} (h : joinableText l s = .done n t) :
    n.Regular g := by
  cases (joinableText_ends l s).of_done h with
  | alone => exact regular_literal _ _
  | joined => exact regular_joined _ _ _

theorem regular_joinName {l : Letters} {n m : Node} (hn : n.Regular g)
    (h : joinName l n s = .done m t) : m.Regular g := by
  cases (joinName_ends l n s).of_done h with
  | alone => exact hn
  | joined => exact regular_joined _ _ _

theorem yields_head (h : Holds (Yields g) rules) {x : Term} (hx : HeadBy g rules s x t) :
    Yields g .primary s x t := by
  cases hx with
  | word => exact regular_wordNode _
  | pair hparen hname hequals hvalue => exact (h hvalue).1 _ rfl
  | group hopen hinside => exact (h hinside).1 _ rfl

theorem yields_primary (h : Holds (Yields g) rules) {x : Term} (hx : PrimaryBy g rules s x t) :
    Yields g .primary s x t := by
  cases hx with
  | pair hhead => exact yields_head h hhead
  | linked hhead hlinks => exact h hlinks (yields_head h hhead)

theorem regular_link (h : Holds (Yields g) rules) {head n : Node} (hn : LinkBy g rules head s n t)
    (hhead : head.Regular g) : n.Regular g := by
  cases hn with
  | property => exact regular_member hhead (regular_plain _) (.inr ⟨_, rfl⟩)
  | subscript hopen hinside => exact regular_member hhead ((h hinside).1 _ rfl) (.inl rfl)
  | call hopen hitems => exact regular_call hhead (h hitems)

theorem regular_links (h : Holds (Yields g) rules) {head n : Node}
    (hn : LinksBy g rules head s n t) (hhead : head.Regular g) : n.Regular g := by
  cases hn with
  | last => exact hhead
  | next hlink hlinks => exact h hlinks (regular_link h hlink hhead)

theorem regular_items (h : Holds (Yields g) rules) {b : Bracket} {ns : List Node}
    (hns : ItemsBy rules b s ns t) : ∀ n ∈ ns, n.Regular g := by
  cases hns with
  | close => exact List.forall_mem_nil _
  | comma hcomma hitems => exact h hitems
  | item hpeek hc hitem hn hitems =>
    exact List.forall_mem_cons.mpr ⟨(h hitem).1 _ rfl, h hitems⟩

theorem yields_pairs (h : Holds (Yields g) rules) {keys found : Keyed (Entry Node)}
    (hfound : PairsBy g rules keys s found t) (hkeys : Gathered g keys) (hne : keys ≠ []) :
    Gathered g found ∧ found ≠ [] := by
  cases hfound with
  | nothing => exact ⟨hkeys, hne⟩
  | other => exact ⟨hkeys, hne⟩
  | pair hpeek hprimary hpairs =>
    exact h hpairs (gathered_addValue hkeys (h hprimary)) (addValue_ne_nil _ _ _)

theorem yields_term (h : Holds (Yields g) rules) {x : Term} (hx : TermBy g rules s x t) :
    Yields g .primary s x t := by
  cases hx with
  | again hnumeral hprimary => exact h hprimary
  | pair hprimary => exact h hprimary
  | node hprimary hjoin => exact regular_joinName (h hprimary) hjoin

theorem regular_ofTerm (h : Holds (Yields g) rules) {x : Term} {n : Node}
    (hx : Yields g .primary s x t) (hn : OfTermBy g rules t x n u) : n.Regular g := by
  cases hn with
  | pairs hpairs =>
    obtain ⟨hgathered, hne⟩ := h hpairs (gathered_addValue gathered_nil hx) (addValue_ne_nil _ _ _)
    exact regular_keyValues hne hgathered
  | operator hw hargument => exact regular_unary hw ((h hargument).1 _ rfl)
  | number => exact regular_literal _ _
  | whole => exact hx

theorem finds_operand (h : Holds (Yields g) rules) {a : Option Node}
    (ha : OperandBy g rules { s with cursor := s.cursor.skipBlanks } a t) : Finds g s a t := by
  have hnone : Finds g s none { s with cursor := s.cursor.skipBlanks } :=
    ⟨by rintro _ ⟨⟩, fun _ => rfl⟩
  cases ha with
  | nothing => exact hnone
  | numeral hpeek hc hnumeral =>
    rcases (numeralOperand_ends hpeek).of_done hnumeral with hnumeral | ⟨x, u, hx, hn⟩
    · exact finds_some (regular_numeral hnumeral)
    · exact finds_some (regular_ofTerm h (yields_term h hx) hn)
  | joinable hpeek htext => exact finds_some (regular_joinableText htext)
  | text => exact finds_some (regular_literal _ _)
  | primary hpeek hc hprimary =>
    obtain ⟨x, u, hx, hn⟩ := (primaryOperand_ends hpeek hc).of_done hprimary
    exact finds_some (regular_ofTerm h (yields_term h hx) hn)
  | array hopen hitems => exact finds_some (regular_array (h hitems))
  | operator hpeek hc hoperator =>
    cases (leadingOperator_ends s).of_done hoperator with
    | nothing => exact hnone
    | operator hop hargument =>
      exact finds_some (regular_unary (OperatorTable.unaryAt?_spec hop).1 ((h hargument).1 _ rfl))

theorem yields_chain (h : Holds (Yields g) rules) {stack : OperatorStack} {a : Option Node}
    (ha : ChainBy g rules stack s a t) : Yields g (.chain stack) s a t := by
  intro hwhole hstack
  cases ha with
  | finish => exact finish_regular hwhole hstack
  | operand hoperator hpositive hright hchain =>
    obtain ⟨hwhole', hreduced⟩ := stacked_carried.reduceFor hwhole hstack _
    exact h hchain (OperatorStack.whole_push hwhole' _ _ _)
      (stacked_push hreduced (precedence?_of_binaryOperator hoperator) _ ((h hright).1 _ rfl))

theorem finds_binary (h : Holds (Yields g) rules) {a : Option Node}
    (ha : binary g rules s = .done a t) : Finds g s a t := by
  cases binary_cases ha with
  | nothing hleft =>
    have hstays := (h hleft).2 rfl
    simp only [Cursor.skipBlanks_skipBlanks] at hstays
    exact ⟨by rintro _ ⟨⟩, fun _ => hstays⟩
  | alone hleft hoperator hsplit =>
    rcases splitGlued_cases hsplit with ⟨rfl, -⟩ | ⟨test, -, rfl, -⟩
    · exact finds_some ((h hleft).1 _ rfl)
    · exact finds_some (regular_plain _)
  | word => exact finds_some (regular_plain _)
  | operators hleft hoperator hinside hright hchain =>
    obtain ⟨n, rfl, hn⟩ := h hchain (OperatorStack.whole_start _ _ _ _)
      (stacked_start (precedence?_of_binaryOperator hoperator) ((h hleft).1 _ rfl)
        ((h hright).1 _ rfl))
    exact finds_some hn

theorem finds_expression (h : Holds (Yields g) rules) {a : Option Node}
    (ha : ExpressionBy g rules s a t) : Finds g s a t := by
  cases ha with
  | nothing hbinary => exact finds_binary h hbinary
  | alone hbinary => exact finds_some ((finds_binary h hbinary).1 _ rfl)
  | conditional hbinary hquestion hconsequent hcolon halternate =>
    exact finds_some (regular_conditional ((finds_binary h hbinary).1 _ rfl)
      ((h hconsequent).1 _ rfl) ((h halternate).1 _ rfl))

theorem regular_statements (h : Holds (Yields g) rules) {ns : List Node}
    (hns : StatementsBy rules s ns t) : ∀ n ∈ ns, n.Regular g := by
  cases hns with
  | nothing => exact List.forall_mem_nil _
  | separator hpeek hc hrest => exact h hrest
  | blanks => exact List.forall_mem_nil _
  | expression hpeek hc hexpression hrest =>
    exact List.forall_mem_cons.mpr ⟨(h hexpression).1 _ rfl, h hrest⟩

/-- However many rounds are given, the rules give what they should. -/
theorem yields_run (g : Grammar) (rounds : Nat) : Holds (Yields g) (run g rounds) := by
  refine holds_run (fun n h r s a t ha => ?_) rounds
  cases r with
  | expression => exact finds_expression h ha
  | operand => exact finds_operand h ha
  | primary => exact yields_primary h ha
  | links head => exact regular_links h ha
  | items b => exact regular_items h ha
  | chain stack => exact yields_chain h ha
  | pairs keys => exact yields_pairs h ha
  | statements => exact regular_statements h ha

/-- No expression is a compound, so an error about a missing comma, wherever it comes from, is one
about a place of the same text where no expression begins. -/
theorem excused_run {r : Rule} {n : Nat} {e : ParseError} (h : run g n r s = .failed e)
    (he : e.cause = .noItem) :
    ∃ rounds u, u.cursor.text = s.cursor.text ∧ u.cursor.index = e.index ∧
      run g rounds .expression u = .done none u := by
  induction n generalizing r s with
  | zero => cases h
  | succ n ih =>
    cases failsBy_of_failed h with
    | @call r' u hasks hu =>
      have htext := (Forward.reaches_of_asks (Forward.gets_run g n) hasks).text
      obtain ⟨rounds, v, hv, hplace, hnone⟩ := ih hu
      exact ⟨rounds, v, hv.trans htext, hplace, hnone⟩
    | own hminor => exact absurd he hminor
    | @item b a t hr hitem ha hindex =>
      have hfinds := yields_run g n hitem
      cases a with
      | none =>
        obtain rfl : t = { s with cursor := s.cursor.skipBlanks } := by
          simpa only [Cursor.skipBlanks_skipBlanks] using hfinds.2 rfl
        exact ⟨n, _, Cursor.text_skipBlanks _, hindex.symm, hitem⟩
      | some m =>
        have hregular : m.Regular g := hfinds.1 m rfl
        exact absurd (ha m rfl) (hregular m m.self_mem_parts).2

end

/-- A compound is only around the statements of a source that has none or several. -/
theorem proper_ofStatements {g : Grammar} {ns : List Node} (hns : ∀ n ∈ ns, n.Regular g) :
    (∀ m ∈ (ofStatements ns).parts, m.Proper g) ∧
      ∀ m ∈ (ofStatements ns).parts.tail, m.tag ≠ .compound := by
  unfold ofStatements
  split
  · rename_i n
    have hn := hns n List.mem_cons_self
    exact ⟨fun m hm => (hn m hm).1, fun m hm => (hn m (List.mem_of_mem_tail hm)).2⟩
  · rename_i hlength
    have hbelow : ∀ m ∈ (children (compound ns)).flatMap parts,
        m.Proper g ∧ m.tag ≠ .compound := by
      intro m hm
      obtain ⟨n, hn, hm⟩ := List.mem_flatMap.mp hm
      exact hns n hn m hm
    have hone : ns.length ≠ 1 := by
      intro hone
      obtain ⟨n, hn⟩ := List.length_eq_one_iff.mp hone
      exact hlength n hn
    rw [parts_eq, List.forall_mem_cons, List.tail_cons]
    exact ⟨⟨hone, fun m hm => (hbelow m hm).1⟩, fun m hm => (hbelow m hm).2⟩

/-- Every node of the tree of a source is proper, and only the whole tree can be a compound. No
expression is a compound; so the error about a missing comma, wherever it comes from, is one about
a place of the same text where no expression begins. -/
theorem parse_shape (g : Grammar) (source : String) (t : Node) (h : g.parse source = .ok t) :
    ((∀ m ∈ t.parts, m.Proper g) ∧ ∀ m ∈ t.parts.tail, m.tag ≠ .compound) ∧
    (∀ rounds s n u, run g rounds .expression s = .done (some n) u → n.tag ≠ .compound) ∧
    (∀ rounds r s e, run g rounds r s = .failed e → e.cause = .noItem →
      ∃ rounds' u, u.cursor.text = s.cursor.text ∧ u.cursor.index = e.index ∧
        run g rounds' .expression u = .done none u) := by
  refine ⟨?_, ?_, fun _ _ _ _ => excused_run⟩
  · obtain ⟨ns, u, hrun, rfl⟩ := exists_statements_of_parse h
    exact proper_ofStatements (yields_run g _ hrun)
  · intro rounds s n u hdone
    have hn : n.Regular g := (yields_run g rounds hdone).1 n rfl
    exact (hn n n.self_mem_parts).2

/-- Two expressions, with a joined name, a repeated key, a property and operators of all kinds. -/
theorem parse_shape_two_expressions :
    let named : Node := .keyValues [("k", .many [.plain "c", .plain "d"])]
    let joined : Node := .identifier "a!b" (some (.plain "a")) (some (.plain "b"))
    let negated : Node := .unary "-" (.member false (.plain "e") (.plain "x")) true
    let t : Node := .compound [.logical "&&" joined negated, .call (.plain "f") [named]]
    Grammar.standard.parse "a!b && -e.x; f(k=c, k=d)" = .ok t ∧
      (∀ m ∈ t.parts, m.Proper .standard) ∧ ∀ m ∈ t.parts.tail, m.tag ≠ .compound := by
  intro named joined negated t
  have hparse : Grammar.standard.parse "a!b && -e.x; f(k=c, k=d)" = .ok t := by decide +kernel
  exact ⟨hparse, (parse_shape .standard _ t hparse).1⟩

end Shapes

end ExprTree
