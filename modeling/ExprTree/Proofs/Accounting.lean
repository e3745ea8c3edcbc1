import ExprTree.Proofs.Flat
import ExprTree.Proofs.Origins
import ExprTree.Proofs.Progress
import ExprTree.Proofs.Spelling
import Mathlib.Tactic.Common

/-!
Nothing of a source is lost, invented or reordered in its tree. In the standard grammar, and in a
text without single quotes, every rule spends the characters that its tree spells: in their order
where no key is repeated, and up to their order in every case. The rules that go on from what was
read before, with links, with further operators or with further named arguments, add the characters
that they spend at the end.
-/

namespace ExprTree.Accounting

open Parse Standard Lexemes Origins

/-- The name of the node, if it has one, is made of the characters of names and of `!`, and there
is nothing repeated in it. -/
def Clean (n : Node) : Prop :=
  ∀ w, n.name? = some w →
    (∀ x ∈ w.toList, letters.isPart x = true ∨ x = '!') ∧ Unrepeated n

/-- A node was read from the characters that it spells. -/
structure Reads (c : Cursor) (n : Node) (d : Cursor) : Prop where
  spent : Spent (Unrepeated n) c d (spell n)
  clean : Clean n

/-- A stack that spells `cs`; if no key is repeated in its operands, then `u`. -/
structure Standing (cs : List Char) (u : Prop) (s : OperatorStack) : Prop where
  spells : spellStack s = cs
  unrepeated : (∀ n ∈ s.operands, Unrepeated n) → u
  clean : ∀ n ∈ s.operands, Clean n

/-- What is found was read, and where nothing is, no characters were spent. -/
def Finds (c : Cursor) (a : Option Node) (d : Cursor) : Prop :=
  (∀ n ∈ a, Reads c n d) ∧ (a = none → Spent True c d [])

/-- What a rule gives for the characters that it spends. -/
def Yields : (r : Rule) → Cursor → r.Answer → Cursor → Prop
  | .expression, c, a, d => Finds c a d
  | .operand, c, a, d => Finds c a d
  | .primary, c, a, d =>
    match a with
    | .node n => Reads c n d
    | .pair w v => Spent (Unrepeated v) c d (w.toList ++ '=' :: spell v)
  | .links head, c, a, d =>
    ∃ cs, Spent (Unrepeated a) c d cs ∧ spell a = spell head ++ cs ∧
      (Unrepeated a → Unrepeated head) ∧ (Clean head → Clean a)
  | .items _, c, a, d => Spent (∀ n ∈ a, Unrepeated n) c d (spellAll a)
  | .chain stack, c, a, d => ∀ before u, stack.Whole → Standing before u stack →
      ∃ n, a = some n ∧ Clean n ∧
        ∃ cs, Spent (Unrepeated n) c d cs ∧ spell n = before ++ cs ∧ (Unrepeated n → u)
  | .pairs keys, c, a, d =>
    ∃ cs, Spent (Unrepeated (.keyValues a)) c d cs ∧
      (spellKeys a).Perm (spellKeys keys ++ cs) ∧
      (Unrepeated (.keyValues a) →
        spellKeys a = spellKeys keys ++ cs ∧ Unrepeated (.keyValues keys))
  | .statements, c, a, d => Spent (∀ n ∈ a, Unrepeated n) c d (spellAll a) ∧ d.ahead = []

/-- In a text without single quotes a rule spends what it gives. -/
def Accounts (r : Rule) (s : State) (a : r.Answer) (t : State) : Prop :=
  '\'' ∉ s.cursor.text → Yields r s.cursor a t.cursor

section

variable {p : Prop} {rules : Rules} {s t : State} {c d : Cursor} {cs : List Char} {n : Node}

theorem finds_some (hn : Reads c n d) : Finds c (some n) d :=
  ⟨forall_mem_some hn, nofun⟩

theorem Finds.reads (h : Finds c (some n) d) : Reads c n d :=
  h.1 n rfl

theorem Spent.unquoted (h : Spent p c d cs) (hquote : '\'' ∉ c.text) : '\'' ∉ d.text :=
  h.text ▸ hquote

theorem mem_of_peek? {x : Char} (hx : c.peek? = some x) : x ∈ c.text := by
  obtain ⟨rest, hrest⟩ := List.head?_eq_some_iff.mp hx
  simp [Cursor.text, hrest]

theorem clean_of_name?_eq_none (h : n.name? = none) : Clean n := by
  intro w hw
  rw [h] at hw
  cases hw

theorem unrepeated_plain (w : String) : Unrepeated (.plain w) :=
  unrepeated_iff.mpr ⟨nofun, nofun⟩

theorem clean_plain {w : String} (hw : Worded w) : Clean (.plain w) := by
  rintro _ ⟨⟩
  exact ⟨fun x hx => .inl (hw x hx), unrepeated_plain w⟩

theorem clean_joined {w suffix : String} {base : Node} (hw : Clean base)
    (hbase : base.name? = some w) (hsuffix : Worded suffix) :
    Clean (.identifier (w ++ "!" ++ suffix) (some (.plain w)) (some (.plain suffix))) := by
  rintro _ ⟨⟩
  refine ⟨fun x hx => ?_, unrepeated_iff.mpr ⟨nofun, fun c hc => ?_⟩⟩
  · simp only [String.toList_append, List.mem_append] at hx
    rcases hx with (hx | hx) | hx
    · exact (hw w hbase).1 x hx
    · exact .inr (List.mem_singleton.mp hx)
    · exact .inl (hsuffix x hx)
  · simp only [Node.children, Option.toList_some, List.singleton_append, List.mem_cons,
      List.not_mem_nil, or_false] at hc
    rcases hc with rfl | rfl <;> exact unrepeated_plain _

/-- A word spells itself, whatever it stands for. -/
theorem spell_wordNode (w : String) : spell (Grammar.standard.wordNode w) = w.toList := by
  unfold Grammar.wordNode
  split
  · rename_i value hvalue
    cases value with
    | number x =>
      unfold Grammar.wordLiteral? at hvalue
      split at hvalue
      · cases hvalue
      · split at hvalue
        · cases hvalue
        · split at hvalue <;> cases hvalue
    | _ => rfl
  · split
    · rename_i hthis
      rw [hthis]
      rfl
    · rfl

theorem clean_wordNode {w : String} (hw : Worded w) : Clean (Grammar.standard.wordNode w) := by
  unfold Grammar.wordNode
  split
  · exact clean_of_name?_eq_none rfl
  · split
    · exact clean_of_name?_eq_none rfl
    · exact clean_plain hw

theorem yields_head (h : Holds Accounts rules) (hquote : '\'' ∉ s.cursor.text) {x : Term}
    (hx : HeadBy .standard rules s x t) : Yields .primary s.cursor x t.cursor := by
  cases hx with
  | word hparen hname =>
    obtain ⟨hspent, hw⟩ := spent_name hname
    refine ⟨?_, clean_wordNode hw⟩
    rw [spell_wordNode]
    exact hspent
  | @pair w value _ _ hparen hname hequals hvalue =>
    have hsign := (spent_name (p := Unrepeated value) hname).1.trans
      (spent_char hequals.1 (by decide))
    have hpair := hsign.trans (h hvalue (hsign.unquoted hquote)).reads.spent
    rwa [List.append_assoc] at hpair
  | @group n _ hopen hinside hclose =>
    have hbracket := spent_silent (p := Unrepeated n) hopen (by decide)
    have hn := (h hinside (hbracket.unquoted hquote)).reads
    have hspent := (hbracket.trans hn.spent).skip (spent_skipBlanks _)
    exact ⟨hspent.skip (spent_silent hclose (by decide)), hn.clean⟩

theorem yields_primary (h : Holds Accounts rules) (hquote : '\'' ∉ s.cursor.text) {x : Term}
    (hx : PrimaryBy .standard rules s x t) : Yields .primary s.cursor x t.cursor := by
  cases hx with
  | pair hhead => exact yields_head h hquote hhead
  | linked hhead hlinks =>
    have hn : Reads _ _ _ := yields_head h hquote hhead
    have hblank := hn.spent.skip (spent_skipBlanks _)
    obtain ⟨cs, hcs, hspell, hunrepeated, hclean⟩ := h hlinks (hblank.unquoted hquote)
    refine ⟨?_, hclean hn.clean⟩
    rw [hspell]
    exact (hblank.mono hunrepeated).trans hcs

/-- A link adds what it spells to the head. -/
theorem spent_link (h : Holds Accounts rules) (hquote : '\'' ∉ s.cursor.text) {head : Node}
    (hlink : LinkBy .standard rules head s n t) :
    ∃ cs, Spent (Unrepeated n) s.cursor t.cursor cs ∧ spell n = spell head ++ cs ∧
      (Unrepeated n → Unrepeated head) := by
  cases hlink with
  | @property w _ hpoint hname =>
    have hpassed := (spent_silent (p := True) hpoint (by decide)).skip (spent_skipBlanks _)
    have hspent := (hpassed.trans (spent_name hname).1).skip (spent_skipBlanks _)
    refine ⟨w.toList, hspent.exact, ?_, ?_⟩
    · rw [spell, Node.plain, spell]
    · exact fun hn => hn.child (by simp [Node.children])
  | @subscript property _ hopen hinside hclose =>
    have hbracket := spent_silent (p := Unrepeated property) hopen (by decide)
    have hproperty := hbracket.trans (h hinside (hbracket.unquoted hquote)).reads.spent
    have hclosed := (hproperty.skip (spent_skipBlanks _)).skip (spent_silent hclose (by decide))
    refine ⟨spell property, ?_, by rw [spell], ?_⟩
    · exact (hclosed.skip (spent_skipBlanks _)).mono fun hn => hn.child (by simp [Node.children])
    · exact fun hn => hn.child (by simp [Node.children])
  | @call arguments _ hopen hitems =>
    have hbracket := spent_silent (p := ∀ n ∈ arguments, Unrepeated n) hopen (by decide)
    have harguments := hbracket.trans (h hitems (hbracket.unquoted hquote))
    refine ⟨spellAll arguments, ?_, by rw [spell], fun hn => hn.child List.mem_cons_self⟩
    exact (harguments.skip (spent_skipBlanks _)).mono
      fun hn m hm => hn.child (List.mem_cons_of_mem _ hm)

theorem yields_links (h : Holds Accounts rules) (hquote : '\'' ∉ s.cursor.text) {head : Node}
    (hn : LinksBy .standard rules head s n t) : Yields (.links head) s.cursor n t.cursor := by
  cases hn with
  | last => exact ⟨[], .refl _, (List.append_nil _).symm, id, id⟩
  | next hlink hlinks =>
    obtain ⟨cs, hcs, hspell, hunrepeated⟩ := spent_link h hquote hlink
    obtain ⟨ds, hds, hspell', hunrepeated', hclean⟩ := h hlinks (hcs.unquoted hquote)
    refine ⟨cs ++ ds, (hcs.mono hunrepeated').trans hds, ?_,
      fun hn => hunrepeated (hunrepeated' hn),
      fun _ => hclean (clean_of_name?_eq_none hlink.name?_eq_none)⟩
    rw [hspell', hspell, List.append_assoc]

theorem closing_silent (b : Bracket) : b.closing ∈ silent := by
  cases b <;> decide

theorem spent_items (h : Holds Accounts rules) (hquote : '\'' ∉ s.cursor.text) {b : Bracket}
    {ns : List Node} (hns : ItemsBy rules b s ns t) :
    Spent (∀ n ∈ ns, Unrepeated n) s.cursor t.cursor (spellAll ns) := by
  cases hns with
  | close hclose => exact spent_silent hclose (closing_silent b)
  | comma hcomma hitems =>
    have hpassed := spent_silent (p := ∀ n ∈ ns, Unrepeated n) hcomma (by decide)
    exact hpassed.trans (h hitems (hpassed.unquoted hquote))
  | item hpeek hc hitem hn hitems =>
    have hspent := (h hitem hquote).reads.spent
    have hrest : Spent _ _ _ _ := h hitems (hspent.unquoted hquote)
    exact (hspent.mono fun hall => hall _ List.mem_cons_self).trans
      (hrest.mono fun hall m hm => hall m (List.mem_cons_of_mem _ hm))

theorem yields_pairs (h : Holds Accounts rules) (hquote : '\'' ∉ s.cursor.text)
    {keys found : Keyed (Entry Node)} (hkeys : PairsBy .standard rules keys s found t) :
    Yields (.pairs keys) s.cursor found t.cursor := by
  have hnone : Yields (.pairs keys) s.cursor keys s.cursor :=
    ⟨[], .refl _, by simp, fun hkeys => ⟨(List.append_nil _).symm, hkeys⟩⟩
  cases hkeys with
  | nothing => exact hnone
  | other => exact hnone
  | @pair key value _ _ _ hpeek hprimary hpairs =>
    have hpair : Spent _ _ _ _ := h hprimary hquote
    obtain ⟨cs, hcs, hperm, hordered⟩ := h hpairs (hpair.unquoted hquote)
    obtain ⟨haddPerm, haddOrdered⟩ := spellKeys_addValue keys key value
    refine ⟨key.toList ++ '=' :: spell value ++ cs, ?_, ?_, ?_⟩
    · exact (hpair.mono fun ha => (unrepeated_of_addValue (hordered ha).2).2).trans hcs
    · rw [← List.append_assoc]
      exact hperm.trans (haddPerm.append_right cs)
    · intro ha
      obtain ⟨hspell, hadded⟩ := hordered ha
      refine ⟨?_, (unrepeated_of_addValue hadded).1⟩
      rw [hspell, haddOrdered hadded, List.append_assoc]

/-- Between two named arguments there are blanks and a comma at most. -/
theorem spent_afterComma (s : State) : Spent p s.cursor (afterComma s).cursor [] := by
  unfold afterComma
  split
  · rename_i hcomma
    exact ((spent_skipBlanks _).skip (spent_silent hcomma (by decide))).skip (spent_skipBlanks _)
  · exact (spent_skipBlanks _).skip (spent_skipBlanks _)

/-- A name that is joined with the one after it by `!`. -/
theorem reads_joinName {m : Node} (hn : Reads c n s.cursor)
    (h : joinName letters n s = .done m t) : Reads c m t.cursor := by
  cases (joinName_ends letters n s).of_done h with
  | alone => exact hn
  | @joined w suffix _ _ hfollows hname =>
    have hmark := peek_of_joinFollows hfollows
    obtain ⟨hspent, hsuffix⟩ := spent_name (p := True) hname
    have hw : Spent True c s.cursor w.toList := hn.spent.mono fun _ => (hn.clean w rfl).2
    have hboth := (hw.trans (spent_char hmark (by decide))).trans hspent
    refine ⟨?_, clean_joined hn.clean rfl hsuffix⟩
    simpa [spell] using hboth.exact

/-- Also a name that begins with the characters of a numeral is read from the characters that it
spells: there is no point among them. -/
theorem reads_numeral (h : numeral letters s = .done n t) : Reads s.cursor n t.cursor := by
  cases (numeral_ends letters s).of_done h with
  | number hn =>
    refine ⟨?_, clean_of_name?_eq_none rfl⟩
    rw [spell, String.toList_ofList, hn]
    exact spent_numeral s.cursor
  | @name m w _ hm hall hname =>
    have hpart : ∀ x ∈ m.text, letters.isPart x = true := List.all_eq_true.mp hall
    have hkept : m.text.filter (· ≠ '.') = m.text := by
      refine List.filter_eq_self.mpr fun x hx => decide_eq_true ?_
      rintro rfl
      exact absurd (hpart _ hx) (by decide)
    obtain ⟨hspent, hw⟩ := spent_name (p := True) hname
    have hdigits := spent_numeral (p := True) s.cursor
    rw [← hm, hkept] at hdigits
    have hboth : (String.ofList m.text ++ w).toList = m.text ++ w.toList := by simp
    refine ⟨?_, clean_plain ?_⟩
    · rw [Node.plain, spell, hboth]
      exact (hdigits.trans hspent).exact
    · rw [Worded, hboth]
      intro x hx
      rcases List.mem_append.mp hx with hx | hx
      · exact hpart x hx
      · exact hw x hx

theorem yields_term (h : Holds Accounts rules) (hquote : '\'' ∉ s.cursor.text) {x : Term}
    (hx : TermBy .standard rules s x t) : Yields .primary s.cursor x t.cursor := by
  cases hx with
  | again hnumeral hprimary => exact h hprimary hquote
  | pair hprimary => exact h hprimary hquote
  | node hprimary hjoin =>
    have hn : Reads _ _ _ := h hprimary hquote
    exact reads_joinName hn hjoin

/-- An operator that has been passed, with its operand. -/
theorem reads_unary (h : Holds Accounts rules) {operator : String} (hquote : '\'' ∉ c.text)
    (hop : Spent True c s.cursor operator.toList)
    (hargument : rules .operand s = .done (some n) t) :
    Reads c (.unary operator n true) t.cursor := by
  have hn := (h hargument (hop.unquoted hquote)).reads
  refine ⟨?_, clean_of_name?_eq_none rfl⟩
  rw [spell]
  exact hop.exact.trans (hn.spent.mono fun hall => hall.child (by simp [Node.children]))

theorem reads_ofTerm (h : Holds Accounts rules) (hquote : '\'' ∉ c.text) {x : Term}
    (hx : Yields .primary c x s.cursor) (hn : OfTermBy .standard rules s x n t) :
    Reads c n t.cursor := by
  cases hn with
  | @pairs key value keys _ hpairs =>
    have hpair : Spent (Unrepeated value) c s.cursor (key.toList ++ '=' :: spell value) := hx
    obtain ⟨cs, hcs, hperm, hordered⟩ := h hpairs (hpair.unquoted hquote)
    have hfirst : spellKeys (addValue [] key value) = key.toList ++ '=' :: spell value := by
      simp [addValue, Keyed.alter, spellKeys, spellEntry]
    rw [hfirst] at hperm hordered
    refine ⟨?_, clean_of_name?_eq_none rfl⟩
    have hspent : Spent (Unrepeated (.keyValues keys)) c t.cursor
        (key.toList ++ '=' :: spell value ++ cs) :=
      (hpair.mono fun ha => (unrepeated_of_addValue (hordered ha).2).2).trans hcs
    rw [spell]
    exact hspent.reorder hperm fun ha => ⟨ha, (hordered ha).1⟩
  | @operator w property argument _ hw hargument =>
    have hname : Reads c (.identifier w none property) s.cursor := hx
    have hspent : Spent True c s.cursor w.toList :=
      hname.spent.mono fun _ => (hname.clean w rfl).2
    exact reads_unary h hquote hspent hargument
  | @number w property x hw hnumber =>
    have hname : Reads c (.identifier w none property) s.cursor := hx
    have hspent : Spent True c s.cursor w.toList :=
      hname.spent.mono fun _ => (hname.clean w rfl).2
    refine ⟨?_, clean_of_name?_eq_none rfl⟩
    have hpoint : ∀ y ∈ w.toList, y ≠ '.' := by
      rintro _ hy rfl
      exact absurd ((hname.clean w rfl).1 '.' hy) (by decide)
    have hkept : w.toList.filter (· ≠ '.') = w.toList :=
      List.filter_eq_self.mpr fun y hy => decide_eq_true (hpoint y hy)
    rw [spell, hkept]
    exact hspent.exact
  | whole => exact hx

theorem finds_operand (h : Holds Accounts rules) (hquote : '\'' ∉ s.cursor.text)
    {a : Option Node}
    (ha : OperandBy .standard rules { s with cursor := s.cursor.skipBlanks } a t) :
    Finds s.cursor a t.cursor := by
  have hskip : Spent True s.cursor s.cursor.skipBlanks [] := spent_skipBlanks _
  have hskipped := hskip.unquoted hquote
  have hnone : Finds s.cursor none s.cursor.skipBlanks := ⟨nofun, fun _ => hskip⟩
  have hsome : ∀ {n : Node}, Reads s.cursor.skipBlanks n t.cursor →
      Finds s.cursor (some n) t.cursor :=
    fun hn => finds_some ⟨hskip.exact.trans hn.spent, hn.clean⟩
  cases ha with
  | nothing => exact hnone
  | numeral hpeek hc hnumeral =>
    rcases (numeralOperand_ends hpeek).of_done hnumeral with hnumeral | ⟨x, u, hx, hn⟩
    · exact hsome (reads_numeral hnumeral)
    · exact hsome (reads_ofTerm h hskipped (yields_term h hskipped hx) hn)
  | joinable hpeek => exact absurd (mem_of_peek? hpeek) hskipped
  | text hpeek htext =>
    refine hsome ⟨?_, clean_of_name?_eq_none rfl⟩
    rw [spell]
    · exact spent_quotation hpeek htext
    · simp
  | primary hpeek hc hprimary =>
    obtain ⟨x, u, hx, hn⟩ := (primaryOperand_ends hpeek hc).of_done hprimary
    exact hsome (reads_ofTerm h hskipped (yields_term h hskipped hx) hn)
  | @array elements _ hpeek hitems =>
    have hbracket := spent_silent (p := ∀ n ∈ elements, Unrepeated n) hpeek (by decide)
    have helements := hbracket.trans (h hitems (hbracket.unquoted hskipped))
    exact hsome ⟨helements.mono fun hn m hm => hn.child hm, clean_of_name?_eq_none rfl⟩
  | operator hpeek hc hoperator =>
    cases (leadingOperator_ends s).of_done hoperator with
    | nothing => exact hnone
    | operator hop hargument =>
      exact hsome (reads_unary h hskipped (spent_unaryAt? hop) hargument)

/-- The operators of the standard grammar have precedences above zero, and do not begin with a
character of names. -/
theorem standard_of_binaryOperator {o : String × Int}
    (h : binaryOperator .standard s = .done (some o) t) :
    0 < o.2 ∧ o.1.toList.head?.any letters.isPart = false := by
  have hall : ∀ o ∈ OperatorTable.standardBinary, 0 < o.2 ∧
      o.1.toList.head?.any letters.isPart = false := by decide +kernel
  cases (binaryOperator_ends .standard s).of_done h with
  | operator hop => exact hall _ (mem_of_precedence? (OperatorTable.binaryAt?_spec hop).1)

theorem standing_carried (cs : List Char) (u : Prop) : OperatorStack.Carried (Standing cs u) := by
  rintro right left operands operator precedence operators ⟨hspells, hunrepeated, hclean⟩
  refine ⟨?_, fun h => hunrepeated ?_, ?_⟩
  · rw [spellStack_combine, hspells]
  · simp only [List.forall_mem_cons] at h ⊢
    obtain ⟨hleft, hright⟩ := unrepeated_ofOperator h.1
    exact ⟨hright, hleft, h.2⟩
  · simp only [List.forall_mem_cons] at hclean ⊢
    exact ⟨clean_of_name?_eq_none (Node.name?_ofOperator operator left right), hclean.2.2⟩

theorem standing_push {cs : List Char} {u : Prop} {stack : OperatorStack}
    (h : Standing cs u stack) (operator : String) (precedence : Int) {right : Node}
    (hright : Clean right) :
    Standing (cs ++ operator.toList ++ spell right) (u ∧ Unrepeated right)
      (stack.push operator precedence right) := by
  refine ⟨?_, fun hall => ?_, List.forall_mem_cons.mpr ⟨hright, h.clean⟩⟩
  · rw [← h.spells]
    rfl
  · rw [OperatorStack.push, List.forall_mem_cons] at hall
    exact ⟨h.unrepeated hall.2, hall.1⟩

theorem standing_start {left right : Node} (operator : String) (precedence : Int)
    (hleft : Clean left) (hright : Clean right) :
    Standing (spell left ++ operator.toList ++ spell right) (Unrepeated left ∧ Unrepeated right)
      (.start left operator precedence right) :=
  ⟨rfl, fun hall => ⟨hall left (by simp [OperatorStack.start]),
    hall right (by simp [OperatorStack.start])⟩, by simp [OperatorStack.start, hleft, hright]⟩

theorem yields_chain (h : Holds Accounts rules) (hquote : '\'' ∉ s.cursor.text)
    {stack : OperatorStack} {a : Option Node} (ha : ChainBy .standard rules stack s a t) :
    Yields (.chain stack) s.cursor a t.cursor := by
  intro before u hwhole hstack
  cases ha with
  | @finish o _ hoperator hlast =>
    obtain ⟨n, hn, hlast'⟩ := (standing_carried before u).finish hwhole hstack
    have hspent : Spent (Unrepeated n) s.cursor t.cursor [] := by
      cases o with
      | none => exact spent_noOperator hoperator
      | some o =>
        have hpositive := (standard_of_binaryOperator hoperator).1
        exact absurd (hlast o rfl) (Int.not_le.mpr hpositive)
    refine ⟨n, hn, hlast'.clean n List.mem_cons_self, [], hspent, ?_, ?_⟩
    · rw [List.append_nil]
      exact hlast'.spells
    · exact fun hunrepeated => hlast'.unrepeated (by simpa using hunrepeated)
  | @operand operator precedence right _ _ _ _ hoperator hpositive hright hchain =>
    have hop := spent_binaryOperator (p := True) hoperator
    have hn := (h hright (hop.unquoted hquote)).reads
    obtain ⟨hreduced, hstanding⟩ := (standing_carried before u).reduceFor hwhole hstack precedence
    obtain ⟨n, hn', hclean, cs, hcs, hspell, hunrepeated⟩ :=
      h hchain (hn.spent.unquoted (hop.unquoted hquote)) _ _
        (OperatorStack.whole_push hreduced operator precedence right)
        (standing_push hstanding operator precedence hn.clean)
    refine ⟨n, hn', hclean, operator.toList ++ spell right ++ cs, ?_, ?_,
      fun hall => (hunrepeated hall).1⟩
    · exact (hop.exact.trans (hn.spent.mono fun hall => (hunrepeated hall).2)).trans hcs
    · simp only [hspell, List.append_assoc]

/-- No name of the standard grammar is cut, because none has a `?` in it. -/
theorem splitGlued_of_clean (start : Cursor) (hn : Clean n) (s : State) :
    splitGlued rules start n s = .done n s := by
  have hnone : gluedTest? (n.name?.getD "").toList = none := by
    cases htest : gluedTest? (n.name?.getD "").toList with
    | none => rfl
    | some test =>
      obtain ⟨after, hafter⟩ := Progress.gluedTest?_eq_some htest
      cases hname : n.name? with
      | none => simp [hname] at hafter
      | some w =>
        have hquestion : '?' ∈ w.toList := by
          rw [hname, Option.getD_some] at hafter
          simp [hafter]
        exact absurd ((hn w hname).1 '?' hquestion) (by decide)
  unfold splitGlued
  simp only [hnone]
  rfl

theorem finds_binary (h : Holds Accounts rules) (hquote : '\'' ∉ s.cursor.text)
    {a : Option Node} (ha : binary .standard rules s = .done a t) : Finds s.cursor a t.cursor := by
  have hskip : Spent True s.cursor s.cursor.skipBlanks [] := spent_skipBlanks _
  have hskipped := hskip.unquoted hquote
  cases binary_cases ha with
  | nothing hleft => exact ⟨nofun, fun _ => hskip.trans ((h hleft hskipped).2 rfl)⟩
  | alone hleft hoperator hsplit =>
    have hn := (h hleft hskipped).reads
    rw [splitGlued_of_clean _ hn.clean] at hsplit
    cases hsplit
    have hspent := (hskip.exact.trans hn.spent).skip (spent_noOperator hoperator)
    exact finds_some ⟨hspent, hn.clean⟩
  | word hleft hw hoperator hinside =>
    -- no operator of the standard grammar begins like a name
    have hfirst := (standard_of_binaryOperator hoperator).2
    simp [isInsideWord, hfirst] at hinside
  | @operators left right _ operator precedence _ _ _ _ hleft hoperator hinside hright hchain =>
    have hn := (h hleft hskipped).reads
    have hop := spent_binaryOperator (p := True) hoperator
    have hleftPassed := hn.spent.unquoted hskipped
    have hm := (h hright (hop.unquoted hleftPassed)).reads
    obtain ⟨r, rfl, hclean, cs, hcs, hspell, hunrepeated⟩ :=
      h hchain (hm.spent.unquoted (hop.unquoted hleftPassed)) _ _
        (OperatorStack.whole_start left operator precedence right)
        (standing_start operator precedence hn.clean hm.clean)
    refine finds_some ⟨?_, hclean⟩
    rw [hspell]
    exact (((hskip.exact.trans (hn.spent.mono fun hall => (hunrepeated hall).1)).trans
      hop.exact).trans (hm.spent.mono fun hall => (hunrepeated hall).2)).trans hcs

theorem finds_expression (h : Holds Accounts rules) (hquote : '\'' ∉ s.cursor.text)
    {a : Option Node} (ha : ExpressionBy .standard rules s a t) : Finds s.cursor a t.cursor := by
  cases ha with
  | nothing hbinary => exact finds_binary h hquote hbinary
  | alone hbinary =>
    have hn := (finds_binary h hquote hbinary).reads
    exact finds_some ⟨hn.spent.skip (spent_skipBlanks _), hn.clean⟩
  | @conditional test consequent alternate _ _ _ hbinary hquestion hconsequent hcolon halternate =>
    have htest := (finds_binary h hquote hbinary).reads
    have hmark := (htest.spent.skip (spent_skipBlanks _)).skip
      (spent_silent hquestion (by decide))
    have hm := (h hconsequent (hmark.unquoted hquote)).reads
    have hbranch := (hm.spent.skip (spent_skipBlanks _)).skip (spent_silent hcolon (by decide))
    have hr := (h halternate (hbranch.unquoted (hmark.unquoted hquote))).reads
    refine finds_some ⟨?_, clean_of_name?_eq_none rfl⟩
    rw [spell]
    refine ((hmark.mono fun hn => hn.child ?_).trans (hbranch.mono fun hn => hn.child ?_)).trans
      (hr.spent.mono fun hn => hn.child ?_) <;> simp [Node.children]

theorem yields_statements (h : Holds Accounts rules) (hquote : '\'' ∉ s.cursor.text)
    {ns : List Node} (hns : StatementsBy rules s ns t) :
    Yields .statements s.cursor ns t.cursor := by
  cases hns with
  | nothing hend => exact ⟨.refl _, List.head?_eq_none_iff.mp hend⟩
  | @separator x _ _ hpeek hc hrest =>
    have hsilent : x ∈ silent := by rcases hc with rfl | rfl <;> decide
    have hpassed := spent_silent (p := ∀ n ∈ ns, Unrepeated n) hpeek hsilent
    obtain ⟨hspent, hend⟩ := h hrest (hpassed.unquoted hquote)
    exact ⟨hpassed.trans hspent, hend⟩
  | blanks hpeek hc hexpression hend =>
    exact ⟨((h hexpression hquote).2 rfl).exact, List.head?_eq_none_iff.mp hend⟩
  | expression hpeek hc hexpression hrest =>
    have hspent := (h hexpression hquote).reads.spent
    obtain ⟨hall, hend⟩ := h hrest (hspent.unquoted hquote)
    exact ⟨(hspent.mono fun hns => hns _ List.mem_cons_self).trans
      (hall.mono fun hns m hm => hns m (List.mem_cons_of_mem _ hm)), hend⟩

/-- However many rounds are given, the rules spend what they give. -/
theorem accounts_run (rounds : Nat) : Holds Accounts (run .standard rounds) := by
  refine holds_run (fun n h r s a t ha hquote => ?_) rounds
  cases r with
  | expression => exact finds_expression h hquote ha
  | operand => exact finds_operand h hquote ha
  | primary => exact yields_primary h hquote ha
  | links head => exact yields_links h hquote ha
  | items b =>
    have hskip := spent_skipBlanks (p := ∀ n ∈ a, Unrepeated n) s.cursor
    exact hskip.trans (spent_items h (hskip.unquoted hquote) ha)
  | chain stack => exact yields_chain h hquote ha
  | pairs keys =>
    have hskip := spent_afterComma (p := Unrepeated (.keyValues a)) s
    obtain ⟨cs, hcs, hkeys⟩ := yields_pairs h (hskip.unquoted hquote) ha
    exact ⟨cs, hskip.trans hcs, hkeys⟩
  | statements => exact yields_statements h hquote ha

end

theorem spell_ofStatements (ns : List Node) : spell (.ofStatements ns) = spellAll ns := by
  unfold Node.ofStatements
  split <;> simp [spell, spellAll]

theorem unrepeated_of_ofStatements {ns : List Node} (h : Unrepeated (.ofStatements ns)) :
    ∀ n ∈ ns, Unrepeated n := by
  unfold Node.ofStatements at h
  split at h
  · simpa using h
  · exact fun n hn => h.child hn

/-- In the standard grammar, the tree of a source without single quotes spells the characters of
the source, the silent ones apart: in their order if no key in it is repeated, and in some order in
every case. -/
theorem spell_of_parse (source : String) (hquote : '\'' ∉ source.toList) (t : Node)
    (h : Grammar.standard.parse source = .ok t) :
    (spell t).Perm (flat .outside source.toList) ∧
      (Unrepeated t → spell t = flat .outside source.toList) := by
  obtain ⟨ns, u, hrun, rfl⟩ := exists_statements_of_parse h
  obtain ⟨hspent, hend⟩ := accounts_run _ hrun hquote
  have hleft : left u.cursor = [] := by rw [left, hend, flat]
  rw [spell_ofStatements]
  refine ⟨?_, fun hn => ?_⟩
  · have hperm := hspent.perm
    rwa [hleft, List.append_nil] at hperm
  · have hordered := hspent.ordered (unrepeated_of_ofStatements hn)
    rwa [hleft, List.append_nil] at hordered

/-- A repeated key, which moves the value after it, and a source without one. -/
theorem spell_of_parse_repeated_key :
    let one : Node := .literal (.number (.ofInt 1)) "1"
    let two : Node := .literal (.number (.ofInt 2)) "2"
    let text : Node := .literal (.string "x.y") "\"x.y\""
    let t : Node := .call (.plain "f") [.keyValues [("a", .many [one, two]), ("b", .single text)]]
    let u : Node := .binary "*" (.unary "-" (.member false (.plain "c") (.plain "d")) true)
      (.literal (.number (.ofDecimal 15 (-1))) "1.5")
    (Grammar.standard.parse "f(a=1, b=\"x.y\", a=2)" = .ok t ∧
      (spell t).Perm "fa=1b=\"x.y\"a=2".toList ∧ spell t = "fa=1a=2b=\"x.y\"".toList) ∧
    Grammar.standard.parse "-c.d * 1.5" = .ok u ∧ spell u = "-cd*15".toList := by
  intro one two text t u
  have ht : Grammar.standard.parse "f(a=1, b=\"x.y\", a=2)" = .ok t := by decide +kernel
  have hu : Grammar.standard.parse "-c.d * 1.5" = .ok u := by decide +kernel
  have hunrepeated : Unrepeated u := by
    intro keys hkeys
    simp [u, Node.plain, Node.parts, Node.optionParts] at hkeys
  refine ⟨⟨ht, ?_, by decide +kernel⟩, hu, ?_⟩
  · exact (spell_of_parse _ (by decide) t ht).1
  · exact (spell_of_parse _ (by decide) u hu).2 hunrepeated

end ExprTree.Accounting
