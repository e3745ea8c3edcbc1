import ExprTree.Proofs.Collected
import ExprTree.Proofs.Reading
import ExprTree.Proofs.Shapes
import Mathlib.Data.List.Infix

/-!
Names with a `?` in the standard grammar. No character of a name is one, so only a text in single
quotes that is joined with a name can have a `?` in its name. Such a name is cut only right where it
was read; there it is spelled by the text ahead, so the cut is inside of the text, and the `?` it
goes back to begins a conditional. So all that an expression gives is `Uncut`.
-/

namespace ExprTree.Cuts

open Parse Standard Precedence Collected Progress Reading Lexemes Origins

section

variable {x : Char} {xs ys : List Char}

theorem splitAtLast_eq_none (h : x ∉ xs) : splitAtLast x xs = none := by
  cases hsplit : splitAtLast x xs with
  | none => rfl
  | some split =>
    have hmem : x ∈ xs := by
      rw [splitAtLast_eq_some hsplit]
      exact List.mem_append_right _ List.mem_cons_self
    exact absurd hmem h

theorem splitAtLast_append (h : x ∉ ys) :
    splitAtLast x (xs ++ ys) = (splitAtLast x xs).map fun split => (split.1, split.2 ++ ys) := by
  induction xs with
  | nil => exact splitAtLast_eq_none h
  | cons c xs ih =>
    rw [List.cons_append, splitAtLast, splitAtLast, ih]
    cases splitAtLast x xs with
    | some split => rfl
    | none => by_cases hc : c = x <;> simp [hc]

theorem splitAtLast_of_not_mem (h : x ∉ ys) : splitAtLast x (xs ++ x :: ys) = some (xs, ys) := by
  induction xs with
  | nil => simp [splitAtLast, splitAtLast_eq_none h]
  | cons c xs ih => rw [List.cons_append, splitAtLast, ih]

theorem gluedTest?_of_not_mem (hquestion : '?' ∉ ys) (hcolon : ':' ∉ ('?' :: ys).dropLast) :
    gluedTest? (xs ++ '?' :: ys) = some xs := by
  simp [gluedTest?, splitAtLast_of_not_mem hquestion, hcolon]

/-- A name that is left whole is left whole also with more characters after it. -/
theorem gluedTest?_append (h : gluedTest? xs = none) (hys : '?' ∉ ys) :
    gluedTest? (xs ++ ys) = none := by
  unfold gluedTest? at h ⊢
  rw [splitAtLast_append hys]
  cases hsplit : splitAtLast '?' xs with
  | none => rfl
  | some split =>
    rw [hsplit] at h
    have hcolon : ':' ∈ ('?' :: split.2).dropLast := by simpa using h
    suffices ':' ∈ ('?' :: (split.2 ++ ys)).dropLast by simpa using this
    cases ys with
    | nil => rwa [List.append_nil]
    | cons y ys =>
      rw [← List.cons_append, List.dropLast_append_of_ne_nil (List.cons_ne_nil y ys)]
      exact List.mem_append_left _ (List.mem_of_mem_dropLast hcolon)

theorem gluedTest?_eq_none (h : '?' ∉ xs) : gluedTest? xs = none := by
  rw [gluedTest?, splitAtLast_eq_none h]

end

/-- A node that is not a name, or a name that is left whole. -/
def Uncut (n : Node) : Prop :=
  gluedTest? (n.name?.getD "").toList = none

/-- A name that the text ahead spells up to the place where it ends. -/
def Verbatim (s : State) (a : Node) (t : State) : Prop :=
  ∃ w, a.name? = some w ∧ s.cursor.skipBlanks.ahead = w.toList ++ t.cursor.ahead ∧
    w.toList.getLast? ≠ some ':'

section

variable {s t : State} {a : Node} {w : String}

theorem uncut_of_name?_eq_none (h : a.name? = none) : Uncut a := by
  rw [Uncut, h]
  rfl

theorem uncut_of_not_mem (h : '?' ∉ w.toList) (object property : Option Node) :
    Uncut (.identifier w object property) :=
  gluedTest?_eq_none h

/-- A name is made of letters, and the text ahead begins with it. -/
theorem name_done {l : Letters} (h : name l s = .done w t) :
    (∀ c ∈ w.toList, l.isPart c = true) ∧ w.toList ≠ [] ∧
      s.cursor.ahead = w.toList ++ t.cursor.ahead := by
  obtain ⟨c, rest, hw, -⟩ := exists_cons_of_name h
  obtain ⟨-, -, -, rfl, rfl⟩ := name_cases h
  have hsplit : s.cursor.ahead =
      s.cursor.ahead.takeWhile l.isPart ++ s.cursor.ahead.dropWhile l.isPart :=
    List.takeWhile_append_dropWhile.symm
  refine ⟨?_, by simp [hw], ?_⟩
  · rw [String.toList_ofList]
    exact fun _ => List.mem_takeWhile_imp
  · rw [String.toList_ofList, ahead_advance_of_append hsplit, ← hsplit]

/-- A name of the standard grammar has no `?`, and does not end in a colon. -/
theorem name_clear (h : name letters s = .done w t) :
    '?' ∉ w.toList ∧ w.toList.getLast? ≠ some ':' ∧ w.toList ≠ [] ∧
      s.cursor.ahead = w.toList ++ t.cursor.ahead := by
  obtain ⟨hall, hne, hahead⟩ := name_done h
  have hnot : ∀ c, letters.isPart c = false → c ∉ w.toList := by
    intro c hc hmem
    rw [hall c hmem] at hc
    cases hc
  refine ⟨hnot '?' (by decide), fun hlast => ?_, hne, hahead⟩
  exact hnot ':' (by decide) (List.mem_of_getLast? hlast)

theorem raw_prefix_of_scan (quote : Char) (cs : List Char) :
    (Quotation.scan quote cs).raw <+: cs := by
  fun_induction Quotation.scan quote cs with
  | case1 => exact List.nil_prefix
  | case2 rest => exact List.cons_prefix_cons.mpr ⟨rfl, List.nil_prefix⟩
  | case3 => exact List.cons_prefix_cons.mpr ⟨rfl, List.nil_prefix⟩
  | case4 e rest q hquote ih =>
    exact List.cons_prefix_cons.mpr ⟨rfl, List.cons_prefix_cons.mpr ⟨rfl, ih⟩⟩
  | case5 c rest hquote hescape q ih => exact List.cons_prefix_cons.mpr ⟨rfl, ih⟩

theorem quotation_ahead {value raw : String} (h : quotation s = .done (value, raw) t) :
    s.cursor.ahead = raw.toList ++ t.cursor.ahead := by
  cases (quotation_ends s).of_done h with
  | @closed quote rest hahead =>
    obtain ⟨more, hmore⟩ := raw_prefix_of_scan quote rest
    have hsplit : s.cursor.ahead = (quote :: (Quotation.scan quote rest).raw) ++ more := by
      rw [hahead, List.cons_append, hmore]
    rw [String.toList_ofList, ← List.length_cons, ahead_advance_of_append hsplit, ← hsplit]

theorem ahead_of_peek? {c : Char} (h : s.cursor.peek? = some c) :
    s.cursor.ahead = c :: (s.cursor.advance 1).ahead := by
  obtain ⟨rest, hrest⟩ := List.head?_eq_some_iff.mp h
  rw [ahead_advance_one hrest, hrest]

/-- What a name is joined with is a name of the standard grammar, and the text ahead is spelled. -/
theorem suffix_done {suffix : String} (hmark : s.cursor.peek? = some '!')
    (h : name letters { s with cursor := s.cursor.advance 1 } = .done suffix t) :
    '?' ∉ suffix.toList ∧ suffix.toList.getLast? ≠ some ':' ∧ suffix.toList ≠ [] ∧
      s.cursor.ahead = '!' :: (suffix.toList ++ t.cursor.ahead) := by
  obtain ⟨hquestion, hcolon, hne, hahead⟩ := name_clear h
  exact ⟨hquestion, hcolon, hne, by rw [ahead_of_peek? hmark, hahead]⟩

theorem joinName_uncut {b : Node} (ha : Uncut a) (h : joinName letters a s = .done b t) :
    Uncut b := by
  cases (joinName_ends letters a s).of_done h with
  | alone => exact ha
  | joined hfollows hname =>
    obtain ⟨hquestion, -⟩ := suffix_done (peek_of_joinFollows hfollows) hname
    rw [Uncut, Node.name?, Option.getD_some, String.toList_append, String.toList_append,
      List.append_assoc]
    exact gluedTest?_append ha (by simpa using hquestion)

theorem joinableText_verbatim (h : joinableText letters s = .done a t) :
    Uncut a ∨ ∃ w, a.name? = some w ∧ s.cursor.ahead = w.toList ++ t.cursor.ahead ∧
      w.toList.getLast? ≠ some ':' := by
  cases (joinableText_ends letters s).of_done h with
  | alone => exact .inl (uncut_of_name?_eq_none rfl)
  | joined htext hfollows hname =>
    obtain ⟨-, hcolon, hne, hahead⟩ := suffix_done (peek_of_joinFollows hfollows) hname
    refine .inr ⟨_, rfl, ?_, ?_⟩
    · rw [quotation_ahead htext, hahead]
      simp
    · rw [String.toList_append, List.getLast?_append_of_ne_nil _ hne]
      exact hcolon

theorem wordNode_uncut (hw : '?' ∉ w.toList) : Uncut (Grammar.standard.wordNode w) := by
  unfold Grammar.wordNode
  split
  · exact uncut_of_name?_eq_none rfl
  · split
    · exact uncut_of_name?_eq_none rfl
    · exact uncut_of_not_mem hw none none

end

/-- What a rule gives is not cut, but for an operand that was read just there. -/
def Clears : (r : Rule) → State → r.Answer → State → Prop
  | .expression, _, a, _ => ∀ n ∈ a, Uncut n
  | .operand, s, a, t => ∀ n ∈ a, Uncut n ∨ Verbatim s n t
  | .primary, _, x, _ => ∀ n, x = .node n → Uncut n
  | .links head, _, a, _ => Uncut head → Uncut a
  | .items _, _, _, _ | .chain _, _, _, _ | .pairs _, _, _, _ | .statements, _, _, _ => True

section

variable {rules : Rules} {s t : State} {a : Node}

theorem head_uncut (h : Holds Clears rules) (ha : HeadBy .standard rules s (.node a) t) :
    Uncut a := by
  cases ha with
  | word hparen hname => exact wordNode_uncut (name_clear hname).1
  | group hopen hinside => exact h hinside a rfl

theorem primary_uncut (h : Holds Clears rules) {x : Term} (hx : PrimaryBy .standard rules s x t) :
    ∀ n, x = .node n → Uncut n := by
  cases hx with
  | pair => rintro n ⟨⟩
  | linked hhead hlinks => exact forall_eq_node (h hlinks (head_uncut h hhead))

theorem links_uncut (h : Holds Clears rules) {head : Node}
    (ha : LinksBy .standard rules head s a t) (hhead : Uncut head) : Uncut a := by
  cases ha with
  | last => exact hhead
  | next hlink hlinks => exact h hlinks (uncut_of_name?_eq_none hlink.name?_eq_none)

theorem term_uncut (h : Holds Clears rules) {x : Term} (hx : TermBy .standard rules s x t) :
    ∀ n, x = .node n → Uncut n := by
  cases hx with
  | again hnumeral hprimary => exact h hprimary
  | pair => rintro n ⟨⟩
  | node hprimary hjoin => exact forall_eq_node (joinName_uncut (h hprimary _ rfl) hjoin)

theorem ofTerm_uncut {x : Term} (hx : ∀ n, x = .node n → Uncut n)
    (ha : OfTermBy .standard rules s x a t) : Uncut a := by
  cases ha with
  | pairs | operator | number => exact uncut_of_name?_eq_none rfl
  | whole => exact hx a rfl

theorem numeral_uncut (h : numeral letters s = .done a t) : Uncut a := by
  cases (numeral_ends letters s).of_done h with
  | number => exact uncut_of_name?_eq_none rfl
  | name hn hall hname =>
    refine uncut_of_not_mem ?_ none none
    rw [String.toList_append, String.toList_ofList, List.mem_append, not_or]
    refine ⟨fun hmem => ?_, (name_clear hname).1⟩
    cases List.all_eq_true.mp hall '?' hmem

/-- No numeral begins like a name. -/
theorem isStart_of_numeral {c : Char} (h : (c.isDigit || c == '.') = true) :
    letters.isStart c = false := by
  rw [← Bool.not_eq_true]
  intro hstart
  rw [Bool.or_eq_true, isDigit_of_isStart hstart, beq_iff_eq] at h
  rcases h with h | rfl
  · cases h
  · cases hstart

/-- An operand that is cut begins as a quoted text. -/
theorem operand_uncut (h : Holds Clears rules)
    (ha : OperandBy .standard rules { s with cursor := s.cursor.skipBlanks } (some a) t) :
    Uncut a ∨ s.cursor.skipBlanks.peek? = some '\'' ∧
      joinableText letters { s with cursor := s.cursor.skipBlanks } = .done a t := by
  cases ha with
  | numeral hpeek hc hnumeral =>
    rcases (numeralOperand_ends hpeek).of_done hnumeral with hnumeral | ⟨x, u, hx, hn⟩
    · exact .inl (numeral_uncut hnumeral)
    · exact .inl (ofTerm_uncut (term_uncut h hx) hn)
  | joinable hpeek htext => exact .inr ⟨hpeek, htext⟩
  | text => exact .inl (uncut_of_name?_eq_none rfl)
  | primary hpeek hc hprimary =>
    obtain ⟨x, u, hx, hn⟩ := (primaryOperand_ends hpeek hc).of_done hprimary
    exact .inl (ofTerm_uncut (term_uncut h hx) hn)
  | array => exact .inl (uncut_of_name?_eq_none rfl)
  | operator hpeek hc hoperator =>
    cases (leadingOperator_ends s).of_done hoperator with
    | operator => exact .inl (uncut_of_name?_eq_none rfl)

theorem operand_clear (h : Holds Clears rules) {b : Option Node}
    (hb : OperandBy .standard rules { s with cursor := s.cursor.skipBlanks } b t) :
    ∀ n ∈ b, Uncut n ∨ Verbatim s n t := by
  rintro n rfl
  rcases operand_uncut h hb with huncut | ⟨-, htext⟩
  · exact .inl huncut
  · exact joinableText_verbatim htext

end

/-- No operator of the standard grammar is in the middle of a word. -/
theorem isInsideWord_standard {s t : State} {operator : String} {precedence : Int}
    (h : binaryOperator .standard s = .done (some (operator, precedence)) t) (left : Node)
    (isolated : Bool) (next : Option Char) :
    isInsideWord .standard left isolated operator next = false := by
  obtain ⟨p, hp⟩ := Option.isSome_iff_exists.mp (Shapes.precedence?_of_binaryOperator h)
  have hfirst := (shape_of_mem (mem_of_precedence? hp)).first
  cases hhead : operator.toList.head? with
  | none => simp [isInsideWord, hhead]
  | some c =>
    have hc : Grammar.standard.letters.isPart c = false := (hfirst c hhead).2.2.2
    simp [isInsideWord, hhead, hc]

section

variable {rules : Rules} {start : Cursor} {s : State} {left : Node}

theorem splitGlued_of_uncut (h : Uncut left) : splitGlued rules start left s = .done left s := by
  unfold splitGlued
  rw [show gluedTest? (left.name?.getD "").toList = none from h]
  rfl

/-- A name that does not end in a colon is cut without looking further ahead. -/
theorem splitGlued_of_gluedTest? {test : List Char}
    (h : gluedTest? (left.name?.getD "").toList = some test)
    (hcolon : (left.name?.getD "").toList.getLast? ≠ some ':') :
    splitGlued rules start left s =
      .done (.plain (String.ofList test)) { s with cursor := start.advance test.length } := by
  unfold splitGlued
  rw [h]
  simp only [hcolon, if_false]
  rfl

/-- A name that ends in a colon is cut exactly if an expression is found ahead. -/
theorem splitGlued_of_colon {test : List Char} {found : Option (Option Node)}
    (h : gluedTest? (left.name?.getD "").toList = some test)
    (hcolon : (left.name?.getD "").toList.getLast? = some ':')
    (hlook : lookAhead (rules .expression) s = .done found s) :
    splitGlued rules start left s =
      if found.join.isSome then
        .done (.plain (String.ofList test)) { s with cursor := start.advance test.length }
      else .done left s := by
  unfold splitGlued
  simp only [h, hcolon, if_true, bind_bind]
  rw [bind_of_done hlook, return_bind, ite_step]
  rfl

/-- The place that a name is cut at is inside of the text that spells it. -/
theorem ahead_of_gluedTest? {w test rest : List Char} (h : gluedTest? w = some test)
    (hahead : start.ahead = w ++ rest) :
    test.length ≤ start.ahead.length ∧ ∃ more, (start.advance test.length).ahead = '?' :: more := by
  obtain ⟨after, rfl⟩ := gluedTest?_eq_some h
  have hsplit : start.ahead = test ++ ('?' :: after ++ rest) := by
    rw [hahead, List.append_assoc]
  exact ⟨by simp [hsplit], after ++ rest, ahead_advance_of_append hsplit⟩

end

section

variable {n : Nat} {s t : State} {a : Node}

/-- What a binary expression gives is not cut, or its end is right in front of the `?` of a
conditional. -/
theorem binary_clear (h : Holds Clears (run .standard n))
    (hdone : Parse.binary .standard (run .standard n) s = .done (some a) t) :
    Uncut a ∨ ∃ more, t.cursor.ahead = '?' :: more := by
  cases binary_cases hdone with
  | @alone left _ _ _ _ hleft hoperator hsplit =>
    by_cases huncut : Uncut left
    · rw [splitGlued_of_uncut huncut] at hsplit
      cases hsplit
      exact .inl huncut
    · obtain ⟨name, hname, hahead, hcolon⟩ := (h hleft left rfl).resolve_left huncut
      obtain ⟨test, htest⟩ := Option.ne_none_iff_exists'.mp huncut
      rw [hname, Option.getD_some] at htest
      rw [Cursor.skipBlanks_skipBlanks] at hahead
      rw [splitGlued_of_gluedTest? (by rw [hname]; exact htest) (by rw [hname]; exact hcolon)]
        at hsplit
      cases hsplit
      exact .inr (ahead_of_gluedTest? htest hahead).2
  | word hleft hw hoperator hinside hrest =>
    rw [isInsideWord_standard hoperator] at hinside
    cases hinside
  | operators hleft hoperator hinside hright hchain =>
    exact .inl (uncut_of_name?_eq_none (Collected.name?_of_chain hchain))

theorem expression_clear (h : Holds Clears (run .standard n)) {b : Option Node}
    (hb : ExpressionBy .standard (run .standard n) s b t) : ∀ m ∈ b, Uncut m := by
  cases hb with
  | nothing hbinary => rintro m ⟨⟩
  | alone hbinary hquestion =>
    rintro m ⟨⟩
    refine (binary_clear h hbinary).resolve_right ?_
    rintro ⟨more, hmore⟩
    rw [Cursor.peek?, ahead_skipBlanks_of_ahead hmore, dropWhile_isBlank_cons (by decide)]
      at hquestion
    exact hquestion rfl
  | conditional =>
    rintro m ⟨⟩
    exact uncut_of_name?_eq_none rfl

end

/-- In any number of rounds the rules of the standard grammar keep clear of cuts. -/
theorem clears_run (n : Nat) : Holds Clears (run .standard n) := by
  refine holds_run (fun n h r s a t ha => ?_) n
  cases r with
  | expression => exact expression_clear h ha
  | operand => exact operand_clear h ha
  | primary => exact primary_uncut h ha
  | links head => exact links_uncut h ha
  | items | chain | pairs | statements => trivial

end ExprTree.Cuts
