import ExprTree.Proofs.Agreement
import ExprTree.Proofs.Cuts

/-!
Texts of the standard grammar that go on with a semicolon. No character of a name, of a numeral or
of an operator is one, and no rule below the statements passes one; so a rule that is done with a
text is done with the same value, and at the same place, if the text goes on with a semicolon. The
only look further ahead, at a colon at the end of a name that is cut, is never taken here, see
`ExprTree.Proofs.Cuts`.
-/

namespace ExprTree

/-- The same place in a text that goes on with a semicolon. -/
def Cursor.continued (c : Cursor) (rest : List Char) : Cursor :=
  ⟨c.passed, c.ahead ++ ';' :: rest⟩

def State.continued (s : State) (rest : List Char) : State :=
  { s with cursor := s.cursor.continued rest }

namespace Continued

open Parse Standard Reading Histories Cuts

section

variable {rest xs : List Char} {c : Cursor} {p : Char → Bool}

theorem head_semicolon (hp : p ';' = false) : ∀ d ∈ (';' :: rest).head?, p d = false :=
  forall_mem_head?_cons rest hp

theorem ahead_continued (c : Cursor) (rest : List Char) :
    (c.continued rest).ahead = c.ahead ++ ';' :: rest := rfl

theorem previous?_continued (c : Cursor) (rest : List Char) :
    (c.continued rest).previous? = c.previous? := rfl

theorem takeWhile_continued (hp : p ';' = false) :
    (c.continued rest).ahead.takeWhile p = c.ahead.takeWhile p :=
  takeWhile_append_of_head (head_semicolon hp)

theorem advance_continued {n : Nat} (hn : n ≤ c.ahead.length) :
    (c.continued rest).advance n = (c.advance n).continued rest := by
  simp only [Cursor.continued, Cursor.advance, List.take_append_of_le_length hn,
    List.drop_append_of_le_length hn]

theorem advance_takeWhile_continued (hp : p ';' = false) :
    (c.continued rest).advance ((c.continued rest).ahead.takeWhile p).length =
      (c.advance (c.ahead.takeWhile p).length).continued rest := by
  rw [takeWhile_continued hp]
  exact advance_continued (List.takeWhile_prefix p).length_le

theorem skipBlanks_continued : (c.continued rest).skipBlanks = c.skipBlanks.continued rest :=
  advance_takeWhile_continued (by decide)

theorem peek?_continued_of_some {x : Char} (h : c.peek? = some x) :
    (c.continued rest).peek? = some x := by
  obtain ⟨more, hmore⟩ := List.head?_eq_some_iff.mp h
  rw [Cursor.peek?, ahead_continued, hmore]
  rfl

theorem peek?_continued_of_none (h : c.peek? = none) : (c.continued rest).peek? = some ';' := by
  rw [Cursor.peek?, List.head?_eq_none_iff] at h
  rw [Cursor.peek?, ahead_continued, h]
  rfl

theorem peek?_continued_iff {x : Char} (hx : x ≠ ';') :
    (c.continued rest).peek? = some x ↔ c.peek? = some x := by
  cases h : c.peek? with
  | none =>
    rw [peek?_continued_of_none h]
    simp [hx.symm]
  | some y => rw [peek?_continued_of_some h]

theorem any_peek?_continued (hp : p ';' = false) :
    (c.continued rest).peek?.any p = c.peek?.any p := by
  cases h : c.peek? with
  | none =>
    rw [peek?_continued_of_none h]
    exact hp
  | some y => rw [peek?_continued_of_some h]

theorem peekAt?_continued {x : Char} (h : c.peek? = some x) :
    (c.continued rest).peekAt? 1 = ((c.advance 1).continued rest).peek? := by
  obtain ⟨more, hmore⟩ := List.head?_eq_some_iff.mp h
  cases more <;> simp [Cursor.peekAt?, Cursor.peek?, Cursor.continued, Cursor.advance, hmore]

/-- An operator without a semicolon begins a text if it begins it without what goes on. -/
theorem prefix_continued_iff {op : List Char} (hop : ';' ∉ op) :
    op <+: xs ++ ';' :: rest ↔ op <+: xs := by
  induction op generalizing xs with
  | nil => simp
  | cons x op ih =>
    rw [List.mem_cons, not_or] at hop
    cases xs with
    | nil =>
      rw [List.nil_append, List.cons_prefix_cons]
      constructor
      · intro h
        exact absurd h.1.symm hop.1
      · intro h
        simp at h
    | cons y xs => rw [List.cons_append, List.cons_prefix_cons, List.cons_prefix_cons, ih hop.2]

theorem unaryAt?_continued :
    OperatorTable.standard.unaryAt?
        ((xs ++ ';' :: rest).take OperatorTable.standard.longestUnary) =
      OperatorTable.standard.unaryAt? (xs.take OperatorTable.standard.longestUnary) := by
  refine sound_standard.unaryAt?_congr fun op hop => prefix_continued_iff ?_
  have hunary : OperatorTable.standard.unary = OperatorTable.standardUnary := by decide +kernel
  have hall : ∀ o ∈ OperatorTable.standardUnary, ';' ∉ o.toList := by decide +kernel
  rw [OperatorTable.isUnary, hunary, List.contains_iff_mem] at hop
  exact hall op hop

theorem binaryAt?_continued :
    OperatorTable.standard.binaryAt?
        ((xs ++ ';' :: rest).take OperatorTable.standard.longestBinary) =
      OperatorTable.standard.binaryAt? (xs.take OperatorTable.standard.longestBinary) := by
  refine sound_standard.binaryAt?_congr fun op hop => prefix_continued_iff ?_
  have hall : ∀ o ∈ OperatorTable.standardBinary, ';' ∉ o.1.toList := by decide +kernel
  obtain ⟨p, hp⟩ := Option.isSome_iff_exists.mp hop
  exact hall _ (mem_of_precedence? hp)

theorem joinFollows_continued : joinFollows letters (c.continued rest) = joinFollows letters c := by
  unfold joinFollows
  rw [previous?_continued]
  by_cases hbang : c.peek? = some '!'
  · have hnext : ((c.advance 1).continued rest).peek?.any letters.isStart =
        (c.peekAt? 1).any letters.isStart := by
      rw [any_peek?_continued (by decide)]
      simp [Cursor.peekAt?, Cursor.peek?]
    rw [peek?_continued_of_some hbang, hbang, peekAt?_continued hbang, hnext]
  · have hbang' : (c.continued rest).peek? ≠ some '!' := by
      rwa [ne_eq, peek?_continued_iff (by decide)]
    rw [beq_eq_false_iff_ne.mpr hbang, beq_eq_false_iff_ne.mpr hbang', Bool.and_false,
      Bool.false_and, Bool.false_and]

/-- Whether a single `=` follows is not changed by what goes on. -/
theorem equals_continued :
    ((c.continued rest).peek? = some '=' ∧ (c.continued rest).peekAt? 1 ≠ some '=') ↔
      c.peek? = some '=' ∧ c.peekAt? 1 ≠ some '=' := by
  rw [peek?_continued_iff (by decide)]
  refine and_congr_right fun h => ?_
  rw [peekAt?_continued h, ne_eq, peek?_continued_iff (by decide)]
  simp [Cursor.peekAt?, Cursor.peek?]

end

/-- If the first outcome is done, the second one is done with the same value, at the same place of
the text that goes on. -/
def Extends {α : Type} (rest : List Char) (o o' : Outcome α) : Prop :=
  ∀ a t, o = .done a t → o' = .done a (t.continued rest)

section

variable {α β : Type} {rest : List Char} {s s' : State} {p p' : Parse α}

theorem extends_done (a : α) (s : State) :
    Extends rest (.done a s) (.done a (s.continued rest)) := by
  rintro _ _ ⟨⟩
  rfl

theorem extends_failed (e : ParseError) (o : Outcome α) : Extends rest (.failed e) o := by
  rintro _ _ ⟨⟩

theorem extends_bind {f f' : α → Parse β} (h : Extends rest (p s) (p' s'))
    (hf : ∀ a t, p s = .done a t → Extends rest (f a t) (f' a (t.continued rest))) :
    Extends rest ((p >>= f) s) ((p' >>= f') s') := by
  intro b u hdone
  obtain ⟨a, t, ha, hb⟩ := bind_eq_done.mp hdone
  rw [bind_of_done (h a t ha)]
  exact hf a t ha b u hb

theorem extends_map {f : α → β} (h : Extends rest (p s) (p' s')) :
    Extends rest ((do return f (← p) : Parse β) s) ((do return f (← p') : Parse β) s') :=
  extends_bind h fun a t _ => extends_done (f a) t

theorem extends_ite {c : Prop} [Decidable c] {q q' : Parse α} (hp : c → Extends rest (p s) (p' s'))
    (hq : ¬ c → Extends rest (q s) (q' s')) :
    Extends rest ((if c then p else q) s) ((if c then p' else q') s') := by
  by_cases h : c
  · simpa only [h, if_true] using hp h
  · simpa only [h, if_false] using hq h

theorem extends_require {p p' : Parse (Option α)} (cause : Cause)
    (h : Extends rest (p s) (p' s')) :
    Extends rest (require cause p s) (require cause p' s') := by
  refine extends_bind h fun a t _ => ?_
  cases a with
  | none => exact extends_failed _ _
  | some a => exact extends_done a t

theorem extends_advance {n : Nat} (hn : n ≤ s.cursor.ahead.length) :
    Extends rest (advance n s) (advance n (s.continued rest)) := by
  rintro _ _ ⟨⟩
  exact congrArg (fun c => Outcome.done () (State.mk c s.inBranch)) (advance_continued hn)

theorem extends_skipBlanks (s : State) :
    Extends rest (skipBlanks s) (skipBlanks (s.continued rest)) := by
  rintro _ _ ⟨⟩
  exact congrArg (fun c => Outcome.done () (State.mk c s.inBranch)) skipBlanks_continued

theorem extends_setInBranch (b : Bool) (s : State) :
    Extends rest (setInBranch b s) (setInBranch b (s.continued rest)) := by
  rintro _ _ ⟨⟩
  rfl

theorem extends_takeWhile {q : Char → Bool} (hq : q ';' = false) (s : State) :
    Extends rest (takeWhile q s) (takeWhile q (s.continued rest)) := by
  rintro _ _ ⟨⟩
  have htaken : (s.continued rest).cursor.ahead.takeWhile q = s.cursor.ahead.takeWhile q :=
    takeWhile_continued hq
  unfold takeWhile
  rw [htaken]
  exact congrArg (fun c => Outcome.done _ (State.mk c s.inBranch))
    (advance_continued (List.takeWhile_prefix q).length_le)

theorem length_pos_of_peek? {c : Char} (h : s.cursor.peek? = some c) :
    1 ≤ s.cursor.ahead.length := by
  obtain ⟨more, hmore⟩ := List.head?_eq_some_iff.mp h
  simp [hmore]

/-- Past the next character. -/
theorem extends_advance_one {c : Char} (h : s.cursor.peek? = some c) :
    Extends rest (advance 1 s) (advance 1 (s.continued rest)) :=
  extends_advance (length_pos_of_peek? h)

theorem extends_eat {c : Char} (hc : c ≠ ';') (s : State) :
    Extends rest (eat c s) (eat c (s.continued rest)) := by
  have hpeek : (s.continued rest).cursor.peek? = some c ↔ s.cursor.peek? = some c :=
    peek?_continued_iff hc
  unfold eat
  simp only [hpeek]
  split
  · rename_i h
    have hadvance : (s.cursor.continued rest).advance 1 = (s.cursor.advance 1).continued rest :=
      advance_continued (length_pos_of_peek? h)
    rintro _ _ ⟨⟩
    exact congrArg (fun c => Outcome.done true (State.mk c s.inBranch)) hadvance
  · exact extends_done _ _

theorem extends_expect {c : Char} (hc : c ≠ ';') (cause : Cause) (s : State) :
    Extends rest (expect c cause s) (expect c cause (s.continued rest)) :=
  extends_bind (extends_eat hc s) fun _ _ _ =>
    extends_ite (fun _ => extends_done _ _) fun _ => extends_failed _ _

end

/-- The rules below the statements do the same if the text goes on with a semicolon. -/
def Continues (rest : List Char) (rules : Rules) : Prop :=
  ∀ r, r ≠ .statements → ∀ s, Extends rest (rules r s) (rules r (s.continued rest))

section

variable {rest : List Char} {rules : Rules} {s : State}

theorem name_extends (s : State) :
    Extends rest (name letters s) (name letters (s.continued rest)) := by
  unfold name
  rw [bind_peek_apply, bind_peek_apply]
  cases hpeek : s.cursor.peek? with
  | none => exact extends_failed _ _
  | some c =>
    have hpeek' : (s.continued rest).cursor.peek? = some c := peek?_continued_of_some hpeek
    rw [hpeek']
    refine extends_ite (fun _ => ?_) fun _ => extends_failed _ _
    exact extends_map (f := String.ofList) (extends_takeWhile (by decide) s)

theorem quotation_extends (s : State) :
    Extends rest (quotation s) (quotation (s.continued rest)) := by
  unfold quotation
  rw [bind_here_apply, bind_here_apply]
  have hcontinued : (s.continued rest).cursor.ahead = s.cursor.ahead ++ ';' :: rest := rfl
  rw [hcontinued]
  cases hahead : s.cursor.ahead with
  | nil => exact extends_failed _ _
  | cons quote more =>
    by_cases hclosed : (Quotation.scan quote more).closed = true
    · have hlength : (Quotation.scan quote more).raw.length + 1 ≤ s.cursor.ahead.length := by
        rw [hahead, List.length_cons]
        exact Nat.succ_le_succ (raw_prefix_of_scan quote more).length_le
      simp only [List.cons_append, scan_append hclosed, hclosed, if_true]
      exact extends_bind (extends_advance hlength) fun _ t _ => extends_done _ t
    · simp only [hclosed, Bool.false_eq_true, if_false]
      rw [bind_advance_apply]
      exact extends_failed _ _

theorem nameFromNumeral_extends (text : List Char) (cause cause' : Cause) (s : State) :
    Extends rest (nameFromNumeral letters text cause s)
      (nameFromNumeral letters text cause' (s.continued rest)) :=
  extends_ite (fun _ => extends_map (f := fun w => Node.plain (String.ofList text ++ w))
    (name_extends s)) fun _ => extends_failed _ _

theorem numberOf_extends (n : Numeral) (start : Nat) (s : State) :
    Extends rest (numberOf n start s) (numberOf n start (s.continued rest)) :=
  extends_ite (fun _ => extends_done _ _) fun _ => extends_failed _ _

/-- A semicolon ends a numeral in any way in which the end of the text does. -/
theorem numeral_extends (s : State) :
    Extends rest (numeral letters s) (numeral letters (s.continued rest)) := by
  have hsemicolon : ∀ c ∈ (';' :: rest).head?, c.isDigit = false ∧ c ∉ ['e', 'E', '+', '-', '.'] :=
    forall_mem_head?_cons rest (by decide)
  have hmunch : Numeral.munch (s.continued rest).cursor.ahead =
      ((Numeral.munch s.cursor.ahead).1, (Numeral.munch s.cursor.ahead).2 ++ ';' :: rest) :=
    munch_append hsemicolon
  have hlength : (Numeral.munch s.cursor.ahead).1.text.length ≤ s.cursor.ahead.length := by
    have htext := congrArg List.length (Numeral.text_munch s.cursor.ahead)
    rw [List.length_append] at htext
    omega
  unfold numeral
  rw [bind_here_apply, bind_here_apply, hmunch]
  generalize Numeral.munch s.cursor.ahead = munched at hlength
  obtain ⟨n, more⟩ := munched
  refine extends_bind (extends_advance hlength) fun _ t _ => ?_
  refine extends_ite (fun _ => nameFromNumeral_extends _ _ _ t) fun _ => ?_
  cases more with
  | nil =>
    have hcolon : ¬ (';' : Char) = ':' := by decide
    have hstart : letters.isStart ';' = false := by decide
    have hpoint : ¬ (';' : Char) = '.' := by decide
    simp only [List.nil_append, List.head?_nil, List.head?_cons, bind_inBranch_apply, hcolon,
      false_and, hstart, hpoint, Bool.false_eq_true, if_false]
    exact numberOf_extends n _ _
  | cons c more =>
    simp only [List.cons_append, List.head?_cons, bind_inBranch_apply]
    refine extends_ite (fun _ => numberOf_extends n _ _) fun _ => ?_
    refine extends_ite (fun _ => nameFromNumeral_extends _ _ _ _) fun _ => ?_
    exact extends_ite (fun _ => extends_failed _ _) fun _ => numberOf_extends n _ _

theorem word_extends (h : Continues rest rules) (s : State) :
    Extends rest (word .standard rules s) (word .standard rules (s.continued rest)) := by
  refine extends_bind (name_extends s) fun w t _ => ?_
  have hequals : ((t.continued rest).cursor.peek? = some '=' ∧
      (t.continued rest).cursor.peekAt? 1 ≠ some '=') ↔
        t.cursor.peek? = some '=' ∧ t.cursor.peekAt? 1 ≠ some '=' := equals_continued
  simp only [bind_here_apply, hequals]
  refine extends_ite (fun hpair => ?_) fun _ => extends_done _ _
  refine extends_bind (extends_advance_one hpair.1) fun _ u _ => ?_
  exact extends_map (f := Term.pair w) (extends_require _ (h .expression nofun u))

theorem group_extends (h : Continues rest rules) {c : Char} (hpeek : s.cursor.peek? = some c) :
    Extends rest (group rules s) (group rules (s.continued rest)) := by
  refine extends_bind (extends_advance_one hpeek) fun _ t _ => ?_
  refine extends_bind (extends_require _ (h .expression nofun t)) fun n u _ => ?_
  refine extends_bind (extends_skipBlanks u) fun _ v _ => ?_
  exact extends_bind (extends_expect (by decide) _ v) fun _ w _ => extends_done n w

theorem primary_extends (h : Continues rest rules) (s : State) :
    Extends rest (primary .standard rules s) (primary .standard rules (s.continued rest)) := by
  refine extends_bind ?_ fun x t _ => ?_
  · have hparen : (s.continued rest).cursor.peek? = some '(' ↔ s.cursor.peek? = some '(' :=
      peek?_continued_iff (by decide)
    rw [bind_peek_apply, bind_peek_apply]
    simp only [hparen]
    exact extends_ite (fun hpeek => extends_map (f := Term.node) (group_extends h hpeek))
      fun _ => word_extends h s
  · cases x with
    | pair w value => exact extends_done _ _
    | node n =>
      refine extends_bind (extends_skipBlanks t) fun _ u _ => ?_
      exact extends_map (f := Term.node) (h (.links n) nofun u)

theorem links_extends (h : Continues rest rules) (head : Node) (s : State) :
    Extends rest (links .standard rules head s)
      (links .standard rules head (s.continued rest)) := by
  have hpeek : ∀ c, c ≠ ';' → ((s.continued rest).cursor.peek? = some c ↔
      s.cursor.peek? = some c) := fun c hc => peek?_continued_iff hc
  rw [links_eq, bind_peek_apply, bind_peek_apply]
  simp only [hpeek '.' (by decide), hpeek '[' (by decide), hpeek '(' (by decide)]
  refine extends_ite (fun hnext => ?_) fun _ => extends_ite (fun hnext => ?_) fun _ =>
    extends_ite (fun hnext => ?_) fun _ => extends_done _ _
  · refine extends_bind (extends_advance_one hnext) fun _ t _ => ?_
    refine extends_bind (extends_skipBlanks t) fun _ u _ => ?_
    refine extends_bind (name_extends u) fun w v _ => ?_
    exact extends_bind (extends_skipBlanks v) fun _ x _ => h (.links _) nofun x
  · refine extends_bind (extends_advance_one hnext) fun _ t _ => ?_
    refine extends_bind (extends_require _ (h .expression nofun t)) fun property u _ => ?_
    refine extends_bind (extends_skipBlanks u) fun _ v _ => ?_
    refine extends_bind (extends_expect (by decide) _ v) fun _ x _ => ?_
    exact extends_bind (extends_skipBlanks x) fun _ y _ => h (.links _) nofun y
  · refine extends_bind (extends_advance_one hnext) fun _ t _ => ?_
    refine extends_bind (h (.items .round) nofun t) fun arguments u _ => ?_
    exact extends_bind (extends_skipBlanks u) fun _ v _ => h (.links _) nofun v

theorem items_extends (h : Continues rest rules) (bracket : Bracket) (s : State) :
    Extends rest (items rules bracket s) (items rules bracket (s.continued rest)) := by
  refine extends_bind (extends_skipBlanks s) fun _ u _ => ?_
  rw [bind_peek_apply, bind_peek_apply]
  cases hpeek : u.cursor.peek? with
  | none => exact extends_failed _ _
  | some c =>
    have hpeek' : (u.continued rest).cursor.peek? = some c := peek?_continued_of_some hpeek
    rw [hpeek']
    refine extends_ite (fun _ => ?_) fun _ => extends_ite (fun _ => ?_) fun _ => ?_
    · exact extends_bind (extends_advance_one hpeek) fun _ t _ => extends_done _ t
    · exact extends_bind (extends_advance_one hpeek) fun _ t _ => h (.items bracket) nofun t
    · refine extends_bind (h .expression nofun u) fun a t _ => ?_
      have hitem : ∀ n : Node, Extends rest
          ((do return n :: (← rules (.items bracket)) : Parse (List Node)) t)
          ((do return n :: (← rules (.items bracket)) : Parse (List Node)) (t.continued rest)) :=
        fun n => extends_map (f := (n :: ·)) (h (.items bracket) nofun t)
      rcases a with _ | n
      · exact extends_failed _ _
      · cases n <;> first | exact extends_failed _ _ | exact hitem _

theorem join_extends (raw base : String) (hpeek : s.cursor.peek? = some '!') :
    Extends rest (join letters raw base s) (join letters raw base (s.continued rest)) := by
  refine extends_bind (extends_advance_one hpeek) fun _ t _ => ?_
  exact extends_bind (name_extends t) fun suffix u _ => extends_done _ u

theorem joinName_extends (n : Node) (s : State) :
    Extends rest (joinName letters n s) (joinName letters n (s.continued rest)) := by
  have hfollows : joinFollows letters (s.continued rest).cursor = joinFollows letters s.cursor :=
    joinFollows_continued
  unfold joinName
  rw [bind_here_apply, bind_here_apply, hfollows]
  cases n with
  | identifier w object property =>
    cases object with
    | some object => exact extends_done _ _
    | none =>
      cases hjoin : joinFollows letters s.cursor with
      | false => exact extends_done _ _
      | true => exact join_extends w w (Lexemes.peek_of_joinFollows hjoin)
  | _ => exact extends_done _ _

theorem joinableText_extends (s : State) :
    Extends rest (joinableText letters s) (joinableText letters (s.continued rest)) := by
  refine extends_bind (quotation_extends s) fun text t _ => ?_
  obtain ⟨value, raw⟩ := text
  have hfollows : joinFollows letters (t.continued rest).cursor = joinFollows letters t.cursor :=
    joinFollows_continued
  simp only [bind_here_apply, hfollows]
  exact extends_ite (fun hjoin => join_extends raw value (Lexemes.peek_of_joinFollows hjoin))
    fun _ => extends_done _ _

theorem pairs_extends (h : Continues rest rules) (keys : Keyed (Entry Node)) (s : State) :
    Extends rest (pairs .standard rules keys s)
      (pairs .standard rules keys (s.continued rest)) := by
  refine extends_bind (extends_skipBlanks s) fun _ t _ => ?_
  refine extends_bind (extends_eat (by decide) t) fun _ u _ => ?_
  refine extends_bind (extends_skipBlanks u) fun _ v _ => ?_
  rw [bind_here_apply, bind_here_apply]
  have hstart : (v.continued rest).cursor.peek?.any Grammar.standard.letters.isStart =
      v.cursor.peek?.any Grammar.standard.letters.isStart := any_peek?_continued (by decide)
  rw [hstart]
  refine extends_ite (fun _ => ?_) fun _ => extends_done _ _
  refine extends_bind (h .primary nofun v) fun x w _ => ?_
  cases x with
  | pair key value => exact h (.pairs _) nofun w
  | node n => exact extends_done keys ({ w with cursor := v.cursor } : State)

theorem applyUnary_extends (h : Continues rest rules) (operator : String) (s : State) :
    Extends rest (applyUnary rules operator s) (applyUnary rules operator (s.continued rest)) :=
  extends_bind (extends_require _ (h .operand nofun s)) fun _ _ _ => extends_done _ _

theorem ofTerm_extends (h : Continues rest rules) (x : Term) (s : State) :
    Extends rest (ofTerm .standard rules x s) (ofTerm .standard rules x (s.continued rest)) := by
  cases x with
  | pair key value => exact extends_map (f := Node.keyValues) (h (.pairs _) nofun s)
  | node n =>
    cases n with
    | identifier w object property =>
      cases object with
      | some object => exact extends_done _ _
      | none =>
        refine extends_ite (fun _ => applyUnary_extends h w s) fun _ => ?_
        cases Numeral.read? w.toList <;> exact extends_done _ _
    | _ => exact extends_done _ _

theorem primaryOperand_extends (h : Continues rest rules) (s : State) :
    Extends rest (primaryOperand .standard rules s)
      (primaryOperand .standard rules (s.continued rest)) := by
  refine extends_bind (h .primary nofun s) fun x t _ => ?_
  cases x with
  | pair key value => exact ofTerm_extends h _ t
  | node n =>
    exact extends_bind (joinName_extends n t) fun m u _ => ofTerm_extends h (.node m) u

theorem leadingOperator_extends (h : Continues rest rules) (s : State) :
    Extends rest (leadingOperator .standard rules s)
      (leadingOperator .standard rules (s.continued rest)) := by
  have hat : Grammar.standard.operators.unaryAt?
      ((s.continued rest).cursor.ahead.take Grammar.standard.operators.longestUnary) =
        Grammar.standard.operators.unaryAt?
          (s.cursor.ahead.take Grammar.standard.operators.longestUnary) := unaryAt?_continued
  unfold leadingOperator
  rw [bind_here_apply, bind_here_apply, hat]
  cases hop : Grammar.standard.operators.unaryAt?
      (s.cursor.ahead.take Grammar.standard.operators.longestUnary) with
  | none => exact extends_done _ _
  | some operator =>
    have hlength : operator.length ≤ s.cursor.ahead.length := by
      have hbegins := (OperatorTable.unaryAt?_spec hop).2.trans (List.take_prefix _ _)
      rw [← String.length_toList]
      exact hbegins.length_le
    refine extends_bind (extends_advance hlength) fun _ t _ => ?_
    exact extends_map (f := some) (applyUnary_extends h operator t)

theorem operand_extends (h : Continues rest rules) (s : State) :
    Extends rest (operand .standard rules s) (operand .standard rules (s.continued rest)) := by
  refine extends_bind (extends_skipBlanks s) fun _ u _ => ?_
  rw [bind_peek_apply, bind_peek_apply]
  cases hpeek : u.cursor.peek? with
  | none =>
    have hpeek' : (u.continued rest).cursor.peek? = some ';' := peek?_continued_of_none hpeek
    have hahead : u.cursor.ahead = [] := List.head?_eq_none_iff.mp hpeek
    have hnone : leadingOperator .standard rules u = .done none u := by
      unfold leadingOperator
      rw [bind_here_apply, hahead]
      rfl
    have hdigit : ((';' : Char).isDigit || ';' == '.') = false := by decide
    have hsingle : ¬ (';' : Char) = '\'' := by decide
    have hdouble : ¬ (';' : Char) = '"' := by decide
    have hword : (Grammar.standard.letters.isStart ';' || ';' == '(') = false := by decide
    have hbracket : ¬ (';' : Char) = '[' := by decide
    simp only [hpeek', hdigit, hsingle, hdouble, hword, hbracket, Bool.false_eq_true, if_false]
    rw [leadingOperator_extends h u none u hnone]
    exact extends_done none u
  | some c =>
    have hpeek' : (u.continued rest).cursor.peek? = some c := peek?_continued_of_some hpeek
    rw [hpeek']
    refine extends_ite (fun hc => extends_map (f := some) ?_) fun _ => ?_
    · have hstart : Grammar.standard.letters.isStart c = false := isStart_of_numeral hc
      simp only [numeralOperand, hstart, Bool.false_eq_true, if_false]
      exact numeral_extends u
    refine extends_ite (fun _ => extends_map (f := some) (joinableText_extends u)) fun _ => ?_
    refine extends_ite (fun _ => ?_) fun _ => ?_
    · exact extends_bind (quotation_extends u) fun _ _ _ => extends_done _ _
    refine extends_ite (fun _ => extends_map (f := some) (primaryOperand_extends h u)) fun _ => ?_
    refine extends_ite (fun _ => ?_) fun _ => leadingOperator_extends h u
    refine extends_bind (extends_advance_one hpeek) fun _ t _ => ?_
    have hitems := h (.items .square) (by rintro ⟨⟩) t
    exact extends_map (f := fun ns => some (Node.array ns)) hitems

theorem binaryOperator_extends (s : State) :
    Extends rest (binaryOperator .standard s) (binaryOperator .standard (s.continued rest)) := by
  refine extends_bind (extends_skipBlanks s) fun _ t _ => ?_
  have hat : Grammar.standard.operators.binaryAt?
      ((t.continued rest).cursor.ahead.take Grammar.standard.operators.longestBinary) =
        Grammar.standard.operators.binaryAt?
          (t.cursor.ahead.take Grammar.standard.operators.longestBinary) := binaryAt?_continued
  rw [bind_here_apply, bind_here_apply, hat]
  cases ho : Grammar.standard.operators.binaryAt?
      (t.cursor.ahead.take Grammar.standard.operators.longestBinary) with
  | none => exact extends_done _ _
  | some o =>
    have hlength : o.1.length ≤ t.cursor.ahead.length := by
      have hbegins := (OperatorTable.binaryAt?_spec ho).2.trans (List.take_prefix _ _)
      rw [← String.length_toList]
      exact hbegins.length_le
    exact extends_bind (extends_advance hlength) fun _ u _ => extends_done _ u

theorem chain_extends (h : Continues rest rules) (stack : OperatorStack) (s : State) :
    Extends rest (chain .standard rules stack s)
      (chain .standard rules stack (s.continued rest)) := by
  refine extends_bind (binaryOperator_extends s) fun o t _ => ?_
  cases o with
  | none => exact extends_done _ _
  | some o =>
    refine extends_ite (fun _ => extends_done _ _) fun _ => ?_
    refine extends_bind (extends_require _ (h .operand nofun t)) fun right u _ => ?_
    exact h (.chain _) nofun u

/-- A name is cut at the same place, because that place is inside of the text that ends here. -/
theorem splitGlued_extends {start : Cursor} {left : Node}
    (hleft : Uncut left ∨ ∃ w more, left.name? = some w ∧ start.ahead = w.toList ++ more ∧
      w.toList.getLast? ≠ some ':') (s : State) :
    Extends rest (splitGlued rules start left s)
      (splitGlued rules (start.continued rest) left (s.continued rest)) := by
  by_cases hcut : Uncut left
  · rw [splitGlued_of_uncut hcut, splitGlued_of_uncut hcut]
    exact extends_done left s
  · obtain ⟨w, more, hname, hahead, hcolon⟩ := hleft.resolve_left hcut
    obtain ⟨test, htest⟩ := Option.ne_none_iff_exists'.mp hcut
    have hcolon' : (left.name?.getD "").toList.getLast? ≠ some ':' := by
      rwa [hname, Option.getD_some]
    have hinside : test.length ≤ start.ahead.length := by
      rw [hname, Option.getD_some] at htest
      exact (ahead_of_gluedTest? htest hahead).1
    rw [splitGlued_of_gluedTest? htest hcolon', splitGlued_of_gluedTest? htest hcolon',
      advance_continued hinside]
    exact extends_done _ ({ s with cursor := start.advance test.length } : State)

theorem binary_extends {n : Nat} (h : Continues rest (run .standard n)) (s : State) :
    Extends rest (Parse.binary .standard (run .standard n) s)
      (Parse.binary .standard (run .standard n) (s.continued rest)) := by
  refine extends_bind (extends_skipBlanks s) fun _ t ht => ?_
  rw [bind_here_apply, bind_here_apply]
  refine extends_bind (h .operand nofun t) fun a u ha => ?_
  cases a with
  | none => exact extends_done _ _
  | some left =>
    simp only [bind_here_apply]
    have hleft := clears_run n ha left rfl
    refine extends_bind (binaryOperator_extends u) fun o v ho => ?_
    cases o with
    | none =>
      refine extends_map (f := some) (splitGlued_extends (hleft.imp_right ?_) v)
      rintro ⟨w, hname, hahead, hcolon⟩
      cases ht
      rw [Cursor.skipBlanks_skipBlanks] at hahead
      exact ⟨w, u.cursor.ahead, hname, hahead, hcolon⟩
    | some o =>
      simp only [bind_peek_apply, isInsideWord_standard ho, Bool.false_eq_true, if_false]
      refine extends_bind (extends_require _ (h .operand nofun v)) fun right w _ => ?_
      exact h (.chain _) nofun w

theorem expression_extends {n : Nat} (h : Continues rest (run .standard n)) (s : State) :
    Extends rest (expression .standard (run .standard n) s)
      (expression .standard (run .standard n) (s.continued rest)) := by
  refine extends_bind (binary_extends h s) fun a t _ => ?_
  cases a with
  | none => exact extends_done _ _
  | some test =>
    refine extends_bind (extends_skipBlanks t) fun _ u _ => ?_
    refine extends_bind (extends_eat (by decide) u) fun b v _ => ?_
    refine extends_ite (fun _ => ?_) fun _ => extends_done _ _
    refine extends_bind (extends_setInBranch true v) fun _ w _ => ?_
    refine extends_bind (extends_require _ (h .expression nofun w)) fun consequent x _ => ?_
    refine extends_bind (extends_skipBlanks x) fun _ y _ => ?_
    refine extends_bind (extends_expect (by decide) _ y) fun _ z _ => ?_
    refine extends_bind (extends_require _ (h .expression nofun z)) fun alternate s' _ => ?_
    exact extends_bind (extends_setInBranch false s') fun _ t' _ => extends_done _ t'

end

/-- In any number of rounds. -/
theorem continues_run (rest : List Char) (n : Nat) : Continues rest (run .standard n) := by
  induction n with
  | zero => rintro r hr s a t ⟨⟩
  | succ n ih =>
    intro r hr s
    cases r with
    | expression => exact expression_extends ih s
    | operand => exact operand_extends ih s
    | primary => exact primary_extends ih s
    | links head => exact links_extends ih head s
    | items bracket => exact items_extends ih bracket s
    | chain stack => exact chain_extends ih stack s
    | pairs keys => exact pairs_extends ih keys s
    | statements => exact absurd rfl hr

end Continued

end ExprTree
