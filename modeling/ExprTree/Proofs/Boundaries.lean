import ExprTree.Proofs.Results

/-!
Where an operator ends a word. An operator between two letters is taken into the name in front of
it, unless that name is isolated: unless the character in front of the place where the operand ended
is a blank. Most names end in front of no blank, because the links after a name or a group pass the
blanks that come first; for these an operator after a blank is always an operator. The names that
were joined by `!` and those that begin like a numeral end right at their last character. An
operator after them is taken into the name also across blanks; that is all that is overlooked, see
`binary_of_met`.
-/

namespace ExprTree

deriving instance DecidableEq for Outcome

namespace Boundaries

open Parse Results Lexemes Origins

/-- A binary expression up to its first operator. -/
structure Met (g : Grammar) (rules : Rules) (s : State) where
  left : Node
  /-- Where the left operand ended. -/
  ended : State
  operator : String
  precedence : Int
  /-- Right after the operator. -/
  after : State
  operand_eq : rules .operand { s with cursor := s.cursor.skipBlanks } = .done (some left) ended
  operator_eq : binaryOperator g ended = .done (some (operator, precedence)) after

/-- A name that was joined with another one. -/
def Joined (n : Node) : Prop :=
  ∃ name object property, n = .identifier name (some object) property

namespace Met

section

variable {g : Grammar} {rules : Rules} {s : State} (m : Met g rules s)

/-- A blank is right in front of the operator. -/
def AfterBlank : Prop :=
  ∃ c ∈ m.ended.cursor.skipBlanks.previous?, isBlank c = true

/-- The operator follows a name, and both its first character and the one after it are characters
of names. -/
def BetweenLetters : Prop :=
  m.left.name?.isSome = true ∧ (∃ c ∈ m.operator.toList.head?, g.letters.isPart c = true) ∧
    ∃ c ∈ m.after.cursor.peek?, g.letters.isPart c = true

/-- The operand ended with a character that is no blank, and it is a joined name or begins like a
numeral. -/
def Overlooked : Prop :=
  (Joined m.left ∨ ∃ c ∈ s.cursor.skipBlanks.peek?, c.isDigit = true ∨ c = '.') ∧
    ∀ c ∈ m.ended.cursor.previous?, isBlank c = false

end

end Met

/-- No blank is ahead. -/
def Unspaced (s : State) : Prop :=
  ∀ c ∈ s.cursor.peek?, isBlank c = false

section

variable {g : Grammar} {s t u : State} {n : Nat}

theorem unspaced_skipBlanks (c : Cursor) (inBranch : Bool) : Unspaced ⟨c.skipBlanks, inBranch⟩ :=
  not_blank_pastBlanks ⟨c, inBranch⟩

/-- A link passes the blanks after it. -/
theorem link_unspaced {rules : Rules} {head a : Node} (h : LinkBy g rules head s a t) :
    Unspaced t := by
  cases h <;> exact unspaced_skipBlanks _ _

/-- Links end in front of no blank if they begin there. -/
theorem links_unspaced {head a : Node} (h : run g n (.links head) s = .done a t)
    (hs : Unspaced s) : Unspaced t := by
  induction n generalizing s head with
  | zero => cases h
  | succ n ih =>
    cases (links_ends head s).of_done h with
    | last => exact hs
    | next hlink hlinks => exact ih hlinks (link_unspaced hlink)

theorem primary_unspaced {a : Node} (h : run g n .primary s = .done (.node a) t) :
    Unspaced t := by
  cases n with
  | zero => cases h
  | succ n =>
    cases (primary_ends s).of_done h with
    | linked hhead hlinks => exact links_unspaced hlinks (unspaced_skipBlanks _ _)

/-- What is still a name as an operand is the name that was read. -/
theorem ofTerm_name {rules : Rules} {x : Term} {a : Node} (h : OfTermBy g rules s x a t)
    (ha : a.name?.isSome = true) : x = .node a ∧ t = s := by
  cases h with
  | whole => exact ⟨rfl, rfl⟩
  | pairs | operator | number => cases ha

theorem term_unspaced {a : Node} (h : TermBy g (run g n) s (.node a) t) :
    Joined a ∨ Unspaced t := by
  cases h with
  | again hnumeral hprimary => exact .inr (primary_unspaced hprimary)
  | node hprimary hjoin =>
    cases (joinName_ends g.letters _ _).of_done hjoin with
    | alone => exact .inr (primary_unspaced hprimary)
    | joined => exact .inl ⟨_, _, _, rfl⟩

/-- A name as an operand ends in front of no blank, or it is joined or begins like a numeral. -/
theorem operand_name {a : Node} (h : run g n .operand s = .done (some a) t)
    (ha : a.name?.isSome = true) :
    (Joined a ∨ ∃ c ∈ s.cursor.skipBlanks.peek?, c.isDigit = true ∨ c = '.') ∨ Unspaced t := by
  cases n with
  | zero => cases h
  | succ n =>
    cases operand_cases h with
    | @numeral c _ _ hpeek hc => exact .inl (.inr ⟨c, hpeek, hc⟩)
    | joinable hpeek htext =>
      cases (joinableText_ends g.letters _).of_done htext with
      | alone => cases ha
      | joined => exact .inl (.inl ⟨_, _, _, rfl⟩)
    | primary hpeek hc hprimary =>
      obtain ⟨x, u, hx, hname⟩ := (primaryOperand_ends hpeek hc).of_done hprimary
      obtain ⟨rfl, rfl⟩ := ofTerm_name hname ha
      exact (term_unspaced hx).imp .inl id
    | operator hpeek hc hoperator =>
      cases (leadingOperator_ends s).of_done hoperator with
      | operator => cases ha
    | text | array => cases ha

/-- In front of no blank there are none to skip. -/
theorem Unspaced.skipBlanks (hs : Unspaced s) : s.cursor.skipBlanks = s.cursor :=
  congrArg State.cursor (pastBlanks_of_not_blank hs)

/-- After a blank, another one or none may be skipped, and a blank is still in front. -/
theorem previous?_skipBlanks {c : Cursor} {x : Char} (hx : x ∈ c.previous?)
    (hblank : isBlank x = true) : ∃ y ∈ c.skipBlanks.previous?, isBlank y = true := by
  have hall : ∀ y ∈ c.ahead.takeWhile isBlank, isBlank y = true :=
    fun _ => List.mem_takeWhile_imp
  have hpassed : c.skipBlanks.passed = (c.ahead.takeWhile isBlank).reverse ++ c.passed := by
    have htake : c.ahead.take (c.ahead.takeWhile isBlank).length = c.ahead.takeWhile isBlank :=
      List.prefix_iff_eq_take.mp (List.takeWhile_prefix isBlank) |>.symm
    rw [Cursor.skipBlanks, Cursor.advance, htake]
  unfold Cursor.previous?
  rw [hpassed]
  cases hrev : (c.ahead.takeWhile isBlank).reverse with
  | nil => exact ⟨x, hx, hblank⟩
  | cons y ys =>
    refine ⟨y, rfl, hall y ?_⟩
    rw [← List.mem_reverse, hrev]
    exact List.mem_cons_self

end

section

variable {g : Grammar} {s : State} {n : Nat}

/-- What was found of an operator stands right in front of where it ended. -/
theorem ahead_of_binaryOperator {o : String × Int} {t : State}
    (h : binaryOperator g s = .done (some o) t) :
    s.cursor.skipBlanks.ahead = o.1.toList ++ t.cursor.ahead := by
  cases (binaryOperator_ends g s).of_done h with
  | operator hop =>
    obtain ⟨rest, hrest⟩ := (OperatorTable.binaryAt?_spec hop).2.trans (List.take_prefix _ _)
    rw [Cursor.ahead_advance, ← hrest, ← String.length_toList, List.drop_left]

/-- The test of the operator, in words. -/
theorem isInsideWord_iff {rules : Rules} (m : Met g rules s) (isolated : Bool) :
    isInsideWord g m.left isolated m.operator m.after.cursor.peek? = true ↔
      m.BetweenLetters ∧ isolated = false := by
  simp only [isInsideWord, Met.BetweenLetters, Bool.and_eq_true, Bool.not_eq_true',
    Option.any_eq_true, Option.mem_def, and_assoc]

/-- A name that is not isolated although a blank comes before the operator is overlooked. -/
theorem isolated_eq_false_iff (m : Met g (run g n) s) (hname : m.left.name?.isSome = true) :
    m.ended.cursor.previous?.any isBlank = false ↔ (m.AfterBlank → m.Overlooked) := by
  have hlast : m.ended.cursor.previous?.any isBlank = false ↔
      ∀ c ∈ m.ended.cursor.previous?, isBlank c = false := by
    cases m.ended.cursor.previous? <;> simp
  rw [hlast]
  constructor
  · intro hplain hblank
    have hend := operand_name m.operand_eq hname
    rw [Cursor.skipBlanks_skipBlanks] at hend
    rcases hend with hkind | hspaced
    · exact ⟨hkind, hplain⟩
    · obtain ⟨c, hc, hcblank⟩ := hblank
      rw [hspaced.skipBlanks] at hc
      rw [hplain c hc] at hcblank
      cases hcblank
  · intro hover c hc
    by_contra hcblank
    rw [Bool.not_eq_false] at hcblank
    obtain ⟨-, hplain⟩ := hover (previous?_skipBlanks hc hcblank)
    rw [hplain c hc] at hcblank
    cases hcblank

/-- A binary expression whose first operator is in the middle of a word. -/
theorem binary_eq_name {rules : Rules} (m : Met g rules s)
    (hword : isInsideWord g m.left (m.ended.cursor.previous?.any isBlank) m.operator
      m.after.cursor.peek? = true) :
    Parse.binary g rules s = (do
      let rest ← name g.letters
      return some (.plain (m.left.name?.getD "" ++ m.operator ++ rest)) : Parse (Option Node))
        m.after := by
  unfold Parse.binary
  rw [bind_skipBlanks_apply, bind_here_apply, bind_of_done m.operand_eq]
  simp only [bind_here_apply]
  rw [bind_of_done m.operator_eq]
  simp only [bind_peek_apply, hword, if_true]

/-- A call that has read its left operand and found an operator after it takes the operator into
the name in front exactly if the operator is between letters and does not come after a blank, or
comes after one that is overlooked. In all other calls it goes on with the operator. -/
theorem binary_of_met (g : Grammar) (n : Nat) (s : State) (m : Met g (run g n) s) :
    m.ended.cursor.skipBlanks.ahead = m.operator.toList ++ m.after.cursor.ahead ∧
    (m.BetweenLetters ∧ (m.AfterBlank → m.Overlooked) →
      binary g (run g n) s = (do
        let rest ← name g.letters
        return some (.plain (m.left.name?.getD "" ++ m.operator ++ rest)) : Parse (Option Node))
          m.after) ∧
    (¬ (m.BetweenLetters ∧ (m.AfterBlank → m.Overlooked)) →
      binary g (run g n) s = (do
        let right ← require (.noOperand m.operator) (run g n .operand)
        run g n (.chain (.start m.left m.operator m.precedence right)) : Parse (Option Node))
          m.after) := by
  have htest := isInsideWord_iff m (m.ended.cursor.previous?.any isBlank)
  have hiff : isInsideWord g m.left (m.ended.cursor.previous?.any isBlank) m.operator
      m.after.cursor.peek? = true ↔ m.BetweenLetters ∧ (m.AfterBlank → m.Overlooked) :=
    htest.trans (and_congr_right fun hbetween => isolated_eq_false_iff m hbetween.1)
  refine ⟨ahead_of_binaryOperator m.operator_eq, ?_, ?_⟩
  · intro hinside
    exact binary_eq_name m (hiff.mpr hinside)
  · intro houtside
    exact Collected.binary_eq m.operand_eq m.operator_eq (by simpa using mt hiff.mp houtside)

/-- A joined name is overlooked: the operator after it goes into the name although a blank comes
first. -/
theorem binary_of_met_joined_name :
    let g := Grammar.standard.addBinary "and" 2
    let s := State.start "a!b andc"
    ∃ m : Met g (run g 4) s, m.AfterBlank ∧ m.Overlooked ∧
      Parse.binary g (run g 4) s =
        .done (some (.plain "a!bandc")) ⟨⟨"cdna b!a".toList, []⟩, false⟩ := by
  intro g s
  let m : Met g (run g 4) s :=
    { left := .identifier "a!b" (some (.plain "a")) (some (.plain "b"))
      ended := ⟨⟨"b!a".toList, " andc".toList⟩, false⟩
      operator := "and"
      precedence := 2
      after := ⟨⟨"dna b!a".toList, "c".toList⟩, false⟩
      operand_eq := by decide +kernel
      operator_eq := by decide +kernel }
  have hblank : m.AfterBlank := ⟨' ', rfl, rfl⟩
  have hover : m.Overlooked := ⟨.inl ⟨_, _, _, rfl⟩, by rintro _ ⟨⟩; rfl⟩
  have hbetween : m.BetweenLetters := ⟨rfl, ⟨'a', by decide, rfl⟩, ⟨'c', rfl, rfl⟩⟩
  have hmerged := (binary_of_met g 4 s m).2.1 ⟨hbetween, fun _ => hover⟩
  exact ⟨m, hblank, hover, hmerged.trans (by decide +kernel)⟩

end

end Boundaries

end ExprTree
