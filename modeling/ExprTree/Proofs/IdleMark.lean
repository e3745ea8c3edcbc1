import ExprTree.Proofs.Bounds
import ExprTree.Proofs.Collected
import ExprTree.Proofs.LongestMatch
import ExprTree.Proofs.Numerals
import ExprTree.Proofs.Origins

/-!
When the mark for branches matters. It decides about a colon behind a numeral and about nothing
else. Where the colon is no character of names, the numeral ends there anyway and the mark is idle:
with it and without it an expression comes to the same tree or the same error, at the same place.
Where the colon is one, `1:` is a number in a branch and a name outside of branches. Both together
are `unmarked_eq_iff`.

The mark is set and taken back deep inside of an expression, and not put back after every step
that is undone; two readings that begin with different marks may have equal marks at one place and
different ones again at the next. So `Coincide` compares two walks whatever marks they find, and
asks nothing of the marks they leave. In this form each rule passes it on.
-/

namespace ExprTree

variable {α β : Type}

/-- How a step of a walk ends, without the mark. -/
def Landing.unmarked : Landing α → Landing α
  | .done a w => .done a { w with inBranch := false }
  | .failed e w => .failed e { w with inBranch := false }
  | .unfinished => .unfinished
  | .outside => .outside

/-- How a step of a parse ends, without the mark. -/
def Outcome.unmarked : Outcome α → Outcome α
  | .done a t => .done a { t with inBranch := false }
  | .failed e => .failed e
  | .unfinished => .unfinished

namespace IdleMark

section

open Walk

variable {g : Grammar} {l : Letters} {steps : Steps}

/-- From each index the walks end alike and at the same index, whatever the marks they find. -/
def Coincide (p q : Walk α) : Prop :=
  ∀ text i b b', (p text ⟨i, b⟩).unmarked = (q text ⟨i, b'⟩).unmarked

/-- The walk does the same whatever the mark. -/
def Heedless (p : Walk α) : Prop :=
  Coincide p p

/-- The ways in which two walks can end alike. -/
theorem unmarked_cases {x y : Landing α} (h : x.unmarked = y.unmarked) :
    (∃ a i b b', x = .done a ⟨i, b⟩ ∧ y = .done a ⟨i, b'⟩) ∨
    (∃ e i b b', x = .failed e ⟨i, b⟩ ∧ y = .failed e ⟨i, b'⟩) ∨
    (x = .unfinished ∧ y = .unfinished) ∨ (x = .outside ∧ y = .outside) := by
  cases x with
  | done a w =>
    cases y with
    | done a' w' =>
      obtain ⟨i, b⟩ := w
      obtain ⟨i', b'⟩ := w'
      simp only [Landing.unmarked, Landing.done.injEq, Spot.mk.injEq, and_true] at h
      obtain ⟨rfl, rfl⟩ := h
      exact .inl ⟨a, i, b, b', rfl, rfl⟩
    | _ => cases h
  | failed e w =>
    cases y with
    | failed e' w' =>
      obtain ⟨i, b⟩ := w
      obtain ⟨i', b'⟩ := w'
      simp only [Landing.unmarked, Landing.failed.injEq, Spot.mk.injEq, and_true] at h
      obtain ⟨rfl, rfl⟩ := h
      exact .inr (.inl ⟨e, i, b, b', rfl, rfl⟩)
    | _ => cases h
  | unfinished =>
    cases y with
    | unfinished => exact .inr (.inr (.inl ⟨rfl, rfl⟩))
    | _ => cases h
  | outside =>
    cases y with
    | outside => exact .inr (.inr (.inr ⟨rfl, rfl⟩))
    | _ => cases h

theorem heedless_pure (a : α) : Heedless (Pure.pure a) := fun _ _ _ _ => rfl

theorem heedless_fail (cause : Cause) : Heedless (fail cause : Walk α) := fun _ _ _ _ => rfl

theorem heedless_failAt (i : Nat) (cause : Cause) : Heedless (failAt i cause : Walk α) :=
  fun _ _ _ _ => rfl

theorem heedless_endless : Heedless (endless : Walk α) := fun _ _ _ _ => rfl

theorem heedless_index : Heedless index := fun _ _ _ _ => rfl

theorem heedless_length : Heedless length := fun _ _ _ _ => rfl

theorem heedless_peekAt (n : Nat) : Heedless (peekAt n) := fun _ _ _ _ => rfl

theorem heedless_peek : Heedless peek := heedless_peekAt 0

theorem heedless_previous : Heedless previous := fun _ _ _ _ => rfl

theorem heedless_goTo (i : Nat) : Heedless (goTo i) := by
  intro text j b b'
  unfold goTo
  split <;> rfl

theorem heedless_piece (i j : Nat) : Heedless (piece i j) := by
  intro text k b b'
  unfold piece
  split <;> rfl

theorem heedless_cut (name : String) (byte : Nat) : Heedless (cut name byte) := by
  intro text i b b'
  unfold cut
  split <;> rfl

/-- The mark can be set to anything. -/
theorem coincide_setInBranch (b b' : Bool) : Coincide (setInBranch b) (setInBranch b') :=
  fun _ _ _ _ => rfl

/-- Where the mark is asked for, the two walks may get different answers. -/
theorem coincide_inBranch {f f' : Bool → Walk α} (hf : ∀ b b', Coincide (f b) (f' b')) :
    Coincide (inBranch >>= f) (inBranch >>= f') :=
  fun text i b b' => hf b b' text i b b'

theorem coincide_bind {p q : Walk β} {f f' : β → Walk α} (h : Coincide p q)
    (hf : ∀ a, Coincide (f a) (f' a)) : Coincide (p >>= f) (q >>= f') := by
  intro text i b b'
  obtain ⟨a, j, c, c', hp, hq⟩ | ⟨e, j, c, c', hp, hq⟩ | ⟨hp, hq⟩ | ⟨hp, hq⟩ :=
    unmarked_cases (h text i b b')
  · rw [bind_of_done hp, bind_of_done hq]
    exact hf a text j c c'
  · rw [bind_of_failed hp, bind_of_failed hq]
    rfl
  · rw [bind_of_unfinished hp, bind_of_unfinished hq]
  · rw [bind_of_outside hp, bind_of_outside hq]

theorem heedless_map {p : Walk β} (h : Heedless p) (f : β → α) : Heedless (do return f (← p)) :=
  coincide_bind h fun a => heedless_pure (f a)

theorem heedless_ite {c : Prop} [Decidable c] {p q : Walk α} (hp : Heedless p)
    (hq : Heedless q) : Heedless (if c then p else q) := by
  split
  · exact hp
  · exact hq

/-- A failure as a value is the same value. -/
theorem heedless_attempt {p : Walk α} (h : Heedless p) : Heedless (attempt p) := by
  intro text i b b'
  obtain ⟨a, j, c, c', hp, hq⟩ | ⟨e, j, c, c', hp, hq⟩ | ⟨hp, hq⟩ | ⟨hp, hq⟩ :=
    unmarked_cases (h text i b b')
  · rw [attempt_of_done hp, attempt_of_done hq]
    rfl
  · rw [attempt_of_failed hp, attempt_of_failed hq]
    rfl
  · rw [attempt_of_unfinished hp, attempt_of_unfinished hq]
  · rw [attempt_of_outside hp, attempt_of_outside hq]

theorem heedless_next : Heedless next := by
  refine coincide_bind heedless_peek fun c => ?_
  cases c with
  | none => exact heedless_pure none
  | some c =>
    exact coincide_bind heedless_index fun _ => coincide_bind (heedless_goTo _) fun _ =>
      heedless_pure _

theorem heedless_pass : Heedless pass :=
  coincide_bind heedless_next fun _ => heedless_pure ()

theorem heedless_eat (c : Char) : Heedless (eat c) :=
  coincide_bind heedless_peek fun _ => heedless_ite
    (coincide_bind heedless_index fun _ => coincide_bind (heedless_goTo _) fun _ =>
      heedless_pure true) (heedless_pure false)

theorem heedless_skip (n : Nat) : Heedless (skip n) :=
  coincide_bind heedless_index fun _ => coincide_bind heedless_length fun _ => heedless_goTo _

theorem heedless_skipAtMost (p : Char → Bool) (n : Nat) : Heedless (skipAtMost p n) := by
  induction n with
  | zero => exact heedless_pure ()
  | succ n ih =>
    refine coincide_bind heedless_peek fun _ => heedless_ite ?_ (heedless_pure ())
    exact coincide_bind heedless_index fun _ => coincide_bind (heedless_goTo _) fun _ => ih

theorem heedless_skipWhile (p : Char → Bool) : Heedless (skipWhile p) :=
  coincide_bind heedless_length fun _ => heedless_skipAtMost p _

theorem heedless_skipBlanks : Heedless skipBlanks := heedless_skipWhile isBlank

theorem heedless_lookahead (n : Nat) : Heedless (lookahead n) :=
  coincide_bind heedless_index fun _ => coincide_bind heedless_length fun _ =>
    coincide_bind heedless_index fun _ => heedless_piece _ _

theorem heedless_sliceFrom (start : Nat) : Heedless (sliceFrom start) :=
  coincide_bind heedless_index fun _ => coincide_bind heedless_index fun _ => heedless_piece _ _

theorem heedless_goBack (i : Nat) : Heedless (goBack i) :=
  coincide_bind heedless_length fun _ => heedless_goTo _

theorem heedless_expect (c : Char) (cause : Cause) : Heedless (expect c cause) :=
  coincide_bind (heedless_eat c) fun _ => heedless_ite (heedless_pure ()) (heedless_fail cause)

theorem heedless_require {p : Walk (Option α)} (h : Heedless p) (cause : Cause) :
    Heedless (require cause p) := by
  refine coincide_bind h fun a => ?_
  cases a with
  | none => exact heedless_fail cause
  | some a => exact heedless_pure a

theorem heedless_name (l : Letters) : Heedless (name l) := by
  refine coincide_bind heedless_index fun start => coincide_bind heedless_peek fun c => ?_
  cases c with
  | none => exact heedless_fail _
  | some c =>
    refine heedless_ite ?_ (heedless_fail _)
    exact coincide_bind heedless_pass fun _ => coincide_bind (heedless_skipWhile _) fun _ =>
      heedless_map (heedless_sliceFrom start) String.ofList

theorem heedless_quoted (quote : Char) (n : Nat) (value : List Char) :
    Heedless (quoted quote n value) := by
  induction n generalizing value with
  | zero => exact heedless_endless
  | succ n ih =>
    refine coincide_bind heedless_next fun c => ?_
    cases c with
    | none => exact heedless_fail _
    | some c =>
      refine heedless_ite (heedless_pure value) (heedless_ite ?_ (ih _))
      refine coincide_bind heedless_next fun e => ?_
      cases e with
      | none => exact ih value
      | some e => exact ih _

theorem heedless_quotation : Heedless quotation := by
  refine coincide_bind heedless_index fun start => coincide_bind heedless_next fun quote => ?_
  cases quote with
  | none => exact heedless_fail _
  | some quote =>
    exact coincide_bind heedless_length fun _ => coincide_bind (heedless_quoted quote _ _)
      fun value => coincide_bind (heedless_sliceFrom start) fun _ => heedless_pure _

theorem heedless_munch : Heedless munch := by
  have hdigits := heedless_skipWhile Char.isDigit
  have hfraction : Heedless munchFraction :=
    coincide_bind (heedless_eat _) fun _ => heedless_ite hdigits (heedless_pure ())
  have hsign : Heedless munchSign :=
    coincide_bind heedless_peek fun _ => heedless_ite heedless_pass (heedless_pure ())
  have hexponent : Heedless munchExponent :=
    coincide_bind heedless_peek fun _ => heedless_ite
      (coincide_bind heedless_pass fun _ => coincide_bind hsign fun _ =>
        coincide_bind hdigits fun _ => coincide_bind heedless_previous fun _ => heedless_pure _)
      (heedless_pure false)
  exact coincide_bind hdigits fun _ => coincide_bind hfraction fun _ => hexponent

theorem heedless_nameFromNumeral (l : Letters) (numeral : List Char) (cause : Cause) :
    Heedless (nameFromNumeral l numeral cause) :=
  heedless_ite (heedless_map (heedless_name l) fun rest =>
    Node.plain (String.ofList numeral ++ rest)) (heedless_fail cause)

theorem heedless_numberOf (numeral : List Char) (start : Nat) :
    Heedless (numberOf numeral start) := by
  unfold numberOf
  split
  · exact heedless_pure _
  · exact heedless_failAt _ _

/-- The one step that the mark could tell apart: a colon that is no character of names ends a
numeral whether the mark is set or not. -/
theorem heedless_numeral (hcolon : l.isStart ':' = false) : Heedless (numeral l) := by
  refine coincide_bind heedless_index fun start => coincide_bind heedless_munch fun lacks => ?_
  refine coincide_bind (heedless_sliceFrom start) fun text => ?_
  refine coincide_bind heedless_peek fun next => ?_
  refine heedless_ite (heedless_nameFromNumeral l _ _) ?_
  have hnumber := heedless_numberOf text start
  cases next with
  | none => exact hnumber
  | some c =>
    refine coincide_inBranch fun b b' => ?_
    by_cases hc : c = ':'
    · -- the mark chooses between two ways to the same number
      subst hc
      have hpoint : ¬ ':' = '.' := by decide
      simp only [hcolon, hpoint, Bool.false_eq_true, if_false, ite_self]
      exact hnumber
    · simp only [hc, false_and, if_false]
      refine heedless_ite (heedless_nameFromNumeral l _ _) ?_
      exact heedless_ite (heedless_fail _) hnumber

theorem heedless_word (h : ∀ r, Heedless (steps r)) : Heedless (word g steps) := by
  refine coincide_bind (heedless_name g.letters) fun w => ?_
  refine coincide_bind heedless_peek fun c => coincide_bind (heedless_peekAt 1) fun d => ?_
  refine heedless_ite (coincide_bind heedless_pass fun _ => ?_) (heedless_pure _)
  exact heedless_map (heedless_require (h .expression) _) (Term.pair w)

theorem heedless_group (h : ∀ r, Heedless (steps r)) : Heedless (group steps) := by
  refine coincide_bind heedless_pass fun _ => ?_
  refine coincide_bind (heedless_require (h .expression) _) fun n => ?_
  exact coincide_bind heedless_skipBlanks fun _ => coincide_bind (heedless_expect _ _) fun _ =>
    heedless_pure n

theorem heedless_primary (h : ∀ r, Heedless (steps r)) : Heedless (primary g steps) := by
  refine coincide_bind (coincide_bind heedless_peek fun c => ?_) fun x => ?_
  · exact heedless_ite (heedless_map (heedless_group h) Term.node) (heedless_word h)
  · cases x with
    | pair w value => exact heedless_pure _
    | node n => exact coincide_bind heedless_skipBlanks fun _ =>
        heedless_map (h (.links n)) Term.node

theorem heedless_links (h : ∀ r, Heedless (steps r)) (head : Node) :
    Heedless (links g steps head) := by
  refine coincide_bind heedless_peek fun next => ?_
  refine heedless_ite ?_ (heedless_ite ?_ (heedless_ite ?_ (heedless_pure head)))
  · refine coincide_bind heedless_pass fun _ => coincide_bind heedless_skipBlanks fun _ => ?_
    exact coincide_bind (heedless_name _) fun w => coincide_bind heedless_skipBlanks fun _ => h _
  · refine coincide_bind heedless_pass fun _ => ?_
    refine coincide_bind (heedless_require (h .expression) _) fun property => ?_
    refine coincide_bind heedless_skipBlanks fun _ => ?_
    refine coincide_bind (heedless_expect _ _) fun _ => ?_
    exact coincide_bind heedless_skipBlanks fun _ => h _
  · refine coincide_bind heedless_pass fun _ => coincide_bind (h (.items .round)) fun items => ?_
    exact coincide_bind heedless_skipBlanks fun _ => h _

theorem heedless_items (h : ∀ r, Heedless (steps r)) (bracket : Bracket) :
    Heedless (items steps bracket) := by
  refine coincide_bind heedless_skipBlanks fun _ => coincide_bind heedless_peek fun next => ?_
  cases next with
  | none => exact heedless_fail _
  | some c =>
    refine heedless_ite (coincide_bind heedless_pass fun _ => heedless_pure _) ?_
    refine heedless_ite (coincide_bind heedless_pass fun _ => h (.items bracket)) ?_
    refine coincide_bind (h .expression) fun a => ?_
    have hitem := fun n : Node => heedless_map (h (.items bracket)) (n :: ·)
    rcases a with _ | n
    · exact heedless_fail _
    · cases n <;> first | exact heedless_fail _ | exact hitem _

theorem heedless_joinFollows (l : Letters) : Heedless (joinFollows l) :=
  coincide_bind heedless_previous fun _ => coincide_bind heedless_peek fun _ =>
    coincide_bind (heedless_peekAt 1) fun _ => heedless_pure _

theorem heedless_join (l : Letters) (raw base : String) : Heedless (join l raw base) :=
  coincide_bind heedless_pass fun _ => coincide_bind (heedless_name l) fun _ => heedless_pure _

theorem heedless_joinName (l : Letters) (n : Node) : Heedless (joinName l n) := by
  refine coincide_bind (heedless_joinFollows l) fun follows => ?_
  cases n with
  | identifier w object property =>
    cases object with
    | some object => exact heedless_pure _
    | none =>
      cases follows with
      | false => exact heedless_pure _
      | true => exact heedless_join l w w
  | _ => exact heedless_pure _

theorem heedless_joinableText (l : Letters) : Heedless (joinableText l) := by
  refine coincide_bind heedless_quotation fun text => ?_
  obtain ⟨value, raw⟩ := text
  exact coincide_bind (heedless_joinFollows l) fun _ =>
    heedless_ite (heedless_join l raw value) (heedless_pure _)

theorem heedless_pairs (h : ∀ r, Heedless (steps r)) (keys : Keyed (Entry Node)) :
    Heedless (pairs g steps keys) := by
  refine coincide_bind heedless_skipBlanks fun _ => coincide_bind (heedless_eat ',') fun _ => ?_
  refine coincide_bind heedless_skipBlanks fun _ => coincide_bind heedless_peek fun _ => ?_
  refine heedless_ite (coincide_bind heedless_index fun next => ?_) (heedless_pure keys)
  refine coincide_bind (h .primary) fun x => ?_
  cases x with
  | pair key value => exact h (.pairs _)
  | node n => exact coincide_bind (heedless_goBack next) fun _ => heedless_pure keys

theorem heedless_applyUnary (h : ∀ r, Heedless (steps r)) (operator : String) :
    Heedless (applyUnary steps operator) :=
  heedless_map (heedless_require (h .operand) _) fun n => Node.unary operator n true

theorem heedless_ofTerm (h : ∀ r, Heedless (steps r)) (x : Term) : Heedless (ofTerm g steps x) := by
  cases x with
  | pair key value => exact heedless_map (h (.pairs _)) Node.keyValues
  | node n =>
    cases n with
    | identifier w object property =>
      cases object with
      | some object => exact heedless_pure _
      | none =>
        apply heedless_ite (heedless_applyUnary h w)
        cases Numeral.read? w.toList <;> exact heedless_pure _
    | _ => exact heedless_pure _

theorem heedless_numeralOperand (hcolon : g.letters.isStart ':' = false)
    (h : ∀ r, Heedless (steps r)) (first : Char) :
    Heedless (numeralOperand g steps first) := by
  refine coincide_bind heedless_index fun start => ?_
  refine coincide_bind (heedless_attempt (heedless_numeral hcolon)) fun found => ?_
  cases found with
  | ok n => exact heedless_pure n
  | error e =>
    refine heedless_ite (coincide_bind (heedless_goBack start) fun _ => ?_) (heedless_failAt _ _)
    exact coincide_bind (h .primary) fun x => heedless_ofTerm h x

theorem heedless_primaryOperand (h : ∀ r, Heedless (steps r)) :
    Heedless (primaryOperand g steps) := by
  refine coincide_bind (h .primary) fun x => ?_
  cases x with
  | pair key value => exact heedless_ofTerm h _
  | node n => exact coincide_bind (heedless_joinName _ n) fun m => heedless_ofTerm h (.node m)

theorem heedless_leadingOperator (h : ∀ r, Heedless (steps r)) :
    Heedless (leadingOperator g steps) := by
  refine coincide_bind (heedless_lookahead _) fun ahead => ?_
  cases g.operators.unaryAt? ahead with
  | none => exact heedless_pure none
  | some operator =>
    exact coincide_bind (heedless_skip _) fun _ =>
      heedless_map (heedless_applyUnary h operator) some

theorem heedless_operand (hcolon : g.letters.isStart ':' = false)
    (h : ∀ r, Heedless (steps r)) : Heedless (operand g steps) := by
  refine coincide_bind heedless_skipBlanks fun _ => coincide_bind heedless_peek fun next => ?_
  cases next with
  | none => exact heedless_pure none
  | some c =>
    refine heedless_ite (heedless_map (heedless_numeralOperand hcolon h c) some) ?_
    refine heedless_ite (heedless_map (heedless_joinableText _) some) ?_
    refine heedless_ite (coincide_bind heedless_quotation fun _ => heedless_pure _) ?_
    refine heedless_ite (heedless_map (heedless_primaryOperand h) some) ?_
    refine heedless_ite (coincide_bind heedless_pass fun _ => ?_) (heedless_leadingOperator h)
    exact heedless_map (h (.items .square)) fun ns => some (Node.array ns)

theorem heedless_binaryOperator (g : Grammar) : Heedless (binaryOperator g) := by
  refine coincide_bind heedless_skipBlanks fun _ => ?_
  refine coincide_bind (heedless_lookahead _) fun ahead => ?_
  cases g.operators.binaryAt? ahead with
  | none => exact heedless_pure none
  | some o => exact coincide_bind (heedless_skip _) fun _ => heedless_pure _

theorem heedless_chain (h : ∀ r, Heedless (steps r)) (stack : OperatorStack) :
    Heedless (chain g steps stack) := by
  refine coincide_bind (heedless_binaryOperator g) fun o => ?_
  cases o with
  | none => exact heedless_pure _
  | some o =>
    refine heedless_ite (heedless_pure _) ?_
    exact coincide_bind (heedless_require (h .operand) _) fun right => h (.chain _)

/-- The mark is asked for only to be put back, so each walk puts back its own. -/
theorem heedless_expressionFollows (h : ∀ r, Heedless (steps r)) :
    Heedless (expressionFollows steps) := by
  refine coincide_bind heedless_index fun resume => coincide_inBranch fun b b' => ?_
  refine coincide_bind (heedless_attempt (h .expression)) fun alternate => ?_
  exact coincide_bind (heedless_goBack resume) fun _ =>
    coincide_bind (coincide_setInBranch b b') fun _ => heedless_pure _

theorem heedless_splitGlued (h : ∀ r, Heedless (steps r)) (start : Nat) (left : Node) :
    Heedless (splitGlued steps start left) := by
  unfold splitGlued
  dsimp only
  cases lastByteOf? '?' (left.name?.getD "") with
  | none => exact heedless_pure left
  | some byte =>
    refine coincide_bind (heedless_cut _ byte) fun parts => heedless_ite (heedless_pure left) ?_
    refine coincide_bind (heedless_ite (heedless_expressionFollows h) (heedless_pure true))
      fun follows => ?_
    exact heedless_ite (coincide_bind (heedless_goBack _) fun _ => heedless_pure _)
      (heedless_pure left)

theorem heedless_binary (h : ∀ r, Heedless (steps r)) : Heedless (binary g steps) := by
  refine coincide_bind heedless_skipBlanks fun _ => coincide_bind heedless_index fun start => ?_
  refine coincide_bind (h .operand) fun a => ?_
  cases a with
  | none => exact heedless_pure none
  | some left =>
    refine coincide_bind heedless_previous fun _ => ?_
    refine coincide_bind (heedless_binaryOperator g) fun o => ?_
    cases o with
    | none => exact heedless_map (heedless_splitGlued h start left) some
    | some o =>
      refine coincide_bind heedless_peek fun next => heedless_ite ?_ ?_
      · exact coincide_bind (heedless_name _) fun _ => heedless_pure _
      · exact coincide_bind (heedless_require (h .operand) _) fun right => h (.chain _)

theorem heedless_expression (h : ∀ r, Heedless (steps r)) : Heedless (expression g steps) := by
  refine coincide_bind (heedless_binary h) fun a => ?_
  cases a with
  | none => exact heedless_pure none
  | some test =>
    refine coincide_bind heedless_skipBlanks fun _ => coincide_bind (heedless_eat '?') fun b => ?_
    refine heedless_ite ?_ (heedless_pure (some test))
    refine coincide_bind (coincide_setInBranch true true) fun _ => ?_
    refine coincide_bind (heedless_require (h .expression) _) fun consequent => ?_
    refine coincide_bind heedless_skipBlanks fun _ => ?_
    refine coincide_bind (heedless_expect _ _) fun _ => ?_
    refine coincide_bind (heedless_require (h .expression) _) fun alternate => ?_
    exact coincide_bind (coincide_setInBranch false false) fun _ => heedless_pure _

theorem heedless_statements (h : ∀ r, Heedless (steps r)) : Heedless (statements steps) := by
  refine coincide_bind heedless_peek fun next => ?_
  cases next with
  | none => exact heedless_pure []
  | some c =>
    refine heedless_ite (coincide_bind heedless_pass fun _ => h .statements) ?_
    refine coincide_bind (h .expression) fun a => ?_
    cases a with
    | some n => exact heedless_map (h .statements) (n :: ·)
    | none =>
      refine coincide_bind heedless_peek fun next => ?_
      cases next with
      | none => exact heedless_pure []
      | some c => exact heedless_fail _

/-- No rule heeds the mark, in any number of rounds. -/
theorem heedless_run (hcolon : g.letters.isStart ':' = false) (n : Nat) (r : Rule) :
    Heedless (run g n r) := by
  induction n generalizing r with
  | zero => exact heedless_endless
  | succ n ih =>
    cases r with
    | expression => exact heedless_expression ih
    | operand => exact heedless_operand hcolon ih
    | primary => exact heedless_primary ih
    | links head => exact heedless_links ih head
    | items bracket => exact heedless_items ih bracket
    | chain stack => exact heedless_chain ih stack
    | pairs keys => exact heedless_pairs ih keys
    | statements => exact heedless_statements ih

end

theorem unmarked_of_meets {text : List Char} {o o' : Outcome α} {x y : Landing α}
    (h : Bounds.Meets text o x) (h' : Bounds.Meets text o' y) (hxy : x.unmarked = y.unmarked) :
    o.unmarked = o'.unmarked := by
  cases h with
  | @done a t ht =>
    cases h' with
    | @done a' t' ht' =>
      injection hxy with ha hspot
      injection hspot with hindex
      have hcursor : t.cursor = t'.cursor := Cursor.eq_of_index_eq (ht.trans ht'.symm) hindex
      rw [Outcome.unmarked, Outcome.unmarked, ha, hcursor]
    | _ => cases hxy
  | failed he hw =>
    cases h' with
    | failed he' hw' =>
      injection hxy with he
      rw [he]
    | _ => cases hxy
  | unfinished =>
    cases h' with
    | unfinished => rfl
    | _ => cases hxy

/-- The parser stands where the walk stands. -/
theorem run_unmarked {g : Grammar} (hcolon : g.letters.isStart ':' = false) (n : Nat) (r : Rule)
    (c : Cursor) : (Parse.run g n r ⟨c, true⟩).unmarked = (Parse.run g n r ⟨c, false⟩).unmarked :=
  unmarked_of_meets (Bounds.follow_run c.text g n r ⟨c, true⟩ rfl)
    (Bounds.follow_run c.text g n r ⟨c, false⟩ rfl)
    (heedless_run hcolon n r c.text c.index true false)

section

open Parse Numerals Origins

variable {g : Grammar} {rules : Rules} {s t : State} {n : Node} {c : Char}

/-- A digit begins a numeral, whatever else the digit may be. -/
theorem operand_of_numeral (hpeek : s.cursor.skipBlanks.peek? = some c) (hdigit : c.isDigit = true)
    (h : numeral g.letters { s with cursor := s.cursor.skipBlanks } = .done n t) :
    operand g rules s = .done (some n) t := by
  have hnumeral : numeralOperand g rules c { s with cursor := s.cursor.skipBlanks } =
      .done n t := by
    unfold numeralOperand
    rw [ite_step, recover, h, ite_self]
  unfold operand
  rw [bind_skipBlanks_apply, bind_peek_apply, hpeek]
  simp only [hdigit, Bool.true_or, if_true]
  exact bind_of_done hnumeral _

/-- No binary operator is found at the end of a text. -/
theorem binaryOperator_of_nil (hs : s.cursor.skipBlanks.ahead = []) :
    binaryOperator g s = .done none { s with cursor := s.cursor.skipBlanks } := by
  unfold binaryOperator
  rw [bind_skipBlanks_apply, bind_here_apply, hs, List.take_nil]
  cases hop : g.operators.binaryAt? [] with
  | none => rfl
  | some op => exact absurd rfl (OperatorTable.binaryAt?_pos hop).2

/-- In no branch `1:` is a name, if the colon is a character of names. -/
theorem name_of_digit_colon (hcolon : g.letters.isStart ':' = true) :
    ∃ t, run g 2 .expression ⟨.start ['1', ':'], false⟩ = .done (some (.plain "1:")) t := by
  have hdigit : '1'.isDigit = true := by decide
  have hname : IsName g.letters ['1'] (some ':') :=
    ⟨by simp [Letters.isPart, hdigit], ':', rfl, hcolon⟩
  have hnumeral := numeral_isName (c := .start ['1', ':']) (n := ⟨['1'], none, none⟩) rfl hname
  have hparts : ['1', ':'].takeWhile g.letters.isPart = ['1', ':'] := by
    simp [Letters.isPart, hcolon, hdigit]
  rw [Cursor.start, hparts] at hnumeral
  have hoperand : run g 1 .operand ⟨.start ['1', ':'], false⟩ = .done (some (.plain "1:")) _ :=
    operand_of_numeral rfl hdigit hnumeral
  have huncut : Cuts.Uncut (.plain "1:") := Cuts.uncut_of_not_mem (by decide) none none
  have hbinary : binary g (run g 1) ⟨.start ['1', ':'], false⟩ =
      .done (some (.plain "1:")) ⟨⟨[':', '1'], []⟩, false⟩ := by
    unfold binary
    rw [bind_skipBlanks_apply, bind_here_apply]
    refine (bind_of_done hoperand _).trans ?_
    dsimp only
    rw [bind_here_apply, bind_of_done (binaryOperator_of_nil rfl)]
    exact bind_of_done (Cuts.splitGlued_of_uncut huncut) _
  exact ⟨_, bind_of_done hbinary _⟩

/-- In a branch it is no name, whatever the grammar makes of the colon behind the number. -/
theorem number_of_digit_colon (t : State) :
    run g 2 .expression ⟨.start ['1', ':'], true⟩ ≠ .done (some (.plain "1:")) t := by
  intro h
  have hread : Numeral.read? "1".toList = some (.ofInt 1) := by decide +kernel
  have hahead : (⟨.start ['1', ':'], true⟩ : State).cursor.ahead = "1".toList ++ [':'] := rfl
  obtain ⟨u, hnumeral, -⟩ := Reading.numeral_done_of_stops (l := g.letters) hread
    (forall_mem_head?_cons _ (by decide)) (by simp) hahead
  have hoperand : run g 1 .operand ⟨.start ['1', ':'], true⟩ =
      .done (some (.literal (.number (.ofInt 1)) "1")) u :=
    operand_of_numeral rfl (by decide) hnumeral
  cases expression_cases h with
  | alone hbinary =>
    generalize hname : some (Node.plain "1:") = a at hbinary
    cases binary_cases hbinary with
    | nothing => cases hname
    | alone hleft hoperator hsplit =>
      cases hoperand.symm.trans hleft
      rw [Cuts.splitGlued_of_uncut (Cuts.uncut_of_name?_eq_none rfl)] at hsplit
      cases hsplit
      cases hname
    | word hleft hw =>
      cases hoperand.symm.trans hleft
      cases hw
    | operators hleft hoperator hinside hright hchain =>
      -- the colon can begin an operator, but operators never make a name
      subst hname
      cases Collected.name?_of_chain hchain

/-- With the colon as a character of names the mark tells the number from the name. -/
theorem unmarked_ne (hcolon : g.letters.isStart ':' = true) :
    (run g 2 .expression ⟨.start ['1', ':'], true⟩).unmarked ≠
      (run g 2 .expression ⟨.start ['1', ':'], false⟩).unmarked := by
  intro h
  obtain ⟨t, hname⟩ := name_of_digit_colon hcolon
  rw [hname] at h
  cases hnumber : run g 2 .expression ⟨.start ['1', ':'], true⟩ with
  | done a u =>
    rw [hnumber] at h
    injection h with ha
    exact number_of_digit_colon u (ha ▸ hnumber)
  | _ =>
    rw [hnumber] at h
    cases h

end

/-- The mark for branches is idle exactly if the colon is no character of names: then, from each
index of each source, an expression is read with it and without it to the same tree or the same
error, and up to the same index, in any number of rounds. This holds of the parser, and of the walk
on a bare index, which also tells where it stands after an error. -/
theorem unmarked_eq_iff (g : Grammar) :
    (∀ rounds (source : String) i,
      (Walk.run g rounds .expression source.toList ⟨i, true⟩).unmarked =
        (Walk.run g rounds .expression source.toList ⟨i, false⟩).unmarked ∧
      (Parse.run g rounds .expression ⟨(Cursor.start source.toList).advance i, true⟩).unmarked =
        (Parse.run g rounds .expression
          ⟨(Cursor.start source.toList).advance i, false⟩).unmarked) ↔
    g.letters.isExtra ':' = false := by
  have hstart : g.letters.isStart ':' = g.letters.isExtra ':' := by
    simp [Letters.isStart, show ':'.isAlpha = false by decide]
  rw [← hstart]
  constructor
  · intro h
    by_contra hcolon
    exact unmarked_ne (Bool.not_eq_false _ ▸ hcolon) (h 2 "1:" 0).2
  · intro hcolon rounds source i
    exact ⟨heedless_run hcolon rounds .expression source.toList i true false,
      run_unmarked hcolon rounds .expression _⟩

end IdleMark

end ExprTree
