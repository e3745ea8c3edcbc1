import ExprTree.Proofs.Progress
import ExprTree.Proofs.Steps

/-!
Two parses that see the same text ahead go in lockstep, whatever was passed before it: they give
the same values, stop at the same places, and fail for the same causes at places that differ by
the lengths of the two beginnings. The first parse may also be given fewer rounds; then it is
unfinished, or the two still agree. With no beginnings at all this says that more rounds change
nothing, see `run_of_le`.

Two steps look at the character before the place they are at. They do so only after a character
was passed in the common text, or the two beginnings have to end alike.
-/

namespace ExprTree.Lockstep

open Parse

section

variable (base base' : List Char)

/-- Two places with the same text ahead, and the same characters passed after two beginnings. -/
def SamePlace (c c' : Cursor) : Prop :=
  c'.ahead = c.ahead ∧ ∃ p, c.passed = p ++ base ∧ c'.passed = p ++ base'

/-- Two states at such places. -/
structure Alike (s s' : State) : Prop where
  place : SamePlace base base' s.cursor s'.cursor
  inBranch : s'.inBranch = s.inBranch

/-- The second outcome is the first one after another beginning. -/
def Matches {α : Type} : Outcome α → Outcome α → Prop
  | .done a s, .done a' s' => a' = a ∧ Alike base base' s s'
  | .failed e, .failed e' =>
    e'.cause = e.cause ∧ e'.index + base.length = e.index + base'.length
  | .unfinished, _ => True
  | _, _ => False

/-- Each rule of the second kind follows that of the first. -/
def Follow (rules rules' : Rules) : Prop :=
  ∀ r s s', Alike base base' s s' → Matches base base' (rules r s) (rules' r s')

/-- What has to be known where the character before a place is looked at: the beginnings end
alike, or operands and primaries pass a character. -/
def Separated (rules : Rules) : Prop :=
  base'.head?.any isBlank = base.head?.any isBlank ∨
    (∀ s n t, rules .operand s = .done (some n) t → s.cursor.Passes t.cursor) ∧
    ∀ s x t, rules .primary s = .done x t → s.cursor.Passes t.cursor

end

section

variable {base base' : List Char} {α β : Type} {s s' t t' : State} {c c' : Cursor}

namespace SamePlace

theorem advance (h : SamePlace base base' c c') (n : Nat) :
    SamePlace base base' (c.advance n) (c'.advance n) := by
  obtain ⟨hahead, p, hp, hp'⟩ := h
  refine ⟨by simp [hahead], (c.ahead.take n).reverse ++ p, ?_, ?_⟩
  · simp [Cursor.advance, hp]
  · simp [Cursor.advance, hp', hahead]

theorem skipBlanks (h : SamePlace base base' c c') :
    SamePlace base base' c.skipBlanks c'.skipBlanks := by
  unfold Cursor.skipBlanks
  rw [h.1]
  exact h.advance _

theorem peek? (h : SamePlace base base' c c') : c'.peek? = c.peek? := by
  simp [Cursor.peek?, h.1]

theorem peekAt? (h : SamePlace base base' c c') (n : Nat) : c'.peekAt? n = c.peekAt? n := by
  simp [Cursor.peekAt?, h.1]

theorem index (h : SamePlace base base' c c') :
    c'.index + base.length = c.index + base'.length := by
  obtain ⟨-, p, hp, hp'⟩ := h
  simp only [Cursor.index, hp, hp', List.length_append]
  omega

/-- After a character of the common text, the character before the place is the same. -/
theorem previous_of_passes {d d' : Cursor} (h : SamePlace base base' c c')
    (h' : SamePlace base base' d d') (hpass : c.Passes d) : d'.previous? = d.previous? := by
  obtain ⟨⟨n, rfl⟩, hlt⟩ := hpass
  obtain ⟨-, p, hp, -⟩ := h
  obtain ⟨-, q, hq, hq'⟩ := h'
  have hlength := congrArg List.length hq
  simp only [Cursor.advance, hp, List.length_append, List.length_reverse, List.length_take]
    at hlength
  cases q with
  | nil =>
    simp only [Cursor.ahead_advance, List.length_drop] at hlt
    simp only [List.length_nil] at hlength
    omega
  | cons x q => simp [Cursor.previous?, hq, hq']

theorem previous_of_alike (h : SamePlace base base' c c')
    (hbase : base'.head?.any isBlank = base.head?.any isBlank) :
    c'.previous?.any isBlank = c.previous?.any isBlank := by
  obtain ⟨-, p, hp, hp'⟩ := h
  cases p with
  | nil => simpa [Cursor.previous?, hp, hp'] using hbase
  | cons x p => simp [Cursor.previous?, hp, hp']

end SamePlace

namespace Alike

theorem move (h : Alike base base' s s') (hc : SamePlace base base' c c') :
    Alike base base' { s with cursor := c } { s' with cursor := c' } :=
  ⟨hc, h.inBranch⟩

theorem advance (h : Alike base base' s s') (n : Nat) :
    Alike base base' { s with cursor := s.cursor.advance n }
      { s' with cursor := s'.cursor.advance n } :=
  h.move (h.place.advance n)

theorem skipBlanks (h : Alike base base' s s') :
    Alike base base' { s with cursor := s.cursor.skipBlanks }
      { s' with cursor := s'.cursor.skipBlanks } :=
  h.move h.place.skipBlanks

theorem setInBranch (h : Alike base base' s s') (b : Bool) :
    Alike base base' { s with inBranch := b } { s' with inBranch := b } :=
  ⟨h.place, rfl⟩

end Alike

theorem matches_done (h : Alike base base' s s') (a : α) :
    Matches base base' (.done a s) (.done a s') :=
  ⟨rfl, h⟩

theorem matches_failed (h : SamePlace base base' c c') (cause : Cause) :
    Matches (α := α) base base' (.failed ⟨cause, c.index⟩) (.failed ⟨cause, c'.index⟩) :=
  ⟨rfl, h.index⟩

theorem Matches.of_done {o : Outcome α} {a : α} (h : Matches base base' (.done a s) o) :
    ∃ s', o = .done a s' ∧ Alike base base' s s' := by
  cases o with
  | done a' s' =>
    obtain ⟨rfl, hs⟩ := h
    exact ⟨s', rfl, hs⟩
  | failed e => exact h.elim
  | unfinished => exact h.elim

theorem Matches.of_failed {o : Outcome α} {e : ParseError} (h : Matches base base' (.failed e) o) :
    ∃ e', o = .failed e' ∧ e'.cause = e.cause ∧
      e'.index + base.length = e.index + base'.length := by
  cases o with
  | done a s' => exact h.elim
  | failed e' => exact ⟨e', rfl, h⟩
  | unfinished => exact h.elim

/-- The second outcome is done with a value exactly if the first one is, unless that is left
unfinished. -/
theorem Matches.done_iff {o o' : Outcome α} (h : Matches base base' o o') (ho : o ≠ .unfinished)
    (a : α) : (∃ t, o' = .done a t) ↔ ∃ t, o = .done a t := by
  cases o with
  | done b t =>
    obtain ⟨t', rfl, -⟩ := h.of_done
    simp
  | failed e =>
    obtain ⟨e', rfl, -⟩ := h.of_failed
    simp
  | unfinished => exact absurd rfl ho

theorem matches_bind {p p' : Parse β} {f f' : β → Parse α}
    (h : Matches base base' (p s) (p' s'))
    (hf : ∀ b t t', p s = .done b t → Alike base base' t t' →
      Matches base base' (f b t) (f' b t')) :
    Matches base base' ((p >>= f) s) ((p' >>= f') s') := by
  cases hp : p s with
  | done b t =>
    rw [hp] at h
    obtain ⟨t', hp', ht⟩ := h.of_done
    rw [bind_of_done hp, bind_of_done hp']
    exact hf b t t' hp ht
  | failed e =>
    rw [hp] at h
    obtain ⟨e', hp', he⟩ := h.of_failed
    rw [bind_of_failed hp, bind_of_failed hp']
    exact he
  | unfinished =>
    rw [bind_of_unfinished hp]
    trivial

theorem matches_require {p p' : Parse (Option α)} (cause : Cause)
    (h : Matches base base' (p s) (p' s')) :
    Matches base base' (require cause p s) (require cause p' s') := by
  refine matches_bind h fun a t t' _ ht => ?_
  cases a with
  | none => exact matches_failed ht.place cause
  | some a => exact matches_done ht a

theorem matches_lookAhead {p p' : Parse α} (hs : Alike base base' s s')
    (h : Matches base base' (p s) (p' s')) :
    Matches base base' (lookAhead p s) (lookAhead p' s') := by
  unfold lookAhead
  cases hp : p s with
  | unfinished => trivial
  | done a t =>
    rw [hp] at h
    obtain ⟨t', hp', -⟩ := h.of_done
    rw [hp']
    exact ⟨rfl, hs⟩
  | failed e =>
    rw [hp] at h
    obtain ⟨e', hp', -⟩ := h.of_failed
    rw [hp']
    exact ⟨rfl, hs⟩

theorem matches_recover {p p' q q' : Parse α} (h : Matches base base' (p s) (p' s'))
    (hq : Matches base base' (q s) (q' s')) :
    Matches base base' (recover p q s) (recover p' q' s') := by
  unfold recover
  cases hp : p s with
  | unfinished => trivial
  | done a t =>
    rw [hp] at h
    obtain ⟨t', hp', ht⟩ := h.of_done
    rw [hp']
    exact ⟨rfl, ht⟩
  | failed e =>
    rw [hp] at h
    obtain ⟨e', hp', -⟩ := h.of_failed
    rw [hp']
    exact hq

end

section

variable {base base' : List Char} {α β : Type} {s s' t t' : State} {g : Grammar}
  {rules rules' : Rules}

theorem matches_ite {c : Prop} [Decidable c] {p p' q q' : Parse α}
    (hp : c → Matches base base' (p s) (p' s')) (hq : ¬ c → Matches base base' (q s) (q' s')) :
    Matches base base' ((if c then p else q) s) ((if c then p' else q') s') := by
  by_cases h : c
  · simpa only [h, if_true] using hp h
  · simpa only [h, if_false] using hq h

theorem matches_eat (hs : Alike base base' s s') (c : Char) :
    Matches base base' (eat c s) (eat c s') := by
  unfold eat
  rw [hs.place.peek?]
  by_cases h : s.cursor.peek? = some c
  · simpa only [h, if_true] using matches_done (hs.advance 1) true
  · simpa only [h, if_false] using matches_done hs false

theorem matches_expect (hs : Alike base base' s s') (c : Char) (cause : Cause) :
    Matches base base' (expect c cause s) (expect c cause s') := by
  refine matches_bind (matches_eat hs c) fun b t t' _ ht => ?_
  exact matches_ite (fun _ => matches_done ht ()) fun _ => matches_failed ht.place cause

theorem matches_inBranch (hs : Alike base base' s s') :
    Matches base base' (inBranch s) (inBranch s') :=
  ⟨hs.inBranch, hs⟩

theorem name_matches (l : Letters) (hs : Alike base base' s s') :
    Matches base base' (name l s) (name l s') := by
  unfold name
  rw [bind_peek_apply, bind_peek_apply, hs.place.peek?]
  cases s.cursor.peek? with
  | none => exact matches_failed hs.place _
  | some c =>
    refine matches_ite (fun _ => ?_) fun _ => matches_failed hs.place _
    rw [bind_takeWhile_apply, bind_takeWhile_apply, hs.place.1]
    exact matches_done (hs.advance _) _

theorem quotation_matches (hs : Alike base base' s s') :
    Matches base base' (quotation s) (quotation s') := by
  unfold quotation
  rw [bind_here_apply, bind_here_apply, hs.place.1]
  cases s.cursor.ahead with
  | nil => exact matches_failed hs.place _
  | cons quote rest =>
    have hq := hs.advance ((Quotation.scan quote rest).raw.length + 1)
    exact matches_ite (fun _ => matches_done hq _) fun _ => matches_failed hq.place _

theorem nameFromNumeral_matches (l : Letters) (text : List Char) (cause : Cause)
    (hs : Alike base base' s s') :
    Matches base base' (nameFromNumeral l text cause s) (nameFromNumeral l text cause s') := by
  refine matches_ite (fun _ => ?_) fun _ => matches_failed hs.place _
  exact matches_bind (name_matches l hs) fun _ _ _ _ ht => matches_done ht _

theorem numberOf_matches (n : Numeral) {c c' : Cursor} (hc : SamePlace base base' c c')
    (hs : Alike base base' s s') :
    Matches base base' (numberOf n c.index s) (numberOf n c'.index s') := by
  unfold numberOf
  cases n.isComplete with
  | true => exact matches_done hs _
  | false => exact matches_failed hc _

theorem numeral_matches (l : Letters) (hs : Alike base base' s s') :
    Matches base base' (numeral l s) (numeral l s') := by
  unfold numeral
  rw [bind_here_apply, bind_here_apply, hs.place.1]
  obtain ⟨n, rest⟩ := Numeral.munch s.cursor.ahead
  have hn := hs.advance n.text.length
  refine matches_ite (fun _ => nameFromNumeral_matches l _ _ hn) fun _ => ?_
  cases rest.head? with
  | none => exact numberOf_matches n hs.place hn
  | some c =>
    refine matches_bind (matches_inBranch hn) fun b t t' _ ht => ?_
    refine matches_ite (fun _ => numberOf_matches n hs.place ht) fun _ => ?_
    refine matches_ite (fun _ => nameFromNumeral_matches l _ _ ht) fun _ => ?_
    exact matches_ite (fun _ => matches_failed ht.place _) fun _ => numberOf_matches n hs.place ht

theorem word_matches (h : Follow base base' rules rules') (hs : Alike base base' s s') :
    Matches base base' (word g rules s) (word g rules' s') := by
  refine matches_bind (name_matches g.letters hs) fun w t t' _ ht => ?_
  rw [bind_here_apply, bind_here_apply, ht.place.peek?, ht.place.peekAt?]
  refine matches_ite (fun _ => ?_) fun _ => matches_done ht _
  rw [bind_advance_apply, bind_advance_apply]
  apply matches_bind (matches_require _ (h .expression _ _ (ht.advance 1)))
  exact fun _ _ _ _ hu => matches_done hu _

theorem group_matches (h : Follow base base' rules rules') (hs : Alike base base' s s') :
    Matches base base' (group rules s) (group rules' s') := by
  unfold group
  rw [bind_advance_apply, bind_advance_apply]
  refine matches_bind (matches_require _ (h .expression _ _ (hs.advance 1))) fun n t t' _ ht => ?_
  rw [bind_skipBlanks_apply, bind_skipBlanks_apply]
  exact matches_bind (matches_expect ht.skipBlanks ')' _) fun _ _ _ _ hu => matches_done hu n

theorem primary_matches (h : Follow base base' rules rules') (hs : Alike base base' s s') :
    Matches base base' (primary g rules s) (primary g rules' s') := by
  unfold primary
  refine matches_bind ?_ fun x t t' _ ht => ?_
  · rw [bind_peek_apply, bind_peek_apply, hs.place.peek?]
    refine matches_ite (fun _ => ?_) fun _ => word_matches h hs
    exact matches_bind (group_matches h hs) fun n _ _ _ ht => matches_done ht _
  · cases x with
    | pair w value => exact matches_done ht _
    | node n =>
      simp only [bind_skipBlanks_apply]
      exact matches_bind (h (.links n) _ _ ht.skipBlanks) fun _ _ _ _ hu => matches_done hu _

theorem links_matches (h : Follow base base' rules rules') (head : Node)
    (hs : Alike base base' s s') :
    Matches base base' (links g rules head s) (links g rules' head s') := by
  rw [links_eq, links_eq, bind_peek_apply, bind_peek_apply, hs.place.peek?]
  refine matches_ite (fun _ => ?_) fun _ => matches_ite (fun _ => ?_) fun _ =>
    matches_ite (fun _ => ?_) fun _ => matches_done hs head
  · simp only [bind_advance_apply, bind_skipBlanks_apply]
    refine matches_bind (name_matches g.letters (hs.advance 1).skipBlanks) fun w t t' _ ht => ?_
    exact h (.links _) _ _ ht.skipBlanks
  · simp only [bind_advance_apply]
    apply matches_bind (matches_require _ (h .expression _ _ (hs.advance 1)))
    intro property t t' _ ht
    simp only [bind_skipBlanks_apply]
    refine matches_bind (matches_expect ht.skipBlanks ']' _) fun _ u u' _ hu => ?_
    exact h (.links _) _ _ hu.skipBlanks
  · simp only [bind_advance_apply]
    refine matches_bind (h (.items .round) _ _ (hs.advance 1)) fun arguments t t' _ ht => ?_
    exact h (.links _) _ _ ht.skipBlanks

theorem items_matches (h : Follow base base' rules rules') (bracket : Bracket)
    (hs : Alike base base' s s') :
    Matches base base' (items rules bracket s) (items rules' bracket s') := by
  unfold items
  rw [bind_skipBlanks_apply, bind_skipBlanks_apply, bind_peek_apply, bind_peek_apply,
    hs.skipBlanks.place.peek?]
  cases s.cursor.skipBlanks.peek? with
  | none => exact matches_failed hs.skipBlanks.place _
  | some c =>
    refine matches_ite (fun _ => matches_done (hs.skipBlanks.advance 1) _) fun _ => ?_
    refine matches_ite (fun _ => h (.items bracket) _ _ (hs.skipBlanks.advance 1)) fun _ => ?_
    refine matches_bind (h .expression _ _ hs.skipBlanks) fun a t t' _ ht => ?_
    have hitem : ∀ n : Node, Matches base base'
        ((do return n :: (← rules (.items bracket)) : Parse (List Node)) t)
        ((do return n :: (← rules' (.items bracket)) : Parse (List Node)) t') := fun n =>
      matches_bind (h (.items bracket) t t' ht) fun ns _ _ _ hu => matches_done hu (n :: ns)
    rcases a with _ | n
    · exact matches_failed ht.place _
    · cases n <;> first | exact matches_failed ht.place _ | exact hitem _

theorem joinFollows_eq {c c' : Cursor} (l : Letters) (hc : SamePlace base base' c c')
    (hprevious : c'.previous?.any isBlank = c.previous?.any isBlank) :
    joinFollows l c' = joinFollows l c := by
  unfold joinFollows
  rw [hprevious, hc.peek?, hc.peekAt?]

theorem join_matches (l : Letters) (raw base₁ : String) (hs : Alike base base' s s') :
    Matches base base' (join l raw base₁ s) (join l raw base₁ s') := by
  unfold join
  simp only [bind_advance_apply]
  exact matches_bind (name_matches l (hs.advance 1)) fun _ _ _ _ ht => matches_done ht _

theorem joinName_matches (l : Letters) (n : Node) (hs : Alike base base' s s')
    (hprevious : s'.cursor.previous?.any isBlank = s.cursor.previous?.any isBlank) :
    Matches base base' (joinName l n s) (joinName l n s') := by
  unfold joinName
  rw [bind_here_apply, bind_here_apply, joinFollows_eq l hs.place hprevious]
  cases n with
  | identifier w object property =>
    cases object with
    | some object => exact matches_done hs _
    | none =>
      cases joinFollows l s.cursor with
      | false => exact matches_done hs _
      | true => exact join_matches l w w hs
  | _ => exact matches_done hs _

theorem joinableText_matches (l : Letters) (hs : Alike base base' s s') :
    Matches base base' (joinableText l s) (joinableText l s') := by
  refine matches_bind (quotation_matches hs) fun text t t' htext ht => ?_
  have hpass := Progress.passes_of_quotation htext
  have hprevious := congrArg (·.any isBlank) (hs.place.previous_of_passes ht.place hpass)
  obtain ⟨value, raw⟩ := text
  simp only [bind_here_apply, joinFollows_eq l ht.place hprevious]
  exact matches_ite (fun _ => join_matches l raw value ht) fun _ => matches_done ht _

theorem pairs_matches (h : Follow base base' rules rules') (keys : Keyed (Entry Node))
    (hs : Alike base base' s s') :
    Matches base base' (pairs g rules keys s) (pairs g rules' keys s') := by
  unfold pairs
  simp only [bind_skipBlanks_apply]
  refine matches_bind (matches_eat hs.skipBlanks ',') fun _ t t' _ ht => ?_
  have hnext := ht.skipBlanks
  simp only [bind_skipBlanks_apply, bind_here_apply]
  rw [hnext.place.peek?]
  refine matches_ite (fun _ => ?_) fun _ => matches_done hnext _
  refine matches_bind (h .primary _ _ hnext) fun x u u' _ hu => ?_
  cases x with
  | pair key value => exact h (.pairs _) _ _ hu
  | node n => exact matches_done (hu.move hnext.place) _

theorem applyUnary_matches (h : Follow base base' rules rules') (operator : String)
    (hs : Alike base base' s s') :
    Matches base base' (applyUnary rules operator s) (applyUnary rules' operator s') :=
  matches_bind (matches_require _ (h .operand _ _ hs)) fun _ _ _ _ ht => matches_done ht _

theorem ofTerm_matches (h : Follow base base' rules rules') (x : Term)
    (hs : Alike base base' s s') :
    Matches base base' (ofTerm g rules x s) (ofTerm g rules' x s') := by
  cases x with
  | pair key value =>
    exact matches_bind (h (.pairs _) _ _ hs) fun _ _ _ _ ht => matches_done ht _
  | node n =>
    cases n with
    | identifier w object property =>
      cases object with
      | some object => exact matches_done hs _
      | none =>
        refine matches_ite (fun _ => applyUnary_matches h w hs) fun _ => ?_
        cases Numeral.read? w.toList <;> exact matches_done hs _
    | _ => exact matches_done hs _

theorem numeralOperand_matches (h : Follow base base' rules rules') (first : Char)
    (hs : Alike base base' s s') :
    Matches base base' (numeralOperand g rules first s) (numeralOperand g rules' first s') := by
  refine matches_ite (fun _ => ?_) fun _ => numeral_matches g.letters hs
  apply matches_recover (numeral_matches g.letters hs)
  exact matches_bind (h .primary _ _ hs) fun x _ _ _ ht => ofTerm_matches h x ht

/-- Past a primary the character before the place is the same. -/
theorem Separated.primary (hseparated : Separated base base' rules) (hs : Alike base base' s s')
    (ht : Alike base base' t t') {x : Term} (hrun : rules .primary s = .done x t) :
    t'.cursor.previous?.any isBlank = t.cursor.previous?.any isBlank := by
  rcases hseparated with hbase | ⟨-, hpass⟩
  · exact ht.place.previous_of_alike hbase
  · exact congrArg _ (hs.place.previous_of_passes ht.place (hpass s x t hrun))

/-- Past an operand the character before the place is the same. -/
theorem Separated.operand (hseparated : Separated base base' rules) (hs : Alike base base' s s')
    (ht : Alike base base' t t') {n : Node} (hrun : rules .operand s = .done (some n) t) :
    t'.cursor.previous?.any isBlank = t.cursor.previous?.any isBlank := by
  rcases hseparated with hbase | ⟨hpass, -⟩
  · exact ht.place.previous_of_alike hbase
  · exact congrArg _ (hs.place.previous_of_passes ht.place (hpass s n t hrun))

theorem primaryOperand_matches (h : Follow base base' rules rules')
    (hseparated : Separated base base' rules) (hs : Alike base base' s s') :
    Matches base base' (primaryOperand g rules s) (primaryOperand g rules' s') := by
  refine matches_bind (h .primary _ _ hs) fun x t t' hrun ht => ?_
  cases x with
  | pair key value => exact ofTerm_matches h _ ht
  | node n =>
    apply matches_bind (joinName_matches g.letters n ht (hseparated.primary hs ht hrun))
    exact fun m _ _ _ hu => ofTerm_matches h (.node m) hu

theorem leadingOperator_matches (h : Follow base base' rules rules')
    (hs : Alike base base' s s') :
    Matches base base' (leadingOperator g rules s) (leadingOperator g rules' s') := by
  unfold leadingOperator
  rw [bind_here_apply, bind_here_apply, hs.place.1]
  cases g.operators.unaryAt? (s.cursor.ahead.take g.operators.longestUnary) with
  | none => exact matches_done hs none
  | some operator =>
    simp only [bind_advance_apply]
    apply matches_bind (applyUnary_matches h operator (hs.advance operator.length))
    exact fun _ _ _ _ ht => matches_done ht _

theorem operand_matches (h : Follow base base' rules rules')
    (hseparated : Separated base base' rules) (hs : Alike base base' s s') :
    Matches base base' (operand g rules s) (operand g rules' s') := by
  unfold operand
  simp only [bind_skipBlanks_apply, bind_peek_apply]
  have hs' := hs.skipBlanks
  rw [hs'.place.peek?]
  have hsome : ∀ {p p' : Parse Node} {u u' : State}, Matches base base' (p u) (p' u') →
      Matches base base' ((do return some (← p) : Parse (Option Node)) u)
        ((do return some (← p') : Parse (Option Node)) u') :=
    fun hp => matches_bind hp fun _ _ _ _ ht => matches_done ht _
  cases s.cursor.skipBlanks.peek? with
  | none => exact matches_done hs' none
  | some c =>
    refine matches_ite (fun _ => hsome (numeralOperand_matches h c hs')) fun _ => ?_
    refine matches_ite (fun _ => hsome (joinableText_matches g.letters hs')) fun _ => ?_
    refine matches_ite (fun _ => ?_) fun _ => ?_
    · exact matches_bind (quotation_matches hs') fun _ _ _ _ ht => matches_done ht _
    refine matches_ite (fun _ => hsome (primaryOperand_matches h hseparated hs')) fun _ => ?_
    refine matches_ite (fun _ => ?_) fun _ => leadingOperator_matches h hs'
    simp only [bind_advance_apply]
    exact matches_bind (h (.items .square) _ _ (hs'.advance 1)) fun _ _ _ _ ht =>
      matches_done ht _

theorem binaryOperator_matches (g : Grammar) (hs : Alike base base' s s') :
    Matches base base' (binaryOperator g s) (binaryOperator g s') := by
  unfold binaryOperator
  simp only [bind_skipBlanks_apply, bind_here_apply, hs.place.skipBlanks.1]
  cases g.operators.binaryAt?
      (s.cursor.skipBlanks.ahead.take g.operators.longestBinary) with
  | none => exact matches_done hs.skipBlanks none
  | some o => exact matches_done (hs.skipBlanks.advance o.1.length) (some o)

theorem chain_matches (h : Follow base base' rules rules') (stack : OperatorStack)
    (hs : Alike base base' s s') :
    Matches base base' (chain g rules stack s) (chain g rules' stack s') := by
  refine matches_bind (binaryOperator_matches g hs) fun o t t' _ ht => ?_
  cases o with
  | none => exact matches_done ht _
  | some o =>
    refine matches_ite (fun _ => matches_done ht _) fun _ => ?_
    refine matches_bind (matches_require _ (h .operand _ _ ht)) fun right u u' _ hu => ?_
    exact h (.chain _) _ _ hu

theorem splitGlued_matches (h : Follow base base' rules rules') {c c' : Cursor} (left : Node)
    (hc : SamePlace base base' c c') (hs : Alike base base' s s') :
    Matches base base' (splitGlued rules c left s) (splitGlued rules' c' left s') := by
  unfold splitGlued
  cases gluedTest? (left.name?.getD "").toList with
  | none => exact matches_done hs left
  | some test =>
    refine matches_bind ?_ fun follows t t' _ ht => ?_
    · refine matches_ite (fun _ => ?_) fun _ => matches_done hs true
      exact matches_bind (matches_lookAhead hs (h .expression _ _ hs)) fun _ _ _ _ ht =>
        matches_done ht _
    · refine matches_ite (fun _ => ?_) fun _ => matches_done ht left
      exact matches_done (ht.move (hc.advance test.length)) _

theorem binary_matches (h : Follow base base' rules rules')
    (hseparated : Separated base base' rules) (hs : Alike base base' s s') :
    Matches base base' (binary g rules s) (binary g rules' s') := by
  unfold binary
  simp only [bind_skipBlanks_apply, bind_here_apply]
  refine matches_bind (h .operand _ _ hs.skipBlanks) fun a t t' hrun ht => ?_
  cases a with
  | none => exact matches_done ht none
  | some left =>
    simp only [bind_here_apply, hseparated.operand hs.skipBlanks ht hrun]
    refine matches_bind (binaryOperator_matches g ht) fun o u u' _ hu => ?_
    cases o with
    | none =>
      exact matches_bind (splitGlued_matches h left hs.skipBlanks.place hu) fun _ _ _ _ hv =>
        matches_done hv _
    | some o =>
      simp only [bind_peek_apply, hu.place.peek?]
      refine matches_ite (fun _ => ?_) fun _ => ?_
      · exact matches_bind (name_matches g.letters hu) fun _ _ _ _ hv => matches_done hv _
      · refine matches_bind (matches_require _ (h .operand _ _ hu)) fun right v v' _ hv => ?_
        exact h (.chain _) _ _ hv

theorem expression_matches (h : Follow base base' rules rules')
    (hseparated : Separated base base' rules) (hs : Alike base base' s s') :
    Matches base base' (expression g rules s) (expression g rules' s') := by
  refine matches_bind (binary_matches h hseparated hs) fun a t t' _ ht => ?_
  cases a with
  | none => exact matches_done ht none
  | some test =>
    simp only [bind_skipBlanks_apply]
    refine matches_bind (matches_eat ht.skipBlanks '?') fun b u u' _ hu => ?_
    refine matches_ite (fun _ => ?_) fun _ => matches_done hu _
    simp only [bind_setInBranch_apply]
    apply matches_bind (matches_require _ (h .expression _ _ (hu.setInBranch true)))
    intro consequent v v' _ hv
    simp only [bind_skipBlanks_apply]
    refine matches_bind (matches_expect hv.skipBlanks ':' _) fun _ w w' _ hw => ?_
    refine matches_bind (matches_require _ (h .expression _ _ hw)) fun alternate x x' _ hx => ?_
    exact matches_done (hx.setInBranch false) _

theorem statements_matches (h : Follow base base' rules rules') (hs : Alike base base' s s') :
    Matches base base' (statements rules s) (statements rules' s') := by
  unfold statements
  rw [bind_peek_apply, bind_peek_apply, hs.place.peek?]
  cases s.cursor.peek? with
  | none => exact matches_done hs _
  | some c =>
    refine matches_ite (fun _ => h .statements _ _ (hs.advance 1)) fun _ => ?_
    refine matches_bind (h .expression _ _ hs) fun a t t' _ ht => ?_
    cases a with
    | some n =>
      exact matches_bind (h .statements _ _ ht) fun _ _ _ _ hu => matches_done hu _
    | none =>
      simp only [bind_peek_apply, ht.place.peek?]
      cases t.cursor.peek? with
      | none => exact matches_done ht _
      | some c => exact matches_failed ht.place _

theorem round_follow (h : Follow base base' rules rules')
    (hseparated : Separated base base' rules) :
    Follow base base' (fun r => round g rules r) (fun r => round g rules' r)
  | .expression, _, _, hs => expression_matches h hseparated hs
  | .operand, _, _, hs => operand_matches h hseparated hs
  | .primary, _, _, hs => primary_matches h hs
  | .links head, _, _, hs => links_matches h head hs
  | .items bracket, _, _, hs => items_matches h bracket hs
  | .chain stack, _, _, hs => chain_matches h stack hs
  | .pairs keys, _, _, hs => pairs_matches h keys hs
  | .statements, _, _, hs => statements_matches h hs

end

/-- The rules with more rounds and another beginning follow those with fewer rounds. -/
theorem run_follow {base base' : List Char} {g : Grammar}
    (hseparated : ∀ n, Separated base base' (run g n)) {m n : Nat} (hmn : m ≤ n) :
    Follow base base' (run g m) (run g n) := by
  induction m generalizing n with
  | zero => exact fun _ _ _ _ => trivial
  | succ m ih =>
    obtain ⟨n, rfl⟩ := Nat.exists_eq_add_of_le' (Nat.zero_lt_of_lt hmn)
    exact round_follow (ih (Nat.le_of_succ_le_succ hmn)) (hseparated m)

theorem alike_refl (s : State) : Alike [] [] s s :=
  ⟨⟨rfl, s.cursor.passed, by simp, by simp⟩, rfl⟩

theorem eq_of_alike {s s' : State} (h : Alike [] [] s s') : s' = s := by
  obtain ⟨⟨hahead, p, hp, hp'⟩, hbranch⟩ := h
  obtain ⟨⟨passed, ahead⟩, branch⟩ := s
  obtain ⟨⟨passed', ahead'⟩, branch'⟩ := s'
  simp only [List.append_nil] at hp hp' hahead hbranch
  rw [hp, hp', hahead, hbranch]

theorem matches_refl {α : Type} (o : Outcome α) : Matches [] [] o o := by
  cases o with
  | done a s => exact ⟨rfl, alike_refl s⟩
  | failed e => exact ⟨rfl, rfl⟩
  | unfinished => trivial

theorem eq_of_matches {α : Type} {o o' : Outcome α} (h : Matches [] [] o o')
    (ho : o ≠ .unfinished) : o' = o := by
  cases o with
  | unfinished => exact absurd rfl ho
  | done a t =>
    cases o' with
    | done a' t' => rw [h.1, eq_of_alike h.2]
    | failed e => exact h.elim
    | unfinished => exact h.elim
  | failed e =>
    cases o' with
    | done a t => exact h.elim
    | failed e' =>
      obtain ⟨hcause, hindex⟩ := h
      cases e
      cases e'
      simp only [List.length_nil, Nat.add_zero] at hcause hindex
      rw [hcause, hindex]
    | unfinished => exact h.elim

/-- What the rules come to in a number of rounds, they come to in more. -/
theorem run_of_le {g : Grammar} {m n : Nat} (hmn : m ≤ n) {r : Rule} {s : State}
    (h : run g m r s ≠ .unfinished) : run g n r s = run g m r s :=
  eq_of_matches (run_follow (fun _ => .inl rfl) hmn r s s (alike_refl s)) h

end ExprTree.Lockstep
