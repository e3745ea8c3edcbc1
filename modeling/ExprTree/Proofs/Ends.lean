import ExprTree.Parse.Source

/-!
How a step of a parse ends: done with a value and state that satisfy one condition, failed with an
error that satisfies another, or unfinished only if a third holds. For each basic step and each
way of joining steps a lemma says what its ending means, so that a rule is read off its text; see
`ends_bind`.
-/

namespace ExprTree

namespace Outcome

variable {α : Type} {o : Outcome α} {Q Q' : α → State → Prop} {E E' : ParseError → Prop}
  {U U' : Prop}

/-- The outcome is done as `Q` says, failed as `E` says, and unfinished only if `U`. -/
def Ends (o : Outcome α) (Q : α → State → Prop) (E : ParseError → Prop) (U : Prop) : Prop :=
  match o with
  | .done a t => Q a t
  | .failed e => E e
  | .unfinished => U

theorem Ends.mono (h : o.Ends Q E U) (hQ : ∀ a t, Q a t → Q' a t) (hE : ∀ e, E e → E' e)
    (hU : U → U') : o.Ends Q' E' U' := by
  cases o with
  | done a t => exact hQ a t h
  | failed e => exact hE e h
  | unfinished => exact hU h

theorem Ends.imp (h : o.Ends Q E U) (hQ : ∀ a t, Q a t → Q' a t) : o.Ends Q' E U :=
  h.mono hQ (fun _ he => he) id

theorem Ends.of_done {a : α} {t : State} (h : o.Ends Q E U) (ho : o = .done a t) : Q a t := by
  subst ho
  exact h

theorem Ends.of_failed {e : ParseError} (h : o.Ends Q E U) (ho : o = .failed e) : E e := by
  subst ho
  exact h

theorem Ends.of_unfinished (h : o.Ends Q E U) (ho : o = .unfinished) : U := by
  subst ho
  exact h

/-- The value and the state of an outcome that is done. -/
theorem Ends.self (h : o.Ends Q E U) : o.Ends (fun a t => o = .done a t) E U := by
  cases o with
  | done a t => rfl
  | failed e => exact h
  | unfinished => exact h

theorem Ends.ne_unfinished (h : o.Ends Q E U) (hU : ¬ U) : o ≠ .unfinished := by
  rintro rfl
  exact hU h

end Outcome

namespace Parse

open Outcome

variable {α β : Type} {s : State} {Q : α → State → Prop} {E : ParseError → Prop} {U : Prop}

@[simp] theorem ends_pure (a : α) : ((Pure.pure a : Parse α) s).Ends Q E U ↔ Q a s := Iff.rfl

@[simp] theorem ends_bind {p : Parse β} {f : β → Parse α} :
    ((p >>= f) s).Ends Q E U ↔ (p s).Ends (fun b t => (f b t).Ends Q E U) E U := by
  change (bind p f s).Ends Q E U ↔ _
  unfold bind
  cases p s <;> rfl

@[simp] theorem ends_ite {c : Prop} [Decidable c] {p q : Parse α} :
    ((if c then p else q) s).Ends Q E U ↔ if c then (p s).Ends Q E U else (q s).Ends Q E U := by
  by_cases h : c <;> simp [h]

@[simp] theorem ends_failAt (index : Nat) (cause : Cause) :
    ((failAt index cause : Parse α) s).Ends Q E U ↔ E ⟨cause, index⟩ := Iff.rfl

@[simp] theorem ends_fail (cause : Cause) :
    ((fail cause : Parse α) s).Ends Q E U ↔ E ⟨cause, s.cursor.index⟩ := Iff.rfl

@[simp] theorem ends_here {Q : Cursor → State → Prop} :
    (here s).Ends Q E U ↔ Q s.cursor s := Iff.rfl

@[simp] theorem ends_moveTo {Q : Unit → State → Prop} (c : Cursor) :
    (moveTo c s).Ends Q E U ↔ Q () { s with cursor := c } := Iff.rfl

@[simp] theorem ends_inBranch {Q : Bool → State → Prop} :
    (inBranch s).Ends Q E U ↔ Q s.inBranch s := Iff.rfl

@[simp] theorem ends_setInBranch {Q : Unit → State → Prop} (b : Bool) :
    (setInBranch b s).Ends Q E U ↔ Q () { s with inBranch := b } := Iff.rfl

@[simp] theorem ends_peek {Q : Option Char → State → Prop} :
    (peek s).Ends Q E U ↔ Q s.cursor.peek? s := Iff.rfl

@[simp] theorem ends_advance {Q : Unit → State → Prop} (n : Nat) :
    (advance n s).Ends Q E U ↔ Q () { s with cursor := s.cursor.advance n } := Iff.rfl

@[simp] theorem ends_skipBlanks {Q : Unit → State → Prop} :
    (skipBlanks s).Ends Q E U ↔ Q () { s with cursor := s.cursor.skipBlanks } := Iff.rfl

@[simp] theorem ends_eat {Q : Bool → State → Prop} (c : Char) :
    (eat c s).Ends Q E U ↔
      if s.cursor.peek? = some c then Q true { s with cursor := s.cursor.advance 1 }
      else Q false s := by
  unfold eat
  split <;> rfl

@[simp] theorem ends_expect {Q : Unit → State → Prop} (c : Char) (cause : Cause) :
    (expect c cause s).Ends Q E U ↔
      if s.cursor.peek? = some c then Q () { s with cursor := s.cursor.advance 1 }
      else E ⟨cause, s.cursor.index⟩ := by
  unfold expect
  rw [ends_bind, ends_eat]
  split <;> simp

@[simp] theorem ends_takeWhile {Q : List Char → State → Prop} (p : Char → Bool) :
    (takeWhile p s).Ends Q E U ↔
      Q (s.cursor.ahead.takeWhile p)
        { s with cursor := s.cursor.advance (s.cursor.ahead.takeWhile p).length } := Iff.rfl

@[simp] theorem ends_require {p : Parse (Option α)} (cause : Cause) :
    (require cause p s).Ends Q E U ↔
      (p s).Ends (fun a t => match a with
        | some a => Q a t
        | none => E ⟨cause, t.cursor.index⟩) E U := by
  unfold require
  rw [ends_bind]
  cases p s with
  | done a t => cases a <;> rfl
  | failed e => rfl
  | unfinished => rfl

@[simp] theorem ends_lookAhead {p : Parse β} {Q : Option β → State → Prop} :
    (lookAhead p s).Ends Q E U ↔ (p s).Ends (fun b _ => Q (some b) s) (fun _ => Q none s) U := by
  unfold lookAhead
  cases p s <;> rfl

@[simp] theorem ends_recover {p q : Parse α} :
    (recover p q s).Ends Q E U ↔ (p s).Ends Q (fun _ => (q s).Ends Q E U) U := by
  unfold recover
  cases p s <;> rfl

/-- A source with a tree is one whose statements are read to the end. -/
theorem exists_statements_of_parse {g : Grammar} {source : String} {n : Node}
    (h : g.parse source = .ok n) : ∃ ns t,
      run g (Grammar.rounds source) .statements (.start source) = .done ns t ∧
        n = .ofStatements ns := by
  rw [Grammar.parse, Grammar.parseWithin] at h
  split at h
  · rename_i ns t hdone
    exact ⟨ns, t, hdone, (Except.ok.inj h).symm⟩
  · cases h
  · cases h

end Parse

end ExprTree
