import ExprTree.Proofs.Boundaries
import ExprTree.Proofs.BranchMark
import ExprTree.Proofs.Calls

/-!
When an expression is read for ever, in any grammar. An expression that is found passes a character
or is the empty name, and the expressions in it begin further on. So a rule that is still unfinished
after the rounds that it needs has a list in it that is jammed: it finds the empty name, does not
get past it, and finds it again. Nothing else keeps an expression from coming to an end.
-/

namespace ExprTree

open Cursor

theorem Cursor.Reaches.index_le {c d : Cursor} (h : c.Reaches d) : c.index ≤ d.index := by
  have hadd := h.index_add
  have hle := h.length_le
  omega

namespace Rule

theorem inner_of_rank {r : Rule} (hr : r.rank < 4) : r.Inner := by
  cases r with
  | statements => exact absurd hr (by decide)
  | _ => trivial

end Rule

namespace Forward

open Parse

variable {rules : Rules} {r r' : Rule} {s u : State}

/-- No call is made in front of the place where the rule begins to read. -/
theorem Onward.index_le (h : Onward rules r s r' u) :
    (r.place s.cursor).index ≤ u.cursor.index := by
  cases h with
  | passes _ hpass => exact hpass.index_lt.le
  | lower _ hreach => exact hreach.index_le
  | again hstill => rw [hstill.2.2, Rule.place]

/-- A rule that is no list calls rules of lower rank, or goes past the place where it begins. -/
theorem Onward.index_lt (h : Onward rules r s r' u) (hr : r.rank < 4) (hr' : r.rank ≤ r'.rank) :
    (r.place s.cursor).index < u.cursor.index := by
  cases h with
  | passes _ hpass => exact hpass.index_lt
  | lower _ _ hrank => omega
  | again => exact absurd hr (by simp [Rule.rank])

end Forward

namespace Endless

open Parse Outcome Progress Forward Calls

/-- A list is where neither its closing bracket nor a comma is, and the expression that it finds
there is the empty name, which passes nothing. -/
def Jammed (g : Grammar) (b : Bracket) (u : State) : Prop :=
  (∃ c, u.cursor.peek? = some c ∧ c ≠ b.closing ∧ c ≠ ',') ∧
    ∃ n, run g n .expression u = .done (some (.plain "")) u

section

variable {g : Grammar} {r r' : Rule} {s t u : State} {b : Bracket} {n : Nat}

/-- All calls in a run are made where the rule begins to read, or further on. -/
theorem index_le_of_nested (h : Nested g n r s r' u) (hr : r.Inner) :
    (r.place s.cursor).index ≤ u.cursor.index := by
  induction h with
  | call hmakes => exact (onward_of_makes hmakes hr).index_le
  | @deeper n r r' r'' s u v hmakes _ ih =>
    have honward := onward_of_makes hmakes hr
    calc (r.place s.cursor).index
        ≤ u.cursor.index := honward.index_le
      _ ≤ (r'.place u.cursor).index := (r'.reaches_place u.cursor).index_le
      _ ≤ v.cursor.index := ih honward.inner

/-- The expressions in what is no list begin past the place where that begins. -/
theorem index_lt_of_nested (h : Nested g n r s r' u) (hr : r.rank < 4) (hr' : r' = .expression) :
    (r.place s.cursor).index < u.cursor.index := by
  induction h with
  | call hmakes =>
    subst hr'
    exact (onward_of_makes hmakes (Rule.inner_of_rank hr)).index_lt hr (Nat.le_of_lt_succ hr)
  | @deeper n r r' r'' s u v hmakes hnested ih =>
    have honward := onward_of_makes hmakes (Rule.inner_of_rank hr)
    have hplace := (r'.reaches_place u.cursor).index_le
    have hle := index_le_of_nested hnested honward.inner
    rcases Nat.lt_or_ge r'.rank r.rank with hrank | hrank
    · have hlt := ih (hrank.trans hr) hr'
      exact (honward.index_le.trans hplace).trans_lt hlt
    · exact (honward.index_lt hr hrank).trans_le (hplace.trans hle)

/-- Also the mark for branches is the same afterwards, so the list finds what it found before. -/
theorem jammed_of_standsStill
    (h : StandsStill (run g n) b { s with cursor := s.cursor.skipBlanks } u) : Jammed g b u := by
  obtain ⟨hnext, hdone, hcursor⟩ := h
  have hmarks : BranchMark.Marks [] [.plain ""] s.inBranch u.inBranch :=
    BranchMark.leaves_run g n hdone
  have hu : u = { s with cursor := s.cursor.skipBlanks } := by
    obtain ⟨c, inBranch⟩ := u
    exact congrArg₂ State.mk hcursor (hmarks.eq_of_straight (BranchMark.straight_plain ""))
  subst hu
  exact ⟨hnext, n, hdone⟩

/-- An expression that ends where it began was in front of no blank. -/
theorem Jammed.skipBlanks_eq (h : Jammed g b u) : u.cursor.skipBlanks = u.cursor := by
  obtain ⟨-, n, hdone⟩ := h
  obtain ⟨-, hsome⟩ := gets_run g n hdone
  rcases hsome _ rfl with hpass | ⟨-, heq⟩
  · exact absurd hpass.2 (not_lt.mpr u.cursor.reaches_skipBlanks.length_le)
  · exact heq.symm

theorem Jammed.expression_eq (h : Jammed g b u) (m : Nat) :
    run g m .expression u = .unfinished ∨
      run g m .expression u = .done (some (.plain "")) u := by
  obtain ⟨-, n, hdone⟩ := h
  refine or_iff_not_imp_left.mpr fun hm => ?_
  calc run g m .expression u
      = run g (max m n) .expression u := (extends_run (Nat.le_max_left m n) _ u hm).symm
    _ = run g n .expression u := extends_run (Nat.le_max_right m n) _ u (by simp [hdone])
    _ = .done (some (.plain "")) u := hdone

/-- A jammed list is never left. -/
theorem Jammed.unfinished (h : Jammed g b u) (m : Nat) : run g m (.items b) u = .unfinished := by
  induction m with
  | zero => rfl
  | succ m ih =>
    obtain ⟨c, hc, hclosing, hcomma⟩ := h.1
    change items (run g m) b u = .unfinished
    unfold items
    rw [bind_skipBlanks_apply, h.skipBlanks_eq, bind_peek_apply, hc]
    simp only [hclosing, hcomma, if_false]
    rcases h.expression_eq m with hm | hm
    · exact bind_of_unfinished hm _
    · rw [bind_of_done hm]
      exact bind_of_unfinished ih _

/-- A rule that is unfinished with all the rounds that it needs has a jammed list in it: any other
call leaves fewer rounds to be needed. -/
theorem exists_jammed (hr : r.Inner) (hn : r.need s ≤ n)
    (h : run g n r s = .unfinished) : ∃ b u, Nested g n r s (.items b) u ∧ Jammed g b u := by
  induction n generalizing r s with
  | zero =>
    have hrank := r.rank_le.1
    rw [Rule.need] at hn
    omega
  | succ n ih =>
    obtain ⟨r', u, hmakes, hu⟩ := exists_makes h
    have honward := onward_of_makes hmakes hr
    rcases honward.need_lt with hneed | ⟨b, rfl, rfl, hstill⟩
    · obtain ⟨b, v, hnested, hjammed⟩ := ih honward.inner (by omega) hu
      exact ⟨b, v, .deeper hmakes hnested, hjammed⟩
    · exact ⟨b, u, .call hmakes, jammed_of_standsStill hstill⟩

/-- An expression goes on for ever exactly if a list in it is jammed. -/
theorem endless_iff_jammed :
    (∀ n, run g n .expression s = .unfinished) ↔
      ∃ n b u, Nested g n .expression s (.items b) u ∧ Jammed g b u := by
  constructor
  · exact fun h => ⟨_, exists_jammed trivial (Nat.le_refl _) (h (Rule.expression.need s))⟩
  · rintro ⟨n, b, u, hnested, hjammed⟩
    exact unfinished_of_nested hnested hjammed.unfinished

/-- More rounds than an expression needs do not help it. -/
theorem ends_iff_need :
    (∃ n, run g n .expression s ≠ .unfinished) ↔
      run g (Rule.expression.need s) .expression s ≠ .unfinished := by
  refine ⟨?_, fun h => ⟨_, h⟩⟩
  rintro ⟨n, hn⟩ hneed
  have hr : Rule.expression.Inner := trivial
  obtain ⟨b, u, hnested, hjammed⟩ := exists_jammed hr (Nat.le_refl _) hneed
  exact hn (unfinished_of_nested hnested hjammed.unfinished n)

/-- What an expression comes to ends no earlier than it begins, and at that place only if it is the
empty name. -/
theorem index_of_done {a : Option Node} (h : run g n .expression s = .done a t) :
    s.cursor.skipBlanks.index ≤ t.cursor.index ∧
      ∀ m ∈ a, t.cursor.index = s.cursor.skipBlanks.index → m = .plain "" := by
  obtain ⟨hreach, hsome⟩ := gets_run g n h
  refine ⟨hreach.index_le, fun m hm heq => ?_⟩
  rcases hsome m hm with hpass | ⟨hm, -⟩
  · exact absurd heq hpass.index_lt.ne'
  · exact hm

end

/-- Whether `?` is a character of names or not, an expression ends at the place where it begins or
further on, and there only if it is the empty name; the expressions in it begin past that place. It
comes to an end within the rounds that its place in the text gives it, unless a list in it is
jammed; then it never does. -/
theorem expression_progress (g : Grammar) (s : State) :
    (∀ n a t, run g n .expression s = .done a t →
      s.cursor.skipBlanks.index ≤ t.cursor.index ∧
        ∀ m ∈ a, t.cursor.index = s.cursor.skipBlanks.index → m = .plain "") ∧
    (∀ n u, Nested g n .expression s .expression u →
      s.cursor.skipBlanks.index < u.cursor.index) ∧
    ((∃ n, run g n .expression s ≠ .unfinished) ↔
      run g (Rule.expression.need s) .expression s ≠ .unfinished) ∧
    ((∀ n, run g n .expression s = .unfinished) ↔
      ∃ n b u, Nested g n .expression s (.items b) u ∧ Jammed g b u) :=
  ⟨fun _ _ _ => index_of_done, fun _ _ h => index_lt_of_nested h (by decide) rfl, ends_iff_need,
    endless_iff_jammed⟩

/-- In the array the name `?b:` is cut to nothing in front of its parenthesis, so the list finds
the group again and again. -/
theorem expression_progress_group_in_array :
    let g := Grammar.standard.addLetters "?:"
    ∀ n, run g n .expression (.start "[(?b:) c]") = .unfinished := by
  intro g n
  have hneed : run g (Rule.expression.need (.start "[(?b:) c]")) .expression
      (.start "[(?b:) c]") = .unfinished := by decide +kernel
  by_contra hn
  exact (expression_progress g _).2.2.1.mp ⟨n, hn⟩ hneed

end Endless

end ExprTree
