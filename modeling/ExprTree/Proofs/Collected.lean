import ExprTree.Proofs.Lockstep
import ExprTree.Proofs.Origins
import ExprTree.Proofs.Precedence

/-!
What a binary expression gives. `Collects` says which operators with their operands stand after a
place, and where the reading of them stops; whenever a binary expression is done, it was with the
tree of all that it collected.
-/

namespace ExprTree.Collected

open Parse Precedence

/-- A rule is done with a value, in some number of rounds. -/
def Gives (g : Grammar) (s : State) (r : Rule) (a : r.Answer) (t : State) : Prop :=
  ∃ n, run g n r s = .done a t

/-- The operators of positive precedence from a place on, each with its operand. The last state is
the one in front of no operator, or after an operator of another precedence. -/
inductive Collects (g : Grammar) : State → List Item → State → Prop
  | noOperator {s t : State} : binaryOperator g s = .done none t → Collects g s [] t
  | swallowed {s t : State} {operator : String} {precedence : Int} :
    binaryOperator g s = .done (some (operator, precedence)) t → precedence ≤ 0 →
    Collects g s [] t
  | item {s t u v : State} {i : Item} {items : List Item} :
    binaryOperator g s = .done (some (i.operator, i.precedence)) t → 0 < i.precedence →
    Gives g t .operand (some i.operand) u → Collects g u items v → Collects g s (i :: items) v

variable {g : Grammar}

theorem Gives.of_le {s t : State} {r : Rule} {a : r.Answer} {m n : Nat} (hmn : m ≤ n)
    (h : run g m r s = .done a t) : run g n r s = .done a t := by
  rw [Lockstep.run_of_le hmn (by simp [h]), h]

theorem Gives.unique {s t t' : State} {r : Rule} {a a' : r.Answer} (h : Gives g s r a t)
    (h' : Gives g s r a' t') : a = a' ∧ t = t' := by
  obtain ⟨m, hm⟩ := h
  obtain ⟨n, hn⟩ := h'
  have heq := (of_le (Nat.le_max_left m n) hm).symm.trans (of_le (Nat.le_max_right m n) hn)
  exact ⟨by injection heq, by injection heq⟩

theorem collects_of_chain {n : Nat} {s t : State} {stack : OperatorStack} {r : Option Node}
    (h : run g n (.chain stack) s = .done r t) :
    ∃ items, Collects g s items t ∧ r = (items.foldl feed stack).finish := by
  induction n generalizing s stack with
  | zero => cases h
  | succ n ih =>
    cases (Origins.chain_ends stack s).of_done h with
    | @finish o _ ho hlast =>
      cases o with
      | none => exact ⟨[], .noOperator ho, rfl⟩
      | some o => exact ⟨[], .swallowed ho (hlast o rfl), rfl⟩
    | @operand operator precedence right _ _ _ _ ho hp hright hchain =>
      obtain ⟨items, hitems, rfl⟩ := ih hchain
      exact ⟨⟨operator, precedence, right⟩ :: items, .item ho hp ⟨n, hright⟩ hitems, rfl⟩

theorem chain_of_collects {s t : State} {items : List Item} (h : Collects g s items t)
    (stack : OperatorStack) :
    Gives g s (.chain stack) (items.foldl feed stack).finish t := by
  induction h generalizing stack with
  | noOperator ho => exact ⟨1, bind_of_done ho _⟩
  | swallowed ho hp =>
    refine ⟨1, (bind_of_done ho _).trans ?_⟩
    simp only [hp, if_true]
    rfl
  | @item s u v t i items ho hp hright _ ih =>
    obtain ⟨m, hright⟩ := hright
    obtain ⟨n, hn⟩ := ih (feed stack i)
    refine ⟨max m n + 1, (bind_of_done ho _).trans ?_⟩
    simp only [Int.not_le.mpr hp, if_false]
    rw [bind_of_done (require_of_done_some (Gives.of_le (Nat.le_max_left m n) hright))]
    exact Gives.of_le (Nat.le_max_right m n) hn

section

variable {s t u : State} {left : Node} {operator : String} {precedence : Int}

/-- After two operands the tree of all of them is left, which is the node of an operator. -/
theorem tree_of_chain {n : Nat} {right : Node} {r : Option Node}
    (h : run g n (.chain (.start left operator precedence right)) s = .done r t) :
    ∃ items, Collects g s items t ∧
      r = some (tree left (⟨operator, precedence, right⟩ :: items)) := by
  obtain ⟨items, hitems, rfl⟩ := collects_of_chain h
  exact ⟨items, hitems, finish_foldl_feed left ⟨operator, precedence, right⟩ items⟩

theorem name?_of_chain {n : Nat} {right a : Node}
    (h : run g n (.chain (.start left operator precedence right)) s = .done (some a) t) :
    a.name? = none := by
  obtain ⟨items, -, ha⟩ := tree_of_chain h
  obtain ⟨_, _, _, htree⟩ := tree_cons left ⟨operator, precedence, right⟩ items
  rw [htree] at ha
  cases ha
  exact Node.name?_ofOperator _ _ _

/-- A binary expression after its first operand and its first operator, unless the operator is in
the middle of a word. -/
theorem binary_eq {n : Nat}
    (hleft : run g n .operand { s with cursor := s.cursor.skipBlanks } = .done (some left) t)
    (ho : binaryOperator g t = .done (some (operator, precedence)) u)
    (hword : isInsideWord g left (t.cursor.previous?.any isBlank) operator u.cursor.peek? =
      false) :
    binary g (run g n) s = (do
      let right ← require (.noOperand operator) (run g n .operand)
      run g n (.chain (.start left operator precedence right)) : Parse (Option Node)) u := by
  unfold binary
  rw [bind_skipBlanks_apply, bind_here_apply, bind_of_done hleft]
  simp only [bind_here_apply]
  rw [bind_of_done ho]
  simp only [bind_peek_apply, hword, Bool.false_eq_true, if_false]

theorem binary_gives_iff
    (hleft : Gives g { s with cursor := s.cursor.skipBlanks } .operand (some left) t)
    (ho : binaryOperator g t = .done (some (operator, precedence)) u)
    (hword : isInsideWord g left (t.cursor.previous?.any isBlank) operator u.cursor.peek? =
      false) (r : Option Node) (v : State) :
    (∃ n, binary g (run g n) s = .done r v) ↔
      ∃ right w items, Gives g u .operand (some right) w ∧ Collects g w items v ∧
        r = some (tree left (⟨operator, precedence, right⟩ :: items)) := by
  constructor
  · rintro ⟨n, h⟩
    have hoperand := h
    unfold binary at hoperand
    rw [bind_skipBlanks_apply, bind_here_apply] at hoperand
    obtain ⟨a, t', hleft', -⟩ := bind_eq_done.mp hoperand
    obtain ⟨rfl, rfl⟩ := Gives.unique ⟨n, hleft'⟩ hleft
    rw [binary_eq hleft' ho hword] at h
    obtain ⟨right, w, hright, h⟩ := bind_eq_done.mp h
    obtain ⟨items, hitems, rfl⟩ := tree_of_chain h
    exact ⟨right, w, items, ⟨n, require_eq_done.mp hright⟩, hitems, rfl⟩
  · rintro ⟨right, w, items, ⟨m, hright⟩, hitems, rfl⟩
    obtain ⟨k, hleft⟩ := hleft
    obtain ⟨n, hn⟩ := chain_of_collects hitems (.start left operator precedence right)
    refine ⟨max k (max m n), ?_⟩
    rw [binary_eq (Gives.of_le (by omega) hleft) ho hword,
      bind_of_done (require_of_done_some (Gives.of_le (by omega) hright)),
      Gives.of_le (by omega) hn]
    exact congrArg (Outcome.done · v)
      (finish_foldl_feed left ⟨operator, precedence, right⟩ items)

end

/-- The stack gives the tree of any operators and operands it is fed. On the way it holds one more
operand than operators, also after each combination, and the precedences on it increase. So a
binary expression is done exactly if operands and operators can be collected, and then with their
tree, if its first operator is not in the middle of a word. -/
theorem tree_of_collected :
    (∀ (first : Node) (i : Item) (items : List Item),
      (items.foldl feed (.start first i.operator i.precedence i.operand)).finish =
        some (tree first (i :: items)) ∧
      ∀ fed rest, items = fed ++ rest →
        let s := fed.foldl feed (.start first i.operator i.precedence i.operand)
        Increasing s ∧ s.Whole ∧
          ∀ k, OperatorStack.Whole ((s.operators.take k).foldl (fun s _ => s.reduce) s)) ∧
    ∀ (g : Grammar) (s t u : State) (left : Node) (operator : String) (precedence : Int),
      Gives g { s with cursor := s.cursor.skipBlanks } .operand (some left) t →
      binaryOperator g t = .done (some (operator, precedence)) u →
      isInsideWord g left (t.cursor.previous?.any isBlank) operator u.cursor.peek? = false →
      ∀ r v, (∃ n, binary g (run g n) s = .done r v) ↔
        ∃ right w items, Gives g u .operand (some right) w ∧ Collects g w items v ∧
          r = some (tree left (⟨operator, precedence, right⟩ :: items)) := by
  refine ⟨fun first i items => ⟨finish_foldl_feed first i items, ?_⟩, ?_⟩
  · intro fed rest _
    have hholds := holds_foldl_feed (holds_start first i) fed
    exact ⟨hholds.increasing, hholds.whole, hholds.whole.foldl_take⟩
  · intro g s t u left operator precedence hleft ho hword r v
    exact binary_gives_iff hleft ho hword r v

theorem tree_of_collected_sum_product :
    ∃ n, binary .standard (run .standard n) (.start "a + b * c") =
      .done (some (tree (.plain "a") [⟨"+", 9, .plain "b"⟩, ⟨"*", 10, .plain "c"⟩]))
        ⟨⟨"c * b + a".toList, []⟩, false⟩ := by
  have htree := tree_of_collected.2 .standard (.start "a + b * c")
    ⟨⟨" a".toList, "+ b * c".toList⟩, false⟩ ⟨⟨"+ a".toList, " b * c".toList⟩, false⟩
    (.plain "a") "+" 9 ⟨4, by rfl⟩ (by rfl) (by rfl)
  refine (htree _ _).mpr ⟨.plain "b", ⟨⟨" b + a".toList, "* c".toList⟩, false⟩,
    [⟨"*", 10, .plain "c"⟩], ⟨4, by rfl⟩, ?_, rfl⟩
  exact .item (t := ⟨⟨"* b + a".toList, " c".toList⟩, false⟩) (by rfl) (by decide) ⟨4, by rfl⟩
    (.noOperator (by rfl))

end ExprTree.Collected
