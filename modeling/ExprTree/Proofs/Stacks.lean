import ExprTree.Parse.Stack

/-!
Stacks with one operand more than operators. Combining keeps them so, and never drops an operand;
at the end a single operand is left. `Carried` says that a condition on stacks is kept when two
operands are combined, and then it is kept by the combining for a new operator and up to the end.
-/

namespace ExprTree.OperatorStack

/-- One operand more than operators. -/
def Whole (s : OperatorStack) : Prop :=
  s.operands.length = s.operators.length + 1

/-- A condition that is kept when the last two operands are combined. -/
def Carried (p : OperatorStack → Prop) : Prop :=
  ∀ right left operands operator precedence operators,
    p ⟨right :: left :: operands, (operator, precedence) :: operators⟩ →
      p ⟨.ofOperator operator left right :: operands, operators⟩

section

variable {p : OperatorStack → Prop} {s : OperatorStack}

theorem whole_start (left : Node) (operator : String) (precedence : Int) (right : Node) :
    (start left operator precedence right).Whole := rfl

theorem whole_push (hs : s.Whole) (operator : String) (precedence : Int) (operand : Node) :
    (s.push operator precedence operand).Whole :=
  congrArg (· + 1) hs

theorem Carried.reduce (hp : Carried p) (hs : s.Whole) (hne : s.operators ≠ []) (h : p s) :
    s.reduce.Whole ∧ p s.reduce ∧ s.reduce.operators.length + 1 = s.operators.length := by
  obtain ⟨operands, operators⟩ := s
  match operands, operators with
  | right :: left :: operands, (operator, precedence) :: operators =>
    refine ⟨?_, hp right left operands operator precedence operators h, rfl⟩
    simp only [Whole, List.length_cons] at hs
    simp only [Whole, OperatorStack.reduce, List.length_cons]
    omega
  | _, [] => exact absurd rfl hne
  | [], _ :: _ => simp [Whole] at hs
  | [_], _ :: _ => simp [Whole] at hs

/-- Combining as often as there are operators in a list, which are not more than on the stack. -/
theorem Carried.foldl (hp : Carried p) (hs : s.Whole) (h : p s) {operators : List (String × Int)}
    (hle : operators.length ≤ s.operators.length) :
    (operators.foldl (fun s _ => s.reduce) s).Whole ∧
      p (operators.foldl (fun s _ => s.reduce) s) ∧
      (operators.foldl (fun s _ => s.reduce) s).operators.length + operators.length =
        s.operators.length := by
  induction operators generalizing s with
  | nil => exact ⟨hs, h, rfl⟩
  | cons o operators ih =>
    rw [List.length_cons] at hle
    have hne : s.operators ≠ [] := List.length_pos_iff.mp (by omega)
    obtain ⟨hwhole, hreduced, hlength⟩ := hp.reduce hs hne h
    obtain ⟨hend, hkept, hrest⟩ := ih hwhole hreduced (by omega)
    refine ⟨hend, hkept, ?_⟩
    rw [List.foldl_cons, List.length_cons]
    omega

/-- A stack stays whole after each combination in `reduceFor` and in `finish`. -/
theorem Whole.foldl_take (hs : s.Whole) (k : Nat) :
    ((s.operators.take k).foldl (fun s _ => s.reduce) s).Whole := by
  have htrivial : Carried fun _ => True := fun _ _ _ _ _ _ _ => trivial
  exact (htrivial.foldl hs trivial (List.length_take_le' k s.operators)).1

theorem Carried.reduceFor (hp : Carried p) (hs : s.Whole) (h : p s) (precedence : Int) :
    (s.reduceFor precedence).Whole ∧ p (s.reduceFor precedence) := by
  obtain ⟨hwhole, hkept, -⟩ := hp.foldl hs h (List.takeWhile_sublist _).length_le
  exact ⟨hwhole, hkept⟩

/-- At the end one operand is left, and no operator. -/
theorem Carried.finish (hp : Carried p) (hs : s.Whole) (h : p s) :
    ∃ n, s.finish = some n ∧ p ⟨[n], []⟩ := by
  obtain ⟨hwhole, hkept, hlength⟩ := hp.foldl hs h (Nat.le_refl _)
  rw [OperatorStack.finish]
  generalize s.operators.foldl (fun s _ => s.reduce) s = last at *
  obtain ⟨operands, operators⟩ := last
  have hnone : operators = [] := List.length_eq_zero_iff.mp (by simp only at hlength; omega)
  subst hnone
  obtain ⟨n, rfl⟩ := List.length_eq_one_iff.mp hwhole
  exact ⟨n, rfl, hkept⟩

end

end ExprTree.OperatorStack
