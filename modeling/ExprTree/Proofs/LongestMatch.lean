import ExprTree.Grammar.Operators

/-!
Which operator a text begins with. A match is a beginning that is registered while no longer one
within reach is; it is never empty. What no registered operator begins like has no match.
-/

namespace ExprTree

/-- The longest accepted beginning: it is accepted, and no longer one within reach is. -/
theorem longestBeginning_eq_some_iff {accept : String → Bool} {n : Nat} {text : List Char}
    {op : String} :
    longestBeginning accept n text = some op ↔
      ∃ k, 0 < k ∧ k ≤ n ∧ op = String.ofList (text.take k) ∧ accept op = true ∧
        ∀ j, k < j → j ≤ n → accept (String.ofList (text.take j)) = false := by
  induction n with
  | zero =>
    simp only [longestBeginning, reduceCtorEq, false_iff]
    rintro ⟨k, hpos, hle, -⟩
    omega
  | succ n ih =>
    simp only [longestBeginning]
    split
    · rename_i haccept
      rw [Option.some.injEq]
      constructor
      · rintro rfl
        exact ⟨n + 1, by omega, by omega, rfl, haccept, fun j hj hj' => by omega⟩
      · rintro ⟨k, hpos, hle, rfl, -, hlonger⟩
        rcases Nat.lt_or_ge k (n + 1) with hlt | hge
        · rw [hlonger (n + 1) hlt (Nat.le_refl _)] at haccept
          cases haccept
        · rw [Nat.le_antisymm hle hge]
    · rename_i hreject
      rw [ih]
      constructor
      · rintro ⟨k, hpos, hle, hop, haccept, hlonger⟩
        refine ⟨k, hpos, by omega, hop, haccept, fun j hj hj' => ?_⟩
        rcases Nat.lt_or_ge j (n + 1) with hlt | hge
        · exact hlonger j hj (by omega)
        · rw [Nat.le_antisymm hj' hge]
          simpa using hreject
      · rintro ⟨k, hpos, hle, hop, haccept, hlonger⟩
        rcases Nat.lt_or_ge k (n + 1) with hlt | hge
        · exact ⟨k, hpos, by omega, hop, haccept, fun j hj hj' => hlonger j hj (by omega)⟩
        · obtain rfl := Nat.le_antisymm hle hge
          exact absurd (hop ▸ haccept) hreject

theorem longestBeginning_eq_none_iff {accept : String → Bool} {n : Nat} {text : List Char} :
    longestBeginning accept n text = none ↔
      ∀ j, 0 < j → j ≤ n → accept (String.ofList (text.take j)) = false := by
  induction n with
  | zero =>
    simp only [longestBeginning, true_iff]
    intro j hpos hle
    omega
  | succ n ih =>
    simp only [longestBeginning]
    split
    · rename_i haccept
      simp only [reduceCtorEq, false_iff]
      intro h
      rw [h (n + 1) (by omega) (Nat.le_refl _)] at haccept
      cases haccept
    · rename_i hreject
      rw [ih]
      constructor
      · intro h j hpos hle
        rcases Nat.lt_or_ge j (n + 1) with hlt | hge
        · exact h j hpos (by omega)
        · rw [Nat.le_antisymm hle hge]
          simpa using hreject
      · exact fun h j hpos hle => h j hpos (by omega)

theorem longestBeginning_spec {accept : String → Bool} {n : Nat} {text : List Char} {op : String}
    (h : longestBeginning accept n text = some op) : accept op = true ∧ op.toList <+: text := by
  obtain ⟨k, -, -, rfl, haccept, -⟩ := longestBeginning_eq_some_iff.mp h
  refine ⟨haccept, ?_⟩
  rw [String.toList_ofList]
  exact List.take_prefix k text

namespace OperatorTable

variable {t : OperatorTable} {text : List Char} {op : String} {precedence : Int}

/-- A beginning of a text that is a match has a character at least. -/
theorem pos_of_longestBeginning {accept : String → Bool} {n : Nat}
    (h : longestBeginning accept (min n text.length) text = some op) :
    0 < op.length ∧ text ≠ [] := by
  obtain ⟨k, hpos, hle, rfl, -⟩ := longestBeginning_eq_some_iff.mp h
  have hk : k ≤ text.length := Nat.le_trans hle (Nat.min_le_right _ _)
  constructor
  · simp only [String.length_ofList, List.length_take]
    omega
  · rintro rfl
    simp only [List.length_nil] at hk
    omega

theorem unaryAt?_pos (h : t.unaryAt? text = some op) : 0 < op.length ∧ text ≠ [] :=
  pos_of_longestBeginning h

/-- A unary match is registered, and the text begins with it. -/
theorem unaryAt?_spec (h : t.unaryAt? text = some op) :
    t.isUnary op = true ∧ op.toList <+: text :=
  longestBeginning_spec h

theorem binaryAt?_eq_some_iff :
    t.binaryAt? text = some (op, precedence) ↔
      longestBeginning (fun op => (t.precedence? op).isSome) (min t.longestBinary text.length)
        text = some op ∧ t.precedence? op = some precedence := by
  unfold binaryAt?
  cases longestBeginning (fun op => (t.precedence? op).isSome)
    (min t.longestBinary text.length) text with
  | none => simp
  | some found =>
    cases hfound : t.precedence? found with
    | none =>
      simp only [Option.bind_eq_bind, Option.bind_some, hfound, Option.bind_none, reduceCtorEq,
        false_iff, Option.some.injEq]
      rintro ⟨rfl, h⟩
      rw [hfound] at h
      cases h
    | some p =>
      simp only [Option.bind_eq_bind, Option.bind_some, hfound, Option.some.injEq, Option.pure_def,
        Prod.mk.injEq]
      constructor
      · rintro ⟨rfl, rfl⟩
        exact ⟨rfl, hfound⟩
      · rintro ⟨rfl, h⟩
        rw [hfound, Option.some.injEq] at h
        exact ⟨rfl, h⟩

/-- A binary match is registered, and the text begins with it. -/
theorem binaryAt?_spec (h : t.binaryAt? text = some (op, precedence)) :
    t.precedence? op = some precedence ∧ op.toList <+: text := by
  obtain ⟨hlongest, hprecedence⟩ := binaryAt?_eq_some_iff.mp h
  exact ⟨hprecedence, (longestBeginning_spec hlongest).2⟩

example : (standard.removeBinary ">>>").binaryAt? ">>>".toList = some (">>", 8) := by
  decide +kernel

theorem binaryAt?_pos (h : t.binaryAt? text = some (op, precedence)) :
    0 < op.length ∧ text ≠ [] :=
  pos_of_longestBeginning (binaryAt?_eq_some_iff.mp h).1

end OperatorTable

end ExprTree
