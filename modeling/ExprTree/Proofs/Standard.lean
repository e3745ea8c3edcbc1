import ExprTree.Grammar.Basic
import ExprTree.Proofs.LongestMatch
import ExprTree.Source.Cursor
import Mathlib.Tactic.ByContra

/-!
The characters and the operators of the standard grammar. No operator is made of characters of
names, none has a blank inside, and none begins like a bracket, a separator or a conditional's
mark; so after a printed part it is clear whether an operator follows, and which.
-/

namespace ExprTree

/-- A condition on the members of a list, tested on one after the other. -/
theorem forall_mem_of_all {α : Type} {p : α → Prop} [DecidablePred p] {as : List α}
    (h : as.all (fun a => decide (p a)) = true) : ∀ a ∈ as, p a :=
  fun a ha => of_decide_eq_true (List.all_eq_true.mp h a ha)

theorem forall_mem_head?_cons {α : Type} {p : α → Prop} {a : α} (as : List α) (h : p a) :
    ∀ b ∈ (a :: as).head?, p b := by
  rintro b ⟨⟩
  exact h

namespace Standard

open OperatorTable

/-- The letters of the standard grammar. -/
abbrev letters : Letters := Grammar.standard.letters

theorem isStart_question : letters.isStart '?' = false := by decide

theorem isPart_of_isStart {c : Char} (h : letters.isStart c = true) : letters.isPart c = true := by
  rw [Letters.isPart, h, Bool.true_or]

theorem isPart_of_isDigit {c : Char} (h : c.isDigit = true) : letters.isPart c = true := by
  rw [Letters.isPart, h, Bool.or_true]

theorem isDigit_of_isStart {c : Char} (h : letters.isStart c = true) : c.isDigit = false := by
  have hstart : (c == '$' || c == '_' || (c.isUpper || c.isLower) || false) = true := h
  -- letters come after the digits
  have hafter : ∀ d : Char, '9'.toNat < d.toNat → d.val ≤ c.val → c.isDigit = false := by
    intro d hd hle
    have hle : d.toNat ≤ c.toNat := hle
    rw [← Bool.not_eq_true, Char.isDigit_iff_toNat]
    omega
  simp only [Bool.or_false, Bool.or_eq_true, beq_iff_eq] at hstart
  rcases hstart with (rfl | rfl) | hupper | hlower
  · decide
  · decide
  · have hletter : 'A'.val ≤ c.val ∧ c.val ≤ 'Z'.val := of_decide_eq_true hupper
    exact hafter 'A' (by decide) hletter.1
  · have hletter : (decide ('a'.val ≤ c.val) && decide (c.val ≤ 'z'.val)) = true := hlower
    rw [Bool.and_eq_true, decide_eq_true_iff] at hletter
    exact hafter 'a' (by decide) hletter.1

/-- A character that may begin a name is none that may not. -/
theorem ne_of_isStart {c d : Char} (h : letters.isStart c = true)
    (hd : letters.isStart d = false) : c ≠ d := by
  rintro rfl
  rw [h] at hd
  cases hd

theorem not_mem_of_isStart {c : Char} {cs : List Char} (h : letters.isStart c = true)
    (hcs : cs.any letters.isStart = false) : c ∉ cs := by
  intro hc
  have hany : cs.any letters.isStart = true := List.any_eq_true.mpr ⟨c, hc, h⟩
  rw [hcs] at hany
  cases hany

theorem isBlank_of_isStart {c : Char} (h : letters.isStart c = true) : isBlank c = false := by
  rw [isBlank, Bool.or_eq_false_iff, beq_eq_false_iff_ne, beq_eq_false_iff_ne]
  exact ⟨ne_of_isStart h (by decide), ne_of_isStart h (by decide)⟩

theorem precedence?_of_mem {operator : String} {precedence : Int}
    (h : (operator, precedence) ∈ standardBinary) :
    standard.precedence? operator = some precedence := by
  have hall : ∀ o ∈ standardBinary, standard.precedence? o.1 = some o.2 := by decide +kernel
  exact hall _ h

theorem mem_of_precedence? {operator : String} {precedence : Int}
    (h : standard.precedence? operator = some precedence) :
    (operator, precedence) ∈ standardBinary := by
  have hbinary : standard.binary = standardBinary := by decide +kernel
  rw [← hbinary]
  exact Keyed.mem_of_get? h

/-- The characters that may stand after an expression, other than blanks and operators. -/
def marks : List Char :=
  ['?', ',', ')', ']', ':']

/-- The shape of a binary operator. -/
structure Shape (operator : String) : Prop where
  noBlank : ' ' ∉ operator.toList
  length_pos : 0 < operator.toList.length
  length_le : operator.toList.length ≤ 3
  first : ∀ c ∈ operator.toList.head?, c ∉ marks ∧ c ∉ ['.', '[', '('] ∧ isBlank c = false ∧
    letters.isPart c = false
  second : ∀ c ∈ operator.toList[1]?, letters.isStart c = false

theorem Shape.ne_nil {operator : String} (h : Shape operator) : operator.toList ≠ [] :=
  List.ne_nil_of_length_pos h.length_pos

theorem shape_of_mem {operator : String} {precedence : Int}
    (h : (operator, precedence) ∈ standardBinary) : Shape operator := by
  have hall : ∀ o ∈ standardBinary, ' ' ∉ o.1.toList ∧ 0 < o.1.toList.length ∧
      o.1.toList.length ≤ 3 ∧
      o.1.toList.head?.all (fun c => decide (c ∉ marks ∧ c ∉ ['.', '[', '('] ∧
        isBlank c = false ∧ letters.isPart c = false)) = true ∧
      o.1.toList[1]?.any letters.isStart = false := by decide +kernel
  obtain ⟨hblank, hpos, hle, hfirst, hsecond⟩ := hall _ h
  refine ⟨hblank, hpos, hle, fun c hc => ?_, fun c hc => ?_⟩
  · exact of_decide_eq_true ((Option.all_eq_true _ _).mp hfirst c hc)
  · rw [Option.mem_def.mp hc] at hsecond
    exact hsecond

theorem longestBinary_eq : standard.longestBinary = 3 := by decide +kernel

/-- An operator with a blank after it is found whole. -/
theorem binaryAt?_of_mem {operator : String} {precedence : Int}
    (h : (operator, precedence) ∈ standardBinary) (rest : List Char) :
    standard.binaryAt? ((operator.toList ++ ' ' :: rest).take standard.longestBinary) =
      some (operator, precedence) := by
  have hshape := shape_of_mem h
  rw [longestBinary_eq]
  refine binaryAt?_eq_some_iff.mpr ⟨?_, precedence?_of_mem h⟩
  have hle := hshape.length_le
  refine longestBeginning_eq_some_iff.mpr
    ⟨operator.toList.length, hshape.length_pos, ?_, ?_, ?_, ?_⟩
  · rw [longestBinary_eq]
    simp only [List.length_take, List.length_append, List.length_cons]
    omega
  · rw [List.take_take, Nat.min_eq_left hle, List.take_left, String.ofList_toList]
  · rw [precedence?_of_mem h]
    rfl
  · intro j hj hj'
    rw [longestBinary_eq] at hj'
    by_contra hsome
    obtain ⟨p, hp⟩ := Option.isSome_iff_exists.mp (Bool.of_not_eq_false hsome)
    -- a longer beginning has the blank inside
    apply (shape_of_mem (mem_of_precedence? hp)).noBlank
    rw [String.toList_ofList, List.take_take, Nat.min_eq_left (by omega)]
    rw [List.mem_take_iff_getElem]
    refine ⟨operator.toList.length, by simp; omega, by simp⟩

/-- No operator is found exactly if the text begins with none. -/
theorem binaryAt?_eq_none_iff {text : List Char} :
    standard.binaryAt? (text.take standard.longestBinary) = none ↔
      ∀ o ∈ standardBinary, ¬ o.1.toList <+: text := by
  constructor
  · intro hnone o hmem hbegins
    have hp := precedence?_of_mem hmem
    have hlength := (shape_of_mem hmem).length_le
    have hle : o.1.toList.length ≤ (text.take standard.longestBinary).length := by
      have hwithin := hbegins.length_le
      rw [longestBinary_eq, List.length_take]
      omega
    cases hlongest : longestBeginning (fun op => (standard.precedence? op).isSome)
        (min standard.longestBinary (text.take standard.longestBinary).length)
        (text.take standard.longestBinary) with
    | none =>
      have hreject := longestBeginning_eq_none_iff.mp hlongest o.1.toList.length
        (shape_of_mem hmem).length_pos (by rw [longestBinary_eq] at hle ⊢; omega)
      rw [List.take_take, longestBinary_eq, Nat.min_eq_left hlength,
        ← List.prefix_iff_eq_take.mp hbegins, String.ofList_toList, hp] at hreject
      cases hreject
    | some found =>
      obtain ⟨_, _, _, _, haccept, -⟩ := longestBeginning_eq_some_iff.mp hlongest
      obtain ⟨p, hfound⟩ := Option.isSome_iff_exists.mp haccept
      rw [binaryAt?_eq_some_iff.mpr ⟨hlongest, hfound⟩] at hnone
      cases hnone
  · intro h
    rw [Option.eq_none_iff_forall_ne_some]
    rintro ⟨operator, precedence⟩ hsome
    obtain ⟨hlongest, hp⟩ := binaryAt?_eq_some_iff.mp hsome
    obtain ⟨k, -, -, rfl, -⟩ := longestBeginning_eq_some_iff.mp hlongest
    apply h _ (mem_of_precedence? hp)
    rw [String.toList_ofList, List.take_take]
    exact List.take_prefix _ _

/-- No operator begins with one of the marks, or with a character of names. -/
theorem binaryAt?_eq_none_of_head {text : List Char}
    (h : ∀ c ∈ text.head?, c ∈ marks ∨ letters.isPart c = true) :
    standard.binaryAt? (text.take standard.longestBinary) = none := by
  refine binaryAt?_eq_none_iff.mpr fun o hmem hbegins => ?_
  have hshape := shape_of_mem hmem
  obtain ⟨c, more, hc⟩ := List.exists_cons_of_ne_nil hshape.ne_nil
  rw [hc] at hbegins
  obtain ⟨rest, rfl⟩ := hbegins
  obtain ⟨hmark, -, -, hpart⟩ := hshape.first c (by rw [hc]; rfl)
  rcases h c rfl with hc | hc
  · exact hmark hc
  · rw [hpart] at hc
    cases hc

theorem binaryAt?_eq_none {text : List Char} (h : ∀ c ∈ text.head?, c ∈ marks) :
    standard.binaryAt? (text.take standard.longestBinary) = none :=
  binaryAt?_eq_none_of_head fun c hc => .inl (h c hc)

theorem unaryAt?_of_mem {operator : String} (h : operator ∈ standardUnary) (rest : List Char) :
    standard.unaryAt? ((operator.toList ++ rest).take standard.longestUnary) = some operator := by
  have hlongest : standard.longestUnary = 1 := by decide +kernel
  rw [hlongest]
  have hall : ∀ o ∈ standardUnary, o.toList.length = 1 ∧ standard.unaryAt? o.toList = some o := by
    decide +kernel
  obtain ⟨hlength, hop⟩ := hall operator h
  rw [← hlength, List.take_left]
  exact hop

end Standard

end ExprTree
