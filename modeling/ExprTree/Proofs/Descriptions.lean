import ExprTree.Proofs.Histories
import Mathlib.Tactic.Tauto

/-!
What a description means. The grammar is made by four rounds of changes, one for each list of the
description, and every list may repeat an operator, set a precedence anew or name what is not there.
What the rounds leave is said of one operator at a time: a round of additions settles the operators
it names and a round of removals takes away those it names, and neither touches the other kind of
operators. So the order within a list plays no part, nor does repetition, and this includes the
lengths, since those of a `Sound` table follow from its operators.
-/

namespace ExprTree.Descriptions

open Histories

/-- What a step leaves alone is the same after any number of steps. -/
theorem foldl_frame {σ α β : Type} {f : σ → α → σ} (view : σ → β)
    (h : ∀ s a, view (f s a) = view s) (as : List α) (s : σ) : view (as.foldl f s) = view s := by
  induction as generalizing s with
  | nil => rfl
  | cons a as ih => rw [List.foldl_cons, ih, h]

section

variable (t : OperatorTable) (op : String)

theorem isUnary_addAllUnary (ops : List String) :
    (t.addAllUnary ops).isUnary op = (t.isUnary op || ops.contains op) := by
  induction ops generalizing t with
  | nil => simp [OperatorTable.addAllUnary]
  | cons o ops ih =>
    have hstep : t.addAllUnary (o :: ops) = (t.addUnary o).addAllUnary ops := rfl
    rw [hstep, ih, isUnary_addUnary, List.contains_cons, Bool.or_assoc]

theorem isUnary_removeAllUnary (ops : List String) :
    (ops.foldl OperatorTable.removeUnary t).isUnary op = (t.isUnary op && !ops.contains op) := by
  induction ops generalizing t with
  | nil => simp
  | cons o ops ih =>
    rw [List.foldl_cons, ih, isUnary_removeUnary, List.contains_cons, Bool.not_or, bne,
      Bool.and_assoc]

/-- The pair that comes last settles the precedence of an operator; with distinct operators it is
the only one. -/
theorem precedence?_addAllBinary {ops : Keyed Int} (hops : ops.keys.Nodup) :
    (t.addAllBinary ops).precedence? op = (ops.get? op).or (t.precedence? op) := by
  induction ops generalizing t with
  | nil => rfl
  | cons o ops ih =>
    obtain ⟨key, p⟩ := o
    have hstep : t.addAllBinary ((key, p) :: ops) = (t.addBinary key p).addAllBinary ops := rfl
    obtain ⟨hkey, hops⟩ := List.nodup_cons.mp hops
    rw [hstep, ih _ hops, precedence?_addBinary]
    by_cases h : op = key
    · subst h
      have hnone : Keyed.get? ops op = none := Keyed.get?_eq_none hkey
      simp [Keyed.get?, hnone]
    · simp [Keyed.get?, h, Ne.symm h]

theorem precedence?_removeAllBinary (ops : List String) :
    (ops.foldl OperatorTable.removeBinary t).precedence? op =
      if op ∈ ops then none else t.precedence? op := by
  induction ops generalizing t with
  | nil => simp
  | cons o ops ih =>
    rw [List.foldl_cons, ih, precedence?_removeBinary]
    by_cases h : op = o <;> simp [h]

theorem isUnary_addAllBinary (ops : List (String × Int)) :
    (t.addAllBinary ops).isUnary op = t.isUnary op := by
  refine foldl_frame (·.isUnary op) (fun u o => ?_) ops t
  rfl

theorem isUnary_removeAllBinary (ops : List String) :
    (ops.foldl OperatorTable.removeBinary t).isUnary op = t.isUnary op := by
  refine foldl_frame (·.isUnary op) (fun u o => ?_) ops t
  rfl

theorem precedence?_addAllUnary (ops : List String) :
    (t.addAllUnary ops).precedence? op = t.precedence? op := by
  refine foldl_frame (·.precedence? op) (fun u o => ?_) ops t
  rfl

theorem precedence?_removeAllUnary (ops : List String) :
    (ops.foldl OperatorTable.removeUnary t).precedence? op = t.precedence? op := by
  refine foldl_frame (·.precedence? op) (fun u o => ?_) ops t
  rfl

end

theorem isExtra_add (l : Letters) (chars : List Char) (c : Char) :
    (l.add chars).isExtra c = true ↔ c ∈ chars ∨ l.isExtra c = true := by
  induction chars generalizing l with
  | nil => simp [Letters.add, Letters.isExtra]
  | cons d chars ih =>
    have hstep : l.add (d :: chars) =
        Letters.add ⟨if l.extra.contains d then l.extra else l.extra ++ [d]⟩ chars := rfl
    rw [hstep, ih, List.mem_cons]
    simp only [Letters.isExtra, List.contains_iff_mem]
    by_cases hd : d ∈ l.extra
    · rw [if_pos hd]
      by_cases hc : c = d <;> simp [hc, hd]
    · rw [if_neg hd, List.mem_append, List.mem_singleton]
      by_cases hc : c = d <;> simp [hc]

/-- The precedence of an operator before a description has changed anything. -/
def startPrecedence? (d : Description) (op : String) : Option Int :=
  if d.extendDefaults then Keyed.get? OperatorTable.standardBinary op else none

theorem isUnary_start (d : Description) (op : String) :
    (if d.extendDefaults then Grammar.standard else .bare).operators.isUnary op =
      (d.extendDefaults && OperatorTable.standardUnary.contains op) := by
  cases d.extendDefaults with
  | false => rfl
  | true =>
    change OperatorTable.standard.isUnary op = _
    rw [OperatorTable.standard, isUnary_addAllBinary, isUnary_addAllUnary]
    rfl

theorem precedence?_start (d : Description) (op : String) :
    (if d.extendDefaults then Grammar.standard else .bare).operators.precedence? op =
      startPrecedence? d op := by
  rw [startPrecedence?]
  cases d.extendDefaults with
  | false => rfl
  | true =>
    have hdistinct : Keyed.keys OperatorTable.standardBinary |>.Nodup := by decide +kernel
    change OperatorTable.standard.precedence? op = Keyed.get? OperatorTable.standardBinary op
    rw [OperatorTable.standard, precedence?_addAllBinary _ _ hdistinct, precedence?_addAllUnary]
    exact Option.or_none

/-- The empty operator is among those to be added. -/
def NamesEmpty (d : Description) : Prop :=
  "" ∈ d.unary ∨ "" ∈ d.binary.pairs.keys

/-- What is registered in a grammar is what a description asks for. -/
structure Meets (d : Description) (g : Grammar) : Prop where
  unary : ∀ op, g.operators.isUnary op = true ↔
    op ∉ d.removedUnary ∧
      (op ∈ d.unary ∨ d.extendDefaults = true ∧ op ∈ OperatorTable.standardUnary)
  binary : ∀ op, g.operators.precedence? op =
    if op ∈ d.removedBinary then none else (d.binary.pairs.get? op).or (startPrecedence? d op)
  letters : ∀ c, g.letters.isExtra c = true ↔ c ∈ d.letters.toList
  thisWord : g.thisWord = d.thisWord.getD "this"

/-- The same description up to the order of the entries and repeated ones. The binary operators are
a map and have no repetitions. -/
structure Alike (d d' : Description) : Prop where
  extendDefaults : d'.extendDefaults = d.extendDefaults
  unary : ∀ op, op ∈ d'.unary ↔ op ∈ d.unary
  binary : d'.binary.pairs.Perm d.binary.pairs
  removedUnary : ∀ op, op ∈ d'.removedUnary ↔ op ∈ d.removedUnary
  removedBinary : ∀ op, op ∈ d'.removedBinary ↔ op ∈ d.removedBinary
  letters : ∀ c, c ∈ d'.letters.toList ↔ c ∈ d.letters.toList
  thisWord : d'.thisWord = d.thisWord

section

variable {d d' : Description} {g g' : Grammar}

theorem grammar_of_namesEmpty (h : NamesEmpty d) : d.grammar = .error .emptyOperator :=
  if_pos h

theorem exists_grammar_of_not_namesEmpty (h : ¬NamesEmpty d) : ∃ g, d.grammar = .ok g :=
  ⟨_, if_neg h⟩

theorem meets_grammar (h : d.grammar = .ok g) : Meets d g := by
  unfold Description.grammar at h
  split at h
  · cases h
  cases h
  refine ⟨fun op => ?_, fun op => ?_, fun c => ?_, ?_⟩
  · simp only [isUnary_removeAllBinary, isUnary_removeAllUnary, isUnary_addAllBinary,
      isUnary_addAllUnary, isUnary_start]
    simp [and_comm, or_comm]
  · simp only [precedence?_removeAllBinary, precedence?_removeAllUnary,
      precedence?_addAllBinary _ _ d.binary.distinct, precedence?_addAllUnary, precedence?_start]
  · rw [isExtra_add]
    cases d.extendDefaults <;>
      simp [Grammar.standard, Grammar.bare, Letters.standard, Letters.isExtra]
  · cases d.extendDefaults <;> rfl

/-- Grammars of descriptions that are alike hold the same operators, and so the same lengths. -/
theorem agrees_of_alike (h : Alike d d') (hg : d.grammar = .ok g) (hg' : d'.grammar = .ok g') :
    g.agrees g' = true := by
  have hmeets := meets_grammar hg
  have hmeets' := meets_grammar hg'
  have hthis : g.thisWord = g'.thisWord := by
    rw [hmeets.thisWord, hmeets'.thisWord, h.thisWord]
  have hletters : ∀ c, g.letters.isExtra c = g'.letters.isExtra c := by
    intro c
    rw [Bool.eq_iff_iff, hmeets.letters, hmeets'.letters, h.letters]
  have hunary : ∀ op, g.operators.isUnary op = g'.operators.isUnary op := by
    intro op
    rw [Bool.eq_iff_iff, hmeets.unary, hmeets'.unary, h.removedUnary, h.unary, h.extendDefaults]
  have hbinary : ∀ op, g.operators.precedence? op = g'.operators.precedence? op := by
    intro op
    simp only [hmeets.binary, hmeets'.binary, startPrecedence?, h.removedBinary,
      h.extendDefaults, Keyed.get?_of_perm d.binary.distinct h.binary]
  rw [Grammar.agrees, (agrees_iff (sound_described hg) (sound_described hg')).mpr ⟨hunary, hbinary⟩,
    (letters_agrees_iff _ _).mpr hletters, hthis]
  simp

theorem Alike.namesEmpty_iff (h : Alike d d') : NamesEmpty d' ↔ NamesEmpty d :=
  or_congr (h.unary "") (h.binary.map _).mem_iff

end

/-- There is no grammar exactly if a description adds the empty operator, removed afterwards or not.
The grammar otherwise holds what is added or standard and not removed, an added precedence before a
standard one; and it is the same, the lengths included, for every order of the entries and any
repetitions. -/
theorem grammar_of_description (d : Description) :
    (d.grammar = .error .emptyOperator ↔ NamesEmpty d) ∧
    (¬NamesEmpty d → ∃ g, d.grammar = .ok g ∧ Meets d g) ∧
    ∀ d', Alike d d' →
      (d.grammar = .error .emptyOperator ∧ d'.grammar = .error .emptyOperator) ∨
      ∃ g g', d.grammar = .ok g ∧ d'.grammar = .ok g' ∧ g.agrees g' = true := by
  refine ⟨⟨fun herror => ?_, grammar_of_namesEmpty⟩, fun h => ?_, fun d' hlike => ?_⟩
  · by_contra h
    obtain ⟨g, hg⟩ := exists_grammar_of_not_namesEmpty h
    rw [hg] at herror
    cases herror
  · obtain ⟨g, hg⟩ := exists_grammar_of_not_namesEmpty h
    exact ⟨g, hg, meets_grammar hg⟩
  · by_cases h : NamesEmpty d
    · exact .inl ⟨grammar_of_namesEmpty h, grammar_of_namesEmpty (hlike.namesEmpty_iff.mpr h)⟩
    · obtain ⟨g, hg⟩ := exists_grammar_of_not_namesEmpty h
      obtain ⟨g', hg'⟩ := exists_grammar_of_not_namesEmpty (mt hlike.namesEmpty_iff.mp h)
      exact .inr ⟨g, g', hg, hg', agrees_of_alike hlike hg hg'⟩

/-- An operator is added, set anew and removed; the other description has the same entries twice
and the other way round. -/
theorem grammar_of_description_repeated :
    let added : Precedences := ⟨[("and", 2), ("+", 3)], by decide, by decide⟩
    let added' : Precedences := ⟨[("+", 3), ("and", 2)], by decide, by decide⟩
    let d : Description := ⟨true, ["not", "-"], added, ["!"], ["%", "and"], "@#", none⟩
    let d' : Description :=
      ⟨true, ["-", "not", "-"], added', ["!", "!"], ["and", "%"], "#@#", none⟩
    (∃ g, d.grammar = .ok g ∧ g.operators.isUnary "!" = false ∧
      g.operators.precedence? "+" = some 3 ∧ g.operators.precedence? "and" = none) ∧
    ∃ g g', d.grammar = .ok g ∧ d'.grammar = .ok g' ∧ g.agrees g' = true := by
  intro added added' d d'
  obtain ⟨hempty, hmeets, halike⟩ := grammar_of_description d
  have hfull : ¬NamesEmpty d := by
    unfold NamesEmpty
    decide +kernel
  refine ⟨?_, ?_⟩
  · obtain ⟨g, hg, hmeets⟩ := hmeets hfull
    refine ⟨g, hg, ?_, (hmeets.binary "+").trans (by decide +kernel),
      (hmeets.binary "and").trans (by decide +kernel)⟩
    rw [← Bool.not_eq_true, hmeets.unary]
    decide +kernel
  · have hlike : Alike d d' := by
      refine ⟨rfl, ?_, .swap _ _ _, ?_, ?_, ?_, rfl⟩ <;> intro x <;> simp [d, d'] <;> tauto
    rcases halike d' hlike with ⟨herror, -⟩ | h
    · exact absurd (hempty.mp herror) hfull
    · exact h

end ExprTree.Descriptions
