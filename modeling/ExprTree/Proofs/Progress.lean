import ExprTree.Proofs.Lexemes
import ExprTree.Proofs.LongestMatch

/-!
Places further on in a text, and how far the pieces of a source text get: names, quotations,
numerals and operators. What they pass is what the progress of the rules is made of, see
`ExprTree.Proofs.Forward`. At one place a rule may call rules of lower rank only, so it has no use
for more rounds than `Rule.need` says.
-/

namespace ExprTree

namespace Cursor

/-- One place is further on in the same text than another, or the same. -/
def Reaches (c d : Cursor) : Prop :=
  ∃ n, d = c.advance n

/-- One place is further on by a character at least. -/
def Passes (c d : Cursor) : Prop :=
  c.Reaches d ∧ d.ahead.length < c.ahead.length

@[refl] theorem Reaches.refl (c : Cursor) : c.Reaches c :=
  ⟨0, c.advance_zero.symm⟩

theorem Reaches.trans {c d e : Cursor} (h : c.Reaches d) (h' : d.Reaches e) : c.Reaches e := by
  obtain ⟨m, rfl⟩ := h
  obtain ⟨n, rfl⟩ := h'
  exact ⟨m + n, c.advance_advance m n⟩

theorem reaches_advance (c : Cursor) (n : Nat) : c.Reaches (c.advance n) :=
  ⟨n, rfl⟩

theorem reaches_skipBlanks (c : Cursor) : c.Reaches c.skipBlanks :=
  c.reaches_advance _

theorem Reaches.length_le {c d : Cursor} (h : c.Reaches d) : d.ahead.length ≤ c.ahead.length := by
  obtain ⟨n, rfl⟩ := h
  simp

theorem Reaches.index_add {c d : Cursor} (h : c.Reaches d) :
    d.index + d.ahead.length = c.index + c.ahead.length := by
  obtain ⟨n, rfl⟩ := h
  simp only [index_advance, ahead_advance, List.length_drop]
  omega

theorem Reaches.text {c d : Cursor} (h : c.Reaches d) : d.text = c.text := by
  obtain ⟨n, rfl⟩ := h
  exact c.text_advance n

theorem Passes.trans_reaches {c d e : Cursor} (h : c.Passes d) (h' : d.Reaches e) : c.Passes e :=
  ⟨h.1.trans h', Nat.lt_of_le_of_lt h'.length_le h.2⟩

theorem Reaches.trans_passes {c d e : Cursor} (h : c.Reaches d) (h' : d.Passes e) : c.Passes e :=
  ⟨h.trans h'.1, Nat.lt_of_lt_of_le h'.2 h.length_le⟩

theorem Passes.index_lt {c d : Cursor} (h : c.Passes d) : c.index < d.index := by
  have hadd := h.1.index_add
  have hlt := h.2
  omega

theorem passes_advance {c : Cursor} {n : Nat} (hn : 0 < n) (hc : c.ahead ≠ []) :
    c.Passes (c.advance n) := by
  refine ⟨c.reaches_advance n, ?_⟩
  have hpos := List.length_pos_iff.mpr hc
  simp only [ahead_advance, List.length_drop]
  omega

theorem ahead_of_peek {c : Cursor} {x : Char} (h : c.peek? = some x) :
    ∃ rest, c.ahead = x :: rest :=
  List.head?_eq_some_iff.mp h

theorem passes_of_peek {c : Cursor} {x : Char} (h : c.peek? = some x) : c.Passes (c.advance 1) := by
  obtain ⟨rest, hrest⟩ := ahead_of_peek h
  exact passes_advance Nat.one_pos (by simp [hrest])

end Cursor

namespace Node

theorem name?_ofOperator (operator : String) (left right : Node) :
    (ofOperator operator left right).name? = none := by
  unfold ofOperator
  split <;> rfl

end Node

open Cursor

namespace Rule

/-- At one place in a text, a rule may call only rules of lower rank. -/
def rank : Rule → Nat
  | .primary | .links _ | .chain _ => 1
  | .operand | .pairs _ => 2
  | .expression => 3
  | .items _ | .statements => 4

/-- The rounds that a rule needs in a state. -/
def need (r : Rule) (s : State) : Nat :=
  4 * s.cursor.ahead.length + r.rank

end Rule

namespace Progress

open Parse Outcome Lexemes

section

variable {g : Grammar} {l : Letters} {s t : State}

theorem passes_of_name {w : String} (h : name l s = .done w t) : s.cursor.Passes t.cursor := by
  obtain ⟨c, hc, hstart, -, rfl⟩ := name_cases h
  obtain ⟨rest, hrest⟩ := ahead_of_peek hc
  have hpart : l.isPart c = true := by simp [Letters.isPart, hstart]
  refine passes_advance ?_ (by simp [hrest])
  rw [hrest, List.takeWhile_cons_of_pos hpart]
  exact Nat.succ_pos _

theorem exists_cons_of_name {w : String} (h : name l s = .done w t) :
    ∃ c rest, w.toList = c :: rest ∧ l.isStart c = true := by
  obtain ⟨c, hc, hstart, rfl, -⟩ := name_cases h
  obtain ⟨rest, hrest⟩ := ahead_of_peek hc
  have hpart : l.isPart c = true := by simp [Letters.isPart, hstart]
  refine ⟨c, rest.takeWhile l.isPart, ?_, hstart⟩
  rw [hrest, List.takeWhile_cons_of_pos hpart, String.toList_ofList]

theorem passes_of_quotation {p : String × String} (h : quotation s = .done p t) :
    s.cursor.Passes t.cursor := by
  cases (quotation_ends s).of_done h with
  | closed hahead => exact passes_advance (Nat.succ_pos _) (by simp [hahead])

theorem passes_of_joinableText {n : Node} (h : joinableText l s = .done n t) :
    s.cursor.Passes t.cursor := by
  cases (joinableText_ends l s).of_done h with
  | alone htext => exact passes_of_quotation htext
  | joined htext hfollows hname =>
    have hafter := (reaches_advance _ 1).trans (passes_of_name hname).1
    exact (passes_of_quotation htext).trans_reaches hafter

theorem reaches_of_joinName {n m : Node} (h : joinName l n s = .done m t) :
    s.cursor.Reaches t.cursor := by
  cases (joinName_ends l n s).of_done h with
  | alone => exact .refl _
  | joined hfollows hname => exact (reaches_advance _ 1).trans (passes_of_name hname).1

theorem exists_text_munch {c : Char} (rest : List Char) (hc : c.isDigit = true ∨ c = '.') :
    ∃ more, (Numeral.munch (c :: rest)).1.text = c :: more := by
  rcases hc with hc | rfl
  · simp [Numeral.munch, Numeral.text, List.takeWhile_cons_of_pos hc]
  · simp [Numeral.munch, Numeral.munchFraction, Numeral.text]

theorem passes_of_numeral {c : Char} {n : Node} (hpeek : s.cursor.peek? = some c)
    (hc : c.isDigit = true ∨ c = '.') (h : numeral l s = .done n t) :
    s.cursor.Passes t.cursor := by
  obtain ⟨rest, hrest⟩ := ahead_of_peek hpeek
  obtain ⟨more, hmore⟩ := exists_text_munch rest hc
  have hmunched : s.cursor.Passes
      (s.cursor.advance (Numeral.munch s.cursor.ahead).1.text.length) := by
    rw [hrest, hmore]
    exact passes_advance (Nat.succ_pos _) (by simp [hrest])
  cases (numeral_ends l s).of_done h with
  | number hn => exact hn ▸ hmunched
  | name hn hall hname => exact (hn ▸ hmunched).trans_reaches (passes_of_name hname).1

theorem reaches_of_binaryOperator {o : Option (String × Int)} (h : binaryOperator g s = .done o t) :
    s.cursor.Reaches t.cursor := by
  cases (binaryOperator_ends g s).of_done h with
  | nothing => exact reaches_skipBlanks _
  | operator hop => exact (reaches_skipBlanks _).trans (reaches_advance _ _)

/-- An operator has a character at least. -/
theorem passes_of_binaryOperator {o : String × Int} (h : binaryOperator g s = .done (some o) t) :
    s.cursor.Passes t.cursor := by
  cases (binaryOperator_ends g s).of_done h with
  | operator hop =>
    obtain ⟨hpos, htake⟩ := OperatorTable.binaryAt?_pos hop
    refine (reaches_skipBlanks _).trans_passes (passes_advance hpos ?_)
    rintro hnil
    simp [hnil] at htake

theorem passes_of_unaryAt? {c : Cursor} {operator : String}
    (hop : g.operators.unaryAt? (c.ahead.take g.operators.longestUnary) = some operator) :
    c.Passes (c.advance operator.length) := by
  obtain ⟨hpos, htake⟩ := OperatorTable.unaryAt?_pos hop
  refine passes_advance hpos ?_
  rintro hnil
  simp [hnil] at htake

theorem splitAtLast_eq_some {x : Char} {cs before after : List Char}
    (h : splitAtLast x cs = some (before, after)) : cs = before ++ x :: after := by
  induction cs generalizing before with
  | nil => simp [splitAtLast] at h
  | cons c cs ih =>
    simp only [splitAtLast] at h
    split at h
    · rename_i before' after' hcs
      obtain ⟨rfl, rfl⟩ : c :: before' = before ∧ after' = after := by simpa using h
      rw [ih hcs, List.cons_append]
    · split at h
      · rename_i hc
        obtain ⟨rfl, rfl⟩ : [] = before ∧ cs = after := by simpa using h
        simp [hc]
      · cases h

theorem gluedTest?_eq_some {name test : List Char} (h : gluedTest? name = some test) :
    ∃ after, name = test ++ '?' :: after := by
  unfold gluedTest? at h
  split at h
  · cases h
  · rename_i test' after hsplit
    split at h
    · cases h
    · obtain rfl : test' = test := by simpa using h
      exact ⟨after, splitAtLast_eq_some hsplit⟩

end

end Progress

end ExprTree
