import ExprTree.Proofs.Print
import ExprTree.Proofs.Standard
import ExprTree.Proofs.Steps
import Mathlib.Data.List.DropRight
import Mathlib.Data.List.TakeWhile

/-!
How the smallest pieces of a printed text are read. A step is `Done` with a value and with the text
that is ahead then; only the characters ahead count, so nothing is said about the place itself. A
name, a numeral or a quoted text is read whole if what stands after it does not go on with it.
-/

namespace ExprTree.Reading

open Parse Standard Print QuotedText

/-- The outcome is a value, and a text is ahead then. -/
def Done {α : Type} (o : Outcome α) (a : α) (rest : List Char) : Prop :=
  ∃ t, o = .done a t ∧ t.cursor.ahead = rest

section

variable {α β : Type} {s : State} {a : α} {b : β} {middle rest after : List Char}

theorem done_pure (hs : s.cursor.ahead = rest) : Done ((Pure.pure a : Parse α) s) a rest :=
  ⟨s, rfl, hs⟩

theorem Done.bind {p : Parse β} {f : β → Parse α} (h : Done (p s) b middle)
    (hf : ∀ t : State, t.cursor.ahead = middle → Done (f b t) a rest) :
    Done ((p >>= f) s) a rest := by
  obtain ⟨t, hp, ht⟩ := h
  rw [bind_of_done hp]
  exact hf t ht

/-- The value of a step, made into another one. -/
theorem Done.map {p : Parse β} (h : Done (p s) b rest) (f : β → α) :
    Done ((do return f (← p)) s) (f b) rest :=
  h.bind fun _ ht => done_pure ht

theorem Done.require {p : Parse (Option α)} (h : Done (p s) (some a) rest) (cause : Cause) :
    Done (require cause p s) a rest := by
  obtain ⟨t, hp, ht⟩ := h
  exact ⟨t, require_of_done_some hp, ht⟩

theorem ahead_advance_of_append {c : Cursor} {xs : List Char} (hc : c.ahead = xs ++ rest) :
    (c.advance xs.length).ahead = rest := by
  rw [Cursor.ahead_advance, hc, List.drop_left]

theorem skipBlanks_done (hs : s.cursor.ahead.dropWhile isBlank = rest) :
    Done (skipBlanks s) () rest :=
  ⟨_, rfl, by rw [Cursor.ahead_skipBlanks, hs]⟩

theorem ahead_advance_one {c : Char} (hs : s.cursor.ahead = c :: rest) :
    (s.cursor.advance 1).ahead = rest := by
  rw [Cursor.ahead_advance, hs, List.drop_one, List.tail_cons]

theorem advance_done {c : Char} (hs : s.cursor.ahead = c :: rest) : Done (advance 1 s) () rest :=
  ⟨_, rfl, ahead_advance_one hs⟩

theorem eat_done {c : Char} (hs : s.cursor.ahead = c :: rest) : Done (eat c s) true rest := by
  have hpeek : s.cursor.peek? = some c := by rw [Cursor.peek?, hs, List.head?_cons]
  unfold eat
  simp only [hpeek, if_true]
  exact ⟨_, rfl, ahead_advance_one hs⟩

theorem not_eat_done {c : Char} (hs : s.cursor.ahead = rest) (hc : rest.head? ≠ some c) :
    Done (eat c s) false rest := by
  have hpeek : s.cursor.peek? ≠ some c := by rwa [Cursor.peek?, hs]
  unfold eat
  simp only [hpeek, if_false]
  exact ⟨s, rfl, hs⟩

theorem expect_done {c : Char} (hs : s.cursor.ahead = c :: rest) (cause : Cause) :
    Done (expect c cause s) () rest :=
  (eat_done hs).bind fun _ ht => done_pure ht

theorem peek?_of_ahead {c : Cursor} (hc : c.ahead = rest) : c.peek? = rest.head? := by
  rw [Cursor.peek?, hc]

theorem ahead_skipBlanks_of_ahead {c : Cursor} (hc : c.ahead = rest) :
    c.skipBlanks.ahead = rest.dropWhile isBlank := by
  rw [Cursor.ahead_skipBlanks, hc]

theorem dropWhile_skipBlanks {c : Cursor} (hc : c.ahead.dropWhile isBlank = rest) :
    c.skipBlanks.ahead.dropWhile isBlank = rest := by
  rw [Cursor.ahead_skipBlanks, List.dropWhile_idempotent, hc]

theorem dropWhile_isBlank_cons {c : Char} (hc : isBlank c = false) (rest : List Char) :
    (c :: rest).dropWhile isBlank = c :: rest := by
  simp [hc]

end

section

variable {p : Char → Bool} {xs after : List Char}

/-- A run of characters ends where a text begins that does not go on with it. -/
theorem takeWhile_append_of_head (h : ∀ c ∈ after.head?, p c = false) :
    (xs ++ after).takeWhile p = xs.takeWhile p := by
  induction xs with
  | nil =>
    cases after with
    | nil => rfl
    | cons c rest => simp [h c rfl]
  | cons x xs ih => by_cases hx : p x <;> simp [hx, ih]

theorem dropWhile_append_of_head (h : ∀ c ∈ after.head?, p c = false) :
    (xs ++ after).dropWhile p = xs.dropWhile p ++ after := by
  induction xs with
  | nil =>
    cases after with
    | nil => rfl
    | cons c rest => simp [h c rfl]
  | cons x xs ih => by_cases hx : p x <;> simp [hx, ih]

end

/-- The characters that may stand right after an operand. -/
def ends : List Char :=
  [' ', ',', ')', ']']

section

variable {s : State} {w : String} {after : List Char}

/-- A name is read up to a character that is none of its letters. -/
theorem name_done_of_letters {l : Letters} {c : Char} {rest : List Char} (hw : w.toList = c :: rest)
    (hstart : l.isStart c = true) (hall : ∀ d ∈ w.toList, l.isPart d = true)
    (hafter : ∀ d ∈ after.head?, l.isPart d = false) (hs : s.cursor.ahead = w.toList ++ after) :
    Done (name l s) w after := by
  have hpeek : s.cursor.peek? = some c := by rw [peek?_of_ahead hs, hw, List.cons_append,
    List.head?_cons]
  have htaken : s.cursor.ahead.takeWhile l.isPart = w.toList := by
    rw [hs, takeWhile_append_of_head hafter, List.takeWhile_eq_self_iff.mpr hall]
  rw [name_of_isStart hpeek hstart, htaken, String.ofList_toList]
  exact ⟨_, rfl, ahead_advance_of_append hs⟩

theorem isPart_of_isWord (hw : IsWord w) : ∀ d ∈ w.toList, letters.isPart d = true := by
  obtain ⟨c, rest, hc, hstart, hrest⟩ := hw
  intro d hd
  rw [hc] at hd
  rcases List.mem_cons.mp hd with rfl | hd
  · exact isPart_of_isStart hstart
  · exact hrest d hd

theorem name_done (hw : IsWord w) (hafter : ∀ c ∈ after.head?, letters.isPart c = false)
    (hs : s.cursor.ahead = w.toList ++ after) : Done (name letters s) w after := by
  obtain ⟨c, rest, hc, hstart, -⟩ := id hw
  exact name_done_of_letters hc hstart (isPart_of_isWord hw) hafter hs

theorem exponent_munch_append {xs : List Char}
    (hafter : ∀ c ∈ after.head?, c.isDigit = false ∧ c ∉ ['e', 'E', '+', '-', '.']) :
    Exponent.munch (xs ++ after) = ((Exponent.munch xs).1, (Exponent.munch xs).2 ++ after) := by
  have hdigit : ∀ c ∈ after.head?, c.isDigit = false := fun c hc => (hafter c hc).1
  cases after with
  | nil => simp
  | cons c rest =>
    obtain ⟨hcdigit, hc⟩ := hafter c rfl
    simp only [List.mem_cons, not_or] at hc
    cases xs with
    | nil => simp [Exponent.munch, hc]
    | cons m xs =>
      by_cases hm : m = 'e' ∨ m = 'E'
      · cases xs with
        | nil => simp [Exponent.munch, hm, hc, hcdigit]
        | cons d xs =>
          by_cases hd : d = '+' ∨ d = '-'
          · simp only [List.cons_append, Exponent.munch, hm, hd, if_true,
              takeWhile_append_of_head hdigit, dropWhile_append_of_head hdigit]
          · simp only [List.cons_append, Exponent.munch, hm, hd, if_true, if_false]
            rw [← List.cons_append, takeWhile_append_of_head hdigit,
              dropWhile_append_of_head hdigit]
      · simp [Exponent.munch, hm]

theorem munchFraction_append {xs : List Char}
    (hafter : ∀ c ∈ after.head?, c.isDigit = false ∧ c ∉ ['e', 'E', '+', '-', '.']) :
    Numeral.munchFraction (xs ++ after) =
      ((Numeral.munchFraction xs).1, (Numeral.munchFraction xs).2 ++ after) := by
  have hdigit : ∀ c ∈ after.head?, c.isDigit = false := fun c hc => (hafter c hc).1
  cases xs with
  | nil =>
    cases after with
    | nil => rfl
    | cons c rest =>
      have hc := (hafter c rfl).2
      simp only [List.mem_cons, not_or] at hc
      unfold Numeral.munchFraction
      split <;> simp_all
  | cons x xs =>
    by_cases hx : x = '.'
    · subst hx
      simp only [List.cons_append, Numeral.munchFraction, takeWhile_append_of_head hdigit,
        dropWhile_append_of_head hdigit]
    · unfold Numeral.munchFraction
      split <;> simp_all

theorem munch_append {xs : List Char}
    (hafter : ∀ c ∈ after.head?, c.isDigit = false ∧ c ∉ ['e', 'E', '+', '-', '.']) :
    Numeral.munch (xs ++ after) = ((Numeral.munch xs).1, (Numeral.munch xs).2 ++ after) := by
  have hdigit : ∀ c ∈ after.head?, c.isDigit = false := fun c hc => (hafter c hc).1
  unfold Numeral.munch
  simp only [takeWhile_append_of_head hdigit, dropWhile_append_of_head hdigit,
    munchFraction_append hafter, exponent_munch_append hafter]

/-- A numeral is read up to a character that neither goes on with it nor begins a name, or up to a
colon in a branch. -/
theorem numeral_done_of_stops {l : Letters} {x : Binary64} (hw : Numeral.read? w.toList = some x)
    (hafter : ∀ c ∈ after.head?, c.isDigit = false ∧ c ∉ ['e', 'E', '+', '-', '.'])
    (hstops : ∀ c ∈ after.head?, c = ':' ∧ s.inBranch = true ∨ l.isStart c = false)
    (hs : s.cursor.ahead = w.toList ++ after) :
    Done (numeral l s) (.literal (.number x) w) after := by
  unfold Numeral.read? at hw
  split at hw
  · rename_i n hmunch
    split at hw
    · rename_i hcomplete
      have hrest : Numeral.munch s.cursor.ahead = (n, after) := by
        rw [hs, munch_append hafter, hmunch, List.nil_append]
      have htext : n.text = w.toList := by
        have := Numeral.text_munch w.toList
        rwa [hmunch, List.append_nil] at this
      have hadvance : (s.cursor.advance n.text.length).ahead = after :=
        ahead_advance_of_append (by rw [hs, htext])
      have hlacks : n.lacksExponent = false := by
        rw [Numeral.isComplete, Bool.and_eq_true, Bool.not_eq_true'] at hcomplete
        simpa using hcomplete.2
      obtain rfl : n.value = x := by simpa using hw
      unfold numeral
      rw [bind_here_apply, hrest]
      simp only [bind_advance_apply, hlacks, Bool.false_eq_true, if_false]
      have hnumber : ∀ t : State, t.cursor.ahead = after →
          Done (numberOf n s.cursor.index t) (.literal (.number n.value) w) after := by
        intro t ht
        unfold numberOf
        rw [hcomplete, htext, String.ofList_toList]
        exact done_pure ht
      cases hhead : after.head? with
      | none => exact hnumber _ hadvance
      | some c =>
        have hpoint : c ≠ '.' := by
          rintro rfl
          exact (hafter '.' hhead).2 (by decide)
        rcases hstops c hhead with hcolon | hstart
        · simp only [bind_inBranch_apply, hcolon, and_self, if_true]
          exact hnumber _ hadvance
        · simp only [bind_inBranch_apply, hstart, hpoint, Bool.false_eq_true, if_false,
            ite_self]
          exact hnumber _ hadvance
    · cases hw
  · cases hw

theorem numeral_done {x : Binary64} (hw : Numeral.read? w.toList = some x)
    (hafter : ∀ c ∈ after.head?, c ∈ ends) (hs : s.cursor.ahead = w.toList ++ after) :
    Done (numeral letters s) (.literal (.number x) w) after := by
  have hends : ∀ c ∈ ends, (c.isDigit = false ∧ c ∉ ['e', 'E', '+', '-', '.']) ∧
      letters.isStart c = false := forall_mem_of_all (by decide)
  exact numeral_done_of_stops hw (fun c hc => (hends c (hafter c hc)).1)
    (fun c hc => .inr (hends c (hafter c hc)).2) hs

theorem scan_append {quote : Char} {cs : List Char}
    (h : (Quotation.scan quote cs).closed = true) (after : List Char) :
    Quotation.scan quote (cs ++ after) = Quotation.scan quote cs := by
  fun_induction Quotation.scan quote cs with
  | case1 => cases h
  | case2 rest =>
    rw [List.cons_append, Quotation.scan.eq_def]
    simp only [if_true]
  | case3 => cases h
  | case4 e rest q hquote ih =>
    rw [List.cons_append, List.cons_append, Quotation.scan.eq_def]
    simp only [hquote, if_false, if_true, ih h]
    rfl
  | case5 c rest hquote hescape q ih =>
    rw [List.cons_append, Quotation.scan.eq_def]
    simp only [hquote, hescape, if_false, ih h]
    rfl

/-- A text between quotes is read whole, whatever stands behind it. -/
theorem quotation_done {quote : Char} {value raw : String} (hquote : quote = '"' ∨ quote = '\'')
    (h : IsText quote value.toList raw.toList) (hs : s.cursor.ahead = raw.toList ++ after) :
    Done (quotation s) (value, raw) after := by
  obtain ⟨body, hraw, hbody, hvalue⟩ := h
  have hescape : quote ≠ '\\' := by rcases hquote with rfl | rfl <;> decide
  have hscan := scan_unquoted hescape hbody after
  have hahead : s.cursor.ahead = quote :: (body ++ quote :: after) := by
    rw [hs, hraw, List.cons_append, List.append_assoc, List.singleton_append]
  have hadvance : (s.cursor.advance ((body ++ [quote]).length + 1)).ahead = after := by
    rw [← List.length_cons (a := quote), ← hraw]
    exact ahead_advance_of_append hs
  unfold quotation
  rw [bind_here_apply, hahead]
  simp only [bind_advance_apply, hscan, if_true, ← hraw, ← hvalue, String.ofList_toList]
  exact done_pure hadvance

/-- Nothing that may end an expression or begin a name is taken for a binary operator. -/
theorem binaryOperator_done_none {g : Grammar} (hg : g.operators = .standard) {rest : List Char}
    (hs : s.cursor.ahead.dropWhile isBlank = rest)
    (hrest : ∀ c ∈ rest.head?, c ∈ marks ∨ letters.isPart c = true) :
    Done (binaryOperator g s) none rest := by
  have hskip : s.cursor.skipBlanks.ahead = rest := by rw [Cursor.ahead_skipBlanks, hs]
  have hnone : OperatorTable.standard.binaryAt?
      (rest.take OperatorTable.standard.longestBinary) = none := binaryAt?_eq_none_of_head hrest
  unfold binaryOperator
  simp only [bind_skipBlanks_apply, bind_here_apply, hskip, hg, hnone]
  exact done_pure hskip

/-- An operator is passed up to the blank after it. -/
theorem binaryOperator_done_some {operator : String} {precedence : Int} {rest : List Char}
    (hmem : (operator, precedence) ∈ OperatorTable.standardBinary)
    (hs : s.cursor.ahead.dropWhile isBlank = operator.toList ++ ' ' :: rest) :
    Done (binaryOperator .standard s) (some (operator, precedence)) (' ' :: rest) := by
  have hskip : s.cursor.skipBlanks.ahead = operator.toList ++ ' ' :: rest := by
    rw [Cursor.ahead_skipBlanks, hs]
  have hsome : Grammar.standard.operators.binaryAt?
      ((operator.toList ++ ' ' :: rest).take Grammar.standard.operators.longestBinary) =
        some (operator, precedence) := binaryAt?_of_mem hmem rest
  unfold binaryOperator
  simp only [bind_skipBlanks_apply, bind_here_apply, hskip, hsome]
  rw [bind_advance_apply]
  exact done_pure (ahead_advance_of_append hskip)

end

end ExprTree.Reading
