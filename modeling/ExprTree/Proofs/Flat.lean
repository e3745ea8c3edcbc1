import ExprTree.Proofs.Lexemes
import ExprTree.Proofs.Standard

/-!
The characters of a source that its tree has to account for: all but the blanks, the brackets, the
separators, the point and the marks of a conditional, and in a double-quoted text every character.
Each lexeme of the standard grammar takes its own characters from the front and leaves the others;
`left` is what a state has still ahead.
-/

namespace ExprTree.Accounting

open Parse Standard Lexemes

/-- Where a character stands to the double-quoted texts of a source. -/
inductive Side where
  | outside
  | inside
  /-- After a backslash in a quoted text. -/
  | escaped

/-- The characters that leave no trace in a tree. -/
def silent : List Char :=
  [' ', '\t', '(', ')', '[', ']', ',', ';', '.', '?', ':']

/-- The characters of a text without the silent ones outside of double-quoted texts. -/
def flat : Side → List Char → List Char
  | _, [] => []
  | .outside, c :: cs =>
    if c = '"' then c :: flat .inside cs
    else if c ∈ silent then flat .outside cs
    else c :: flat .outside cs
  | .inside, c :: cs =>
    c :: flat (if c = '"' then .outside else if c = '\\' then .escaped else .inside) cs
  | .escaped, c :: cs => c :: flat .inside cs

/-- What is still ahead of a place. -/
def left (c : Cursor) : List Char :=
  flat .outside c.ahead

/-- From one place of a text to another the characters `cs` are taken, in their order if `p`. -/
structure Spent (p : Prop) (c d : Cursor) (cs : List Char) : Prop where
  text : d.text = c.text
  perm : (cs ++ left d).Perm (left c)
  ordered : p → cs ++ left d = left c

section

variable {rest : List Char}

theorem flat_append {cs : List Char} (hcs : '"' ∉ cs) :
    flat .outside (cs ++ rest) = cs.filter (· ∉ silent) ++ flat .outside rest := by
  induction cs with
  | nil => rfl
  | cons c cs ih =>
    rw [List.mem_cons, not_or] at hcs
    rw [List.cons_append, flat, if_neg (Ne.symm hcs.1), ih hcs.2]
    split <;> rename_i hc <;> simp [hc]

/-- Characters that are neither quotes nor silent are all kept. -/
theorem flat_kept {cs : List Char} (hcs : ∀ c ∈ cs, c ∉ '"' :: silent) :
    flat .outside (cs ++ rest) = cs ++ flat .outside rest := by
  have hkept : ∀ c ∈ cs, c ≠ '"' ∧ c ∉ silent := fun c hc => by
    simpa only [List.mem_cons, not_or] using hcs c hc
  rw [flat_append fun hquote => (hkept _ hquote).1 rfl, List.filter_eq_self.mpr]
  exact fun c hc => decide_eq_true (hkept c hc).2

theorem flat_silent {c : Char} (hc : c ∈ silent) :
    flat .outside (c :: rest) = flat .outside rest := by
  have hquote : c ≠ '"' := by
    rintro rfl
    revert hc
    decide
  rw [flat, if_neg hquote, if_pos hc]

theorem flat_dropWhile_isBlank (cs : List Char) :
    flat .outside (cs.dropWhile isBlank) = flat .outside cs := by
  induction cs with
  | nil => rfl
  | cons c cs ih =>
    rw [List.dropWhile_cons]
    split
    · rename_i hblank
      have hc : c = ' ' ∨ c = '\t' := by simpa [isBlank] using hblank
      rw [ih, flat_silent (by rcases hc with rfl | rfl <;> decide)]
    · rfl

/-- A quoted text keeps all its characters up to the closing quote. -/
theorem flat_scan {cs : List Char} (hclosed : (Quotation.scan '"' cs).closed = true) :
    flat .inside cs = (Quotation.scan '"' cs).raw ++
      flat .outside (cs.drop (Quotation.scan '"' cs).raw.length) := by
  fun_induction Quotation.scan '"' cs with
  | case1 => cases hclosed
  | case2 cs => rfl
  | case3 => cases hclosed
  | case4 e cs _ _ ih => exact congrArg ('\\' :: e :: ·) (ih hclosed)
  | case5 c cs hquote hslash _ ih =>
    rw [flat, if_neg hquote, if_neg hslash, ih hclosed]
    rfl

/-- The characters of names are neither quotes nor silent. -/
theorem not_mem_of_isPart {c : Char} (hc : letters.isPart c = true) : c ∉ '"' :: silent := by
  have hnone : ∀ d ∈ '"' :: silent, letters.isPart d = false := forall_mem_of_all (by decide)
  intro hmem
  rw [hnone c hmem] at hc
  cases hc

end

section

variable {p q : Prop} {c d e : Cursor} {cs ds : List Char} {s t : State}

theorem Spent.exactly (htext : d.text = c.text) (h : cs ++ left d = left c) : Spent p c d cs :=
  ⟨htext, h ▸ .refl _, fun _ => h⟩

theorem Spent.refl (c : Cursor) : Spent p c c [] :=
  .exactly rfl rfl

theorem Spent.mono (h : Spent p c d cs) (hp : q → p) : Spent q c d cs :=
  ⟨h.text, h.perm, fun hq => h.ordered (hp hq)⟩

theorem Spent.trans (h : Spent p c d cs) (h' : Spent p d e ds) : Spent p c e (cs ++ ds) := by
  refine ⟨h'.text.trans h.text, ?_, fun hp => ?_⟩
  · rw [List.append_assoc]
    exact (h'.perm.append_left cs).trans h.perm
  · rw [List.append_assoc, h'.ordered hp, h.ordered hp]

theorem Spent.exact (h : Spent True c d cs) : Spent p c d cs :=
  h.mono fun _ => trivial

theorem Spent.skip (h : Spent p c d cs) (h' : Spent p d e []) : Spent p c e cs := by
  simpa using h.trans h'

/-- The same characters in another order, which is the right one only under a stronger condition. -/
theorem Spent.reorder (h : Spent p c d cs) (hperm : ds.Perm cs) (hq : q → p ∧ ds = cs) :
    Spent q c d ds := by
  refine ⟨h.text, (hperm.append_right _).trans h.perm, fun hq' => ?_⟩
  obtain ⟨hp, rfl⟩ := hq hq'
  exact h.ordered hp

theorem spent_skipBlanks (c : Cursor) : Spent p c c.skipBlanks [] := by
  refine .exactly c.text_skipBlanks ?_
  rw [List.nil_append, left, Cursor.ahead_skipBlanks, flat_dropWhile_isBlank, left]

theorem spent_silent {x : Char} (hx : c.peek? = some x) (hsilent : x ∈ silent) :
    Spent p c (c.advance 1) [] := by
  refine .exactly (c.text_advance 1) ?_
  obtain ⟨rest, hrest⟩ := List.head?_eq_some_iff.mp hx
  rw [List.nil_append, left, left, Cursor.ahead_advance, hrest, flat_silent hsilent,
    List.drop_succ_cons, List.drop_zero]

theorem spent_kept (hcs : cs <+: c.ahead) (hkept : ∀ x ∈ cs, x ∉ '"' :: silent) :
    Spent p c (c.advance cs.length) cs := by
  refine .exactly (c.text_advance _) ?_
  rw [left, left, Cursor.ahead_advance]
  conv_rhs => rw [← List.prefix_iff_eq_append.mp hcs, flat_kept hkept]

theorem spent_char {x : Char} (hx : c.peek? = some x) (hkept : x ∉ '"' :: silent) :
    Spent p c (c.advance 1) [x] := by
  obtain ⟨rest, hrest⟩ := List.head?_eq_some_iff.mp hx
  have hbegins : [x] <+: c.ahead := ⟨rest, hrest.symm⟩
  exact spent_kept hbegins (by simpa using hkept)

/-- A name of the standard grammar, made of the characters of names. -/
def Worded (w : String) : Prop :=
  ∀ x ∈ w.toList, letters.isPart x = true

theorem spent_name {w : String} (h : name letters s = .done w t) :
    Spent p s.cursor t.cursor w.toList ∧ Worded w := by
  obtain ⟨-, -, -, rfl, rfl⟩ := name_cases h
  have hpart : ∀ x ∈ s.cursor.ahead.takeWhile letters.isPart, letters.isPart x = true :=
    List.all_eq_true.mp List.all_takeWhile
  rw [Worded, String.toList_ofList]
  exact ⟨spent_kept (List.takeWhile_prefix _) fun x hx => not_mem_of_isPart (hpart x hx), hpart⟩

/-- A text in double quotes is spelled as it stands. -/
theorem spent_quotation {value raw : String} (hpeek : s.cursor.peek? = some '"')
    (h : quotation s = .done (value, raw) t) : Spent p s.cursor t.cursor raw.toList := by
  cases (quotation_ends s).of_done h with
  | @closed quote rest hahead hclosed =>
    obtain rfl : quote = '"' := by simpa [Cursor.peek?, hahead] using hpeek
    refine .exactly (s.cursor.text_advance _) ?_
    rw [left, left, Cursor.ahead_advance, hahead, String.toList_ofList, List.drop_succ_cons, flat,
      if_pos rfl, flat_scan hclosed, List.cons_append]

theorem spent_beginning {operator : String} {n : Nat} (hbegins : operator.toList <+: c.ahead.take n)
    (hkept : ∀ x ∈ operator.toList, x ∉ '"' :: silent) :
    Spent p c (c.advance operator.length) operator.toList := by
  rw [← String.length_toList]
  exact spent_kept (hbegins.trans (List.take_prefix n c.ahead)) hkept

/-- The operators of the standard grammar leave all their characters. -/
theorem spent_binaryOperator {o : String × Int}
    (h : binaryOperator .standard s = .done (some o) t) :
    Spent p s.cursor t.cursor o.1.toList := by
  have hall : ∀ o ∈ OperatorTable.standardBinary,
      o.1.toList.all (fun x => decide (x ∉ '"' :: silent)) = true := by decide +kernel
  cases (binaryOperator_ends .standard s).of_done h with
  | operator hop =>
    obtain ⟨hprecedence, hbegins⟩ := OperatorTable.binaryAt?_spec hop
    have hskip : Spent p s.cursor s.cursor.skipBlanks [] := spent_skipBlanks _
    have hkept := forall_mem_of_all (hall _ (mem_of_precedence? hprecedence))
    exact hskip.trans (spent_beginning hbegins hkept)

theorem spent_noOperator (h : binaryOperator .standard s = .done none t) :
    Spent p s.cursor t.cursor [] := by
  cases (binaryOperator_ends .standard s).of_done h with
  | nothing => exact spent_skipBlanks _

theorem spent_unaryAt? {operator : String} {n : Nat}
    (h : OperatorTable.standard.unaryAt? (c.ahead.take n) = some operator) :
    Spent p c (c.advance operator.length) operator.toList := by
  have hunary : OperatorTable.standard.unary = OperatorTable.standardUnary := by decide +kernel
  have hall : ∀ o ∈ OperatorTable.standardUnary,
      o.toList.all (fun x => decide (x ∉ '"' :: silent)) = true := by decide +kernel
  obtain ⟨hregistered, hbegins⟩ := OperatorTable.unaryAt?_spec h
  rw [OperatorTable.isUnary, hunary, List.contains_iff_mem] at hregistered
  exact spent_beginning hbegins (forall_mem_of_all (hall _ hregistered))

/-- The characters that a numeral may have. -/
def IsNumeric (x : Char) : Prop :=
  letters.isPart x = true ∨ x ∈ ['+', '-', '.']

theorem isNumeric_of_mem_takeWhile {cs : List Char} {x : Char}
    (hx : x ∈ cs.takeWhile Char.isDigit) : IsNumeric x :=
  .inl (isPart_of_isDigit (List.all_eq_true.mp List.all_takeWhile x hx))

theorem isNumeric_of_exponent {cs : List Char} {e : Exponent}
    (he : (Exponent.munch cs).1 = some e) : ∀ x ∈ e.text, IsNumeric x := by
  have hmarker : ∀ m, m = 'e' ∨ m = 'E' → IsNumeric m := by
    rintro m (rfl | rfl) <;> exact .inl (by decide)
  have hsign : ∀ y, y = '+' ∨ y = '-' → IsNumeric y := by
    rintro y (rfl | rfl) <;> exact .inr (by decide)
  unfold Exponent.munch at he
  split at he
  · cases he
  · rename_i m after
    split at he
    · rename_i hm
      split at he
      · obtain rfl := Option.some.inj he
        simpa [Exponent.text] using hmarker m hm
      · rename_i y ds
        split at he
        · rename_i hy
          obtain rfl := Option.some.inj he
          simp only [Exponent.text, Option.toList_some, List.singleton_append,
            List.forall_mem_cons]
          exact ⟨hmarker m hm, hsign y hy, fun x hx => isNumeric_of_mem_takeWhile hx⟩
        · obtain rfl := Option.some.inj he
          simp only [Exponent.text, Option.toList_none, List.nil_append, List.forall_mem_cons]
          exact ⟨hmarker m hm, fun x hx => isNumeric_of_mem_takeWhile hx⟩
    · cases he

theorem isNumeric_of_munch (cs : List Char) : ∀ x ∈ (Numeral.munch cs).1.text, IsNumeric x := by
  intro x hx
  simp only [Numeral.munch, Numeral.text, List.mem_append] at hx
  rcases hx with (hwhole | hfraction) | hexponent
  · exact isNumeric_of_mem_takeWhile hwhole
  · unfold Numeral.munchFraction at hfraction
    split at hfraction
    · rcases List.mem_cons.mp hfraction with rfl | hdigit
      · exact .inr (by decide)
      · exact isNumeric_of_mem_takeWhile hdigit
    · cases hfraction
  · cases he : (Exponent.munch (Numeral.munchFraction (cs.dropWhile Char.isDigit)).2).1 with
    | none => simp [he] at hexponent
    | some e =>
      rw [he] at hexponent
      exact isNumeric_of_exponent he x hexponent

/-- Of a numeral all characters but the point are taken. -/
theorem spent_numeral (c : Cursor) :
    Spent p c (c.advance (Numeral.munch c.ahead).1.text.length)
      ((Numeral.munch c.ahead).1.text.filter (· ≠ '.')) := by
  have hnumeric := isNumeric_of_munch c.ahead
  have hsplit := Numeral.text_munch c.ahead
  generalize (Numeral.munch c.ahead).1.text = numeral at *
  have hquote : '"' ∉ numeral := fun h => absurd (hnumeric _ h) (by unfold IsNumeric; decide)
  -- the point is the only silent character among them
  have hfilter : numeral.filter (· ≠ '.') = numeral.filter (· ∉ silent) := by
    refine List.filter_congr fun x hx => decide_eq_decide.mpr ⟨?_, ?_⟩
    · intro hpoint hsilent
      rcases hnumeric x hx with hpart | hmark
      · exact not_mem_of_isPart hpart (List.mem_cons_of_mem _ hsilent)
      · have hall : ∀ y ∈ ['+', '-', '.'], y ∈ silent → y = '.' :=
          forall_mem_of_all (by decide)
        exact hpoint (hall x hmark hsilent)
    · rintro hkept rfl
      exact hkept (by decide)
  refine .exactly (c.text_advance _) ?_
  rw [left, left, Cursor.ahead_advance, hfilter, ← hsplit, List.drop_left, flat_append hquote]

end

end ExprTree.Accounting
