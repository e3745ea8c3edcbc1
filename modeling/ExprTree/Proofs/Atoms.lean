import ExprTree.Proofs.Cuts
import ExprTree.Proofs.Decimals
import ExprTree.Proofs.Descriptions
import ExprTree.Proofs.Printed

/-!
Names and whole numbers where the marks of conditionals may be characters of names. An atom is read
as what it stands for if nothing goes on with it, and as a part of a longer name if a mark does.
What may come after it is the end, a blank, or a mark that is no character of names.
-/

namespace ExprTree.Atoms

open Parse Standard Print Reading Printed Decimals Cuts

/-- The standard grammar, or with marks of conditionals as characters of names. -/
structure Marked (g : Grammar) : Prop where
  operators : g.operators = .standard
  thisWord : g.thisWord = Grammar.standardThisWord
  extra : ∀ c, g.letters.isExtra c = true → c = '?' ∨ c = ':'

/-- A name of the standard grammar, or a whole number. -/
def IsAtom (w : String) : Prop :=
  IsWord w ∨ w.toList ≠ [] ∧ ∀ c ∈ w.toList, c.isDigit = true

/-- What a name or a whole number stands for alone. -/
def atom (w : String) : Node :=
  match Numeral.read? w.toList with
  | some x => .literal (.number x) w
  | none => Grammar.standard.wordNode w

section

variable {g : Grammar} {w : String} {c : Char}

theorem marked_standard : Marked .standard := by
  refine ⟨rfl, rfl, fun c hc => ?_⟩
  cases hc

theorem marked_addLetters {chars : String} (h : ∀ c ∈ chars.toList, c = '?' ∨ c = ':') :
    Marked (Grammar.standard.addLetters chars) := by
  refine ⟨rfl, rfl, fun c hc => ?_⟩
  rcases (Descriptions.isExtra_add _ _ _).mp hc with hmem | hextra
  · exact h c hmem
  · cases hextra

theorem ne_marks_of_isPart (hc : letters.isPart c = true) : c ≠ '?' ∧ c ≠ ':' := by
  constructor
  · rintro rfl
    cases hc
  · rintro rfl
    cases hc

theorem Marked.isStart_eq (hg : Marked g) (hc : c ≠ '?' ∧ c ≠ ':') :
    g.letters.isStart c = letters.isStart c := by
  have hextra : g.letters.isExtra c = false := by
    by_contra hmark
    rcases hg.extra c (by simpa using hmark) with rfl | rfl
    · exact hc.1 rfl
    · exact hc.2 rfl
  have hstandard : letters.isExtra c = false := rfl
  rw [Letters.isStart, Letters.isStart, hextra, hstandard]

theorem Marked.isPart_eq (hg : Marked g) (hc : c ≠ '?' ∧ c ≠ ':') :
    g.letters.isPart c = letters.isPart c := by
  rw [Letters.isPart, Letters.isPart, hg.isStart_eq hc]

theorem Marked.isPart_of (hg : Marked g) (hc : letters.isPart c = true) :
    g.letters.isPart c = true := by
  rw [hg.isPart_eq (ne_marks_of_isPart hc), hc]

theorem Marked.isStart_of (hg : Marked g) (hc : letters.isStart c = true) :
    g.letters.isStart c = true := by
  rw [hg.isStart_eq (ne_marks_of_isPart (isPart_of_isStart hc)), hc]

theorem isBlank_of_isPart (hc : letters.isPart c = true) : isBlank c = false := by
  by_contra hblank
  simp only [isBlank, Bool.not_eq_false, Bool.or_eq_true, beq_iff_eq] at hblank
  rcases hblank with rfl | rfl <;> cases hc

theorem not_separator_of_isPart (hc : letters.isPart c = true) : c ≠ ';' ∧ c ≠ ',' := by
  constructor
  · rintro rfl
    cases hc
  · rintro rfl
    cases hc

theorem IsAtom.isPart (h : IsAtom w) : ∀ d ∈ w.toList, letters.isPart d = true := by
  rcases h with hword | ⟨-, hdigits⟩
  · exact isPart_of_isWord hword
  · exact fun d hd => isPart_of_isDigit (hdigits d hd)

theorem IsAtom.not_mem (h : IsAtom w) (hc : letters.isPart c = false) : c ∉ w.toList := by
  intro hmem
  rw [h.isPart c hmem] at hc
  cases hc

theorem IsAtom.ne_nil (h : IsAtom w) : w.toList ≠ [] := by
  rcases h with ⟨c, rest, hc, -⟩ | ⟨hne, -⟩
  · simp [hc]
  · exact hne

theorem IsAtom.exists_cons (h : IsAtom w) :
    ∃ c rest, w.toList = c :: rest ∧ letters.isPart c = true := by
  obtain ⟨c, rest, hc⟩ := List.exists_cons_of_ne_nil h.ne_nil
  exact ⟨c, rest, hc, h.isPart c (by simp [hc])⟩

/-- A text that begins with an atom has no blank in front. -/
theorem IsAtom.dropWhile (h : IsAtom w) (rest : List Char) :
    (w.toList ++ rest).dropWhile isBlank = w.toList ++ rest := by
  obtain ⟨c, more, hc, hpart⟩ := h.exists_cons
  rw [hc, List.cons_append, dropWhile_isBlank_cons (isBlank_of_isPart hpart)]

theorem IsAtom.dropWhile_self (h : IsAtom w) : w.toList.dropWhile isBlank = w.toList := by
  have hdrop := h.dropWhile []
  rwa [List.append_nil] at hdrop

theorem isAtom_singleton (hc : letters.isStart c = true) : IsAtom (String.singleton c) :=
  .inl ⟨c, [], by simp, hc, by simp⟩

theorem exists_read?_of_digits (hne : w.toList ≠ []) (hdigits : ∀ d ∈ w.toList, d.isDigit = true) :
    ∃ x, Numeral.read? w.toList = some x := by
  have hcomplete : Numeral.isComplete ⟨w.toList, none, none⟩ = true := by
    simpa [Numeral.isComplete, Numeral.mantissa, Numeral.lacksExponent] using hne
  refine ⟨Numeral.value ⟨w.toList, none, none⟩, ?_⟩
  simp only [Numeral.read?, munch_digits hdigits, hcomplete, if_true]

theorem atom_of_isWord (h : IsWord w) : atom w = Grammar.standard.wordNode w := by
  rw [atom, read?_word h]

theorem wordNode_eq_plain_iff :
    Grammar.standard.wordNode w = .plain w ↔ w ∉ ["true", "false", "null", "this"] := by
  have hthis : Grammar.standard.thisWord = "this" := rfl
  unfold Grammar.wordNode Grammar.wordLiteral?
  rw [hthis]
  by_cases htrue : w = "true"
  · simp [htrue, Node.plain]
  · by_cases hfalse : w = "false"
    · simp [hfalse, Node.plain]
    · by_cases hnull : w = "null"
      · simp [hnull, Node.plain]
      · by_cases hreceiver : w = "this" <;> simp [htrue, hfalse, hnull, hreceiver, Node.plain]

/-- Only a name that is no keyword stands for itself. -/
theorem IsAtom.eq_plain_iff (h : IsAtom w) :
    atom w = .plain w ↔ IsWord w ∧ w ∉ ["true", "false", "null", "this"] := by
  rcases h with hword | ⟨hne, hdigits⟩
  · rw [atom_of_isWord hword, wordNode_eq_plain_iff]
    simp [hword]
  · obtain ⟨x, hx⟩ := exists_read?_of_digits hne hdigits
    have hnot : ¬ IsWord w := by
      intro hword
      rw [read?_word hword] at hx
      cases hx
    simp [atom, hx, hnot, Node.plain]

theorem Marked.wordNode_eq (hg : Marked g) : g.wordNode w = Grammar.standard.wordNode w := by
  unfold Grammar.wordNode
  rw [hg.thisWord]
  rfl

/-- A name with a mark in it is no keyword. -/
theorem Marked.wordNode_of_mem (hg : Marked g) (hc : letters.isPart c = false)
    (hmem : c ∈ w.toList) : g.wordNode w = .plain w := by
  rw [hg.wordNode_eq, wordNode_eq_plain_iff]
  have hparts : ∀ v ∈ ["true", "false", "null", "this"], v.toList.all letters.isPart = true :=
    forall_mem_of_all (by decide)
  intro hkeyword
  rw [List.all_eq_true.mp (hparts w hkeyword) c hmem] at hc
  cases hc

end

section

variable {g : Grammar} {rules : Rules} {s : State} {w : String} {c : Char} {n m : Nat}
  {rest after : List Char}

/-- What may come after a name: it does not go on, is not given a value, and has neither links nor
an operator. -/
structure Ended (g : Grammar) (after : List Char) : Prop where
  first : ∀ c ∈ after.head?, g.letters.isPart c = false ∧ c ≠ '='
  visible : ∀ c ∈ (after.dropWhile isBlank).head?, c ∈ marks ∨ letters.isPart c = true

theorem Ended.ne (h : Ended g after) (hc : c ∉ marks ∧ letters.isPart c = false) :
    (after.dropWhile isBlank).head? ≠ some c := by
  intro hhead
  rcases h.visible c hhead with hmark | hpart
  · exact hc.1 hmark
  · rw [hc.2] at hpart
    cases hpart

theorem word_done (hw : w.toList = c :: rest) (hstart : g.letters.isStart c = true)
    (hall : ∀ d ∈ w.toList, g.letters.isPart d = true) (hafter : Ended g after)
    (hs : s.cursor.ahead = w.toList ++ after) :
    Done (word g rules s) (.node (g.wordNode w)) after := by
  refine (name_done_of_letters hw hstart hall (fun d hd => (hafter.first d hd).1) hs).bind
    fun t ht => ?_
  have hvalue : t.cursor.peek? ≠ some '=' := by
    rw [peek?_of_ahead ht]
    exact fun hpeek => (hafter.first '=' hpeek).2 rfl
  simp only [bind_here_apply, hvalue, false_and, if_false]
  exact done_pure ht

theorem links_done (head : Node) (hafter : Ended g after)
    (hs : s.cursor.ahead = after.dropWhile isBlank) :
    Done (links g rules head s) head (after.dropWhile isBlank) := by
  have hperiod := hafter.ne (c := '.') (by decide)
  have hsubscript := hafter.ne (c := '[') (by decide)
  have hcall := hafter.ne (c := '(') (by decide)
  rw [links_eq, bind_peek_apply, peek?_of_ahead hs]
  simp only [hperiod, hsubscript, hcall, if_false]
  exact done_pure hs

theorem primary_done (hw : w.toList = c :: rest) (hstart : g.letters.isStart c = true)
    (hopen : c ≠ '(') (hall : ∀ d ∈ w.toList, g.letters.isPart d = true) (hafter : Ended g after)
    (hs : s.cursor.ahead = w.toList ++ after) :
    Done (run g (m + 2) .primary s) (.node (g.wordNode w)) (after.dropWhile isBlank) := by
  have hpeek : s.cursor.peek? ≠ some '(' := by
    rw [peek?_of_ahead hs, hw]
    simpa using hopen
  change Done (primary g (run g (m + 1)) s) _ _
  unfold primary
  simp only [bind_bind, bind_peek_apply, hpeek, if_false]
  refine (word_done hw hstart hall hafter hs).bind fun t ht => ?_
  refine (skipBlanks_done (by rw [ht])).bind fun u hu => ?_
  exact (links_done _ hafter hu).map Term.node

theorem ofTerm_done (hg : Marked g) (hw : w.toList = c :: rest) (hstart : letters.isStart c = true)
    (s : State) : ofTerm g rules (.node (g.wordNode w)) s = .done (g.wordNode w) s := by
  have hunary : g.operators.isUnary w = false := by
    rw [hg.operators]
    exact isUnary_of_isStart hw hstart
  have hread : Numeral.read? w.toList = none := by
    rw [hw]
    exact read?_eq_none (isDigit_of_isStart hstart) (ne_of_isStart hstart (by decide))
  unfold Grammar.wordNode
  split
  · rfl
  · split
    · rfl
    · unfold ofTerm
      simp only [Node.plain, hunary, hread, Bool.false_eq_true, if_false]
      rfl

/-- A name is an operand as what it stands for, in a marked grammar also with marks in it. -/
theorem operand_of_name (hg : Marked g) (hw : w.toList = c :: rest)
    (hstart : letters.isStart c = true) (hall : ∀ d ∈ w.toList, g.letters.isPart d = true)
    (hafter : Ended g after) (hs : s.cursor.ahead.dropWhile isBlank = w.toList ++ after) :
    Done (run g (m + 3) .operand s) (some (g.wordNode w)) (after.dropWhile isBlank) := by
  have hskip : s.cursor.skipBlanks.ahead = w.toList ++ after := by
    rw [Cursor.ahead_skipBlanks, hs]
  have hpeek : s.cursor.skipBlanks.peek? = some c := by
    rw [peek?_of_ahead hskip, hw, List.cons_append, List.head?_cons]
  change Done (operand g (run g (m + 2)) s) _ _
  unfold operand
  rw [bind_skipBlanks_apply, bind_peek_apply, hpeek]
  simp only
  have hstart' := hg.isStart_of hstart
  have hdigit := isDigit_of_isStart hstart
  have hother : c ∉ ['.', '\'', '"', '('] := not_mem_of_isStart hstart (by decide)
  simp only [List.mem_cons, not_or, List.not_mem_nil, not_false_eq_true, and_true] at hother
  simp only [hdigit, hother, hstart', Bool.or_eq_true, beq_iff_eq, Bool.false_eq_true, false_or,
    true_or, if_false, if_true]
  have hprimary : Done (primaryOperand g (run g (m + 2))
      { s with cursor := s.cursor.skipBlanks }) (g.wordNode w) (after.dropWhile isBlank) := by
    refine (primary_done hw hstart' hother.2.2.2 hall hafter hskip).bind fun t ht => ?_
    have hjoin : joinFollows g.letters t.cursor = false := by
      have hbang := hafter.ne (c := '!') (by decide)
      rw [← ht, ← Cursor.peek?] at hbang
      simp [joinFollows, hbang]
    simp only
    rw [bind_of_done (joinName_of_not_join _ hjoin), ofTerm_done hg hw hstart]
    exact ⟨t, rfl, ht⟩
  exact hprimary.map some

theorem Ended.not_numeral (hg : Marked g) (h : Ended g after) :
    ∀ c ∈ after.head?, c.isDigit = false ∧ c ∉ ['e', 'E', '+', '-', '.'] := by
  intro c hc
  have hpart := (h.first c hc).1
  have hother : c ∉ ['+', '-', '.'] := by
    intro hmem
    have hsign : ∀ d ∈ ['+', '-', '.'], isBlank d = false ∧ d ∉ marks ∧ letters.isPart d = false :=
      forall_mem_of_all (by decide)
    obtain ⟨hblank, hnot⟩ := hsign c hmem
    obtain ⟨more, rfl⟩ := List.head?_eq_some_iff.mp hc
    apply h.ne hnot
    rw [dropWhile_isBlank_cons hblank, List.head?_cons]
  have hletter : c ∉ ['e', 'E'] := by
    intro hmem
    have hparts : ∀ d ∈ ['e', 'E'], letters.isPart d = true := forall_mem_of_all (by decide)
    rw [hg.isPart_of (hparts c hmem)] at hpart
    cases hpart
  constructor
  · by_contra hdigit
    rw [hg.isPart_of (isPart_of_isDigit (by simpa using hdigit))] at hpart
    cases hpart
  · simp only [List.mem_cons, not_or] at hother hletter ⊢
    exact ⟨hletter.1, hletter.2.1, hother⟩

/-- Where digits come first, a numeral is read. -/
theorem operand_of_digits {a : Node} (hg : Marked g) (hne : w.toList ≠ [])
    (hdigits : ∀ d ∈ w.toList, d.isDigit = true)
    (hs : s.cursor.ahead.dropWhile isBlank = w.toList ++ after)
    (h : ∀ t : State, t.cursor.ahead = w.toList ++ after → t.inBranch = s.inBranch →
      Done (numeral g.letters t) a rest) :
    Done (run g (m + 1) .operand s) (some a) rest := by
  obtain ⟨c, more, hc⟩ := List.exists_cons_of_ne_nil hne
  have hskip : s.cursor.skipBlanks.ahead = w.toList ++ after := by rw [Cursor.ahead_skipBlanks, hs]
  have hpeek : s.cursor.skipBlanks.peek? = some c := by
    rw [peek?_of_ahead hskip, hc, List.cons_append, List.head?_cons]
  have hdigit : c.isDigit = true := hdigits c (by simp [hc])
  have hstart : g.letters.isStart c = false := by
    rw [hg.isStart_eq (ne_marks_of_isPart (isPart_of_isDigit hdigit))]
    by_contra hstart
    rw [isDigit_of_isStart (by simpa using hstart)] at hdigit
    cases hdigit
  change Done (operand g (run g m) s) _ _
  unfold operand
  rw [bind_skipBlanks_apply, bind_peek_apply, hpeek]
  simp only [hdigit, Bool.true_or, if_true, numeralOperand, hstart, Bool.false_eq_true, if_false]
  exact (h { s with cursor := s.cursor.skipBlanks } hskip rfl).map some

/-- A name that a whole number begins goes on up to what is no character of names. -/
theorem numeral_glued {l : Letters} {more : List Char} (hdigits : ∀ d ∈ w.toList, d.isDigit = true)
    (hmark : l.isStart '?' = true) (hmore : ∀ d ∈ more, l.isPart d = true)
    (hafter : ∀ d ∈ after.head?, l.isPart d = false)
    (hs : s.cursor.ahead = w.toList ++ '?' :: (more ++ after)) :
    Done (numeral l s) (.plain (w ++ String.ofList ('?' :: more))) after := by
  have hmunch : Numeral.munch s.cursor.ahead =
      (⟨w.toList, none, none⟩, '?' :: (more ++ after)) := by
    rw [hs, munch_append (forall_mem_head?_cons _ (by decide)), munch_digits hdigits,
      List.nil_append]
  have htext : Numeral.text ⟨w.toList, none, none⟩ = w.toList := by simp [Numeral.text]
  have hlacks : Numeral.lacksExponent ⟨w.toList, none, none⟩ = false := rfl
  have hall : w.toList.all l.isPart = true := by
    rw [List.all_eq_true]
    intro d hd
    rw [Letters.isPart, hdigits d hd, Bool.or_true]
  have hpart : ∀ d ∈ (String.ofList ('?' :: more)).toList, l.isPart d = true := by
    rw [String.toList_ofList]
    intro d hd
    rcases List.mem_cons.mp hd with rfl | hd
    · rw [Letters.isPart, hmark, Bool.true_or]
    · exact hmore d hd
  have hadvance : (s.cursor.advance w.toList.length).ahead =
      (String.ofList ('?' :: more)).toList ++ after := by
    rw [ahead_advance_of_append hs, String.toList_ofList, List.cons_append]
  unfold numeral
  rw [bind_here_apply, hmunch]
  simp only [bind_advance_apply, htext, hlacks, Bool.false_eq_true, if_false, List.head?_cons,
    bind_inBranch_apply, Char.reduceEq, false_and, hmark, if_true]
  unfold nameFromNumeral
  rw [if_pos hall]
  refine (name_done_of_letters String.toList_ofList hmark hpart hafter hadvance).bind fun t ht => ?_
  rw [String.ofList_toList]
  exact done_pure ht

/-- An atom that nothing goes on with is an operand as what it stands for. -/
theorem operand_of_atom (hg : Marked g) (h : IsAtom w) (hafter : Ended g after)
    (hs : s.cursor.ahead.dropWhile isBlank = w.toList ++ after) :
    ∃ rest, Done (run g (m + 3) .operand s) (some (atom w)) rest ∧
      rest.dropWhile isBlank = after.dropWhile isBlank := by
  rcases h with hword | ⟨hne, hdigits⟩
  · obtain ⟨c, more, hc, hstart, -⟩ := id hword
    have hall : ∀ d ∈ w.toList, g.letters.isPart d = true :=
      fun d hd => hg.isPart_of (isPart_of_isWord hword d hd)
    have hdone := operand_of_name (m := m) hg hc hstart hall hafter hs
    rw [hg.wordNode_eq, ← atom_of_isWord hword] at hdone
    exact ⟨_, hdone, List.dropWhile_idempotent _ _⟩
  · obtain ⟨x, hx⟩ := exists_read?_of_digits hne hdigits
    have hatom : atom w = .literal (.number x) w := by simp only [atom, hx]
    have hnext : ∀ d ∈ after.head?, g.letters.isStart d = false := by
      intro d hd
      have hpart := (hafter.first d hd).1
      rw [Letters.isPart, Bool.or_eq_false_iff] at hpart
      exact hpart.1
    rw [hatom]
    refine ⟨after, operand_of_digits (m := m + 2) hg hne hdigits hs ?_, rfl⟩
    intro t ht _
    exact numeral_done_of_stops hx (hafter.not_numeral hg) (fun d hd => .inr (hnext d hd)) ht

/-- An atom that is glued to a `?` is an operand as the name that goes on up to what is no character
of names. -/
theorem operand_of_glued {more : List Char} (hg : Marked g) (hmark : g.letters.isStart '?' = true)
    (h : IsAtom w) (hmore : ∀ d ∈ more, g.letters.isPart d = true) (hafter : Ended g after)
    (hs : s.cursor.ahead.dropWhile isBlank = w.toList ++ '?' :: (more ++ after)) :
    ∃ rest,
      Done (run g (m + 3) .operand s) (some (.plain (w ++ String.ofList ('?' :: more)))) rest ∧
      rest.dropWhile isBlank = after.dropWhile isBlank := by
  have hlist : (w ++ String.ofList ('?' :: more)).toList = w.toList ++ '?' :: more := by
    rw [String.toList_append, String.toList_ofList]
  rcases h with hword | ⟨hne, hdigits⟩
  · obtain ⟨c, rest, hc, hstart, -⟩ := id hword
    have hall : ∀ d ∈ (w ++ String.ofList ('?' :: more)).toList, g.letters.isPart d = true := by
      rw [hlist]
      intro d hd
      rcases List.mem_append.mp hd with hd | hd
      · exact hg.isPart_of (isPart_of_isWord hword d hd)
      · rcases List.mem_cons.mp hd with rfl | hd
        · rw [Letters.isPart, hmark, Bool.true_or]
        · exact hmore d hd
    have hfirst : (w ++ String.ofList ('?' :: more)).toList = c :: (rest ++ '?' :: more) := by
      rw [hlist, hc, List.cons_append]
    have hs : s.cursor.ahead.dropWhile isBlank =
        (w ++ String.ofList ('?' :: more)).toList ++ after := by
      rw [hs, hlist, List.append_assoc, List.cons_append]
    have hdone := operand_of_name (m := m) hg hfirst hstart hall hafter hs
    have hmem : '?' ∈ (w ++ String.ofList ('?' :: more)).toList := by simp
    rw [hg.wordNode_of_mem (by decide) hmem] at hdone
    exact ⟨_, hdone, List.dropWhile_idempotent _ _⟩
  · refine ⟨after, operand_of_digits (m := m + 2) hg hne hdigits hs ?_, rfl⟩
    intro t ht _
    exact numeral_glued hdigits hmark hmore (fun d hd => (hafter.first d hd).1) ht

theorem uncut_atom (h : IsAtom w) : Uncut (atom w) := by
  unfold atom
  split
  · exact uncut_of_name?_eq_none rfl
  · exact wordNode_uncut (h.not_mem (by decide))

/-- An atom that nothing goes on with is a whole binary expression. -/
theorem binary_of_atom (hg : Marked g) (h : IsAtom w) (hafter : Ended g after)
    (hs : s.cursor.ahead.dropWhile isBlank = w.toList ++ after) :
    Done (binary g (run g (m + 3)) s) (some (atom w)) (after.dropWhile isBlank) := by
  obtain ⟨rest, hdone, hrest⟩ := operand_of_atom (m := m) hg h hafter
    (s := { s with cursor := s.cursor.skipBlanks }) (dropWhile_skipBlanks hs)
  exact binary_of_operand hg.operators hdone hrest hafter.visible (uncut_atom h)

/-- An atom in front of no `?` is a whole expression. -/
theorem expression_of_atom (hg : Marked g) (h : IsAtom w) (hafter : Ended g after)
    (hquestion : (after.dropWhile isBlank).head? ≠ some '?')
    (hs : s.cursor.ahead.dropWhile isBlank = w.toList ++ after) :
    Done (run g (m + 4) .expression s) (some (atom w)) (after.dropWhile isBlank) := by
  have hrest : ((after.dropWhile isBlank).dropWhile isBlank).head? ≠ some '?' := by
    rwa [List.dropWhile_idempotent]
  have hdone := expression_of_binary (binary_of_atom (m := m) hg h hafter hs) hrest
  rwa [List.dropWhile_idempotent] at hdone

theorem ended_nil : Ended g [] :=
  ⟨by simp, by simp⟩

theorem ended_blank (hg : Marked g)
    (hafter : ∀ d ∈ (after.dropWhile isBlank).head?, d ∈ marks ∨ letters.isPart d = true) :
    Ended g (' ' :: after) := by
  have hblank : g.letters.isPart ' ' = false ∧ ' ' ≠ '=' := by
    rw [hg.isPart_eq (by decide)]
    decide
  refine ⟨forall_mem_head?_cons after hblank, ?_⟩
  rwa [List.dropWhile_cons_of_pos (by decide)]

theorem IsAtom.ended_blank (h : IsAtom w) (hg : Marked g) : Ended g (' ' :: w.toList) := by
  apply Atoms.ended_blank hg
  rw [h.dropWhile_self]
  intro d hd
  exact .inr (h.isPart d (List.mem_of_mem_head? hd))

theorem ended_mark (hc : c ∈ ['?', ':']) (hstart : g.letters.isStart c = false) :
    Ended g (c :: after) := by
  have hall : ∀ d ∈ ['?', ':'], d.isDigit = false ∧ d ≠ '=' ∧ isBlank d = false ∧ d ∈ marks :=
    forall_mem_of_all (by decide)
  obtain ⟨hdigit, hvalue, hblank, hmark⟩ := hall c hc
  constructor
  · refine forall_mem_head?_cons after ⟨?_, hvalue⟩
    rw [Letters.isPart, hstart, hdigit, Bool.or_false]
  · rw [dropWhile_isBlank_cons hblank]
    exact forall_mem_head?_cons after (.inl hmark)

theorem peek?_start {source : String} (hsource : source.toList = c :: rest) :
    (State.start source).cursor.peek? = some c := by
  have hahead : (State.start source).cursor.ahead = c :: rest := hsource
  rw [peek?_of_ahead hahead, List.head?_cons]

/-- A source whose first expression fails has that error. -/
theorem parse_of_failed {source : String} {e : ParseError} (hsource : source.toList = c :: rest)
    (hc : c ≠ ';' ∧ c ≠ ',') (hn : n + 1 ≤ Grammar.rounds source)
    (h : run g n .expression (.start source) = .failed e) :
    g.parse source = .error (.error e) := by
  have hpeek := peek?_start hsource
  have hstatements : run g (n + 1) .statements (.start source) = .failed e :=
    (statements_of_other hpeek (not_or.mpr hc)).trans (bind_of_failed h _)
  have hrun : run g (Grammar.rounds source) .statements (.start source) = .failed e := by
    rw [Lockstep.run_of_le hn (by simp [hstatements]), hstatements]
  rw [Grammar.parse, Grammar.parseWithin, hrun]

/-- A source that is one expression up to its end has that one as its tree. -/
theorem parse_of_expression {source : String} {a : Node} (hsource : source.toList = c :: rest)
    (hc : c ≠ ';' ∧ c ≠ ',') (hn : n + 2 ≤ Grammar.rounds source)
    (h : Done (run g (n + 1) .expression (.start source)) (some a) []) :
    g.parse source = .ok a := by
  obtain ⟨t, hexpression, ht⟩ := h
  have hpeek := peek?_start hsource
  have hend : run g (n + 1) .statements t = .done [] t := statements_of_end (peek?_of_ahead ht)
  have hstatements : run g (n + 2) .statements (.start source) = .done [a] t :=
    (statements_of_other hpeek (not_or.mpr hc)).trans
      ((bind_of_done hexpression _).trans (bind_of_done hend _))
  rw [Grammar.parse, Grammar.parseWithin, Collected.Gives.of_le hn hstatements]
  rfl

end

end ExprTree.Atoms
