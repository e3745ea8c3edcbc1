import ExprTree.Proofs.Forward
import ExprTree.Proofs.Glued

/-!
A test and a consequent that are glued with a colon behind them, where both marks of conditionals
are characters of names. All is read as one name first. Without an expression after it the name is
left whole. With one it is cut, and the consequent is read again up to the colon, if it is a number:
a numeral in a branch ends there. A name takes the colon as its last character also then, so the
colon of the conditional is missing.
-/

namespace ExprTree.TrailingColon

open Parse Standard Print Reading Printed Cuts Atoms Glued Cursor

section

variable {g : Grammar} {rules : Rules} {s : State} {n m : Nat}
  {branches rest more after : List Char}

theorem expression_of_nil (hs : s.cursor.ahead = []) :
    ∃ u, run g (m + 2) .expression s = .done none u := by
  have hskip : ∀ c : Cursor, c.ahead = [] → c.skipBlanks.ahead = [] := by
    intro c hc
    rw [ahead_skipBlanks_of_ahead hc, List.dropWhile_nil]
  have hpeek : s.cursor.skipBlanks.skipBlanks.peek? = none :=
    peek?_of_ahead (hskip _ (hskip _ hs))
  have hoperand : run g (m + 1) .operand { s with cursor := s.cursor.skipBlanks } =
      .done none { s with cursor := s.cursor.skipBlanks.skipBlanks } := by
    change operand g (run g m) _ = _
    unfold operand
    rw [bind_skipBlanks_apply, bind_peek_apply, hpeek]
    rfl
  have hbinary : binary g (run g (m + 1)) s =
      .done none { s with cursor := s.cursor.skipBlanks.skipBlanks } := by
    unfold binary
    rw [bind_skipBlanks_apply, bind_here_apply, bind_of_done hoperand]
    rfl
  exact ⟨_, bind_of_done hbinary _⟩

/-- A name that ends in a colon is left whole if no expression follows. -/
theorem binary_of_kept {name : String} {test : List Char} (hg : Marked g)
    (h : Done (rules .operand { s with cursor := s.cursor.skipBlanks }) (some (.plain name)) rest)
    (hrest : rest.dropWhile isBlank = after.dropWhile isBlank) (hafter : Ended g after)
    (htest : gluedTest? name.toList = some test) (hcolon : name.toList.getLast? = some ':')
    (hnone : ∀ u : State, u.cursor.ahead = after.dropWhile isBlank →
      ∃ v, rules .expression u = .done none v) :
    Done (binary g rules s) (some (.plain name)) (after.dropWhile isBlank) := by
  refine binary_of_split hg.operators h hrest hafter.visible fun u hu => ⟨u, ?_, hu⟩
  obtain ⟨v, hexpression⟩ := hnone u hu
  have hlook : lookAhead (rules .expression) u = .done (some none) u := by
    rw [lookAhead, hexpression]
  exact Eq.trans (splitGlued_of_colon htest hcolon hlook) rfl

/-- Where the consequent of a conditional ends in front of no colon, there the colon is missing. The
place is told by the text that is left. -/
theorem expression_of_missing_colon {test consequent : Node} {afterTest afterConsequent : List Char}
    (htest : Done (binary g (run g n) s) (some test) afterTest)
    (hquestion : afterTest.dropWhile isBlank = '?' :: branches)
    (hconsequent : ∀ t : State, t.cursor.ahead = branches → t.inBranch = true →
      Done (run g n .expression t) (some consequent) afterConsequent)
    (hcolon : (afterConsequent.dropWhile isBlank).head? ≠ some ':') :
    ∃ i, run g (n + 1) .expression s = .failed ⟨.noColon, i⟩ ∧
      i + (afterConsequent.dropWhile isBlank).length =
        s.cursor.index + s.cursor.ahead.length := by
  obtain ⟨t, hbinary, ht⟩ := htest
  have hquestion' : t.cursor.skipBlanks.ahead = '?' :: branches := by
    rw [ahead_skipBlanks_of_ahead ht, hquestion]
  let v : State := ⟨t.cursor.skipBlanks.advance 1, true⟩
  have hv : v.cursor.ahead = branches :=
    ahead_advance_one (s := ⟨t.cursor.skipBlanks, true⟩) hquestion'
  obtain ⟨w, hexpression, hw⟩ := hconsequent v hv rfl
  have hpeek : w.cursor.skipBlanks.peek? ≠ some ':' := by
    rwa [peek?_of_ahead (ahead_skipBlanks_of_ahead hw)]
  refine ⟨w.cursor.skipBlanks.index, ?_, ?_⟩
  · change expression g (run g n) s = _
    unfold expression
    have hmark : t.cursor.skipBlanks.peek? = some '?' := peek?_of_ahead hquestion'
    rw [bind_of_done hbinary]
    simp only [bind_skipBlanks_apply, bind_eat_apply, hmark, if_true, bind_setInBranch_apply]
    rw [bind_of_done (require_of_done_some hexpression)]
    simp only [bind_skipBlanks_apply]
    apply bind_of_failed
    simp only [expect, bind_eat_apply, hpeek, if_false]
    rfl
  · have hreach : s.cursor.Reaches t.cursor := by
      have hgets := Forward.gets_binary (Forward.gets_run g n) hbinary
      exact s.cursor.reaches_skipBlanks.trans hgets.1
    have hreach' : v.cursor.Reaches w.cursor :=
      Forward.reaches_of_done (Forward.gets_run g n) hexpression
    have hwhole : s.cursor.Reaches w.cursor.skipBlanks := by
      apply hreach.trans
      apply t.cursor.reaches_skipBlanks.trans
      apply (t.cursor.skipBlanks.reaches_advance 1).trans
      exact hreach'.trans w.cursor.reaches_skipBlanks
    rw [← hwhole.index_add, ahead_skipBlanks_of_ahead hw]

variable {test consequent alternate : String}

/-- A test and a consequent that are glued, with a colon behind them. -/
def glued (test consequent : String) : String :=
  test ++ "?" ++ consequent ++ ":"

theorem toList_glued :
    (glued test consequent).toList = test.toList ++ '?' :: (consequent.toList ++ [':']) := by
  simp [glued]

theorem gluedTest?_glued (hconsequent : IsAtom consequent) :
    gluedTest? (glued test consequent).toList = some test.toList := by
  rw [toList_glued]
  apply gluedTest?_of_not_mem
  · have hnot : '?' ∉ consequent.toList := hconsequent.not_mem (by decide)
    simp [hnot]
  · have hnot : ':' ∉ consequent.toList := hconsequent.not_mem (by decide)
    rw [← List.cons_append, List.dropLast_concat]
    simp [hnot]

theorem getLast?_glued : (glued test consequent).toList.getLast? = some ':' := by
  rw [toList_glued, ← List.cons_append, ← List.append_assoc, List.getLast?_concat]

theorem operand_of_whole (hg : Marked g) (hmark : g.letters.isStart '?' = true)
    (hcolon : g.letters.isStart ':' = true) (htest : IsAtom test) (hconsequent : IsAtom consequent)
    (hafter : Ended g after)
    (hs : s.cursor.ahead.dropWhile isBlank = (glued test consequent).toList ++ after) :
    ∃ rest, Done (run g (m + 3) .operand s) (some (.plain (glued test consequent))) rest ∧
      rest.dropWhile isBlank = after.dropWhile isBlank := by
  have hparts : ∀ d ∈ consequent.toList ++ [':'], g.letters.isPart d = true := by
    intro d hd
    rcases List.mem_append.mp hd with hd | hd
    · exact hg.isPart_of (hconsequent.isPart d hd)
    · rw [List.mem_singleton.mp hd, Letters.isPart, hcolon, Bool.true_or]
  have hname : glued test consequent =
      test ++ String.ofList ('?' :: (consequent.toList ++ [':'])) := by
    rw [← String.toList_inj, toList_glued, String.toList_append, String.toList_ofList]
  rw [hname]
  apply operand_of_glued hg hmark htest hparts hafter
  rw [hs, toList_glued, List.append_assoc, List.cons_append]

theorem expression_of_last (hg : Marked g) (halternate : IsAtom alternate)
    (hs : s.cursor.ahead.dropWhile isBlank = alternate.toList) :
    Done (run g (m + 4) .expression s) (some (atom alternate)) [] := by
  rw [← List.append_nil alternate.toList] at hs
  exact expression_of_atom hg halternate ended_nil (by simp) hs

/-- In a branch a whole number ends in front of a colon. -/
theorem expression_of_number (hg : Marked g) (hne : consequent.toList ≠ [])
    (hdigits : ∀ d ∈ consequent.toList, d.isDigit = true) (hbranch : s.inBranch = true)
    (hs : s.cursor.ahead = consequent.toList ++ ':' :: more) :
    Done (run g (m + 4) .expression s) (some (atom consequent)) (':' :: more) := by
  obtain ⟨x, hx⟩ := exists_read?_of_digits hne hdigits
  have hatom : atom consequent = .literal (.number x) consequent := by simp only [atom, hx]
  have hconsequent : IsAtom consequent := .inr ⟨hne, hdigits⟩
  have hdrop : (':' :: more).dropWhile isBlank = ':' :: more :=
    dropWhile_isBlank_cons (by decide) more
  have htext : s.cursor.ahead.dropWhile isBlank = consequent.toList ++ ':' :: more := by
    rw [hs, hconsequent.dropWhile]
  have hnumeral : ∀ t : State, t.cursor.ahead = consequent.toList ++ ':' :: more →
      t.inBranch = true → Done (numeral g.letters t) (atom consequent) (':' :: more) := by
    intro t ht htbranch
    rw [hatom]
    exact numeral_done_of_stops hx (forall_mem_head?_cons more (by decide))
      (forall_mem_head?_cons more (.inl ⟨rfl, htbranch⟩)) ht
  have hoperand : Done (run g (m + 3) .operand { s with cursor := s.cursor.skipBlanks })
      (some (atom consequent)) (':' :: more) := by
    apply operand_of_digits (m := m + 2) hg hne hdigits (dropWhile_skipBlanks htext)
    intro t ht htbranch
    exact hnumeral t ht (htbranch.trans hbranch)
  have hmark : ∀ d ∈ ((':' :: more).dropWhile isBlank).head?,
      d ∈ marks ∨ letters.isPart d = true := by
    rw [hdrop]
    exact forall_mem_head?_cons more (.inl (by decide))
  have hbinary := binary_of_operand hg.operators hoperand rfl hmark (uncut_atom hconsequent)
  have hdone := expression_of_binary hbinary (by simp [hdrop])
  rwa [hdrop, hdrop] at hdone

/-- A name goes on with the colon, in a branch too. -/
theorem expression_of_longer_name (hg : Marked g) (hcolon : g.letters.isStart ':' = true)
    (hconsequent : IsWord consequent) (hafter : Ended g after)
    (hquestion : (after.dropWhile isBlank).head? ≠ some '?')
    (hs : s.cursor.ahead = consequent.toList ++ ':' :: after) :
    Done (run g (m + 4) .expression s) (some (.plain (consequent ++ ":")))
      (after.dropWhile isBlank) := by
  obtain ⟨c, rest, hc, hstart, -⟩ := id hconsequent
  have hname : (consequent ++ ":").toList = consequent.toList ++ [':'] := String.toList_append
  have hfirst : (consequent ++ ":").toList = c :: (rest ++ [':']) := by
    rw [hname, hc, List.cons_append]
  have hparts : ∀ d ∈ (consequent ++ ":").toList, g.letters.isPart d = true := by
    rw [hname]
    intro d hd
    rcases List.mem_append.mp hd with hd | hd
    · exact hg.isPart_of (isPart_of_isWord hconsequent d hd)
    · rw [List.mem_singleton.mp hd, Letters.isPart, hcolon, Bool.true_or]
  have hatom : IsAtom consequent := .inl hconsequent
  have htext : s.cursor.ahead.dropWhile isBlank = (consequent ++ ":").toList ++ after := by
    rw [hs, hatom.dropWhile, hname, List.append_assoc, List.singleton_append]
  have hoperand := operand_of_name (m := m) (s := { s with cursor := s.cursor.skipBlanks }) hg
    hfirst hstart hparts hafter (dropWhile_skipBlanks htext)
  rw [hg.wordNode_of_mem (c := ':') (by decide) (by simp [hname])] at hoperand
  have huncut : Uncut (.plain (consequent ++ ":")) := by
    have hnot : '?' ∉ consequent.toList := hatom.not_mem (by decide)
    apply uncut_of_not_mem
    rw [hname]
    simp [hnot]
  have hbinary := binary_of_operand hg.operators hoperand (List.dropWhile_idempotent _ _)
    hafter.visible huncut
  have hdone := expression_of_binary hbinary (by rwa [List.dropWhile_idempotent])
  rwa [List.dropWhile_idempotent] at hdone

/-- Where an alternate follows, the name is cut, and the consequent is what comes next. -/
theorem binary_of_alternate (hg : Marked g) (hmark : g.letters.isStart '?' = true)
    (hcolon : g.letters.isStart ':' = true) (htest : IsAtom test) (hconsequent : IsAtom consequent)
    (halternate : IsAtom alternate)
    (hs : s.cursor.ahead = (glued test consequent).toList ++ ' ' :: alternate.toList) :
    Done (binary g (run g (m + 4)) s) (some (.plain test))
      ('?' :: (consequent.toList ++ ':' :: ' ' :: alternate.toList)) := by
  have hafter := halternate.ended_blank hg
  have htext : s.cursor.ahead.dropWhile isBlank =
      (glued test consequent).toList ++ ' ' :: alternate.toList := by
    rw [hs, toList_glued, List.append_assoc, htest.dropWhile]
  obtain ⟨rest, hoperand, hrest⟩ := operand_of_whole (m := m + 1) hg hmark hcolon htest hconsequent
    hafter (s := { s with cursor := s.cursor.skipBlanks }) (dropWhile_skipBlanks htext)
  have hfollows : ∀ u : State, u.cursor.ahead = (' ' :: alternate.toList).dropWhile isBlank →
      ∃ a more, Done (run g (m + 4) .expression u) (some a) more := by
    intro u hu
    rw [List.dropWhile_cons_of_pos (by decide), halternate.dropWhile_self] at hu
    exact ⟨_, _, expression_of_last hg halternate (by rw [hu, halternate.dropWhile_self])⟩
  have hahead : s.cursor.ahead.dropWhile isBlank =
      test.toList ++ '?' :: (consequent.toList ++ ':' :: ' ' :: alternate.toList) := by
    rw [htext, toList_glued]
    simp
  have hcut := binary_of_cut hg hoperand hrest hafter (gluedTest?_glued hconsequent)
    (fun _ => hfollows) hahead
  rwa [String.ofList_toList] at hcut

theorem glued_opens (htest : IsAtom test) (consequent : String) (after : List Char) :
    ∃ c rest, (glued test consequent).toList ++ after = c :: rest ∧ c ≠ ';' ∧ c ≠ ',' := by
  obtain ⟨c, rest, hc, hpart⟩ := htest.exists_cons
  exact ⟨c, _, by rw [toList_glued, hc, List.cons_append, List.cons_append],
    not_separator_of_isPart hpart⟩

theorem parse_of_glued (hg : Marked g) (hmark : g.letters.isStart '?' = true)
    (hcolon : g.letters.isStart ':' = true) (htest : IsAtom test)
    (hconsequent : IsAtom consequent) :
    g.parse (glued test consequent) = .ok (.plain (glued test consequent)) := by
  let s : State := .start (glued test consequent)
  have hs : s.cursor.ahead.dropWhile isBlank = (glued test consequent).toList ++ [] := by
    change (glued test consequent).toList.dropWhile isBlank = _
    rw [List.append_nil, toList_glued, htest.dropWhile]
  obtain ⟨rest, hoperand, hrest⟩ := operand_of_whole (m := 1) hg hmark hcolon htest hconsequent
    ended_nil (s := { s with cursor := s.cursor.skipBlanks }) (dropWhile_skipBlanks hs)
  have hbinary := binary_of_kept hg hoperand hrest ended_nil (gluedTest?_glued hconsequent)
    getLast?_glued fun u hu => expression_of_nil (m := 2) hu
  have hexpression : Done (run g 5 .expression s) (some (.plain (glued test consequent))) [] :=
    expression_of_binary hbinary (by simp)
  obtain ⟨c, more, hc, hfirst⟩ := glued_opens htest consequent []
  rw [List.append_nil] at hc
  exact parse_of_expression hc hfirst (by rw [Grammar.rounds]; omega) hexpression

theorem toList_with_alternate :
    (glued test consequent ++ " " ++ alternate).toList =
      (glued test consequent).toList ++ ' ' :: alternate.toList := by
  simp

theorem parse_of_number (hg : Marked g) (hmark : g.letters.isStart '?' = true)
    (hcolon : g.letters.isStart ':' = true) (htest : IsAtom test) (hne : consequent.toList ≠ [])
    (hdigits : ∀ d ∈ consequent.toList, d.isDigit = true) (halternate : IsAtom alternate) :
    g.parse (glued test consequent ++ " " ++ alternate) =
      .ok (.conditional (.plain test) (atom consequent) (atom alternate)) := by
  let s : State := .start (glued test consequent ++ " " ++ alternate)
  have hbinary : Done (binary g (run g 4) s) (some (.plain test))
      ('?' :: (consequent.toList ++ ':' :: ' ' :: alternate.toList)) :=
    binary_of_alternate hg hmark hcolon htest (.inr ⟨hne, hdigits⟩) halternate
      toList_with_alternate
  have halternateDone : ∀ t : State, t.cursor.ahead = ' ' :: alternate.toList →
      Done (run g 4 .expression t) (some (atom alternate)) [] := by
    intro t ht
    apply expression_of_last hg halternate
    rw [ht, List.dropWhile_cons_of_pos (by decide), halternate.dropWhile_self]
  have hexpression : Done (run g 5 .expression s)
      (some (.conditional (.plain test) (atom consequent) (atom alternate))) [] :=
    expression_of_branches hbinary (dropWhile_isBlank_cons (by decide) _)
      (fun t ht htbranch => expression_of_number hg hne hdigits htbranch ht)
      (dropWhile_isBlank_cons (by decide) _) halternateDone
  obtain ⟨c, more, hc, hfirst⟩ := glued_opens htest consequent (' ' :: alternate.toList)
  rw [← toList_with_alternate] at hc
  exact parse_of_expression hc hfirst (by rw [Grammar.rounds]; omega) hexpression

theorem parse_of_word (hg : Marked g) (hmark : g.letters.isStart '?' = true)
    (hcolon : g.letters.isStart ':' = true) (htest : IsAtom test) (hconsequent : IsWord consequent)
    (halternate : IsAtom alternate) :
    g.parse (glued test consequent ++ " " ++ alternate) =
      .error (.error ⟨.noColon, (glued test consequent).length + 1⟩) := by
  let s : State := .start (glued test consequent ++ " " ++ alternate)
  have hbinary : Done (binary g (run g 4) s) (some (.plain test))
      ('?' :: (consequent.toList ++ ':' :: ' ' :: alternate.toList)) :=
    binary_of_alternate hg hmark hcolon htest (.inl hconsequent) halternate toList_with_alternate
  have hdrop : (' ' :: alternate.toList).dropWhile isBlank = alternate.toList := by
    rw [List.dropWhile_cons_of_pos (by decide), halternate.dropWhile_self]
  have hfirst : ∀ d, letters.isPart d = false → alternate.toList.head? ≠ some d := by
    intro d hd hhead
    exact halternate.not_mem hd (List.mem_of_mem_head? hhead)
  have hconsequentDone : ∀ t : State,
      t.cursor.ahead = consequent.toList ++ ':' :: ' ' :: alternate.toList → t.inBranch = true →
      Done (run g 4 .expression t) (some (.plain (consequent ++ ":"))) alternate.toList := by
    intro t ht _
    have hdone := expression_of_longer_name (m := 0) hg hcolon hconsequent
      (halternate.ended_blank hg) (by rw [hdrop]; exact hfirst '?' (by decide)) ht
    rwa [hdrop] at hdone
  obtain ⟨i, hfailed, hi⟩ := expression_of_missing_colon hbinary
    (dropWhile_isBlank_cons (by decide) _) hconsequentDone (by
      rw [halternate.dropWhile_self]
      exact hfirst ':' (by decide))
  have hlength : s.cursor.index + s.cursor.ahead.length =
      (glued test consequent).length + 1 + alternate.toList.length := by
    change 0 + (glued test consequent ++ " " ++ alternate).toList.length = _
    rw [toList_with_alternate, List.length_append, List.length_cons, String.length_toList]
    omega
  obtain rfl : i = (glued test consequent).length + 1 := by
    rw [halternate.dropWhile_self, hlength] at hi
    omega
  obtain ⟨c, more, hc, hopens⟩ := glued_opens htest consequent (' ' :: alternate.toList)
  rw [← toList_with_alternate] at hc
  exact parse_of_failed hc hopens (by rw [Grammar.rounds]; omega) hfailed

end

/-- Where both marks are characters of names, a glued name that ends in a colon is a name if nothing
comes after it. In front of an atom it is a conditional exactly if its consequent is a number; if
that is a name, the colon is missing right in front of the alternate. -/
theorem parse_trailing_colon (test consequent alternate : String) (htest : IsAtom test)
    (hconsequent : IsAtom consequent) (halternate : IsAtom alternate) :
    let g := Grammar.standard.addLetters "?:"
    let name := glued test consequent
    g.parse name = .ok (.plain name) ∧
      (g.parse (name ++ " " ++ alternate) =
          .ok (.conditional (.plain test) (atom consequent) (atom alternate)) ↔
        ∀ d ∈ consequent.toList, d.isDigit = true) ∧
      (IsWord consequent → g.parse (name ++ " " ++ alternate) =
        .error (.error ⟨.noColon, name.length + 1⟩)) := by
  intro g name
  have hg : Marked g := marked_addLetters (by simp)
  have hmark : g.letters.isStart '?' = true := by decide
  have hcolon : g.letters.isStart ':' = true := by decide
  have hword : IsWord consequent → g.parse (name ++ " " ++ alternate) =
      .error (.error ⟨.noColon, name.length + 1⟩) :=
    fun hword => parse_of_word hg hmark hcolon htest hword halternate
  refine ⟨parse_of_glued hg hmark hcolon htest hconsequent, ⟨?_, ?_⟩, hword⟩
  · intro hparse
    rcases hconsequent with hname | ⟨-, hdigits⟩
    · rw [hword hname] at hparse
      cases hparse
    · exact hdigits
  · intro hdigits
    exact parse_of_number hg hmark hcolon htest hconsequent.ne_nil hdigits halternate

/-- The number ends in front of the colon, and the name does not. -/
theorem parse_trailing_colon_letters :
    let g := Grammar.standard.addLetters "?:"
    g.parse "a?b:" = .ok (.plain "a?b:") ∧
      g.parse "a?1: c" = .ok (.conditional (.plain "a") (atom "1") (.plain "c")) ∧
      g.parse "a?b: c" = .error (.error ⟨.noColon, 5⟩) := by
  intro g
  have ha : IsAtom "a" := isAtom_singleton (c := 'a') (by decide)
  have hb : IsWord "b" := ⟨'b', [], rfl, by decide, by simp⟩
  have hc : IsAtom "c" := isAtom_singleton (c := 'c') (by decide)
  have hone : IsAtom "1" := .inr ⟨by decide, forall_mem_of_all (by decide)⟩
  have hplain : atom "c" = .plain "c" := by decide +kernel
  obtain ⟨hwhole, -, hmissing⟩ := parse_trailing_colon "a" "b" "c" ha (.inl hb) hc
  obtain ⟨-, hnumber, -⟩ := parse_trailing_colon "a" "1" "c" ha hone hc
  rw [hplain] at hnumber
  exact ⟨hwhole, hnumber.mpr (forall_mem_of_all (by decide)), hmissing hb⟩

end ExprTree.TrailingColon
