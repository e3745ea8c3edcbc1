import ExprTree.Proofs.Results
import ExprTree.Proofs.Sequences
import ExprTree.Proofs.SideBySide

/-!
Blanks around a whole source of the standard grammar. Those at its end change nothing: they are
passed where the rules look for one more expression and find none. Those in front of it are passed
by its first expression, but the statements test for separators before that; so blanks in front of
a separator stand where an expression would have to begin, and are the only ones that matter.
-/

namespace ExprTree.Surrounded

open Parse Standard Reading Printed Results SideBySide

/-- The second place has the text of the first one ahead, and then blanks. At the end of the first
text the blanks may have been passed already. -/
def Trailed (c d : Cursor) : Prop :=
  ∃ blanks, (∀ x ∈ blanks, isBlank x = true) ∧ d.ahead = c.ahead ++ blanks ∧
    (c.ahead ≠ [] → d.passed = c.passed)

section

variable {c d : Cursor} {quote x : Char} {cs blanks : List Char}

theorem Trailed.advance (h : Trailed c d) {n : Nat} (hn : n ≤ c.ahead.length) :
    Trailed (c.advance n) (d.advance n) := by
  obtain ⟨blanks, hblanks, hahead, hpassed⟩ := h
  refine ⟨blanks, hblanks, ?_, fun hne => ?_⟩
  · rw [Cursor.ahead_advance, Cursor.ahead_advance, hahead, List.drop_append_of_le_length hn]
  · have hne' : c.ahead ≠ [] := by
      rintro hnil
      simp [hnil] at hne
    simp only [Cursor.advance, hahead, List.take_append_of_le_length hn, hpassed hne']

theorem Trailed.peek? (h : Trailed c d) (hx : isBlank x = false) :
    d.peek? = some x ↔ c.peek? = some x := by
  obtain ⟨blanks, hblanks, hahead, -⟩ := h
  rw [Cursor.peek?, Cursor.peek?, hahead]
  cases c.ahead with
  | cons y ys => simp
  | nil =>
    have hnot : blanks.head? ≠ some x := by
      intro hhead
      rw [hblanks x (List.mem_of_head? hhead)] at hx
      cases hx
    simpa using hnot

theorem Trailed.peek?_of_some (h : Trailed c d) (hx : c.peek? = some x) : d.peek? = some x := by
  obtain ⟨blanks, -, hahead, -⟩ := h
  obtain ⟨rest, hrest⟩ := List.head?_eq_some_iff.mp hx
  rw [Cursor.peek?, hahead, hrest]
  rfl

theorem Trailed.skipBlanks (h : Trailed c d) : Trailed c.skipBlanks d.skipBlanks := by
  obtain ⟨blanks, hblanks, hahead, hpassed⟩ := h
  by_cases hall : ∀ y ∈ c.ahead, isBlank y = true
  · have hc : c.skipBlanks.ahead = [] := by
      rw [Cursor.ahead_skipBlanks, List.dropWhile_eq_nil_iff]
      exact hall
    have hd : d.skipBlanks.ahead = [] := by
      rw [Cursor.ahead_skipBlanks, List.dropWhile_eq_nil_iff, hahead]
      exact List.forall_mem_append.mpr ⟨hall, hblanks⟩
    exact ⟨[], List.forall_mem_nil _, by rw [hc, hd]; rfl, fun hne => absurd hc hne⟩
  · have hsame : d.ahead.takeWhile isBlank = c.ahead.takeWhile isBlank := by
      rw [hahead, List.takeWhile_append, if_neg]
      intro hlength
      have hwhole := (List.takeWhile_prefix isBlank).eq_of_length hlength
      exact hall (List.takeWhile_eq_self_iff.mp hwhole)
    unfold Cursor.skipBlanks
    rw [hsame]
    exact Trailed.advance ⟨blanks, hblanks, hahead, hpassed⟩
      (List.takeWhile_prefix isBlank).length_le

theorem mem_of_closed (h : (Quotation.scan quote cs).closed = true) : quote ∈ cs := by
  fun_induction Quotation.scan quote cs with
  | case1 => cases h
  | case2 rest => exact List.mem_cons_self
  | case3 => cases h
  | case4 e rest q hquote ih =>
    exact List.mem_cons_of_mem _ (List.mem_cons_of_mem _ (ih h))
  | case5 c rest hquote hescape q ih => exact List.mem_cons_of_mem c (ih h)

/-- Blanks do not close a quoted text. -/
theorem scan_append_blanks (hquote : isBlank quote = false)
    (hblanks : ∀ x ∈ blanks, isBlank x = true) :
    (Quotation.scan quote (cs ++ blanks)).closed = (Quotation.scan quote cs).closed := by
  have hopen : ∀ xs, (∀ x ∈ xs, isBlank x = true) →
      (Quotation.scan quote xs).closed = false := by
    intro xs hxs
    by_contra hclosed
    rw [hxs quote (mem_of_closed (by simpa using hclosed))] at hquote
    cases hquote
  fun_induction Quotation.scan quote cs with
  | case1 => exact hopen blanks hblanks
  | case2 rest =>
    rw [List.cons_append, Quotation.scan.eq_def]
    simp only [if_true]
  | case3 hne =>
    cases blanks with
    | nil => simp [Quotation.scan, hne]
    | cons b bs =>
      have hbs := hopen bs (List.forall_mem_cons.mp hblanks).2
      simpa [Quotation.scan, hne] using hbs
  | case4 e rest q hne ih =>
    rw [List.cons_append, List.cons_append, Quotation.scan.eq_def]
    simp only [hne, if_false, if_true, ih]
    rfl
  | case5 c rest hne hescape q ih =>
    rw [List.cons_append, Quotation.scan.eq_def]
    simp only [hne, hescape, if_false, ih]
    rfl

theorem trailed_quotation {s s' : State} (hs : Beside Trailed s s')
    (hpeek : s.cursor.peek? = some quote) (hquote : isBlank quote = false) :
    Aligned Trailed (quotation s) (quotation s') := by
  obtain ⟨rest, hrest⟩ := List.head?_eq_some_iff.mp hpeek
  obtain ⟨⟨blanks, hblanks, hahead, hpassed⟩, hbranch⟩ := hs
  have hahead' : s'.cursor.ahead = quote :: (rest ++ blanks) := by rw [hahead, hrest]; rfl
  have hsame : (Quotation.scan quote (rest ++ blanks)).closed =
      (Quotation.scan quote rest).closed := scan_append_blanks hquote hblanks
  unfold quotation
  rw [bind_here_apply, bind_here_apply, hrest, hahead']
  simp only [bind_advance_apply, hsame]
  by_cases hclosed : (Quotation.scan quote rest).closed = true
  · have hlength : (Quotation.scan quote rest).raw.length + 1 ≤ s.cursor.ahead.length := by
      rw [hrest, List.length_cons]
      exact Nat.succ_le_succ (Cuts.raw_prefix_of_scan quote rest).length_le
    simp only [hclosed, if_true, scan_append hclosed]
    exact ⟨rfl, Trailed.advance ⟨blanks, hblanks, hahead, hpassed⟩ hlength, hbranch⟩
  · simp only [hclosed]
    rfl

end

theorem tracks_trailed : Tracks Trailed where
  peek h hx := h.peek? hx
  step h hpeek _ := h.advance (Continued.length_pos_of_peek? (s := ⟨_, false⟩) hpeek)
  skip h := h.skipBlanks
  previous h hpeek := by
    obtain ⟨-, -, -, hpassed⟩ := h
    rw [Cursor.previous?, Cursor.previous?, hpassed]
    intro hnil
    rw [Cursor.peek?, hnil] at hpeek
    cases hpeek
  quotation hs hpeek hquote := by
    have hblank : ∀ q ∈ ['"', '\''], isBlank q = false := forall_mem_of_all (by decide)
    exact trailed_quotation hs hpeek (hblank _ hquote)
  cut h _ _ hahead htest := h.advance (Cuts.ahead_of_gluedTest? htest hahead).1

section

variable {s s' t : State} {blanks : List Char}

/-- No expression begins at a separator or at the end of a text. -/
theorem expression_none (h : ∀ c ∈ (pastBlanks s).cursor.peek?, c ∈ [';', ',']) :
    rules .expression s = .done none (pastBlanks s) := by
  have hother : ∀ c ∈ [';', ','], (c.isDigit || c == '.') = false ∧ c ≠ '\'' ∧ c ≠ '"' ∧
      (Grammar.standard.letters.isStart c || c == '(') = false ∧ c ≠ '[' ∧
      Grammar.standard.operators.unaryAt? [c] = none := forall_mem_of_all (by decide +kernel)
  have hlongest : Grammar.standard.operators.longestUnary = 1 := by decide +kernel
  have hoperand : rules .operand s = .done none (pastBlanks s) := by
    rw [rules_eq]
    change operand .standard rules s = _
    unfold operand
    rw [bind_skipBlanks_apply, bind_peek_apply]
    cases hpeek : s.cursor.skipBlanks.peek? with
    | none => rfl
    | some c =>
      obtain ⟨rest, hrest⟩ := List.head?_eq_some_iff.mp hpeek
      obtain ⟨hdigit, hsingle, hdouble, hword, hbracket, hunary⟩ := hother c (h c hpeek)
      simp only [hdigit, hsingle, hdouble, hword, hbracket, Bool.false_eq_true, if_false]
      unfold leadingOperator
      rw [bind_here_apply, hrest, hlongest, List.take_succ_cons, List.take_zero, hunary]
      rfl
  rw [rules_eq]
  change expression .standard rules s = _
  have hbinary : Parse.binary .standard rules s = .done none (pastBlanks s) := by
    unfold Parse.binary
    rw [bind_skipBlanks_apply, bind_here_apply]
    exact bind_of_done ((operand_pastBlanks s).trans hoperand) _
  exact bind_of_done hbinary _

/-- An expression passes the blanks in front of it. -/
theorem expression_pastBlanks (s : State) :
    rules .expression (pastBlanks s) = rules .expression s := by
  rw [rules_eq, rules_eq]
  refine bind_congr_apply ?_ _
  unfold Parse.binary
  rw [bind_skipBlanks_apply, bind_skipBlanks_apply]
  exact congrArg _ (pastBlanks_pastBlanks s)

/-- There are no statements in a text of blanks. -/
theorem statements_blank (h : ∀ c ∈ s.cursor.ahead, isBlank c = true) :
    ∃ t, rules .statements s = .done [] t ∧ t.cursor.ahead = [] ∧ t.inBranch = s.inBranch := by
  have hpast : (pastBlanks s).cursor.ahead = [] := by
    rw [ahead_pastBlanks, List.dropWhile_eq_nil_iff]
    exact h
  have hend : (pastBlanks s).cursor.peek? = none := by rw [Cursor.peek?, hpast, List.head?_nil]
  rw [rules_eq]
  cases hpeek : s.cursor.peek? with
  | none => exact ⟨s, statements_of_end hpeek, List.head?_eq_none_iff.mp hpeek, rfl⟩
  | some c =>
    have hc : ¬ (c = ';' ∨ c = ',') := by
      have hblank := h c (List.mem_of_head? hpeek)
      rintro (rfl | rfl) <;> cases hblank
    have hnone := expression_none (s := s) (by simp [hend])
    refine ⟨pastBlanks s, (statements_of_other hpeek hc).trans ?_, hpast, rfl⟩
    refine (bind_of_done hnone _).trans ?_
    simp only [bind_peek_apply, hend]
    rfl

theorem oneMore_trailed {n : Nat} (hs : Beside Trailed s s')
    (hn : oneMore (run .standard n) s ≠ .unfinished)
    (hrest : ∀ {t t' : State}, Beside Trailed t t' →
      run .standard n .statements t ≠ .unfinished →
        Aligned Trailed (run .standard n .statements t) (rules .statements t')) :
    Aligned Trailed (oneMore (run .standard n) s) (oneMore rules s') := by
  unfold oneMore at hn ⊢
  have hne : run .standard n .expression s ≠ .unfinished :=
    fun hunfinished => hn (bind_of_unfinished hunfinished _)
  have hexpression := aligned_run tracks_trailed n .expression nofun s s' hs
  rw [← settled_eq_run isStart_question (mt hexpression.unfinished_iff.mp hne)] at hexpression
  cases hrun : run .standard n .expression s with
  | unfinished => exact absurd hrun hne
  | failed e =>
    rw [hrun] at hexpression
    obtain ⟨e', hrun', hkind⟩ := hexpression.of_failed
    rw [bind_of_failed hrun, bind_of_failed hrun']
    exact hkind
  | done a t =>
    rw [hrun] at hexpression
    obtain ⟨t', hrun', ht⟩ := hexpression.of_done
    rw [bind_of_done hrun] at hn ⊢
    rw [bind_of_done hrun']
    cases a with
    | some e =>
      have hstatements : run .standard n .statements t ≠ .unfinished :=
        fun hunfinished => hn (bind_of_unfinished hunfinished _)
      exact aligned_map (f := (e :: ·)) (hrest ht hstatements)
    | none =>
      -- only blanks were passed, so the same character is next in both texts
      have hpast : t = pastBlanks s := by
        rw [← settled_eq_run isStart_question hne] at hrun
        exact expression_eq_none hrun
      have hpast' : t' = pastBlanks s' := expression_eq_none hrun'
      have hpeek' : t'.cursor.peek? = t.cursor.peek? := by
        rw [hpast, hpast']
        exact tracks_trailed.peek?_skipBlanks hs.1
      simp only [bind_peek_apply, hpeek']
      cases t.cursor.peek? with
      | none => exact aligned_done ht []
      | some d => exact aligned_fail _ t t'

/-- The statements of a text with blanks after it: the same ones, or an error of the same kind. -/
theorem statements_trailed {n : Nat} (hs : Beside Trailed s s')
    (hn : run .standard n .statements s ≠ .unfinished) :
    Aligned Trailed (run .standard n .statements s) (rules .statements s') := by
  induction n generalizing s s' with
  | zero => exact absurd rfl hn
  | succ n ih =>
    change statements (run .standard n) s ≠ .unfinished at hn
    change Aligned Trailed (statements (run .standard n) s) (rules .statements s')
    cases hpeek : s.cursor.peek? with
    | none =>
      have hnil : s.cursor.ahead = [] := List.head?_eq_none_iff.mp hpeek
      obtain ⟨⟨blanks, hblanks, hahead, -⟩, hbranch⟩ := hs
      rw [hnil, List.nil_append] at hahead
      obtain ⟨t, hdone, ht, htbranch⟩ := statements_blank (s := s') (by rwa [hahead])
      rw [statements_of_end hpeek, hdone]
      refine ⟨rfl, ⟨[], List.forall_mem_nil _, ?_, fun hne => absurd hnil hne⟩, ?_⟩
      · rw [ht, hnil, List.nil_append]
      · rw [htbranch, hbranch]
    | some c =>
      have hpeek' := hs.1.peek?_of_some hpeek
      rw [rules_eq]
      change Aligned Trailed _ (statements rules s')
      by_cases hc : c = ';' ∨ c = ','
      · rw [statements_of_separator hpeek hc] at hn ⊢
        rw [statements_of_separator hpeek' hc]
        exact ih ⟨hs.1.advance (Continued.length_pos_of_peek? hpeek), hs.2⟩ hn
      · rw [statements_of_other hpeek hc] at hn ⊢
        rw [statements_of_other hpeek' hc]
        exact oneMore_trailed hs hn ih

end

/-- Sources whose statements are the same have the same tree. -/
theorem parse_eq_ok_congr {source source' : String}
    (h : ∀ ns, (∃ t, rules .statements (.start source') = .done ns t) ↔
      ∃ t, rules .statements (.start source) = .done ns t) {t : Node} :
    Grammar.standard.parse source' = .ok t ↔ Grammar.standard.parse source = .ok t := by
  rw [parse_eq_ok_iff isStart_question, parse_eq_ok_iff isStart_question]
  refine exists_congr fun ns => ?_
  rw [exists_and_right, exists_and_right]
  exact and_congr_left fun _ => h ns

/-- Blanks after a source. -/
theorem parse_append_blanks {source blanks : String}
    (hblanks : ∀ c ∈ blanks.toList, isBlank c = true) {t : Node} :
    Grammar.standard.parse (source ++ blanks) = .ok t ↔ Grammar.standard.parse source = .ok t := by
  have hstart : Beside Trailed (.start source) (.start (source ++ blanks)) :=
    ⟨⟨blanks.toList, hblanks, by simp [State.start, Cursor.start], fun _ => rfl⟩, rfl⟩
  have haligned : Aligned Trailed (rules .statements (.start source))
      (rules .statements (.start (source ++ blanks))) :=
    statements_trailed hstart (settled_ne_unfinished isStart_question _ _)
  exact parse_eq_ok_congr haligned.done_iff

section

variable {source blanks : String} {c : Char} {rest : List Char}

/-- The place in front of a source, after the blanks in front of it. -/
def afterBlanks (blanks source : String) : State :=
  ⟨⟨blanks.toList.reverse, source.toList⟩, false⟩

theorem pastBlanks_afterBlanks (hblanks : ∀ c ∈ blanks.toList, isBlank c = true) :
    pastBlanks (afterBlanks blanks source) = pastBlanks (.start (blanks ++ source)) := by
  have hahead : (State.start (blanks ++ source)).cursor.ahead =
      blanks.toList ++ source.toList := by
    simp [State.start, Cursor.start]
  have hplace : (State.start (blanks ++ source)).cursor.advance blanks.toList.length =
      (afterBlanks blanks source).cursor := by
    simp [State.start, Cursor.start, afterBlanks, Cursor.advance]
  have htaken : (blanks.toList ++ source.toList).takeWhile isBlank =
      blanks.toList ++ source.toList.takeWhile isBlank :=
    List.takeWhile_append_of_pos hblanks
  unfold pastBlanks Cursor.skipBlanks
  rw [hahead, htaken, List.length_append, ← Cursor.advance_advance, hplace]
  rfl

theorem statements_eq_oneMore {s : State} {c : Char} (hpeek : s.cursor.peek? = some c)
    (hc : c ∉ [';', ',']) : rules .statements s = oneMore rules s := by
  rw [rules_eq]
  exact statements_of_other hpeek (by simpa using hc)

/-- The statements of a source with blanks in front of it begin with an expression. -/
theorem statements_prepend_blanks (hblanks : ∀ c ∈ blanks.toList, isBlank c = true)
    (hne : blanks.toList ≠ []) :
    rules .statements (.start (blanks ++ source)) = oneMore rules (afterBlanks blanks source) := by
  obtain ⟨b, bs, hb⟩ := List.exists_cons_of_ne_nil hne
  have hpeek : (State.start (blanks ++ source)).cursor.peek? = some b := by
    simp [State.start, Cursor.start, Cursor.peek?, hb]
  have hnot : b ∉ [';', ','] := by
    intro hmem
    have hblank := hblanks b (by simp [hb])
    have hother : ∀ c ∈ [';', ','], isBlank c = false := forall_mem_of_all (by decide)
    rw [hother b hmem] at hblank
    cases hblank
  rw [statements_eq_oneMore hpeek hnot]
  refine bind_congr_apply ?_ _
  rw [← expression_pastBlanks, ← pastBlanks_afterBlanks hblanks, expression_pastBlanks]

/-- Blanks in front of a source that does not begin with a separator. -/
theorem parse_prepend_blanks (hblanks : ∀ c ∈ blanks.toList, isBlank c = true)
    (hsource : ∀ c ∈ source.toList.head?, c ∉ [';', ',']) {t : Node} :
    Grammar.standard.parse (blanks ++ source) = .ok t ↔ Grammar.standard.parse source = .ok t := by
  cases hhead : source.toList with
  | nil =>
    obtain rfl : source = "" := String.toList_injective hhead
    rw [String.append_empty, ← String.empty_append (s := blanks)]
    exact parse_append_blanks hblanks
  | cons c rest =>
    by_cases hempty : blanks.toList = []
    · obtain rfl : blanks = "" := String.toList_injective hempty
      rw [String.empty_append]
    · have hpeek : (afterBlanks blanks source).cursor.peek? = some c := by
        simp [afterBlanks, Cursor.peek?, hhead]
      have hmatches : Lockstep.Matches [] blanks.toList.reverse
          (rules .statements (.start source)) (rules .statements (afterBlanks blanks source)) :=
        settled_follow isStart_question _ _ .statements _ _ ⟨⟨rfl, [], rfl, rfl⟩, rfl⟩
      refine parse_eq_ok_congr fun ns => ?_
      rw [statements_prepend_blanks hblanks hempty,
        ← statements_eq_oneMore hpeek (hsource c (by rw [hhead]; rfl))]
      exact hmatches.done_iff (settled_ne_unfinished isStart_question _ _) ns

/-- Blanks in front of a separator, with which no expression begins. -/
theorem parse_prepend_blanks_separator (hblanks : ∀ c ∈ blanks.toList, isBlank c = true)
    (hne : blanks ≠ "") (hc : source.toList.head? = some c) (hseparator : c ∈ [';', ',']) :
    Grammar.standard.parse (blanks ++ source) =
      .error (.error ⟨.strayCharacter c, blanks.length⟩) := by
  have hother : ∀ d ∈ [';', ','], isBlank d = false := forall_mem_of_all (by decide)
  have hpeek : (afterBlanks blanks source).cursor.peek? = some c := hc
  have hstays := pastBlanks_of_peek hpeek (hother c hseparator)
  have hnone : rules .expression (afterBlanks blanks source) =
      .done none (afterBlanks blanks source) := by
    have hat := expression_none (s := afterBlanks blanks source)
    rw [hstays, hpeek] at hat
    exact hat (by rintro d ⟨⟩; exact hseparator)
  have hne' : blanks.toList ≠ [] := fun h => hne (String.toList_injective h)
  rw [Sequences.parse_eq_error_iff isStart_question]
  refine (statements_prepend_blanks hblanks hne').trans ((bind_of_done hnone _).trans ?_)
  simp only [bind_peek_apply, hpeek]
  have hindex : (afterBlanks blanks source).cursor.index = blanks.length := by
    simp [afterBlanks, Cursor.index, String.length_toList]
  exact congrArg (fun i => Outcome.failed ⟨.strayCharacter c, i⟩) hindex

/-- Blanks after a source never matter. Blanks in front of it matter exactly if it begins with a
separator: then they are an error at the separator. -/
theorem parse_surrounded (source blanks : String) (t : Node)
    (hblanks : ∀ c ∈ blanks.toList, isBlank c = true) :
    (Grammar.standard.parse (source ++ blanks) = .ok t ↔ Grammar.standard.parse source = .ok t) ∧
    ((∀ c ∈ source.toList.head?, c ∉ [';', ',']) →
      (Grammar.standard.parse (blanks ++ source) = .ok t ↔
        Grammar.standard.parse source = .ok t)) ∧
    ∀ c ∈ source.toList.head?, c ∈ [';', ','] → blanks ≠ "" →
      Grammar.standard.parse (blanks ++ source) =
        .error (.error ⟨.strayCharacter c, blanks.length⟩) :=
  ⟨parse_append_blanks hblanks, fun hsource => parse_prepend_blanks hblanks hsource,
    fun _ hc hseparator hne => parse_prepend_blanks_separator hblanks hne hc hseparator⟩

/-- A blank on either side of a source that begins with a separator. -/
theorem parse_surrounded_separator :
    Grammar.standard.parse ";a" = .ok (.plain "a") ∧
      Grammar.standard.parse (";a" ++ " ") = .ok (.plain "a") ∧
      Grammar.standard.parse (" " ++ ";a") = .error (.error ⟨.strayCharacter ';', 1⟩) := by
  have hblanks : ∀ c ∈ " ".toList, isBlank c = true := forall_mem_of_all (by decide)
  have hsource : Grammar.standard.parse ";a" = .ok (.plain "a") := by decide +kernel
  obtain ⟨hafter, -, hbefore⟩ := parse_surrounded ";a" " " (.plain "a") hblanks
  exact ⟨hsource, hafter.mpr hsource, hbefore ';' rfl (by decide) (by decide)⟩

end

end ExprTree.Surrounded
