import ExprTree.Proofs.Quotations
import ExprTree.Proofs.Surrounded

/-!
Runs of blanks in a source of the standard grammar. `Respaced` exchanges each run of blanks outside
of the texts in double quotes for another run. Without single quotes in the source that changes
neither its tree nor the kind of its error. The rules pass a run as a whole, so they stand in front
of it or behind it in both texts, never inside; `tracks_spaced` says this of every place at once,
and what the rules do there follows as for any two texts that are read side by side.
-/

namespace ExprTree.BlankRuns

open Parse Standard Reading Printed SideBySide QuotedText Quotations

/-- The second text is the first one with each run of blanks outside of quoted texts exchanged for
another run that is not empty. A double quote that opens no quoted text is like any other
character. -/
inductive Respaced : List Char → List Char → Prop
  | nil : Respaced [] []
  | run {blanks blanks' rest rest' : List Char} : blanks ≠ [] → blanks' ≠ [] →
    (∀ x ∈ blanks, isBlank x = true) → (∀ x ∈ blanks', isBlank x = true) →
    (∀ x ∈ rest.head?, isBlank x = false) → Respaced rest rest' →
    Respaced (blanks ++ rest) (blanks' ++ rest')
  | quoted {body rest rest' : List Char} : Unquoted '"' body → Respaced rest rest' →
    Respaced ('"' :: (body ++ '"' :: rest)) ('"' :: (body ++ '"' :: rest'))
  | char {c : Char} {rest rest' : List Char} : isBlank c = false →
    (c = '"' → ¬ ∃ body, Closes '"' rest body) → Respaced rest rest' →
    Respaced (c :: rest) (c :: rest')

/-- Places with respaced texts ahead, both behind a blank or neither. -/
structure Spaced (c d : Cursor) : Prop where
  ahead : Respaced c.ahead d.ahead
  previous : d.previous?.any isBlank = c.previous?.any isBlank
  unquoted : '\'' ∉ c.ahead

section

variable {quote c x : Char} {cs cs' rest rest' blanks : List Char}

theorem closed_plain (hquote : c ≠ quote) (hescape : c ≠ '\\') :
    (Quotation.scan quote (c :: rest)).closed = (Quotation.scan quote rest).closed := by
  rw [Quotation.scan.eq_def]
  simp only [hquote, hescape, if_false]

theorem closed_escape (hquote : '\\' ≠ quote) :
    (Quotation.scan quote ('\\' :: rest)).closed = (Quotation.scan quote rest.tail).closed := by
  rw [Quotation.scan.eq_def]
  simp only [hquote, if_false, if_true]
  cases rest <;> rfl

theorem closed_quote : (Quotation.scan quote (quote :: rest)).closed = true := by
  rw [Quotation.scan.eq_def]
  simp only [if_true]

theorem closed_blanks (hblanks : ∀ x ∈ blanks, isBlank x = true) :
    (Quotation.scan '"' (blanks ++ rest)).closed = (Quotation.scan '"' rest).closed := by
  induction blanks with
  | nil => rfl
  | cons b bs ih =>
    rw [List.forall_mem_cons] at hblanks
    have hnone : ∀ x ∈ ['"', '\\'], isBlank x = false := forall_mem_of_all (by decide)
    have hne : ∀ x ∈ ['"', '\\'], b ≠ x := by
      intro x hx h
      rw [h, hnone x hx] at hblanks
      cases hblanks.1
    rw [List.cons_append, closed_plain (hne _ (by simp)) (hne _ (by simp)), ih hblanks.2]

/-- A quoted text that is open stays open. A backslash takes the character behind it along, so the
texts without their first characters are looked at as well. -/
theorem Respaced.closed (h : Respaced cs cs') :
    ((Quotation.scan '"' cs').closed = true → (Quotation.scan '"' cs).closed = true) ∧
    ((Quotation.scan '"' cs'.tail).closed = true →
      (Quotation.scan '"' cs.tail).closed = true) := by
  induction h with
  | nil => exact ⟨id, id⟩
  | @run blanks blanks' rest rest' hne hne' hblanks hblanks' _ _ ih =>
    obtain ⟨b, bs, rfl⟩ := List.exists_cons_of_ne_nil hne
    obtain ⟨b', bs', rfl⟩ := List.exists_cons_of_ne_nil hne'
    rw [closed_blanks hblanks, closed_blanks hblanks', List.cons_append, List.cons_append,
      List.tail_cons, List.tail_cons, closed_blanks (List.forall_mem_cons.mp hblanks).2,
      closed_blanks (List.forall_mem_cons.mp hblanks').2]
    exact ⟨ih.1, ih.1⟩
  | @quoted body rest rest' hbody _ _ =>
    refine ⟨fun _ => closed_quote, fun _ => ?_⟩
    rw [List.tail_cons, scan_unquoted (by decide) hbody]
  | @char c rest rest' _ _ _ ih =>
    refine ⟨?_, ih.1⟩
    by_cases hquote : c = '"'
    · intro _
      rw [hquote]
      exact closed_quote
    · by_cases hescape : c = '\\'
      · rw [hescape, closed_escape (by decide), closed_escape (by decide)]
        exact ih.2
      · rw [closed_plain hquote hescape, closed_plain hquote hescape]
        exact ih.1

theorem not_blank_of_head? {blanks : List Char} (hne : blanks ≠ [])
    (hblanks : ∀ x ∈ blanks, isBlank x = true) (hx : isBlank x = false) :
    (blanks ++ rest).head? ≠ some x := by
  obtain ⟨b, bs, rfl⟩ := List.exists_cons_of_ne_nil hne
  intro hhead
  obtain rfl : b = x := Option.some.inj hhead
  rw [hblanks b List.mem_cons_self] at hx
  cases hx

theorem Respaced.head? (h : Respaced cs cs') (hx : isBlank x = false) :
    cs'.head? = some x ↔ cs.head? = some x := by
  cases h with
  | nil => rfl
  | run hne hne' hblanks hblanks' _ _ =>
    exact iff_of_false (not_blank_of_head? hne' hblanks' hx) (not_blank_of_head? hne hblanks hx)
  | quoted _ _ => rfl
  | char _ _ _ => rfl

theorem Respaced.eq_nil_iff (h : Respaced cs cs') : cs' = [] ↔ cs = [] := by
  cases h with
  | nil => rfl
  | run hne hne' _ _ _ _ => simp [hne, hne']
  | quoted _ _ => simp
  | char _ _ _ => simp

/-- Behind a character that is neither a blank nor a quote. -/
theorem Respaced.tail (h : Respaced cs cs') (hhead : cs.head? = some x)
    (hx : isSolid x = true) : Respaced cs.tail cs'.tail := by
  cases h with
  | nil => cases hhead
  | run hne _ hblanks _ _ _ =>
    exact absurd hhead (not_blank_of_head? hne hblanks (isBlank_of_isSolid hx))
  | quoted _ _ =>
    cases hhead
    cases hx
  | char _ _ hrest => exact hrest

theorem Respaced.not_blank (h : Respaced cs cs') (hhead : ∀ x ∈ cs.head?, isBlank x = false) :
    ∀ x ∈ cs'.head?, isBlank x = false := by
  cases hcs : cs.head? with
  | none =>
    rw [List.head?_eq_none_iff] at hcs
    rw [h.eq_nil_iff.mpr hcs]
    rintro x ⟨⟩
  | some y =>
    have hy := hhead y hcs
    rw [(h.head? hy).mpr hcs]
    rintro x ⟨⟩
    exact hy

/-- Behind a double quote both texts go on with the same quoted text, or none is closed. -/
theorem Respaced.of_quote {text : List Char} (h : Respaced ('"' :: text) cs') :
    (∃ body rest rest', text = body ++ '"' :: rest ∧ cs' = '"' :: (body ++ '"' :: rest') ∧
      Unquoted '"' body ∧ Respaced rest rest') ∨
    ∃ text', cs' = '"' :: text' ∧ (Quotation.scan '"' text).closed = false ∧
      (Quotation.scan '"' text').closed = false := by
  generalize hcs : '"' :: text = cs at h
  cases h with
  | nil => cases hcs
  | run hne _ hblanks _ _ _ =>
    exact absurd (by rw [← hcs]; rfl) (not_blank_of_head? hne hblanks (x := '"') (by decide))
  | quoted hbody hrest =>
    cases hcs
    exact .inl ⟨_, _, _, rfl, rfl, hbody, hrest⟩
  | char _ hopen hrest =>
    cases hcs
    have hclosed : (Quotation.scan '"' text).closed = false := by
      have hnot := mt (closed_iff (by decide)).mp (hopen rfl)
      simpa using hnot
    refine .inr ⟨_, rfl, hclosed, ?_⟩
    by_contra hclosed'
    rw [hrest.closed.1 (by simpa using hclosed')] at hclosed
    cases hclosed

/-- Both texts begin with a run of blanks, or neither does. -/
theorem Respaced.exists_run (h : Respaced cs cs') :
    ∃ blanks blanks' rest rest', cs = blanks ++ rest ∧ cs' = blanks' ++ rest' ∧
      (∀ x ∈ blanks, isBlank x = true) ∧ (∀ x ∈ blanks', isBlank x = true) ∧
      (blanks' = [] ↔ blanks = []) ∧ (∀ x ∈ rest.head?, isBlank x = false) ∧
      Respaced rest rest' := by
  cases h with
  | nil => exact ⟨[], [], [], [], rfl, rfl, nofun, nofun, Iff.rfl, nofun, .nil⟩
  | run hne hne' hblanks hblanks' hhead hrest =>
    exact ⟨_, _, _, _, rfl, rfl, hblanks, hblanks', iff_of_false hne' hne, hhead, hrest⟩
  | quoted hbody hrest =>
    refine ⟨[], [], _, _, rfl, rfl, nofun, nofun, Iff.rfl, ?_, .quoted hbody hrest⟩
    rintro x ⟨⟩
    decide
  | char hc hopen hrest =>
    refine ⟨[], [], _, _, rfl, rfl, nofun, nofun, Iff.rfl, ?_, .char hc hopen hrest⟩
    rintro x ⟨⟩
    exact hc

end

section

variable {c d : Cursor} {x : Char} {s s' : State}

theorem skipBlanks_of_run {blanks rest : List Char} (hc : c.ahead = blanks ++ rest)
    (hblanks : ∀ x ∈ blanks, isBlank x = true) (hrest : ∀ x ∈ rest.head?, isBlank x = false) :
    c.skipBlanks = ⟨blanks.reverse ++ c.passed, rest⟩ := by
  have hnone : rest.takeWhile isBlank = [] := by
    cases rest with
    | nil => rfl
    | cons x more =>
      have hx := hrest x rfl
      simp [hx]
  have htaken : (blanks ++ rest).takeWhile isBlank = blanks := by
    rw [List.takeWhile_append_of_pos hblanks, hnone, List.append_nil]
  rw [Cursor.skipBlanks, Cursor.advance, hc, htaken, List.take_left, List.drop_left]

theorem Spaced.skip (h : Spaced c d) : Spaced c.skipBlanks d.skipBlanks := by
  obtain ⟨blanks, blanks', rest, rest', hc, hd, hblanks, hblanks', hempty, hhead, hrest⟩ :=
    h.ahead.exists_run
  have hunquoted := h.unquoted
  rw [hc, List.mem_append, not_or] at hunquoted
  rw [skipBlanks_of_run hc hblanks hhead, skipBlanks_of_run hd hblanks' (hrest.not_blank hhead)]
  refine ⟨hrest, ?_, hunquoted.2⟩
  by_cases hnil : blanks = []
  · rw [hnil, hempty.mpr hnil]
    exact h.previous
  · have hlast : ∀ (bs passed : List Char), bs ≠ [] → (∀ x ∈ bs, isBlank x = true) →
        (bs.reverse ++ passed).head?.any isBlank = true := by
      intro bs passed hne hbs
      rw [List.head?_append_of_ne_nil _ (by simpa using hne), List.head?_reverse,
        List.getLast?_eq_some_getLast hne, Option.any_some]
      exact hbs _ (List.getLast_mem hne)
    rw [Cursor.previous?, Cursor.previous?, hlast _ _ hnil hblanks,
      hlast _ _ (mt hempty.mp hnil) hblanks']

/-- Past the same text in front of respaced ones. -/
theorem Spaced.advance (h : Spaced c d) {xs rest rest' : List Char} (hxs : xs ≠ [])
    (hc : c.ahead = xs ++ rest) (hd : d.ahead = xs ++ rest') (hrest : Respaced rest rest') :
    Spaced (c.advance xs.length) (d.advance xs.length) := by
  have hprevious : ∀ (e : Cursor) (more : List Char), e.ahead = xs ++ more →
      (e.advance xs.length).previous? = xs.getLast? := by
    intro e more he
    rw [Cursor.previous?, Cursor.advance, he, List.take_left,
      List.head?_append_of_ne_nil _ (by simpa using hxs), List.head?_reverse]
  have hunquoted := h.unquoted
  rw [hc, List.mem_append, not_or] at hunquoted
  refine ⟨?_, ?_, ?_⟩
  · rwa [ahead_advance_of_append hc, ahead_advance_of_append hd]
  · rw [hprevious c rest hc, hprevious d rest' hd]
  · rw [ahead_advance_of_append hc]
    exact hunquoted.2

theorem Spaced.step (h : Spaced c d) (hpeek : c.peek? = some x) (hx : isSolid x = true) :
    Spaced (c.advance 1) (d.advance 1) := by
  obtain ⟨rest, hc⟩ := List.head?_eq_some_iff.mp hpeek
  obtain ⟨rest', hd⟩ := List.head?_eq_some_iff.mp
    ((h.ahead.head? (isBlank_of_isSolid hx)).mpr hpeek)
  have htail := h.ahead.tail hpeek hx
  rw [hc, hd, List.tail_cons, List.tail_cons] at htail
  exact h.advance (List.cons_ne_nil x []) hc hd htail

/-- A text in double quotes is the same in both texts; an open one is open in both. -/
theorem quotation_spaced (hs : Beside Spaced s s') (hpeek : s.cursor.peek? = some '"') :
    Aligned Spaced (quotation s) (quotation s') := by
  obtain ⟨text, hc⟩ := List.head?_eq_some_iff.mp hpeek
  have hahead := hs.1.ahead
  rw [hc] at hahead
  rcases hahead.of_quote with
    ⟨body, rest, rest', rfl, hd, hbody, hrest⟩ | ⟨text', hd, hopen, hopen'⟩
  · rw [quotation_of_unquoted (by decide) hbody hc, quotation_of_unquoted (by decide) hbody hd]
    have hlength : body.length + 2 = ('"' :: (body ++ ['"'])).length := by simp
    rw [hlength]
    refine ⟨rfl, hs.1.advance (List.cons_ne_nil _ _) ?_ ?_ hrest, hs.2⟩
    · rw [hc, List.cons_append, List.append_assoc, List.singleton_append]
    · rw [hd, List.cons_append, List.append_assoc, List.singleton_append]
  · rw [quotation_of_open hc hopen, quotation_of_open hd hopen']
    rfl

/-- Without single quotes no operand is cut. -/
theorem not_cut {n : Nat} {a : Node} {w : String} {test : List Char} {t : State}
    (hunquoted : '\'' ∉ s.cursor.ahead) (hdone : run .standard n .operand s = .done (some a) t)
    (hname : a.name? = some w) : gluedTest? w.toList ≠ some test := by
  intro htest
  cases n with
  | zero => cases hdone
  | succ n =>
    have hcases := Origins.operand_cases hdone
    rcases Cuts.operand_uncut (Cuts.clears_run n) hcases with huncut | ⟨hpeek, -⟩
    · rw [Cuts.Uncut, hname, Option.getD_some, htest] at huncut
      cases huncut
    · have hmem := List.mem_of_head? hpeek
      rw [Cursor.ahead_skipBlanks] at hmem
      exact hunquoted ((List.dropWhile_suffix isBlank).subset hmem)

theorem tracks_spaced : Tracks Spaced where
  peek h hx := h.ahead.head? hx
  step h hpeek hx := h.step hpeek hx
  skip h := h.skip
  previous h _ := h.previous
  quotation hs hpeek hquote := by
    rcases List.mem_pair.mp hquote with rfl | rfl
    · exact quotation_spaced hs hpeek
    · exact absurd (List.mem_of_head? hpeek) hs.1.unquoted
  cut h hdone hname _ htest := absurd htest (not_cut h.unquoted hdone hname)

/-- The statements do the same, in any number of rounds. -/
theorem statements_spaced (n : Nat) (hs : Beside Spaced s s') :
    Aligned Spaced (run .standard n .statements s) (run .standard n .statements s') := by
  induction n generalizing s s' with
  | zero => trivial
  | succ n ih =>
    change Aligned Spaced (statements (run .standard n) s) (statements (run .standard n) s')
    have hnone : ∀ {c d : Cursor}, Spaced c d → (d.peek? = none ↔ c.peek? = none) := by
      intro c d h
      rw [Cursor.peek?, Cursor.peek?, List.head?_eq_none_iff, List.head?_eq_none_iff]
      exact h.ahead.eq_nil_iff
    unfold statements
    rw [bind_peek_apply, bind_peek_apply]
    cases hpeek : s.cursor.peek? with
    | none =>
      rw [(hnone hs.1).mpr hpeek]
      exact aligned_done hs []
    | some c =>
      obtain ⟨c', hpeek'⟩ := Option.ne_none_iff_exists'.mp (mt (hnone hs.1).mp (by simp [hpeek]))
      rw [hpeek']
      have hsame : ∀ x, isBlank x = false → (c' = x ↔ c = x) := by
        intro x hx
        have hiff := tracks_spaced.peek hs.1 hx
        rwa [hpeek, hpeek', Option.some_inj, Option.some_inj] at hiff
      simp only [hsame ';' (by decide), hsame ',' (by decide)]
      refine aligned_ite (fun hc => ?_) fun _ => ?_
      · have hsolid : isSolid c = true := by rcases hc with rfl | rfl <;> decide
        exact aligned_bind (aligned_advance_one tracks_spaced hs hpeek hsolid)
          fun _ t t' _ ht => ih ht
      · have hrule : Rule.expression ≠ .statements := by
          rintro ⟨⟩
        refine aligned_bind (aligned_run tracks_spaced n .expression hrule s s' hs)
          fun a t t' _ ht => ?_
        cases a with
        | some e => exact aligned_map (f := (e :: ·)) (ih ht)
        | none =>
          simp only [bind_peek_apply]
          cases hend : t.cursor.peek? with
          | none =>
            rw [(hnone ht.1).mpr hend]
            exact aligned_done ht []
          | some d =>
            obtain ⟨d', hend'⟩ := Option.ne_none_iff_exists'.mp
              (mt (hnone ht.1).mp (by simp [hend]))
            rw [hend']
            exact rfl

end

/-- Every text is one of its own exchanges, so there is none that `Respaced` leaves out. -/
theorem respaced_self (cs : List Char) : Respaced cs cs := by
  induction hlength : cs.length using Nat.strong_induction_on generalizing cs with
  | _ n ih =>
    subst hlength
    cases cs with
    | nil => exact .nil
    | cons c rest =>
      by_cases hc : isBlank c = true
      · have hsplit := List.takeWhile_append_dropWhile (p := isBlank) (l := c :: rest)
        have hne : (c :: rest).takeWhile isBlank ≠ [] := by simp [hc]
        have hend : ∀ x ∈ ((c :: rest).dropWhile isBlank).head?, isBlank x = false := by
          intro x hx
          have hhead := List.head?_dropWhile_not isBlank (c :: rest)
          rwa [Option.mem_def.mp hx] at hhead
        have hshorter : ((c :: rest).dropWhile isBlank).length < (c :: rest).length := by
          rw [List.dropWhile_cons_of_pos hc, List.length_cons]
          exact Nat.lt_succ_of_le (List.dropWhile_suffix isBlank).length_le
        have hall : ∀ x ∈ (c :: rest).takeWhile isBlank, isBlank x = true :=
          fun _ => List.mem_takeWhile_imp
        have hrun := Respaced.run hne hne hall hall hend (ih _ hshorter _ rfl)
        rwa [hsplit] at hrun
      · rw [Bool.not_eq_true] at hc
        have hrest := ih rest.length (by simp) rest rfl
        by_cases hquote : c = '"'
        · subst hquote
          by_cases hcloses : ∃ body, Closes '"' rest body
          · obtain ⟨body, hcloses⟩ := hcloses
            obtain ⟨first, hfirst, after, rfl⟩ := exists_unquoted hcloses
            rw [List.append_assoc, List.singleton_append] at ih ⊢
            refine .quoted hfirst (ih after.length ?_ after rfl)
            simp only [List.length_cons, List.length_append]
            omega
          · exact .char hc (fun _ => hcloses) hrest
        · exact .char hc (fun h => absurd h hquote) hrest

/-- Without single quotes, exchanging the runs of blanks outside of texts in double quotes leaves
the tree of a source as it is, and where there is an error its kind. -/
theorem parse_respaced (source source' : String) (hunquoted : '\'' ∉ source.toList)
    (hrespaced : Respaced source.toList source'.toList) :
    (∀ t, Grammar.standard.parse source' = .ok t ↔ Grammar.standard.parse source = .ok t) ∧
    ((∃ t, Grammar.standard.parse source = .ok t) ∨
      ∃ e e', Grammar.standard.parse source = .error (.error e) ∧
        Grammar.standard.parse source' = .error (.error e') ∧
        e'.cause.kind = e.cause.kind) := by
  have hstart : Beside Spaced (.start source) (.start source') :=
    ⟨⟨hrespaced, rfl, hunquoted⟩, rfl⟩
  have haligned : Aligned Spaced (rules .statements (.start source))
      (rules .statements (.start source')) := by
    have hrun := statements_spaced
      (max (Rule.statements.need (.start source)) (Rule.statements.need (.start source'))) hstart
    rwa [run_eq_settled isStart_question (Nat.le_max_left _ _),
      run_eq_settled isStart_question (Nat.le_max_right _ _)] at hrun
  refine ⟨fun t => Surrounded.parse_eq_ok_congr haligned.done_iff, ?_⟩
  cases hsettled : rules .statements (.start source) with
  | done ns t =>
    exact .inl ⟨.ofStatements ns, (parse_eq_ok_iff isStart_question).mpr ⟨ns, t, hsettled, rfl⟩⟩
  | failed e =>
    rw [hsettled] at haligned
    obtain ⟨e', hsettled', hkind⟩ := haligned.of_failed
    refine .inr ⟨e, e', ?_, ?_, hkind⟩
    · exact (Sequences.parse_eq_error_iff isStart_question).mpr hsettled
    · exact (Sequences.parse_eq_error_iff isStart_question).mpr hsettled'
  | unfinished => exact absurd hsettled (settled_ne_unfinished isStart_question _ _)

/-- Two blanks become a tab, one becomes three, and those between the quotes stay. -/
theorem parse_respaced_quoted_blanks :
    Grammar.standard.parse "a\t+   \"x  y\"" =
      .ok (.binary "+" (.plain "a") (.literal (.string "x  y") "\"x  y\"")) := by
  have hbody : Unquoted '"' ['x', ' ', ' ', 'y'] :=
    .plain (by decide) (by decide) (.plain (by decide) (by decide)
      (.plain (by decide) (by decide) (.plain (by decide) (by decide) .nil)))
  have hquote : ∀ x ∈ ('"' :: (['x', ' ', ' ', 'y'] ++ '"' :: [])).head?, isBlank x = false := by
    rintro x ⟨⟩
    decide
  have hright : Respaced ([' '] ++ '"' :: (['x', ' ', ' ', 'y'] ++ '"' :: []))
      ([' ', ' ', ' '] ++ '"' :: (['x', ' ', ' ', 'y'] ++ '"' :: [])) :=
    .run (List.cons_ne_nil ' ' []) (List.cons_ne_nil ' ' [' ', ' '])
      (forall_mem_of_all (by decide)) (forall_mem_of_all (by decide)) hquote (.quoted hbody .nil)
  have hrespaced : Respaced "a  + \"x  y\"".toList "a\t+   \"x  y\"".toList := by
    have hsource : "a  + \"x  y\"".toList =
        'a' :: ([' ', ' '] ++ '+' :: ([' '] ++ '"' :: (['x', ' ', ' ', 'y'] ++ ['"']))) := by
      decide +kernel
    have hsource' : "a\t+   \"x  y\"".toList =
        'a' :: (['\t'] ++ '+' :: ([' ', ' ', ' '] ++ '"' :: (['x', ' ', ' ', 'y'] ++ ['"']))) := by
      decide +kernel
    have hplus : ∀ x ∈ ('+' :: ([' '] ++ '"' :: (['x', ' ', ' ', 'y'] ++ ['"']))).head?,
        isBlank x = false := by
      rintro x ⟨⟩
      decide
    rw [hsource, hsource']
    refine .char (by decide) (fun h => absurd h (by decide)) ?_
    refine .run (List.cons_ne_nil ' ' [' ']) (List.cons_ne_nil '\t' [])
      (forall_mem_of_all (by decide)) (forall_mem_of_all (by decide)) hplus ?_
    exact .char (by decide) (fun h => absurd h (by decide)) hright
  obtain ⟨hsame, -⟩ :=
    parse_respaced "a  + \"x  y\"" "a\t+   \"x  y\"" (by decide +kernel) hrespaced
  exact (hsame _).mpr (by decide +kernel)

end ExprTree.BlankRuns
