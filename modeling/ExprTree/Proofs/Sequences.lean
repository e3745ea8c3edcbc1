import ExprTree.Proofs.BranchMark
import ExprTree.Proofs.Continued
import ExprTree.Proofs.Settled
import ExprTree.Proofs.Shapes

/-!
Two sources of the standard grammar with a semicolon between them. The statements of the first one
are read as they were alone, up to the semicolon; after it the statements of the second one are
read, from another place but with the same text ahead. So the expressions of both come one after the
other, and an error in the second source is the same error further on. Only a blank at the end of
the first source could make a difference: it would stand in front of the semicolon, where an
expression has to begin.
-/

namespace ExprTree

/-- The expressions of a source, taken from its tree. -/
def Node.statements : Node → List Node
  | .compound body => body
  | n => [n]

namespace Sequences

open Parse Standard Lockstep Continued

section

variable {g : Grammar} {ns : List Node} {s t : State}

/-- The statements that a tree is made from, if none of them is a compound. -/
theorem statements_ofStatements (h : ∀ n ∈ ns, n.tag ≠ .compound) :
    (Node.ofStatements ns).statements = ns := by
  unfold Node.ofStatements
  split
  · rename_i n
    have hn := h n List.mem_cons_self
    cases n with
    | compound body => exact absurd rfl hn
    | _ => rfl
  · rfl

theorem tag_of_statements (h : settled g .statements s = .done ns t) :
    ∀ n ∈ ns, n.tag ≠ .compound := by
  intro n hn
  have hregular := Shapes.yields_run g _ h n hn
  exact (hregular n n.self_mem_parts).2

/-- A source has an error exactly if its statements do. -/
theorem parse_eq_error_iff (hq : g.letters.isStart '?' = false) {source : String}
    {e : ParseError} :
    g.parse source = .error (.error e) ↔ settled g .statements (.start source) = .failed e := by
  rw [Grammar.parse, Grammar.parseWithin, run_eq_settled hq (need_start_le source)]
  cases settled g .statements (.start source) <;> simp

/-- More statements after those that were read already. -/
def andThen (ns : List Node) (p : Parse (List Node)) : Parse (List Node) := do
  return ns ++ (← p)

theorem andThen_of_done {p : Parse (List Node)} {ns' : List Node} (h : p s = .done ns' t)
    (ns : List Node) : andThen ns p s = .done (ns ++ ns') t :=
  bind_of_done h _

theorem andThen_of_failed {p : Parse (List Node)} {e : ParseError} (h : p s = .failed e)
    (ns : List Node) : andThen ns p s = .failed e :=
  bind_of_failed h _

theorem andThen_nil (p : Parse (List Node)) : andThen [] p = p :=
  bind_return p

theorem andThen_cons (n : Node) (ns : List Node) (p : Parse (List Node)) :
    (do return n :: (← andThen ns p)) = andThen (n :: ns) p := by
  unfold andThen
  rw [bind_bind]
  rfl

end

/-- Right after a text and a semicolon. -/
def afterText (text rest : List Char) : State :=
  ⟨⟨';' :: text.reverse, rest⟩, false⟩

section

variable {text : List Char} {s : State}

/-- At the end of a text without blanks there, what is skipped is nothing. -/
theorem ahead_eq_nil_of_skipBlanks (hlast : ∀ c ∈ s.cursor.text.getLast?, isBlank c = false)
    (hskip : s.cursor.skipBlanks.ahead = []) : s.cursor.ahead = [] := by
  by_contra hne
  rw [Cursor.ahead_skipBlanks, List.dropWhile_eq_nil_iff] at hskip
  have hmem := List.getLast_mem hne
  have htext : s.cursor.text.getLast? = some (s.cursor.ahead.getLast hne) := by
    rw [Cursor.text, List.getLast?_append_of_ne_nil _ hne, List.getLast?_eq_some_getLast hne]
  have hplain := hlast _ htext
  rw [hskip _ hmem] at hplain
  cases hplain

theorem advance_continued_of_nil (hahead : s.cursor.ahead = []) (htext : s.cursor.text = text)
    (hbranch : s.inBranch = false) (rest : List Char) :
    ({ s with cursor := (s.continued rest).cursor.advance 1 } : State) = afterText text rest := by
  obtain ⟨⟨passed, ahead⟩, branch⟩ := s
  obtain rfl : ahead = [] := hahead
  obtain rfl : branch = false := hbranch
  subst htext
  simp [afterText, State.continued, Cursor.continued, Cursor.advance, Cursor.text]

/-- Statements that end with a text are read alike if a semicolon follows, and after it those of
what goes on. -/
theorem statements_continued (hlast : ∀ c ∈ text.getLast?, isBlank c = false) (rest : List Char)
    {n : Nat} {ns : List Node} {t : State} (htext : s.cursor.text = text)
    (hbranch : s.inBranch = false) (h : run .standard n .statements s = .done ns t) :
    settled .standard .statements (s.continued rest) =
      andThen ns (settled .standard .statements) (afterText text rest) := by
  induction n generalizing s ns with
  | zero => cases h
  | succ n ih =>
    rw [settled_eq isStart_question]
    change statements (settled .standard) (s.continued rest) = _
    cases (Origins.statements_ends (g := .standard) s).of_done h with
    | nothing hend =>
      have hahead := List.head?_eq_none_iff.mp hend
      rw [statements_of_separator (peek?_continued_of_none hend) (.inl rfl), andThen_nil]
      exact congrArg _ (advance_continued_of_nil hahead htext hbranch rest)
    | separator hpeek hc hrest =>
      have hadvance : (s.cursor.continued rest).advance 1 =
          (s.cursor.advance 1).continued rest := advance_continued (length_pos_of_peek? hpeek)
      rw [statements_of_separator (peek?_continued_of_some hpeek) hc,
        ← ih (s := ⟨s.cursor.advance 1, s.inBranch⟩) (by simpa using htext) hbranch hrest]
      exact congrArg (fun c => settled .standard .statements ⟨c, s.inBranch⟩) hadvance
    | blanks hpeek hc hexpression hend =>
      -- only blanks would be left, and the text does not end with one
      rw [(Shapes.yields_run .standard n hexpression).2 rfl] at hend
      have hskip : s.cursor.skipBlanks.ahead = [] := List.head?_eq_none_iff.mp hend
      rw [Cursor.peek?, ahead_eq_nil_of_skipBlanks (htext ▸ hlast) hskip] at hpeek
      cases hpeek
    | @expression c e ns u t hpeek hc hexpression hstatements =>
      have hgoesOn := continues_run rest n .expression (by rintro ⟨⟩) s _ _ hexpression
      have hsettled : settled .standard .expression (s.continued rest) =
          .done (some e) (u.continued rest) := by
        rw [settled_eq_run isStart_question (by rw [hgoesOn]; rintro ⟨⟩), hgoesOn]
      have hcalm := BranchMark.unset_of_expression hexpression hbranch
      have hkept := (Forward.reaches_of_done (Forward.gets_run _ n) hexpression).text
      have hrest := ih (hkept.trans htext) hcalm hstatements
      rw [statements_of_other (peek?_continued_of_some hpeek) hc, ← andThen_cons]
      exact (bind_of_done hsettled _).trans (bind_congr_apply hrest _)

theorem start_continued (a b : String) :
    (State.start a).continued b.toList = State.start (a ++ ";" ++ b) := by
  simp [State.start, Cursor.start, State.continued, Cursor.continued, String.toList_append]

/-- What follows a text and a semicolon is read as it is alone. -/
theorem statements_afterText (text : List Char) (b : String) :
    Matches [] (';' :: text.reverse) (settled .standard .statements (.start b))
      (settled .standard .statements (afterText text b.toList)) := by
  refine settled_follow isStart_question _ _ .statements _ _ ⟨⟨rfl, [], rfl, ?_⟩, rfl⟩
  rfl

/-- If a source has a tree and does not end with a blank, then a semicolon and another source after
it give the expressions of both, or the error of the second source as far behind as it begins. -/
theorem parse_sequence (a b : String) (m : Node) (ha : Grammar.standard.parse a = .ok m)
    (hlast : ∀ c ∈ a.toList.getLast?, isBlank c = false) :
    (∀ n, Grammar.standard.parse b = .ok n → ∃ t, Grammar.standard.parse (a ++ ";" ++ b) = .ok t ∧
      t.statements = m.statements ++ n.statements) ∧
    ∀ e, Grammar.standard.parse b = .error (.error e) →
      Grammar.standard.parse (a ++ ";" ++ b) =
        .error (.error ⟨e.cause, e.index + a.length + 1⟩) := by
  obtain ⟨ms, u, hms, rfl⟩ := (parse_eq_ok_iff isStart_question).mp ha
  have hwhole : settled .standard .statements (.start (a ++ ";" ++ b)) =
      andThen ms (settled .standard .statements) (afterText a.toList b.toList) := by
    rw [← start_continued]
    exact statements_continued hlast b.toList rfl rfl hms
  have hmatches := statements_afterText a.toList b
  constructor
  · intro n hb
    obtain ⟨ns, v, hns, rfl⟩ := (parse_eq_ok_iff isStart_question).mp hb
    rw [hns] at hmatches
    cases hafter : settled .standard .statements (afterText a.toList b.toList) with
    | done ns' w =>
      rw [hafter] at hmatches
      obtain ⟨rfl, -⟩ := hmatches
      rw [andThen_of_done hafter] at hwhole
      refine ⟨_, (parse_eq_ok_iff isStart_question).mpr ⟨_, w, hwhole, rfl⟩, ?_⟩
      rw [statements_ofStatements (tag_of_statements hwhole),
        statements_ofStatements (tag_of_statements hms),
        statements_ofStatements (tag_of_statements hns)]
    | failed e =>
      rw [hafter] at hmatches
      exact hmatches.elim
    | unfinished =>
      rw [hafter] at hmatches
      exact hmatches.elim
  · intro e hb
    rw [(parse_eq_error_iff isStart_question).mp hb] at hmatches
    cases hafter : settled .standard .statements (afterText a.toList b.toList) with
    | failed e' =>
      rw [hafter] at hmatches
      obtain ⟨hcause, hindex⟩ := hmatches
      rw [andThen_of_failed hafter] at hwhole
      have herror : e' = ⟨e.cause, e.index + a.length + 1⟩ := by
        obtain ⟨cause, index⟩ := e'
        simp only [List.length_nil, List.length_cons, List.length_reverse, String.length_toList]
          at hcause hindex
        rw [hcause, ParseError.mk.injEq]
        exact ⟨rfl, by omega⟩
      rw [(parse_eq_error_iff isStart_question).mpr hwhole, herror]
    | done ns w =>
      rw [hafter] at hmatches
      exact hmatches.elim
    | unfinished =>
      rw [hafter] at hmatches
      exact hmatches.elim

end

/-- A name that is cut, so that the text is read again from its middle, before a semicolon. -/
theorem parse_sequence_cut_name :
    let a := "'a?'!c: x' : y"
    let m : Node := .conditional (.plain "'a") (.literal (.string "!c: x") "'!c: x'") (.plain "y")
    (Grammar.standard.parse a = .ok m ∧ ∀ c ∈ a.toList.getLast?, isBlank c = false) ∧
    (∃ t, Grammar.standard.parse (a ++ ";" ++ "p, -q") = .ok t ∧
      t.statements = [m, .plain "p", .unary "-" (.plain "q") true]) ∧
    Grammar.standard.parse (a ++ ";" ++ "p(") =
      .error (.error ⟨.openList .round, 2 + a.length + 1⟩) := by
  intro a m
  have ha : Grammar.standard.parse a = .ok m := by decide +kernel
  have hlast : ∀ c ∈ a.toList.getLast?, isBlank c = false := by
    have hend : a.toList.getLast? = some 'y' := by decide
    rw [hend]
    rintro c ⟨⟩
    rfl
  have hb : Grammar.standard.parse "p, -q" =
      .ok (.compound [.plain "p", .unary "-" (.plain "q") true]) := by decide +kernel
  have he : Grammar.standard.parse "p(" = .error (.error ⟨.openList .round, 2⟩) := by
    decide +kernel
  exact ⟨⟨ha, hlast⟩, (parse_sequence a "p, -q" m ha hlast).1 _ hb,
    (parse_sequence a "p(" m ha hlast).2 _ he⟩

end Sequences

end ExprTree
