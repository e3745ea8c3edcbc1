import ExprTree.Proofs.Settled

/-!
No parse goes on for ever in a grammar whose names have no `?`. The two loops, over the statements
of a source and over the items of a list, are cut into turns, and each turn passes a character.
The rounds that `parse` gives are enough for all that the rules can call before the source ends,
so it comes to the same as with any larger number of rounds.
-/

namespace ExprTree.Termination

open Cursor Parse Outcome Progress

/-- One turn of the loop over the statements: nothing if the loop ends, else the trees it adds. -/
def statementsTurn (rules : Rules) : Parse (Option (List Node)) := do
  match ← peek with
  | none => return none
  | some c =>
    if c = ';' ∨ c = ',' then
      advance 1
      return some []
    else
      match ← rules .expression with
      | some n => return some [n]
      | none =>
        match ← peek with
        | none => return none
        | some c => fail (.strayCharacter c)

/-- One turn of the loop over the items of a list. -/
def itemsTurn (rules : Rules) (bracket : Bracket) : Parse (Option (List Node)) := do
  skipBlanks
  match ← peek with
  | none => fail (.openList bracket)
  | some c =>
    if c = bracket.closing then
      advance 1
      return none
    else if c = ',' then
      advance 1
      return some []
    else
      match ← rules .expression with
      | none | some (.compound _) => fail .noItem
      | some n => return some [n]

/-- A loop: a turn, and all further ones unless it was the last. -/
def loop (turn : Parse (Option (List Node))) (again : Parse (List Node)) : Parse (List Node) := do
  match ← turn with
  | none => return []
  | some ns => return ns ++ (← again)

theorem statements_eq_loop (rules : Rules) :
    statements rules = loop (statementsTurn rules) (rules .statements) := by
  unfold statements loop statementsTurn
  rw [bind_bind]
  refine congrArg (peek >>= ·) (funext fun next => ?_)
  cases next with
  | none => rfl
  | some c =>
    simp only [ite_bind, bind_bind]
    split
    · exact congrArg (advance 1 >>= ·) (funext fun _ => (bind_return _).symm)
    · refine congrArg (rules .expression >>= ·) (funext fun a => ?_)
      cases a with
      | some n => rfl
      | none =>
        rw [bind_bind]
        refine congrArg (peek >>= ·) (funext fun next => ?_)
        cases next <;> rfl

theorem items_eq_loop (rules : Rules) (bracket : Bracket) :
    items rules bracket = loop (itemsTurn rules bracket) (rules (.items bracket)) := by
  unfold items loop itemsTurn
  simp only [bind_bind]
  refine congrArg (skipBlanks >>= ·) (funext fun _ => ?_)
  refine congrArg (peek >>= ·) (funext fun next => ?_)
  cases next with
  | none => rfl
  | some c =>
    simp only [ite_bind, bind_bind]
    split
    · rfl
    · split
      · exact congrArg (advance 1 >>= ·) (funext fun _ => (bind_return _).symm)
      · refine congrArg (rules .expression >>= ·) (funext fun a => ?_)
        rcases a with _ | n
        · rfl
        · cases n <;> rfl

section

variable {rules : Rules} {rounds : Nat}

theorem statementsTurn_ends (h : Advance rules rounds) {s : State} {c : Char}
    (hs : s.cursor.peek? = some c) :
    (statementsTurn rules s).Ends (fun _ t => s.cursor.Passes t.cursor) (fun _ => True) True := by
  unfold statementsTurn
  rw [ends_bind, ends_peek, hs]
  simp only [ends_ite, ends_bind, ends_advance, ends_pure]
  split
  · exact passes_of_peek hs
  · refine (h .expression s).mono ?_ (fun _ h => h) fun _ => trivial
    intro a t ha
    cases a with
    | some n => exact (ha.2 n rfl).1
    | none =>
      rw [ends_bind, ends_peek]
      cases ht : t.cursor.peek? with
      | some c => trivial
      | none =>
        -- no expression began here, but the blanks up to the end of the source were passed
        obtain ⟨rest, hrest⟩ := ahead_of_peek hs
        refine ⟨ha.1, ?_⟩
        rw [List.head?_eq_none_iff.mp ht, hrest]
        exact Nat.zero_lt_succ _

theorem itemsTurn_ends (h : Advance rules rounds) (bracket : Bracket) (s : State) :
    (itemsTurn rules bracket s).Ends (fun _ t => s.cursor.Passes t.cursor) (fun _ => True)
      True := by
  unfold itemsTurn
  simp only [ends_bind, ends_skipBlanks, ends_peek]
  have hskip := s.cursor.reaches_skipBlanks
  cases hs : s.cursor.skipBlanks.peek? with
  | none => trivial
  | some c =>
    have hpass := hskip.trans_passes (passes_of_peek hs)
    simp only [ends_ite, ends_bind, ends_advance, ends_pure]
    split
    · exact hpass
    · split
      · exact hpass
      · refine (h .expression _).mono ?_ (fun _ h => h) fun _ => trivial
        intro a t ha
        rcases a with _ | n
        · trivial
        · have hn := hskip.trans_passes (ha.2 n rfl).1
          cases n <;> trivial

end

/-- Where `?` is no character of names, every source has a tree or an error, and more rounds do not
change it: every turn of the loop over the statements, and of the loop over the items of a list,
passes a character. -/
theorem parse_terminates (g : Grammar) (hq : g.letters.isExtra '?' = false) :
    (∀ source, ((∃ n, g.parse source = .ok n) ∨ ∃ e, g.parse source = .error (.error e)) ∧
      ∀ rounds, Grammar.rounds source ≤ rounds → g.parseWithin rounds source = g.parse source) ∧
    (∀ rounds s a t, s.cursor.peek? ≠ none → statementsTurn (run g rounds) s = .done a t →
      s.cursor.index < t.cursor.index) ∧
    (∀ rounds bracket s a t, itemsTurn (run g rounds) bracket s = .done a t →
      s.cursor.index < t.cursor.index) ∧
    (∀ rules, statements rules = loop (statementsTurn rules) (rules .statements)) ∧
    ∀ rules bracket,
      items rules bracket = loop (itemsTurn rules bracket) (rules (.items bracket)) := by
  have hstart : g.letters.isStart '?' = false := by
    rw [Letters.isStart, hq]
    decide
  refine ⟨fun source => ⟨?_, ?_⟩, ?_, ?_, statements_eq_loop, items_eq_loop⟩
  · rw [Grammar.parse, Grammar.parseWithin, run_eq_settled hstart (need_start_le source)]
    cases hrun : settled g .statements (.start source) with
    | done ns t => exact .inl ⟨_, rfl⟩
    | failed e => exact .inr ⟨e, rfl⟩
    | unfinished => exact absurd hrun (settled_ne_unfinished hstart _ _)
  · intro rounds hrounds
    have hneed := need_start_le source
    rw [Grammar.parse, Grammar.parseWithin, Grammar.parseWithin, run_eq_settled hstart hneed,
      run_eq_settled hstart (Nat.le_trans hneed hrounds)]
  · intro rounds s a t hs hturn
    obtain ⟨c, hc⟩ := Option.ne_none_iff_exists'.mp hs
    exact ((statementsTurn_ends (advance_run hstart rounds) hc).of_done hturn).index_lt
  · intro rounds bracket s a t hturn
    exact ((itemsTurn_ends (advance_run hstart rounds) bracket s).of_done hturn).index_lt

/-- A grammar whose names may have a colon and an at sign. -/
theorem parse_terminates_at_sign :
    (Grammar.standard.addLetters ":@").letters.isExtra '?' = false ∧
      (Grammar.standard.addLetters ":@").parse "a@b ? c:d" ≠ .error .endless := by
  have hq : (Grammar.standard.addLetters ":@").letters.isExtra '?' = false := by decide +kernel
  refine ⟨hq, fun h => ?_⟩
  rcases ((parse_terminates _ hq).1 "a@b ? c:d").1 with ⟨n, hn⟩ | ⟨e, he⟩
  · rw [h] at hn
    cases hn
  · rw [h] at he
    cases he

end ExprTree.Termination
