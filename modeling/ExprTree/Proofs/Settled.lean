import ExprTree.Proofs.Firm
import ExprTree.Proofs.Lockstep

/-!
The rules without rounds, for a grammar whose names have no `?`. With the rounds that it needs a
rule is never left unfinished, and more rounds change nothing; so what it comes to then satisfies
the equations of the rules themselves, see `settled_eq`. These equations are what statements about
whole sources are proved from.
-/

namespace ExprTree

open Parse Progress Lockstep

/-- What a rule comes to with all the rounds that it needs. -/
def settled (g : Grammar) : Rules :=
  fun r s => run g (r.need s) r s

variable {g : Grammar}

theorem settled_ne_unfinished (hq : g.letters.isStart '?' = false) (r : Rule) (s : State) :
    settled g r s ≠ .unfinished :=
  (advance_run hq (r.need s) r s).ne_unfinished (Nat.lt_irrefl _)

theorem run_eq_settled (hq : g.letters.isStart '?' = false) {r : Rule} {s : State} {n : Nat}
    (hn : r.need s ≤ n) : run g n r s = settled g r s :=
  run_of_le hn (settled_ne_unfinished hq r s)

theorem settled_eq_run (hq : g.letters.isStart '?' = false) {r : Rule} {s : State} {n : Nat}
    (h : run g n r s ≠ .unfinished) : settled g r s = run g n r s := by
  rw [← run_eq_settled hq (Nat.le_max_left (r.need s) n)]
  exact run_of_le (Nat.le_max_right (r.need s) n) h

theorem run_follow_settled (hq : g.letters.isStart '?' = false) (n : Nat) :
    Follow [] [] (run g n) (settled g) := by
  intro r s s' hs
  rw [eq_of_alike hs]
  by_cases h : run g n r s = .unfinished
  · rw [h]
    trivial
  · rw [settled_eq_run hq h]
    exact matches_refl _

/-- The equations of the rules. -/
theorem settled_eq (hq : g.letters.isStart '?' = false) (r : Rule) (s : State) :
    settled g r s = round g (settled g) r s := by
  have hround : Matches [] [] (run g (r.need s + 1) r s) (round g (settled g) r s) :=
    round_follow (run_follow_settled hq (r.need s)) (.inl rfl) r s s (alike_refl s)
  have hrun := run_eq_settled hq (Nat.le_succ (r.need s))
  rw [hrun] at hround
  exact (eq_of_matches hround (settled_ne_unfinished hq r s)).symm

/-- The rules follow themselves, whatever was passed before the text ahead. -/
theorem settled_follow (hq : g.letters.isStart '?' = false) (base base' : List Char) :
    Follow base base' (settled g) (settled g) := by
  have hseparated : ∀ n, Separated base base' (run g n) := by
    refine fun n => .inr ⟨fun s m t h => ?_, fun s x t h => ?_⟩
    · exact (((advance_run hq n .operand s).of_done h).2 m rfl).1
    · exact ((advance_run hq n .primary s).of_done h).1
  intro r s s' hs
  have hneed : r.need s' = r.need s := by rw [Rule.need, Rule.need, hs.place.1]
  rw [settled, settled, hneed]
  exact run_follow hseparated (Nat.le_refl _) r s s' hs

/-- What a rule comes to depends on the text ahead alone, not on what was passed before it. -/
theorem settled_congr (hq : g.letters.isStart '?' = false) {r : Rule} {s s' t : State}
    {a : r.Answer} (hahead : s'.cursor.ahead = s.cursor.ahead)
    (hbranch : s'.inBranch = s.inBranch) (h : settled g r s = .done a t) :
    ∃ t', settled g r s' = .done a t' ∧ t'.cursor.ahead = t.cursor.ahead := by
  have hs : Alike s.cursor.passed s'.cursor.passed s s' :=
    ⟨⟨hahead, [], by rw [List.nil_append], by rw [List.nil_append]⟩, hbranch⟩
  have hmatches := settled_follow hq s.cursor.passed s'.cursor.passed r s s' hs
  rw [h] at hmatches
  obtain ⟨t', hrun, ht⟩ := hmatches.of_done
  exact ⟨t', hrun, ht.place.1⟩

theorem need_start_le (source : String) :
    Rule.statements.need (.start source) ≤ Grammar.rounds source := by
  have hlength : (State.start source).cursor.ahead.length = source.length := by
    rw [State.start, Cursor.start, String.length_toList]
  simp only [Rule.need, Rule.rank, hlength, Grammar.rounds]
  omega

/-- A source has a tree exactly if its statements are read to the end. -/
theorem parse_eq_ok_iff (hq : g.letters.isStart '?' = false) {source : String} {n : Node} :
    g.parse source = .ok n ↔
      ∃ ns t, settled g .statements (.start source) = .done ns t ∧ n = .ofStatements ns := by
  rw [Grammar.parse, Grammar.parseWithin, run_eq_settled hq (need_start_le source)]
  cases hrun : settled g .statements (.start source) with
  | done ns t =>
    constructor
    · intro h
      injection h with h
      exact ⟨ns, t, rfl, h.symm⟩
    · rintro ⟨ns', t', ⟨⟩, rfl⟩
      rfl
  | failed e => simp
  | unfinished => exact absurd hrun (settled_ne_unfinished hq _ _)

end ExprTree
