import ExprTree.Parse.Source

/-!
What the basic steps do in front of further steps. Each lemma takes the first step of a sequence
away and leaves the others in the state that it leads to.
-/

namespace ExprTree.Parse

/-- The state past the blanks ahead. -/
def pastBlanks (s : State) : State :=
  { s with cursor := s.cursor.skipBlanks }

/-- The state after the comma and the blanks that further named arguments may stand behind. -/
def afterComma (s : State) : State :=
  pastBlanks (if (pastBlanks s).cursor.peek? = some ',' then
    { pastBlanks s with cursor := (pastBlanks s).cursor.advance 1 } else pastBlanks s)

variable {α β : Type} (s : State)

theorem bind_here_apply (f : Cursor → Parse α) : (here >>= f) s = f s.cursor s := rfl

theorem bind_inBranch_apply (f : Bool → Parse α) : (inBranch >>= f) s = f s.inBranch s := rfl

theorem bind_setInBranch_apply (b : Bool) (f : Unit → Parse α) :
    (setInBranch b >>= f) s = f () { s with inBranch := b } := rfl

theorem bind_peek_apply (f : Option Char → Parse α) : (peek >>= f) s = f s.cursor.peek? s := rfl

theorem bind_advance_apply (n : Nat) (f : Unit → Parse α) :
    (advance n >>= f) s = f () { s with cursor := s.cursor.advance n } := rfl

theorem bind_skipBlanks_apply (f : Unit → Parse α) :
    (skipBlanks >>= f) s = f () { s with cursor := s.cursor.skipBlanks } := rfl

theorem bind_takeWhile_apply (p : Char → Bool) (f : List Char → Parse α) :
    (takeWhile p >>= f) s = f (s.cursor.ahead.takeWhile p)
      { s with cursor := s.cursor.advance (s.cursor.ahead.takeWhile p).length } := rfl

theorem bind_eat_apply (c : Char) (f : Bool → Parse α) :
    (eat c >>= f) s =
      if s.cursor.peek? = some c then f true { s with cursor := s.cursor.advance 1 }
      else f false s := by
  change bind (eat c) f s = _
  unfold bind eat
  by_cases h : s.cursor.peek? = some c <;> simp [h]

theorem bind_afterComma_apply (p : Parse α) :
    (do skipBlanks; let _ ← eat ','; skipBlanks; p : Parse α) s = p (afterComma s) := by
  unfold afterComma
  rw [bind_skipBlanks_apply, bind_eat_apply]
  change (if (pastBlanks s).cursor.peek? = some ',' then _ else _) = _
  by_cases h : (pastBlanks s).cursor.peek? = some ','
  · rw [if_pos h, if_pos h]
    rfl
  · rw [if_neg h, if_neg h]
    rfl

theorem inBranch_afterComma : (afterComma s).inBranch = s.inBranch := by
  unfold afterComma
  split <;> rfl

theorem ite_step {c : Prop} [Decidable c] (p q : Parse α) :
    (if c then p else q) s = if c then p s else q s := by
  by_cases h : c <;> simp [h]

theorem require_of_done_some {p : Parse (Option α)} {cause : Cause} {s t : State} {a : α}
    (h : p s = .done (some a) t) : require cause p s = .done a t :=
  bind_of_done h _

/-- Three steps one after the other, whichever two are joined first. -/
theorem bind_bind {γ : Type} (p : Parse α) (f : α → Parse β) (q : β → Parse γ) :
    (p >>= f) >>= q = p >>= fun a => f a >>= q := by
  funext s
  change bind (bind p f) q s = bind p (fun a => bind (f a) q) s
  unfold bind
  cases p s <;> rfl

theorem ite_bind {c : Prop} [Decidable c] (p q : Parse α) (f : α → Parse β) :
    (if c then p else q) >>= f = if c then p >>= f else q >>= f := by
  by_cases h : c <;> simp [h]

theorem return_bind (a : β) (f : β → Parse α) : (Pure.pure a : Parse β) >>= f = f a := rfl

theorem bind_return (p : Parse α) : p >>= Pure.pure = p := by
  funext s
  change bind p pure s = p s
  unfold bind
  cases p s <;> rfl

theorem bind_congr_apply {p q : Parse β} {s t : State} (h : p s = q t) (f : β → Parse α) :
    (p >>= f) s = (q >>= f) t := by
  change bind p f s = bind q f t
  unfold bind
  rw [h]

theorem bind_eq_done {p : Parse β} {f : β → Parse α} {s u : State} {a : α} :
    (p >>= f) s = .done a u ↔ ∃ b t, p s = .done b t ∧ f b t = .done a u := by
  cases hp : p s with
  | done b t =>
    rw [bind_of_done hp]
    exact ⟨fun h => ⟨b, t, rfl, h⟩, by rintro ⟨b, t, ⟨⟩, h⟩; exact h⟩
  | failed e => simp [bind_of_failed hp]
  | unfinished => simp [bind_of_unfinished hp]

theorem require_eq_done {p : Parse (Option α)} {cause : Cause} {s t : State} {a : α} :
    require cause p s = .done a t ↔ p s = .done (some a) t := by
  constructor
  · intro h
    obtain ⟨b, u, hp, hb⟩ := bind_eq_done.mp h
    cases b with
    | none => cases hb
    | some b =>
      cases hb
      exact hp
  · exact require_of_done_some

/-- A name is the longest run of its characters, if the first of them may begin one. -/
theorem name_of_isStart {l : Letters} {s : State} {c : Char} (hc : s.cursor.peek? = some c)
    (hstart : l.isStart c = true) :
    name l s = .done (String.ofList (s.cursor.ahead.takeWhile l.isPart))
      { s with cursor := s.cursor.advance (s.cursor.ahead.takeWhile l.isPart).length } := by
  unfold name
  rw [bind_peek_apply, hc]
  simp only [hstart, if_true]
  rfl

theorem exists_name_failed {l : Letters} {s : State}
    (h : ∀ c ∈ s.cursor.peek?, l.isStart c = false) : ∃ e, name l s = .failed e := by
  unfold name
  rw [bind_peek_apply]
  cases hc : s.cursor.peek? with
  | none => exact ⟨_, rfl⟩
  | some c =>
    simp only [h c hc, Bool.false_eq_true, if_false]
    exact ⟨_, rfl⟩

/-- One more expression, and the statements after it. -/
def oneMore (rules : Rules) : Parse (List Node) := do
  match ← rules .expression with
  | some n => return n :: (← rules .statements)
  | none =>
    match ← peek with
    | none => return []
    | some c => fail (.strayCharacter c)

section

variable {rules : Rules} {s : State} {c : Char}

theorem statements_of_end (hend : s.cursor.peek? = none) : statements rules s = .done [] s := by
  unfold statements
  rw [bind_peek_apply, hend]
  rfl

theorem statements_of_separator (hpeek : s.cursor.peek? = some c) (hc : c = ';' ∨ c = ',') :
    statements rules s = rules .statements { s with cursor := s.cursor.advance 1 } := by
  unfold statements
  rw [bind_peek_apply, hpeek]
  simp only [hc, if_true]
  rfl

theorem statements_of_other (hpeek : s.cursor.peek? = some c) (hc : ¬ (c = ';' ∨ c = ',')) :
    statements rules s = oneMore rules s := by
  unfold statements
  rw [bind_peek_apply, hpeek]
  simp only [hc, if_false]
  rfl

end

end ExprTree.Parse
