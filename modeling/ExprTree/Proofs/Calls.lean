import ExprTree.Proofs.Forward
import ExprTree.Proofs.Lockstep
import Mathlib.Tactic.ByContra

/-!
The calls that a rule makes. A rule is written for any rules of its parts, and it is `Sequential`:
it asks for one answer after the other and cannot go on before it has the answer. So a call is made
exactly if the rule is left unfinished whenever that call is; and where a rule is unfinished, it is
because of one call that is, see `exists_makes`.
-/

namespace ExprTree.Calls

open Parse Outcome

/-- What the first rules answer, the others answer in the same way. -/
def Extends (rules rules' : Rules) : Prop :=
  ∀ r s, rules r s ≠ .unfinished → rules' r s = rules r s

/-- More answers do not change what is done without them, and where an answer is missing, nothing
happens before it is there. -/
structure Sequential {α : Type} (p : Rules → Parse α) : Prop where
  stays : ∀ {rules rules' : Rules} {s : State}, Extends rules rules' → p rules s ≠ .unfinished →
    p rules' s = p rules s
  waits : ∀ {rules : Rules} {s : State}, p rules s = .unfinished →
    ∃ r u, rules r u = .unfinished ∧
      ∀ rules', Extends rules rules' → rules' r u = .unfinished → p rules' s = .unfinished

section

variable {α β : Type} {g : Grammar} {p q : Rules → Parse α}

/-- A step that asks for nothing. -/
theorem sequential_step {p : Parse α} (hp : ∀ s, p s ≠ .unfinished) : Sequential fun _ => p :=
  ⟨fun _ _ => rfl, fun {_ s} h => absurd h (hp s)⟩

theorem sequential_pure (a : α) : Sequential fun _ => (Pure.pure a : Parse α) :=
  sequential_step fun _ => nofun

theorem sequential_fail (cause : Cause) : Sequential fun _ => (fail cause : Parse α) :=
  sequential_step fun _ => nofun

theorem sequential_call (r : Rule) : Sequential fun rules => rules r :=
  ⟨fun {_ _ s} hext h => hext r s h, fun {_ s} h => ⟨r, s, h, fun _ _ h' => h'⟩⟩

theorem sequential_bind {p : Rules → Parse β} {f : β → Rules → Parse α} (hp : Sequential p)
    (hf : ∀ b, Sequential (f b)) : Sequential fun rules => p rules >>= fun b => f b rules := by
  refine ⟨?_, ?_⟩
  · intro rules rules' s hext h
    cases hb : p rules s with
    | done b t =>
      have hb' := hp.stays hext (s := s) (by simp [hb])
      rw [bind_of_done hb] at h ⊢
      rw [bind_of_done (hb'.trans hb)]
      exact (hf b).stays hext h
    | failed e =>
      have hb' := hp.stays hext (s := s) (by simp [hb])
      rw [bind_of_failed hb, bind_of_failed (hb'.trans hb)]
    | unfinished => exact absurd (bind_of_unfinished hb _) h
  · intro rules s h
    cases hb : p rules s with
    | done b t =>
      rw [bind_of_done hb] at h
      obtain ⟨r, u, hu, hwaits⟩ := (hf b).waits h
      refine ⟨r, u, hu, fun rules' hext hu' => ?_⟩
      have hb' := hp.stays hext (s := s) (by simp [hb])
      rw [bind_of_done (hb'.trans hb)]
      exact hwaits rules' hext hu'
    | failed e =>
      rw [bind_of_failed hb] at h
      cases h
    | unfinished =>
      obtain ⟨r, u, hu, hwaits⟩ := hp.waits hb
      exact ⟨r, u, hu, fun rules' hext hu' => bind_of_unfinished (hwaits rules' hext hu') _⟩

/-- A step that asks for nothing, and others after it. -/
theorem sequential_then {p : Parse β} {f : β → Rules → Parse α} (hp : ∀ s, p s ≠ .unfinished)
    (hf : ∀ b, Sequential (f b)) : Sequential fun rules => p >>= fun b => f b rules :=
  sequential_bind (sequential_step hp) hf

theorem sequential_map {p : Rules → Parse β} (hp : Sequential p) (f : β → α) :
    Sequential fun rules => do return f (← p rules) :=
  sequential_bind hp fun b => sequential_pure (f b)

theorem sequential_ite {c : Prop} [Decidable c] (hp : Sequential p) (hq : Sequential q) :
    Sequential fun rules => if c then p rules else q rules := by
  split
  · exact hp
  · exact hq

theorem sequential_require {p : Rules → Parse (Option α)} (hp : Sequential p) (cause : Cause) :
    Sequential fun rules => require cause (p rules) := by
  refine sequential_bind hp fun a => ?_
  cases a with
  | none => exact sequential_fail cause
  | some a => exact sequential_pure a

theorem lookAhead_eq_unfinished {p : Parse α} {s : State} :
    lookAhead p s = .unfinished ↔ p s = .unfinished := by
  unfold lookAhead
  cases p s <;> simp

theorem sequential_lookAhead (hp : Sequential p) :
    Sequential fun rules => lookAhead (p rules) := by
  refine ⟨?_, ?_⟩
  · intro rules rules' s hext h
    have heq := hp.stays hext (mt lookAhead_eq_unfinished.mpr h)
    unfold lookAhead
    rw [heq]
  · intro rules s h
    obtain ⟨r, u, hu, hwaits⟩ := hp.waits (lookAhead_eq_unfinished.mp h)
    exact ⟨r, u, hu, fun rules' hext hu' =>
      lookAhead_eq_unfinished.mpr (hwaits rules' hext hu')⟩

/-- Of two parsers the second is tried if the first one fails, which asks for nothing itself. -/
theorem sequential_recover {p : Parse α} (hp : ∀ s, p s ≠ .unfinished) (hq : Sequential q) :
    Sequential fun rules => recover p (q rules) := by
  refine ⟨?_, ?_⟩
  · intro rules rules' s hext h
    unfold recover at h ⊢
    cases hs : p s with
    | failed e =>
      simp only [hs] at h ⊢
      exact hq.stays hext h
    | done a t => rfl
    | unfinished => rfl
  · intro rules s h
    unfold recover at h
    cases hs : p s with
    | failed e =>
      simp only [hs] at h
      obtain ⟨r, u, hu, hwaits⟩ := hq.waits h
      refine ⟨r, u, hu, fun rules' hext hu' => ?_⟩
      unfold recover
      simp only [hs]
      exact hwaits rules' hext hu'
    | done a t => simp [hs] at h
    | unfinished => exact absurd hs (hp s)

end

section

-- the pieces of a source text ask for nothing

theorem eat_finishes (c : Char) (s : State) : eat c s ≠ .unfinished := by
  unfold eat
  split <;> nofun

theorem expect_finishes (c : Char) (cause : Cause) (s : State) :
    expect c cause s ≠ .unfinished := by
  have hends : (expect c cause s).Ends (fun _ _ => True) (fun _ => True) False := by simp
  exact hends.ne_unfinished id

theorem name_finishes (l : Letters) (s : State) : name l s ≠ .unfinished :=
  (Lexemes.name_ends l s).ne_unfinished id

theorem quotation_finishes (s : State) : quotation s ≠ .unfinished :=
  (Lexemes.quotation_ends s).ne_unfinished id

theorem numeral_finishes (l : Letters) (s : State) : numeral l s ≠ .unfinished :=
  (Lexemes.numeral_ends l s).ne_unfinished id

theorem joinName_finishes (l : Letters) (n : Node) (s : State) : joinName l n s ≠ .unfinished :=
  (Lexemes.joinName_ends l n s).ne_unfinished id

theorem binaryOperator_finishes (g : Grammar) (s : State) : binaryOperator g s ≠ .unfinished :=
  (Lexemes.binaryOperator_ends g s).ne_unfinished id

theorem joinableText_finishes (l : Letters) (s : State) : joinableText l s ≠ .unfinished :=
  (Lexemes.joinableText_ends l s).ne_unfinished id

end

section

variable {g : Grammar}

theorem sequential_word : Sequential (word g) := by
  refine sequential_then (name_finishes g.letters) fun w => ?_
  refine sequential_then (fun _ => nofun) fun c => ?_
  refine sequential_ite (sequential_then (fun _ => nofun) fun _ => ?_) (sequential_pure _)
  exact sequential_map (sequential_require (sequential_call .expression) _) (Term.pair w)

theorem sequential_group : Sequential group := by
  refine sequential_then (fun _ => nofun) fun _ => ?_
  refine sequential_bind (sequential_require (sequential_call .expression) _) fun n => ?_
  refine sequential_then (fun _ => nofun) fun _ => ?_
  exact sequential_then (expect_finishes _ _) fun _ => sequential_pure n

theorem sequential_primary : Sequential (primary g) := by
  refine sequential_bind (sequential_then (fun _ => nofun) fun c => ?_) fun x => ?_
  · exact sequential_ite (sequential_map sequential_group Term.node) sequential_word
  · cases x with
    | pair w value => exact sequential_pure _
    | node n =>
      exact sequential_then (fun _ => nofun) fun _ =>
        sequential_map (sequential_call (.links n)) Term.node

theorem sequential_links (head : Node) : Sequential fun rules => links g rules head := by
  simp only [links_eq]
  refine sequential_then (fun _ => nofun) fun next => ?_
  refine sequential_ite ?_ (sequential_ite ?_ (sequential_ite ?_ (sequential_pure head)))
  · refine sequential_then (fun _ => nofun) fun _ => sequential_then (fun _ => nofun) fun _ => ?_
    refine sequential_then (name_finishes _) fun w => ?_
    exact sequential_then (fun _ => nofun) fun _ => sequential_call _
  · refine sequential_then (fun _ => nofun) fun _ => ?_
    refine sequential_bind (sequential_require (sequential_call .expression) _) fun property => ?_
    refine sequential_then (fun _ => nofun) fun _ => ?_
    refine sequential_then (expect_finishes _ _) fun _ => ?_
    exact sequential_then (fun _ => nofun) fun _ => sequential_call _
  · refine sequential_then (fun _ => nofun) fun _ => ?_
    refine sequential_bind (sequential_call (.items .round)) fun arguments => ?_
    exact sequential_then (fun _ => nofun) fun _ => sequential_call _

theorem sequential_items (b : Bracket) : Sequential fun rules => items rules b := by
  refine sequential_then (fun _ => nofun) fun _ => sequential_then (fun _ => nofun) fun next => ?_
  cases next with
  | none => exact sequential_fail _
  | some c =>
    refine sequential_ite (sequential_then (fun _ => nofun) fun _ => sequential_pure _) ?_
    refine sequential_ite (sequential_then (fun _ => nofun) fun _ => sequential_call _) ?_
    refine sequential_bind (sequential_call .expression) fun a => ?_
    have hitem : ∀ n : Node, Sequential fun rules => do return n :: (← rules (.items b)) :=
      fun n => sequential_map (sequential_call (.items b)) (n :: ·)
    rcases a with _ | n
    · exact sequential_fail _
    · cases n with
      | compound ns => exact sequential_fail _
      | _ => exact hitem _

theorem sequential_pairs (keys : Keyed (Entry Node)) :
    Sequential fun rules => pairs g rules keys := by
  refine sequential_then (fun _ => nofun) fun _ => sequential_then (eat_finishes ',') fun _ => ?_
  refine sequential_then (fun _ => nofun) fun _ => sequential_then (fun _ => nofun) fun next => ?_
  refine sequential_ite (sequential_bind (sequential_call .primary) fun x => ?_)
    (sequential_pure keys)
  cases x with
  | pair key value => exact sequential_call _
  | node n => exact sequential_then (fun _ => nofun) fun _ => sequential_pure keys

theorem sequential_applyUnary (operator : String) :
    Sequential fun rules => applyUnary rules operator :=
  sequential_bind (sequential_require (sequential_call .operand) _) fun _ => sequential_pure _

theorem sequential_ofTerm (x : Term) : Sequential fun rules => ofTerm g rules x := by
  cases x with
  | pair key value => exact sequential_map (sequential_call (.pairs _)) Node.keyValues
  | node n =>
    cases n with
    | identifier w object property =>
      cases object with
      | some object => exact sequential_pure _
      | none =>
        refine sequential_ite (sequential_applyUnary w) ?_
        cases Numeral.read? w.toList <;> exact sequential_pure _
    | _ => exact sequential_pure _

theorem sequential_numeralOperand (first : Char) :
    Sequential fun rules => numeralOperand g rules first := by
  refine sequential_ite (sequential_recover (numeral_finishes _) ?_)
    (sequential_step (numeral_finishes _))
  exact sequential_bind (sequential_call .primary) fun x => sequential_ofTerm x

theorem sequential_primaryOperand : Sequential (primaryOperand g) := by
  refine sequential_bind (sequential_call .primary) fun x => ?_
  cases x with
  | pair key value => exact sequential_ofTerm _
  | node n =>
    exact sequential_then (joinName_finishes _ n) fun m => sequential_ofTerm (.node m)

theorem sequential_leadingOperator : Sequential (leadingOperator g) := by
  refine sequential_then (fun _ => nofun) fun c => ?_
  dsimp only
  cases g.operators.unaryAt? (c.ahead.take g.operators.longestUnary) with
  | none => exact sequential_pure _
  | some operator =>
    exact sequential_then (fun _ => nofun) fun _ =>
      sequential_map (sequential_applyUnary operator) some

theorem sequential_operand : Sequential (operand g) := by
  refine sequential_then (fun _ => nofun) fun _ => sequential_then (fun _ => nofun) fun next => ?_
  cases next with
  | none => exact sequential_pure _
  | some c =>
    refine sequential_ite (sequential_map (sequential_numeralOperand c) some) ?_
    refine sequential_ite (sequential_then (joinableText_finishes _) fun n => sequential_pure _) ?_
    refine sequential_ite (sequential_then quotation_finishes fun text => sequential_pure _) ?_
    refine sequential_ite (sequential_map sequential_primaryOperand some) ?_
    refine sequential_ite (sequential_then (fun _ => nofun) fun _ => ?_) sequential_leadingOperator
    exact sequential_map (sequential_call (.items .square)) fun ns => some (Node.array ns)

theorem sequential_chain (stack : OperatorStack) :
    Sequential fun rules => chain g rules stack := by
  refine sequential_then (binaryOperator_finishes g) fun o => ?_
  cases o with
  | none => exact sequential_pure _
  | some o =>
    refine sequential_ite (sequential_pure _) ?_
    refine sequential_bind (sequential_require (sequential_call .operand) _) fun right => ?_
    exact sequential_call _

theorem sequential_splitGlued (start : Cursor) (left : Node) :
    Sequential fun rules => splitGlued rules start left := by
  unfold splitGlued
  dsimp only
  cases gluedTest? (left.name?.getD "").toList with
  | none => exact sequential_pure _
  | some test =>
    refine sequential_bind (sequential_ite ?_ (sequential_pure _)) fun follows => ?_
    · exact sequential_bind (sequential_lookAhead (sequential_call .expression)) fun _ =>
        sequential_pure _
    · exact sequential_ite (sequential_then (fun _ => nofun) fun _ => sequential_pure _)
        (sequential_pure _)

theorem sequential_binary : Sequential (binary g) := by
  refine sequential_then (fun _ => nofun) fun _ => sequential_then (fun _ => nofun) fun start => ?_
  refine sequential_bind (sequential_call .operand) fun a => ?_
  cases a with
  | none => exact sequential_pure _
  | some left =>
    refine sequential_then (fun _ => nofun) fun c => ?_
    refine sequential_then (binaryOperator_finishes g) fun o => ?_
    cases o with
    | none => exact sequential_map (sequential_splitGlued start left) some
    | some o =>
      refine sequential_then (fun _ => nofun) fun next => sequential_ite ?_ ?_
      · exact sequential_then (name_finishes _) fun _ => sequential_pure _
      · exact sequential_bind (sequential_require (sequential_call .operand) _) fun right =>
          sequential_call _

theorem sequential_expression : Sequential (expression g) := by
  refine sequential_bind sequential_binary fun a => ?_
  cases a with
  | none => exact sequential_pure _
  | some test =>
    refine sequential_then (fun _ => nofun) fun _ => sequential_then (eat_finishes '?') fun b => ?_
    refine sequential_ite (sequential_then (fun _ => nofun) fun _ => ?_) (sequential_pure _)
    refine sequential_bind (sequential_require (sequential_call .expression) _)
      fun consequent => ?_
    refine sequential_then (fun _ => nofun) fun _ => ?_
    refine sequential_then (expect_finishes _ _) fun _ => ?_
    refine sequential_bind (sequential_require (sequential_call .expression) _) fun alternate => ?_
    exact sequential_then (fun _ => nofun) fun _ => sequential_pure _

theorem sequential_statements : Sequential statements := by
  refine sequential_then (fun _ => nofun) fun next => ?_
  cases next with
  | none => exact sequential_pure _
  | some c =>
    refine sequential_ite (sequential_then (fun _ => nofun) fun _ => sequential_call _) ?_
    refine sequential_bind (sequential_call .expression) fun a => ?_
    cases a with
    | some n => exact sequential_map (sequential_call .statements) (n :: ·)
    | none =>
      refine sequential_then (fun _ => nofun) fun next => ?_
      cases next with
      | none => exact sequential_pure _
      | some c => exact sequential_fail _

/-- Every rule asks for one answer after the other. -/
theorem sequential_round (g : Grammar) (r : Rule) : Sequential fun rules => round g rules r := by
  cases r with
  | expression => exact sequential_expression
  | operand => exact sequential_operand
  | primary => exact sequential_primary
  | links head => exact sequential_links head
  | items b => exact sequential_items b
  | chain stack => exact sequential_chain stack
  | pairs keys => exact sequential_pairs keys
  | statements => exact sequential_statements

end

/-- A rule calls another one. With the other answers that there are, whatever the missing ones come
to be, it is unfinished whenever the called rule is. -/
def Makes (g : Grammar) (rules : Rules) (r : Rule) (s : State) (r' : Rule) (u : State) : Prop :=
  ∀ rules', (∀ q v, ¬(q = r' ∧ v = u) → rules q v ≠ .unfinished → rules' q v = rules q v) →
    rules' r' u = .unfinished → round g rules' r s = .unfinished

/-- The calls in a run of a rule with some rounds, those of the rules it calls included. -/
inductive Nested (g : Grammar) : Nat → Rule → State → Rule → State → Prop
  | call {n : Nat} {r r' : Rule} {s u : State} : Makes g (run g n) r s r' u →
    Nested g (n + 1) r s r' u
  | deeper {n : Nat} {r r' r'' : Rule} {s u v : State} : Makes g (run g n) r s r' u →
    Nested g n r' u r'' v → Nested g (n + 1) r s r'' v

section

variable {g : Grammar} {rules : Rules} {r r' : Rule} {s u : State} {n : Nat}

/-- A rule that is unfinished calls one that is. -/
theorem exists_makes (h : round g rules r s = .unfinished) :
    ∃ r' u, Makes g rules r s r' u ∧ rules r' u = .unfinished := by
  obtain ⟨r', u, hu, hwaits⟩ := (sequential_round g r).waits h
  refine ⟨r', u, fun rules' hext hu' => hwaits rules' (fun q v hv => ?_) hu', hu⟩
  refine hext q v ?_ hv
  rintro ⟨rfl, rfl⟩
  exact hv hu

theorem extends_run {m n : Nat} (h : m ≤ n) : Extends (run g m) (run g n) :=
  fun _ _ hr => Lockstep.run_of_le h hr

/-- A rule that calls one which never ends does not end either. -/
theorem unfinished_of_makes (h : Makes g (run g n) r s r' u)
    (hu : ∀ m, run g m r' u = .unfinished) (m : Nat) : run g m r s = .unfinished := by
  by_contra hm
  have hround : run g (max m n + 1) r s = .unfinished := by
    refine h (run g (max m n)) (fun q v _ hv => ?_) (hu _)
    exact extends_run (Nat.le_max_right m n) q v hv
  rw [extends_run (by omega : m ≤ max m n + 1) r s hm] at hround
  exact hm hround

theorem unfinished_of_nested (h : Nested g n r s r' u) (hu : ∀ m, run g m r' u = .unfinished) :
    ∀ m, run g m r s = .unfinished := by
  induction h with
  | call hmakes => exact unfinished_of_makes hmakes hu
  | deeper hmakes _ ih => exact unfinished_of_makes hmakes (ih hu)

end

open Classical in
/-- The rules with all calls but one answered, those that never were with an error. -/
noncomputable def allBut (r' : Rule) (u : State) (rules : Rules) : Rules := fun q v =>
  if q = r' ∧ v = u then .unfinished
  else match rules q v with
    | .unfinished => .failed ⟨.noExpression, v.cursor.index⟩
    | o => o

section

variable {g : Grammar} {rules : Rules} {r r' q : Rule} {s u v : State} {n : Nat}

theorem allBut_self : allBut r' u rules r' u = .unfinished :=
  if_pos ⟨rfl, rfl⟩

theorem allBut_of_ne (hq : ¬(q = r' ∧ v = u)) (hv : rules q v ≠ .unfinished) :
    allBut r' u rules q v = rules q v := by
  unfold allBut
  rw [if_neg hq]
  split
  · rename_i h
    exact absurd h hv
  · rfl

theorem eq_done_of_allBut {a : q.Answer} {t : State} (h : allBut r' u rules q v = .done a t) :
    rules q v = .done a t := by
  unfold allBut at h
  split at h
  · cases h
  · split at h
    · cases h
    · exact h

theorem eq_of_allBut (h : allBut r' u rules q v = .unfinished) : q = r' ∧ v = u := by
  unfold allBut at h
  split at h
  · rename_i heq
    exact heq
  · split at h
    · cases h
    · rename_i hv
      exact absurd h hv

theorem gets_allBut (r' : Rule) (u : State) :
    Origins.Holds Rule.Gets (allBut r' u (run g n)) :=
  fun _ _ _ _ h => Forward.gets_run g n (eq_done_of_allBut h)

/-- All calls go onward. -/
theorem onward_of_makes (h : Makes g (run g n) r s r' u) (hr : r.Inner) :
    Forward.Onward (run g n) r s r' u := by
  have hround : round g (allBut r' u (run g n)) r s = .unfinished :=
    h _ (fun _ _ => allBut_of_ne) allBut_self
  obtain ⟨q, v, hasks, hv⟩ := (Origins.round_ends r s).of_unfinished hround
  obtain ⟨rfl, rfl⟩ := eq_of_allBut hv
  cases Forward.onward_of_asks (gets_allBut q v) hr hasks with
  | passes hr' hpass => exact .passes hr' hpass
  | lower hr' hreach hrank => exact .lower hr' hreach hrank
  | again hstill => exact .again ⟨hstill.1, eq_done_of_allBut hstill.2.1, hstill.2.2⟩

end

end ExprTree.Calls
