import ExprTree.Proofs.Boundaries
import ExprTree.Proofs.Cuts

/-!
Where a binary expression goes on after its only operand, a name, was cut at its last `?`. The place
is counted from where the operand begins, by the length of the part before the `?`; so it is that
`?` if the name is spelled where the operand begins. A name is, unless it was read in parentheses:
see `prefix_of_operand`. In parentheses it never is, because no name begins with a parenthesis.
-/

namespace ExprTree.CutPlaces

open Parse Boundaries Collected Precedence Progress Reading Lexemes Origins

section

variable {x : Char} {xs before after : List Char}

theorem not_mem_of_splitAtLast (h : splitAtLast x xs = none) : x ∉ xs := by
  induction xs with
  | nil => exact List.not_mem_nil
  | cons c xs ih =>
    simp only [splitAtLast] at h
    split at h
    · cases h
    · rename_i hxs
      split at h
      · cases h
      · rename_i hc
        exact List.not_mem_cons_of_ne_of_not_mem (Ne.symm hc) (ih hxs)

/-- What comes after the last occurrence has no other one. -/
theorem not_mem_after (h : splitAtLast x xs = some (before, after)) : x ∉ after := by
  induction xs generalizing before with
  | nil => cases h
  | cons c xs ih =>
    simp only [splitAtLast] at h
    split at h
    · rename_i before' after' hxs
      obtain ⟨-, rfl⟩ : c :: before' = before ∧ after' = after := by simpa using h
      exact ih hxs
    · rename_i hxs
      split at h
      · obtain ⟨-, rfl⟩ : [] = before ∧ xs = after := by simpa using h
        exact not_mem_of_splitAtLast hxs
      · cases h

theorem exists_after_of_gluedTest? {name test : List Char} (h : gluedTest? name = some test) :
    ∃ after, name = test ++ '?' :: after ∧ '?' ∉ after := by
  unfold gluedTest? at h
  split at h
  · cases h
  · rename_i test' after hsplit
    split at h
    · cases h
    · obtain rfl : test' = test := by simpa using h
      exact ⟨after, splitAtLast_eq_some hsplit, not_mem_after hsplit⟩

end

/-- A name that a text begins with. -/
def Begins (w : String) (text : List Char) : Prop :=
  w.toList ≠ [] ∧ w.toList <+: text

section

variable {g : Grammar} {rules : Rules} {l : Letters} {s t : State} {a b : Node} {w : String}
  {n : Nat}

/-- A name that begins like a numeral goes on with the text behind the numeral. -/
theorem begins_of_numeral (h : numeral l s = .done a t) (hw : a.name? = some w) :
    Begins w s.cursor.ahead := by
  cases (numeral_ends l s).of_done h with
  | number => cases hw
  | @name m v _ hm hall hname =>
    obtain rfl : String.ofList m.text ++ v = w := by simpa [Node.plain, Node.name?] using hw
    obtain ⟨-, hne, hahead⟩ := Cuts.name_done hname
    have hmunch : m.text ++ (s.cursor.advance m.text.length).ahead = s.cursor.ahead := by
      have htext := Numeral.text_munch s.cursor.ahead
      rw [← hm] at htext
      rw [ahead_advance_of_append htext.symm, htext]
    rw [Begins, String.toList_append, String.toList_ofList, ← hmunch, hahead]
    refine ⟨List.append_ne_nil_of_right_ne_nil m.text hne, ?_⟩
    exact (List.prefix_append_right_inj m.text).mpr (List.prefix_append _ _)

/-- Links that give a name are none. -/
theorem links_name {head : Node} (h : run g n (.links head) s = .done a t)
    (ha : a.name?.isSome = true) : a = head ∧ t = s := by
  induction n generalizing s head with
  | zero => cases h
  | succ n ih =>
    cases (links_ends head s).of_done h with
    | last => exact ⟨rfl, rfl⟩
    | next hlink hlinks =>
      obtain ⟨rfl, -⟩ := ih hlinks
      rw [hlink.name?_eq_none] at ha
      cases ha

theorem name?_wordNode {v : String} (hw : (g.wordNode v).name? = some w) : v = w := by
  unfold Grammar.wordNode at hw
  split at hw
  · cases hw
  · split at hw
    · cases hw
    · simpa [Node.plain, Node.name?] using hw

/-- A primary that is a name has no links. -/
theorem primary_name (h : run g (n + 1) .primary s = .done (.node a) t) (hw : a.name? = some w) :
    ∃ u, t.cursor = u.cursor.skipBlanks ∧ HeadBy g (run g n) s (.node a) u := by
  cases (primary_ends s).of_done h with
  | linked hhead hlinks =>
    obtain ⟨rfl, rfl⟩ := links_name hlinks (by rw [hw]; rfl)
    exact ⟨_, rfl, hhead⟩

/-- What a `!` is glued to ends in no blank, so no blanks were passed after it. -/
theorem ahead_of_joinFollows {c : Cursor} (h : joinFollows l c.skipBlanks = true) :
    c.skipBlanks.ahead = c.ahead := by
  cases hahead : c.ahead with
  | nil => rw [ahead_skipBlanks_of_ahead hahead, List.dropWhile_nil]
  | cons x rest =>
    cases hx : isBlank x with
    | false => rw [ahead_skipBlanks_of_ahead hahead, dropWhile_isBlank_cons hx]
    | true =>
      have hskip : (c.advance 1).skipBlanks = c.skipBlanks := by
        rw [Cursor.skipBlanks, Cursor.skipBlanks, Cursor.advance_advance, Cursor.ahead_advance,
          hahead, List.drop_one, List.tail_cons, List.takeWhile_cons_of_pos hx, List.length_cons,
          Nat.add_comm]
      have hprevious : x ∈ (c.advance 1).previous? := by
        simp [Cursor.previous?, Cursor.advance, hahead]
      obtain ⟨y, hy, hyblank⟩ := previous?_skipBlanks hprevious hx
      rw [hskip, Option.mem_def] at hy
      simp [joinFollows, hy, hyblank] at h

theorem suffix_ahead {suffix : String} (hfollows : joinFollows l s.cursor = true)
    (h : name l { s with cursor := s.cursor.advance 1 } = .done suffix t) :
    ('!' :: suffix.toList) <+: s.cursor.ahead := by
  obtain ⟨-, -, hahead⟩ := Cuts.name_done h
  rw [Cuts.ahead_of_peek? (peek_of_joinFollows hfollows), hahead]
  exact List.cons_prefix_cons.mpr ⟨rfl, List.prefix_append _ _⟩

theorem joinName_name (h : joinName l a s = .done b t) (hw : b.name? = some w) :
    a.name? = some w ∨ joinFollows l s.cursor = true ∧ ∃ v suffix, a.name? = some v ∧
      w.toList = v.toList ++ '!' :: suffix ∧ ('!' :: suffix) <+: s.cursor.ahead := by
  cases (joinName_ends l a s).of_done h with
  | alone => exact .inl hw
  | @joined v suffix _ _ hfollows hname =>
    obtain rfl : v ++ "!" ++ suffix = w := by simpa [Node.name?] using hw
    exact .inr ⟨hfollows, v, suffix.toList, rfl, by simp, suffix_ahead hfollows hname⟩

theorem begins_of_joinableText (h : joinableText l s = .done a t) (hw : a.name? = some w) :
    Begins w s.cursor.ahead := by
  cases (joinableText_ends l s).of_done h with
  | alone => cases hw
  | @joined value raw suffix _ _ htext hfollows hname =>
    obtain rfl : raw ++ "!" ++ suffix = w := by simpa [Node.name?] using hw
    have hsplit : (raw ++ "!" ++ suffix).toList = raw.toList ++ '!' :: suffix.toList := by simp
    rw [Begins, hsplit, Cuts.quotation_ahead htext]
    exact ⟨by simp, (List.prefix_append_right_inj _).mpr (suffix_ahead hfollows hname)⟩

/-- A primary that is a name, in front of which no parenthesis is opened. -/
theorem primary_spelled (h : run g n .primary s = .done (.node a) t) (hw : a.name? = some w)
    (hopen : s.cursor.peek? ≠ some '(') :
    w.toList ≠ [] ∧ ∃ c : Cursor, t.cursor = c.skipBlanks ∧
      s.cursor.ahead = w.toList ++ c.ahead := by
  cases n with
  | zero => cases h
  | succ n =>
    obtain ⟨u, ht, hhead⟩ := primary_name h hw
    cases hhead with
    | word hparen hname =>
      obtain rfl := name?_wordNode hw
      obtain ⟨-, hne, hahead⟩ := Cuts.name_done hname
      exact ⟨hne, u.cursor, ht, hahead⟩
    | group hparen => exact absurd hparen hopen

theorem begins_of_term (h : TermBy g (run g n) s (.node a) t) (hw : a.name? = some w)
    (hopen : s.cursor.peek? ≠ some '(') : Begins w s.cursor.ahead := by
  cases h with
  | again hnumeral hprimary =>
    obtain ⟨hne, c, -, hahead⟩ := primary_spelled hprimary hw hopen
    exact ⟨hne, c.ahead, hahead.symm⟩
  | node hprimary hjoin =>
    rcases joinName_name hjoin hw with hb | ⟨hfollows, v, suffix, hv, hsuffix, hahead⟩
    · obtain ⟨hne, c, -, hc⟩ := primary_spelled hprimary hb hopen
      exact ⟨hne, c.ahead, hc.symm⟩
    · obtain ⟨-, c, hu, hc⟩ := primary_spelled hprimary hv hopen
      rw [hu] at hfollows hahead
      rw [ahead_of_joinFollows hfollows] at hahead
      refine ⟨by simp [hsuffix], ?_⟩
      rw [hsuffix, hc]
      exact (List.prefix_append_right_inj _).mpr hahead

/-- An operand that is a name, in front of which no parenthesis is opened, is spelled there. -/
theorem begins_of_operand (h : run g n .operand s = .done (some a) t) (hw : a.name? = some w)
    (hopen : s.cursor.skipBlanks.peek? ≠ some '(') : Begins w s.cursor.skipBlanks.ahead := by
  cases n with
  | zero => cases h
  | succ n =>
    have hterm : ∀ {x u}, TermBy g (run g n) { s with cursor := s.cursor.skipBlanks } x u →
        OfTermBy g (run g n) u x a t → Begins w s.cursor.skipBlanks.ahead := by
      intro x u hx hname
      obtain ⟨rfl, rfl⟩ := ofTerm_name hname (by rw [hw]; rfl)
      exact begins_of_term hx hw hopen
    cases operand_cases h with
    | numeral hpeek hc hnumeral =>
      rcases (numeralOperand_ends hpeek).of_done hnumeral with hnumeral | ⟨x, u, hx, hname⟩
      · exact begins_of_numeral hnumeral hw
      · exact hterm hx hname
    | joinable hpeek htext => exact begins_of_joinableText htext hw
    | primary hpeek hc hprimary =>
      obtain ⟨x, u, hx, hname⟩ := (primaryOperand_ends hpeek hc).of_done hprimary
      exact hterm hx hname
    | operator hpeek hc hoperator =>
      cases (leadingOperator_ends s).of_done hoperator with
      | operator => cases hw
    | text | array => cases hw

end

/-- A name that does not begin with a parenthesis. -/
def Unopened (w : String) : Prop :=
  ∃ c rest, w.toList = c :: rest ∧ c ≠ '('

section

variable {v w : String} {text more : List Char}

theorem Begins.unopened (h : Begins w text) (hopen : text.head? ≠ some '(') : Unopened w := by
  obtain ⟨hne, rest, rfl⟩ := h
  obtain ⟨c, cs, hc⟩ := List.exists_cons_of_ne_nil hne
  refine ⟨c, cs, hc, ?_⟩
  rintro rfl
  exact hopen (by rw [hc]; rfl)

theorem Unopened.append (h : Unopened v) (hw : w.toList = v.toList ++ more) : Unopened w := by
  obtain ⟨c, rest, hc, hne⟩ := h
  exact ⟨c, rest ++ more, by rw [hw, hc, List.cons_append], hne⟩

theorem Unopened.of_append (h : Unopened v) (hv : v.toList = w.toList ++ more)
    (hw : w.toList ≠ []) : Unopened w := by
  obtain ⟨c, rest, hc, hne⟩ := h
  obtain ⟨d, ds, hd⟩ := List.exists_cons_of_ne_nil hw
  obtain ⟨rfl, -⟩ : c = d ∧ rest = ds ++ more := by
    rw [hv, hd] at hc
    simpa [eq_comm] using hc
  exact ⟨c, ds, hd, hne⟩

end

section

variable {g : Grammar} {rules : Rules} {s t : State} {a b : Node} {w : String} {n : Nat}

/-- What the expressions in parentheses give: a name that does not begin with a parenthesis, or the
empty name in front of one. -/
def Opened (g : Grammar) (n : Nat) : Prop :=
  ∀ s a t w, run g n .expression s = .done (some a) t → a.name? = some w →
    Unopened w ∨ w = "" ∧ t.cursor.peek? = some '('

theorem peek?_skipBlanks {c : Cursor} {x : Char} (h : c.peek? = some x) (hx : isBlank x = false) :
    c.skipBlanks.peek? = some x := by
  obtain ⟨rest, hrest⟩ := List.head?_eq_some_iff.mp h
  rw [peek?_of_ahead (ahead_skipBlanks_of_ahead hrest), dropWhile_isBlank_cons hx, List.head?_cons]

/-- A group ends in front of the closing parenthesis, so the empty name is none. -/
theorem unopened_of_head (hopened : Opened g n) (h : HeadBy g (run g n) s (.node a) t)
    (hw : a.name? = some w) : Unopened w := by
  cases h with
  | word hparen hname =>
    obtain rfl := name?_wordNode hw
    obtain ⟨-, hne, hahead⟩ := Cuts.name_done hname
    exact Begins.unopened ⟨hne, _, hahead.symm⟩ hparen
  | group hparen hinside hclose =>
    rcases hopened _ _ _ _ hinside hw with hname | ⟨-, hpeek⟩
    · exact hname
    · rw [peek?_skipBlanks hpeek (by decide)] at hclose
      cases hclose

theorem unopened_of_primary (hopened : ∀ m < n, Opened g m)
    (h : run g n .primary s = .done (.node a) t) (hw : a.name? = some w) : Unopened w := by
  cases n with
  | zero => cases h
  | succ n =>
    obtain ⟨u, -, hhead⟩ := primary_name h hw
    exact unopened_of_head (hopened n n.lt_succ_self) hhead hw

theorem unopened_of_term (hopened : ∀ m < n, Opened g m)
    (h : TermBy g (run g n) s (.node a) t) (hw : a.name? = some w) : Unopened w := by
  cases h with
  | again hnumeral hprimary => exact unopened_of_primary hopened hprimary hw
  | node hprimary hjoin =>
    rcases joinName_name hjoin hw with hb | ⟨-, v, suffix, hv, hsuffix, -⟩
    · exact unopened_of_primary hopened hprimary hb
    · exact (unopened_of_primary hopened hprimary hv).append hsuffix

/-- Only a primary begins with a parenthesis. -/
theorem primaryOperand_of_open (h : operand g rules s = .done (some a) t)
    (hopen : s.cursor.skipBlanks.peek? = some '(') :
    primaryOperand g rules { s with cursor := s.cursor.skipBlanks } = .done a t := by
  have hfirst : ∀ c, s.cursor.skipBlanks.peek? = some c → c = '(' := by
    intro c hc
    rw [hopen, Option.some.injEq] at hc
    exact hc.symm
  cases operand_cases h with
  | numeral hpeek hc hnumeral =>
    obtain rfl := hfirst _ hpeek
    rcases hc with hc | hc <;> cases hc
  | joinable hpeek htext => cases hfirst _ hpeek
  | text hpeek hquotation => cases hfirst _ hpeek
  | primary hpeek hc hprimary => exact hprimary
  | array hpeek hitems => cases hfirst _ hpeek
  | operator hpeek hc hoperator =>
    obtain rfl := hfirst _ hpeek
    exact absurd hc.1 (by decide)

theorem unopened_of_operand (hopened : ∀ m < n, Opened g m)
    (h : run g n .operand s = .done (some a) t) (hw : a.name? = some w) : Unopened w := by
  by_cases hopen : s.cursor.skipBlanks.peek? = some '('
  · cases n with
    | zero => cases h
    | succ n =>
      have hprimary := primaryOperand_of_open h hopen
      obtain ⟨x, u, hx, hname⟩ := (primaryOperand_ends hopen (.inr rfl)).of_done hprimary
      obtain ⟨rfl, rfl⟩ := ofTerm_name hname (by rw [hw]; rfl)
      exact unopened_of_term (fun m hm => hopened m (by omega)) hx hw
  · exact (begins_of_operand h hw hopen).unopened hopen

/-- A binary expression that is a name is its first operand, cut or not, or begins with it. -/
theorem binary_name (h : binary g (run g n) s = .done (some a) t) (hw : a.name? = some w) :
    ∃ left u v, run g n .operand { s with cursor := s.cursor.skipBlanks } = .done (some left) u ∧
      left.name? = some v ∧ ((∃ more, w.toList = v.toList ++ more) ∨
        t.cursor = s.cursor.skipBlanks.advance w.toList.length ∧
          ∃ after, v.toList = w.toList ++ '?' :: after) := by
  cases binary_cases h with
  | @alone left _ _ u v hleft hoperator hsplit =>
    rcases splitGlued_cases hsplit with ⟨rfl, rfl⟩ | ⟨test, htest, rfl, rfl⟩
    · exact ⟨_, u, w, hleft, hw, .inl ⟨[], by simp⟩⟩
    · obtain rfl : String.ofList test = w := by simpa [Node.plain, Node.name?] using hw
      obtain ⟨after, hafter⟩ := gluedTest?_eq_some htest
      cases hname : left.name? with
      | none => simp [hname] at hafter
      | some name =>
        rw [hname, Option.getD_some] at hafter
        refine ⟨left, u, name, hleft, hname, .inr ⟨?_, after, ?_⟩⟩
        · rw [String.toList_ofList]
        · rw [String.toList_ofList, hafter]
  | @word left name operator rest precedence _ u v hleft hname hoperator hinside hrest =>
    obtain rfl : name ++ operator ++ rest = w := by simpa [Node.plain, Node.name?] using hw
    exact ⟨left, u, name, hleft, hname, .inl ⟨(operator ++ rest).toList, by simp⟩⟩
  | operators hleft hoperator hinside hright hchain =>
    rw [name?_of_chain hchain] at hw
    cases hw

/-- An expression that is a name is a binary expression in front of no `?`. -/
theorem expression_name (h : expression g rules s = .done (some a) t) (hw : a.name? = some w) :
    ∃ u, binary g rules s = .done (some a) u ∧ t.cursor = u.cursor.skipBlanks ∧
      t.cursor.peek? ≠ some '?' := by
  cases expression_cases h with
  | alone hbinary hquestion => exact ⟨_, hbinary, rfl, hquestion⟩
  | conditional hbinary hquestion hconsequent hcolon halternate => cases hw

theorem opened (g : Grammar) (n : Nat) : Opened g n := by
  induction n using Nat.strong_induction_on with
  | _ n ih =>
    intro s a t w h hw
    cases n with
    | zero => cases h
    | succ n =>
      obtain ⟨r, hbinary, ht, hquestion⟩ := expression_name h hw
      obtain ⟨left, u, v, hoperand, hv, hcut⟩ := binary_name hbinary hw
      have hname := unopened_of_operand (fun m hm => ih m (hm.trans n.lt_succ_self)) hoperand hv
      rcases hcut with ⟨more, hmore⟩ | ⟨hr, after, hafter⟩
      · exact .inl (hname.append hmore)
      · by_cases hempty : w.toList = []
        · obtain rfl : w = "" := String.toList_inj.mp hempty
          rw [hempty, List.length_nil, Cursor.advance_zero] at hr
          rw [hr, Cursor.skipBlanks_skipBlanks] at ht
          refine .inr ⟨rfl, ?_⟩
          -- in front of no parenthesis the empty name stands right before its `?`
          by_contra hopen
          rw [ht] at hopen hquestion
          obtain ⟨-, rest, hahead⟩ := begins_of_operand hoperand hv (by
            rwa [Cursor.skipBlanks_skipBlanks])
          rw [Cursor.skipBlanks_skipBlanks] at hahead
          rw [peek?_of_ahead hahead.symm, hafter] at hquestion
          exact hquestion rfl
        · exact .inl (hname.of_append hafter hempty)

end

/-- A binary expression that has no operator after its first operand. -/
structure Alone (g : Grammar) (rules : Rules) (s : State) where
  left : Node
  /-- Where the operand ended. -/
  ended : State
  /-- After the blanks behind the operand. -/
  after : State
  operand_eq : rules .operand { s with cursor := s.cursor.skipBlanks } = .done (some left) ended
  operator_eq : binaryOperator g ended = .done none after

section

variable {g : Grammar} {rules : Rules} {s t : State} {a : Node} {n : Nat}

theorem binary_of_alone (m : Alone g rules s) :
    binary g rules s =
      (do return some (← splitGlued rules s.cursor.skipBlanks m.left) : Parse (Option Node))
        m.after := by
  unfold Parse.binary
  rw [bind_skipBlanks_apply, bind_here_apply, bind_of_done m.operand_eq]
  simp only [bind_here_apply]
  rw [bind_of_done m.operator_eq]

/-- An operand that is given back as another node is a name that was cut at its last `?`. -/
theorem cut_of_ne (m : Alone g rules s) (h : binary g rules s = .done (some a) t)
    (hcut : a ≠ m.left) :
    ∃ test after, m.left.name? = some (String.ofList (test ++ '?' :: after)) ∧ '?' ∉ after ∧
      a = .plain (String.ofList test) ∧
      t.cursor = s.cursor.skipBlanks.advance test.length := by
  rw [binary_of_alone m] at h
  obtain ⟨b, u, hglued, h⟩ := bind_eq_done.mp h
  cases h
  rcases splitGlued_cases hglued with ⟨hleft, -⟩ | ⟨test, htest, rfl, rfl⟩
  · exact absurd hleft hcut
  · obtain ⟨after, hafter, hlast⟩ := exists_after_of_gluedTest? htest
    refine ⟨test, after, ?_, hlast, rfl, rfl⟩
    cases hname : m.left.name? with
    | none => simp [hname] at hafter
    | some name =>
      rw [hname, Option.getD_some] at hafter
      rw [← hafter, String.ofList_toList]

end

/-- Where a name is cut, its part before the last `?` is left, and the place is as far behind the
beginning of the operand as that part is long. There the `?` is next, and what was passed is the
part that was left, exactly if the operand does not begin with a parenthesis. -/
theorem place_of_cut (g : Grammar) (n : Nat) (s : State) (m : Alone g (run g n) s) (a : Node)
    (t : State) (h : binary g (run g n) s = .done (some a) t) (hcut : a ≠ m.left) :
    ∃ test after, m.left.name? = some (String.ofList (test ++ '?' :: after)) ∧ '?' ∉ after ∧
      a = .plain (String.ofList test) ∧
      t.cursor = s.cursor.skipBlanks.advance test.length ∧
      (t.cursor.peek? = some '?' ∧ s.cursor.skipBlanks.ahead = test ++ t.cursor.ahead ↔
        s.cursor.skipBlanks.peek? ≠ some '(') := by
  obtain ⟨test, after, hname, hlast, ha, ht⟩ := cut_of_ne m h hcut
  refine ⟨test, after, hname, hlast, ha, ht, ?_, ?_⟩
  · intro hplace hopen
    obtain ⟨hquestion, hahead⟩ := hplace
    obtain ⟨c, rest, hc, hne⟩ := unopened_of_operand (fun k _ => opened g k) m.operand_eq hname
    rw [String.toList_ofList] at hc
    rw [peek?_of_ahead hahead] at hopen
    cases test with
    | nil =>
      rw [List.nil_append] at hopen
      rw [Cursor.peek?, hopen] at hquestion
      cases hquestion
    | cons d test =>
      obtain ⟨rfl, -⟩ := List.cons.inj hc
      exact hne (by simpa using hopen)
  · intro hopen
    have hbegins := begins_of_operand m.operand_eq hname
    rw [Cursor.skipBlanks_skipBlanks] at hbegins
    obtain ⟨-, rest, hrest⟩ := hbegins hopen
    rw [String.toList_ofList, List.append_assoc] at hrest
    have hahead : t.cursor.ahead = '?' :: after ++ rest := by
      rw [ht, ahead_advance_of_append hrest.symm]
    exact ⟨by rw [peek?_of_ahead hahead]; rfl, by rw [hahead, hrest]⟩

/-- The name joined to a group is cut, and its end is read once more, in front of the `!`. -/
theorem place_of_cut_group :
    let g := Grammar.standard.addLetters "?"
    let s := State.start "(a)!b?c :d"
    ∃ m : Alone g (run g 6) s, ∃ t, binary g (run g 6) s = .done (some (.plain "a!b")) t ∧
      .plain "a!b" ≠ m.left ∧ t.cursor = ⟨")a(".toList, "!b?c :d".toList⟩ ∧
      ¬ (t.cursor.peek? = some '?' ∧
        s.cursor.skipBlanks.ahead = "a!b".toList ++ t.cursor.ahead) := by
  intro g s
  let m : Alone g (run g 6) s :=
    { left := .identifier "a!b?c" (some (.plain "a")) (some (.plain "b?c"))
      ended := ⟨⟨"c?b!)a(".toList, " :d".toList⟩, false⟩
      after := ⟨⟨" c?b!)a(".toList, ":d".toList⟩, false⟩
      operand_eq := by decide +kernel
      operator_eq := by decide +kernel }
  have hbinary : binary g (run g 6) s =
      .done (some (.plain "a!b")) ⟨⟨")a(".toList, "!b?c :d".toList⟩, false⟩ := by decide +kernel
  have hcut : .plain "a!b" ≠ m.left := by simp [m, Node.plain]
  obtain ⟨test, after, -, -, htest, -, hplace⟩ := place_of_cut g 6 s m _ _ hbinary hcut
  obtain rfl : test = "a!b".toList := by
    have hname : "a!b" = String.ofList test := by simpa [Node.plain] using htest
    rw [hname, String.toList_ofList]
  have hopen : s.cursor.skipBlanks.peek? = some '(' := by decide
  exact ⟨m, _, hbinary, hcut, rfl, fun h => hplace.mp h hopen⟩

end ExprTree.CutPlaces
