import ExprTree.Proofs.BranchMark
import ExprTree.Proofs.Results
import ExprTree.Proofs.RoundTrip

/-!
A positional argument after a named one. The named argument passes the comma after it, and looks
for further named arguments; what follows is then read on in two ways that take it in: a sign is
the binary operator between the named argument and its operand, and a named argument is added to
the one before it. Whatever else follows is an argument of its own, see `parse_after_named_iff`.
-/

namespace ExprTree.Positional

open Parse Standard Print Reading Printed NamedArguments RoundTrip Results

/-- Whether a text begins with a named argument: a name with a single `=` right after it. A
parenthesis begins a group, also if it is a character of names. -/
def pairAhead (l : Letters) (text : List Char) : Bool :=
  text.head?.any l.isStart && text.head? != some '(' &&
    (text.dropWhile l.isPart).head? == some '=' && (text.dropWhile l.isPart)[1]? != some '='

/-- Whether a text begins with a named argument of the standard grammar. -/
def beginsPair (text : List Char) : Bool :=
  pairAhead letters text

/-- Whether a named argument takes in what stands after its comma. -/
def absorbed (text : List Char) : Bool :=
  let text := text.dropWhile isBlank
  text.head? == some '+' || text.head? == some '-' || beginsPair text

section

variable {g : Grammar} {rs : Rules} {keys found : Keyed (Entry Node)} {s t : State}

theorem pairs_of_not_start
    (hstart : (afterComma s).cursor.peek?.any g.letters.isStart = false) :
    pairs g rs keys s = .done keys (afterComma s) := by
  unfold pairs
  rw [bind_afterComma_apply, bind_here_apply, ite_step, hstart]
  rfl

theorem pairs_of_node {n : Node} {u : State}
    (hstart : (afterComma s).cursor.peek?.any g.letters.isStart = true)
    (hprimary : rs .primary (afterComma s) = .done (.node n) u) :
    pairs g rs keys s = .done keys { u with cursor := (afterComma s).cursor } := by
  unfold pairs
  rw [bind_afterComma_apply, bind_here_apply, ite_step, hstart, if_pos rfl,
    bind_of_done hprimary]
  rfl

theorem pairs_of_pair {key : String} {value : Node} {u : State}
    (hstart : (afterComma s).cursor.peek?.any g.letters.isStart = true)
    (hprimary : rs .primary (afterComma s) = .done (.pair key value) u) :
    pairs g rs keys s = rs (.pairs (addValue keys key value)) u := by
  unfold pairs
  rw [bind_afterComma_apply, bind_here_apply, ite_step, hstart, if_pos rfl,
    bind_of_done hprimary]

theorem length_pairsOf_addValue (keys : Keyed (Entry Node)) (key : String) (value : Node) :
    (pairsOf (addValue keys key value)).length = (pairsOf keys).length + 1 := by
  induction keys with
  | nil => rfl
  | cons p keys ih =>
    obtain ⟨key', entry⟩ := p
    have hcons : ∀ (entry : Entry Node) (keys : Keyed (Entry Node)),
        (pairsOf ((key', entry) :: keys)).length =
          entry.values.length + (pairsOf keys).length := by
      intro entry keys
      simp [pairsOf]
    by_cases hkey : key' = key
    · have hstep : addValue ((key', entry) :: keys) key value =
          (key', entry.push value) :: keys := if_pos hkey
      rw [hstep, hcons, hcons, Entry.values_push, List.length_append, List.length_singleton]
      omega
    · have hstep : addValue ((key', entry) :: keys) key value =
          (key', entry) :: addValue keys key value := if_neg hkey
      rw [hstep, hcons, hcons, ih]
      omega

/-- Named arguments that were read are never lost. -/
theorem length_pairsOf_le {rounds : Nat} (h : run g rounds (.pairs keys) s = .done found t) :
    (pairsOf keys).length ≤ (pairsOf found).length := by
  induction rounds generalizing keys s with
  | zero => cases h
  | succ rounds ih =>
    cases Origins.pairs_cases h with
    | nothing => exact Nat.le_refl _
    | other => exact Nat.le_refl _
    | pair hpeek hprimary hmore =>
      have hle := ih hmore
      rw [length_pairsOf_addValue] at hle
      omega

theorem pairAhead_iff_of_name {w : String} (hparen : s.cursor.peek? ≠ some '(')
    (h : name g.letters s = .done w t) :
    pairAhead g.letters s.cursor.ahead = true ↔
      t.cursor.peek? = some '=' ∧ t.cursor.peekAt? 1 ≠ some '=' := by
  obtain ⟨c, hc, hstart, -, ht⟩ := Lexemes.name_cases h
  have hhead : s.cursor.ahead.head? = some c := hc
  have hrest : t.cursor.ahead = s.cursor.ahead.dropWhile g.letters.isPart := by
    rw [ht]
    exact ahead_advance_of_append List.takeWhile_append_dropWhile.symm
  have hother : c ≠ '(' := fun heq => hparen (heq ▸ hc)
  simp [pairAhead, hhead, hstart, hother, Cursor.peek?, Cursor.peekAt?, hrest]

/-- A primary is a named argument exactly if it looks like one. -/
theorem isPair_iff {x : Term} (h : primary g rs s = .done x t) :
    (∃ k v, x = .pair k v) ↔ pairAhead g.letters s.cursor.ahead = true := by
  cases (Origins.primary_ends s).of_done h with
  | pair hhead =>
    cases hhead with
    | pair hparen hname hequals => simp [(pairAhead_iff_of_name hparen hname).mpr hequals]
  | linked hhead =>
    cases hhead with
    | word hparen hname hplain => simp [mt (pairAhead_iff_of_name hparen hname).mp hplain]
    | group hopen =>
      have hhead : s.cursor.ahead.head? = some '(' := hopen
      simp [pairAhead, hhead]

/-- A name with a single `=` after it is a named argument, and any other name is not. -/
theorem primary_cases {x : Term} (h : rules .primary s = .done x t) :
    beginsPair s.cursor.ahead = true ∧ (∃ key value, x = .pair key value) ∨
      beginsPair s.cursor.ahead = false ∧ ∃ n, x = .node n := by
  rw [rules_eq] at h
  have hpair : (∃ k v, x = .pair k v) ↔ beginsPair s.cursor.ahead = true :=
    isPair_iff (g := .standard) h
  cases x with
  | pair k v => exact .inl ⟨hpair.mp ⟨k, v, rfl⟩, k, v, rfl⟩
  | node n =>
    refine .inr ⟨?_, n, rfl⟩
    rw [← Bool.not_eq_true]
    intro h
    obtain ⟨k, v, hpair⟩ := hpair.mpr h
    cases hpair

theorem operand_of_isStart {c : Char} {rest : List Char} (hs : s.cursor.ahead = c :: rest)
    (hstart : letters.isStart c = true) :
    rules .operand s =
      (do return some (← primaryOperand .standard rules) : Parse (Option Node)) s := by
  have hpeek : s.cursor.peek? = some c := by rw [peek?_of_ahead hs, List.head?_cons]
  have hblank : pastBlanks s = s := pastBlanks_of_peek hpeek (isBlank_of_isStart hstart)
  rw [rules_eq]
  change operand .standard rules s = _
  unfold operand
  rw [bind_skipBlanks_apply]
  change (peek >>= _) (pastBlanks s) = _
  rw [hblank, bind_peek_apply, hpeek]
  simp only [primaryOperand_of_isStart hstart]

/-- An operand that begins like a name begins with a primary. -/
theorem exists_primary_of_operand {n : Node} {c : Char} {rest : List Char}
    (hs : s.cursor.ahead = c :: rest) (hstart : letters.isStart c = true)
    (h : rules .operand s = .done (some n) t) : ∃ x u, rules .primary s = .done x u := by
  rw [operand_of_isStart hs hstart] at h
  obtain ⟨m, v, hprimaryOperand, -⟩ := bind_eq_done.mp h
  obtain ⟨x, u, hprimary, -⟩ := bind_eq_done.mp hprimaryOperand
  exact ⟨x, u, hprimary⟩

/-- A bracket at the end makes no difference. -/
theorem absorbed_append (text : List Char) : absorbed (text ++ [')']) = absorbed text := by
  have hblank : ∀ c ∈ [')'].head?, isBlank c = false := forall_mem_head?_cons [] (by decide)
  have hpart : ∀ c ∈ [')'].head?, letters.isPart c = false := forall_mem_head?_cons [] (by decide)
  have hpair : ∀ text : List Char, beginsPair (text ++ [')']) = beginsPair text := by
    intro text
    unfold beginsPair pairAhead
    rw [dropWhile_append_of_head hpart]
    have hfirst : ((text ++ [')']).head?.any letters.isStart && (text ++ [')']).head? != some '(') =
        (text.head?.any letters.isStart && text.head? != some '(') := by
      cases text with
      | nil => decide
      | cons c rest => rfl
    rw [hfirst]
    rcases text.dropWhile letters.isPart with _ | ⟨c, _ | ⟨d, rest⟩⟩
    · rfl
    · rfl
    · rfl
  unfold absorbed
  rw [dropWhile_append_of_head hblank]
  dsimp only
  rw [hpair]
  cases text.dropWhile isBlank with
  | nil => rfl
  | cons c rest => rfl

/-- A named argument with a number for its value is read up to the comma, and then whatever is
added to it. -/
theorem operand_named {k v : String} {x : Binary64} {rest : List Char} (hk : IsWord k)
    (hv : Numeral.read? v.toList = some x)
    (hs : s.cursor.ahead = k.toList ++ '=' :: (v.toList ++ ',' :: rest))
    (hbranch : s.inBranch = false) :
    ∃ u, u.cursor.ahead = ',' :: rest ∧ u.inBranch = false ∧
      rules .operand s = (do
        let keys ← rules (.pairs [(k, .single (.literal (.number x) v))])
        return some (.keyValues keys) : Parse (Option Node)) u := by
  have hvalue := ((number_reads hv).chain 1).expression
  have hafter : Closing separators (',' :: rest) :=
    closing_cons (by decide) (by decide) (by decide)
  obtain ⟨c, more, hc, hstart, -⟩ := id hk
  have hfirst : s.cursor.ahead = c :: (more ++ '=' :: (v.toList ++ ',' :: rest)) := by
    rw [hs, hc, List.cons_append]
  obtain ⟨u, hprimary, hu⟩ := pair_done hk hvalue hafter hs
  rw [dropWhile_isBlank_cons (by decide)] at hu
  refine ⟨u, hu, BranchMark.unset_of_primary hprimary hbranch, ?_⟩
  rw [operand_of_isStart hfirst hstart, primaryOperand, bind_bind, bind_of_done hprimary]
  simp only [ofTerm, bind_bind]
  rfl

theorem ahead_afterComma {rest : List Char} (hs : s.cursor.ahead = ',' :: rest) :
    (afterComma s).cursor.ahead = rest.dropWhile isBlank := by
  have hpeek : s.cursor.peek? = some ',' := by rw [peek?_of_ahead hs, List.head?_cons]
  have hblank : pastBlanks s = s := pastBlanks_of_peek hpeek (by decide)
  rw [afterComma, hblank, if_pos hpeek, ahead_pastBlanks, ahead_advance_one hs]

theorem pastBlanks_afterComma (s : State) : pastBlanks (afterComma s) = afterComma s :=
  pastBlanks_pastBlanks _

/-- A named argument stays as it is exactly if no further one is read after it. -/
theorem pairs_single_iff {k : String} {value : Node} {c : Char} {rest : List Char}
    (hw : (afterComma s).cursor.ahead = c :: rest) (hbranch : s.inBranch = false)
    (hprimary : letters.isStart c = true → ∃ x u, rules .primary (afterComma s) = .done x u) :
    rules (.pairs [(k, .single value)]) s = .done [(k, .single value)] t ↔
      t = afterComma s ∧ beginsPair (c :: rest) = false := by
  have hpeek : (afterComma s).cursor.peek? = some c := by rw [peek?_of_ahead hw, List.head?_cons]
  -- the state from which a name that is no named argument is read again
  have hback : ∀ {x : Term} {u : State}, rules .primary (afterComma s) = .done x u →
      { u with cursor := (afterComma s).cursor } = afterComma s := by
    intro x u hx
    have hbefore : (afterComma s).inBranch = false := by rw [inBranch_afterComma, hbranch]
    have hafter : u.inBranch = false := BranchMark.unset_of_primary hx hbefore
    rw [hafter, ← hbefore]
  rw [rules_eq]
  change pairs .standard rules _ s = _ ↔ _
  constructor
  · intro h
    cases Origins.pairs_cases h with
    | nothing hstart =>
      rw [hpeek, Option.any_some] at hstart
      have hstart : letters.isStart c = false := hstart
      refine ⟨rfl, ?_⟩
      rw [beginsPair, pairAhead, List.head?_cons, Option.any_some, hstart]
      rfl
    | other hstart hx =>
      rw [hback hx, ← hw]
      rcases primary_cases hx with ⟨-, k', v', hpair⟩ | ⟨hpair, -⟩
      · cases hpair
      · exact ⟨rfl, hpair⟩
    | pair hstart hx hmore =>
      have hle := length_pairsOf_le hmore
      rw [length_pairsOf_addValue] at hle
      exact absurd hle (by simp [pairsOf, Entry.values])
  · rintro ⟨rfl, hpair⟩
    by_cases hstart : letters.isStart c = true
    · obtain ⟨x, u, hx⟩ := hprimary hstart
      have hany : (afterComma s).cursor.peek?.any letters.isStart = true := by
        rw [hpeek, Option.any_some, hstart]
      rcases primary_cases hx with ⟨hb, -⟩ | ⟨-, n, rfl⟩
      · rw [hw, hpair] at hb
        cases hb
      · rw [pairs_of_node hany hx, hback hx]
    · apply pairs_of_not_start
      rw [hpeek, Option.any_some]
      exact Bool.of_not_eq_true hstart

/-- Where an item is read, an operator or the mark of a conditional is ahead only as a sign. -/
theorem operatorAt_of_items {ns : List Node} {n : Node} {c : Char} {rest : List Char}
    (hs : s.cursor.ahead = c :: rest) (hblank : pastBlanks s = s)
    (h : rules (.items .round) s = .done (n :: ns) t) :
    (letters.isStart c = true → ∃ x u, rules .primary s = .done x u) ∧ c ≠ ')' ∧
      (operatorAt (c :: rest) = none ∧ c ≠ '?' ↔ c ≠ '+' ∧ c ≠ '-') := by
  have hsigns : operatorAt (c :: rest) = none → c ≠ '+' ∧ c ≠ '-' := by
    intro hnone
    have hall := binaryAt?_eq_none_iff.mp hnone
    refine ⟨?_, ?_⟩
    · rintro rfl
      exact hall ("+", 9) (by decide) ⟨rest, rfl⟩
    · rintro rfl
      exact hall ("-", 9) (by decide) ⟨rest, rfl⟩
  obtain ⟨d, hd, hcases⟩ := items_cases h
  rw [hblank, peek?_of_ahead hs, List.head?_cons, Option.some.injEq] at hd
  subst hd
  rcases hcases with ⟨-, hnil⟩ | rfl | ⟨hclosing, hcomma, m, u, ms, hexpression, -, -⟩
  · cases hnil
  · have hnone : operatorAt (',' :: rest) = none :=
      binaryAt?_eq_none (forall_mem_head?_cons rest (by decide))
    exact ⟨fun h => absurd h (by decide), by decide, fun _ => by decide,
      fun _ => ⟨hnone, by decide⟩⟩
  · rw [hblank] at hexpression
    obtain ⟨left, v, hoperand⟩ := exists_operand_of_expression hexpression
    refine ⟨fun hstart => ?_, hclosing, fun h => hsigns h.1, fun hsign => ?_⟩
    · exact exists_primary_of_operand hs hstart hoperand
    · exact operatorAt_of_operand hoperand (by rw [← ahead_pastBlanks, hblank, hs]) hsign

theorem absorbed_eq_false_iff {text rest : List Char} {c : Char}
    (htext : text.dropWhile isBlank = c :: rest) :
    absorbed text = false ↔ (c ≠ '+' ∧ c ≠ '-') ∧ beginsPair (c :: rest) = false := by
  unfold absorbed
  rw [htext]
  simp [Bool.or_eq_false_iff]

/-- In front of further items a named argument is an expression of its own unless it absorbs what
stands after its comma. -/
theorem expression_named_iff {k v : String} {x : Binary64} {rest : List Char} (hk : IsWord k)
    (hv : Numeral.read? v.toList = some x)
    (hs : s.cursor.ahead = k.toList ++ '=' :: (v.toList ++ ',' :: rest))
    (hbranch : s.inBranch = false) :
    ∃ w, w.cursor.ahead = rest.dropWhile isBlank ∧ w.inBranch = false ∧
      ∀ n ns t', rules (.items .round) w = .done (n :: ns) t' → ∀ t,
        rules .expression s =
          .done (some (.keyValues [(k, .single (.literal (.number x) v))])) t ↔
            t = w ∧ absorbed rest = false := by
  obtain ⟨u, hu, hubranch, hoperand⟩ := operand_named hk hv hs hbranch
  have hahead : (afterComma u).cursor.ahead = rest.dropWhile isBlank := ahead_afterComma hu
  have hblank := pastBlanks_afterComma u
  refine ⟨afterComma u, hahead, by rw [inBranch_afterComma, hubranch], ?_⟩
  intro n ns t' hitems t
  obtain ⟨c, hc, -⟩ := items_cases hitems
  rw [hblank] at hc
  obtain ⟨more, hw⟩ := Cursor.ahead_of_peek hc
  obtain ⟨hprimary, -, hsign⟩ := operatorAt_of_items hw hblank hitems
  have hpairs : ∀ t, rules .operand s =
      .done (some (.keyValues [(k, .single (.literal (.number x) v))])) t ↔
        t = afterComma u ∧ beginsPair (c :: more) = false := by
    intro t
    rw [hoperand, ← pairs_single_iff hw hubranch hprimary]
    constructor
    · intro h
      obtain ⟨keys, t', hkeys, h⟩ := bind_eq_done.mp h
      cases h
      exact hkeys
    · exact fun h => bind_of_done h _
  have hfollows : ∀ t, t = afterComma u →
      (operatorAt t.cursor.ahead = none ∧ t.cursor.peek? ≠ some '?' ↔ c ≠ '+' ∧ c ≠ '-') := by
    rintro t rfl
    rw [peek?_of_ahead hw, hw, List.head?_cons, ne_eq, Option.some.injEq]
    exact hsign
  rw [expression_done_iff rfl rfl,
    absorbed_eq_false_iff (hahead.symm.trans hw)]
  constructor
  · rintro ⟨t', ht', rfl, hat⟩
    obtain ⟨rfl, hpair⟩ := (hpairs t').mp ht'
    exact ⟨hblank, (hfollows _ hblank).mp hat, hpair⟩
  · rintro ⟨rfl, hsigns, hpair⟩
    exact ⟨afterComma u, (hpairs _).mpr ⟨rfl, hpair⟩, hblank.symm, (hfollows _ rfl).mpr hsigns⟩

/-- After a named argument and a comma the items are those that stand there alone, unless they are
absorbed. -/
theorem items_named_iff {k v : String} {x : Binary64} {rest : List Char} {n : Node} {p : State}
    (hk : IsWord k) (hv : Numeral.read? v.toList = some x)
    (hs : s.cursor.ahead = k.toList ++ '=' :: (v.toList ++ ',' :: rest))
    (hbranch : s.inBranch = false) (hp : p.cursor.ahead.dropWhile isBlank = rest.dropWhile isBlank)
    (hpbranch : p.inBranch = false) (hitems : Done (rules (.items .round) p) [n] []) :
    Done (rules (.items .round) s)
      [.keyValues [(k, .single (.literal (.number x) v))], n] [] ↔ absorbed rest = false := by
  obtain ⟨w, hw, hwbranch, hexpression⟩ := expression_named_iff hk hv hs hbranch
  -- the same item is read after the named argument
  obtain ⟨t', hmore, ht'⟩ : Done (rules (.items .round) w) [n] [] := by
    obtain ⟨q, hq, hqahead⟩ := hitems
    rw [← items_pastBlanks] at hq
    have hahead : w.cursor.ahead = (pastBlanks p).cursor.ahead := by
      rw [hw, ahead_pastBlanks, hp]
    obtain ⟨t', ht', htahead⟩ :=
      settled_congr isStart_question hahead (hwbranch.trans hpbranch.symm) hq
    exact ⟨t', ht', htahead.trans hqahead⟩
  have hnamed := hexpression n [] t' hmore
  obtain ⟨d, after, hd, hstart, -⟩ := id hk
  have hfirst : s.cursor.peek? = some d := by
    rw [peek?_of_ahead hs, hd, List.cons_append, List.head?_cons]
  have hblank : pastBlanks s = s := pastBlanks_of_peek hfirst (isBlank_of_isStart hstart)
  have hother : d ∉ [')', ','] := not_mem_of_isStart hstart (by decide)
  simp only [List.mem_cons, not_or] at hother
  constructor
  · rintro ⟨t, h, -⟩
    obtain ⟨d', hd', hcases⟩ := items_cases h
    rw [hblank, hfirst, Option.some.injEq] at hd'
    subst hd'
    rcases hcases with ⟨hclosing, -⟩ | hcomma | ⟨-, -, m, u, ms, hm, -, heq⟩
    · exact absurd hclosing hother.1
    · exact absurd hcomma hother.2.1
    · rw [hblank] at hm
      cases heq
      exact ((hnamed u).mp hm).2
  · intro habsorbed
    have hm := (hnamed w).mpr ⟨rfl, habsorbed⟩
    refine ⟨t', items_cons (c := d) ?_ hother.1 hother.2.1 (by simp) ?_ hmore, ht'⟩
    · rw [hblank, hfirst]
    · rw [hblank, hm]

/-- How an operand is read that begins with a call of `f`. -/
theorem operand_call_eq (rest : List Char) :
    rules .operand ⟨⟨[], 'f' :: '(' :: rest⟩, false⟩ = (do
      let arguments ← rules (.items .round)
      skipBlanks
      let n ← rules (.links (.call (.plain "f") arguments))
      let m ← joinName letters n
      return some (← ofTerm .standard rules (.node m)) : Parse (Option Node))
        ⟨⟨['(', 'f'], rest⟩, false⟩ := by
  have hprimary : rules .primary ⟨⟨[], 'f' :: '(' :: rest⟩, false⟩ =
      (do return .node (← rules (.links (.plain "f"))) : Parse Term)
        ⟨⟨['f'], '(' :: rest⟩, false⟩ := by
    rw [rules_eq]
    rfl
  have hlinks : rules (.links (.plain "f")) ⟨⟨['f'], '(' :: rest⟩, false⟩ =
      (do
        let arguments ← rules (.items .round)
        skipBlanks
        rules (.links (.call (.plain "f") arguments)) : Parse Node)
          ⟨⟨['(', 'f'], rest⟩, false⟩ := by
    rw [rules_eq]
    rfl
  rw [operand_of_isStart rfl (by decide), primaryOperand, bind_bind, bind_congr_apply hprimary]
  simp only [bind_bind]
  rw [bind_congr_apply hlinks]
  simp only [bind_bind, return_bind]

/-- A call of `f` with nothing else after it has the items in its parentheses as arguments. -/
theorem operand_call {rest : List Char} {arguments : List Node}
    (h : rules .operand ⟨⟨[], 'f' :: '(' :: rest⟩, false⟩ =
      .done (some (.call (.plain "f") arguments)) t) :
    ∃ u, rules (.items .round) ⟨⟨['(', 'f'], rest⟩, false⟩ = .done arguments u ∧
      t = pastBlanks u := by
  rw [operand_call_eq] at h
  obtain ⟨read, u, hitems, h⟩ := bind_eq_done.mp h
  rw [bind_skipBlanks_apply] at h
  obtain ⟨n, v, hn, h⟩ := bind_eq_done.mp h
  have hlinks := links_cases hn
  have hcount : linkCount (.call (.plain "f") read) = 1 := rfl
  have hname : n.name? = none := by
    apply name?_of_linkCount
    rcases hlinks with ⟨rfl, -⟩ | hlt
    · omega
    · omega
  rw [bind_of_done (joinName_of_name? hname v), bind_of_done (ofTerm_of_name? hname v)] at h
  cases h
  rcases hlinks with ⟨heq, rfl⟩ | hlt
  · cases heq
    exact ⟨u, hitems, rfl⟩
  · exact absurd hlt (Nat.lt_irrefl 1)

theorem operand_call_done {rest : List Char} {arguments : List Node}
    (h : Done (rules (.items .round) ⟨⟨['(', 'f'], rest⟩, false⟩) arguments []) :
    Done (rules .operand ⟨⟨[], 'f' :: '(' :: rest⟩, false⟩)
      (some (.call (.plain "f") arguments)) [] := by
  rw [operand_call_eq]
  refine h.bind fun u hu => ?_
  refine (skipBlanks_done (by rw [hu, List.dropWhile_nil])).bind fun v hv => ?_
  have hlinks : rules (.links (.call (.plain "f") arguments)) v =
      .done (.call (.plain "f") arguments) v := by
    rw [rules_eq]
    change links .standard rules _ v = _
    rw [links_eq, bind_peek_apply, peek?_of_ahead hv]
    rfl
  rw [bind_of_done hlinks, bind_of_done (joinName_of_name? rfl v),
    bind_of_done (ofTerm_of_name? rfl v)]
  exact ⟨v, rfl, hv⟩

/-- A call of `f` over a whole source: the items in its parentheses are read to the end. -/
theorem parse_call_iff {source : String} {inside : List Char} {arguments : List Node}
    (hsource : source.toList = 'f' :: '(' :: (inside ++ [')'])) :
    Grammar.standard.parse source = .ok (.call (.plain "f") arguments) ↔
      Done (rules (.items .round) ⟨⟨['(', 'f'], inside ++ [')']⟩, false⟩) arguments [] := by
  have hstart : State.start source = ⟨⟨[], 'f' :: '(' :: (inside ++ [')'])⟩, false⟩ := by
    rw [State.start, hsource]
    rfl
  rw [parse_eq_ok_iff isStart_question, hstart, statements_single_iff rfl (by decide) (by simp)]
  simp only [expression_done_iff (n := .call (.plain "f") arguments) rfl rfl]
  constructor
  · rintro ⟨_, t, ⟨v, hv, rfl, -, -⟩, hend⟩
    obtain ⟨u, hu, rfl⟩ := operand_call hv
    refine ⟨u, hu, ?_⟩
    rw [pastBlanks_pastBlanks] at hend
    have hseparators := mem_separators_of_statements hend
    rw [ahead_pastBlanks] at hseparators
    obtain ⟨⟨m, hm⟩, -⟩ := (Progress.advance_run isStart_question _ (.items .round) _).of_done hu
    have hrest : u.cursor.ahead = (inside ++ [')']).drop m := by rw [hm, Cursor.ahead_advance]
    -- the last bracket is no separator, so it was read
    rcases Nat.lt_or_ge inside.length m with hlt | hge
    · rw [hrest]
      apply List.drop_of_length_le
      rw [List.length_append, List.length_singleton]
      omega
    · have hblank : ∀ c ∈ [')'].head?, isBlank c = false := forall_mem_head?_cons [] (by decide)
      rw [hrest, List.drop_append_of_le_length hge, dropWhile_append_of_head hblank] at hseparators
      exact absurd (hseparators ')' (by simp)) (by decide)
  · intro h
    obtain ⟨v, hv, hahead⟩ := operand_call_done h
    have hend : (pastBlanks v).cursor.ahead = [] := by
      rw [ahead_pastBlanks, hahead, List.dropWhile_nil]
    refine ⟨pastBlanks v, pastBlanks v, ⟨v, hv, rfl, ?_, ?_⟩, ?_⟩
    · rw [hend]
      exact binaryAt?_eq_none (by simp)
    · rw [peek?_of_ahead hend]
      simp
    · rw [rules_eq]
      exact statements_of_end (peek?_of_ahead hend)

/-- A positional argument after a named one is kept as an argument of its own exactly if it does
not begin with a sign or like a named argument. -/
theorem parse_after_named_iff {k v e : String} {x : Binary64} {n : Node} (hk : IsWord k)
    (hv : Numeral.read? v.toList = some x)
    (he : Grammar.standard.parse ("f(" ++ e ++ ")") = .ok (.call (.plain "f") [n])) :
    Grammar.standard.parse ("f(" ++ k ++ "=" ++ v ++ ", " ++ e ++ ")") =
        .ok (.call (.plain "f") [.keyValues [(k, .single (.literal (.number x) v))], n]) ↔
      absorbed e.toList = false := by
  have halone : ("f(" ++ e ++ ")").toList = 'f' :: '(' :: (e.toList ++ [')']) := by
    simp
  have hnamed : ("f(" ++ k ++ "=" ++ v ++ ", " ++ e ++ ")").toList =
      'f' :: '(' :: ((k.toList ++ '=' :: (v.toList ++ ',' :: ' ' :: e.toList)) ++ [')']) := by
    simp
  have hblank : absorbed (' ' :: (e.toList ++ [')'])) = absorbed (e.toList ++ [')']) := rfl
  rw [parse_call_iff halone] at he
  rw [parse_call_iff hnamed, ← absorbed_append, ← hblank]
  exact items_named_iff hk hv (by simp) rfl rfl rfl he

/-- A name is kept, and a sign is not. -/
theorem parse_after_named_name_and_sign :
    let k : Node := .keyValues [("k", .single (.literal (.number (.ofInt 1)) "1"))]
    let negated : Node := .unary "-" (.plain "b") true
    (Grammar.standard.parse "f(b)" = .ok (.call (.plain "f") [.plain "b"]) ∧
      Grammar.standard.parse "f(k=1, b)" = .ok (.call (.plain "f") [k, .plain "b"])) ∧
    Grammar.standard.parse "f(-b)" = .ok (.call (.plain "f") [negated]) ∧
      Grammar.standard.parse "f(k=1, -b)" ≠ .ok (.call (.plain "f") [k, negated]) := by
  have hk : IsWord "k" := ⟨'k', [], rfl, by decide, by simp⟩
  have hv : Numeral.read? "1".toList = some (.ofInt 1) := by decide +kernel
  have hname : Grammar.standard.parse ("f(" ++ "b" ++ ")") =
      .ok (.call (.plain "f") [.plain "b"]) := by decide +kernel
  have hsign : Grammar.standard.parse ("f(" ++ "-b" ++ ")") =
      .ok (.call (.plain "f") [.unary "-" (.plain "b") true]) := by decide +kernel
  refine ⟨⟨hname, ?_⟩, hsign, fun h => ?_⟩
  · exact (parse_after_named_iff hk hv hname).mpr (by decide)
  · exact absurd ((parse_after_named_iff hk hv hsign).mp h) (by decide)

end

end ExprTree.Positional
