import ExprTree.Proofs.Printed

/-!
Named arguments. They are read one by one, and each is added to those read before: at the end of
the values of its key, or as a new key. Taken apart into single arguments and added up again, the
keys of a node come back as they were, see `addAll_pairsOf`.
-/

namespace ExprTree.NamedArguments

open Parse Standard Print Reading Printed

/-- The arguments of the keys, one by one. -/
def pairsOf (keys : Keyed (Entry Node)) : List (String × Node) :=
  keys.flatMap fun k => k.2.values.map (k.1, ·)

/-- All arguments added, one after the other. -/
def addAll (keys : Keyed (Entry Node)) (pairs : List (String × Node)) : Keyed (Entry Node) :=
  pairs.foldl (fun keys p => addValue keys p.1 p.2) keys

section

variable {keys : Keyed (Entry Node)} {key : String}

theorem addValue_new (hkey : key ∉ keys.keys) (value : Node) :
    addValue keys key value = keys ++ [(key, .single value)] := by
  calc addValue keys key value
      = addValue (keys ++ []) key value := by rw [List.append_nil]
    _ = keys ++ addValue [] key value := Keyed.alter_append hkey [] _
    _ = keys ++ [(key, .single value)] := rfl

theorem addValue_last (hkey : key ∉ keys.keys) (entry : Entry Node) (value : Node) :
    addValue (keys ++ [(key, entry)]) key value = keys ++ [(key, entry.push value)] := by
  rw [addValue, Keyed.alter_append hkey, Keyed.alter]
  simp only [if_true]

theorem addAll_last (hkey : key ∉ keys.keys) (entry : Entry Node) (v : Node) (vs : List Node) :
    addAll (keys ++ [(key, entry)]) ((v :: vs).map (key, ·)) =
      keys ++ [(key, .many (entry.values ++ v :: vs))] := by
  induction vs generalizing entry v with
  | nil => exact addValue_last hkey entry v
  | cons w vs ih =>
    have hstep : addAll (keys ++ [(key, entry)]) ((v :: w :: vs).map (key, ·)) =
        addAll (keys ++ [(key, entry.push v)]) ((w :: vs).map (key, ·)) := by
      rw [← addValue_last hkey entry v]
      rfl
    rw [hstep, ih, Entry.values_push, List.append_assoc, List.singleton_append]

/-- The values of one entry give the entry. -/
theorem addAll_entry (hkey : key ∉ keys.keys) {entry : Entry Node} (hentry : WellCounted entry) :
    addAll keys (entry.values.map (key, ·)) = keys ++ [(key, entry)] := by
  cases entry with
  | single v => exact addValue_new hkey v
  | many values =>
    match values, hentry with
    | v :: w :: vs, _ =>
      have hstep : addAll keys ((Entry.many (v :: w :: vs)).values.map (key, ·)) =
          addAll (addValue keys key v) ((w :: vs).map (key, ·)) := rfl
      rw [hstep, addValue_new hkey, addAll_last hkey]
      rfl

theorem addAll_pairsOf {acc : Keyed (Entry Node)} (hkeys : (acc ++ keys).keys.Nodup)
    (hentries : ∀ k ∈ keys, WellCounted k.2) : addAll acc (pairsOf keys) = acc ++ keys := by
  induction keys generalizing acc with
  | nil => simp [pairsOf, addAll]
  | cons k keys ih =>
    obtain ⟨key, entry⟩ := k
    have hkey : key ∉ acc.keys := by
      simp only [Keyed.keys, List.map_append, List.map_cons, List.nodup_append] at hkeys
      exact fun h => hkeys.2.2 key h key List.mem_cons_self rfl
    have hsplit : addAll acc (pairsOf ((key, entry) :: keys)) =
        addAll (addAll acc (entry.values.map (key, ·))) (pairsOf keys) := by
      simp [addAll, pairsOf]
    rw [hsplit, addAll_entry hkey (hentries _ List.mem_cons_self),
      ih (by simpa using hkeys) fun k hk => hentries k (List.mem_cons_of_mem _ hk)]
    simp

theorem pairsOf_ne_nil (hkeys : keys ≠ []) (hentries : ∀ k ∈ keys, WellCounted k.2) :
    pairsOf keys ≠ [] := by
  cases keys with
  | nil => exact absurd rfl hkeys
  | cons k keys =>
    obtain ⟨key, entry⟩ := k
    have hentry := hentries _ List.mem_cons_self
    cases entry with
    | single v => simp [pairsOf, Entry.values]
    | many values =>
      have hpos : values ≠ [] := by
        rintro rfl
        simp [WellCounted] at hentry
      simp [pairsOf, Entry.values, hpos]

theorem valueTexts_eq (key : String) (values : List Node) :
    valueTexts key values = values.map fun v => pairText key v (bare v) := by
  induction values with
  | nil => rfl
  | cons v vs ih => rw [valueTexts, ih, List.map_cons]

theorem keyTexts_eq (keys : Keyed (Entry Node)) :
    keyTexts keys = (pairsOf keys).map fun p => pairText p.1 p.2 (bare p.2) := by
  induction keys with
  | nil => rfl
  | cons k keys ih =>
    obtain ⟨key, entry⟩ := k
    rw [keyTexts, ih]
    cases entry with
    | single v => simp [entryTexts, pairsOf, Entry.values]
    | many values => simp [entryTexts, valueTexts_eq, pairsOf, Entry.values]

theorem commas_cons (t : List Char) (ts : List (List Char)) :
    commas (t :: ts) = t ++ ts.flatMap (',' :: ·) := by
  induction ts generalizing t with
  | nil => simp [commas]
  | cons u ts ih => rw [commas, ih, List.flatMap_cons, List.cons_append]

end

section

variable {key : String} {value : Node} {text after : List Char} {s : State}

theorem peek?_word {w : String} (hw : IsWord w) (hs : s.cursor.ahead = w.toList ++ after) :
    ∃ c, s.cursor.peek? = some c ∧ letters.isStart c = true := by
  obtain ⟨c, rest, hc, hstart, -⟩ := hw
  exact ⟨c, by rw [peek?_of_ahead hs, hc, List.cons_append, List.head?_cons], hstart⟩

/-- A key with its value is read as a named argument. -/
theorem pair_done (hkey : IsWord key) (hvalue : ExpressionReads separators value text)
    (hafter : Closing separators after)
    (hs : s.cursor.ahead = key.toList ++ '=' :: (text ++ after)) :
    Done (rules .primary s) (.pair key value) (after.dropWhile isBlank) := by
  obtain ⟨c, hpeek, hstart⟩ := peek?_word hkey hs
  have hparen : s.cursor.peek? ≠ some '(' := by
    rw [hpeek, ne_eq, Option.some.injEq]
    exact ne_of_isStart hstart (by decide)
  have hword : Done (word .standard rules s) (.pair key value) (after.dropWhile isBlank) := by
    refine (name_done hkey (forall_mem_head?_cons _ (by decide)) hs).bind fun t ht => ?_
    have hequals : t.cursor.peek? = some '=' ∧ t.cursor.peekAt? 1 ≠ some '=' := by
      obtain ⟨d, rest, hd, hopen⟩ := hvalue.opens
      simp only [List.mem_cons, not_or] at hopen
      rw [Cursor.peek?, Cursor.peekAt?, ht, hd]
      exact ⟨rfl, by simpa using hopen.2.2.2.2.2.2.1⟩
    simp only [bind_here_apply, hequals, ne_eq, not_false_eq_true, and_self, if_true]
    refine (advance_done ht).bind fun u hu => ?_
    refine ((hvalue.reads after u hafter ?_).require _).bind fun v hv => done_pure hv
    rw [hu, hvalue.opens.append]
  rw [rules_eq]
  change Done (primary .standard rules s) _ _
  unfold primary
  simp only [bind_bind, bind_peek_apply, hparen, if_false]
  exact hword.bind fun t ht => done_pure ht

/-- A key with a value, as it is read. -/
def PairReads (p : String × Node) : Prop :=
  IsWord p.1 ∧ ExpressionReads separators p.2 (wrap 1 p.2 (bare p.2))

/-- What stands after a named argument: the others, each after a comma. -/
def others (pairs : List (String × Node)) (after : List Char) : List Char :=
  pairs.flatMap (fun p => ',' :: pairText p.1 p.2 (bare p.2)) ++ after

theorem closing_others (pairs : List (String × Node)) (hafter : Closing closers after) :
    Closing separators (others pairs after) := by
  cases pairs with
  | nil => exact hafter.mono separators_of_closers
  | cons p pairs => exact closing_cons (by decide) (by decide) (by decide)

/-- Further named arguments are added up to where none follows. -/
theorem pairs_done (hafter : Closing closers after) :
    ∀ (pairs : List (String × Node)) (keys : Keyed (Entry Node)) (s : State),
      (∀ p ∈ pairs, PairReads p) →
      s.cursor.ahead.dropWhile isBlank = (others pairs after).dropWhile isBlank →
      Done (rules (.pairs keys) s) (addAll keys pairs) (after.dropWhile isBlank)
  | [], keys, s, _, hs => by
    have hs : s.cursor.ahead.dropWhile isBlank = after.dropWhile isBlank := hs
    have hcomma : (after.dropWhile isBlank).head? ≠ some ',' :=
      fun h => absurd (hafter.visible ',' h) (by decide)
    have hname : (after.dropWhile isBlank).head?.any letters.isStart = false := by
      cases hhead : (after.dropWhile isBlank).head? with
      | none => rfl
      | some c =>
        have hclosers : ∀ d ∈ closers, letters.isStart d = false := forall_mem_of_all (by decide)
        exact hclosers c (hafter.visible c hhead)
    rw [rules_eq]
    refine (skipBlanks_done hs).bind fun t ht => ?_
    refine (not_eat_done ht hcomma).bind fun u hu => ?_
    refine (skipBlanks_done (by rw [hu, List.dropWhile_idempotent])).bind fun v hv => ?_
    simp only [bind_here_apply, peek?_of_ahead hv, hname, Bool.false_eq_true, if_false]
    exact done_pure hv
  | p :: pairs, keys, s, hpairs, hs => by
    obtain ⟨hkey, hvalue⟩ := hpairs p List.mem_cons_self
    have hfirst : s.cursor.ahead.dropWhile isBlank = ',' :: (p.1.toList ++
        '=' :: (wrap 1 p.2 (bare p.2) ++ others pairs after)) := by
      rw [hs]
      simp [others, pairText, isBlank]
    obtain ⟨c, more, hc, hstart, -⟩ := id hkey
    rw [rules_eq]
    refine (skipBlanks_done hfirst).bind fun t ht => ?_
    refine (eat_done ht).bind fun u hu => ?_
    refine (skipBlanks_done (by rw [hu, hc, List.cons_append,
      dropWhile_isBlank_cons (isBlank_of_isStart hstart)])).bind fun v hv => ?_
    rw [← List.cons_append, ← hc] at hv
    obtain ⟨d, hpeek, hd⟩ := peek?_word hkey hv
    simp only [bind_here_apply, hpeek, Option.any_some, hd, if_true]
    refine (pair_done hkey hvalue (closing_others pairs hafter) hv).bind fun w hw => ?_
    refine pairs_done hafter pairs _ w (fun q hq => hpairs q (List.mem_cons_of_mem p hq)) ?_
    rw [hw, List.dropWhile_idempotent]

/-- Named arguments are one expression. -/
theorem keyValues_reads {keys : Keyed (Entry Node)} (hkeys : keys ≠ [])
    (hnodup : keys.keys.Nodup) (hentries : ∀ k ∈ keys, WellCounted k.2)
    (hpairs : ∀ p ∈ pairsOf keys, PairReads p) :
    ExpressionReads closers (.keyValues keys) (commas (keyTexts keys)) := by
  have hall : addAll [] (pairsOf keys) = keys := addAll_pairsOf hnodup hentries
  obtain ⟨p, pairs, hpairsOf⟩ := List.exists_cons_of_ne_nil (pairsOf_ne_nil hkeys hentries)
  rw [hpairsOf] at hpairs hall
  obtain ⟨hkey, hvalue⟩ := hpairs p List.mem_cons_self
  have htext : ∀ after, commas (keyTexts keys) ++ after = p.1.toList ++
      '=' :: (wrap 1 p.2 (bare p.2) ++ others pairs after) := by
    intro after
    rw [keyTexts_eq, hpairsOf, List.map_cons, commas_cons]
    simp [pairText, others, List.flatMap_map]
  obtain ⟨c, more, hc, hstart, -⟩ := id hkey
  have hopens : Opens (commas (keyTexts keys)) := by
    refine ⟨c, more ++ '=' :: (wrap 1 p.2 (bare p.2) ++ others pairs []), ?_,
      not_mem_of_isStart hstart (by decide)⟩
    have := htext []
    rwa [List.append_nil, hc] at this
  refine ⟨hopens, fun after s hafter hs => ?_⟩
  have hinside : s.cursor.skipBlanks.ahead.dropWhile isBlank =
      c :: (more ++ '=' :: (wrap 1 p.2 (bare p.2) ++ others pairs after)) := by
    apply dropWhile_skipBlanks
    rw [hs, htext, hc, List.cons_append]
  obtain ⟨t, ht, hoperand⟩ := operand_eq (s := { s with cursor := s.cursor.skipBlanks }) hinside
  rw [← List.cons_append, ← hc] at ht
  have hdone : Done (rules .operand { s with cursor := s.cursor.skipBlanks })
      (some (.keyValues keys)) (after.dropWhile isBlank) := by
    rw [hoperand, primaryOperand_of_isStart hstart]
    have hprimary : Done (primaryOperand .standard rules t) (.keyValues keys)
        (after.dropWhile isBlank) := by
      refine (pair_done hkey hvalue (closing_others pairs hafter) ht).bind fun u hu => ?_
      have hmore := pairs_done hafter pairs (addValue [] p.1 p.2) u
        (fun q hq => hpairs q (List.mem_cons_of_mem p hq)) (by rw [hu, List.dropWhile_idempotent])
      rw [← hall]
      exact hmore.map Node.keyValues
    exact hprimary.map some
  have hmarks : ∀ d ∈ (after.dropWhile isBlank).head?, d ∈ marks ∨ letters.isPart d = true := by
    intro d hd
    exact .inl (marks_of_separators d (separators_of_closers d (hafter.visible d hd)))
  have hname : gluedTest? "".toList = none := by decide
  have hbinary := binary_of_operand (g := .standard) rfl hdone
    (List.dropWhile_idempotent _ _) hmarks hname
  have hquestion : ((after.dropWhile isBlank).dropWhile isBlank).head? ≠ some '?' := by
    rw [List.dropWhile_idempotent]
    exact fun hd => absurd (hafter.visible '?' hd) (by decide)
  have hexpression := expression_of_binary hbinary hquestion
  rw [List.dropWhile_idempotent] at hexpression
  rwa [rules_eq]

end

end ExprTree.NamedArguments
