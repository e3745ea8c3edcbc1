import ExprTree.Proofs.Positional
import ExprTree.Proofs.Boundaries

/-!
What becomes of a run of named arguments. `Met` says which ones are read after a place, each behind
the comma and the blanks that may separate it from the one before, and `Stops` where the reading of
them ends. The node made of them loses none: `Folds` fixes its keys, their order, the values of each
and the form of each entry by the named arguments that were met.
-/

namespace ExprTree.Folded

open Parse Positional NamedArguments Collected

/-- The values that were given for a key, in their order. -/
def valuesOf (k : String) (pairs : List (String × Node)) : List Node :=
  (pairs.filter (·.1 = k)).map (·.2)

/-- The entry that holds some values. -/
def entryOf? : List Node → Option (Entry Node)
  | [] => none
  | [v] => some (.single v)
  | values => some (.many values)

/-- The keys hold all that was given: the names in the order in which they first occurred, each with
all its values, as a single one exactly if the name occurred once. -/
structure Folds (pairs : List (String × Node)) (keys : Keyed (Entry Node)) : Prop where
  names : keys.keys = (pairs.map (·.1)).eraseDups
  values : ∀ k entry, keys.get? k = some entry → entry.values = valuesOf k pairs
  single : ∀ k entry, keys.get? k = some entry →
    ((∃ v, entry = .single v) ↔ (pairs.map (·.1)).count k = 1)

/-- The named arguments that are read one after the other. -/
inductive Met (g : Grammar) : State → List (String × Node) → State → Prop
  | none {s : State} : Met g s [] s
  | pair {s u t : State} {k : String} {v : Node} {pairs : List (String × Node)} :
    (afterComma s).cursor.peek?.any g.letters.isStart = true →
    Gives g (afterComma s) .primary (.pair k v) u → Met g u pairs t → Met g s ((k, v) :: pairs) t

/-- Where the reading of named arguments ends: behind the comma and the blanks after the last one,
in front of what is none. What begins like one is read for that, and the cursor is put back. -/
structure Stops (g : Grammar) (last t : State) : Prop where
  cursor : t.cursor = (afterComma last).cursor
  none : pairAhead g.letters t.cursor.ahead = false
  looked : (afterComma last).cursor.peek?.any g.letters.isStart = false ∧ t = afterComma last ∨
    (afterComma last).cursor.peek?.any g.letters.isStart = true ∧
      ∃ n u, Gives g (afterComma last) .primary (.node n) u ∧ t.inBranch = u.inBranch

section

variable {pairs : List (String × Node)} {keys : Keyed (Entry Node)} {k : String} {v : Node}

theorem valuesOf_append (k : String) (pairs more : List (String × Node)) :
    valuesOf k (pairs ++ more) = valuesOf k pairs ++ valuesOf k more := by
  rw [valuesOf, List.filter_append, List.map_append, valuesOf, valuesOf]

theorem length_valuesOf (k : String) (pairs : List (String × Node)) :
    (valuesOf k pairs).length = (pairs.map (·.1)).count k := by
  induction pairs with
  | nil => rfl
  | cons p pairs ih =>
    rw [List.map_cons, List.count_cons, ← ih]
    by_cases h : p.1 = k <;> simp [valuesOf, h]

theorem valuesOf_eq_nil_iff : valuesOf k pairs = [] ↔ k ∉ pairs.map (·.1) := by
  rw [← List.length_eq_zero_iff, length_valuesOf, List.count_eq_zero]

/-- One more value is put into the entry of its key. -/
theorem entryOf?_append (values : List Node) (v : Node) :
    entryOf? (values ++ [v]) = some (match entryOf? values with
      | none => .single v
      | some entry => entry.push v) := by
  match values with
  | [] => rfl
  | [_] => rfl
  | _ :: _ :: _ => rfl

theorem addAll_append (keys : Keyed (Entry Node)) (pairs : List (String × Node)) (k : String)
    (v : Node) : addAll keys (pairs ++ [(k, v)]) = addValue (addAll keys pairs) k v := by
  rw [addAll, List.foldl_append]
  rfl

theorem get?_addAll (pairs : List (String × Node)) (k : String) :
    (addAll [] pairs).get? k = entryOf? (valuesOf k pairs) := by
  induction pairs using List.reverseRecOn with
  | nil => rfl
  | append_singleton pairs p ih =>
    obtain ⟨k', v⟩ := p
    rw [addAll_append, addValue, Keyed.get?_alter, valuesOf_append]
    by_cases h : k = k'
    · subst h
      have hlast : valuesOf k [(k, v)] = [v] := by simp [valuesOf]
      rw [if_pos rfl, hlast, entryOf?_append]
      cases hget : (addAll [] pairs).get? k <;> rw [hget] at ih <;> simp only [← ih]
    · have hlast : valuesOf k [(k', v)] = [] := by simp [valuesOf, Ne.symm h]
      rw [if_neg h, hlast, List.append_nil, ih]

theorem keys_addAll (pairs : List (String × Node)) :
    (addAll [] pairs).keys = (pairs.map (·.1)).eraseDups := by
  induction pairs using List.reverseRecOn with
  | nil => rfl
  | append_singleton pairs p ih =>
    obtain ⟨k, v⟩ := p
    rw [addAll_append, addValue, Keyed.keys_alter, ih, List.map_append, List.eraseDups_append]
    by_cases h : k ∈ pairs.map (·.1)
    · rw [if_pos (List.mem_eraseDups.mpr h)]
      simp [List.removeAll, h]
    · rw [if_neg (mt List.mem_eraseDups.mp h)]
      simp [List.removeAll, h, List.eraseDups_cons]

theorem nodup_keys_addAll (pairs : List (String × Node)) : (addAll [] pairs).keys.Nodup := by
  induction pairs using List.reverseRecOn with
  | nil => exact List.nodup_nil
  | append_singleton pairs p ih =>
    rw [addAll_append]
    exact Keyed.nodup_keys_alter ih _ _

theorem values_of_entryOf? {values : List Node} {entry : Entry Node}
    (h : entryOf? values = some entry) :
    entry.values = values ∧ ((∃ v, entry = .single v) ↔ values.length = 1) := by
  match values with
  | [] => cases h
  | [v] =>
    cases h
    simp [Entry.values]
  | v :: w :: values =>
    cases h
    simp [Entry.values]

theorem Folds.get? (h : Folds pairs keys) (k : String) :
    keys.get? k = entryOf? (valuesOf k pairs) := by
  cases hk : keys.get? k with
  | none =>
    have hkey : k ∉ pairs.map (·.1) := by
      rw [← List.mem_eraseDups, ← h.names, ← Keyed.isSome_get?, hk]
      simp
    rw [valuesOf_eq_nil_iff.mpr hkey]
    rfl
  | some entry =>
    have hvalues := h.values k entry hk
    have hsingle := h.single k entry hk
    rw [← length_valuesOf, ← hvalues] at hsingle
    rw [← hvalues]
    cases entry with
    | single v => rfl
    | many values =>
      have hkey : k ∈ pairs.map (·.1) := by
        rw [← List.mem_eraseDups, ← h.names, ← Keyed.isSome_get?, hk]
        rfl
      match values, hvalues, hsingle with
      | [], hvalues, _ => exact absurd (valuesOf_eq_nil_iff.mp hvalues.symm) (not_not_intro hkey)
      | [v], _, hsingle =>
        obtain ⟨w, hw⟩ := hsingle.mpr rfl
        cases hw
      | _ :: _ :: _, _, _ => rfl

/-- The keys are settled by what was given. -/
theorem folds_iff : Folds pairs keys ↔ keys = addAll [] pairs := by
  constructor
  · intro h
    refine (Keyed.ext (nodup_keys_addAll pairs) ((keys_addAll pairs).trans h.names.symm) ?_).symm
    intro k
    rw [h.get?, get?_addAll]
  · rintro rfl
    have hentry : ∀ k entry, (addAll [] pairs).get? k = some entry → _ :=
      fun k entry h => values_of_entryOf? ((get?_addAll pairs k).symm.trans h)
    refine ⟨keys_addAll pairs, fun k entry h => (hentry k entry h).1, fun k entry h => ?_⟩
    rw [(hentry k entry h).2, length_valuesOf]

end

section

variable {g : Grammar} {rs : Rules} {s t u last : State} {keys found : Keyed (Entry Node)}

theorem isPair_iff_of_gives {x : Term} (h : Gives g s .primary x t) :
    (∃ k v, x = .pair k v) ↔ pairAhead g.letters s.cursor.ahead = true := by
  obtain ⟨n, h⟩ := h
  cases n with
  | zero => cases h
  | succ n => exact isPair_iff h

theorem pairAhead_eq_false (h : s.cursor.peek?.any g.letters.isStart = false) :
    pairAhead g.letters s.cursor.ahead = false := by
  have hhead : s.cursor.ahead.head?.any g.letters.isStart = false := h
  simp [pairAhead, hhead]

theorem stops_of_not_start (h : (afterComma last).cursor.peek?.any g.letters.isStart = false) :
    Stops g last (afterComma last) :=
  ⟨rfl, pairAhead_eq_false h, .inl ⟨h, rfl⟩⟩

theorem stops_of_node {n : Node}
    (hstart : (afterComma last).cursor.peek?.any g.letters.isStart = true)
    (h : Gives g (afterComma last) .primary (.node n) u) :
    Stops g last { u with cursor := (afterComma last).cursor } := by
  refine ⟨rfl, ?_, .inr ⟨hstart, n, u, h, rfl⟩⟩
  rw [← Bool.not_eq_true, ← isPair_iff_of_gives h]
  rintro ⟨k, v, hpair⟩
  cases hpair

/-- The reading of named arguments goes on with those that are met, and stops after them. -/
theorem exists_met {n : Nat} (h : run g n (.pairs keys) s = .done found t) :
    ∃ pairs last, Met g s pairs last ∧ Stops g last t ∧ found = addAll keys pairs := by
  induction n generalizing keys s with
  | zero => cases h
  | succ n ih =>
    cases Origins.pairs_cases h with
    | nothing hstart => exact ⟨[], s, .none, stops_of_not_start hstart, rfl⟩
    | other hstart hnode => exact ⟨[], s, .none, stops_of_node hstart ⟨n, hnode⟩, rfl⟩
    | @pair k v _ u _ hstart hpair hmore =>
      obtain ⟨pairs, last, hmet, hstops, rfl⟩ := ih hmore
      exact ⟨(k, v) :: pairs, last, .pair hstart ⟨n, hpair⟩ hmet, hstops, rfl⟩

theorem gives_of_stops (h : Stops g s t) : Gives g s (.pairs keys) keys t := by
  obtain ⟨hcursor, -, ⟨hstart, rfl⟩ | ⟨hstart, n, u, ⟨m, hnode⟩, hbranch⟩⟩ := h
  · exact ⟨1, pairs_of_not_start hstart⟩
  · obtain rfl : t = { u with cursor := (afterComma s).cursor } := by
      rw [← hcursor, ← hbranch]
    exact ⟨m + 1, pairs_of_node hstart hnode⟩

theorem gives_of_met {pairs : List (String × Node)} (hmet : Met g s pairs last)
    (hstops : Stops g last t) (keys : Keyed (Entry Node)) :
    Gives g s (.pairs keys) (addAll keys pairs) t := by
  induction hmet generalizing keys with
  | none => exact gives_of_stops hstops
  | @pair s u last k v pairs hstart hpair _ ih =>
    obtain ⟨m, hpair⟩ := hpair
    obtain ⟨n, hmore⟩ := ih hstops (addValue keys k v)
    refine ⟨max m n + 1, ?_⟩
    change Parse.pairs g (run g (max m n)) keys s = _
    rw [pairs_of_pair hstart (Gives.of_le (Nat.le_max_left m n) hpair)]
    exact Gives.of_le (Nat.le_max_right m n) hmore

/-- A named argument is made into a node with all those that are met after it, and nothing of them
is lost: the names of the node are theirs, in the order of their first occurrences, and each has all
its values in their order. The cursor then is behind the comma and the blanks after the last one, in
front of what is no named argument. -/
theorem keyValues_iff (g : Grammar) (key : String) (value : Node) (s t : State) (a : Node) :
    (∃ n, ofTerm g (run g n) (.pair key value) s = .done a t) ↔
      ∃ pairs last keys, Met g s pairs last ∧ Stops g last t ∧ a = .keyValues keys ∧
        Folds ((key, value) :: pairs) keys := by
  constructor
  · rintro ⟨n, h⟩
    obtain ⟨keys, u, hpairs, h⟩ := bind_eq_done.mp h
    cases h
    obtain ⟨pairs, last, hmet, hstops, rfl⟩ := exists_met hpairs
    exact ⟨pairs, last, _, hmet, hstops, rfl, folds_iff.mpr rfl⟩
  · rintro ⟨pairs, last, keys, hmet, hstops, rfl, hfolds⟩
    obtain rfl := folds_iff.mp hfolds
    obtain ⟨n, hn⟩ := gives_of_met hmet hstops (addValue [] key value)
    exact ⟨n, bind_of_done hn _⟩

example : run .standard 8 .operand (.start "k=a, j=b k=c, d") =
    .done (some (.keyValues [("k", .many [.plain "a", .plain "c"]), ("j", .single (.plain "b"))]))
      ⟨⟨"k=a, j=b k=c, ".toList.reverse, ['d']⟩, false⟩ := by
  decide +kernel

end

end ExprTree.Folded
