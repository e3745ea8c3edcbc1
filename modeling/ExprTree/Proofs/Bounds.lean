import ExprTree.Proofs.Cuts
import ExprTree.Proofs.Decimals
import ExprTree.Proofs.Footing

/-!
The rules on a bare index stay inside the text, and give what the parser gives. Both go together:
the parser never loses a character of the text, so its places are indices of the text; and a walk
that stands at the index of a place takes the step that the parser takes from that place.
-/

namespace ExprTree.Bounds

open Walk Cuts Decimals Progress Reading

/-- A step of a walk that stays inside and ends as a step of the parser does. -/
inductive Meets (text : List Char) {α : Type} : Outcome α → Landing α → Prop where
  | done (a : α) {t : State} (ht : t.cursor.text = text) :
    Meets text (.done a t) (.done a t.spot)
  | failed {e : ParseError} {w : Spot} (he : e.index ≤ text.length) (hw : w.index ≤ text.length) :
    Meets text (.failed e) (.failed e w)
  | unfinished : Meets text .unfinished .unfinished

section

variable {α β : Type} {text : List Char} {s : State}

theorem spot_le (hs : s.cursor.text = text) : s.spot.index ≤ text.length :=
  hs ▸ s.cursor.index_le

theorem meets_of_done {o : Landing α} {a : α} {t : State} (ho : o = .done a t.spot)
    (ht : t.cursor.text = text) : Meets text (.done a t) o :=
  ho ▸ .done a ht

theorem meets_fail (hs : s.cursor.text = text) (cause : Cause) :
    Meets text ((Parse.fail cause : Parse α) s) ((fail cause : Walk α) text s.spot) :=
  .failed (spot_le hs) (spot_le hs)

theorem meets_bind {p : Parse α} {w : Walk α} {f : α → Parse β} {v : α → Walk β}
    (h : Meets text (p s) (w text s.spot))
    (hf : ∀ a t, t.cursor.text = text → Meets text (f a t) (v a text t.spot)) :
    Meets text ((p >>= f) s) ((w >>= v) text s.spot) := by
  generalize hp : p s = o at h
  generalize hw : w text s.spot = l at h
  cases h with
  | done a ht =>
    rw [Parse.bind_of_done hp, bind_of_done hw]
    exact hf a _ ht
  | failed he hv =>
    rw [Parse.bind_of_failed hp, bind_of_failed hw]
    exact .failed he hv
  | unfinished =>
    rw [Parse.bind_of_unfinished hp, bind_of_unfinished hw]
    exact .unfinished

theorem meets_map {p : Parse α} {w : Walk α} {f : α → β} (h : Meets text (p s) (w text s.spot)) :
    Meets text ((do return f (← p) : Parse β) s) ((do return f (← w) : Walk β) text s.spot) :=
  meets_bind h fun a _ ht => .done (f a) ht

theorem meets_ite {c : Prop} [Decidable c] {p q : Parse α} {w v : Walk α}
    (hp : c → Meets text (p s) (w text s.spot)) (hq : ¬ c → Meets text (q s) (v text s.spot)) :
    Meets text ((if c then p else q) s) ((if c then w else v) text s.spot) := by
  by_cases h : c
  · simpa only [h, if_true] using hp h
  · simpa only [h, if_false] using hq h

theorem meets_require {p : Parse (Option α)} {w : Walk (Option α)} (cause : Cause)
    (h : Meets text (p s) (w text s.spot)) :
    Meets text (Parse.require cause p s) (require cause w text s.spot) := by
  refine meets_bind h fun a t ht => ?_
  cases a with
  | none => exact meets_fail ht cause
  | some a => exact .done a ht

theorem meets_peek (hs : s.cursor.text = text) : Meets text (Parse.peek s) (peek text s.spot) :=
  meets_of_done (peek_apply hs) hs

theorem meets_advance_one (hs : s.cursor.text = text) :
    Meets text (Parse.advance 1 s) (pass text s.spot) :=
  meets_of_done (pass_apply hs) ((s.text_after 1).trans hs)

theorem meets_advance (hs : s.cursor.text = text) (n : Nat) :
    Meets text (Parse.advance n s) (skip n text s.spot) :=
  meets_of_done (skip_apply hs n) ((s.text_after n).trans hs)

theorem meets_skipBlanks (hs : s.cursor.text = text) :
    Meets text (Parse.skipBlanks s) (skipBlanks text s.spot) :=
  meets_of_done (skipWhile_apply isBlank hs) ((s.text_after _).trans hs)

theorem meets_eat (hs : s.cursor.text = text) (c : Char) :
    Meets text (Parse.eat c s) (eat c text s.spot) := by
  rw [eat_apply hs c]
  unfold Parse.eat
  split
  · exact .done true ((s.text_after 1).trans hs)
  · exact .done false hs

theorem meets_expect (hs : s.cursor.text = text) (c : Char) (cause : Cause) :
    Meets text (Parse.expect c cause s) (expect c cause text s.spot) :=
  meets_bind (meets_eat hs c) fun _ _ ht =>
    meets_ite (fun _ => .done () ht) fun _ => meets_fail ht cause

theorem meets_setInBranch (hs : s.cursor.text = text) (b : Bool) :
    Meets text (Parse.setInBranch b s) (setInBranch b text s.spot) :=
  .done () (t := { s with inBranch := b }) hs

end

section

variable {text : List Char} {s : State}

theorem take_length_takeWhile (p : Char → Bool) (cs : List Char) :
    cs.take (cs.takeWhile p).length = cs.takeWhile p :=
  (List.prefix_iff_eq_take.mp (List.takeWhile_prefix p)).symm

theorem meets_name (l : Letters) (hs : s.cursor.text = text) :
    Meets text (Parse.name l s) (name l text s.spot) := by
  unfold Parse.name name
  rw [Parse.bind_peek_apply, bind_index_apply, bind_of_done (peek_apply hs)]
  cases hc : s.cursor.peek? with
  | none => exact meets_fail hs _
  | some c =>
    refine meets_ite (fun hstart => ?_) fun _ => meets_fail hs _
    obtain ⟨rest, hahead⟩ := List.head?_eq_some_iff.mp hc
    have hpart : l.isPart c = true := by rw [Letters.isPart, hstart, Bool.true_or]
    have htaken : s.cursor.ahead.takeWhile l.isPart = c :: rest.takeWhile l.isPart := by
      rw [hahead, List.takeWhile_cons_of_pos hpart]
    have hrest : (s.after 1).cursor.ahead = rest := ahead_advance_one hahead
    have hle : (s.cursor.ahead.takeWhile l.isPart).length ≤ s.cursor.ahead.length :=
      (List.takeWhile_prefix _).length_le
    have hpassed : skipWhile l.isPart text (s.after 1).spot =
        .done () (s.after (s.cursor.ahead.takeWhile l.isPart).length).spot := by
      rw [skipWhile_apply _ ((s.text_after 1).trans hs), hrest, s.after_after, htaken,
        List.length_cons, Nat.add_comm]
    rw [bind_of_done (pass_apply hs), bind_of_done hpassed]
    refine meets_of_done ?_ ((s.text_after _).trans hs)
    have htext := sliceFrom_apply hs hle
    rw [take_length_takeWhile] at htext
    exact bind_of_done htext _

/-- How the steps through a quotation end, where they have read a text and its closing quote was
found or not. -/
def endOfQuotation (quote : Char) (value : List Char) (closed : Bool) (t : State) :
    Landing (List Char) :=
  if closed then .done value t.spot
  else .failed ⟨.openQuote quote (String.ofList value), t.cursor.index⟩ t.spot

/-- One round through a quotation. -/
theorem quoted_of_cons (quote : Char) {c : Char} {rest : List Char} (hs : s.cursor.text = text)
    (hahead : s.cursor.ahead = c :: rest) (n : Nat) (value : List Char) :
    quoted quote (n + 1) value text s.spot =
      if c = quote then .done value (s.after 1).spot
      else if c = '\\' then
        match rest with
        | [] => quoted quote n value text (s.after 1).spot
        | e :: _ => quoted quote n (value ++ [Quotation.unescape e]) text (s.after 2).spot
      else quoted quote n (value ++ [c]) text (s.after 1).spot := by
  have hpeek : s.cursor.peek? = some c := congrArg List.head? hahead
  have hnext : (s.after 1).cursor.peek? = rest.head? := by
    exact congrArg List.head? (ahead_advance_one hahead)
  rw [quoted, bind_of_done (next_apply hs), hpeek]
  dsimp only
  rw [ite_step, ite_step, bind_of_done (next_apply ((s.text_after 1).trans hs)), hnext,
    s.after_after]
  refine ite_congr rfl (fun _ => rfl) fun _ => ite_congr rfl (fun _ => ?_) fun _ => rfl
  cases rest with
  | nil =>
    have hend : s.after (1 + 1) = s.after 1 := by
      rw [← s.after_after, State.after_of_nil (ahead_advance_one hahead)]
    rw [hend]
    rfl
  | cons e rest => rfl

theorem quoted_of_nil (quote : Char) (hs : s.cursor.text = text) (hahead : s.cursor.ahead = [])
    (n : Nat) (value : List Char) :
    quoted quote (n + 1) value text s.spot = endOfQuotation quote value false s := by
  have hpeek : s.cursor.peek? = none := congrArg List.head? hahead
  rw [quoted, bind_of_done (next_apply hs), hpeek, s.after_of_nil hahead]
  rfl

/-- Character after character, a quotation is read as `Quotation.scan` reads it at once. -/
theorem quoted_apply (quote : Char) (cs : List Char) {s : State} (hs : s.cursor.text = text)
    (hahead : s.cursor.ahead = cs) {n : Nat} (hn : cs.length ≤ n) (value : List Char) :
    quoted quote (n + 1) value text s.spot =
      endOfQuotation quote (value ++ (Quotation.scan quote cs).value)
        (Quotation.scan quote cs).closed (s.after (Quotation.scan quote cs).raw.length) := by
  fun_induction Quotation.scan quote cs generalizing s n value with
  | case1 =>
    rw [quoted_of_nil quote hs hahead, List.append_nil]
    exact congrArg (endOfQuotation quote value false) s.after_zero.symm
  | case2 rest =>
    rw [quoted_of_cons quote hs hahead, if_pos rfl, List.append_nil]
    rfl
  | case3 hquote =>
    obtain ⟨n, rfl⟩ := Nat.exists_eq_add_one.mpr hn
    have hrest : (s.after 1).cursor.ahead = [] := ahead_advance_one hahead
    rw [quoted_of_cons quote hs hahead, if_neg hquote, if_pos rfl, List.append_nil]
    exact quoted_of_nil quote ((s.text_after 1).trans hs) hrest n value
  | case4 e rest q hquote =>
    rename_i ih
    rw [List.length_cons, List.length_cons] at hn
    obtain ⟨n, rfl⟩ : ∃ m, n = m + 1 := Nat.exists_eq_add_one.mpr (by omega)
    have hrest : (s.after 2).cursor.ahead = rest := by rw [s.ahead_after, hahead]; rfl
    rw [quoted_of_cons quote hs hahead, if_neg hquote, if_pos rfl]
    dsimp only
    rw [ih ((s.text_after 2).trans hs) hrest (by omega), s.after_after, List.append_assoc]
    refine congrArg (fun k => endOfQuotation quote _ _ (s.after k)) ?_
    exact Nat.add_comm 2 _
  | case5 c rest hquote hescape q =>
    rename_i ih
    rw [List.length_cons] at hn
    obtain ⟨n, rfl⟩ : ∃ m, n = m + 1 := Nat.exists_eq_add_one.mpr (by omega)
    have hrest : (s.after 1).cursor.ahead = rest := ahead_advance_one hahead
    rw [quoted_of_cons quote hs hahead, if_neg hquote, if_neg hescape,
      ih ((s.text_after 1).trans hs) hrest (by omega), s.after_after, List.append_assoc]
    refine congrArg (fun k => endOfQuotation quote _ _ (s.after k)) ?_
    exact Nat.add_comm 1 _

theorem meets_quotation (hs : s.cursor.text = text) :
    Meets text (Parse.quotation s) (quotation text s.spot) := by
  unfold Parse.quotation quotation
  rw [Parse.bind_here_apply, bind_index_apply, bind_of_done (next_apply hs)]
  cases hahead : s.cursor.ahead with
  | nil =>
    rw [Cursor.peek?, hahead, List.head?_nil, s.after_of_nil hahead]
    exact meets_fail hs _
  | cons quote rest =>
    have hrest : (s.after 1).cursor.ahead = rest := ahead_advance_one hahead
    have hlength : rest.length ≤ text.length := by
      rw [← hs, Cursor.length_text, hahead, List.length_cons]
      omega
    have hspelled : quote :: (Quotation.scan quote rest).raw <+: s.cursor.ahead := by
      rw [hahead]
      exact List.cons_prefix_cons.mpr ⟨rfl, raw_prefix_of_scan quote rest⟩
    have hquoted := quoted_apply quote rest ((s.text_after 1).trans hs) hrest hlength []
    rw [List.nil_append, s.after_after, Nat.add_comm 1] at hquoted
    have hslice := sliceFrom_apply hs hspelled.length_le
    rw [← List.prefix_iff_eq_take.mp hspelled, List.length_cons] at hslice
    rw [Cursor.peek?, hahead, List.head?_cons]
    dsimp only
    rw [Parse.bind_advance_apply, Parse.ite_step, bind_length_apply]
    cases hclosed : (Quotation.scan quote rest).closed with
    | true =>
      rw [hclosed] at hquoted
      rw [if_pos rfl, bind_of_done hquoted, bind_of_done hslice]
      exact .done _ ((s.text_after _).trans hs)
    | false =>
      rw [hclosed] at hquoted
      rw [if_neg Bool.false_ne_true, bind_of_failed hquoted]
      exact meets_fail ((s.text_after _).trans hs) _

/-- After digits were passed where no digit was in front, a digit was passed last unless there were
none. -/
theorem previous?_after_takeWhile {t : State}
    (hprevious : t.cursor.previous?.any Char.isDigit = false) :
    (!(t.after (t.cursor.ahead.takeWhile Char.isDigit).length).cursor.previous?.any
      Char.isDigit) = (t.cursor.ahead.takeWhile Char.isDigit).isEmpty := by
  have hall : ∀ d ∈ t.cursor.ahead.takeWhile Char.isDigit, d.isDigit = true :=
    fun _ => List.mem_takeWhile_imp
  simp only [State.after, Cursor.advance, Cursor.previous?, take_length_takeWhile,
    List.head?_append, List.head?_reverse]
  generalize t.cursor.ahead.takeWhile Char.isDigit = digits at hall
  cases hlast : digits.getLast? with
  | none =>
    rw [List.getLast?_eq_none_iff.mp hlast, List.isEmpty_nil, Option.none_or]
    exact congrArg (! ·) hprevious
  | some d =>
    have hd : d ∈ digits := List.mem_of_getLast? hlast
    rw [Option.some_or, Option.any_some, hall d hd, List.isEmpty_eq_false_iff.mpr
      (List.ne_nil_of_mem hd)]
    rfl

theorem munchDigits_apply (hs : s.cursor.text = text)
    (hprevious : s.cursor.previous?.any Char.isDigit = false) :
    (do
      skipWhile Char.isDigit
      return !(← previous).any Char.isDigit : Walk Bool) text s.spot =
      .done (s.cursor.ahead.takeWhile Char.isDigit).isEmpty
        (s.after (s.cursor.ahead.takeWhile Char.isDigit).length).spot := by
  rw [bind_of_done (skipWhile_apply _ hs),
    bind_of_done (previous_apply ((s.text_after _).trans hs)),
    previous?_after_takeWhile hprevious]
  rfl

theorem munchFraction_apply (hs : s.cursor.text = text) :
    munchFraction text s.spot = .done ()
      (s.after ((Numeral.munchFraction s.cursor.ahead).1.elim [] ('.' :: ·)).length).spot := by
  unfold munchFraction
  rw [bind_eat_apply hs, Cursor.peek?]
  generalize hahead : s.cursor.ahead = ahead
  fun_cases Numeral.munchFraction ahead with
  | case1 cs =>
    have hrest : (s.after 1).cursor.ahead = cs := ahead_advance_one hahead
    rw [List.head?_cons, if_pos rfl]
    change skipWhile Char.isDigit text (s.after 1).spot = _
    rw [skipWhile_apply _ ((s.text_after 1).trans hs), hrest, s.after_after, Nat.add_comm]
    rfl
  | case2 =>
    rename_i hpoint
    have hpeek : ahead.head? ≠ some '.' := fun h =>
      (List.head?_eq_some_iff.mp h).elim fun rest => hpoint rest
    rw [if_neg hpeek, Option.elim_none, List.length_nil, s.after_zero]
    rfl

theorem munchSign_apply (hs : s.cursor.text = text) :
    munchSign text s.spot = .done ()
      (s.after (if s.cursor.peek?.any (fun c => c = '+' ∨ c = '-') then 1 else 0)).spot := by
  unfold munchSign
  rw [bind_of_done (peek_apply hs), ite_step]
  split
  · exact pass_apply hs
  · rw [s.after_zero]
    rfl

theorem munchExponent_apply (hs : s.cursor.text = text) :
    munchExponent text s.spot =
      .done ((Exponent.munch s.cursor.ahead).1.any (·.digits.isEmpty))
        (s.after ((Exponent.munch s.cursor.ahead).1.elim [] Exponent.text).length).spot := by
  have hafter : ∀ n, (s.after n).cursor.text = text := fun n => (s.text_after n).trans hs
  have hmarker : ∀ m, m = 'e' ∨ m = 'E' → m.isDigit = false := by
    rintro m (rfl | rfl) <;> decide
  have hsign : ∀ c, c = '+' ∨ c = '-' → c.isDigit = false := by
    rintro c (rfl | rfl) <;> decide
  unfold munchExponent
  rw [bind_of_done (peek_apply hs), ite_step, Cursor.peek?, bind_of_done (pass_apply hs),
    bind_of_done (munchSign_apply (hafter 1)), s.after_after]
  generalize hahead : s.cursor.ahead = ahead
  have hone : (s.after 1).cursor.peek? = ahead.tail.head? := by
    rw [Cursor.peek?, s.ahead_after, hahead, List.drop_one]
  rw [hone]
  fun_cases Exponent.munch ahead with
  | case1 =>
    rw [Option.elim_none, List.length_nil, s.after_zero]
    rfl
  | case2 m hm =>
    have hprevious : (s.after 1).cursor.previous?.any Char.isDigit = false := by
      simp [State.after, Cursor.advance, Cursor.previous?, hahead, hmarker m hm]
    have hdigits := munchDigits_apply (hafter 1) hprevious
    have hrest : (s.after 1).cursor.ahead = [] := ahead_advance_one hahead
    rw [hrest, State.after_of_nil hrest] at hdigits
    rw [List.head?_cons, Option.any_some, if_pos (decide_eq_true hm)]
    exact hdigits
  | case3 m hm c ds hc =>
    have hprevious : (s.after 2).cursor.previous?.any Char.isDigit = false := by
      simp [State.after, Cursor.advance, Cursor.previous?, hahead, hsign c hc]
    have hdigits := munchDigits_apply (hafter 2) hprevious
    have hrest : (s.after 2).cursor.ahead = ds := by rw [s.ahead_after, hahead]; rfl
    rw [hrest, s.after_after] at hdigits
    rw [List.head?_cons, Option.any_some, if_pos (decide_eq_true hm), List.tail_cons,
      List.head?_cons, Option.any_some, if_pos (decide_eq_true hc), hdigits]
    refine congrArg (fun k => Landing.done _ (s.after k).spot) ?_
    simp [Exponent.text]
    omega
  | case4 m hm c ds hc =>
    have hprevious : (s.after 1).cursor.previous?.any Char.isDigit = false := by
      simp [State.after, Cursor.advance, Cursor.previous?, hahead, hmarker m hm]
    have hdigits := munchDigits_apply (hafter 1) hprevious
    have hrest : (s.after 1).cursor.ahead = c :: ds := ahead_advance_one hahead
    rw [hrest, s.after_after] at hdigits
    rw [List.head?_cons, Option.any_some, if_pos (decide_eq_true hm), List.tail_cons,
      List.head?_cons, Option.any_some, if_neg (by simpa using hc), hdigits]
    refine congrArg (fun k => Landing.done _ (s.after k).spot) ?_
    simp [Exponent.text]
    omega
  | case5 m cs hm =>
    rw [List.head?_cons, Option.any_some, if_neg (by simpa using hm), Option.elim_none,
      List.length_nil, s.after_zero]
    rfl

/-- Character after character, a numeral is munched as `Numeral.munch` munches it at once. -/
theorem munch_apply (hs : s.cursor.text = text) :
    munch text s.spot =
      .done (Numeral.munch s.cursor.ahead).1.lacksExponent
        (s.after (Numeral.munch s.cursor.ahead).1.text.length).spot := by
  have hafter : ∀ n, (s.after n).cursor.text = text := fun n => (s.text_after n).trans hs
  have hwhole : (s.after (s.cursor.ahead.takeWhile Char.isDigit).length).cursor.ahead =
      s.cursor.ahead.dropWhile Char.isDigit :=
    ahead_advance_of_append List.takeWhile_append_dropWhile.symm
  have hfraction : ∀ t : State, (t.after ((Numeral.munchFraction t.cursor.ahead).1.elim []
      ('.' :: ·)).length).cursor.ahead = (Numeral.munchFraction t.cursor.ahead).2 :=
    fun t => ahead_advance_of_append (Numeral.text_munchFraction t.cursor.ahead).symm
  unfold munch
  rw [bind_of_done (skipWhile_apply _ hs), bind_of_done (munchFraction_apply (hafter _)),
    munchExponent_apply ((State.text_after _ _).trans (hafter _)), hfraction, hwhole,
    State.after_after, State.after_after]
  simp only [Numeral.munch, Numeral.text, Numeral.lacksExponent, List.length_append,
    Nat.add_assoc]

theorem meets_nameFromNumeral (l : Letters) (hs : s.cursor.text = text) (numeral : List Char)
    (cause : Cause) :
    Meets text (Parse.nameFromNumeral l numeral cause s)
      (nameFromNumeral l numeral cause text s.spot) :=
  meets_ite (fun _ => meets_map (f := fun rest => Node.plain (String.ofList numeral ++ rest))
    (meets_name l hs)) fun _ => meets_fail hs cause

theorem meets_numberOf (hs : s.cursor.text = text) {n : Numeral} (hn : WellFormed n) {start : Nat}
    (hstart : start ≤ text.length) :
    Meets text (Parse.numberOf n start s) (numberOf n.text start text s.spot) := by
  have hread : Numeral.read? n.text = if n.isComplete then some n.value else none := by
    rw [Numeral.read?, munch_text hn]
  unfold Parse.numberOf numberOf
  rw [hread, Parse.ite_step]
  split
  · exact .done _ hs
  · exact .failed hstart (spot_le hs)

theorem meets_numeral (l : Letters) (hs : s.cursor.text = text) :
    Meets text (Parse.numeral l s) (numeral l text s.spot) := by
  have hn := wellFormed_munch s.cursor.ahead
  have hmunched := munch_apply hs
  have hsplit := Numeral.text_munch s.cursor.ahead
  unfold Parse.numeral numeral
  rw [Parse.bind_here_apply, bind_index_apply, bind_of_done hmunched]
  generalize Numeral.munch s.cursor.ahead = munched at hn hsplit
  obtain ⟨n, rest⟩ := munched
  have ht : (s.after n.text.length).cursor.text = text := (s.text_after _).trans hs
  have hbegins : n.text <+: s.cursor.ahead := ⟨rest, hsplit⟩
  have hslice := sliceFrom_apply hs hbegins.length_le
  rw [← List.prefix_iff_eq_take.mp hbegins] at hslice
  have hpeek : (s.after n.text.length).cursor.peek? = rest.head? :=
    congrArg List.head? (ahead_advance_of_append hsplit.symm)
  have hnumber := meets_numberOf ht hn (spot_le hs)
  dsimp only
  rw [Parse.bind_advance_apply, bind_of_done hslice, bind_of_done (peek_apply ht), hpeek]
  refine meets_ite (fun _ => meets_nameFromNumeral l ht _ _) fun _ => ?_
  cases rest.head? with
  | none => exact hnumber
  | some c =>
    dsimp only
    rw [Parse.bind_inBranch_apply, bind_inBranch_apply]
    refine meets_ite (fun _ => hnumber) fun _ => ?_
    refine meets_ite (fun _ => meets_nameFromNumeral l ht _ _) fun _ => ?_
    exact meets_ite (fun _ => meets_fail ht _) fun _ => hnumber

end

/-- Wherever they stand in a text, all steps meet the rules. -/
def Follow (text : List Char) (rules : Rules) (steps : Steps) : Prop :=
  ∀ r s, s.cursor.text = text → Meets text (rules r s) (steps r text s.spot)

section

variable {text : List Char} {s : State} {g : Grammar} {l : Letters} {rules : Rules}
  {steps : Steps}

theorem meets_word (h : Follow text rules steps) (hs : s.cursor.text = text) :
    Meets text (Parse.word g rules s) (word g steps text s.spot) := by
  refine meets_bind (meets_name _ hs) fun w t ht => ?_
  rw [Parse.bind_here_apply, bind_of_done (peek_apply ht), bind_of_done (peekAt_apply ht 1)]
  refine meets_ite (fun _ => ?_) fun _ => .done _ ht
  refine meets_bind (meets_advance_one ht) fun _ u hu => ?_
  exact meets_map (f := Term.pair w) (meets_require _ (h .expression u hu))

theorem meets_group (h : Follow text rules steps) (hs : s.cursor.text = text) :
    Meets text (Parse.group rules s) (group steps text s.spot) := by
  refine meets_bind (meets_advance_one hs) fun _ t ht => ?_
  refine meets_bind (meets_require _ (h .expression t ht)) fun n u hu => ?_
  refine meets_bind (meets_skipBlanks hu) fun _ v hv => ?_
  exact meets_bind (meets_expect hv ')' _) fun _ w hw => .done n hw

theorem meets_primary (h : Follow text rules steps) (hs : s.cursor.text = text) :
    Meets text (Parse.primary g rules s) (primary g steps text s.spot) := by
  refine meets_bind ?_ fun x t ht => ?_
  · refine meets_bind (meets_peek hs) fun next t ht => ?_
    exact meets_ite (fun _ => meets_map (f := Term.node) (meets_group h ht))
      fun _ => meets_word h ht
  · cases x with
    | pair w value => exact .done _ ht
    | node n =>
      refine meets_bind (meets_skipBlanks ht) fun _ u hu => ?_
      exact meets_map (f := Term.node) (h (.links n) u hu)

theorem meets_links (h : Follow text rules steps) (head : Node) (hs : s.cursor.text = text) :
    Meets text (Parse.links g rules head s) (links g steps head text s.spot) := by
  rw [Parse.links_eq]
  refine meets_bind (meets_peek hs) fun next s hs => ?_
  refine meets_ite (fun _ => ?_) fun _ => meets_ite (fun _ => ?_) fun _ =>
    meets_ite (fun _ => ?_) fun _ => .done head hs
  · refine meets_bind (meets_advance_one hs) fun _ t ht => ?_
    refine meets_bind (meets_skipBlanks ht) fun _ u hu => ?_
    refine meets_bind (meets_name _ hu) fun w v hv => ?_
    exact meets_bind (meets_skipBlanks hv) fun _ x hx => h (.links _) x hx
  · refine meets_bind (meets_advance_one hs) fun _ t ht => ?_
    refine meets_bind (meets_require _ (h .expression t ht)) fun n u hu => ?_
    refine meets_bind (meets_skipBlanks hu) fun _ v hv => ?_
    refine meets_bind (meets_expect hv ']' _) fun _ x hx => ?_
    exact meets_bind (meets_skipBlanks hx) fun _ y hy => h (.links _) y hy
  · refine meets_bind (meets_advance_one hs) fun _ t ht => ?_
    refine meets_bind (h (.items .round) t ht) fun arguments u hu => ?_
    exact meets_bind (meets_skipBlanks hu) fun _ v hv => h (.links _) v hv

theorem meets_items (h : Follow text rules steps) (bracket : Bracket)
    (hs : s.cursor.text = text) :
    Meets text (Parse.items rules bracket s) (items steps bracket text s.spot) := by
  refine meets_bind (meets_skipBlanks hs) fun _ s hs => ?_
  refine meets_bind (meets_peek hs) fun next s hs => ?_
  cases next with
  | none => exact meets_fail hs _
  | some c =>
    refine meets_ite (fun _ => ?_) fun _ => meets_ite (fun _ => ?_) fun _ => ?_
    · exact meets_bind (meets_advance_one hs) fun _ t ht => .done [] ht
    · exact meets_bind (meets_advance_one hs) fun _ t ht => h (.items bracket) t ht
    · refine meets_bind (h .expression s hs) fun a t ht => ?_
      have hitem : ∀ n : Node, Meets text
          ((do return n :: (← rules (.items bracket)) : Parse (List Node)) t)
          ((do return n :: (← steps (.items bracket)) : Walk (List Node)) text t.spot) :=
        fun n => meets_map (f := (n :: ·)) (h (.items bracket) t ht)
      rcases a with _ | n
      · exact meets_fail ht _
      · cases n <;> first | exact meets_fail ht _ | exact hitem _

theorem bind_joinFollows_apply {α : Type} (hs : s.cursor.text = text) (f : Bool → Walk α) :
    (joinFollows l >>= f) text s.spot = f (Parse.joinFollows l s.cursor) text s.spot := by
  refine bind_of_done ?_ f
  unfold joinFollows
  rw [bind_of_done (previous_apply hs), bind_of_done (peek_apply hs),
    bind_of_done (peekAt_apply hs 1)]
  rfl

theorem meets_join (raw base : String) (hs : s.cursor.text = text) :
    Meets text (Parse.join l raw base s) (join l raw base text s.spot) := by
  refine meets_bind (meets_advance_one hs) fun _ t ht => ?_
  exact meets_bind (meets_name l ht) fun suffix u hu => .done _ hu

theorem meets_joinName (n : Node) (hs : s.cursor.text = text) :
    Meets text (Parse.joinName l n s) (joinName l n text s.spot) := by
  unfold Parse.joinName joinName
  rw [Parse.bind_here_apply, bind_joinFollows_apply hs]
  cases n with
  | identifier w object property =>
    cases object with
    | some object => exact .done _ hs
    | none =>
      cases Parse.joinFollows l s.cursor with
      | false => exact .done _ hs
      | true => exact meets_join w w hs
  | _ => exact .done _ hs

theorem meets_joinableText (hs : s.cursor.text = text) :
    Meets text (Parse.joinableText l s) (joinableText l text s.spot) := by
  refine meets_bind (meets_quotation hs) fun quoted t ht => ?_
  obtain ⟨value, raw⟩ := quoted
  dsimp only
  rw [Parse.bind_here_apply, bind_joinFollows_apply ht]
  exact meets_ite (fun _ => meets_join raw value ht) fun _ => .done _ ht

/-- The named arguments end where the walk goes back to an index that it was at. -/
theorem meets_pairs (h : Follow text rules steps) (keys : Keyed (Entry Node))
    (hs : s.cursor.text = text) :
    Meets text (Parse.pairs g rules keys s) (pairs g steps keys text s.spot) := by
  refine meets_bind (meets_skipBlanks hs) fun _ t ht => ?_
  refine meets_bind (meets_eat ht ',') fun _ u hu => ?_
  refine meets_bind (meets_skipBlanks hu) fun _ v hv => ?_
  rw [Parse.bind_here_apply, bind_of_done (peek_apply hv)]
  refine meets_ite (fun _ => ?_) fun _ => .done keys hv
  rw [bind_index_apply]
  refine meets_bind (h .primary v hv) fun x w hw => ?_
  cases x with
  | pair key value => exact h (.pairs _) w hw
  | node n =>
    have hback := bind_of_done (goBack_index_apply hv w.spot) fun _ => (Pure.pure keys : Walk _)
    exact meets_of_done (t := { w with cursor := v.cursor }) hback hv

theorem meets_applyUnary (h : Follow text rules steps) (operator : String)
    (hs : s.cursor.text = text) :
    Meets text (Parse.applyUnary rules operator s) (applyUnary steps operator text s.spot) :=
  meets_map (f := fun n => Node.unary operator n true) (meets_require _ (h .operand s hs))

theorem meets_ofTerm (h : Follow text rules steps) (x : Term) (hs : s.cursor.text = text) :
    Meets text (Parse.ofTerm g rules x s) (ofTerm g steps x text s.spot) := by
  cases x with
  | pair key value => exact meets_map (f := Node.keyValues) (h (.pairs _) s hs)
  | node n =>
    cases n with
    | identifier w object property =>
      cases object with
      | some object => exact .done _ hs
      | none =>
        refine meets_ite (fun _ => meets_applyUnary h w hs) fun _ => ?_
        cases Numeral.read? w.toList <;> exact .done _ hs
    | _ => exact .done _ hs

/-- Where a numeral fails, only the index has to be put back. -/
theorem meets_numeralOperand (h : Follow text rules steps) (first : Char)
    (hs : s.cursor.text = text) :
    Meets text (Parse.numeralOperand g rules first s)
      (numeralOperand g steps first text s.spot) := by
  have hnumeral := meets_numeral g.letters hs
  have hmark := keepsMark_numeral g.letters text s.spot
  have hprimary : Meets text
      ((do Parse.ofTerm g rules (← rules .primary) : Parse Node) s)
      ((do ofTerm g steps (← steps .primary) : Walk Node) text s.spot) :=
    meets_bind (h .primary s hs) fun x t ht => meets_ofTerm h x ht
  unfold Parse.numeralOperand numeralOperand
  rw [bind_index_apply]
  generalize hw : numeral g.letters text s.spot = landing at hnumeral hmark
  generalize hp : Parse.numeral g.letters s = outcome at hnumeral
  cases hnumeral with
  | done n ht =>
    rw [bind_of_done (attempt_of_done hw), Parse.ite_step, Parse.recover, hp, ite_self]
    exact .done n ht
  | unfinished =>
    rw [bind_of_unfinished (attempt_of_unfinished hw), Parse.ite_step, Parse.recover, hp, ite_self]
    exact .unfinished
  | @failed e w he hle =>
    rw [bind_of_done (attempt_of_failed hw), Parse.ite_step, Parse.recover, hp]
    dsimp only
    rw [ite_step]
    split
    · have hspot : (⟨s.cursor.index, w.inBranch⟩ : Spot) = s.spot :=
        congrArg (Spot.mk s.cursor.index) hmark
      rw [bind_of_done (goBack_index_apply hs w), hspot]
      exact hprimary
    · exact .failed he hle

theorem meets_primaryOperand (h : Follow text rules steps) (hs : s.cursor.text = text) :
    Meets text (Parse.primaryOperand g rules s) (primaryOperand g steps text s.spot) := by
  refine meets_bind (h .primary s hs) fun x t ht => ?_
  cases x with
  | pair key value => exact meets_ofTerm h _ ht
  | node n => exact meets_bind (meets_joinName n ht) fun m u hu => meets_ofTerm h (.node m) hu

theorem meets_leadingOperator (h : Follow text rules steps) (hs : s.cursor.text = text) :
    Meets text (Parse.leadingOperator g rules s) (leadingOperator g steps text s.spot) := by
  unfold Parse.leadingOperator leadingOperator
  rw [Parse.bind_here_apply, bind_of_done (lookahead_apply hs _)]
  cases g.operators.unaryAt? (s.cursor.ahead.take g.operators.longestUnary) with
  | none => exact .done _ hs
  | some operator =>
    refine meets_bind (meets_advance hs _) fun _ t ht => ?_
    exact meets_map (f := some) (meets_applyUnary h operator ht)

theorem meets_operand (h : Follow text rules steps) (hs : s.cursor.text = text) :
    Meets text (Parse.operand g rules s) (operand g steps text s.spot) := by
  refine meets_bind (meets_skipBlanks hs) fun _ s hs => ?_
  refine meets_bind (meets_peek hs) fun next s hs => ?_
  cases next with
  | none => exact .done none hs
  | some c =>
    refine meets_ite (fun _ => meets_map (f := some) (meets_numeralOperand h c hs)) fun _ => ?_
    refine meets_ite (fun _ => meets_map (f := some) (meets_joinableText hs)) fun _ => ?_
    refine meets_ite (fun _ => ?_) fun _ => ?_
    · exact meets_bind (meets_quotation hs) fun quoted t ht => .done _ ht
    refine meets_ite (fun _ => meets_map (f := some) (meets_primaryOperand h hs)) fun _ => ?_
    refine meets_ite (fun _ => ?_) fun _ => meets_leadingOperator h hs
    refine meets_bind (meets_advance_one hs) fun _ t ht => ?_
    exact meets_map (f := fun ns => some (Node.array ns)) (h (.items .square) t ht)

theorem meets_binaryOperator (hs : s.cursor.text = text) :
    Meets text (Parse.binaryOperator g s) (binaryOperator g text s.spot) := by
  refine meets_bind (meets_skipBlanks hs) fun _ t ht => ?_
  rw [Parse.bind_here_apply, bind_of_done (lookahead_apply ht _)]
  cases g.operators.binaryAt? (t.cursor.ahead.take g.operators.longestBinary) with
  | none => exact .done _ ht
  | some o => exact meets_bind (meets_advance ht _) fun _ u hu => .done _ hu

theorem meets_chain (h : Follow text rules steps) (stack : OperatorStack)
    (hs : s.cursor.text = text) :
    Meets text (Parse.chain g rules stack s) (chain g steps stack text s.spot) := by
  refine meets_bind (meets_binaryOperator hs) fun o t ht => ?_
  cases o with
  | none => exact .done _ ht
  | some o =>
    refine meets_ite (fun _ => .done _ ht) fun _ => ?_
    refine meets_bind (meets_require _ (h .operand t ht)) fun right u hu => ?_
    exact h (.chain _) u hu

theorem meets_expressionFollows (h : Follow text rules steps) (hs : s.cursor.text = text) :
    Meets text
      ((do return (← Parse.lookAhead (rules .expression)).join.isSome : Parse Bool) s)
      (expressionFollows steps text s.spot) := by
  have hexpression := h .expression s hs
  have hback : ∀ (w : Spot) (f : Unit → Walk Bool),
      (goBack s.cursor.index >>= fun _ => setInBranch s.inBranch >>= f) text w =
        f () text s.spot := fun w f => bind_of_done (goBack_index_apply hs w) _
  unfold expressionFollows
  rw [bind_index_apply, bind_inBranch_apply]
  generalize hw : steps .expression text s.spot = landing at hexpression
  generalize hp : rules .expression s = outcome at hexpression
  cases hexpression with
  | done a ht =>
    have hlook : Parse.lookAhead (rules .expression) s = .done (some a) s := by
      rw [Parse.lookAhead, hp]
    rw [Parse.bind_of_done hlook, bind_of_done (attempt_of_done hw), hback]
    exact .done _ hs
  | failed he hle =>
    have hlook : Parse.lookAhead (rules .expression) s = .done none s := by
      rw [Parse.lookAhead, hp]
    rw [Parse.bind_of_done hlook, bind_of_done (attempt_of_failed hw), hback]
    exact .done false hs
  | unfinished =>
    have hlook : Parse.lookAhead (rules .expression) s = .unfinished := by
      rw [Parse.lookAhead, hp]
    rw [Parse.bind_of_unfinished hlook, bind_of_unfinished (attempt_of_unfinished hw)]
    exact .unfinished

/-- A name is cut at a character of its own. The index that is computed from the cut may be
anywhere, as a name need not be spelled where it was read; it is cut short at the end of the text
as the place is. -/
theorem meets_splitGlued (h : Follow text rules steps) {start : Cursor}
    (hstart : start.text = text) (left : Node) (hs : s.cursor.text = text) :
    Meets text (Parse.splitGlued rules start left s)
      (splitGlued steps start.index left text s.spot) := by
  unfold Parse.splitGlued splitGlued
  dsimp only
  generalize left.name?.getD "" = name
  cases hsplit : Parse.splitAtLast '?' name.toList with
  | none =>
    rw [Parse.gluedTest?, lastByteOf?, hsplit]
    exact .done left hs
  | some split =>
    obtain ⟨before, after⟩ := split
    have hname : name.toList = before ++ '?' :: after := splitAtLast_eq_some hsplit
    rw [Parse.gluedTest?, lastByteOf?, hsplit]
    dsimp only [Option.map_some]
    rw [bind_of_done (cut_apply hname s.spot)]
    dsimp only
    rw [String.toList_ofList]
    by_cases hcolon : ('?' :: after).dropLast.contains ':' = true
    · rw [if_pos hcolon, if_pos hcolon]
      exact .done left hs
    · rw [if_neg hcolon, if_neg hcolon]
      refine meets_bind ?_ fun alternateFollows t ht => ?_
      · exact meets_ite (fun _ => meets_expressionFollows h hs) fun _ => .done true hs
      · refine meets_ite (fun _ => ?_) fun _ => .done left ht
        have hback := goBack_apply hstart before.length t.spot
        rw [String.length_ofList]
        refine meets_of_done (t := { t with cursor := start.advance before.length }) ?_ ?_
        · exact bind_of_done hback fun _ => Pure.pure (Node.plain (String.ofList before))
        · exact (start.text_advance _).trans hstart

theorem meets_binary (h : Follow text rules steps) (hs : s.cursor.text = text) :
    Meets text (Parse.binary g rules s) (binary g steps text s.spot) := by
  refine meets_bind (meets_skipBlanks hs) fun _ s hs => ?_
  rw [Parse.bind_here_apply, bind_index_apply]
  refine meets_bind (h .operand s hs) fun a t ht => ?_
  cases a with
  | none => exact .done none ht
  | some left =>
    dsimp only
    rw [Parse.bind_here_apply, bind_of_done (previous_apply ht)]
    refine meets_bind (meets_binaryOperator ht) fun o u hu => ?_
    cases o with
    | none => exact meets_map (f := some) (meets_splitGlued h hs left hu)
    | some o =>
      refine meets_bind (meets_peek hu) fun next v hv => ?_
      refine meets_ite (fun _ => ?_) fun _ => ?_
      · exact meets_bind (meets_name _ hv) fun rest w hw => .done _ hw
      · refine meets_bind (meets_require _ (h .operand v hv)) fun right w hw => ?_
        exact h (.chain _) w hw

theorem meets_expression (h : Follow text rules steps) (hs : s.cursor.text = text) :
    Meets text (Parse.expression g rules s) (expression g steps text s.spot) := by
  refine meets_bind (meets_binary h hs) fun a t ht => ?_
  cases a with
  | none => exact .done none ht
  | some test =>
    refine meets_bind (meets_skipBlanks ht) fun _ u hu => ?_
    refine meets_bind (meets_eat hu '?') fun b v hv => ?_
    refine meets_ite (fun _ => ?_) fun _ => .done (some test) hv
    refine meets_bind (meets_setInBranch hv true) fun _ w hw => ?_
    refine meets_bind (meets_require _ (h .expression w hw)) fun consequent x hx => ?_
    refine meets_bind (meets_skipBlanks hx) fun _ y hy => ?_
    refine meets_bind (meets_expect hy ':' _) fun _ z hz => ?_
    refine meets_bind (meets_require _ (h .expression z hz)) fun alternate r hr => ?_
    exact meets_bind (meets_setInBranch hr false) fun _ q hq => .done _ hq

theorem meets_statements (h : Follow text rules steps) (hs : s.cursor.text = text) :
    Meets text (Parse.statements rules s) (statements steps text s.spot) := by
  refine meets_bind (meets_peek hs) fun next s hs => ?_
  cases next with
  | none => exact .done [] hs
  | some c =>
    refine meets_ite (fun _ => ?_) fun _ => ?_
    · exact meets_bind (meets_advance_one hs) fun _ t ht => h .statements t ht
    refine meets_bind (h .expression s hs) fun a t ht => ?_
    cases a with
    | some n => exact meets_map (f := (n :: ·)) (h .statements t ht)
    | none =>
      refine meets_bind (meets_peek ht) fun next u hu => ?_
      cases next with
      | none => exact .done [] hu
      | some c => exact meets_fail hu _

end

/-- In any number of rounds, from any place of a text. -/
theorem follow_run (text : List Char) (g : Grammar) (n : Nat) :
    Follow text (Parse.run g n) (run g n) := by
  induction n with
  | zero => exact fun _ _ _ => .unfinished
  | succ n ih =>
    intro r s hs
    cases r with
    | expression => exact meets_expression ih hs
    | operand => exact meets_operand ih hs
    | primary => exact meets_primary ih hs
    | links head => exact meets_links ih head hs
    | items bracket => exact meets_items ih bracket hs
    | chain stack => exact meets_chain ih stack hs
    | pairs keys => exact meets_pairs ih keys hs
    | statements => exact meets_statements ih hs

/-- A step that did not leave a text, and whose error is at an index of it. -/
inductive Inside (text : List Char) {α : Type} : Landing α → Prop where
  | done {a : α} {w : Spot} (hw : w.index ≤ text.length) : Inside text (.done a w)
  | failed {e : ParseError} {w : Spot} (he : e.index ≤ text.length) (hw : w.index ≤ text.length) :
    Inside text (.failed e w)
  | unfinished : Inside text .unfinished

theorem Meets.inside {α : Type} {text : List Char} {o : Outcome α} {landing : Landing α}
    (h : Meets text o landing) : Inside text landing := by
  cases h with
  | done a ht => exact .done (spot_le ht)
  | failed he hw => exact .failed he hw
  | unfinished => exact .unfinished

/-- Every index of a text is that of a place. -/
theorem exists_spot_eq {text : List Char} {w : Spot} (hw : w.index ≤ text.length) :
    ∃ s : State, s.cursor.text = text ∧ s.spot = w := by
  refine ⟨⟨(Cursor.start text).advance w.index, w.inBranch⟩, Cursor.text_advance _ _, ?_⟩
  refine congrArg (Spot.mk · w.inBranch) ?_
  rw [Cursor.index_advance]
  simp [Cursor.start, Cursor.index, hw]

theorem run_inside (g : Grammar) (rounds : Nat) (r : Rule) {text : List Char} {w : Spot}
    (hw : w.index ≤ text.length) : Inside text (run g rounds r text w) := by
  obtain ⟨s, hs, rfl⟩ := exists_spot_eq hw
  exact (follow_run text g rounds r s hs).inside

theorem walkWithin_eq (g : Grammar) (rounds : Nat) (source : String) :
    g.walkWithin rounds source = some (g.parseWithin rounds source) := by
  have h := follow_run source.toList g rounds .statements (State.start source) rfl
  change Meets _ _ (run g rounds .statements source.toList ⟨0, false⟩) at h
  unfold Grammar.walkWithin Grammar.parseWithin
  generalize Parse.run g rounds .statements (State.start source) = outcome at h
  generalize run g rounds .statements source.toList ⟨0, false⟩ = landing at h
  cases h <;> rfl

theorem index_le_of_parseWithin {g : Grammar} {rounds : Nat} {source : String} {e : ParseError}
    (h : g.parseWithin rounds source = .error (.error e)) : e.index ≤ source.length := by
  have hmeets := follow_run source.toList g rounds .statements (State.start source) rfl
  unfold Grammar.parseWithin at h
  generalize Parse.run g rounds .statements (State.start source) = outcome at h hmeets
  generalize run g rounds .statements source.toList (State.start source).spot = landing at hmeets
  cases hmeets with
  | done ns ht => cases h
  | failed he hw =>
    cases h
    rwa [String.length_toList] at he
  | unfinished => cases h

/-- Whatever the grammar and the source, a parse on a bare index never leaves the source: no move
ends beyond its end, and no piece of it and no part of a name is taken out at bounds that are none.
This holds of each rule at each index of the source. The walk finds what `parseWithin` finds, and
an error is at an index of the source. -/
theorem parse_within_bounds (g : Grammar) (source : String) :
    (∀ rounds r (w : Spot), w.index ≤ source.length →
      Inside source.toList (run g rounds r source.toList w)) ∧
    (∀ rounds, g.walkWithin rounds source = some (g.parseWithin rounds source)) ∧
    ∀ e, g.parse source = .error (.error e) → e.index ≤ source.length := by
  refine ⟨fun rounds r w hw => run_inside g rounds r ?_,
    fun rounds => walkWithin_eq g rounds source, fun e he => index_le_of_parseWithin he⟩
  rwa [String.length_toList]

/-- The name `é?b` is cut at its third byte, which is the second character, and the missing colon
is found at the end of the source. -/
theorem parse_within_bounds_cut_name :
    let g := Grammar.standard.addLetters "é?"
    Inside "é?b".toList (run g 9 .expression "é?b".toList ⟨0, false⟩) ∧
      g.walkWithin 99 "é?b" = some (.error (.error ⟨.noColon, 3⟩)) ∧ 3 ≤ "é?b".length := by
  intro g
  obtain ⟨hinside, hwalk, hindex⟩ := parse_within_bounds g "é?b"
  have hparse : g.parse "é?b" = .error (.error ⟨.noColon, 3⟩) := by decide +kernel
  have hwithin : g.parseWithin 99 "é?b" = .error (.error ⟨.noColon, 3⟩) := by decide +kernel
  exact ⟨hinside 9 .expression ⟨0, false⟩ (Nat.zero_le _),
    (hwalk 99).trans (congrArg some hwithin), hindex _ hparse⟩

end ExprTree.Bounds
