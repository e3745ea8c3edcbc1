import ExprTree.Proofs.Walk

/-!
What the basic steps of a walk do at the index of a place in the text. Each of them stays inside
there, and ends at the index of the place where the step of the parser ends. The text has to be
the whole text of the place: it is what turns an index back into the characters ahead.
-/

namespace ExprTree

/-- The index and the mark of a state. -/
def State.spot (s : State) : Spot :=
  ⟨s.cursor.index, s.inBranch⟩

/-- The state some characters further on, or at the end of the text. -/
def State.after (s : State) (n : Nat) : State :=
  { s with cursor := s.cursor.advance n }

@[simp] theorem State.text_after (s : State) (n : Nat) :
    (s.after n).cursor.text = s.cursor.text :=
  s.cursor.text_advance n

@[simp] theorem State.ahead_after (s : State) (n : Nat) :
    (s.after n).cursor.ahead = s.cursor.ahead.drop n := rfl

theorem State.after_after (s : State) (m n : Nat) : (s.after m).after n = s.after (m + n) := by
  simp only [after, Cursor.advance_advance]

theorem State.after_zero (s : State) : s.after 0 = s := by
  simp only [after, Cursor.advance_zero]

theorem State.after_of_nil {s : State} (h : s.cursor.ahead = []) (n : Nat) : s.after n = s := by
  obtain ⟨⟨passed, ahead⟩, b⟩ := s
  cases h
  simp [after, Cursor.advance]

namespace Cursor

theorem length_text (c : Cursor) : c.text.length = c.index + c.ahead.length := by
  simp [text, index]

theorem getElem?_text (c : Cursor) (n : Nat) : c.text[c.index + n]? = c.ahead[n]? := by
  have hlength : c.passed.reverse.length ≤ c.index + n := by simp [index]
  rw [text, List.getElem?_append_right hlength]
  simp [index]

/-- The text between the index of a place and an index further on. -/
theorem drop_take_text (c : Cursor) (n : Nat) :
    (c.text.take (c.index + n)).drop c.index = c.ahead.take n := by
  rw [List.drop_take, Nat.add_sub_cancel_left, text, index, ← List.length_reverse,
    List.drop_left]

/-- A place in a text is known by its index. -/
theorem eq_of_index_eq {c d : Cursor} (htext : c.text = d.text) (hindex : c.index = d.index) :
    c = d := by
  obtain ⟨passed, ahead⟩ := c
  obtain ⟨passed', ahead'⟩ := d
  have hlength : passed.reverse.length = passed'.reverse.length := by
    rw [List.length_reverse, List.length_reverse]
    exact hindex
  obtain ⟨hpassed, hahead⟩ := List.append_inj htext hlength
  obtain rfl : passed = passed' := List.reverse_inj.mp hpassed
  exact congrArg (mk passed) hahead

end Cursor

namespace Walk

section

variable {α β : Type} {text : List Char} {w v : Spot}

theorem bind_of_done {p : Walk α} {a : α} (h : p text w = .done a v) (f : α → Walk β) :
    (p >>= f) text w = f a text v := by
  change bind p f text w = _
  simp [bind, h]

theorem bind_of_failed {p : Walk α} {e : ParseError} (h : p text w = .failed e v)
    (f : α → Walk β) : (p >>= f) text w = .failed e v := by
  change bind p f text w = _
  simp [bind, h]

theorem bind_of_unfinished {p : Walk α} (h : p text w = .unfinished) (f : α → Walk β) :
    (p >>= f) text w = .unfinished := by
  change bind p f text w = _
  simp [bind, h]

/-- What follows does not bring a step back that went outside. -/
theorem bind_of_outside {p : Walk α} (h : p text w = .outside) (f : α → Walk β) :
    (p >>= f) text w = .outside := by
  change bind p f text w = _
  simp [bind, h]

theorem ite_step {c : Prop} [Decidable c] (p q : Walk α) :
    (if c then p else q) text w = if c then p text w else q text w := by
  by_cases h : c <;> simp [h]

theorem bind_length_apply (f : Nat → Walk α) : (length >>= f) text w = f text.length text w := rfl

theorem goTo_of_le {i : Nat} (h : i ≤ text.length) :
    goTo i text w = .done () { w with index := i } := by
  simp [goTo, h]

theorem piece_of_le {i j : Nat} (hij : i ≤ j) (hj : j ≤ text.length) :
    piece i j text w = .done ((text.take j).drop i) w := by
  simp [piece, hij, hj]

end

section

variable {α : Type} {text : List Char} {s : State}

theorem bind_index_apply (f : Nat → Walk α) :
    (index >>= f) text s.spot = f s.cursor.index text s.spot := rfl

theorem bind_inBranch_apply (f : Bool → Walk α) :
    (inBranch >>= f) text s.spot = f s.inBranch text s.spot := rfl

theorem peekAt_apply (hs : s.cursor.text = text) (n : Nat) :
    peekAt n text s.spot = .done (s.cursor.peekAt? n) s.spot := by
  subst hs
  exact congrArg (Landing.done · s.spot) (s.cursor.getElem?_text n)

theorem peek_apply (hs : s.cursor.text = text) :
    peek text s.spot = .done s.cursor.peek? s.spot := by
  rw [Cursor.peek?, List.head?_eq_getElem?]
  exact peekAt_apply hs 0

theorem previous_apply (hs : s.cursor.text = text) :
    previous text s.spot = .done s.cursor.previous? s.spot := by
  subst hs
  obtain ⟨⟨passed, ahead⟩, b⟩ := s
  cases passed with
  | nil => rfl
  | cons x xs =>
    refine congrArg (Landing.done · _) ?_
    simp [State.spot, Cursor.index, Cursor.text, Cursor.previous?]

/-- One index further, where a character is ahead. -/
theorem goTo_succ_apply (hs : s.cursor.text = text) {c : Char} (hc : s.cursor.peek? = some c) :
    goTo (s.cursor.index + 1) text s.spot = .done () (s.after 1).spot := by
  obtain ⟨rest, hahead⟩ := List.head?_eq_some_iff.mp hc
  have hlength : s.cursor.index + 1 ≤ text.length := by
    rw [← hs, Cursor.length_text, hahead, List.length_cons]
    omega
  rw [goTo_of_le hlength]
  simp [State.spot, State.after, hahead]

theorem next_apply (hs : s.cursor.text = text) :
    next text s.spot = .done s.cursor.peek? (s.after 1).spot := by
  unfold next
  rw [bind_of_done (peek_apply hs)]
  cases hc : s.cursor.peek? with
  | none =>
    rw [State.after_of_nil (List.head?_eq_none_iff.mp hc)]
    rfl
  | some c =>
    dsimp only
    rw [bind_index_apply]
    exact bind_of_done (goTo_succ_apply hs hc) _

theorem pass_apply (hs : s.cursor.text = text) :
    pass text s.spot = .done () (s.after 1).spot :=
  bind_of_done (next_apply hs) _

theorem eat_apply (hs : s.cursor.text = text) (c : Char) :
    eat c text s.spot =
      if s.cursor.peek? = some c then .done true (s.after 1).spot else .done false s.spot := by
  unfold eat
  rw [bind_of_done (peek_apply hs), ite_step]
  split
  · rename_i hc
    rw [bind_index_apply]
    exact bind_of_done (goTo_succ_apply hs hc) _
  · rfl

theorem bind_eat_apply (hs : s.cursor.text = text) (c : Char) (f : Bool → Walk α) :
    (eat c >>= f) text s.spot =
      if s.cursor.peek? = some c then f true text (s.after 1).spot else f false text s.spot := by
  by_cases hc : s.cursor.peek? = some c
  · rw [if_pos hc]
    exact bind_of_done ((eat_apply hs c).trans (if_pos hc)) f
  · rw [if_neg hc]
    exact bind_of_done ((eat_apply hs c).trans (if_neg hc)) f

/-- Back to some characters after a place, wherever the walk is. -/
theorem goBack_apply {c : Cursor} (hc : c.text = text) (n : Nat) (w : Spot) :
    goBack (c.index + n) text w = .done () ⟨(c.advance n).index, w.inBranch⟩ := by
  unfold goBack
  rw [bind_length_apply, goTo_of_le (Nat.min_le_right _ _)]
  refine congrArg (fun i => Landing.done () ⟨i, w.inBranch⟩) ?_
  rw [Cursor.index_advance, ← hc, Cursor.length_text]
  omega

theorem goBack_index_apply {c : Cursor} (hc : c.text = text) (w : Spot) :
    goBack c.index text w = .done () ⟨c.index, w.inBranch⟩ := by
  have h := goBack_apply hc 0 w
  rwa [c.advance_zero] at h

theorem skip_apply (hs : s.cursor.text = text) (n : Nat) :
    skip n text s.spot = .done () (s.after n).spot :=
  goBack_apply hs n s.spot

/-- The steps go on as long as the test holds, and the bound is never what stops them. -/
theorem skipAtMost_apply (p : Char → Bool) {n : Nat} (hs : s.cursor.text = text)
    (hn : s.cursor.ahead.length ≤ n) :
    skipAtMost p n text s.spot = .done () (s.after (s.cursor.ahead.takeWhile p).length).spot := by
  induction n generalizing s with
  | zero =>
    rw [List.length_eq_zero_iff.mp (Nat.le_zero.mp hn), List.takeWhile_nil, List.length_nil,
      s.after_zero]
    rfl
  | succ n ih =>
    unfold skipAtMost
    rw [bind_of_done (peek_apply hs), ite_step, bind_index_apply]
    cases hahead : s.cursor.ahead with
    | nil =>
      have hpeek : s.cursor.peek? = none := by rw [Cursor.peek?, hahead, List.head?_nil]
      rw [hpeek, List.takeWhile_nil, List.length_nil, s.after_zero]
      rfl
    | cons c rest =>
      have hpeek : s.cursor.peek? = some c := by rw [Cursor.peek?, hahead, List.head?_cons]
      rw [hpeek, Option.any_some]
      cases hc : p c with
      | false =>
        rw [List.takeWhile_cons_of_neg (by simp [hc]), List.length_nil, s.after_zero]
        rfl
      | true =>
        have hrest : (s.after 1).cursor.ahead = rest := by simp [hahead]
        have hle : (s.after 1).cursor.ahead.length ≤ n := by
          rw [hrest]
          rw [hahead, List.length_cons] at hn
          omega
        rw [if_pos rfl]
        change (goTo (s.cursor.index + 1) >>= fun _ => skipAtMost p n) text s.spot = _
        rw [bind_of_done (goTo_succ_apply hs hpeek), ih ((s.text_after 1).trans hs) hle, hrest,
          s.after_after, List.takeWhile_cons_of_pos hc, List.length_cons, Nat.add_comm]

theorem skipWhile_apply (p : Char → Bool) (hs : s.cursor.text = text) :
    skipWhile p text s.spot = .done () (s.after (s.cursor.ahead.takeWhile p).length).spot := by
  refine skipAtMost_apply p hs ?_
  rw [← hs, Cursor.length_text]
  exact Nat.le_add_left _ _

theorem lookahead_apply (hs : s.cursor.text = text) (n : Nat) :
    lookahead n text s.spot = .done (s.cursor.ahead.take n) s.spot := by
  have hlength : text.length = s.cursor.index + s.cursor.ahead.length := by
    rw [← hs, Cursor.length_text]
  have hlast : min (s.cursor.index + n) text.length =
      s.cursor.index + min n s.cursor.ahead.length := by omega
  have hfirst : min s.cursor.index (s.cursor.index + min n s.cursor.ahead.length) =
      s.cursor.index := by omega
  unfold lookahead
  rw [bind_index_apply, bind_length_apply, bind_index_apply]
  change piece (min s.cursor.index (min (s.cursor.index + n) text.length))
    (min (s.cursor.index + n) text.length) text s.spot = _
  rw [hlast, hfirst, piece_of_le (Nat.le_add_right _ _) (by omega), ← hs, Cursor.drop_take_text,
    ← List.take_eq_take_min]

/-- The text from the index of a place up to a place further on. -/
theorem sliceFrom_apply (hs : s.cursor.text = text) {n : Nat}
    (hn : n ≤ s.cursor.ahead.length) :
    sliceFrom s.cursor.index text (s.after n).spot =
      .done (s.cursor.ahead.take n) (s.after n).spot := by
  have hindex : (s.after n).cursor.index = s.cursor.index + n := by
    simp [State.after, hn]
  have hlength : s.cursor.index + n ≤ text.length := by
    rw [← hs, Cursor.length_text]
    omega
  unfold sliceFrom
  rw [bind_index_apply, bind_index_apply, hindex, Nat.min_eq_left (Nat.le_add_right _ _),
    piece_of_le (Nat.le_add_right _ _) hlength, ← hs, Cursor.drop_take_text]

/-- A name is cut right in front of a character of it, which is no cut inside a character. -/
theorem cut_apply {name : String} {c : Char} {before after : List Char}
    (h : name.toList = before ++ c :: after) (w : Spot) :
    cut name (String.ofList before).utf8ByteSize text w =
      .done (String.ofList before, String.ofList (c :: after)) w := by
  have hname : name = String.ofList before ++ String.ofList (c :: after) := by
    rw [← String.ofList_append, ← h, String.ofList_toList]
  have hvalid : String.Pos.Raw.IsValid name ⟨(String.ofList before).utf8ByteSize⟩ :=
    String.Pos.Raw.isValid_iff_exists_append.mpr ⟨_, _, hname, rfl⟩
  let byte : name.Pos := ⟨⟨(String.ofList before).utf8ByteSize⟩, hvalid⟩
  have hsplits : byte.Splits (String.ofList before) (String.ofList (c :: after)) := ⟨hname, rfl⟩
  obtain ⟨hbefore, hafter⟩ := hsplits.eq byte.splits
  unfold cut
  rw [dif_pos hvalid]
  exact congrArg (Landing.done · w) (Prod.ext hbefore.symm hafter.symm)

end

section

variable {α β : Type} {text : List Char} {v : Spot}

theorem attempt_of_done {p : Walk α} {w : Spot} {a : α} (h : p text w = .done a v) :
    attempt p text w = .done (.ok a) v := by
  simp [attempt, h]

theorem attempt_of_failed {p : Walk α} {w : Spot} {e : ParseError}
    (h : p text w = .failed e v) : attempt p text w = .done (.error e) v := by
  simp [attempt, h]

theorem attempt_of_unfinished {p : Walk α} {w : Spot} (h : p text w = .unfinished) :
    attempt p text w = .unfinished := by
  simp [attempt, h]

/-- Nor does an attempt. -/
theorem attempt_of_outside {p : Walk α} {w : Spot} (h : p text w = .outside) :
    attempt p text w = .outside := by
  simp [attempt, h]

/-- Whether the mark has the given value where a step ends, also where it fails. -/
def EndsWithMark (b : Bool) : Landing α → Prop
  | .done _ w | .failed _ w => w.inBranch = b
  | .unfinished | .outside => True

/-- However a step ends, it leaves the mark as it was. -/
def KeepsMark (p : Walk α) : Prop :=
  ∀ text w, EndsWithMark w.inBranch (p text w)

theorem keepsMark_pure (a : α) : KeepsMark (Pure.pure a : Walk α) := fun _ _ => rfl

theorem keepsMark_fail (cause : Cause) : KeepsMark (fail cause : Walk α) := fun _ _ => rfl

theorem keepsMark_failAt (i : Nat) (cause : Cause) : KeepsMark (failAt i cause : Walk α) :=
  fun _ _ => rfl

theorem keepsMark_index : KeepsMark index := fun _ _ => rfl

theorem keepsMark_length : KeepsMark length := fun _ _ => rfl

theorem keepsMark_inBranch : KeepsMark inBranch := fun _ _ => rfl

theorem keepsMark_peek : KeepsMark peek := fun _ _ => rfl

theorem keepsMark_previous : KeepsMark previous := fun _ _ => rfl

theorem keepsMark_goTo (i : Nat) : KeepsMark (goTo i) := fun text w => by
  unfold goTo
  split <;> trivial

theorem keepsMark_piece (i j : Nat) : KeepsMark (piece i j) := fun text w => by
  unfold piece
  split <;> trivial

theorem keepsMark_bind {p : Walk α} {f : α → Walk β} (hp : KeepsMark p)
    (hf : ∀ a, KeepsMark (f a)) : KeepsMark (p >>= f) := fun text w => by
  have h := hp text w
  change EndsWithMark w.inBranch (bind p f text w)
  unfold bind
  cases hw : p text w with
  | done a v =>
    rw [hw] at h
    have hmark : v.inBranch = w.inBranch := h
    rw [← hmark]
    exact hf a text v
  | failed e v => rwa [hw] at h
  | unfinished => trivial
  | outside => trivial

theorem keepsMark_ite {c : Prop} [Decidable c] {p q : Walk α} (hp : KeepsMark p)
    (hq : KeepsMark q) : KeepsMark (if c then p else q) := by
  split
  · exact hp
  · exact hq

theorem keepsMark_pass : KeepsMark pass := by
  refine keepsMark_bind (keepsMark_bind keepsMark_peek fun c => ?_) fun _ => keepsMark_pure ()
  cases c with
  | none => exact keepsMark_pure none
  | some c =>
    exact keepsMark_bind keepsMark_index fun _ =>
      keepsMark_bind (keepsMark_goTo _) fun _ => keepsMark_pure _

theorem keepsMark_eat (c : Char) : KeepsMark (eat c) :=
  keepsMark_bind keepsMark_peek fun _ => keepsMark_ite
    (keepsMark_bind keepsMark_index fun _ =>
      keepsMark_bind (keepsMark_goTo _) fun _ => keepsMark_pure true) (keepsMark_pure false)

theorem keepsMark_skipWhile (p : Char → Bool) : KeepsMark (skipWhile p) := by
  have hskip : ∀ n, KeepsMark (skipAtMost p n) := fun n => by
    induction n with
    | zero => exact keepsMark_pure ()
    | succ n ih =>
      exact keepsMark_bind keepsMark_peek fun _ => keepsMark_ite
        (keepsMark_bind keepsMark_index fun _ =>
          keepsMark_bind (keepsMark_goTo _) fun _ => ih) (keepsMark_pure ())
  exact keepsMark_bind keepsMark_length hskip

theorem keepsMark_sliceFrom (start : Nat) : KeepsMark (sliceFrom start) :=
  keepsMark_bind keepsMark_index fun _ =>
    keepsMark_bind keepsMark_index fun _ => keepsMark_piece _ _

theorem keepsMark_name (l : Letters) : KeepsMark (name l) := by
  refine keepsMark_bind keepsMark_index fun start => keepsMark_bind keepsMark_peek fun c => ?_
  cases c with
  | none => exact keepsMark_fail _
  | some c =>
    refine keepsMark_ite ?_ (keepsMark_fail _)
    exact keepsMark_bind keepsMark_pass fun _ =>
      keepsMark_bind (keepsMark_skipWhile _) fun _ =>
        keepsMark_bind (keepsMark_sliceFrom _) fun _ => keepsMark_pure _

theorem keepsMark_munch : KeepsMark munch := by
  have hdigits := keepsMark_skipWhile Char.isDigit
  have hfraction : KeepsMark munchFraction :=
    keepsMark_bind (keepsMark_eat _) fun _ => keepsMark_ite hdigits (keepsMark_pure ())
  have hsign : KeepsMark munchSign :=
    keepsMark_bind keepsMark_peek fun _ => keepsMark_ite keepsMark_pass (keepsMark_pure ())
  have hexponent : KeepsMark munchExponent :=
    keepsMark_bind keepsMark_peek fun _ => keepsMark_ite
      (keepsMark_bind keepsMark_pass fun _ => keepsMark_bind hsign fun _ =>
        keepsMark_bind hdigits fun _ =>
          keepsMark_bind keepsMark_previous fun _ => keepsMark_pure _) (keepsMark_pure false)
  exact keepsMark_bind hdigits fun _ => keepsMark_bind hfraction fun _ => hexponent

theorem keepsMark_numeral (l : Letters) : KeepsMark (numeral l) := by
  have hname : ∀ numeral cause, KeepsMark (nameFromNumeral l numeral cause) :=
    fun numeral cause => keepsMark_ite
      (keepsMark_bind (keepsMark_name l) fun _ => keepsMark_pure _) (keepsMark_fail cause)
  have hnumber : ∀ numeral start, KeepsMark (numberOf numeral start) := fun numeral start => by
    unfold numberOf
    split
    · exact keepsMark_pure _
    · exact keepsMark_failAt _ _
  refine keepsMark_bind keepsMark_index fun start => keepsMark_bind keepsMark_munch fun lacks => ?_
  refine keepsMark_bind (keepsMark_sliceFrom start) fun text => ?_
  refine keepsMark_bind keepsMark_peek fun next => keepsMark_ite (hname _ _) ?_
  cases next with
  | none => exact hnumber _ _
  | some c =>
    refine keepsMark_bind keepsMark_inBranch fun _ => keepsMark_ite (hnumber _ _) ?_
    exact keepsMark_ite (hname _ _) (keepsMark_ite (keepsMark_fail _) (hnumber _ _))

end

end Walk

end ExprTree
