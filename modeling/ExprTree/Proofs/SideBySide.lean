import ExprTree.Proofs.Cuts
import ExprTree.Proofs.Histories

/-!
Two texts of the standard grammar that are read side by side, when they look alike but for the
blanks in them. `Tracks` says what that comes to for a relation between places in the two texts:
the same characters are ahead, blanks apart, and passing the same character, a run of blanks or a
quoted text leads to related places again. The rules then do the same at related places, see
`aligned_run`.
-/

namespace ExprTree.SideBySide

open Parse Standard Reading Histories Cuts

/-- The blanks and the quotes. -/
def gaps : List Char :=
  [' ', '\t', '"', '\'']

/-- A character that is neither a blank nor a quote. -/
def isSolid (c : Char) : Bool :=
  !gaps.contains c

section

variable {c : Char}

theorem isSolid_eq_false_iff : isSolid c = false ↔ c ∈ gaps := by
  rw [isSolid, Bool.not_eq_false', List.contains_iff_mem]

theorem isBlank_of_isSolid (h : isSolid c = true) : isBlank c = false := by
  by_contra hblank
  rw [Bool.not_eq_false, isBlank, Bool.or_eq_true, beq_iff_eq, beq_iff_eq] at hblank
  rcases hblank with rfl | rfl <;> cases h

theorem isSolid_of_isPart (h : letters.isPart c = true) : isSolid c = true := by
  by_contra hc
  have hnone : ∀ d ∈ gaps, letters.isPart d = false := forall_mem_of_all (by decide)
  rw [hnone c (isSolid_eq_false_iff.mp (by simpa using hc))] at h
  cases h

theorem isSolid_of_isStart (h : letters.isStart c = true) : isSolid c = true :=
  isSolid_of_isPart (isPart_of_isStart h)

/-- Neither a blank nor a quote goes on with a numeral. -/
theorem not_munched (h : isSolid c = false) :
    c.isDigit = false ∧ c ∉ ['e', 'E', '+', '-', '.'] := by
  have hnone : ∀ d ∈ gaps, d.isDigit = false ∧ d ∉ ['e', 'E', '+', '-', '.'] :=
    forall_mem_of_all (by decide)
  exact hnone c (isSolid_eq_false_iff.mp h)

theorem isSolid_of_isUnary {op : String} (hop : OperatorTable.standard.isUnary op = true) :
    ∀ x ∈ op.toList, isSolid x = true := by
  have hunary : OperatorTable.standard.unary = OperatorTable.standardUnary := by decide +kernel
  have hall : ∀ o ∈ OperatorTable.standardUnary, o.toList.all isSolid = true := by
    decide +kernel
  rw [OperatorTable.isUnary, hunary, List.contains_iff_mem] at hop
  exact List.all_eq_true.mp (hall op hop)

theorem isSolid_of_isBinary {op : String} (hop : isBinary OperatorTable.standard op = true) :
    ∀ x ∈ op.toList, isSolid x = true := by
  have hall : ∀ o ∈ OperatorTable.standardBinary, o.1.toList.all isSolid = true := by
    decide +kernel
  obtain ⟨p, hp⟩ := Option.isSome_iff_exists.mp hop
  exact List.all_eq_true.mp (hall _ (mem_of_precedence? hp))

end

/-- Related places, with the same mark. -/
def Beside (R : Cursor → Cursor → Prop) (s s' : State) : Prop :=
  R s.cursor s'.cursor ∧ s'.inBranch = s.inBranch

/-- Outcomes with the same value at related places, or with errors of the same kind. -/
def Aligned {α : Type} (R : Cursor → Cursor → Prop) : Outcome α → Outcome α → Prop
  | .done a t, .done a' t' => a' = a ∧ Beside R t t'
  | .failed e, .failed e' => e'.cause.kind = e.cause.kind
  | .unfinished, .unfinished => True
  | _, _ => False

/-- Places that look alike but for the blanks, and go on to look alike. -/
structure Tracks (R : Cursor → Cursor → Prop) : Prop where
  peek : ∀ {c d x}, R c d → isBlank x = false → (d.peek? = some x ↔ c.peek? = some x)
  step : ∀ {c d x}, R c d → c.peek? = some x → isSolid x = true → R (c.advance 1) (d.advance 1)
  skip : ∀ {c d}, R c d → R c.skipBlanks d.skipBlanks
  previous : ∀ {c d}, R c d → c.peek? = some '!' →
    d.previous?.any isBlank = c.previous?.any isBlank
  quotation : ∀ {s s' : State} {quote}, Beside R s s' → s.cursor.peek? = some quote →
    quote ∈ ['"', '\''] → Aligned R (quotation s) (quotation s')
  /-- An operand that is a name spelled by the text ahead is cut at related places. -/
  cut : ∀ {n a w test} {s t : State} {d : Cursor}, R s.cursor d →
    run .standard n .operand s = .done (some a) t → a.name? = some w →
    s.cursor.ahead = w.toList ++ t.cursor.ahead → gluedTest? w.toList = some test →
    R (s.cursor.advance test.length) (d.advance test.length)

section

variable {R : Cursor → Cursor → Prop} {c d : Cursor} {xs : List Char} {p : Char → Bool}

theorem cons_prefix_iff {x : Char} :
    x :: xs <+: c.ahead ↔ c.peek? = some x ∧ xs <+: (c.advance 1).ahead := by
  rw [Cursor.peek?, Cursor.ahead_advance]
  cases c.ahead with
  | nil => simp
  | cons y ys => simp [eq_comm]

/-- A text without blanks and quotes is ahead in both texts or in neither. -/
theorem Tracks.prefix_iff (hR : Tracks R) (h : R c d) (hxs : ∀ x ∈ xs, isSolid x = true) :
    xs <+: d.ahead ↔ xs <+: c.ahead := by
  induction xs generalizing c d with
  | nil => simp
  | cons x xs ih =>
    rw [List.forall_mem_cons] at hxs
    rw [cons_prefix_iff, cons_prefix_iff, hR.peek h (isBlank_of_isSolid hxs.1)]
    exact and_congr_right fun hpeek => ih (hR.step h hpeek hxs.1) hxs.2

/-- Past a text without blanks and quotes. -/
theorem Tracks.advance (hR : Tracks R) (h : R c d) (hxs : ∀ x ∈ xs, isSolid x = true)
    (hahead : xs <+: c.ahead) : R (c.advance xs.length) (d.advance xs.length) := by
  induction xs generalizing c d with
  | nil => rwa [List.length_nil, Cursor.advance_zero, Cursor.advance_zero]
  | cons x xs ih =>
    rw [List.forall_mem_cons] at hxs
    obtain ⟨hpeek, hrest⟩ := cons_prefix_iff.mp hahead
    have hnext := ih (hR.step h hpeek hxs.1) hxs.2 hrest
    rwa [Cursor.advance_advance, Cursor.advance_advance, Nat.add_comm] at hnext

theorem Tracks.any_peek? (hR : Tracks R) (h : R c d) (hp : ∀ x, p x = true → isSolid x = true) :
    d.peek?.any p = c.peek?.any p := by
  rw [Bool.eq_iff_iff, Option.any_eq_true, Option.any_eq_true]
  refine exists_congr fun x => and_congr_left fun hx => ?_
  exact hR.peek h (isBlank_of_isSolid (hp x hx))

/-- Past the blanks the same character is next in both texts, or none in either. -/
theorem Tracks.peek?_skipBlanks (hR : Tracks R) (h : R c d) :
    d.skipBlanks.peek? = c.skipBlanks.peek? := by
  have hnot : ∀ (e : Cursor) (x : Char), e.skipBlanks.peek? = some x → isBlank x = false := by
    intro e x hx
    have hhead := List.head?_dropWhile_not isBlank e.ahead
    rwa [← Cursor.ahead_skipBlanks, ← Cursor.peek?, hx] at hhead
  refine Option.ext fun x => ⟨fun hx => ?_, fun hx => ?_⟩
  · exact (hR.peek (hR.skip h) (hnot d x hx)).mp hx
  · exact (hR.peek (hR.skip h) (hnot c x hx)).mpr hx

/-- The two texts begin with the same characters up to a blank, a quote or the end. -/
theorem Tracks.split (hR : Tracks R) (h : R c d) :
    ∃ xs ys zs, c.ahead = xs ++ ys ∧ d.ahead = xs ++ zs ∧ (∀ x ∈ xs, isSolid x = true) ∧
      (∀ y ∈ ys.head?, isSolid y = false) ∧ ∀ z ∈ zs.head?, isSolid z = false := by
  have hsolid : ∀ x ∈ c.ahead.takeWhile isSolid, isSolid x = true :=
    fun x hx => List.mem_takeWhile_imp hx
  have hsplit : c.ahead = c.ahead.takeWhile isSolid ++ c.ahead.dropWhile isSolid :=
    List.takeWhile_append_dropWhile.symm
  obtain ⟨zs, hzs⟩ := (hR.prefix_iff h hsolid).mpr (List.takeWhile_prefix isSolid)
  have hend : ∀ y ∈ (c.ahead.dropWhile isSolid).head?, isSolid y = false := by
    intro y hy
    have hhead := List.head?_dropWhile_not isSolid c.ahead
    rwa [Option.mem_def.mp hy] at hhead
  refine ⟨_, _, zs, hsplit, hzs.symm, hsolid, hend, fun z hz => ?_⟩
  by_contra hz'
  rw [Bool.not_eq_false] at hz'
  have hrest := hR.advance h hsolid (List.takeWhile_prefix isSolid)
  have hpeek := hR.peek hrest (isBlank_of_isSolid hz')
  rw [Cursor.peek?, Cursor.peek?, ahead_advance_of_append hsplit,
    ahead_advance_of_append hzs.symm] at hpeek
  rw [hend z (hpeek.mp hz)] at hz'
  cases hz'

/-- The same characters are taken while they satisfy a test. -/
theorem Tracks.takeWhile (hR : Tracks R) (h : R c d) (hp : ∀ x, p x = true → isSolid x = true) :
    d.ahead.takeWhile p = c.ahead.takeWhile p := by
  obtain ⟨xs, ys, zs, hc, hd, -, hys, hzs⟩ := hR.split h
  have hnot : ∀ x, isSolid x = false → p x = false := by
    intro x hx
    by_contra hpx
    rw [hp x (by simpa using hpx)] at hx
    cases hx
  rw [hc, hd, takeWhile_append_of_head fun y hy => hnot y (hys y hy),
    takeWhile_append_of_head fun z hz => hnot z (hzs z hz)]

theorem Tracks.joinFollows (hR : Tracks R) (h : R c d) :
    joinFollows letters d = joinFollows letters c := by
  unfold Parse.joinFollows
  have hbang : d.peek? = some '!' ↔ c.peek? = some '!' := hR.peek h (by decide)
  by_cases hpeek : c.peek? = some '!'
  · have hnext := hR.any_peek? (hR.step h hpeek (by decide)) fun x => isSolid_of_isStart
    have hahead : ∀ e : Cursor, e.peekAt? 1 = (e.advance 1).peek? := fun e => by
      simp [Cursor.peekAt?, Cursor.peek?]
    rw [hR.previous h hpeek, hbang.mpr hpeek, hpeek, hahead, hahead, hnext]
  · have hpeek' : d.peek? ≠ some '!' := mt hbang.mp hpeek
    rw [beq_eq_false_iff_ne.mpr hpeek, beq_eq_false_iff_ne.mpr hpeek', Bool.and_false,
      Bool.false_and, Bool.and_false, Bool.false_and]

/-- Whether a single `=` follows. -/
theorem Tracks.equals (hR : Tracks R) (h : R c d) :
    (d.peek? = some '=' ∧ d.peekAt? 1 ≠ some '=') ↔
      c.peek? = some '=' ∧ c.peekAt? 1 ≠ some '=' := by
  have hahead : ∀ e : Cursor, e.peekAt? 1 = (e.advance 1).peek? := fun e => by
    simp [Cursor.peekAt?, Cursor.peek?]
  rw [hR.peek h (by decide), hahead, hahead]
  refine and_congr_right fun hpeek => not_congr ?_
  exact hR.peek (hR.step h hpeek (by decide)) (by decide)

theorem Tracks.unaryAt? (hR : Tracks R) (h : R c d) :
    Grammar.standard.operators.unaryAt? (d.ahead.take Grammar.standard.operators.longestUnary) =
      Grammar.standard.operators.unaryAt?
        (c.ahead.take Grammar.standard.operators.longestUnary) :=
  sound_standard.unaryAt?_congr fun _ hop => hR.prefix_iff h (isSolid_of_isUnary hop)

theorem Tracks.binaryAt? (hR : Tracks R) (h : R c d) :
    Grammar.standard.operators.binaryAt? (d.ahead.take Grammar.standard.operators.longestBinary) =
      Grammar.standard.operators.binaryAt?
        (c.ahead.take Grammar.standard.operators.longestBinary) :=
  sound_standard.binaryAt?_congr fun _ hop => hR.prefix_iff h (isSolid_of_isBinary hop)

end

section

variable {α β : Type} {R : Cursor → Cursor → Prop} {s s' : State} {p p' : Parse α}

theorem Aligned.of_done {o : Outcome α} {a : α} (h : Aligned R (.done a s) o) :
    ∃ s', o = .done a s' ∧ Beside R s s' := by
  cases o with
  | done a' t' =>
    obtain ⟨rfl, ht⟩ := h
    exact ⟨t', rfl, ht⟩
  | failed e => exact h.elim
  | unfinished => exact h.elim

theorem Aligned.of_failed {o : Outcome α} {e : ParseError} (h : Aligned R (.failed e) o) :
    ∃ e', o = .failed e' ∧ e'.cause.kind = e.cause.kind := by
  cases o with
  | done a' t' => exact h.elim
  | failed e' => exact ⟨e', rfl, h⟩
  | unfinished => exact h.elim

theorem Aligned.done_iff {o o' : Outcome α} (h : Aligned R o o') (a : α) :
    (∃ t, o' = .done a t) ↔ ∃ t, o = .done a t := by
  cases o with
  | done b u =>
    obtain ⟨u', rfl, -⟩ := h.of_done
    simp
  | failed e =>
    obtain ⟨e', rfl, -⟩ := h.of_failed
    simp
  | unfinished => cases o' <;> simp_all [Aligned]

theorem Aligned.unfinished_iff {o o' : Outcome α} (h : Aligned R o o') :
    o' = .unfinished ↔ o = .unfinished := by
  cases o <;> cases o' <;> simp_all [Aligned]

theorem aligned_done (hs : Beside R s s') (a : α) : Aligned R (.done a s) (.done a s') :=
  ⟨rfl, hs⟩

theorem aligned_bind {f f' : α → Parse β} (h : Aligned R (p s) (p' s'))
    (hf : ∀ a t t', p s = .done a t → Beside R t t' → Aligned R (f a t) (f' a t')) :
    Aligned R ((p >>= f) s) ((p' >>= f') s') := by
  change Aligned R (Parse.bind p f s) (Parse.bind p' f' s')
  unfold Parse.bind
  cases hp : p s with
  | done a t =>
    rw [hp] at h
    obtain ⟨t', hp', ht⟩ := h.of_done
    rw [hp']
    exact hf a t t' hp ht
  | failed e =>
    rw [hp] at h
    obtain ⟨e', hp', hkind⟩ := h.of_failed
    rw [hp']
    exact hkind
  | unfinished =>
    rw [h.unfinished_iff.mpr hp]
    trivial

theorem aligned_map {f : α → β} (h : Aligned R (p s) (p' s')) :
    Aligned R ((do return f (← p) : Parse β) s) ((do return f (← p') : Parse β) s') :=
  aligned_bind h fun a _ _ _ ht => aligned_done ht (f a)

theorem aligned_ite {c : Prop} [Decidable c] {q q' : Parse α}
    (hp : c → Aligned R (p s) (p' s')) (hq : ¬ c → Aligned R (q s) (q' s')) :
    Aligned R ((if c then p else q) s) ((if c then p' else q') s') := by
  by_cases h : c
  · simpa only [h, if_true] using hp h
  · simpa only [h, if_false] using hq h

theorem aligned_fail (cause : Cause) (s s' : State) :
    Aligned R ((fail cause : Parse α) s) ((fail cause : Parse α) s') :=
  rfl

theorem aligned_require {p p' : Parse (Option α)} (cause : Cause)
    (h : Aligned R (p s) (p' s')) :
    Aligned R (require cause p s) (require cause p' s') := by
  refine aligned_bind h fun a t t' _ ht => ?_
  cases a with
  | none => exact aligned_fail cause t t'
  | some a => exact aligned_done ht a

theorem aligned_skipBlanks (hR : Tracks R) (hs : Beside R s s') :
    Aligned R (skipBlanks s) (skipBlanks s') :=
  ⟨rfl, hR.skip hs.1, hs.2⟩

theorem aligned_setInBranch (b : Bool) (hs : Beside R s s') :
    Aligned R (setInBranch b s) (setInBranch b s') :=
  ⟨rfl, hs.1, rfl⟩

/-- Past the next character. -/
theorem aligned_advance_one (hR : Tracks R) (hs : Beside R s s') {c : Char}
    (hpeek : s.cursor.peek? = some c) (hc : isSolid c = true) :
    Aligned R (advance 1 s) (advance 1 s') :=
  ⟨rfl, hR.step hs.1 hpeek hc, hs.2⟩

/-- Past a text without blanks and quotes. -/
theorem aligned_advance (hR : Tracks R) (hs : Beside R s s') {xs : List Char}
    (hxs : ∀ x ∈ xs, isSolid x = true) (hahead : xs <+: s.cursor.ahead) :
    Aligned R (advance xs.length s) (advance xs.length s') :=
  ⟨rfl, hR.advance hs.1 hxs hahead, hs.2⟩

theorem aligned_advance_operator (hR : Tracks R) (hs : Beside R s s') {op : String} {n : Nat}
    (hop : ∀ x ∈ op.toList, isSolid x = true) (hahead : op.toList <+: s.cursor.ahead.take n) :
    Aligned R (advance op.length s) (advance op.length s') := by
  rw [← String.length_toList]
  exact aligned_advance hR hs hop (hahead.trans (List.take_prefix n _))

theorem aligned_eat (hR : Tracks R) (hs : Beside R s s') {c : Char} (hc : isSolid c = true) :
    Aligned R (eat c s) (eat c s') := by
  unfold eat
  simp only [hR.peek hs.1 (isBlank_of_isSolid hc)]
  split
  · rename_i hpeek
    exact ⟨rfl, hR.step hs.1 hpeek hc, hs.2⟩
  · exact aligned_done hs false

theorem aligned_expect (hR : Tracks R) (hs : Beside R s s') {c : Char} (hc : isSolid c = true)
    (cause : Cause) : Aligned R (expect c cause s) (expect c cause s') := by
  refine aligned_bind (aligned_eat hR hs hc) fun b t t' _ ht => ?_
  exact aligned_ite (fun _ => aligned_done ht ()) fun _ => aligned_fail cause t t'

end

/-- The rules below the statements do the same at related places. -/
def Agree (R : Cursor → Cursor → Prop) (rules : Rules) : Prop :=
  ∀ r, r ≠ .statements → ∀ s s', Beside R s s' → Aligned R (rules r s) (rules r s')

section

variable {R : Cursor → Cursor → Prop} {rules : Rules} {s s' : State}

/-- Where no name begins, the error is of the same kind at the end of a text and in front of a
blank. -/
theorem name_aligned (hR : Tracks R) (hs : Beside R s s') :
    Aligned R (name letters s) (name letters s') := by
  have hname : ∀ u : State, u.cursor.peek?.any letters.isStart = false →
      ∃ e, name letters u = .failed e ∧ e.cause.kind = .unexpectedCharacter := by
    intro u hu
    unfold name
    rw [bind_peek_apply]
    cases hpeek : u.cursor.peek? with
    | none => exact ⟨_, rfl, rfl⟩
    | some c =>
      rw [hpeek, Option.any_some] at hu
      simp only [hu, Bool.false_eq_true, if_false]
      exact ⟨_, rfl, rfl⟩
  have hany := hR.any_peek? hs.1 fun x => isSolid_of_isStart
  cases hstart : s.cursor.peek?.any letters.isStart with
  | false =>
    obtain ⟨e, he, hkind⟩ := hname s hstart
    obtain ⟨e', he', hkind'⟩ := hname s' (hany.trans hstart)
    rw [he, he']
    exact hkind'.trans hkind.symm
  | true =>
    obtain ⟨c, hpeek, hc⟩ := (Option.any_eq_true _ _).mp hstart
    have hpeek' := (hR.peek hs.1 (isBlank_of_isStart hc)).mpr hpeek
    unfold name
    rw [bind_peek_apply, bind_peek_apply, hpeek, hpeek']
    refine aligned_ite (fun _ => aligned_map (f := String.ofList) ?_) fun hnot => absurd hc hnot
    have hpart : ∀ x, letters.isPart x = true → isSolid x = true := fun x => isSolid_of_isPart
    unfold takeWhile
    rw [hR.takeWhile hs.1 hpart]
    refine ⟨rfl, hR.advance hs.1 (fun x hx => hpart x (List.mem_takeWhile_imp hx)) ?_, hs.2⟩
    exact List.takeWhile_prefix letters.isPart

theorem nameFromNumeral_aligned (hR : Tracks R) (hs : Beside R s s') (text : List Char)
    {cause cause' : Cause} (hcause : cause'.kind = cause.kind) :
    Aligned R (nameFromNumeral letters text cause s) (nameFromNumeral letters text cause' s') :=
  aligned_ite (fun _ => aligned_map (f := fun w => Node.plain (String.ofList text ++ w))
    (name_aligned hR hs)) fun _ => hcause

theorem numberOf_aligned (hs : Beside R s s') (n : Numeral) (start start' : Nat) :
    Aligned R (numberOf n start s) (numberOf n start' s') :=
  aligned_ite (fun _ => aligned_done hs _) fun _ => rfl

/-- A numeral up to a blank, a quote or the end of a text. -/
theorem numeral_eq_of_end {n : Numeral} {rest : List Char}
    (hmunch : Numeral.munch s.cursor.ahead = (n, rest))
    (hrest : ∀ c ∈ rest.head?, isSolid c = false) :
    numeral letters s = (do
      advance n.text.length
      if n.lacksExponent then
        nameFromNumeral letters n.text (.noExponent (String.ofList n.text) rest.head?)
      else numberOf n s.cursor.index : Parse Node) s := by
  have hother : ∀ c ∈ gaps, c ≠ ':' ∧ letters.isStart c = false ∧ c ≠ '.' :=
    forall_mem_of_all (by decide)
  unfold numeral
  rw [bind_here_apply, hmunch]
  simp only [bind_advance_apply, ite_step]
  cases hhead : rest.head? with
  | none => rfl
  | some c =>
    obtain ⟨hcolon, hstart, hpoint⟩ := hother c (isSolid_eq_false_iff.mp (hrest c hhead))
    simp only [bind_inBranch_apply, hcolon, hstart, hpoint, false_and, Bool.false_eq_true,
      if_false]

theorem numeral_aligned (hR : Tracks R) (hs : Beside R s s') :
    Aligned R (numeral letters s) (numeral letters s') := by
  obtain ⟨xs, ys, zs, hc, hd, hxs, hys, hzs⟩ := hR.split hs.1
  have hmunch : Numeral.munch (xs ++ ys) = ((Numeral.munch xs).1, (Numeral.munch xs).2 ++ ys) :=
    munch_append fun y hy => not_munched (hys y hy)
  have hmunch' : Numeral.munch (xs ++ zs) = ((Numeral.munch xs).1, (Numeral.munch xs).2 ++ zs) :=
    munch_append fun z hz => not_munched (hzs z hz)
  rw [← hc] at hmunch
  rw [← hd] at hmunch'
  have hbegins : (Numeral.munch xs).1.text <+: xs := ⟨_, Numeral.text_munch xs⟩
  generalize Numeral.munch xs = munched at hmunch hmunch' hbegins
  obtain ⟨n, more⟩ := munched
  have hsolid : ∀ x ∈ n.text, isSolid x = true := fun x hx => hxs x (hbegins.subset hx)
  have hahead : n.text <+: s.cursor.ahead := by
    rw [hc]
    exact hbegins.trans (List.prefix_append xs ys)
  have hadvance := aligned_advance hR hs hsolid hahead
  cases more with
  | nil =>
    rw [numeral_eq_of_end hmunch (by simpa using hys),
      numeral_eq_of_end hmunch' (by simpa using hzs)]
    refine aligned_bind hadvance fun _ t t' _ ht => ?_
    exact aligned_ite (fun _ => nameFromNumeral_aligned hR ht _ rfl)
      fun _ => numberOf_aligned ht n _ _
  | cons c more =>
    unfold numeral
    rw [bind_here_apply, bind_here_apply, hmunch, hmunch']
    refine aligned_bind hadvance fun _ t t' _ ht => ?_
    refine aligned_ite (fun _ => nameFromNumeral_aligned hR ht _ rfl) fun _ => ?_
    simp only [List.cons_append, List.head?_cons, bind_inBranch_apply, ht.2]
    refine aligned_ite (fun _ => numberOf_aligned ht n _ _) fun _ => ?_
    refine aligned_ite (fun _ => nameFromNumeral_aligned hR ht _ rfl) fun _ => ?_
    exact aligned_ite (fun _ => aligned_fail _ t t') fun _ => numberOf_aligned ht n _ _

theorem word_aligned (hR : Tracks R) (h : Agree R rules) (hs : Beside R s s') :
    Aligned R (word .standard rules s) (word .standard rules s') := by
  refine aligned_bind (name_aligned hR hs) fun w t t' _ ht => ?_
  simp only [bind_here_apply, hR.equals ht.1]
  refine aligned_ite (fun hpair => ?_) fun _ => aligned_done ht _
  refine aligned_bind (aligned_advance_one hR ht hpair.1 (by decide)) fun _ u u' _ hu => ?_
  exact aligned_map (f := Term.pair w) (aligned_require _ (h .expression nofun u u' hu))

theorem group_aligned (hR : Tracks R) (h : Agree R rules) (hs : Beside R s s')
    (hpeek : s.cursor.peek? = some '(') : Aligned R (group rules s) (group rules s') := by
  refine aligned_bind (aligned_advance_one hR hs hpeek (by decide)) fun _ t t' _ ht => ?_
  refine aligned_bind (aligned_require _ (h .expression nofun t t' ht)) fun n u u' _ hu => ?_
  refine aligned_bind (aligned_skipBlanks hR hu) fun _ v v' _ hv => ?_
  exact aligned_bind (aligned_expect hR hv (by decide) _) fun _ w w' _ hw => aligned_done hw n

theorem primary_aligned (hR : Tracks R) (h : Agree R rules) (hs : Beside R s s') :
    Aligned R (primary .standard rules s) (primary .standard rules s') := by
  refine aligned_bind ?_ fun x t t' _ ht => ?_
  · rw [bind_peek_apply, bind_peek_apply]
    simp only [hR.peek hs.1 (x := '(') (by decide)]
    exact aligned_ite (fun hpeek => aligned_map (f := Term.node) (group_aligned hR h hs hpeek))
      fun _ => word_aligned hR h hs
  · cases x with
    | pair w value => exact aligned_done ht _
    | node n =>
      refine aligned_bind (aligned_skipBlanks hR ht) fun _ u u' _ hu => ?_
      exact aligned_map (f := Term.node) (h (.links n) nofun u u' hu)

theorem links_aligned (hR : Tracks R) (h : Agree R rules) (head : Node) (hs : Beside R s s') :
    Aligned R (links .standard rules head s) (links .standard rules head s') := by
  have hpeek : ∀ c, isBlank c = false →
      (s'.cursor.peek? = some c ↔ s.cursor.peek? = some c) := fun c hc => hR.peek hs.1 hc
  rw [links_eq, bind_peek_apply, bind_peek_apply]
  simp only [hpeek '.' (by decide), hpeek '[' (by decide), hpeek '(' (by decide)]
  refine aligned_ite (fun hnext => ?_) fun _ => aligned_ite (fun hnext => ?_) fun _ =>
    aligned_ite (fun hnext => ?_) fun _ => aligned_done hs head
  · refine aligned_bind (aligned_advance_one hR hs hnext (by decide)) fun _ t t' _ ht => ?_
    refine aligned_bind (aligned_skipBlanks hR ht) fun _ u u' _ hu => ?_
    refine aligned_bind (name_aligned hR hu) fun w v v' _ hv => ?_
    exact aligned_bind (aligned_skipBlanks hR hv) fun _ x x' _ hx => h (.links _) nofun x x' hx
  · refine aligned_bind (aligned_advance_one hR hs hnext (by decide)) fun _ t t' _ ht => ?_
    refine aligned_bind (aligned_require _ (h .expression nofun t t' ht)) fun m u u' _ hu => ?_
    refine aligned_bind (aligned_skipBlanks hR hu) fun _ v v' _ hv => ?_
    refine aligned_bind (aligned_expect hR hv (by decide) _) fun _ x x' _ hx => ?_
    exact aligned_bind (aligned_skipBlanks hR hx) fun _ y y' _ hy => h (.links _) nofun y y' hy
  · refine aligned_bind (aligned_advance_one hR hs hnext (by decide)) fun _ t t' _ ht => ?_
    refine aligned_bind (h (.items .round) nofun t t' ht) fun arguments u u' _ hu => ?_
    exact aligned_bind (aligned_skipBlanks hR hu) fun _ v v' _ hv => h (.links _) nofun v v' hv

theorem closing_isSolid (b : Bracket) : isSolid b.closing = true := by
  cases b <;> decide

theorem items_aligned (hR : Tracks R) (h : Agree R rules) (bracket : Bracket)
    (hs : Beside R s s') : Aligned R (items rules bracket s) (items rules bracket s') := by
  unfold items
  rw [bind_skipBlanks_apply, bind_skipBlanks_apply, bind_peek_apply, bind_peek_apply]
  have hskipped : Beside R { s with cursor := s.cursor.skipBlanks }
      { s' with cursor := s'.cursor.skipBlanks } := ⟨hR.skip hs.1, hs.2⟩
  simp only [hR.peek?_skipBlanks hs.1]
  cases hpeek : s.cursor.skipBlanks.peek? with
  | none => exact aligned_fail _ _ _
  | some c =>
    refine aligned_ite (fun hc => ?_) fun _ => aligned_ite (fun hc => ?_) fun _ => ?_
    · subst hc
      exact aligned_bind (aligned_advance_one hR hskipped hpeek (closing_isSolid bracket))
        fun _ t t' _ ht => aligned_done ht []
    · subst hc
      exact aligned_bind (aligned_advance_one hR hskipped hpeek (by decide))
        fun _ t t' _ ht => h (.items bracket) nofun t t' ht
    · refine aligned_bind (h .expression nofun _ _ hskipped) fun a t t' _ ht => ?_
      have hitem : ∀ n : Node, Aligned R
          ((do return n :: (← rules (.items bracket)) : Parse (List Node)) t)
          ((do return n :: (← rules (.items bracket)) : Parse (List Node)) t') :=
        fun n => aligned_map (f := (n :: ·)) (h (.items bracket) nofun t t' ht)
      rcases a with _ | n
      · exact aligned_fail _ t t'
      · cases n <;> first | exact aligned_fail _ t t' | exact hitem _

theorem join_aligned (hR : Tracks R) (raw base : String) (hs : Beside R s s')
    (hpeek : s.cursor.peek? = some '!') :
    Aligned R (join letters raw base s) (join letters raw base s') := by
  refine aligned_bind (aligned_advance_one hR hs hpeek (by decide)) fun _ t t' _ ht => ?_
  exact aligned_bind (name_aligned hR ht) fun suffix u u' _ hu => aligned_done hu _

theorem joinName_aligned (hR : Tracks R) (n : Node) (hs : Beside R s s') :
    Aligned R (joinName letters n s) (joinName letters n s') := by
  unfold joinName
  rw [bind_here_apply, bind_here_apply, hR.joinFollows hs.1]
  cases n with
  | identifier w object property =>
    cases object with
    | some object => exact aligned_done hs _
    | none =>
      cases hjoin : joinFollows letters s.cursor with
      | false => exact aligned_done hs _
      | true => exact join_aligned hR w w hs (Lexemes.peek_of_joinFollows hjoin)
  | _ => exact aligned_done hs _

theorem joinableText_aligned (hR : Tracks R) (hs : Beside R s s')
    (hpeek : s.cursor.peek? = some '\'') :
    Aligned R (joinableText letters s) (joinableText letters s') := by
  refine aligned_bind (hR.quotation hs hpeek (by decide)) fun text t t' _ ht => ?_
  obtain ⟨value, raw⟩ := text
  simp only [bind_here_apply, hR.joinFollows ht.1]
  exact aligned_ite (fun hjoin => join_aligned hR raw value ht (Lexemes.peek_of_joinFollows hjoin))
    fun _ => aligned_done ht _

theorem pairs_aligned (hR : Tracks R) (h : Agree R rules) (keys : Keyed (Entry Node))
    (hs : Beside R s s') :
    Aligned R (pairs .standard rules keys s) (pairs .standard rules keys s') := by
  refine aligned_bind (aligned_skipBlanks hR hs) fun _ t t' _ ht => ?_
  refine aligned_bind (aligned_eat hR ht (by decide)) fun _ u u' _ hu => ?_
  refine aligned_bind (aligned_skipBlanks hR hu) fun _ v v' _ hv => ?_
  rw [bind_here_apply, bind_here_apply]
  have hstart : v'.cursor.peek?.any Grammar.standard.letters.isStart =
      v.cursor.peek?.any Grammar.standard.letters.isStart :=
    hR.any_peek? hv.1 fun x => isSolid_of_isStart
  rw [hstart]
  refine aligned_ite (fun _ => ?_) fun _ => aligned_done hv keys
  refine aligned_bind (h .primary nofun v v' hv) fun x w w' _ hw => ?_
  cases x with
  | pair key value => exact h (.pairs _) nofun w w' hw
  | node n => exact ⟨rfl, hv.1, hw.2⟩

theorem applyUnary_aligned (h : Agree R rules) (operator : String) (hs : Beside R s s') :
    Aligned R (applyUnary rules operator s) (applyUnary rules operator s') :=
  aligned_bind (aligned_require _ (h .operand nofun s s' hs)) fun _ _ _ _ ht => aligned_done ht _

theorem ofTerm_aligned (h : Agree R rules) (x : Term) (hs : Beside R s s') :
    Aligned R (ofTerm .standard rules x s) (ofTerm .standard rules x s') := by
  cases x with
  | pair key value => exact aligned_map (f := Node.keyValues) (h (.pairs _) nofun s s' hs)
  | node n =>
    cases n with
    | identifier w object property =>
      cases object with
      | some object => exact aligned_done hs _
      | none =>
        refine aligned_ite (fun _ => applyUnary_aligned h w hs) fun _ => ?_
        cases Numeral.read? w.toList <;> exact aligned_done hs _
    | _ => exact aligned_done hs _

theorem primaryOperand_aligned (hR : Tracks R) (h : Agree R rules) (hs : Beside R s s') :
    Aligned R (primaryOperand .standard rules s) (primaryOperand .standard rules s') := by
  refine aligned_bind (h .primary nofun s s' hs) fun x t t' _ ht => ?_
  cases x with
  | pair key value => exact ofTerm_aligned h _ ht
  | node n =>
    exact aligned_bind (joinName_aligned hR n ht) fun m u u' _ hu => ofTerm_aligned h (.node m) hu

theorem leadingOperator_aligned (hR : Tracks R) (h : Agree R rules) (hs : Beside R s s') :
    Aligned R (leadingOperator .standard rules s) (leadingOperator .standard rules s') := by
  unfold leadingOperator
  rw [bind_here_apply, bind_here_apply, hR.unaryAt? hs.1]
  cases hop : Grammar.standard.operators.unaryAt?
      (s.cursor.ahead.take Grammar.standard.operators.longestUnary) with
  | none => exact aligned_done hs _
  | some operator =>
    obtain ⟨hunary, hbegins⟩ := OperatorTable.unaryAt?_spec hop
    have hadvance := aligned_advance_operator hR hs (isSolid_of_isUnary hunary) hbegins
    refine aligned_bind hadvance fun _ t t' _ ht => ?_
    exact aligned_map (f := some) (applyUnary_aligned h operator ht)

theorem operand_aligned (hR : Tracks R) (h : Agree R rules) (hs : Beside R s s') :
    Aligned R (operand .standard rules s) (operand .standard rules s') := by
  unfold operand
  rw [bind_skipBlanks_apply, bind_skipBlanks_apply, bind_peek_apply, bind_peek_apply]
  have hskipped : Beside R { s with cursor := s.cursor.skipBlanks }
      { s' with cursor := s'.cursor.skipBlanks } := ⟨hR.skip hs.1, hs.2⟩
  simp only [hR.peek?_skipBlanks hs.1]
  cases hpeek : s.cursor.skipBlanks.peek? with
  | none => exact aligned_done hskipped none
  | some c =>
    refine aligned_ite (fun hc => aligned_map (f := some) ?_) fun _ => ?_
    · have hstart : Grammar.standard.letters.isStart c = false := isStart_of_numeral hc
      simp only [numeralOperand, hstart, Bool.false_eq_true, if_false]
      exact numeral_aligned hR hskipped
    refine aligned_ite (fun hc => ?_) fun _ => ?_
    · subst hc
      exact aligned_map (f := some) (joinableText_aligned hR hskipped hpeek)
    refine aligned_ite (fun hc => ?_) fun _ => ?_
    · subst hc
      exact aligned_bind (hR.quotation hskipped hpeek (by decide)) fun _ _ _ _ ht =>
        aligned_done ht _
    refine aligned_ite (fun _ => aligned_map (f := some) (primaryOperand_aligned hR h hskipped))
      fun _ => ?_
    refine aligned_ite (fun hc => ?_) fun _ => leadingOperator_aligned hR h hskipped
    subst hc
    refine aligned_bind (aligned_advance_one hR hskipped hpeek (by decide)) fun _ t t' _ ht => ?_
    have hitems := h (.items .square) (by rintro ⟨⟩) t t' ht
    exact aligned_map (f := fun ns => some (Node.array ns)) hitems

theorem binaryOperator_aligned (hR : Tracks R) (hs : Beside R s s') :
    Aligned R (binaryOperator .standard s) (binaryOperator .standard s') := by
  refine aligned_bind (aligned_skipBlanks hR hs) fun _ t t' _ ht => ?_
  rw [bind_here_apply, bind_here_apply, hR.binaryAt? ht.1]
  cases ho : Grammar.standard.operators.binaryAt?
      (t.cursor.ahead.take Grammar.standard.operators.longestBinary) with
  | none => exact aligned_done ht _
  | some o =>
    obtain ⟨hbinary, hbegins⟩ := OperatorTable.binaryAt?_spec ho
    have hregistered : isBinary OperatorTable.standard o.1 = true :=
      Option.isSome_iff_exists.mpr ⟨o.2, hbinary⟩
    have hadvance := aligned_advance_operator hR ht (isSolid_of_isBinary hregistered) hbegins
    exact aligned_bind hadvance fun _ u u' _ hu => aligned_done hu _

theorem chain_aligned (hR : Tracks R) (h : Agree R rules) (stack : OperatorStack)
    (hs : Beside R s s') :
    Aligned R (chain .standard rules stack s) (chain .standard rules stack s') := by
  refine aligned_bind (binaryOperator_aligned hR hs) fun o t t' _ ht => ?_
  cases o with
  | none => exact aligned_done ht _
  | some o =>
    refine aligned_ite (fun _ => aligned_done ht _) fun _ => ?_
    refine aligned_bind (aligned_require _ (h .operand nofun t t' ht)) fun right u u' _ hu => ?_
    exact h (.chain _) nofun u u' hu

/-- A name that is spelled by the text ahead is cut at related places. -/
theorem splitGlued_aligned (hR : Tracks R) {n : Nat} {a : Node} {start d : Cursor} {b : Bool}
    {u : State} (hstart : R start d)
    (hoperand : run .standard n .operand ⟨start, b⟩ = .done (some a) u)
    (hskipped : start.skipBlanks = start) (hs : Beside R s s') :
    Aligned R (splitGlued rules start a s) (splitGlued rules d a s') := by
  by_cases huncut : Uncut a
  · rw [splitGlued_of_uncut huncut, splitGlued_of_uncut huncut]
    exact aligned_done hs a
  · obtain ⟨w, hname, hahead, hcolon⟩ :=
      (clears_run n hoperand _ rfl).resolve_left huncut
    obtain ⟨test, htest⟩ := Option.ne_none_iff_exists'.mp huncut
    have hcolon' : (a.name?.getD "").toList.getLast? ≠ some ':' := by
      rwa [hname, Option.getD_some]
    rw [splitGlued_of_gluedTest? htest hcolon', splitGlued_of_gluedTest? htest hcolon']
    rw [hname, Option.getD_some] at htest
    rw [hskipped] at hahead
    exact ⟨rfl, hR.cut hstart hoperand hname hahead htest, hs.2⟩

theorem binary_aligned (hR : Tracks R) {n : Nat} (h : Agree R (run .standard n))
    (hs : Beside R s s') :
    Aligned R (Parse.binary .standard (run .standard n) s)
      (Parse.binary .standard (run .standard n) s') := by
  unfold Parse.binary
  rw [bind_skipBlanks_apply, bind_skipBlanks_apply, bind_here_apply, bind_here_apply]
  have hskipped : Beside R { s with cursor := s.cursor.skipBlanks }
      { s' with cursor := s'.cursor.skipBlanks } := ⟨hR.skip hs.1, hs.2⟩
  refine aligned_bind (h .operand nofun _ _ hskipped) fun a u u' ha hu => ?_
  cases a with
  | none => exact aligned_done hu none
  | some left =>
    simp only [bind_here_apply]
    refine aligned_bind (binaryOperator_aligned hR hu) fun o v v' ho hv => ?_
    cases o with
    | none =>
      have hglued : Aligned R (splitGlued (run .standard n) s.cursor.skipBlanks left v)
          (splitGlued (run .standard n) s'.cursor.skipBlanks left v') :=
        splitGlued_aligned hR hskipped.1 ha (Cursor.skipBlanks_skipBlanks _) hv
      exact aligned_map (f := some) hglued
    | some o =>
      simp only [bind_peek_apply, isInsideWord_standard ho, Bool.false_eq_true, if_false]
      refine aligned_bind (aligned_require _ (h .operand nofun v v' hv)) fun right w w' _ hw => ?_
      exact h (.chain _) nofun w w' hw

theorem expression_aligned (hR : Tracks R) {n : Nat} (h : Agree R (run .standard n))
    (hs : Beside R s s') :
    Aligned R (expression .standard (run .standard n) s)
      (expression .standard (run .standard n) s') := by
  refine aligned_bind (binary_aligned hR h hs) fun a t t' _ ht => ?_
  cases a with
  | none => exact aligned_done ht none
  | some test =>
    refine aligned_bind (aligned_skipBlanks hR ht) fun _ u u' _ hu => ?_
    refine aligned_bind (aligned_eat hR hu (by decide)) fun b v v' _ hv => ?_
    refine aligned_ite (fun _ => ?_) fun _ => aligned_done hv (some test)
    refine aligned_bind (aligned_setInBranch true hv) fun _ w w' _ hw => ?_
    refine aligned_bind (aligned_require _ (h .expression nofun w w' hw)) fun m x x' _ hx => ?_
    refine aligned_bind (aligned_skipBlanks hR hx) fun _ y y' _ hy => ?_
    refine aligned_bind (aligned_expect hR hy (by decide) _) fun _ z z' _ hz => ?_
    refine aligned_bind (aligned_require _ (h .expression nofun z z' hz)) fun k r r' _ hr => ?_
    exact aligned_bind (aligned_setInBranch false hr) fun _ x x' _ hx => aligned_done hx _

end

/-- In any number of rounds, the same for both texts. -/
theorem aligned_run {R : Cursor → Cursor → Prop} (hR : Tracks R) (n : Nat) :
    Agree R (run .standard n) := by
  induction n with
  | zero => exact fun _ _ _ _ _ => trivial
  | succ n ih =>
    intro r hr s s' hs
    cases r with
    | expression => exact expression_aligned hR ih hs
    | operand => exact operand_aligned hR ih hs
    | primary => exact primary_aligned hR ih hs
    | links head => exact links_aligned hR ih head hs
    | items bracket => exact items_aligned hR ih bracket hs
    | chain stack => exact chain_aligned hR ih stack hs
    | pairs keys => exact pairs_aligned hR ih keys hs
    | statements => exact absurd rfl hr

end ExprTree.SideBySide
