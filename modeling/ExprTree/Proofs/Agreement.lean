import ExprTree.Proofs.Histories
import ExprTree.Proofs.Standard
import ExprTree.Proofs.Steps

/-!
What of a grammar a text can tell. Two grammars with the same unary operators are `AlikeOn` a text
if they give the same precedence to each operator that stands in it, admit the same characters of
it in names, and have the same word for the receiver or one that does not stand in it. The lengths
of their longest operators, and so how far ahead they look, may differ. On such a text the steps of
both grammars do the same at every place, so the rules do, in any number of rounds.
-/

namespace ExprTree.Agreement

open Parse Histories

/-- Two grammars that differ only in what does not stand in a text. -/
structure AlikeOn (text : List Char) (g h : Grammar) : Prop where
  unary : ∀ op, g.operators.isUnary op = h.operators.isUnary op
  binary : ∀ op : String, op ≠ "" → op.toList <:+: text →
    g.operators.precedence? op = h.operators.precedence? op
  letters : ∀ c ∈ text, g.letters.isExtra c = h.letters.isExtra c
  thisWord : g.thisWord = h.thisWord ∨
    ¬ g.thisWord.toList <:+: text ∧ ¬ h.thisWord.toList <:+: text

section

variable {t u : OperatorTable} {text : List Char}

/-- Sound tables with the same unary operators find the same ones. -/
theorem unaryAt?_congr (ht : Sound t) (hu : Sound u) (hsame : ∀ op, t.isUnary op = u.isUnary op) :
    t.unaryAt? (text.take t.longestUnary) = u.unaryAt? (text.take u.longestUnary) := by
  have hlongest : t.longestUnary = u.longestUnary := ht.unary.unique (hu.unary.congr hsame)
  have haccept : t.isUnary = u.isUnary := funext hsame
  rw [unaryAt?_take, unaryAt?_take, OperatorTable.unaryAt?, OperatorTable.unaryAt?, hlongest,
    haccept]

theorem isLongestMatch_congr {accept accept' : String → Bool} {op : String}
    (hsame : ∀ x : String, x ≠ "" → x.toList <+: text → accept x = accept' x)
    (h : IsLongestMatch accept text op) : IsLongestMatch accept' text op := by
  obtain ⟨haccept, hne, hbegins, hlongest⟩ := h
  refine ⟨(hsame op hne hbegins).symm.trans haccept, hne, hbegins, fun x hx hbegins' => ?_⟩
  by_cases hempty : x = ""
  · subst hempty
    exact Nat.zero_le _
  · exact hlongest x ((hsame x hempty hbegins').trans hx) hbegins'

theorem binaryAt?_eq_some_iff_isLongestMatch (ht : Sound t) {op : String} {p : Int} :
    t.binaryAt? text = some (op, p) ↔
      IsLongestMatch (isBinary t) text op ∧ t.precedence? op = some p := by
  rw [OperatorTable.binaryAt?_eq_some_iff]
  exact and_congr_left fun _ => longestBeginning_eq_some_iff_isLongestMatch ht.binary

/-- Sound tables that agree on the beginnings of a text find the same operator there, however far
each of them looks ahead. -/
theorem binaryAt?_congr (ht : Sound t) (hu : Sound u)
    (hsame : ∀ op : String, op ≠ "" → op.toList <+: text → t.precedence? op = u.precedence? op) :
    t.binaryAt? (text.take t.longestBinary) = u.binaryAt? (text.take u.longestBinary) := by
  have hbinary : ∀ op : String, op ≠ "" → op.toList <+: text → isBinary t op = isBinary u op := by
    intro op hne hbegins
    rw [isBinary, isBinary, hsame op hne hbegins]
  rw [binaryAt?_take, binaryAt?_take]
  refine Option.ext fun o => ?_
  obtain ⟨op, p⟩ := o
  rw [binaryAt?_eq_some_iff_isLongestMatch ht, binaryAt?_eq_some_iff_isLongestMatch hu]
  constructor
  · intro h
    obtain ⟨hmatch, hp⟩ := h
    exact ⟨isLongestMatch_congr hbinary hmatch, (hsame op hmatch.2.1 hmatch.2.2.1).symm.trans hp⟩
  · intro h
    obtain ⟨hmatch, hp⟩ := h
    refine ⟨isLongestMatch_congr (fun x hx hx' => (hbinary x hx hx').symm) hmatch, ?_⟩
    exact (hsame op hmatch.2.1 hmatch.2.2.1).trans hp

end

section

variable {text : List Char} {g h : Grammar} {c : Char}

theorem AlikeOn.isStart (hsame : AlikeOn text g h) (hc : c ∈ text) :
    g.letters.isStart c = h.letters.isStart c := by
  rw [Letters.isStart, Letters.isStart, hsame.letters c hc]

theorem AlikeOn.isPart (hsame : AlikeOn text g h) (hc : c ∈ text) :
    g.letters.isPart c = h.letters.isPart c := by
  rw [Letters.isPart, Letters.isPart, hsame.isStart hc]

/-- A test that two grammars share on a text gives the same on a character of it, if there is
one. -/
theorem any_congr {p q : Char → Bool} (hpq : ∀ c ∈ text, p c = q c) {o : Option Char}
    (ho : ∀ c ∈ o, c ∈ text) : o.any p = o.any q := by
  cases o with
  | none => rfl
  | some c => exact hpq c (ho c rfl)

theorem all_congr {p q : Char → Bool} (hpq : ∀ c ∈ text, p c = q c) {cs : List Char}
    (hcs : ∀ c ∈ cs, c ∈ text) : cs.all p = cs.all q := by
  induction cs with
  | nil => rfl
  | cons c cs ih =>
    obtain ⟨hc, hcs⟩ := List.forall_mem_cons.mp hcs
    rw [List.all_cons, List.all_cons, hpq c hc, ih hcs]

theorem takeWhile_congr {p q : Char → Bool} (hpq : ∀ c ∈ text, p c = q c) {cs : List Char}
    (hcs : ∀ c ∈ cs, c ∈ text) : cs.takeWhile p = cs.takeWhile q := by
  induction cs with
  | nil => rfl
  | cons c cs ih =>
    obtain ⟨hc, hcs⟩ := List.forall_mem_cons.mp hcs
    rw [List.takeWhile_cons, List.takeWhile_cons, hpq c hc, ih hcs]

/-- A word of the text stands for the same in both grammars. -/
theorem AlikeOn.wordNode (hsame : AlikeOn text g h) {w : String} (hw : w.toList <:+: text) :
    g.wordNode w = h.wordNode w := by
  unfold Grammar.wordNode
  cases Grammar.wordLiteral? w with
  | some value => rfl
  | none =>
    rcases hsame.thisWord with heq | ⟨hg, hh⟩
    · rw [heq]
    · have hne : w ≠ g.thisWord := by
        intro heq
        exact hg (heq ▸ hw)
      have hne' : w ≠ h.thisWord := by
        intro heq
        exact hh (heq ▸ hw)
      rw [if_neg hne, if_neg hne']

theorem mem_of_peekAt? {c : Cursor} {n : Nat} (hc : c.text = text) :
    ∀ x ∈ c.peekAt? n, x ∈ text := by
  intro x hx
  rw [← hc]
  exact List.mem_append_right _ (List.mem_of_getElem? hx)

theorem mem_of_peek? {c : Cursor} (hc : c.text = text) : ∀ x ∈ c.peek?, x ∈ text := by
  intro x hx
  rw [← hc]
  exact List.mem_append_right _ (List.mem_of_head? hx)

theorem ahead_suffix {c : Cursor} (hc : c.text = text) : c.ahead <:+ text :=
  ⟨c.passed.reverse, hc⟩

theorem AlikeOn.joinFollows (hsame : AlikeOn text g h) {c : Cursor} (hc : c.text = text) :
    joinFollows g.letters c = joinFollows h.letters c := by
  unfold Parse.joinFollows
  rw [any_congr (fun _ => hsame.isStart) (mem_of_peekAt? hc)]

theorem AlikeOn.isInsideWord (hsame : AlikeOn text g h) (left : Node) (isolated : Bool)
    {operator : String} (hoperator : operator.toList <:+: text) {next : Option Char}
    (hnext : ∀ c ∈ next, c ∈ text) :
    isInsideWord g left isolated operator next = isInsideWord h left isolated operator next := by
  have hfirst : ∀ c ∈ operator.toList.head?, c ∈ text :=
    fun c hc => hoperator.subset (List.mem_of_head? hc)
  unfold Parse.isInsideWord
  rw [any_congr (fun _ => hsame.isPart) hfirst, any_congr (fun _ => hsame.isPart) hnext]

end

/-- At every place of a text two steps do the same, and stay in the text; what they give, if they
give something, satisfies a condition. -/
def Agree {α : Type} (text : List Char) (p p' : Parse α) (Q : α → Prop) : Prop :=
  ∀ s, s.cursor.text = text → p s = p' s ∧
    ∀ a t, p s = .done a t → t.cursor.text = text ∧ Q a

section

variable {text : List Char} {α β : Type} {p p' : Parse α} {Q : α → Prop}

theorem agree_pure {a : α} (ha : Q a) : Agree text (Pure.pure a : Parse α) (Pure.pure a) Q := by
  intro s hs
  refine ⟨rfl, fun b t h => ?_⟩
  cases h
  exact ⟨hs, ha⟩

theorem agree_bind {f f' : α → Parse β} {R : β → Prop} (hp : Agree text p p' Q)
    (hf : ∀ a, Q a → Agree text (f a) (f' a) R) : Agree text (p >>= f) (p' >>= f') R := by
  intro s hs
  obtain ⟨heq, hdone⟩ := hp s hs
  cases hrun : p s with
  | done a t =>
    obtain ⟨ht, ha⟩ := hdone a t hrun
    rw [bind_of_done hrun, bind_of_done (heq ▸ hrun)]
    exact hf a ha t ht
  | failed e =>
    rw [bind_of_failed hrun, bind_of_failed (heq ▸ hrun)]
    exact ⟨rfl, fun b t h => by cases h⟩
  | unfinished =>
    rw [bind_of_unfinished hrun, bind_of_unfinished (heq ▸ hrun)]
    exact ⟨rfl, fun b t h => by cases h⟩

theorem agree_map {f : α → β} (hp : Agree text p p' Q) :
    Agree text (do return f (← p)) (do return f (← p')) fun _ => True :=
  agree_bind hp fun _ _ => agree_pure trivial

theorem agree_ite {c : Prop} [Decidable c] {q q' : Parse α} (hp : c → Agree text p p' Q)
    (hq : ¬ c → Agree text q q' Q) :
    Agree text (if c then p else q) (if c then p' else q') Q := by
  by_cases h : c
  · simpa only [h, if_true] using hp h
  · simpa only [h, if_false] using hq h

theorem agree_fail (cause : Cause) : Agree text (fail cause : Parse α) (fail cause) Q :=
  fun _ _ => ⟨rfl, fun _ _ h => by cases h⟩

theorem agree_failAt (index : Nat) (cause : Cause) :
    Agree text (failAt index cause : Parse α) (failAt index cause) Q :=
  fun _ _ => ⟨rfl, fun _ _ h => by cases h⟩

theorem agree_here : Agree text here here fun c => c.text = text := by
  intro s hs
  refine ⟨rfl, fun c t h => ?_⟩
  cases h
  exact ⟨hs, hs⟩

theorem agree_moveTo {c : Cursor} (hc : c.text = text) :
    Agree text (moveTo c) (moveTo c) fun _ => True := by
  intro s _
  refine ⟨rfl, fun a t h => ?_⟩
  cases h
  exact ⟨hc, trivial⟩

theorem agree_inBranch : Agree text inBranch inBranch fun _ => True := by
  intro s hs
  refine ⟨rfl, fun a t h => ?_⟩
  cases h
  exact ⟨hs, trivial⟩

theorem agree_setInBranch (b : Bool) :
    Agree text (setInBranch b) (setInBranch b) fun _ => True := by
  intro s hs
  refine ⟨rfl, fun a t h => ?_⟩
  cases h
  exact ⟨hs, trivial⟩

theorem agree_peek : Agree text peek peek fun next => ∀ c ∈ next, c ∈ text := by
  intro s hs
  refine ⟨rfl, fun a t h => ?_⟩
  cases h
  exact ⟨hs, mem_of_peek? hs⟩

theorem agree_advance (n : Nat) : Agree text (advance n) (advance n) fun _ => True := by
  intro s hs
  refine ⟨rfl, fun a t h => ?_⟩
  cases h
  exact ⟨(Cursor.text_advance _ n).trans hs, trivial⟩

theorem agree_skipBlanks : Agree text skipBlanks skipBlanks fun _ => True := by
  intro s hs
  refine ⟨rfl, fun a t h => ?_⟩
  cases h
  exact ⟨(Cursor.text_skipBlanks _).trans hs, trivial⟩

theorem agree_takeWhile {p p' : Char → Bool} (hp : ∀ c ∈ text, p c = p' c) :
    Agree text (takeWhile p) (takeWhile p') fun cs => cs <:+: text := by
  intro s hs
  have hahead := ahead_suffix hs
  have htaken : s.cursor.ahead.takeWhile p = s.cursor.ahead.takeWhile p' :=
    takeWhile_congr hp fun c hc => hahead.subset hc
  refine ⟨by rw [takeWhile, takeWhile, htaken], fun cs t h => ?_⟩
  cases h
  exact ⟨(Cursor.text_advance _ _).trans hs,
    (List.takeWhile_prefix p).isInfix.trans hahead.isInfix⟩

theorem agree_eat (c : Char) : Agree text (eat c) (eat c) fun _ => True := by
  intro s hs
  refine ⟨rfl, fun b t h => ?_⟩
  unfold eat at h
  split at h
  · cases h
    exact ⟨(Cursor.text_advance _ 1).trans hs, trivial⟩
  · cases h
    exact ⟨hs, trivial⟩

theorem agree_expect (c : Char) (cause : Cause) :
    Agree text (expect c cause) (expect c cause) fun _ => True :=
  agree_bind (agree_eat c) fun _ _ =>
    agree_ite (fun _ => agree_pure trivial) fun _ => agree_fail cause

theorem agree_require {p p' : Parse (Option α)} {Q : Option α → Prop} (hp : Agree text p p' Q)
    (cause : Cause) : Agree text (require cause p) (require cause p') fun _ => True := by
  refine agree_bind hp fun a _ => ?_
  cases a with
  | none => exact agree_fail cause
  | some a => exact agree_pure trivial

theorem agree_lookAhead (hp : Agree text p p' Q) :
    Agree text (lookAhead p) (lookAhead p') fun _ => True := by
  intro s hs
  refine ⟨by rw [lookAhead, lookAhead, (hp s hs).1], fun a t h => ?_⟩
  unfold lookAhead at h
  split at h <;> cases h <;> exact ⟨hs, trivial⟩

theorem agree_recover {q q' : Parse α} (hp : Agree text p p' Q) (hq : Agree text q q' Q) :
    Agree text (recover p q) (recover p' q') Q := by
  intro s hs
  obtain ⟨heq, hdone⟩ := hp s hs
  refine ⟨by rw [recover, recover, heq, (hq s hs).1], fun a t h => ?_⟩
  unfold recover at h
  split at h
  · exact (hq s hs).2 a t h
  · exact hdone a t h

end

section

variable {text : List Char} {g h : Grammar} {rules rules' : Rules}

theorem name_agree (hsame : AlikeOn text g h) :
    Agree text (name g.letters) (name h.letters) fun w => w.toList <:+: text := by
  refine agree_bind agree_peek fun next hnext => ?_
  cases next with
  | none => exact agree_fail _
  | some c =>
    dsimp only
    rw [hsame.isStart (hnext c rfl)]
    refine agree_ite (fun _ => ?_) fun _ => agree_fail _
    refine agree_bind (agree_takeWhile fun _ => hsame.isPart) fun cs hcs => agree_pure ?_
    rwa [String.toList_ofList]

theorem quotation_agree : Agree text quotation quotation fun _ => True := by
  refine agree_bind agree_here fun c _ => ?_
  cases c.ahead with
  | nil => exact agree_fail _
  | cons quote rest =>
    exact agree_bind (agree_advance _) fun _ _ =>
      agree_ite (fun _ => agree_pure trivial) fun _ => agree_fail _

theorem nameFromNumeral_agree (hsame : AlikeOn text g h) {numeral : List Char}
    (hnumeral : ∀ c ∈ numeral, c ∈ text) (cause : Cause) :
    Agree text (nameFromNumeral g.letters numeral cause) (nameFromNumeral h.letters numeral cause)
      fun _ => True := by
  unfold nameFromNumeral
  rw [all_congr (fun _ => hsame.isPart) hnumeral]
  exact agree_ite (fun _ => agree_map (name_agree hsame)) fun _ => agree_fail _

theorem numberOf_agree (n : Numeral) (start : Nat) :
    Agree text (numberOf n start) (numberOf n start) fun _ => True :=
  agree_ite (fun _ => agree_pure trivial) fun _ => agree_failAt _ _

theorem numeral_agree (hsame : AlikeOn text g h) :
    Agree text (numeral g.letters) (numeral h.letters) fun _ => True := by
  refine agree_bind agree_here fun start hstart => ?_
  have hsplit := Numeral.text_munch start.ahead
  generalize Numeral.munch start.ahead = munched at hsplit ⊢
  obtain ⟨n, rest⟩ := munched
  have hahead : ∀ c ∈ n.text ++ rest, c ∈ text := by
    intro c hc
    exact (ahead_suffix hstart).subset (hsplit ▸ hc)
  have hnumeral : ∀ c ∈ n.text, c ∈ text := fun c hc => hahead c (List.mem_append_left _ hc)
  refine agree_bind (agree_advance _) fun _ _ =>
    agree_ite (fun _ => nameFromNumeral_agree hsame hnumeral _) fun _ => ?_
  cases hhead : rest.head? with
  | none => exact numberOf_agree n _
  | some c =>
    have hc : c ∈ text := hahead c (List.mem_append_right _ (List.mem_of_head? hhead))
    refine agree_bind agree_inBranch fun b _ => agree_ite (fun _ => numberOf_agree n _) fun _ => ?_
    rw [hsame.isStart hc]
    refine agree_ite (fun _ => nameFromNumeral_agree hsame hnumeral _) fun _ => ?_
    exact agree_ite (fun _ => agree_fail _) fun _ => numberOf_agree n _

/-- All rules do the same on a text. -/
def AgreeAll (text : List Char) (rules rules' : Rules) : Prop :=
  ∀ r, Agree text (rules r) (rules' r) fun _ => True

theorem word_agree (hsame : AlikeOn text g h) (hr : AgreeAll text rules rules') :
    Agree text (word g rules) (word h rules') fun _ => True := by
  refine agree_bind (name_agree hsame) fun w hw => agree_bind agree_here fun c _ => ?_
  refine agree_ite (fun _ => agree_bind (agree_advance 1) fun _ _ => ?_) fun _ => ?_
  · exact agree_map (agree_require (hr .expression) _)
  · rw [hsame.wordNode hw]
    exact agree_pure trivial

theorem group_agree (hr : AgreeAll text rules rules') :
    Agree text (group rules) (group rules') fun _ => True := by
  refine agree_bind (agree_advance 1) fun _ _ => ?_
  refine agree_bind (agree_require (hr .expression) _) fun n _ => ?_
  refine agree_bind agree_skipBlanks fun _ _ => ?_
  exact agree_bind (agree_expect _ _) fun _ _ => agree_pure trivial

theorem primary_agree (hsame : AlikeOn text g h) (hr : AgreeAll text rules rules') :
    Agree text (primary g rules) (primary h rules') fun _ => True := by
  refine agree_bind (Q := fun _ => True) (agree_bind agree_peek fun next _ => ?_) fun x _ => ?_
  · exact agree_ite (fun _ => agree_map (group_agree hr)) fun _ => word_agree hsame hr
  · cases x with
    | pair w value => exact agree_pure trivial
    | node n => exact agree_bind agree_skipBlanks fun _ _ => agree_map (hr (.links n))

theorem links_agree (hsame : AlikeOn text g h) (hr : AgreeAll text rules rules') (head : Node) :
    Agree text (links g rules head) (links h rules' head) fun _ => True := by
  rw [links_eq, links_eq]
  refine agree_bind agree_peek fun next _ => agree_ite (fun _ => ?_) fun _ =>
    agree_ite (fun _ => ?_) fun _ => agree_ite (fun _ => ?_) fun _ => agree_pure trivial
  · refine agree_bind (agree_advance 1) fun _ _ => agree_bind agree_skipBlanks fun _ _ => ?_
    refine agree_bind (name_agree hsame) fun w _ => ?_
    exact agree_bind agree_skipBlanks fun _ _ => hr (.links _)
  · refine agree_bind (agree_advance 1) fun _ _ => ?_
    refine agree_bind (agree_require (hr .expression) _) fun property _ => ?_
    refine agree_bind agree_skipBlanks fun _ _ => agree_bind (agree_expect _ _) fun _ _ => ?_
    exact agree_bind agree_skipBlanks fun _ _ => hr (.links _)
  · refine agree_bind (agree_advance 1) fun _ _ => agree_bind (hr (.items .round)) fun _ _ => ?_
    exact agree_bind agree_skipBlanks fun _ _ => hr (.links _)

theorem items_agree (hr : AgreeAll text rules rules') (bracket : Bracket) :
    Agree text (items rules bracket) (items rules' bracket) fun _ => True := by
  refine agree_bind agree_skipBlanks fun _ _ => agree_bind agree_peek fun next _ => ?_
  cases next with
  | none => exact agree_fail _
  | some c =>
    refine agree_ite (fun _ => agree_bind (agree_advance 1) fun _ _ => agree_pure trivial)
      fun _ => ?_
    refine agree_ite (fun _ => agree_bind (agree_advance 1) fun _ _ => hr (.items bracket))
      fun _ => ?_
    refine agree_bind (hr .expression) fun a _ => ?_
    have hitem : ∀ n : Node, Agree text (do return n :: (← rules (.items bracket)))
        (do return n :: (← rules' (.items bracket))) fun _ => True :=
      fun n => agree_map (f := (n :: ·)) (hr (.items bracket))
    rcases a with _ | n
    · exact agree_fail _
    · cases n <;> first | exact agree_fail _ | exact hitem _

theorem join_agree (hsame : AlikeOn text g h) (raw base : String) :
    Agree text (join g.letters raw base) (join h.letters raw base) fun _ => True :=
  agree_bind (agree_advance 1) fun _ _ =>
    agree_bind (name_agree hsame) fun _ _ => agree_pure trivial

theorem joinName_agree (hsame : AlikeOn text g h) (n : Node) :
    Agree text (joinName g.letters n) (joinName h.letters n) fun _ => True := by
  refine agree_bind agree_here fun c hc => ?_
  rw [hsame.joinFollows hc]
  cases n with
  | identifier w object property =>
    cases object with
    | some object => exact agree_pure trivial
    | none =>
      cases Parse.joinFollows h.letters c with
      | false => exact agree_pure trivial
      | true => exact join_agree hsame w w
  | _ => exact agree_pure trivial

theorem joinableText_agree (hsame : AlikeOn text g h) :
    Agree text (joinableText g.letters) (joinableText h.letters) fun _ => True := by
  refine agree_bind quotation_agree fun quoted _ => ?_
  obtain ⟨value, raw⟩ := quoted
  refine agree_bind agree_here fun c hc => ?_
  rw [hsame.joinFollows hc]
  exact agree_ite (fun _ => join_agree hsame raw value) fun _ => agree_pure trivial

theorem pairs_agree (hsame : AlikeOn text g h) (hr : AgreeAll text rules rules')
    (keys : Keyed (Entry Node)) :
    Agree text (pairs g rules keys) (pairs h rules' keys) fun _ => True := by
  refine agree_bind agree_skipBlanks fun _ _ => agree_bind (agree_eat ',') fun _ _ => ?_
  refine agree_bind agree_skipBlanks fun _ _ => agree_bind agree_here fun next hnext => ?_
  rw [any_congr (fun _ => hsame.isStart) (mem_of_peek? hnext)]
  refine agree_ite (fun _ => agree_bind (hr .primary) fun x _ => ?_) fun _ => agree_pure trivial
  cases x with
  | pair key value => exact hr (.pairs _)
  | node n => exact agree_bind (agree_moveTo hnext) fun _ _ => agree_pure trivial

theorem applyUnary_agree (hr : AgreeAll text rules rules') (operator : String) :
    Agree text (applyUnary rules operator) (applyUnary rules' operator) fun _ => True :=
  agree_bind (agree_require (hr .operand) _) fun _ _ => agree_pure trivial

theorem ofTerm_agree (hsame : AlikeOn text g h) (hr : AgreeAll text rules rules') (x : Term) :
    Agree text (ofTerm g rules x) (ofTerm h rules' x) fun _ => True := by
  cases x with
  | pair key value => exact agree_map (f := Node.keyValues) (hr (.pairs _))
  | node n =>
    cases n with
    | identifier w object property =>
      cases object with
      | some object => exact agree_pure trivial
      | none =>
        unfold ofTerm
        dsimp only
        rw [hsame.unary]
        refine agree_ite (fun _ => applyUnary_agree hr w) fun _ => ?_
        cases Numeral.read? w.toList <;> exact agree_pure trivial
    | _ => exact agree_pure trivial

theorem numeralOperand_agree (hsame : AlikeOn text g h) (hr : AgreeAll text rules rules')
    {first : Char} (hfirst : first ∈ text) :
    Agree text (numeralOperand g rules first) (numeralOperand h rules' first) fun _ => True := by
  unfold numeralOperand
  rw [hsame.isStart hfirst]
  refine agree_ite (fun _ => agree_recover (numeral_agree hsame) ?_) fun _ => numeral_agree hsame
  exact agree_bind (hr .primary) fun x _ => ofTerm_agree hsame hr x

theorem primaryOperand_agree (hsame : AlikeOn text g h) (hr : AgreeAll text rules rules') :
    Agree text (primaryOperand g rules) (primaryOperand h rules') fun _ => True := by
  refine agree_bind (hr .primary) fun x _ => ?_
  cases x with
  | pair key value => exact ofTerm_agree hsame hr _
  | node n => exact agree_bind (joinName_agree hsame n) fun m _ => ofTerm_agree hsame hr (.node m)

theorem leadingOperator_agree (hg : Sound g.operators) (hh : Sound h.operators)
    (hsame : AlikeOn text g h) (hr : AgreeAll text rules rules') :
    Agree text (leadingOperator g rules) (leadingOperator h rules') fun _ => True := by
  refine agree_bind agree_here fun c _ => ?_
  dsimp only
  rw [unaryAt?_congr hg hh hsame.unary]
  cases h.operators.unaryAt? (c.ahead.take h.operators.longestUnary) with
  | none => exact agree_pure trivial
  | some operator =>
    exact agree_bind (agree_advance _) fun _ _ => agree_map (applyUnary_agree hr operator)

theorem operand_agree (hg : Sound g.operators) (hh : Sound h.operators)
    (hsame : AlikeOn text g h) (hr : AgreeAll text rules rules') :
    Agree text (operand g rules) (operand h rules') fun _ => True := by
  refine agree_bind agree_skipBlanks fun _ _ => agree_bind agree_peek fun next hnext => ?_
  cases next with
  | none => exact agree_pure trivial
  | some c =>
    dsimp only
    rw [hsame.isStart (hnext c rfl)]
    refine agree_ite (fun _ => agree_map (numeralOperand_agree hsame hr (hnext c rfl))) fun _ => ?_
    refine agree_ite (fun _ => agree_map (joinableText_agree hsame)) fun _ => ?_
    refine agree_ite (fun _ => agree_bind quotation_agree fun _ _ => agree_pure trivial) fun _ => ?_
    refine agree_ite (fun _ => agree_map (primaryOperand_agree hsame hr)) fun _ => ?_
    refine agree_ite (fun _ => ?_) fun _ => leadingOperator_agree hg hh hsame hr
    exact agree_bind (agree_advance 1) fun _ _ =>
      agree_map (f := fun ns => some (Node.array ns)) (hr (.items .square))

theorem binaryOperator_agree (hg : Sound g.operators) (hh : Sound h.operators)
    (hsame : AlikeOn text g h) :
    Agree text (binaryOperator g) (binaryOperator h) fun o => ∀ x ∈ o, x.1.toList <:+: text := by
  refine agree_bind agree_skipBlanks fun _ _ => agree_bind agree_here fun c hc => ?_
  dsimp only
  have hahead := (ahead_suffix hc).isInfix
  rw [binaryAt?_congr hg hh fun op hne hbegins =>
    hsame.binary op hne (hbegins.isInfix.trans hahead)]
  cases hfound : h.operators.binaryAt? (c.ahead.take h.operators.longestBinary) with
  | none => exact agree_pure fun x hx => by cases hx
  | some o =>
    obtain ⟨operator, precedence⟩ := o
    rw [binaryAt?_take] at hfound
    have hbegins := (OperatorTable.binaryAt?_spec hfound).2
    refine agree_bind (agree_advance _) fun _ _ => agree_pure fun x hx => ?_
    cases hx
    exact hbegins.isInfix.trans hahead

theorem chain_agree (hg : Sound g.operators) (hh : Sound h.operators) (hsame : AlikeOn text g h)
    (hr : AgreeAll text rules rules') (stack : OperatorStack) :
    Agree text (chain g rules stack) (chain h rules' stack) fun _ => True := by
  refine agree_bind (binaryOperator_agree hg hh hsame) fun o _ => ?_
  cases o with
  | none => exact agree_pure trivial
  | some o =>
    refine agree_ite (fun _ => agree_pure trivial) fun _ => ?_
    exact agree_bind (agree_require (hr .operand) _) fun right _ => hr (.chain _)

theorem splitGlued_agree (hr : AgreeAll text rules rules') {start : Cursor}
    (hstart : start.text = text) (left : Node) :
    Agree text (splitGlued rules start left) (splitGlued rules' start left) fun _ => True := by
  unfold splitGlued
  dsimp only
  cases gluedTest? (left.name?.getD "").toList with
  | none => exact agree_pure trivial
  | some test =>
    have hmoved : (start.advance test.length).text = text := (start.text_advance _).trans hstart
    refine agree_bind (Q := fun _ => True) ?_ fun follows _ => ?_
    · refine agree_ite (fun _ => ?_) fun _ => agree_pure trivial
      exact agree_map (f := fun a => a.join.isSome) (agree_lookAhead (hr .expression))
    · refine agree_ite (fun _ => ?_) fun _ => agree_pure trivial
      exact agree_bind (agree_moveTo hmoved) fun _ _ => agree_pure trivial

theorem binary_agree (hg : Sound g.operators) (hh : Sound h.operators) (hsame : AlikeOn text g h)
    (hr : AgreeAll text rules rules') :
    Agree text (Parse.binary g rules) (Parse.binary h rules') fun _ => True := by
  refine agree_bind agree_skipBlanks fun _ _ => agree_bind agree_here fun start hstart => ?_
  refine agree_bind (hr .operand) fun a _ => ?_
  cases a with
  | none => exact agree_pure trivial
  | some left =>
    refine agree_bind agree_here fun c _ => ?_
    refine agree_bind (binaryOperator_agree hg hh hsame) fun o ho => ?_
    cases o with
    | none => exact agree_map (splitGlued_agree hr hstart left)
    | some o =>
      obtain ⟨operator, precedence⟩ := o
      refine agree_bind agree_peek fun next hnext => ?_
      rw [hsame.isInsideWord left _ (ho _ rfl) hnext]
      refine agree_ite (fun _ => ?_) fun _ => ?_
      · exact agree_bind (name_agree hsame) fun _ _ => agree_pure trivial
      · exact agree_bind (agree_require (hr .operand) _) fun right _ => hr (.chain _)

theorem expression_agree (hg : Sound g.operators) (hh : Sound h.operators)
    (hsame : AlikeOn text g h) (hr : AgreeAll text rules rules') :
    Agree text (expression g rules) (expression h rules') fun _ => True := by
  refine agree_bind (binary_agree hg hh hsame hr) fun a _ => ?_
  cases a with
  | none => exact agree_pure trivial
  | some test =>
    refine agree_bind agree_skipBlanks fun _ _ => agree_bind (agree_eat '?') fun b _ => ?_
    refine agree_ite (fun _ => ?_) fun _ => agree_pure trivial
    refine agree_bind (agree_setInBranch true) fun _ _ => ?_
    refine agree_bind (agree_require (hr .expression) _) fun consequent _ => ?_
    refine agree_bind agree_skipBlanks fun _ _ => agree_bind (agree_expect _ _) fun _ _ => ?_
    refine agree_bind (agree_require (hr .expression) _) fun alternate _ => ?_
    exact agree_bind (agree_setInBranch false) fun _ _ => agree_pure trivial

theorem statements_agree (hr : AgreeAll text rules rules') :
    Agree text (statements rules) (statements rules') fun _ => True := by
  refine agree_bind agree_peek fun next _ => ?_
  cases next with
  | none => exact agree_pure trivial
  | some c =>
    refine agree_ite (fun _ => agree_bind (agree_advance 1) fun _ _ => hr .statements) fun _ => ?_
    refine agree_bind (hr .expression) fun a _ => ?_
    cases a with
    | some n => exact agree_map (f := (n :: ·)) (hr .statements)
    | none =>
      refine agree_bind agree_peek fun next _ => ?_
      cases next with
      | none => exact agree_pure trivial
      | some c => exact agree_fail _

end

/-- In any number of rounds the rules of two grammars do the same on a text that does not tell
them apart. -/
theorem run_agree {text : List Char} {g h : Grammar} (hg : Sound g.operators)
    (hh : Sound h.operators) (hsame : AlikeOn text g h) (n : Nat) :
    AgreeAll text (run g n) (run h n) := by
  induction n with
  | zero => exact fun r s _ => ⟨rfl, fun a t hdone => by cases hdone⟩
  | succ n ih =>
    intro r
    cases r with
    | expression => exact expression_agree hg hh hsame ih
    | operand => exact operand_agree hg hh hsame ih
    | primary => exact primary_agree hsame ih
    | links head => exact links_agree hsame ih head
    | items bracket => exact items_agree ih bracket
    | chain stack => exact chain_agree hg hh hsame ih stack
    | pairs keys => exact pairs_agree hsame ih keys
    | statements => exact statements_agree ih

/-- Grammars that differ only in what does not stand in a source read it alike: they give the same
tree, or the same error, or both go on for ever, since they come to the same in any number of
rounds. -/
theorem parse_eq_of_alikeOn {g h : Grammar} (hg : g.Reachable) (hh : h.Reachable)
    (source : String) (hsame : AlikeOn source.toList g h) :
    g.parse source = h.parse source ∧
      ∀ rounds, g.parseWithin rounds source = h.parseWithin rounds source := by
  have hall : ∀ rounds, g.parseWithin rounds source = h.parseWithin rounds source := by
    intro rounds
    have hrun := run_agree (sound_of_reachable hg) (sound_of_reachable hh) hsame rounds
    rw [Grammar.parseWithin, Grammar.parseWithin, (hrun .statements (.start source) rfl).1]
  exact ⟨hall _, hall⟩

/-- A longer operator, another character of names and another word for the receiver, none of which
stands in the source. -/
theorem parse_eq_of_alikeOn_longer_operator :
    let h := ((Grammar.standard.addBinary "<==>" 7).addLetters "@").setThisWord "self"
    h.operators.longestBinary = Grammar.standard.operators.longestBinary + 1 ∧ h.Reachable ∧
      AlikeOn "a <= -b ? f(k=1) : c".toList .standard h ∧
      Grammar.standard.parse "a <= -b ? f(k=1) : c" = h.parse "a <= -b ? f(k=1) : c" := by
  intro h
  have hbinary : ∀ op : String, op.toList <:+: "a <= -b ? f(k=1) : c".toList →
      Grammar.standard.operators.precedence? op = h.operators.precedence? op := by
    intro op hop
    have hne : op ≠ "<==>" := by
      intro heq
      subst heq
      revert hop
      decide +kernel
    simp only [h, Grammar.setThisWord, Grammar.addLetters, Grammar.addBinary,
      OperatorTable.addBinary, OperatorTable.precedence?, Keyed.set, Keyed.get?_alter, if_neg hne]
  have hsame : AlikeOn "a <= -b ? f(k=1) : c".toList .standard h := by
    refine ⟨fun op => ?_, fun op _ => hbinary op, forall_mem_of_all (by decide +kernel),
      .inr ⟨by decide +kernel, by decide +kernel⟩⟩
    simp only [h, Grammar.setThisWord, Grammar.addLetters, Grammar.addBinary,
      OperatorTable.addBinary, OperatorTable.isUnary]
  have hreachable : h.Reachable := .setThisWord _ (.addLetters _ (.addBinary _ _ .standard))
  exact ⟨by decide +kernel, hreachable, hsame,
    (parse_eq_of_alikeOn .standard hreachable _ hsame).1⟩

end ExprTree.Agreement
