import ExprTree.Proofs.Boundaries
import ExprTree.Proofs.Shapes

/-!
What becomes of the mark that a branch of a conditional is being read. A conditional sets it for
its branches, but at its end it takes it back also where an outer branch is still being read. So
the mark does not survive an expression with a conditional in it, and without one it stays as it
is; the only other place where it can be lost is the look at one named argument too many.
-/

namespace ExprTree.BranchMark

open Parse Shapes Lexemes Origins

/-- There is a conditional in the tree. -/
def Branching (n : Node) : Prop :=
  ∃ m ∈ n.parts, m.tag = .conditional

/-- There are neither conditionals nor named arguments in the tree. -/
def Straight (n : Node) : Prop :=
  ∀ m ∈ n.parts, m.tag ≠ .conditional ∧ m.tag ≠ .keyValues

/-- The mark goes from `b` to `b'` while trees are read or made from those that were there. With a
new conditional the mark is lost; if all trees are straight, it stays. -/
structure Marks (old new : List Node) (b b' : Bool) : Prop where
  unset : b = false → b' = false
  lost : ∀ n ∈ new, Branching n → (∃ m ∈ old, Branching m) ∨ b' = false
  kept : (∀ n ∈ new, Straight n) → (∀ m ∈ old, Straight m) ∧ b' = b

section

variable {n : Node} {old mid new old' new' : List Node} {b b' b'' : Bool}

theorem branching_iff :
    Branching n ↔ n.tag = .conditional ∨ ∃ c ∈ n.children, Branching c := by
  unfold Branching
  rw [n.parts_eq]
  simp only [List.mem_cons, exists_eq_or_imp, List.mem_flatMap]
  refine or_congr_right ⟨?_, ?_⟩
  · rintro ⟨m, ⟨c, hc, hm⟩, htag⟩
    exact ⟨c, hc, m, hm, htag⟩
  · rintro ⟨c, hc, m, hm, htag⟩
    exact ⟨m, ⟨c, hc, hm⟩, htag⟩

theorem straight_iff :
    Straight n ↔
      (n.tag ≠ .conditional ∧ n.tag ≠ .keyValues) ∧ ∀ c ∈ n.children, Straight c :=
  Node.forall_parts_iff

theorem not_straight_keyValues (keys : List (String × Entry Node)) :
    ¬ Straight (.keyValues keys) := by
  intro h
  exact (straight_iff.mp h).1.2 rfl

theorem straight_leaf (htag : n.tag ≠ .conditional ∧ n.tag ≠ .keyValues)
    (hleaf : n.children = []) : Straight n :=
  straight_iff.mpr ⟨htag, by simp [hleaf]⟩

theorem straight_plain (w : String) : Straight (.plain w) :=
  straight_leaf (by simp [Node.plain, Node.tag]) rfl

theorem straight_literal (value : LiteralValue) (raw : String) : Straight (.literal value raw) :=
  straight_leaf (by simp [Node.tag]) rfl

theorem straight_wordNode (g : Grammar) (w : String) : Straight (g.wordNode w) := by
  unfold Grammar.wordNode
  split
  · exact straight_literal _ w
  · split
    · exact straight_leaf (by simp [Node.tag]) rfl
    · exact straight_plain w

/-- A regular name is straight, also one that is joined from two. -/
theorem straight_of_name? {g : Grammar} {w : String} (hn : n.Regular g) (hw : n.name? = some w) :
    Straight n := by
  cases n with
  | identifier name object property =>
    refine straight_iff.mpr ⟨by simp [Node.tag], ?_⟩
    obtain ⟨⟨⟨rfl, rfl⟩ | ⟨base, raw, suffix, rfl, rfl, -⟩, -⟩, -⟩ := regular_iff.mp hn
    · simp [Node.children]
    · simp [Node.children, straight_plain]
  | _ => cases hw

theorem Straight.not_branching (h : Straight n) : ¬ Branching n := by
  rintro ⟨m, hm, htag⟩
  exact (h m hm).1 htag

theorem Marks.refl (ns : List Node) (b : Bool) : Marks ns ns b b :=
  ⟨id, fun n hn hbranching => .inl ⟨n, hn, hbranching⟩, fun h => ⟨h, rfl⟩⟩

theorem Marks.trans (h : Marks old mid b b') (h' : Marks mid new b' b'') :
    Marks old new b b'' := by
  refine ⟨fun hb => h'.unset (h.unset hb), fun n hn hbranching => ?_, fun hstraight => ?_⟩
  · rcases h'.lost n hn hbranching with ⟨m, hm, hm'⟩ | hlost
    · exact (h.lost m hm hm').imp_right h'.unset
    · exact .inr hlost
  · obtain ⟨hmid, hkept'⟩ := h'.kept hstraight
    obtain ⟨hold, hkept⟩ := h.kept hmid
    exact ⟨hold, hkept'.trans hkept⟩

/-- Two pieces that are read one after the other. -/
theorem Marks.append (h : Marks old new b b') (h' : Marks old' new' b' b'') :
    Marks (old ++ old') (new ++ new') b b'' := by
  refine ⟨fun hb => h'.unset (h.unset hb), fun n hn hbranching => ?_, fun hstraight => ?_⟩
  · rcases List.mem_append.mp hn with hn | hn
    · rcases h.lost n hn hbranching with ⟨m, hm, hm'⟩ | hlost
      · exact .inl ⟨m, List.mem_append_left _ hm, hm'⟩
      · exact .inr (h'.unset hlost)
    · rcases h'.lost n hn hbranching with ⟨m, hm, hm'⟩ | hlost
      · exact .inl ⟨m, List.mem_append_right _ hm, hm'⟩
      · exact .inr hlost
  · rw [List.forall_mem_append] at hstraight ⊢
    obtain ⟨hold, hkept⟩ := h.kept hstraight.1
    obtain ⟨hold', hkept'⟩ := h'.kept hstraight.2
    exact ⟨⟨hold, hold'⟩, hkept'.trans hkept⟩

/-- A tree that is built from others, and is neither a conditional nor named arguments. -/
theorem marks_node (hchildren : ∀ m, m ∈ old ↔ m ∈ n.children)
    (htag : n.tag ≠ .conditional ∧ n.tag ≠ .keyValues) (b : Bool) : Marks old [n] b b := by
  refine ⟨id, fun m hm hbranching => ?_, fun hstraight => ?_⟩
  · obtain rfl := List.mem_singleton.mp hm
    obtain ⟨c, hc, hc'⟩ := (branching_iff.mp hbranching).resolve_left htag.1
    exact .inl ⟨c, (hchildren c).mpr hc, hc'⟩
  · obtain ⟨-, hbelow⟩ := straight_iff.mp (hstraight n List.mem_cons_self)
    exact ⟨fun m hm => hbelow m ((hchildren m).mp hm), rfl⟩

/-- A tree that is read without touching the mark. -/
theorem marks_straight (hn : Straight n) (b : Bool) : Marks [] [n] b b := by
  refine ⟨id, fun m hm hbranching => ?_, fun _ => ⟨List.forall_mem_nil _, rfl⟩⟩
  obtain rfl := List.mem_singleton.mp hm
  exact absurd hbranching hn.not_branching

/-- Reading a straight tree has not touched the mark. -/
theorem Marks.eq_of_straight (h : Marks [] [n] b b') (hn : Straight n) : b' = b :=
  (h.kept (by simpa using hn)).2

/-- A conditional, whatever its parts did to the mark. -/
theorem marks_conditional (test consequent alternate : Node) (b : Bool) :
    Marks [] [.conditional test consequent alternate] b false := by
  refine ⟨fun _ => rfl, fun _ _ _ => .inr rfl, fun hstraight => ?_⟩
  have hnode := hstraight _ List.mem_cons_self
  exact absurd rfl (straight_iff.mp hnode).1.1

/-- Named arguments, with a look behind them that may have lost the mark. -/
theorem marks_keyValues {keys : List (String × Entry Node)} (hb : b = false → b' = false)
    (hkeys : ∀ k ∈ keys, ∀ v ∈ k.2.values,
      Branching v → (∃ m ∈ old, Branching m) ∨ b' = false) :
    Marks old [.keyValues keys] b b' := by
  refine ⟨hb, fun n hn hbranching => ?_, fun hstraight => ?_⟩
  · obtain rfl := List.mem_singleton.mp hn
    obtain ⟨v, hv, hv'⟩ := (branching_iff.mp hbranching).resolve_left (by simp [Node.tag])
    obtain ⟨k, hk, hvalue⟩ := List.mem_flatMap.mp hv
    exact hkeys k hk v hvalue hv'
  · exact absurd (hstraight _ List.mem_cons_self) (not_straight_keyValues keys)

/-- One more named argument. -/
theorem marks_addValue {keys : Keyed (Entry Node)} (key : String) (value : Node) (b : Bool) :
    Marks [.keyValues keys, value] [.keyValues (addValue keys key value)] b b := by
  refine marks_keyValues id fun k hk v hv hbranching => ?_
  rcases mem_values_addValue hk hv with rfl | ⟨k', hk', hv'⟩
  · exact .inl ⟨v, by simp, hbranching⟩
  · have hchild : v ∈ (Node.keyValues keys).children := List.mem_flatMap.mpr ⟨k', hk', hv'⟩
    exact .inl ⟨_, List.mem_cons_self, branching_iff.mpr (.inr ⟨v, hchild, hbranching⟩)⟩

/-- The operands of a stack, as they are combined. -/
theorem marks_carried (ops : List Node) (b : Bool) :
    OperatorStack.Carried fun s => Marks ops s.operands b b := by
  intro right left operands operator precedence operators h
  have hcombined : Marks [right, left] [.ofOperator operator left right] b b := by
    unfold Node.ofOperator
    split <;> exact marks_node (by simp [Node.children, or_comm]) (by simp [Node.tag]) b
  exact h.trans (hcombined.append (.refl operands b))

end

/-- What a rule makes of what it was handed, and of the mark. -/
def Leaves : (r : Rule) → State → r.Answer → State → Prop
  | .expression, s, a, t => Marks [] a.toList s.inBranch t.inBranch
  | .operand, s, a, t => Marks [] a.toList s.inBranch t.inBranch
  | .primary, s, a, t =>
    match a with
    | .node n => Marks [] [n] s.inBranch t.inBranch
    | .pair _ value => Marks [] [value] s.inBranch t.inBranch
  | .links head, s, a, t => Marks [head] [a] s.inBranch t.inBranch
  | .items _, s, a, t => Marks [] a s.inBranch t.inBranch
  | .chain stack, s, a, t =>
    stack.Whole → ∃ n, a = some n ∧ Marks stack.operands [n] s.inBranch t.inBranch
  | .pairs keys, s, a, t => Marks [.keyValues keys] [.keyValues a] s.inBranch t.inBranch
  | .statements, s, a, t => Marks [] a s.inBranch t.inBranch

section

variable {g : Grammar} {rules : Rules} {s t u : State}

theorem inBranch_of_name {l : Letters} {w : String} (h : name l s = .done w t) :
    t.inBranch = s.inBranch := by
  obtain ⟨-, -, -, -, rfl⟩ := name_cases h
  rfl

theorem inBranch_of_quotation {p : String × String} (h : quotation s = .done p t) :
    t.inBranch = s.inBranch := by
  cases (quotation_ends s).of_done h with
  | closed => rfl

theorem inBranch_of_binaryOperator {o : Option (String × Int)}
    (h : binaryOperator g s = .done o t) : t.inBranch = s.inBranch := by
  cases (binaryOperator_ends g s).of_done h <;> rfl

/-- What a straight tree is read from does not touch the mark. -/
theorem marks_of_eq {n : Node} (hn : Straight n) (h : t.inBranch = s.inBranch) :
    Marks [] [n] s.inBranch t.inBranch := by
  rw [h]
  exact marks_straight hn _

theorem marks_numeral {l : Letters} {n : Node} (h : numeral l s = .done n t) :
    Marks [] [n] s.inBranch t.inBranch := by
  cases (numeral_ends l s).of_done h with
  | number => exact marks_straight (straight_literal _ _) _
  | name hn hall hname =>
    have hkept := inBranch_of_name hname
    exact marks_of_eq (straight_plain _) hkept

theorem straight_joined (name base suffix : String) :
    Straight (.identifier name (some (.plain base)) (some (.plain suffix))) := by
  refine straight_iff.mpr ⟨by simp [Node.tag], ?_⟩
  simp [Node.children, straight_plain]

theorem marks_joinableText {l : Letters} {n : Node} (h : joinableText l s = .done n t) :
    Marks [] [n] s.inBranch t.inBranch := by
  cases (joinableText_ends l s).of_done h with
  | alone htext => exact marks_of_eq (straight_literal _ _) (inBranch_of_quotation htext)
  | joined htext hfollows hname =>
    have htext := inBranch_of_quotation htext
    have hname := inBranch_of_name hname
    exact marks_of_eq (straight_joined _ _ _) (hname.trans htext)

theorem leaves_head (h : Holds Leaves rules) {x : Term} (hx : HeadBy g rules s x t) :
    Leaves .primary s x t := by
  cases hx with
  | word hparen hname => exact marks_of_eq (straight_wordNode g _) (inBranch_of_name hname)
  | pair hparen hname hequals hvalue =>
    rw [Leaves, ← inBranch_of_name hname]
    exact h hvalue
  | group hopen hinside =>
    have hmarks := h hinside
    exact hmarks

theorem leaves_primary (h : Holds Leaves rules) {x : Term} (hx : PrimaryBy g rules s x t) :
    Leaves .primary s x t := by
  cases hx with
  | pair hhead => exact leaves_head h hhead
  | linked hhead hlinks => exact Marks.trans (leaves_head h hhead) (h hlinks)

theorem marks_link (h : Holds Leaves rules) {head n : Node} (hn : LinkBy g rules head s n t) :
    Marks [head] [n] s.inBranch t.inBranch := by
  -- what is read inside of the link, and the node that is built of it and the head
  have hlink : ∀ {ns : List Node} {b : Bool}, Marks [] ns s.inBranch b →
      n.children = head :: ns → n.tag ≠ .conditional ∧ n.tag ≠ .keyValues →
        Marks [head] [n] s.inBranch b := by
    intro ns b hns hchildren htag
    refine ((Marks.refl [head] s.inBranch).append hns).trans (marks_node ?_ htag b)
    simp [hchildren]
  cases hn with
  | property hpoint hname =>
    have hkept := inBranch_of_name hname
    exact hlink (marks_of_eq (straight_plain _) hkept) rfl (by simp [Node.tag])
  | subscript hopen hinside =>
    have hmarks := h hinside
    exact hlink hmarks rfl (by simp [Node.tag])
  | call hopen hitems =>
    have hmarks := h hitems
    exact hlink hmarks rfl (by simp [Node.tag])

theorem leaves_links (h : Holds Leaves rules) {head n : Node} (hn : LinksBy g rules head s n t) :
    Marks [head] [n] s.inBranch t.inBranch := by
  cases hn with
  | last => exact .refl [head] _
  | next hlink hlinks => exact (marks_link h hlink).trans (h hlinks)

theorem leaves_items (h : Holds Leaves rules) {b : Bracket} {ns : List Node}
    (hns : ItemsBy rules b s ns t) : Marks [] ns s.inBranch t.inBranch := by
  cases hns with
  | close => exact .refl [] _
  | comma hcomma hitems => exact h hitems
  | item hpeek hc hitem hn hitems => exact Marks.append (h hitem) (h hitems)

/-- The mark may be lost in a look at a name that is no named argument. -/
theorem leaves_pairs (h : Holds Leaves rules) {keys found : Keyed (Entry Node)}
    (hfound : PairsBy g rules keys s found t) :
    Marks [.keyValues keys] [.keyValues found] s.inBranch t.inBranch := by
  cases hfound with
  | nothing => exact .refl _ _
  | other hpeek hprimary =>
    have hlook : Marks [] [_] s.inBranch _ := h hprimary
    exact marks_keyValues hlook.unset fun k hk v hv hbranching =>
      .inl ⟨_, List.mem_cons_self, branching_iff.mpr
        (.inr ⟨v, List.mem_flatMap.mpr ⟨k, hk, hv⟩, hbranching⟩)⟩
  | pair hpeek hprimary hpairs =>
    have hvalue : Marks _ [_, _] s.inBranch _ :=
      (Marks.refl [.keyValues keys] _).append (h hprimary)
    exact (hvalue.trans (marks_addValue _ _ _)).trans (h hpairs)

/-- A regular name is straight, so joining it with another one starts from the mark as it was. -/
theorem leaves_term (h : Holds Leaves rules) (hg : Holds (Yields g) rules) {x : Term}
    (hx : TermBy g rules s x t) : Leaves .primary s x t := by
  cases hx with
  | again hnumeral hprimary => exact h hprimary
  | pair hprimary => exact h hprimary
  | node hprimary hjoin =>
    cases (joinName_ends _ _ _).of_done hjoin with
    | alone => exact h hprimary
    | joined hfollows hname =>
      have hkept := (show Marks [] [_] s.inBranch _ from h hprimary).eq_of_straight
        (straight_of_name? (hg hprimary) rfl)
      have hname := inBranch_of_name hname
      exact marks_of_eq (straight_joined _ _ _) (hname.trans hkept)

/-- What a term has done to the mark, the operand that is made of it has done too. -/
theorem marks_ofTerm (h : Holds Leaves rules) {x : Term} {n : Node} (hx : Leaves .primary s x t)
    (hregular : Yields g .primary s x t) (hn : OfTermBy g rules t x n u) :
    Marks [] [n] s.inBranch u.inBranch := by
  cases hn with
  | @pairs key value keys _ hpairs =>
    have hfirst : Marks [value] [.keyValues (addValue [] key value)] t.inBranch t.inBranch := by
      refine marks_keyValues id fun k hk v hv hbranching => .inl ?_
      rcases mem_values_addValue hk hv with rfl | ⟨k', hk', -⟩
      · exact ⟨v, List.mem_cons_self, hbranching⟩
      · cases hk'
    exact (Marks.trans hx hfirst).trans (h hpairs)
  | operator hw hargument =>
    rw [← hx.eq_of_straight (straight_of_name? hregular rfl)]
    have hoperand : Marks [] [_] t.inBranch u.inBranch := h hargument
    exact hoperand.trans (marks_node (by simp [Node.children]) (by simp [Node.tag]) _)
  | number =>
    rw [← hx.eq_of_straight (straight_of_name? hregular rfl)]
    exact marks_straight (straight_literal _ _) _
  | whole => exact hx

theorem leaves_operand (h : Holds Leaves rules) (hg : Holds (Yields g) rules) {a : Option Node}
    (ha : OperandBy g rules { s with cursor := s.cursor.skipBlanks } a t) :
    Marks [] a.toList s.inBranch t.inBranch := by
  have hterm : ∀ x v n, TermBy g rules { s with cursor := s.cursor.skipBlanks } x v →
      OfTermBy g rules v x n t → Marks [] [n] s.inBranch t.inBranch := by
    intro x v n hx hn
    have hmarks := marks_ofTerm h (leaves_term h hg hx) (yields_term hg hx) hn
    exact hmarks
  have hnode : ∀ {ns : List Node} {n : Node}, Marks [] ns s.inBranch t.inBranch →
      n.children = ns → n.tag ≠ .conditional ∧ n.tag ≠ .keyValues →
        Marks [] [n] s.inBranch t.inBranch :=
    fun hns hchildren htag => hns.trans (marks_node (by simp [hchildren]) htag _)
  cases ha with
  | nothing => exact .refl [] _
  | numeral hpeek hc hnumeral =>
    rcases (numeralOperand_ends hpeek).of_done hnumeral with hnumeral | ⟨x, u, hx, hn⟩
    · have hmarks := marks_numeral hnumeral
      exact hmarks
    · exact hterm x u _ hx hn
  | joinable hpeek htext =>
    have hmarks := marks_joinableText htext
    exact hmarks
  | text hpeek htext =>
    have hkept := inBranch_of_quotation htext
    exact marks_of_eq (straight_literal _ _) hkept
  | primary hpeek hc hprimary =>
    obtain ⟨x, u, hx, hn⟩ := (primaryOperand_ends hpeek hc).of_done hprimary
    exact hterm x u _ hx hn
  | array hopen hitems =>
    have hmarks := h hitems
    exact hnode hmarks rfl (by simp [Node.tag])
  | operator hpeek hc hoperator =>
    cases (leadingOperator_ends s).of_done hoperator with
    | nothing => exact .refl [] _
    | operator hop hargument =>
      have hmarks := h hargument
      exact hnode hmarks rfl (by simp [Node.tag])

theorem finish_marks {stack : OperatorStack} {ops : List Node} {b b' : Bool}
    (hwhole : stack.Whole) (h : Marks ops stack.operands b b') :
    ∃ n, stack.finish = some n ∧ Marks ops [n] b b' := by
  obtain ⟨n, hn, hlast⟩ := (marks_carried stack.operands b').finish hwhole (.refl _ _)
  exact ⟨n, hn, h.trans hlast⟩

theorem leaves_chain (h : Holds Leaves rules) {stack : OperatorStack} {a : Option Node}
    (ha : ChainBy g rules stack s a t) : Leaves (.chain stack) s a t := by
  intro hwhole
  cases ha with
  | finish hoperator =>
    rw [inBranch_of_binaryOperator hoperator]
    exact finish_marks hwhole (.refl _ _)
  | @operand operator precedence right _ _ _ _ hoperator hpositive hright hchain =>
    obtain ⟨hreduced, hmarks⟩ :=
      (marks_carried stack.operands s.inBranch).reduceFor hwhole (.refl _ _) precedence
    obtain ⟨n, rfl, hn⟩ := h hchain (OperatorStack.whole_push hreduced operator precedence right)
    have hoperand : Marks [] [right] _ _ := h hright
    rw [inBranch_of_binaryOperator hoperator] at hoperand
    exact ⟨n, rfl, (hmarks.trans (hoperand.append (.refl _ _))).trans hn⟩

/-- A name that is cut is straight before and after, so it has not touched the mark. -/
theorem marks_splitGlued {start : Cursor} {left n : Node} {b : Bool}
    (hleft : Marks [] [left] b s.inBranch) (hregular : left.Regular g)
    (hn : splitGlued rules start left s = .done n t) : Marks [] [n] b t.inBranch := by
  rcases splitGlued_cases hn with ⟨rfl, rfl⟩ | ⟨test, htest, rfl, rfl⟩
  · exact hleft
  · have hname : ∃ w, left.name? = some w := by
      refine Option.ne_none_iff_exists'.mp fun hnone => ?_
      rw [hnone] at htest
      cases htest
    obtain ⟨w, hw⟩ := hname
    rw [hleft.eq_of_straight (straight_of_name? hregular hw)]
    exact marks_straight (straight_plain _) b

theorem leaves_binary (h : Holds Leaves rules) (hg : Holds (Yields g) rules) {a : Option Node}
    (ha : Parse.binary g rules s = .done a t) : Marks [] a.toList s.inBranch t.inBranch := by
  cases binary_cases ha with
  | nothing hleft => exact h hleft
  | alone hleft hoperator hsplit =>
    have hmarks : Marks [] [_] s.inBranch _ := h hleft
    rw [← inBranch_of_binaryOperator hoperator] at hmarks
    exact marks_splitGlued hmarks ((hg hleft).1 _ rfl) hsplit
  | word hleft hw hoperator hinside hrest =>
    have hmarks : Marks [] [_] s.inBranch _ := h hleft
    have hkept := hmarks.eq_of_straight (straight_of_name? ((hg hleft).1 _ rfl) hw)
    exact marks_of_eq (straight_plain _)
      ((inBranch_of_name hrest).trans ((inBranch_of_binaryOperator hoperator).trans hkept))
  | @operators left right _ operator precedence _ _ _ _ hleft hoperator hinside hright hchain =>
    have hmarks : Marks [] [left] s.inBranch _ := h hleft
    have hoperand : Marks [] [right] _ _ := h hright
    rw [← inBranch_of_binaryOperator hoperator] at hmarks
    obtain ⟨n, rfl, hn⟩ := h hchain (OperatorStack.whole_start left operator precedence right)
    exact (hmarks.trans (hoperand.append (.refl [left] _))).trans hn

/-- A conditional takes the mark back, whatever it was before. -/
theorem leaves_expression (h : Holds Leaves rules) (hg : Holds (Yields g) rules) {a : Option Node}
    (ha : ExpressionBy g rules s a t) : Marks [] a.toList s.inBranch t.inBranch := by
  cases ha with
  | nothing hbinary => exact leaves_binary h hg hbinary
  | alone hbinary =>
    have hmarks := leaves_binary h hg hbinary
    exact hmarks
  | conditional => exact marks_conditional _ _ _ _

theorem leaves_statements (h : Holds Leaves rules) {ns : List Node}
    (hns : StatementsBy rules s ns t) : Marks [] ns s.inBranch t.inBranch := by
  cases hns with
  | nothing => exact .refl [] _
  | separator hpeek hc hrest => exact h hrest
  | blanks hpeek hc hexpression => exact h hexpression
  | expression hpeek hc hexpression hrest => exact Marks.append (h hexpression) (h hrest)

end

theorem leaves_run (g : Grammar) (rounds : Nat) : Holds Leaves (run g rounds) := by
  refine holds_run (fun n h r s a t ha => ?_) rounds
  have hg := yields_run g n
  cases r with
  | expression => exact leaves_expression h hg ha
  | operand => exact leaves_operand h hg ha
  | primary => exact leaves_primary h ha
  | links head => exact leaves_links h ha
  | items b =>
    have hmarks := leaves_items h ha
    exact hmarks
  | chain stack => exact leaves_chain h ha
  | pairs keys =>
    rw [Leaves, ← inBranch_afterComma s]
    exact leaves_pairs h ha
  | statements => exact leaves_statements h ha

/-- What is read outside of all branches ends outside of them. -/
theorem unset_of_expression {g : Grammar} {rounds : Nat} {s t : State} {a : Option Node}
    (h : run g rounds .expression s = .done a t) (hs : s.inBranch = false) :
    t.inBranch = false :=
  Marks.unset (leaves_run g rounds h) hs

theorem unset_of_primary {g : Grammar} {rounds : Nat} {s t : State} {x : Term}
    (h : run g rounds .primary s = .done x t) (hs : s.inBranch = false) : t.inBranch = false := by
  have hmarks := leaves_run g rounds h
  cases x with
  | node n => exact hmarks.unset hs
  | pair w value => exact hmarks.unset hs

/-- The mark that a branch is being read, after an expression: outside of branches it is not set;
with a conditional in the expression it is taken back, also in a branch; and an expression without
conditionals and named arguments leaves it as it found it. -/
theorem mark_after_expression (g : Grammar) (rounds : Nat) (s t : State) (a : Option Node)
    (h : run g rounds .expression s = .done a t) :
    (s.inBranch = false → t.inBranch = false) ∧
    (∀ n ∈ a, (∃ m ∈ n.parts, m.tag = .conditional) → t.inBranch = false) ∧
    ((∀ n ∈ a, ∀ m ∈ n.parts, m.tag ≠ .conditional ∧ m.tag ≠ .keyValues) →
      t.inBranch = s.inBranch) := by
  have hmarks : Marks [] a.toList s.inBranch t.inBranch := leaves_run g rounds h
  refine ⟨hmarks.unset, fun n hn hbranching => ?_, fun hstraight => ?_⟩
  · exact (hmarks.lost n (by simpa using hn) hbranching).resolve_left (by simp)
  · exact (hmarks.kept (by simpa [Straight] using hstraight)).2

/-- In a branch, with the colon as a character of names: the conditional in the parentheses takes
the mark back, and the numeral after it runs on over the colon of the outer conditional. -/
theorem mark_after_inner_conditional :
    let g := Grammar.standard.addLetters ":"
    let s : State := ⟨⟨"? a".toList, " (b ? c : d) + 1 :e".toList⟩, true⟩
    (∃ n t, run g 30 .expression s = .done (some n) t ∧ t.inBranch = false) ∧
      g.parse "a ? (b ? c : d) + 1:e" = .error (.error ⟨.noColon, 21⟩) := by
  intro g s
  let inner : Node := .conditional (.plain "b") (.plain "c") (.plain "d")
  let n : Node := .binary "+" inner (.literal (.number (.ofInt 1)) "1")
  let t : State := ⟨⟨" 1 + )d : c ? b( ? a".toList, ":e".toList⟩, false⟩
  have hrun : run g 30 .expression s = .done (some n) t := by decide +kernel
  have hinner : inner ∈ n.parts := by
    rw [n.parts_eq]
    exact List.mem_cons_of_mem n (List.mem_flatMap_of_mem List.mem_cons_self inner.self_mem_parts)
  have hlost := (mark_after_expression g 30 s t (some n) hrun).2.1 n rfl ⟨inner, hinner, rfl⟩
  exact ⟨⟨n, t, hrun, hlost⟩, by decide +kernel⟩

end ExprTree.BranchMark
