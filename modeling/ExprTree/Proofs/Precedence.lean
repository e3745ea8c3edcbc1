import ExprTree.Proofs.Stacks

/-!
What a sequence of operands and operators means, and that the stack computes it. The tree of a
sequence is split at the last operator of minimal precedence; the two sides are sequences again.
A stack stands for a sequence cut into segments, one for each operand on it: a segment begins with
an operator on the stack, and all operators inside it bind tighter. `foldl_feed` keeps that over
any number of operators, and `finish_foldl_feed` reads the tree off at the end.
-/

namespace ExprTree.Precedence

/-- An operator with its precedence and the operand after it. -/
structure Item where
  operator : String
  precedence : Int
  operand : Node

/-- The last item of minimal precedence, with the items before and after it. -/
def splitLoosest : List Item → Option (List Item × Item × List Item)
  | [] => none
  | i :: rest =>
    match splitLoosest rest with
    | none => some ([], i, [])
    | some (before, m, after) =>
      if i.precedence < m.precedence then some ([], i, rest) else some (i :: before, m, after)

theorem splitLoosest_eq_none {items : List Item} : splitLoosest items = none ↔ items = [] := by
  cases items with
  | nil => simp [splitLoosest]
  | cons i rest =>
    simp only [splitLoosest]
    split
    · simp
    · split <;> simp

theorem splitLoosest_spec {items before after : List Item} {m : Item}
    (h : splitLoosest items = some (before, m, after)) :
    items = before ++ m :: after ∧ (∀ i ∈ before, m.precedence ≤ i.precedence) ∧
      ∀ i ∈ after, m.precedence < i.precedence := by
  induction items generalizing before m after with
  | nil => simp [splitLoosest] at h
  | cons i rest ih =>
    simp only [splitLoosest] at h
    split at h
    · rename_i hrest
      obtain ⟨rfl, rfl, rfl⟩ : [] = before ∧ i = m ∧ [] = after := by simpa using h
      simp [splitLoosest_eq_none.mp hrest]
    · rename_i before' m' after' hrest
      obtain ⟨hsplit, hbefore, hafter⟩ := ih hrest
      split at h
      · rename_i hlt
        obtain ⟨rfl, rfl, rfl⟩ : [] = before ∧ i = m ∧ rest = after := by simpa using h
        refine ⟨rfl, by simp, ?_⟩
        intro j hj
        rw [hsplit, List.mem_append, List.mem_cons] at hj
        rcases hj with hj | rfl | hj
        · exact Int.lt_of_lt_of_le hlt (hbefore j hj)
        · exact hlt
        · exact Int.lt_trans hlt (hafter j hj)
      · rename_i hge
        obtain ⟨rfl, rfl, rfl⟩ : i :: before' = before ∧ m' = m ∧ after' = after := by
          simpa using h
        refine ⟨by simp [hsplit], ?_, hafter⟩
        intro j hj
        rcases List.mem_cons.mp hj with rfl | hj
        · exact Int.not_lt.mp hge
        · exact hbefore j hj

/-- Nothing but the last item of minimal precedence splits a sequence as `splitLoosest` does. -/
theorem splitLoosest_append {before after : List Item} {m : Item}
    (hbefore : ∀ i ∈ before, m.precedence ≤ i.precedence)
    (hafter : ∀ i ∈ after, m.precedence < i.precedence) :
    splitLoosest (before ++ m :: after) = some (before, m, after) := by
  induction before with
  | nil =>
    cases hrest : splitLoosest after with
    | none =>
      have hnil := splitLoosest_eq_none.mp hrest
      subst hnil
      simp [splitLoosest]
    | some found =>
      obtain ⟨before', m', after'⟩ := found
      have hm' : m' ∈ after := by
        rw [(splitLoosest_spec hrest).1]
        simp
      simp [splitLoosest, hrest, hafter m' hm']
  | cons i before ih =>
    have hi : ¬ i.precedence < m.precedence := Int.not_lt.mpr (hbefore i (by simp))
    have hrest := ih fun j hj => hbefore j (List.mem_cons_of_mem i hj)
    simp [splitLoosest, hrest, hi]

/-- The tree of a sequence: an operand alone, or the node of the last operator of minimal
precedence over the trees of the two sides. -/
def tree (first : Node) (items : List Item) : Node :=
  match _h : splitLoosest items with
  | none => first
  | some (before, m, after) =>
    .ofOperator m.operator (tree first before) (tree m.operand after)
termination_by items.length
decreasing_by
  all_goals
    have hlength := congrArg List.length (splitLoosest_spec _h).1
    simp only [List.length_append, List.length_cons] at hlength
    omega

@[simp] theorem tree_nil (first : Node) : tree first [] = first := by
  rw [tree]
  simp [splitLoosest]

theorem tree_append {first : Node} {before after : List Item} {m : Item}
    (hbefore : ∀ i ∈ before, m.precedence ≤ i.precedence)
    (hafter : ∀ i ∈ after, m.precedence < i.precedence) :
    tree first (before ++ m :: after) =
      .ofOperator m.operator (tree first before) (tree m.operand after) := by
  have hsplit := splitLoosest_append hbefore hafter
  rw [tree]
  split
  · rename_i hnone
    rw [hsplit] at hnone
    cases hnone
  · rename_i before' m' after' hsome
    rw [hsplit] at hsome
    obtain ⟨rfl, rfl, rfl⟩ : before = before' ∧ m = m' ∧ after = after' := by simpa using hsome
    rfl

/-- With an operator in it, a sequence is an operator's node. -/
theorem tree_cons (first : Node) (i : Item) (items : List Item) :
    ∃ operator left right, tree first (i :: items) = .ofOperator operator left right := by
  rw [tree]
  split
  · rename_i hnone
    exact absurd (splitLoosest_eq_none.mp hnone) (List.cons_ne_nil i items)
  · exact ⟨_, _, _, rfl⟩

/-- An operator on the stack, and the items that are combined into the operand after it. -/
structure Segment where
  head : Item
  inner : List Item

namespace Segment

def items (s : Segment) : List Item :=
  s.head :: s.inner

def operand (s : Segment) : Node :=
  tree s.head.operand s.inner

end Segment

/-- The stack of a sequence cut into segments, the last one first. The items of `base` are
combined into the first operand. -/
def stackOf (first : Node) (base : List Item) (segments : List Segment) : OperatorStack :=
  ⟨segments.map Segment.operand ++ [tree first base],
    segments.map fun s => (s.head.operator, s.head.precedence)⟩

/-- The whole sequence of the segments. -/
def flatten (base : List Item) : List Segment → List Item
  | [] => base
  | s :: below => flatten base below ++ s.items

/-- The items that are combined into the last operand. -/
def lastInner (base : List Item) : List Segment → List Item
  | [] => base
  | s :: _ => s.inner

/-- The operator of a segment is looser than those inside it, tighter than the operators before it
on the stack, and at most as tight as those inside the segment before it. -/
def Grouped (base : List Item) : List Segment → Prop
  | [] => True
  | s :: below =>
    (∀ i ∈ s.inner, s.head.precedence < i.precedence) ∧
    (∀ i ∈ lastInner base below, s.head.precedence ≤ i.precedence) ∧
    (∀ b ∈ below, b.head.precedence < s.head.precedence) ∧
    Grouped base below

/-- The base after the last segment is combined into the operand before it. -/
def mergeBase (base : List Item) (s : Segment) : List Segment → List Item
  | [] => base ++ s.items
  | _ :: _ => base

/-- The segments after the last one is combined into the operand before it. -/
def mergeSegments (s : Segment) : List Segment → List Segment
  | [] => []
  | b :: below => ⟨b.head, b.inner ++ s.items⟩ :: below

theorem flatten_merge (base : List Item) (s : Segment) (below : List Segment) :
    flatten (mergeBase base s below) (mergeSegments s below) = flatten base (s :: below) := by
  cases below with
  | nil => rfl
  | cons b below => simp [flatten, mergeBase, mergeSegments, Segment.items]

theorem lastInner_merge (base : List Item) (s : Segment) (below : List Segment) :
    lastInner (mergeBase base s below) (mergeSegments s below) =
      lastInner base below ++ s.items := by
  cases below <;> rfl

theorem length_merge (s : Segment) (below : List Segment) :
    (mergeSegments s below).length = below.length := by
  cases below <;> rfl

theorem grouped_merge {base : List Item} {s : Segment} {below : List Segment}
    (h : Grouped base (s :: below)) :
    Grouped (mergeBase base s below) (mergeSegments s below) := by
  cases below with
  | nil => trivial
  | cons b below =>
    obtain ⟨hinner, hlast, hbelow, hb⟩ := h
    obtain ⟨hbinner, hblast, hbbelow, hrest⟩ := hb
    refine ⟨?_, hblast, hbbelow, hrest⟩
    have hlt : b.head.precedence < s.head.precedence := hbelow b (by simp)
    intro i hi
    change i ∈ b.inner ++ s.head :: s.inner at hi
    rw [List.mem_append, List.mem_cons] at hi
    rcases hi with hi | rfl | hi
    · exact hbinner i hi
    · exact hlt
    · exact Int.lt_trans hlt (hinner i hi)

/-- A step of the stack combines its last two segments. -/
theorem reduce_stackOf {first : Node} {base : List Item} {s : Segment} {below : List Segment}
    (h : Grouped base (s :: below)) :
    (stackOf first base (s :: below)).reduce =
      stackOf first (mergeBase base s below) (mergeSegments s below) := by
  obtain ⟨hinner, hlast, -, -⟩ := h
  cases below with
  | nil =>
    have htree : tree first (base ++ s.items) =
        .ofOperator s.head.operator (tree first base) s.operand := tree_append hlast hinner
    simp [stackOf, OperatorStack.reduce, mergeBase, mergeSegments, htree]
  | cons b below =>
    have htree : tree b.head.operand (b.inner ++ s.items) =
        .ofOperator s.head.operator b.operand s.operand := tree_append hlast hinner
    simp [stackOf, OperatorStack.reduce, mergeBase, mergeSegments, Segment.operand, htree]

@[simp] theorem operators_reduce (s : OperatorStack) : s.reduce.operators = s.operators.tail := by
  obtain ⟨operands, operators⟩ := s
  unfold OperatorStack.reduce
  split
  · rename_i heq _
    simp_all
  · simp

/-- The loop of `reduceFor`: a step, and the loop again, as long as the last operator binds at
least as tightly. -/
theorem reduceFor_cons {precedence : Int} {s : OperatorStack} {operator : String} {top : Int}
    {rest : List (String × Int)} (hs : s.operators = (operator, top) :: rest) :
    s.reduceFor precedence = if precedence ≤ top then s.reduce.reduceFor precedence else s := by
  by_cases h : precedence ≤ top
  · simp [OperatorStack.reduceFor, hs, h]
  · simp [OperatorStack.reduceFor, hs, h]

/-- Combining for a precedence leaves only looser operators on the stack, and inside the last
operand only operators that bind at least as tightly. -/
theorem reduceFor_stackOf (first : Node) (precedence : Int) {base : List Item}
    {segments : List Segment} (h : Grouped base segments)
    (hlast : ∀ i ∈ lastInner base segments, precedence ≤ i.precedence) :
    ∃ base' segments', (stackOf first base segments).reduceFor precedence =
        stackOf first base' segments' ∧ Grouped base' segments' ∧
      flatten base' segments' = flatten base segments ∧
      (∀ i ∈ lastInner base' segments', precedence ≤ i.precedence) ∧
      ∀ s ∈ segments', s.head.precedence < precedence := by
  induction hn : segments.length generalizing base segments with
  | zero =>
    obtain rfl := List.length_eq_zero_iff.mp hn
    exact ⟨base, [], rfl, trivial, rfl, hlast, by simp⟩
  | succ n ih =>
    cases segments with
    | nil => simp at hn
    | cons s below =>
      rw [reduceFor_cons (s := stackOf first base (s :: below)) rfl]
      obtain ⟨hinner, hle, hbelow, hrest⟩ := id h
      by_cases hs : precedence ≤ s.head.precedence
      · rw [if_pos hs, reduce_stackOf h]
        have hlength : (mergeSegments s below).length = n := by
          simpa [length_merge] using hn
        have hmerged : ∀ i ∈ lastInner (mergeBase base s below) (mergeSegments s below),
            precedence ≤ i.precedence := by
          intro i hi
          rw [lastInner_merge, List.mem_append] at hi
          rcases hi with hi | hi
          · exact Int.le_trans hs (hle i hi)
          · rcases List.mem_cons.mp hi with rfl | hi
            · exact hs
            · exact Int.le_trans hs (Int.le_of_lt (hinner i hi))
        obtain ⟨base', segments', heq, hgrouped, hflat, hlast', hloose⟩ :=
          ih (grouped_merge h) hmerged hlength
        exact ⟨base', segments', heq, hgrouped, hflat.trans (flatten_merge base s below),
          hlast', hloose⟩
      · rw [if_neg hs]
        refine ⟨base, s :: below, rfl, h, rfl, hlast, ?_⟩
        intro b hb
        rcases List.mem_cons.mp hb with rfl | hb
        · exact Int.not_le.mp hs
        · exact Int.lt_trans (hbelow b hb) (Int.not_le.mp hs)

/-- Combining everything leaves the tree of the whole sequence. -/
theorem finish_stackOf {first : Node} {base : List Item} {segments : List Segment}
    (h : Grouped base segments) :
    (stackOf first base segments).finish = some (tree first (flatten base segments)) := by
  induction hn : segments.length generalizing base segments with
  | zero =>
    obtain rfl := List.length_eq_zero_iff.mp hn
    rfl
  | succ n ih =>
    cases segments with
    | nil => simp at hn
    | cons s below =>
      have hlength : (mergeSegments s below).length = n := by
        simpa [length_merge] using hn
      have hops : (stackOf first base (s :: below)).reduce.operators =
          below.map fun s => (s.head.operator, s.head.precedence) := by
        rw [operators_reduce]
        rfl
      have hstep : (stackOf first base (s :: below)).finish =
          (stackOf first base (s :: below)).reduce.finish := by
        rw [OperatorStack.finish, OperatorStack.finish, hops]
        rfl
      rw [hstep, reduce_stackOf h, ih (grouped_merge h) hlength, flatten_merge]

/-- What one more operator with its operand does to the stack. -/
def feed (s : OperatorStack) (i : Item) : OperatorStack :=
  (s.reduceFor i.precedence).push i.operator i.precedence i.operand

/-- A stack that holds a sequence. Nothing is combined into its last operand yet. -/
def Holds (first : Node) (items : List Item) (s : OperatorStack) : Prop :=
  ∃ base segments, s = stackOf first base segments ∧ Grouped base segments ∧
    flatten base segments = items ∧ lastInner base segments = []

theorem holds_start (first : Node) (i : Item) :
    Holds first [i] (.start first i.operator i.precedence i.operand) :=
  ⟨[], [⟨i, []⟩], by simp [stackOf, OperatorStack.start, Segment.operand],
    by simp [Grouped, lastInner], rfl, rfl⟩

theorem holds_feed {first : Node} {items : List Item} {s : OperatorStack}
    (h : Holds first items s) (i : Item) : Holds first (items ++ [i]) (feed s i) := by
  obtain ⟨base, segments, rfl, hgrouped, rfl, hnil⟩ := h
  obtain ⟨base', segments', heq, hgrouped', hflat, hlast, hloose⟩ :=
    reduceFor_stackOf first i.precedence hgrouped (by simp [hnil])
  refine ⟨base', ⟨i, []⟩ :: segments', ?_, ⟨by simp, hlast, hloose, hgrouped'⟩, ?_, rfl⟩
  · rw [feed, heq]
    simp [stackOf, OperatorStack.push, Segment.operand]
  · simp [flatten, hflat, Segment.items]

theorem holds_foldl_feed {first : Node} {items : List Item} {s : OperatorStack}
    (h : Holds first items s) (more : List Item) :
    Holds first (items ++ more) (more.foldl feed s) := by
  induction more generalizing items s with
  | nil => simpa using h
  | cons i more ih => simpa using ih (holds_feed h i)

/-- The stack gives the tree of all it was fed. -/
theorem finish_foldl_feed (first : Node) (i : Item) (items : List Item) :
    (items.foldl feed (.start first i.operator i.precedence i.operand)).finish =
      some (tree first (i :: items)) := by
  obtain ⟨base, segments, heq, hgrouped, hflat, -⟩ :=
    holds_foldl_feed (holds_start first i) items
  rw [heq, finish_stackOf hgrouped, hflat]
  rfl

/-- The precedences increase from the first operator to the last. -/
def Increasing (s : OperatorStack) : Prop :=
  s.operators.Pairwise fun above below => below.2 < above.2

theorem whole_stackOf (first : Node) (base : List Item) (segments : List Segment) :
    (stackOf first base segments).Whole := by
  simp [OperatorStack.Whole, stackOf]

theorem increasing_stackOf {first : Node} {base : List Item} {segments : List Segment}
    (h : Grouped base segments) : Increasing (stackOf first base segments) := by
  induction segments with
  | nil => exact List.Pairwise.nil
  | cons s below ih =>
    obtain ⟨-, -, hbelow, hrest⟩ := h
    refine List.Pairwise.cons ?_ (ih hrest)
    intro b hb
    obtain ⟨b', hb', rfl⟩ := List.mem_map.mp hb
    exact hbelow b' hb'

theorem Holds.whole {first : Node} {items : List Item} {s : OperatorStack}
    (h : Holds first items s) : s.Whole := by
  obtain ⟨base, segments, rfl, -⟩ := h
  exact whole_stackOf first base segments

theorem Holds.increasing {first : Node} {items : List Item} {s : OperatorStack}
    (h : Holds first items s) : Increasing s := by
  obtain ⟨base, segments, rfl, hgrouped, -⟩ := h
  exact increasing_stackOf hgrouped

end ExprTree.Precedence
