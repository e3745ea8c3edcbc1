import ExprTree.Proofs.Atoms

/-!
Conditionals of names and whole numbers with no blank in front of the `?`. Where `?` is no character
of names, each test is read as what it stands for. Where it is one, a test and its consequent are
read as one name, which is cut again; what is left of it is a plain name, whatever the test stands
for alone. So both readings of a chain of such conditionals are the same exactly if all tests are
names that are no keywords.
-/

namespace ExprTree.Glued

open Parse Standard Print Reading Printed Cuts Atoms

/-- Conditionals, each the alternate of the one before, from the tests and consequents of all and
the last alternate. -/
def chainText : List (String × String) → String → List Char
  | [], last => last.toList
  | (test, consequent) :: branches, last =>
    test.toList ++ '?' :: (consequent.toList ++ ' ' :: ':' :: chainText branches last)

/-- The tree of such conditionals, by what is read for a test. -/
def chainTree (read : String → Node) : List (String × String) → String → Node
  | [], last => atom last
  | (test, consequent) :: branches, last =>
    .conditional (read test) (atom consequent) (chainTree read branches last)

/-- What is read for a test that is glued to its `?`. -/
def testNode (g : Grammar) (test : String) : Node :=
  if g.letters.isStart '?' then .plain test else atom test

section

variable {g : Grammar} {rules : Rules} {s : State} {n m : Nat} {rest more after : List Char}

/-- An operand that is a name is cut at its last `?`, which comes next then. Where the name ends in
a colon, it is cut only if an expression follows. -/
theorem binary_of_cut {name : String} {test : List Char} (hg : Marked g)
    (h : Done (rules .operand { s with cursor := s.cursor.skipBlanks }) (some (.plain name)) rest)
    (hrest : rest.dropWhile isBlank = after.dropWhile isBlank) (hafter : Ended g after)
    (htest : gluedTest? name.toList = some test)
    (hfollows : name.toList.getLast? = some ':' → ∀ u : State,
      u.cursor.ahead = after.dropWhile isBlank →
        ∃ a more, Done (rules .expression u) (some a) more)
    (hs : s.cursor.ahead.dropWhile isBlank = test ++ more) :
    Done (binary g rules s) (some (.plain (String.ofList test))) more := by
  refine binary_of_split hg.operators h hrest hafter.visible fun u hu => ?_
  refine ⟨{ u with cursor := s.cursor.skipBlanks.advance test.length }, ?_,
    ahead_advance_of_append (by rw [Cursor.ahead_skipBlanks, hs])⟩
  by_cases hcolon : name.toList.getLast? = some ':'
  · obtain ⟨a, more', v, hexpression, -⟩ := hfollows hcolon u hu
    have hlook : lookAhead (rules .expression) u = .done (some (some a)) u := by
      rw [lookAhead, hexpression]
    exact Eq.trans (splitGlued_of_colon htest hcolon hlook) rfl
  · exact splitGlued_of_gluedTest? htest hcolon

variable {test consequent last : String} {branches : List (String × String)}

theorem not_mem_glued (htest : IsAtom test) (hconsequent : IsAtom consequent) :
    ':' ∉ test.toList ++ '?' :: consequent.toList := by
  have hnot : ':' ∉ test.toList := htest.not_mem (by decide)
  have hnot' : ':' ∉ consequent.toList := hconsequent.not_mem (by decide)
  simp [hnot, hnot']

/-- A test and a consequent that are read as one name are cut between them. -/
theorem binary_of_glued (hg : Marked g) (hmark : g.letters.isStart '?' = true)
    (htest : IsAtom test) (hconsequent : IsAtom consequent) (hafter : Ended g after)
    (hs : s.cursor.ahead.dropWhile isBlank =
      test.toList ++ '?' :: (consequent.toList ++ after)) :
    Done (binary g (run g (m + 3)) s) (some (.plain test))
      ('?' :: (consequent.toList ++ after)) := by
  have hparts : ∀ d ∈ consequent.toList, g.letters.isPart d = true :=
    fun d hd => hg.isPart_of (hconsequent.isPart d hd)
  obtain ⟨rest, hdone, hrest⟩ := operand_of_glued (m := m) hg hmark htest hparts hafter
    (s := { s with cursor := s.cursor.skipBlanks }) (dropWhile_skipBlanks hs)
  have hname : (test ++ String.ofList ('?' :: consequent.toList)).toList =
      test.toList ++ '?' :: consequent.toList := by
    rw [String.toList_append, String.toList_ofList]
  have hcolon := not_mem_glued htest hconsequent
  have hglued : gluedTest? (test ++ String.ofList ('?' :: consequent.toList)).toList =
      some test.toList := by
    rw [hname]
    apply gluedTest?_of_not_mem (hconsequent.not_mem (by decide))
    intro hmem
    exact hcolon (List.mem_append_right _ (List.mem_of_mem_dropLast hmem))
  have hcut := binary_of_cut hg hdone hrest hafter hglued (by
    intro hlast
    rw [hname] at hlast
    exact absurd (List.mem_of_getLast? hlast) hcolon) hs
  rwa [String.ofList_toList] at hcut

theorem ended_colon (hg : Marked g) : Ended g (' ' :: ':' :: more) := by
  apply ended_blank hg
  rw [dropWhile_isBlank_cons (by decide)]
  exact forall_mem_head?_cons more (.inl (by decide))

/-- The test of a chain's first conditional is found in front of its `?`. -/
theorem binary_of_test (hg : Marked g) (htest : IsAtom test) (hconsequent : IsAtom consequent)
    (hs : s.cursor.ahead.dropWhile isBlank =
      test.toList ++ '?' :: (consequent.toList ++ ' ' :: ':' :: more)) :
    Done (binary g (run g (m + 3)) s) (some (testNode g test))
      ('?' :: (consequent.toList ++ ' ' :: ':' :: more)) := by
  unfold testNode
  split
  · rename_i hmark
    exact binary_of_glued hg hmark htest hconsequent (ended_colon hg) hs
  · rename_i hmark
    have hstart : g.letters.isStart '?' = false := by simpa using hmark
    have hdone := binary_of_atom (m := m) hg htest (ended_mark (by decide) hstart) hs
    rwa [dropWhile_isBlank_cons (by decide)] at hdone

theorem chainText_opens (hbranches : ∀ b ∈ branches, IsAtom b.1 ∧ IsAtom b.2)
    (hlast : IsAtom last) :
    ∃ c rest, chainText branches last = c :: rest ∧ letters.isPart c = true := by
  cases branches with
  | nil => exact hlast.exists_cons
  | cons b branches =>
    obtain ⟨c, rest, hc, hpart⟩ := (hbranches b List.mem_cons_self).1.exists_cons
    exact ⟨c, _, by rw [chainText, hc, List.cons_append], hpart⟩

/-- A chain is read to its end, with one round for each conditional beyond those for an atom. -/
theorem expression_of_chain (hg : Marked g) (hbranches : ∀ b ∈ branches, IsAtom b.1 ∧ IsAtom b.2)
    (hlast : IsAtom last) (hs : s.cursor.ahead = chainText branches last) :
    Done (run g (branches.length + 4) .expression s)
      (some (chainTree (testNode g) branches last)) [] := by
  induction branches generalizing s with
  | nil =>
    have htext : s.cursor.ahead.dropWhile isBlank = last.toList ++ [] := by
      rw [hs, chainText, hlast.dropWhile_self, List.append_nil]
    exact expression_of_atom (m := 0) hg hlast ended_nil (by simp) htext
  | cons b branches ih =>
    obtain ⟨test, consequent⟩ := b
    obtain ⟨⟨htest, hconsequent⟩, hbranches⟩ := List.forall_mem_cons.mp hbranches
    have hround : branches.length + 4 = branches.length + 1 + 3 := by omega
    have hbinary : Done (binary g (run g (branches.length + 4)) s) (some (testNode g test))
        ('?' :: (consequent.toList ++ ' ' :: ':' :: chainText branches last)) := by
      rw [hround]
      apply binary_of_test hg htest hconsequent
      rw [hs, chainText, htest.dropWhile]
    have hconsequentDone : ∀ t : State,
        t.cursor.ahead = consequent.toList ++ ' ' :: ':' :: chainText branches last →
        t.inBranch = true → Done (run g (branches.length + 4) .expression t)
          (some (atom consequent)) (':' :: chainText branches last) := by
      intro t ht _
      have hdrop : (' ' :: ':' :: chainText branches last).dropWhile isBlank =
          ':' :: chainText branches last := by
        rw [List.dropWhile_cons_of_pos (by decide), dropWhile_isBlank_cons (by decide)]
      rw [← hdrop]
      apply expression_of_atom hg hconsequent (ended_colon hg)
      · simp [hdrop]
      · rw [ht, hconsequent.dropWhile]
    exact expression_of_branches hbinary (dropWhile_isBlank_cons (by decide) _) hconsequentDone
      (dropWhile_isBlank_cons (by decide) _) fun t ht => ih hbranches ht

/-- The trees by two ways to read a test are the same exactly if the ways agree on all tests. -/
theorem chainTree_inj {read read' : String → Node} :
    chainTree read branches last = chainTree read' branches last ↔
      ∀ b ∈ branches, read b.1 = read' b.1 := by
  induction branches with
  | nil => simp [chainTree]
  | cons b branches ih =>
    rw [chainTree, chainTree, Node.conditional.injEq, ih, List.forall_mem_cons]
    simp

theorem length_chainText (branches : List (String × String)) (last : String) :
    branches.length ≤ (chainText branches last).length := by
  induction branches with
  | nil => exact Nat.zero_le _
  | cons b branches ih =>
    simp only [chainText, List.length_append, List.length_cons]
    omega

theorem parse_of_chain (hg : Marked g) (hbranches : ∀ b ∈ branches, IsAtom b.1 ∧ IsAtom b.2)
    (hlast : IsAtom last) :
    g.parse (String.ofList (chainText branches last)) =
      .ok (chainTree (testNode g) branches last) := by
  obtain ⟨c, rest, hc, hpart⟩ := chainText_opens hbranches hlast
  have hsource : (String.ofList (chainText branches last)).toList = c :: rest := by
    rw [String.toList_ofList, hc]
  have hrounds : branches.length + 3 + 2 ≤
      Grammar.rounds (String.ofList (chainText branches last)) := by
    have hlength := length_chainText branches last
    rw [Grammar.rounds, ← String.length_toList, String.toList_ofList]
    omega
  have hahead : (State.start (String.ofList (chainText branches last))).cursor.ahead =
      chainText branches last := String.toList_ofList
  exact parse_of_expression hsource (not_separator_of_isPart hpart) hrounds
    (expression_of_chain hg hbranches hlast hahead)

end

/-- The standard grammar reads a chain as what its tests and branches stand for. With `?` as a
character of names each test is read as a plain name, so the two grammars agree exactly on the
chains whose tests are names and no keywords. -/
theorem parse_chain (branches : List (String × String)) (last : String)
    (hbranches : ∀ b ∈ branches, IsAtom b.1 ∧ IsAtom b.2) (hlast : IsAtom last) :
    let source := String.ofList (chainText branches last)
    let g := Grammar.standard.addLetters "?"
    Grammar.standard.parse source = .ok (chainTree atom branches last) ∧
      g.parse source = .ok (chainTree .plain branches last) ∧
      (g.parse source = Grammar.standard.parse source ↔
        ∀ b ∈ branches, IsWord b.1 ∧ b.1 ∉ ["true", "false", "null", "this"]) := by
  intro source g
  have hmarked : Marked g := marked_addLetters (by simp)
  have hplain : testNode g = Node.plain := by
    funext test
    exact if_pos (by decide)
  have hstandard : testNode Grammar.standard = atom := by
    funext test
    exact if_neg (by decide)
  have hsource : Grammar.standard.parse source = .ok (chainTree atom branches last) := by
    rw [← hstandard]
    exact parse_of_chain marked_standard hbranches hlast
  have hglued : g.parse source = .ok (chainTree .plain branches last) := by
    rw [← hplain]
    exact parse_of_chain hmarked hbranches hlast
  refine ⟨hsource, hglued, ?_⟩
  rw [hsource, hglued, Except.ok.injEq, chainTree_inj]
  refine forall₂_congr fun b hb => ?_
  rw [eq_comm]
  exact (hbranches b hb).1.eq_plain_iff

/-- A keyword and a number as tests. -/
theorem parse_chain_keyword_number :
    let g := Grammar.standard.addLetters "?"
    g.parse "true?b :12?c :d" = .ok (.conditional (.plain "true") (.plain "b")
      (.conditional (.plain "12") (.plain "c") (.plain "d"))) ∧
    g.parse "true?b :12?c :d" ≠ Grammar.standard.parse "true?b :12?c :d" := by
  intro g
  have hname : ∀ c ∈ ['b', 'c', 'd'], IsAtom (String.singleton c) := fun c hc =>
    isAtom_singleton (forall_mem_of_all (p := (letters.isStart · = true)) (by decide) c hc)
  have hatom : ∀ c ∈ ['b', 'c', 'd'],
      atom (String.singleton c) = .plain (String.singleton c) :=
    forall_mem_of_all (by decide +kernel)
  have hkeyword : IsAtom "true" :=
    .inl ⟨'t', ['r', 'u', 'e'], rfl, by decide, forall_mem_of_all (by decide)⟩
  have hnumber : IsAtom "12" := .inr ⟨by decide, forall_mem_of_all (by decide)⟩
  have hbranches : ∀ b ∈ [("true", "b"), ("12", "c")], IsAtom b.1 ∧ IsAtom b.2 := by
    simp only [List.forall_mem_cons]
    exact ⟨⟨hkeyword, hname 'b' (by decide)⟩, ⟨hnumber, hname 'c' (by decide)⟩, by simp⟩
  obtain ⟨-, hparse, hagree⟩ := parse_chain [("true", "b"), ("12", "c")] "d" hbranches
    (hname 'd' (by decide))
  have htext : String.ofList (chainText [("true", "b"), ("12", "c")] "d") = "true?b :12?c :d" := by
    decide
  have htree : chainTree .plain [("true", "b"), ("12", "c")] "d" =
      .conditional (.plain "true") (.plain "b")
        (.conditional (.plain "12") (.plain "c") (.plain "d")) :=
    congr (congrArg (Node.conditional (.plain "true")) (hatom 'b' (by decide)))
      (congr (congrArg (Node.conditional (.plain "12")) (hatom 'c' (by decide)))
        (hatom 'd' (by decide)))
  rw [htext] at hparse hagree
  refine ⟨hparse.trans (congrArg _ htree), fun heq => ?_⟩
  obtain ⟨-, hnot⟩ := hagree.mp heq ("true", "b") List.mem_cons_self
  exact hnot List.mem_cons_self

end ExprTree.Glued
