import ExprTree.Diagnostic

/-!
Where a diagnostic points. Its location is the one place in the lines of the text that lies as many
characters behind the start as the offset says, each line feed counted with the line that it ends;
see `place_unique` for why there is only one. The line that is shown is the line of the location.
The row of the caret is indented less than the row of the line, since a line number is given a blank
more than the rows without one; so the caret stands to the left of the column, see
`render_located`.
-/

namespace ExprTree.Locations

/-- The pieces of a text are those that it is split into at the line feeds. -/
theorem pieces_eq_splitOn (text : List Char) : pieces text = text.splitOn '\n' := by
  induction text with
  | nil => rfl
  | cons c rest ih =>
    rw [List.splitOn, List.splitOnP_cons_eq_if_modifyHead, ← List.splitOn, ← ih, pieces]
    cases hc : c == '\n' with
    | true => rfl
    | false =>
      obtain ⟨p, ps, hp⟩ := List.exists_cons_of_ne_nil (pieces_ne_nil rest)
      simp [hp]

/-- How many characters stand in lines, with a line feed after each. -/
def width (lines : List (List Char)) : Nat :=
  (lines.flatMap fun line => line ++ ['\n']).length

theorem width_nil : width [] = 0 := rfl

theorem width_cons (line : List Char) (lines : List (List Char)) :
    width (line :: lines) = line.length + 1 + width lines := by
  rw [width, List.flatMap_cons, List.length_append, List.length_append, List.length_singleton,
    width]

/-- A location is a place in lines: there is its line, and the column is not beyond its end. -/
def IsPlace (lines : List (List Char)) (l : Location) : Prop :=
  0 < l.line ∧ ∃ line, lines[l.line - 1]? = some line ∧ l.column ≤ line.length

/-- How many characters stand in front of a location. -/
def offset (lines : List (List Char)) (l : Location) : Nat :=
  width (lines.take (l.line - 1)) + l.column

section

variable {lines : List (List Char)} {l m : Location}

/-- The end of a line is in front of all later lines. -/
theorem width_take_lt {i j : Nat} {line : List Char} (hline : lines[i]? = some line) (h : i < j) :
    width (lines.take i) + line.length < width (lines.take j) := by
  induction lines generalizing i j with
  | nil => simp at hline
  | cons first rest ih =>
    obtain ⟨j, rfl⟩ : ∃ k, j = k + 1 := ⟨j - 1, by omega⟩
    have hfirst : ∀ k, width ((first :: rest).take (k + 1)) =
        first.length + 1 + width (rest.take k) := by
      intro k
      rw [List.take_succ_cons, width_cons]
    cases i with
    | zero =>
      have hsame : first = line := by simpa using hline
      rw [hfirst, hsame, List.take_zero, width_nil]
      omega
    | succ i =>
      have hnext := ih (i := i) (j := j) (by simpa using hline) (by omega)
      rw [hfirst, hfirst]
      omega

/-- No two places have the same number of characters in front of them. -/
theorem place_unique (hl : IsPlace lines l) (hm : IsPlace lines m)
    (h : offset lines l = offset lines m) : l = m := by
  obtain ⟨hlpos, lline, hlline, hlcolumn⟩ := hl
  obtain ⟨hmpos, mline, hmline, hmcolumn⟩ := hm
  unfold offset at h
  have hle : ¬ l.line - 1 < m.line - 1 := by
    intro hlt
    have hbefore := width_take_lt hlline hlt
    omega
  have hge : ¬ m.line - 1 < l.line - 1 := by
    intro hlt
    have hbefore := width_take_lt hmline hlt
    omega
  have hline : l.line = m.line := by omega
  rw [hline] at h
  have hcolumn : l.column = m.column := by omega
  obtain ⟨line, column⟩ := l
  obtain ⟨line', column'⟩ := m
  simp_all

end

/-- Reading on from a location: the lines in front of the place that is reached, its line, and how
far it is in that line. A line that was begun already goes on at the column that was reached. -/
theorem exists_split (text : List Char) (k : Nat) (l : Location) :
    ∃ before line after column, pieces text = before ++ line :: after ∧ column ≤ line.length ∧
      width before + column = min k text.length ∧
      (text.take k).foldl Location.next l =
        ⟨l.line + before.length, if before = [] then l.column + column else column⟩ := by
  induction text generalizing k l with
  | nil => exact ⟨[], [], [], 0, rfl, by simp, by simp [width], by simp⟩
  | cons c rest ih =>
    cases k with
    | zero =>
      obtain ⟨line, after, hpieces⟩ := List.exists_cons_of_ne_nil (pieces_ne_nil (c :: rest))
      exact ⟨[], line, after, 0, hpieces, by omega, by simp [width], by simp⟩
    | succ k =>
      obtain ⟨before, line, after, column, hpieces, hcolumn, hwidth, hplace⟩ := ih k (l.next c)
      have hlength : min (k + 1) (c :: rest).length = min k rest.length + 1 := by
        rw [List.length_cons]
        omega
      rw [List.take_succ_cons, List.foldl_cons, hplace, hlength]
      by_cases hc : c = '\n'
      · subst hc
        refine ⟨[] :: before, line, after, column, ?_, hcolumn, ?_, ?_⟩
        · rw [pieces, hpieces]
          rfl
        · rw [width_cons, List.length_nil]
          omega
        · have hline : l.line + 1 + before.length = l.line + (before.length + 1) := by omega
          simp [Location.next, hline]
      · have hother : (c == '\n') = false := beq_false_of_ne hc
        cases before with
        | nil =>
          refine ⟨[], c :: line, after, column + 1, ?_, ?_, ?_, ?_⟩
          · rw [pieces, hother, hpieces]
            rfl
          · rw [List.length_cons]
            omega
          · rw [width_nil] at hwidth ⊢
            omega
          · have hnext : l.column + 1 + column = l.column + (column + 1) := by omega
            simp [Location.next, hc, hnext]
        | cons first before =>
          refine ⟨(c :: first) :: before, line, after, column, ?_, hcolumn, ?_, ?_⟩
          · rw [pieces, hother, hpieces]
            rfl
          · rw [width_cons] at hwidth ⊢
            rw [List.length_cons]
            omega
          · simp [Location.next, hc]

section

variable {text : List Char} {l : Location}

/-- The location of an offset is the place with that many characters in front of it. -/
theorem isPlace_ofOffset (text : List Char) (k : Nat) :
    IsPlace (text.splitOn '\n') (.ofOffset text k) ∧
      offset (text.splitOn '\n') (.ofOffset text k) = min k text.length := by
  obtain ⟨before, line, after, column, hpieces, hcolumn, hwidth, hplace⟩ :=
    exists_split text k ⟨1, 0⟩
  have hlocation : Location.ofOffset text k = ⟨1 + before.length, column⟩ := by
    rw [Location.ofOffset, hplace]
    simp
  have hindex : 1 + before.length - 1 = before.length := by omega
  rw [← pieces_eq_splitOn, hlocation]
  have hpos : 0 < 1 + before.length := by omega
  refine ⟨⟨hpos, line, ?_, hcolumn⟩, ?_⟩
  · simp [hpieces, hindex]
  · rw [offset, hpieces, hindex, List.take_left]
    exact hwidth

/-- The line that is shown is the line of the location: what stands between two line feeds without
the carriage return in front of the second one, or what follows the last line feed as it is. -/
theorem shownLine_eq {line : List Char} (hpos : 0 < l.line)
    (hline : (text.splitOn '\n')[l.line - 1]? = some line) :
    shownLine text l = if l.line < (text.splitOn '\n').length then dropReturn line else line := by
  rw [← pieces_eq_splitOn] at hline ⊢
  unfold shownLine shownLines
  obtain ⟨init, last, hpieces⟩ : ∃ init last, pieces text = init ++ [last] :=
    ⟨_, _, (List.dropLast_concat_getLast (pieces_ne_nil text)).symm⟩
  simp only [hpieces, List.dropLast_concat, List.getLast?_concat, Option.toList_some,
    List.length_append, List.length_singleton] at hline ⊢
  by_cases hmiddle : l.line < init.length + 1
  · have hindex : l.line - 1 < init.length := by omega
    rw [List.getElem?_append_left hindex] at hline
    have hmapped : (init.map dropReturn)[l.line - 1]? = some (dropReturn line) := by
      rw [List.getElem?_map, hline, Option.map_some]
    rw [List.getElem?_append_left (by simpa using hindex), hmapped, if_pos hmiddle,
      Option.getD_some]
  · obtain ⟨hlt, -⟩ := List.getElem?_eq_some_iff.mp hline
    have hindex : l.line - 1 = init.length := by
      simp only [List.length_append, List.length_singleton] at hlt
      omega
    rw [hindex] at hline ⊢
    have hlast : last = line := by simpa using hline
    rw [List.getElem?_append_right (by simp), List.length_map, Nat.sub_self, if_neg hmiddle, hlast]
    by_cases hempty : line = []
    · simp [hempty]
    · simp [hempty]

end

/-- The row of a diagnostic with the line of its location. -/
def lineRow (text : List Char) (l : Location) : String :=
  lineNumber l.line ++ " | " ++ String.ofList (shownLine text l)

/-- The row under it with the caret. -/
def caretRow (l : Location) : String :=
  "   | " ++ "".pushn ' ' l.column ++ "^"

theorem toList_pushn (s : String) (c : Char) (n : Nat) :
    (s.pushn c n).toList = s.toList ++ List.replicate n c := by
  rw [String.pushn_eq_repeat_push]
  induction n with
  | zero => simp [Nat.repeat]
  | succ n ih =>
    rw [Nat.repeat, String.toList_push, ih, List.replicate_succ', List.append_assoc]

theorem length_lineNumber (n : Nat) : (lineNumber n).length = max 3 (toString n).length := by
  simp only [lineNumber, String.length_append, String.length_pushn, String.length_empty]
  omega

/-- Where the line begins in its row. -/
theorem getElem?_lineRow (text : List Char) (l : Location) (k : Nat) :
    (lineRow text l).toList[max 3 (toString l.line).length + 3 + k]? = (shownLine text l)[k]? := by
  have hlength : (lineNumber l.line ++ " | ").toList.length =
      max 3 (toString l.line).length + 3 := by
    rw [String.length_toList, String.length_append, length_lineNumber]
    rfl
  rw [lineRow, String.toList_append, String.toList_ofList, ← hlength,
    List.getElem?_append_right (by omega), Nat.add_sub_cancel_left]

/-- Where the caret stands in its row. -/
theorem getElem?_caretRow (l : Location) (k : Nat) :
    (caretRow l).toList[k]? = some '^' ↔ k = 5 + l.column := by
  have hrow : (caretRow l).toList = ("   | ".toList ++ List.replicate l.column ' ') ++ ['^'] := by
    simp [caretRow, toList_pushn]
  have hlength : ("   | ".toList ++ List.replicate l.column ' ').length = 5 + l.column := by
    rw [List.length_append, List.length_replicate]
    rfl
  have hnot : '^' ∉ "   | ".toList ++ List.replicate l.column ' ' := by simp
  rw [hrow]
  rcases Nat.lt_trichotomy k (5 + l.column) with hlt | heq | hgt
  · rw [List.getElem?_append_left (by omega)]
    refine ⟨fun h => absurd (List.mem_of_getElem? h) hnot, fun h => ?_⟩
    omega
  · subst heq
    rw [← hlength, List.getElem?_append_right (Nat.le_refl _), Nat.sub_self]
    simp
  · have hnone : (("   | ".toList ++ List.replicate l.column ' ') ++ ['^'])[k]? = none := by
      rw [List.getElem?_eq_none_iff, List.length_append, hlength, List.length_singleton]
      omega
    rw [hnone]
    refine ⟨nofun, fun h => ?_⟩
    omega

theorem append_gutter (s : String) : s ++ "\n" ++ "   | " = s ++ "\n   | " := by
  have hgutter : "\n" ++ "   | " = "\n   | " := by decide +kernel
  rw [String.append_assoc, hgutter]

theorem render_eq (d : Diagnostic) (file source : String) (l : Location)
    (hl : l = .ofOffset source.toList d.index) :
    d.render file source = "error[" ++ d.kind.code ++ "]: " ++ d.message ++
      "\n  --> " ++ file ++ ":" ++ toString l.line ++ ":" ++ toString (l.column + 1) ++
      "\n   |\n" ++ lineRow source.toList l ++ "\n" ++ caretRow l ++
      d.help?.elim "" ("\n\nhelp: " ++ ·) := by
  subst hl
  unfold Diagnostic.render lineRow caretRow
  simp only [← String.append_assoc]
  rw [append_gutter]
  cases d.help? <;> simp only [Option.elim]

/-- The location of a diagnostic is the only place in the lines of the source with as many
characters in front of it as the offset says, or as there are. The diagnostic names it, columns
counted from one, and shows its line, a carriage return in front of a line feed left out. The caret
stands to the left of the column: by one place up to line 999, and by one more for each digit that a
line number has beyond three. -/
theorem render_located (d : Diagnostic) (file source : String) :
    let text := source.toList
    let lines := text.splitOn '\n'
    let l := Location.ofOffset text d.index
    (∀ m, IsPlace lines m ∧ offset lines m = min d.index text.length ↔ m = l) ∧
    (∃ line, lines[l.line - 1]? = some line ∧
      shownLine text l = if l.line < lines.length then dropReturn line else line) ∧
    d.render file source = "error[" ++ d.kind.code ++ "]: " ++ d.message ++
      "\n  --> " ++ file ++ ":" ++ toString l.line ++ ":" ++ toString (l.column + 1) ++
      "\n   |\n" ++ lineRow text l ++ "\n" ++ caretRow l ++
      d.help?.elim "" ("\n\nhelp: " ++ ·) ∧
    (∀ k, (lineRow text l).toList[max 3 (toString l.line).length + 3 + k]? =
      (shownLine text l)[k]?) ∧
    (∀ k, (caretRow l).toList[k]? = some '^' ↔ k = 5 + l.column) := by
  intro text lines l
  obtain ⟨hplace, hoffset⟩ := isPlace_ofOffset text d.index
  refine ⟨fun m => ⟨fun h => ?_, ?_⟩, ?_, ?_, getElem?_lineRow text l, getElem?_caretRow l⟩
  · exact place_unique h.1 hplace (h.2.trans hoffset.symm)
  · rintro rfl
    exact ⟨hplace, hoffset⟩
  · obtain ⟨hpos, line, hline, -⟩ := hplace
    exact ⟨line, hline, shownLine_eq hpos hline⟩
  · exact render_eq d file source l rfl

/-- The place behind the `b`, with the caret under it. -/
example : lineRow "a ? b".toList ⟨1, 5⟩ = "  1 | a ? b" ∧ caretRow ⟨1, 5⟩ = "   |      ^" := by
  decide +kernel

end ExprTree.Locations
