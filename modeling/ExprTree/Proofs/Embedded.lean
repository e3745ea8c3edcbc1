import ExprTree.Proofs.JsonText

/-!
A JSON text that is read on its own is read inside of another text. The reader looks no further than
the value it takes, and more rounds change nothing; the levels that it may open matter only as far
as the value has them. So a text may stand wherever the levels left are enough for its value, with
all its blanks and in whatever way its numbers and quoted texts are written.
-/

namespace ExprTree

open Reading

section

variable {text rest after s : List Char}

/-- A quoted text is read up to its closing quote, whatever follows. -/
theorem Quoted.read?_append (h : Quoted.read? text = some (s, rest)) (after : List Char) :
    Quoted.read? (text ++ after) = some (s, rest ++ after) := by
  fun_induction Quoted.read? text generalizing s with
  | case1 => cases h
  | case2 =>
    cases h
    rfl
  | case5 a b c d high hhigh hsurrogate e f g k more low hlow hpair ih =>
    obtain ⟨⟨s', rest'⟩, hmore, heq⟩ := Option.map_eq_some_iff.mp h
    cases heq
    simp only [List.cons_append, Quoted.read?, hhigh, hsurrogate, hlow, hpair, if_true, ih hmore,
      Option.map_some]
  | case9 a b c d more high hhigh hsurrogate hlow ih =>
    obtain ⟨⟨s', rest'⟩, hmore, heq⟩ := Option.map_eq_some_iff.mp h
    cases heq
    simp only [List.cons_append, Quoted.read?, hhigh, hsurrogate, hlow, Bool.false_eq_true,
      if_false, ih hmore, Option.map_some]
  | case11 e more hunit c hescape ih =>
    obtain ⟨⟨s', rest'⟩, hmore, heq⟩ := Option.map_eq_some_iff.mp h
    cases heq
    rw [List.cons_append, List.cons_append, Quoted.read?.eq_4, hescape]
    · simp only [ih hmore, Option.map_some]
    · rintro a b c d more rfl
      cases hescape
  | case13 c more hquote hunit hescape hcontrol ih =>
    obtain ⟨⟨s', rest'⟩, hmore, heq⟩ := Option.map_eq_some_iff.mp h
    cases heq
    have hslash : c ≠ '\\' := by
      intro hc
      cases more with
      | nil => cases hmore
      | cons e more => exact hescape e more hc rfl
    rw [List.cons_append, Quoted.read?.eq_5 _ _ hquote (fun _ _ _ _ _ hc _ => hslash hc)
      (fun _ _ hc _ => hslash hc), if_neg hcontrol, ih hmore]
    rfl
  | _ => cases h

end

namespace Json

/-- What a reader takes and leaves is the same with more behind the text, with more rounds, and with
any levels that are enough for what it takes. -/
def Embeds {α : Type} (depth : α → Nat) (read : Nat → Nat → List Char → Option (α × List Char))
    (fuel : Nat) : Prop :=
  ∀ room text a rest, read fuel room text = some (a, rest) →
    ∀ fuel' room' after, fuel ≤ fuel' → depth a ≤ room' → Closed after →
      read fuel' room' (text ++ after) = some (a, rest ++ after)

section

variable {fuel room : Nat} {t text rest after : List Char} {c : Char}

theorem skipSpace_append (h : skipSpace t = c :: rest) (after : List Char) :
    skipSpace (t ++ after) = c :: (rest ++ after) := by
  rw [skipSpace] at h ⊢
  rw [List.dropWhile_append, h]
  rfl

theorem skipSpace_append_of_nil (h : skipSpace t = []) (after : List Char) :
    skipSpace (t ++ after) = skipSpace after := by
  rw [skipSpace] at h ⊢
  rw [List.dropWhile_append, h]
  rfl

theorem embeds_value (hitems : Embeds itemsDepth readItems fuel)
    (hmembers : Embeds membersDepth readMembers fuel) : Embeds depth readValue (fuel + 1) := by
  intro room text j rest h fuel' room' after hfuel hdepth hafter
  obtain ⟨fuel', rfl⟩ : ∃ n, fuel' = n + 1 := ⟨fuel' - 1, by omega⟩
  rw [readValue] at h
  split at h
  case h_7 =>
    obtain ⟨⟨n, rest⟩, hn, ⟨⟩⟩ := Option.map_eq_some_iff.mp h
    obtain ⟨c, more, hc, -⟩ := head_of_number hn
    refine readValue_number ?_
    rw [skipSpace_append hc, ← List.cons_append, ← hc]
    exact read?_number_append hn hafter
  case h_1 hbegins =>
    cases h
    rw [readValue, skipSpace_append hbegins]
    rfl
  case h_2 hbegins =>
    cases h
    rw [readValue, skipSpace_append hbegins]
    rfl
  case h_3 hbegins =>
    cases h
    rw [readValue, skipSpace_append hbegins]
    rfl
  case h_4 quoted hbegins =>
    obtain ⟨⟨s, rest⟩, hs, ⟨⟩⟩ := Option.map_eq_some_iff.mp h
    rw [readValue, skipSpace_append hbegins]
    simp only [Quoted.read?_append hs after, Option.map_some]
  case h_5 inner hbegins =>
    split at h
    · cases h
    · rename_i hend
      cases h
      obtain ⟨room', rfl⟩ : ∃ n, room' = n + 1 := ⟨room' - 1, by rw [depth] at hdepth; omega⟩
      rw [readValue, skipSpace_append hbegins]
      simp only [skipSpace_append hend]
    · obtain ⟨⟨js, rest⟩, hjs, ⟨⟩⟩ := Option.map_eq_some_iff.mp h
      obtain ⟨room', rfl⟩ : ∃ n, room' = n + 1 := ⟨room' - 1, by rw [depth] at hdepth; omega⟩
      rw [readItems_skipSpace] at hjs
      rw [← readValue_skipSpace, skipSpace_append hbegins]
      exact readValue_of_items (hitems _ inner js rest hjs fuel' room' after (by omega)
        (Nat.le_of_succ_le_succ hdepth) hafter)
  case h_6 inner hbegins =>
    split at h
    · cases h
    · rename_i hend
      cases h
      obtain ⟨room', rfl⟩ : ∃ n, room' = n + 1 := ⟨room' - 1, by rw [depth] at hdepth; omega⟩
      rw [readValue, skipSpace_append hbegins]
      simp only [skipSpace_append hend]
    · obtain ⟨⟨ms, rest⟩, hms, ⟨⟩⟩ := Option.map_eq_some_iff.mp h
      obtain ⟨room', rfl⟩ : ∃ n, room' = n + 1 := ⟨room' - 1, by rw [depth] at hdepth; omega⟩
      rw [readMembers_skipSpace] at hms
      rw [← readValue_skipSpace, skipSpace_append hbegins]
      exact readValue_of_members (hmembers _ inner ms rest hms fuel' room' after (by omega)
        (Nat.le_of_succ_le_succ hdepth) hafter)

theorem embeds_items (hvalue : Embeds depth readValue fuel)
    (hitems : Embeds itemsDepth readItems fuel) : Embeds itemsDepth readItems (fuel + 1) := by
  intro room text js rest h fuel' room' after hfuel hdepth hafter
  obtain ⟨fuel', rfl⟩ : ∃ n, fuel' = n + 1 := ⟨fuel' - 1, by omega⟩
  rw [readItems] at h
  split at h
  · cases h
  · rename_i j behind hj
    split at h
    · rename_i hend
      cases h
      rw [itemsDepth, itemsDepth, Nat.max_zero] at hdepth
      rw [readItems, hvalue room text j behind hj fuel' room' after (by omega) hdepth hafter]
      simp only [skipSpace_append hend]
    · rename_i more hend
      obtain ⟨⟨js, rest⟩, hjs, ⟨⟩⟩ := Option.map_eq_some_iff.mp h
      rw [itemsDepth, Nat.max_le] at hdepth
      rw [readItems, hvalue room text j behind hj fuel' room' after (by omega) hdepth.1 hafter]
      simp only [skipSpace_append hend,
        hitems room more js rest hjs fuel' room' after (by omega) hdepth.2 hafter, Option.map_some]
    · cases h

theorem embeds_members (hvalue : Embeds depth readValue fuel)
    (hmembers : Embeds membersDepth readMembers fuel) :
    Embeds membersDepth readMembers (fuel + 1) := by
  intro room text ms rest h fuel' room' after hfuel hdepth hafter
  obtain ⟨fuel', rfl⟩ : ∃ n, fuel' = n + 1 := ⟨fuel' - 1, by omega⟩
  rw [readMembers] at h
  split at h
  · rename_i inner hbegins
    split at h
    · cases h
    · rename_i name behind hname
      split at h
      · rename_i value hcolon
        rw [readMembers, skipSpace_append hbegins]
        simp only [Quoted.read?_append hname after, skipSpace_append hcolon]
        split at h
        · cases h
        · rename_i j left hj
          dsimp only at h
          split at h
          · rename_i hend
            cases h
            rw [membersDepth, membersDepth, Nat.max_zero] at hdepth
            simp only [hvalue room value j left hj fuel' room' after (by omega) hdepth hafter,
              skipSpace_append hend]
          · rename_i more hend
            obtain ⟨⟨ms, rest⟩, hms, ⟨⟩⟩ := Option.map_eq_some_iff.mp h
            rw [membersDepth, Nat.max_le] at hdepth
            simp only [hvalue room value j left hj fuel' room' after (by omega) hdepth.1 hafter,
              skipSpace_append hend,
              hmembers room more ms rest hms fuel' room' after (by omega) hdepth.2 hafter,
              Option.map_some]
          · cases h
      · cases h
  · cases h

theorem embeds (fuel : Nat) : Embeds depth readValue fuel ∧ Embeds itemsDepth readItems fuel ∧
    Embeds membersDepth readMembers fuel := by
  induction fuel with
  | zero => exact ⟨nofun, nofun, nofun⟩
  | succ fuel ih =>
    obtain ⟨hvalue, hitems, hmembers⟩ := ih
    exact ⟨embeds_value hitems hmembers, embeds_items hvalue hitems,
      embeds_members hvalue hmembers⟩

theorem exists_of_read? {j : Json} (h : read? t = some j) :
    ∃ rest, readValue (2 * t.length + 2) maxDepth t = some (j, rest) ∧ skipSpace rest = [] := by
  unfold read? at h
  split at h
  · rename_i j' rest hread
    split at h
    · rename_i hrest
      cases h
      exact ⟨rest, hread, List.isEmpty_iff.mp hrest⟩
    · cases h
  · cases h

/-- A text that is read on its own is read wherever there are levels enough for its value. -/
theorem spells_of_read? {j : Json} (h : read? t = some j) (hdepth : j.depth ≤ room) :
    Spells room t j := by
  intro fuel after hfuel hafter
  obtain ⟨rest, hread, hrest⟩ := exists_of_read? h
  refine ⟨rest ++ after, (embeds _).1 _ _ _ _ hread _ _ _ hfuel hdepth hafter, ?_⟩
  rw [skipSpace_append_of_nil hrest, skipSpace_closed hafter]

/-- A quoted text that is read on its own may be the name of a member. -/
theorem spellsName_of_read? {name : String} (h : read? t = some (.string name)) :
    SpellsName t name := by
  intro after
  obtain ⟨rest, hread, hrest⟩ := exists_of_read? h
  rw [readValue] at hread
  split at hread
  case h_4 inner hbegins =>
    obtain ⟨⟨s, rest⟩, hs, ⟨⟩⟩ := Option.map_eq_some_iff.mp hread
    refine ⟨inner ++ after, rest ++ after, skipSpace_append hbegins after, ?_,
      skipSpace_append_of_nil hrest after⟩
    rw [String.toList_ofList]
    exact Quoted.read?_append hs after
  case h_5 =>
    split at hread <;> simp_all
  case h_6 =>
    split at hread <;> simp_all
  all_goals simp_all

end

end Json

end ExprTree
