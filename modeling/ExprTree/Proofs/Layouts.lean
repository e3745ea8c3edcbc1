import ExprTree.Proofs.Embedded
import ExprTree.Proofs.Wire
import Mathlib.Data.List.Perm.Basic

/-!
The layouts of a tree: the texts that its written form turns into when, in any of its nodes, the
members are put in another order, members that the node has no field for are put among them, an
absent field is written as `null`, or the object is replaced by an array of the tag and the fields
in their order. A tree is read from each of its layouts. The order of the keys of named arguments
belongs to the tree. So the written form with all names in order is a layout of the tree with its
keys in order.
-/

namespace ExprTree

/-- The same values, each one changed. -/
def Entry.map {α β : Type} (f : α → β) : Entry α → Entry β
  | single a => single (f a)
  | many as => many (as.map f)

theorem Entry.values_map {α β : Type} (f : α → β) (e : Entry α) :
    (e.map f).values = e.values.map f := by
  cases e <;> rfl

namespace Node

open Json

/-- A member that this kind of node has no field for, with any value of so many levels. -/
def Foreign (room : Nat) (t : Tag) (m : List Char × List Char) : Prop :=
  ∃ name j, read? m.1 = some (.string name) ∧ name ∉ "type" :: t.fields ∧
    read? m.2 = some j ∧ j.depth ≤ room

mutual

/-- The text is a layout of the tree with at most so many levels. -/
inductive Laid : Nat → Node → List Char → Prop
  | object {room : Nat} {n : Node} {fields foreign members : List (List Char × List Char)}
      (hfields : LaidFields room n.slots fields) (hforeign : ∀ m ∈ foreign, Foreign room n.tag m)
      (hmembers : members.Perm ((quoted "type", quoted n.tag.name) :: (fields ++ foreign))) :
      Laid (room + 1) n (objectText members)
  | array {room : Nat} {n : Node} {fields : List (List Char × List Char)}
      (hfields : LaidFields room n.slots fields) (hall : fields.length = n.slots.length) :
      Laid (room + 1) n (arrayText (quoted n.tag.name :: fields.map (·.2)))

/-- The members for the fields of a node, in their order. -/
inductive LaidFields : Nat → List (String × Slot) → List (List Char × List Char) → Prop
  | nil {room : Nat} : LaidFields room [] []
  | cons {room : Nat} {name : String} {s : Slot} {slots : List (String × Slot)} {t : List Char}
      {fields : List (List Char × List Char)} (hslot : LaidSlot room s t)
      (hrest : LaidFields room slots fields) :
      LaidFields room ((name, s) :: slots) ((quoted name, t) :: fields)
  | absent {room : Nat} {name : String} {slots : List (String × Slot)}
      {fields : List (List Char × List Char)} (hrest : LaidFields room slots fields) :
      LaidFields room ((name, .optional none) :: slots) fields

/-- The texts of what a field holds. -/
inductive LaidSlot : Nat → Slot → List Char → Prop
  | text {room : Nat} (s : String) : LaidSlot room (.text s) (text (.string s))
  | flag {room : Nat} (b : Bool) : LaidSlot room (.flag b) (text (.bool b))
  | literal {room : Nat} (v : LiteralValue) : LaidSlot room (.literal v) (text v.toJson)
  | node {room : Nat} {n : Node} {t : List Char} (h : Laid room n t) : LaidSlot room (.node n) t
  | present {room : Nat} {n : Node} {t : List Char} (h : Laid room n t) :
      LaidSlot room (.optional (some n)) t
  | null {room : Nat} : LaidSlot room (.optional none) (text .null)
  | list {room : Nat} {ns : List Node} {ts : List (List Char)} (h : LaidList room ns ts) :
      LaidSlot (room + 1) (.list ns) (arrayText ts)
  | keys {room : Nat} {keys : List (String × Entry Node)} {ts : List (List Char × List Char)}
      (h : LaidKeys room keys ts) : LaidSlot (room + 1) (.keys keys) (objectText ts)

inductive LaidList : Nat → List Node → List (List Char) → Prop
  | nil {room : Nat} : LaidList room [] []
  | cons {room : Nat} {n : Node} {ns : List Node} {t : List Char} {ts : List (List Char)}
      (h : Laid room n t) (hrest : LaidList room ns ts) : LaidList room (n :: ns) (t :: ts)

inductive LaidEntry : Nat → Entry Node → List Char → Prop
  | single {room : Nat} {n : Node} {t : List Char} (h : Laid room n t) :
      LaidEntry room (.single n) t
  | many {room : Nat} {ns : List Node} {ts : List (List Char)} (h : LaidList room ns ts) :
      LaidEntry (room + 1) (.many ns) (arrayText ts)

inductive LaidKeys : Nat → List (String × Entry Node) → List (List Char × List Char) → Prop
  | nil {room : Nat} : LaidKeys room [] []
  | cons {room : Nat} {key : String} {e : Entry Node} {keys : List (String × Entry Node)}
      {t : List Char} {ts : List (List Char × List Char)} (h : LaidEntry room e t)
      (hrest : LaidKeys room keys ts) : LaidKeys room ((key, e) :: keys) ((quoted key, t) :: ts)

end

/-- The text is read as the tree wherever a value of so many levels may stand. -/
def ReadAs (room : Nat) (n : Node) (t : List Char) : Prop :=
  ∃ j, Spells room t j ∧ Stands j n

section

variable {room : Nat} {n : Node} {ns : List Node} {s : Slot} {t : List Char}
  {ts : List (List Char)} {slots : List (String × Slot)}
  {fields foreign members : List (List Char × List Char)}

theorem exists_list (h : LaidList room ns ts)
    (hnodes : ∀ c ∈ ns, ∀ room t, Laid room c t → ReadAs room c t) :
    ∃ js, List.Forall₂ (Spells room) ts js ∧ List.Forall₂ Stands js ns := by
  induction ns generalizing ts with
  | nil =>
    cases h
    exact ⟨[], .nil, .nil⟩
  | cons n ns ih =>
    cases h with
    | cons h hrest =>
      rw [List.forall_mem_cons] at hnodes
      obtain ⟨j, hspells, hstands⟩ := hnodes.1 room _ h
      obtain ⟨js, hspell, hstand⟩ := ih hrest hnodes.2
      exact ⟨j :: js, .cons hspells hspell, .cons hstands hstand⟩

theorem exists_entry {e : Entry Node} (h : LaidEntry room e t)
    (hnodes : ∀ c ∈ e.values, ∀ room t, Laid room c t → ReadAs room c t) :
    ∃ j, Spells room t j ∧ (reading j).bound? = some e := by
  cases h with
  | single h =>
    obtain ⟨j, hspells, hstands⟩ := hnodes _ (List.mem_singleton_self _) _ _ h
    exact ⟨j, hspells, bound?_of_stands hstands⟩
  | many h =>
    obtain ⟨js, hspell, hstand⟩ := exists_list h hnodes
    exact ⟨.array js, spells_array hspell, bound?_many hstand⟩

theorem exists_keys {keys : List (String × Entry Node)} (h : LaidKeys room keys members)
    (hnodes : ∀ k ∈ keys, ∀ c ∈ k.2.values, ∀ room t, Laid room c t → ReadAs room c t) :
    ∃ ms, List.Forall₂ (SpellsMember room) members ms ∧
      List.Forall₂ (fun m k => m.1 = k.1 ∧ (reading m.2).bound? = some k.2) ms keys := by
  induction keys generalizing members with
  | nil =>
    cases h
    exact ⟨[], .nil, .nil⟩
  | cons k keys ih =>
    cases h with
    | cons h hrest =>
      rw [List.forall_mem_cons] at hnodes
      obtain ⟨j, hspells, hbound⟩ := exists_entry h hnodes.1
      obtain ⟨ms, hspell, hbounds⟩ := ih hrest hnodes.2
      exact ⟨(_, j) :: ms, .cons ⟨spellsName_quoted _, hspells⟩ hspell, .cons ⟨rfl, hbound⟩ hbounds⟩

/-- What a field is laid out as is read as what the field holds. -/
theorem exists_supplied (h : LaidSlot room s t)
    (hnodes : ∀ c ∈ s.nodes, ∀ room t, Laid room c t → ReadAs room c t)
    (hkeys : ∀ keys, s = .keys keys → (Keyed.keys keys).Nodup)
    (hback : ∀ x, s = .literal (.number x) → (JsonNumber.real x).ReadsBack) :
    ∃ j, Spells room t j ∧ s.Supplied (some (reading j)) := by
  cases h with
  | text s =>
    exact ⟨.string s, spells_text _ room (by simp [numbers]) (Nat.zero_le _),
      supplied_toJson? (s := .text s) nofun nofun⟩
  | flag b =>
    exact ⟨.bool b, spells_text _ room (by simp [numbers]) (Nat.zero_le _),
      supplied_toJson? (s := .flag b) nofun nofun⟩
  | literal v =>
    refine ⟨v.toJson, spells_text _ room ?_ ?_, supplied_toJson? (s := .literal v) nofun nofun⟩
    · cases v with
      | number x => simpa [LiteralValue.toJson, numbers] using hback x rfl
      | _ => simp [LiteralValue.toJson, numbers]
    · cases v <;> exact Nat.zero_le _
  | node h =>
    obtain ⟨j, hspells, hstands⟩ := hnodes _ (List.mem_singleton_self _) _ _ h
    exact ⟨j, hspells, hstands.1⟩
  | present h =>
    obtain ⟨j, hspells, hstands⟩ := hnodes _ (List.mem_singleton_self _) _ _ h
    exact ⟨j, hspells, optional?_of_stands hstands⟩
  | null => exact ⟨.null, spells_text _ room (by simp [numbers]) (Nat.zero_le _), rfl⟩
  | list h =>
    obtain ⟨js, hspell, hstand⟩ := exists_list h hnodes
    exact ⟨.array js, spells_array hspell, nodes?_of_stands hstand⟩
  | keys h =>
    obtain ⟨ms, hspell, hbounds⟩ := exists_keys h fun k hk c hc =>
      hnodes c (List.mem_flatMap_of_mem hk hc)
    exact ⟨.object ms, spells_object hspell, keys?_of_bound (hkeys _ rfl) hbounds⟩

theorem exists_fields (h : LaidFields room slots fields) (hnames : (slots.map (·.1)).Nodup)
    (hslots : ∀ s ∈ slots, ∀ t, LaidSlot room s.2 t →
      ∃ j, Spells room t j ∧ s.2.Supplied (some (reading j))) :
    ∃ ms, List.Forall₂ (SpellsMember room) fields ms ∧
      (ms.map (·.1)).Sublist (slots.map (·.1)) ∧
      ∀ s ∈ slots, s.2.Supplied ((Keyed.get? ms s.1).map reading) := by
  induction slots generalizing fields with
  | nil =>
    cases h
    exact ⟨[], .nil, .slnil, nofun⟩
  | cons s slots ih =>
    rw [List.map_cons, List.nodup_cons] at hnames
    rw [List.forall_mem_cons] at hslots
    cases h with
    | @cons _ name s _ t _ hslot hrest =>
      obtain ⟨j, hspells, hsupplied⟩ := hslots.1 _ hslot
      obtain ⟨ms, hspell, hsub, hrest⟩ := ih hrest hnames.2 hslots.2
      refine ⟨(name, j) :: ms, .cons ⟨spellsName_quoted name, hspells⟩ hspell,
        hsub.cons_cons name, ?_⟩
      rw [List.forall_mem_cons]
      refine ⟨by rwa [Keyed.get?, if_pos rfl], fun s' hs' => ?_⟩
      have hne : name ≠ s'.1 := by
        intro heq
        have hmem : name ∈ slots.map (·.1) := by
          rw [heq]
          exact List.mem_map_of_mem hs'
        exact hnames.1 hmem
      rw [Keyed.get?, if_neg hne]
      exact hrest s' hs'
    | @absent _ name _ _ hrest =>
      obtain ⟨ms, hspell, hsub, hrest⟩ := ih hrest hnames.2 hslots.2
      refine ⟨ms, hspell, hsub.cons name, ?_⟩
      rw [List.forall_mem_cons]
      refine ⟨?_, hrest⟩
      have hnone : Keyed.get? ms name = none :=
        Keyed.get?_eq_none fun hname => hnames.1 (hsub.subset hname)
      rw [hnone]
      rfl

theorem exists_foreign {tag : Tag} (h : ∀ m ∈ foreign, Foreign room tag m) :
    ∃ ms, List.Forall₂ (SpellsMember room) foreign ms ∧
      ∀ m ∈ ms, m.1 ∉ "type" :: tag.fields := by
  induction foreign with
  | nil => exact ⟨[], .nil, nofun⟩
  | cons m foreign ih =>
    rw [List.forall_mem_cons] at h
    obtain ⟨name, j, hname, hforeign, hread, hdepth⟩ := h.1
    obtain ⟨ms, hspell, hrest⟩ := ih h.2
    exact ⟨(name, j) :: ms,
      .cons ⟨spellsName_of_read? hname, spells_of_read? hread hdepth⟩ hspell,
      List.forall_mem_cons.mpr ⟨hforeign, hrest⟩⟩

/-- The tag, the fields and members that say nothing are read as the node, in whatever order they
stand. -/
theorem stands_object {ms others found : List (String × Json)}
    (hnames : (ms.map (·.1)).Sublist n.tag.fields)
    (hsupplied : ∀ s ∈ n.slots, s.2.Supplied ((Keyed.get? ms s.1).map reading))
    (hothers : ∀ m ∈ others, m.1 ∉ "type" :: n.tag.fields)
    (hfound : found.Perm (("type", .string n.tag.name) :: (ms ++ others))) :
    Stands (.object found) n := by
  -- A name of the tag or of a field stands once at most, so its place does not matter.
  have hnone : ∀ name ∈ "type" :: n.tag.fields, name ∉ Keyed.keys others := by
    intro name hname hmem
    obtain ⟨m, hm, rfl⟩ := List.mem_map.mp hmem
    exact hothers m hm hname
  have hnodup : ((("type", Json.string n.tag.name) :: ms).map (·.1)).Nodup :=
    (nodup_fields n.tag).sublist (hnames.cons_cons "type")
  have honce : ∀ name ∈ "type" :: n.tag.fields,
      (("type", Json.string n.tag.name) :: (ms ++ others)).countP (·.1 = name) ≤ 1 := by
    intro name hname
    have hzero : others.countP (·.1 = name) = 0 := by
      rw [List.countP_eq_zero]
      intro m hm heq
      rw [← of_decide_eq_true heq] at hname
      exact hothers m hm hname
    rw [← List.cons_append, List.countP_append, hzero]
    exact countP_le_one hnodup name
  have hget : ∀ name ∈ "type" :: n.tag.fields, Keyed.get? found name =
      Keyed.get? (("type", Json.string n.tag.name) :: (ms ++ others)) name :=
    fun name hname => Keyed.get?_of_perm_once hfound (honce name hname)
  have htype : Keyed.get? found "type" = some (.string n.tag.name) := by
    rw [hget "type" List.mem_cons_self, Keyed.get?, if_pos rfl]
  have hfield : ∀ s ∈ n.slots, Keyed.get? found s.1 = Keyed.get? ms s.1 := by
    intro s hs
    have hname : s.1 ∈ "type" :: n.tag.fields := by
      rw [← names_slots]
      exact List.mem_cons_of_mem _ (List.mem_map_of_mem hs)
    rw [hget s.1 hname, Keyed.get?, if_neg (ne_type hs).symm, Keyed.get?_append,
      Keyed.get?_eq_none (hnone s.1 hname), Option.or_none]
  constructor
  · rw [node?_object htype fun name hname => hfound.countP_eq _ ▸ honce name hname]
    apply assemble?_of_supplied
    intro s hs
    rw [hfield s hs]
    exact hsupplied s hs
  · rw [hasNamedTag, Keyed.lookup_eq_get?, htype]

/-- The tag and all the fields in their order are read as the node. -/
theorem stands_array {ms : List (String × Json)} (hnames : ms.map (·.1) = n.tag.fields)
    (hsupplied : ∀ s ∈ n.slots, s.2.Supplied ((Keyed.get? ms s.1).map reading)) :
    Stands (.array (.string n.tag.name :: ms.map (·.2))) n := by
  have htag : (reading (.string n.tag.name)).tag? = some n.tag := by
    rw [Reading.tag?, json_reading]
    exact Tag.ofName?_name n.tag
  have hzip : n.tag.fields.zip (readings (ms.map (·.2))) = memberReadings ms := by
    rw [← hnames, readings_eq, List.map_map, List.zip_map', memberReadings_eq]
    rfl
  have hlength : (readings (ms.map (·.2))).length ≤ n.tag.fields.length := by
    rw [← hnames, readings_eq, List.length_map, List.length_map, List.length_map]
  have hitems : ofItems? (readings (.string n.tag.name :: ms.map (·.2))) = some n := by
    rw [readings, ofItems?, htag]
    refine (if_pos hlength).trans ?_
    rw [hzip]
    apply assemble?_of_supplied
    intro s hs
    rw [lookup_memberReadings]
    exact hsupplied s hs
  exact ⟨hitems, rfl⟩

/-- A tree is read from a layout of it, given that its children are. -/
theorem readAs_of_children (h : Laid room n t)
    (hnodes : ∀ c ∈ n.children, ∀ room t, Laid room c t → ReadAs room c t)
    (hkeys : ∀ keys, n = .keyValues keys → (Keyed.keys keys).Nodup)
    (hback : ∀ x raw, n = .literal (.number x) raw → (JsonNumber.real x).ReadsBack) :
    ReadAs room n t := by
  have hslots : ∀ s ∈ n.slots, ∀ room t, LaidSlot room s.2 t →
      ∃ j, Spells room t j ∧ s.2.Supplied (some (reading j)) := by
    intro s hs room t hslot
    obtain ⟨name, s⟩ := s
    apply exists_supplied hslot
    · intro c hc
      apply hnodes
      rw [children_eq]
      exact List.mem_flatMap_of_mem hs hc
    · rintro keys rfl
      exact hkeys keys (eq_keyValues hs)
    · rintro x rfl
      obtain ⟨raw, hraw⟩ := eq_literal hs
      exact hback x raw hraw
  cases h with
  | @object room _ fields foreign members hfields hforeign hmembers =>
    obtain ⟨ms, hspell, hnames, hsupplied⟩ :=
      exists_fields hfields (nodup_names_slots n) fun s hs => hslots s hs room
    rw [names_slots] at hnames
    obtain ⟨others, hothers, hother⟩ := exists_foreign hforeign
    have htag : SpellsMember room (quoted "type", quoted n.tag.name)
        ("type", .string n.tag.name) := ⟨spellsName_quoted "type", spells_string n.tag.name⟩
    obtain ⟨found, hread, hfound⟩ :=
      List.perm_comp_forall₂ hmembers (.cons htag (List.rel_append hspell hothers))
    exact ⟨.object found, spells_object hread, stands_object hnames hsupplied hother hfound⟩
  | @array room _ fields hfields hall =>
    obtain ⟨ms, hspell, hnames, hsupplied⟩ :=
      exists_fields hfields (nodup_names_slots n) fun s hs => hslots s hs room
    have hlength : (ms.map (·.1)).length = (n.slots.map (·.1)).length := by
      rw [List.length_map, List.length_map, ← hall, hspell.length_eq]
    have hexact := hnames.eq_of_length hlength
    rw [names_slots] at hexact
    have hitems : List.Forall₂ (Spells room) (fields.map (·.2)) (ms.map (·.2)) := by
      rw [List.forall₂_map_left_iff, List.forall₂_map_right_iff]
      exact hspell.imp fun t m htm => htm.2
    exact ⟨_, spells_array (.cons (spells_string n.tag.name) hitems),
      stands_array hexact hsupplied⟩

/-- A tree is read from each of its layouts. -/
theorem readAs_of_laid (h : Laid room n t)
    (hkeys : ∀ keys, .keyValues keys ∈ n.parts → (Keyed.keys keys).Nodup)
    (hback : ∀ x raw, .literal (.number x) raw ∈ n.parts → (JsonNumber.real x).ReadsBack) :
    ReadAs room n t := by
  induction n using induct_children generalizing room t with
  | h n ih =>
    apply readAs_of_children h
    · intro c hc room t hlaid
      exact ih c hc hlaid (fun keys hmem => hkeys keys (mem_parts_of_child hc hmem))
        fun x raw hmem => hback x raw (mem_parts_of_child hc hmem)
    · rintro keys rfl
      exact hkeys keys (self_mem_parts _)
    · rintro x raw rfl
      exact hback x raw (self_mem_parts _)

end

end Node

end ExprTree
