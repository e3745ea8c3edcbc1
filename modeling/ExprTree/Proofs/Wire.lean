import ExprTree.Proofs.Slots

/-!
The written form of a tree is read as that tree. The tag and the fields of a node are looked up in
the object that it was written as, so each kind of node comes back from its own object, given that
its children do. A value of named arguments is tried as a node before it is tried as a list: a list
of nodes is no node, because its first item names a tag where it should be one.
-/

namespace ExprTree.Node

/-- A value is read as a tree, and it names its tag, as the root of a tree has to. -/
def Stands (j : Json) (n : Node) : Prop :=
  (reading j).node? = some n ∧ hasNamedTag j = true

section

variable {j : Json} {js : List Json} {n : Node} {ns : List Node} {t : Tag}

@[simp] theorem json_reading (j : Json) : (reading j).json = j := by
  cases j <;> simp [reading]

theorem readings_eq (js : List Json) : readings js = js.map reading := by
  induction js with
  | nil => rfl
  | cons j js ih => rw [readings, ih, List.map_cons]

theorem memberReadings_eq (members : List (String × Json)) :
    memberReadings members = members.map fun m => (m.1, reading m.2) := by
  induction members with
  | nil => rfl
  | cons m members ih => rw [memberReadings, ih, List.map_cons]

theorem lookup_memberReadings (members : List (String × Json)) (name : String) :
    (memberReadings members).lookup name = (Keyed.get? members name).map reading := by
  rw [memberReadings_eq, Keyed.lookup_eq_get?]
  induction members with
  | nil => rfl
  | cons m members ih =>
    by_cases hm : m.1 = name
    · simp [Keyed.get?, hm]
    · simpa [Keyed.get?, hm] using ih

theorem allToJson_eq (ns : List Node) : allToJson ns = ns.map toJson := by
  induction ns with
  | nil => rfl
  | cons n ns ih => rw [allToJson, ih, List.map_cons]

theorem keysToJson_eq (keys : List (String × Entry Node)) :
    keysToJson keys = keys.map fun k => (k.1, entryToJson k.2) := by
  induction keys with
  | nil => rfl
  | cons k keys ih => rw [keysToJson, ih, List.map_cons]

/-- A tree is written as an object with its tag. -/
theorem exists_tagged (n : Node) : ∃ fields, n.toJson = tagged n.tag fields :=
  ⟨n.written, n.toJson_eq⟩

theorem tag?_reading (h : hasNamedTag j = true) : (reading j).tag? = none := by
  rw [Reading.tag?, json_reading]
  cases j with
  | string s => cases h
  | number x => cases h
  | _ => rfl

theorem nodes?_of_stands (h : List.Forall₂ Stands js ns) :
    (reading (.array js)).nodes? = some ns := by
  simp only [reading, readings_eq]
  exact mapM_of_forall₂ (List.forall₂_map_left_iff.mpr (h.imp fun j n hj => hj.1))

/-- A list of nodes is not read as a node. -/
theorem node?_of_stands (h : List.Forall₂ Stands js ns) :
    (reading (.array js)).node? = none := by
  cases h with
  | nil => rfl
  | cons hj _ =>
    simp only [reading, readings, ofItems?, tag?_reading hj.2]
    rfl

theorem bound?_of_stands (h : Stands j n) : (reading j).bound? = some (.single n) := by
  rw [Reading.bound?, h.1]

theorem bound?_many (h : List.Forall₂ Stands js ns) :
    (reading (.array js)).bound? = some (.many ns) := by
  rw [Reading.bound?, node?_of_stands h, nodes?_of_stands h]

/-- Distinct keys come back in their order. -/
theorem keys?_of_bound {members : List (String × Json)} {keys : List (String × Entry Node)}
    (hkeys : (Keyed.keys keys).Nodup)
    (h : List.Forall₂ (fun m k => m.1 = k.1 ∧ (reading m.2).bound? = some k.2) members keys) :
    (reading (.object members)).keys? = some keys := by
  have hpairs : (members.map fun m => (m.1, reading m.2)).mapM
      (fun m => m.2.bound?.map (m.1, ·)) = some keys := by
    refine mapM_of_forall₂ (List.forall₂_map_left_iff.mpr (h.imp fun m k hmk => ?_))
    rw [hmk.1, hmk.2, Option.map_some]
  simp only [reading, memberReadings_eq, keysOfMembers?, hpairs, Option.map_some,
    Keyed.ofPairs_eq_self hkeys]

theorem optional?_of_stands (h : Stands j n) :
    Reading.optional? (some (reading j)) = some (some n) := by
  rw [Reading.optional?]
  split
  · rename_i hnull
    rw [json_reading] at hnull
    subst hnull
    cases h.2
  · rw [h.1, Option.map_some]

theorem stands_allToJson (h : ∀ n ∈ ns, Stands n.toJson n) :
    List.Forall₂ Stands (allToJson ns) ns := by
  rw [allToJson_eq, List.forall₂_map_left_iff]
  exact List.forall₂_same.mpr h

theorem bound?_entryToJson {e : Entry Node} (h : ∀ n ∈ e.values, Stands n.toJson n) :
    (reading (entryToJson e)).bound? = some e := by
  cases e with
  | single n => exact bound?_of_stands (h n (List.mem_singleton_self n))
  | many ns => exact bound?_many (stands_allToJson h)

theorem countP_le_one {members : List (String × Json)} (h : (members.map (·.1)).Nodup)
    (name : String) : members.countP (·.1 = name) ≤ 1 := by
  have hcount := List.nodup_iff_count_le_one.mp h name
  rwa [List.count, List.countP_map] at hcount

/-- An object is read by its tag if the tag and the fields of its kind stand in it once at most. -/
theorem node?_object {members : List (String × Json)}
    (htype : Keyed.get? members "type" = some (.string t.name))
    (honce : ∀ name ∈ "type" :: t.fields, members.countP (·.1 = name) ≤ 1) :
    (reading (.object members)).node? =
      assemble? t fun name => (Keyed.get? members name).map reading := by
  have htag : ((memberReadings members).lookup "type").bind Reading.tag? = some t := by
    rw [lookup_memberReadings, htype, Option.map_some, Option.bind_some, Reading.tag?,
      json_reading]
    exact Tag.ofName?_name t
  have hall : ("type" :: t.fields).all (occurrences (memberReadings members) · ≤ 1) = true := by
    rw [List.all_eq_true]
    intro name hname
    have hcount := honce name hname
    rw [occurrences, memberReadings_eq, List.countP_map]
    exact decide_eq_true hcount
  have hlookup : ((memberReadings members).lookup ·) =
      fun name => (Keyed.get? members name).map reading :=
    funext (lookup_memberReadings members)
  simp only [reading, ofMembers?, htag, hlookup]
  exact if_pos hall

theorem supplied_toJson? {s : Slot} (hnodes : ∀ c ∈ s.nodes, Stands c.toJson c)
    (hkeys : ∀ keys, s = .keys keys → (Keyed.keys keys).Nodup) :
    s.Supplied (s.toJson?.map reading) := by
  cases s with
  | text s => simp [Slot.Supplied, Slot.toJson?, Reading.string?, Json.string?]
  | flag b => simp [Slot.Supplied, Slot.toJson?, Reading.bool?, Json.bool?]
  | literal v =>
    cases v <;> simp [Slot.Supplied, Slot.toJson?, Reading.literal?, LiteralValue.toJson,
      JsonNumber.toBinary64]
  | node n => exact (hnodes n (List.mem_singleton_self n)).1
  | optional o =>
    cases o with
    | none => rfl
    | some n => exact optional?_of_stands (hnodes n (List.mem_singleton_self n))
  | list ns => exact nodes?_of_stands (stands_allToJson hnodes)
  | keys ks =>
    refine keys?_of_bound (hkeys ks rfl) ?_
    rw [keysToJson_eq, List.forall₂_map_left_iff]
    exact List.forall₂_same.mpr fun k hk =>
      ⟨rfl, bound?_entryToJson fun c hc => hnodes c (List.mem_flatMap_of_mem hk hc)⟩

theorem names_filterMap (slots : List (String × Slot)) :
    List.Sublist ((slots.filterMap fun s => s.2.toJson?.map (s.1, ·)).map (·.1))
      (slots.map (·.1)) := by
  induction slots with
  | nil => exact .slnil
  | cons s slots ih =>
    cases hwritten : s.2.toJson? with
    | none =>
      rw [List.filterMap_cons_none (by rw [hwritten, Option.map_none])]
      exact ih.cons s.1
    | some j =>
      rw [List.filterMap_cons_some (by rw [hwritten, Option.map_some])]
      exact ih.cons_cons s.1

theorem get?_filterMap {slots : List (String × Slot)} (hnames : (slots.map (·.1)).Nodup)
    {s : String × Slot} (hs : s ∈ slots) :
    Keyed.get? (slots.filterMap fun s => s.2.toJson?.map (s.1, ·)) s.1 = s.2.toJson? := by
  induction slots with
  | nil => cases hs
  | cons s' slots ih =>
    rw [List.map_cons, List.nodup_cons] at hnames
    rcases List.mem_cons.mp hs with rfl | hs
    · cases hwritten : s.2.toJson? with
      | none =>
        rw [List.filterMap_cons_none (by rw [hwritten, Option.map_none])]
        refine Keyed.get?_eq_none fun hname => hnames.1 ?_
        exact (names_filterMap slots).subset hname
      | some j =>
        rw [List.filterMap_cons_some (by rw [hwritten, Option.map_some]), Keyed.get?, if_pos rfl]
    · have hne : s'.1 ≠ s.1 := by
        intro heq
        rw [heq] at hnames
        exact hnames.1 (List.mem_map_of_mem hs)
      cases hwritten : s'.2.toJson? with
      | none =>
        rw [List.filterMap_cons_none (by rw [hwritten, Option.map_none])]
        exact ih hnames.2 hs
      | some j =>
        rw [List.filterMap_cons_some (by rw [hwritten, Option.map_some]), Keyed.get?, if_neg hne]
        exact ih hnames.2 hs

/-- The members of a node are found under the names of its fields. -/
theorem get?_written {s : String × Slot} (hs : s ∈ n.slots) :
    Keyed.get? n.written s.1 = s.2.toJson? :=
  get?_filterMap (nodup_names_slots n) hs

theorem hasNamedTag_toJson (n : Node) : hasNamedTag n.toJson = true := by
  simp [toJson_eq, tagged, hasNamedTag]

/-- A tree comes back from its JSON value. -/
theorem node?_toJson (hkeys : ∀ keys, .keyValues keys ∈ n.parts → (Keyed.keys keys).Nodup) :
    (reading n.toJson).node? = some n := by
  induction n using induct_children with
  | h n ih =>
    have hchild : ∀ c ∈ n.children, Stands c.toJson c := fun c hc =>
      ⟨ih c hc fun keys hmem => hkeys keys (mem_parts_of_child hc hmem), hasNamedTag_toJson c⟩
    rw [toJson_eq, tagged, node?_object]
    · refine assemble?_of_supplied fun s hs => ?_
      rw [Keyed.get?, if_neg (ne_type hs).symm, get?_written hs]
      refine supplied_toJson? (fun c hc => hchild c ?_) fun keys heq => hkeys keys ?_
      · rw [children_eq]
        exact List.mem_flatMap_of_mem hs hc
      · obtain ⟨name, slot⟩ := s
        subst heq
        rw [eq_keyValues hs]
        exact self_mem_parts _
    · rw [Keyed.get?, if_pos rfl]
    · intro name _
      refine countP_le_one ?_ name
      have hnames := (names_filterMap n.slots).cons_cons "type"
      rw [names_slots] at hnames
      exact (nodup_fields n.tag).sublist hnames

theorem numbers_entryToJson (e : Entry Node) :
    (entryToJson e).numbers = e.values.flatMap fun n => n.toJson.numbers := by
  cases e with
  | single n => simp [entryToJson, Entry.values]
  | many ns =>
    simp [entryToJson, Entry.values, Json.numbers, Json.itemsNumbers_eq, allToJson_eq,
      List.flatMap_map]

/-- A number in the JSON value of a tree is that of its literal, or it is one of a child. -/
theorem numbers_toJson (n : Node) :
    n.toJson.numbers =
      (match n with
        | .literal (.number x) _ => [.real x]
        | _ => []) ++ n.children.flatMap fun c => c.toJson.numbers := by
  cases n with
  | identifier name object property =>
    cases object <;> cases property <;>
      simp [toJson, optionToJson, tagged, children, Json.numbers, Json.membersNumbers_eq]
  | literal value raw =>
    cases value <;>
      simp [toJson, tagged, children, LiteralValue.toJson, Json.numbers, Json.membersNumbers_eq]
  | keyValues keys =>
    simp [toJson, tagged, children, Json.numbers, Json.membersNumbers_eq, keysToJson_eq,
      numbers_entryToJson, List.flatMap_map, List.flatMap_assoc]
  | _ =>
    simp [toJson, tagged, children, Json.numbers, Json.membersNumbers_eq, Json.itemsNumbers_eq,
      allToJson_eq, List.flatMap_map]

/-- The numbers in the JSON value of a tree are those of the literals in it. -/
theorem mem_numbers_toJson {y : JsonNumber} (hy : y ∈ n.toJson.numbers) :
    ∃ x raw, y = .real x ∧ .literal (.number x) raw ∈ n.parts := by
  induction n using induct_children with
  | h n ih =>
    rw [numbers_toJson, List.mem_append, List.mem_flatMap] at hy
    rcases hy with hown | ⟨c, hc, hbelow⟩
    · split at hown
      · rename_i x raw
        exact ⟨x, raw, List.mem_singleton.mp hown, self_mem_parts _⟩
      · cases hown
    · obtain ⟨x, raw, hx, hmem⟩ := ih c hc hbelow
      exact ⟨x, raw, hx, mem_parts_of_child hc hmem⟩

/-- The written form of a tree is read as that tree, the order of its keys included, and so it is
written again as it was. The keys of one node are distinct, as they are in a map; the numbers are
finite, and each of them is a double whose written form is read as that double. -/
theorem ofText?_wire (n : Node)
    (hkeys : ∀ keys, .keyValues keys ∈ n.parts → (Keyed.keys keys).Nodup)
    (hfinite : ∀ x raw, .literal (.number x) raw ∈ n.parts → x.isFinite = true)
    (hback : ∀ x raw, .literal (.number x) raw ∈ n.parts → x.isFinite = true →
      (JsonNumber.real x).ReadsBack)
    (hdepth : n.toJson.depth ≤ Json.maxDepth) :
    ofText? n.wire = some n ∧ (ofText? n.wire).map wire = some n.wire := by
  have hnumbers : ∀ y ∈ n.toJson.numbers, y.ReadsBack := by
    intro y hy
    obtain ⟨x, raw, rfl, hmem⟩ := mem_numbers_toJson hy
    exact hback x raw hmem (hfinite x raw hmem)
  have htag : hasNamedTag n.toJson = true := by
    obtain ⟨fields, hn⟩ := n.exists_tagged
    simp [hn, tagged, hasNamedTag]
  have hread : ofText? n.wire = some n := by
    rw [ofText?, wire, Json.toText_eq, String.toList_ofList, Json.read?_text hnumbers hdepth,
      Option.bind_some, ofJson?, if_pos htag, node?_toJson hkeys]
  exact ⟨hread, by rw [hread, Option.map_some]⟩

/-- A tree with lists of no and of one value, an identifier with one half, and an operator behind
its argument. -/
def unusual : Node :=
  .compound [
    .keyValues [
      ("", .many []),
      ("\"k\"", .many [.literal (.number (.ofDecimal 15 (-1))) "1.5"]),
      ("null", .single (.identifier "a!b" none (some (plain "b"))))],
    .unary "-" .this false]

theorem ofText?_wire_unusual :
    ofText? unusual.wire = some unusual ∧
      (ofText? unusual.wire).map wire = some unusual.wire := by
  have hliteral : ∀ x raw, .literal (.number x) raw ∈ unusual.parts → x = .ofDecimal 15 (-1) := by
    intro x raw hmem
    simp only [unusual, parts, allParts, keyParts, entryParts, optionParts, plain, List.mem_cons,
      List.mem_append, List.not_mem_nil, reduceCtorEq, or_false, false_or, Node.literal.injEq,
      LiteralValue.number.injEq] at hmem
    exact hmem.1
  refine ofText?_wire unusual ?_ ?_ ?_ (by decide)
  · intro keys hmem
    simp only [unusual, parts, allParts, keyParts, entryParts, optionParts, plain, List.mem_cons,
      List.mem_append, List.not_mem_nil, reduceCtorEq, or_false, false_or,
      Node.keyValues.injEq] at hmem
    subst hmem
    decide
  · intro x raw hmem
    rw [hliteral x raw hmem]
    decide +kernel
  · intro x raw hmem _
    rw [hliteral x raw hmem, JsonNumber.ReadsBack]
    decide +kernel

end

end ExprTree.Node
