import ExprTree.Proofs.Layouts

/-!
Two layouts that a tree has for sure: its written form, and its written form with all names in
order. In both, a rearrangement of the members of all objects goes along with one of the keys of
all named arguments, so one induction over the tree serves both. With all names in order the text is
read as the tree with its keys in order, and in any layout of the written form as the tree itself.
-/

namespace ExprTree.Node

mutual

/-- The tree with the keys of all named arguments in the order of their names. -/
def sortKeys : Node → Node
  | .compound body => .compound (sortKeysAll body)
  | .identifier name object property =>
    .identifier name (sortKeysOption object) (sortKeysOption property)
  | .literal value raw => .literal value raw
  | .this => .this
  | .member computed object property => .member computed object.sortKeys property.sortKeys
  | .call callee arguments => .call callee.sortKeys (sortKeysAll arguments)
  | .unary operator argument leading => .unary operator argument.sortKeys leading
  | .binary operator left right => .binary operator left.sortKeys right.sortKeys
  | .logical operator left right => .logical operator left.sortKeys right.sortKeys
  | .conditional test consequent alternate =>
    .conditional test.sortKeys consequent.sortKeys alternate.sortKeys
  | .array elements => .array (sortKeysAll elements)
  | .keyValues keys =>
    .keyValues ((sortKeysEntries keys).mergeSort fun a b => decide (a.1 ≤ b.1))

def sortKeysOption : Option Node → Option Node
  | none => none
  | some n => some n.sortKeys

def sortKeysAll : List Node → List Node
  | [] => []
  | n :: rest => n.sortKeys :: sortKeysAll rest

def sortKeysEntry : Entry Node → Entry Node
  | .single n => .single n.sortKeys
  | .many ns => .many (sortKeysAll ns)

def sortKeysEntries : List (String × Entry Node) → List (String × Entry Node)
  | [] => []
  | (key, entry) :: rest => (key, sortKeysEntry entry) :: sortKeysEntries rest

end

open Json

/-- What a field holds with every tree changed and the keys in another order. -/
def Slot.map (order : {β : Type} → List (String × β) → List (String × β)) (g : Node → Node) :
    Slot → Slot
  | text s => text s
  | flag b => flag b
  | literal v => literal v
  | node n => node (g n)
  | optional n => optional (n.map g)
  | list ns => list (ns.map g)
  | keys ks => keys (order (ks.map fun k => (k.1, k.2.map g)))

/-- A change of JSON values and one of trees that do no more than rearrange the members of objects
and the keys of named arguments, both in the same way. -/
structure Rearranges (order : {β : Type} → List (String × β) → List (String × β))
    (f : Json → Json) (g : Node → Node) : Prop where
  perm : ∀ {β : Type} (l : List (String × β)), (order l).Perm l
  natural : ∀ {β γ : Type} (h : β → γ) (l : List (String × β)),
    order (l.map fun m => (m.1, h m.2)) = (order l).map fun m => (m.1, h m.2)
  leaf : ∀ j : Json, j.depth = 0 → f j = j
  array : ∀ js, f (.array js) = .array (js.map f)
  object : ∀ ms, f (.object ms) = .object (order (ms.map fun m => (m.1, f m.2)))
  tag : ∀ n : Node, (g n).tag = n.tag
  slots : ∀ n : Node, (g n).slots = n.slots.map fun s => (s.1, s.2.map order g)

theorem sortKeysAll_eq (ns : List Node) : sortKeysAll ns = ns.map sortKeys := by
  induction ns with
  | nil => rfl
  | cons n ns ih => rw [sortKeysAll, ih, List.map_cons]

theorem sortKeysOption_eq (n : Option Node) : sortKeysOption n = n.map sortKeys := by
  cases n <;> rfl

theorem sortKeysEntry_eq (e : Entry Node) : sortKeysEntry e = e.map sortKeys := by
  cases e with
  | single n => rfl
  | many ns => rw [sortKeysEntry, sortKeysAll_eq, Entry.map]

theorem sortKeysEntries_eq (keys : List (String × Entry Node)) :
    sortKeysEntries keys = keys.map fun k => (k.1, k.2.map sortKeys) := by
  induction keys with
  | nil => rfl
  | cons k keys ih => rw [sortKeysEntries, ih, sortKeysEntry_eq, List.map_cons]

theorem sortedItems_eq (js : List Json) : sortedItems js = js.map sorted := by
  induction js with
  | nil => rfl
  | cons j js ih => rw [sortedItems, ih, List.map_cons]

theorem sortedMembers_eq (ms : List (String × Json)) :
    sortedMembers ms = ms.map fun m => (m.1, m.2.sorted) := by
  induction ms with
  | nil => rfl
  | cons m ms ih => rw [sortedMembers, ih, List.map_cons]

theorem rearranges_id : Rearranges id id id where
  perm _ := .refl _
  natural _ _ := rfl
  leaf _ _ := rfl
  array js := by simp
  object ms := by simp
  tag _ := rfl
  slots n := by
    have hentry : ∀ e : Entry Node, e.map id = e := by
      intro e
      cases e <;> simp [Entry.map]
    cases n <;> simp [slots, Slot.map, hentry]

theorem rearranges_sorted :
    Rearranges (fun l => l.mergeSort fun a b => decide (a.1 ≤ b.1)) sorted sortKeys where
  perm l := List.mergeSort_perm l _
  natural h l := by
    rw [List.map_mergeSort]
    intro a _ b _
    rfl
  leaf j hj := by
    cases j with
    | array js => cases hj
    | object ms => cases hj
    | _ => rfl
  array js := by rw [sorted, sortedItems_eq]
  object ms := by rw [sorted, sortedMembers_eq]
  tag n := by cases n <;> rfl
  slots n := by
    cases n <;> simp [slots, sortKeys, Slot.map, sortKeysAll_eq, sortKeysOption_eq,
      sortKeysEntries_eq]

section

variable {order : {β : Type} → List (String × β) → List (String × β)} {f : Json → Json}
  {g : Node → Node} {room : Nat} {n : Node}

theorem laidList_map {ns : List Node} (h : ∀ c ∈ ns, Laid room (g c) (text (f c.toJson))) :
    LaidList room (ns.map g) (((allToJson ns).map f).map text) := by
  induction ns with
  | nil => exact .nil
  | cons n ns ih =>
    rw [List.forall_mem_cons] at h
    exact .cons h.1 (ih h.2)

theorem laidKeys_map {keys : List (String × Entry Node)}
    (h : ∀ k ∈ keys, LaidEntry room (k.2.map g) (text (f (entryToJson k.2)))) :
    LaidKeys room (keys.map fun k => (k.1, k.2.map g))
      (keys.map fun k => (quoted k.1, text (f (entryToJson k.2)))) := by
  induction keys with
  | nil => exact .nil
  | cons k keys ih =>
    rw [List.forall_mem_cons] at h
    exact .cons h.1 (ih h.2)

theorem laidFields_map {slots : List (String × Slot)}
    (h : ∀ s ∈ slots, ∀ j, s.2.toJson? = some j →
      LaidSlot room (s.2.map order g) (text (f j))) :
    LaidFields room (slots.map fun s => (s.1, s.2.map order g))
      ((slots.filterMap fun s => s.2.toJson?.map (s.1, ·)).map
        fun m => (quoted m.1, text (f m.2))) := by
  induction slots with
  | nil => exact .nil
  | cons s slots ih =>
    rw [List.forall_mem_cons] at h
    obtain ⟨name, s⟩ := s
    cases hwritten : s.toJson? with
    | none =>
      rw [List.filterMap_cons_none (by rw [hwritten, Option.map_none])]
      obtain rfl : s = .optional none := by
        cases s with
        | optional o =>
          cases o with
          | none => rfl
          | some n => cases hwritten
        | _ => cases hwritten
      exact .absent (ih h.2)
    | some j =>
      rw [List.filterMap_cons_some (by rw [hwritten, Option.map_some])]
      exact .cons (h.1 j hwritten) (ih h.2)

namespace Rearranges

variable (hr : Rearranges order f g)

include hr

theorem laidEntry {e : Entry Node} (hdepth : (entryToJson e).depth ≤ room)
    (hnodes : ∀ c ∈ e.values, ∀ room, c.toJson.depth ≤ room →
      Laid room (g c) (text (f c.toJson))) :
    LaidEntry room (e.map g) (text (f (entryToJson e))) := by
  cases e with
  | single n => exact .single (hnodes n (List.mem_singleton_self n) room hdepth)
  | many ns =>
    rw [entryToJson, depth] at hdepth
    obtain ⟨room, rfl⟩ : ∃ r, room = r + 1 := ⟨room - 1, by omega⟩
    have hitems := itemsDepth_le.mp (Nat.le_of_succ_le_succ hdepth)
    rw [allToJson_eq, List.forall_mem_map] at hitems
    rw [entryToJson, hr.array, text_array]
    exact .many (laidList_map fun c hc => hnodes c hc room (hitems c hc))

theorem laidSlot {s : Slot} {j : Json} (hj : s.toJson? = some j) (hdepth : j.depth ≤ room)
    (hnodes : ∀ c ∈ s.nodes, ∀ room, c.toJson.depth ≤ room →
      Laid room (g c) (text (f c.toJson))) :
    LaidSlot room (s.map order g) (text (f j)) := by
  cases s with
  | text s =>
    cases hj
    rw [hr.leaf _ rfl]
    exact .text s
  | flag b =>
    cases hj
    rw [hr.leaf _ rfl]
    exact .flag b
  | literal v =>
    cases hj
    have hleaf : v.toJson.depth = 0 := by cases v <;> rfl
    rw [hr.leaf _ hleaf]
    exact .literal v
  | node n =>
    cases hj
    exact .node (hnodes n (List.mem_singleton_self n) room hdepth)
  | optional o =>
    cases o with
    | none => cases hj
    | some n =>
      cases hj
      exact .present (hnodes n (List.mem_singleton_self n) room hdepth)
  | list ns =>
    cases hj
    rw [depth] at hdepth
    obtain ⟨room, rfl⟩ : ∃ r, room = r + 1 := ⟨room - 1, by omega⟩
    have hitems := itemsDepth_le.mp (Nat.le_of_succ_le_succ hdepth)
    rw [allToJson_eq, List.forall_mem_map] at hitems
    rw [hr.array, text_array]
    exact .list (laidList_map fun c hc => hnodes c hc room (hitems c hc))
  | keys ks =>
    cases hj
    rw [depth] at hdepth
    obtain ⟨room, rfl⟩ : ∃ r, room = r + 1 := ⟨room - 1, by omega⟩
    have hmembers := membersDepth_le.mp (Nat.le_of_succ_le_succ hdepth)
    rw [keysToJson_eq, List.forall_mem_map] at hmembers
    have hvalues : (order ((ks.map fun k => (k.1, entryToJson k.2)).map fun m => (m.1, f m.2))) =
        (order ks).map fun k => (k.1, f (entryToJson k.2)) := by
      rw [List.map_map]
      exact hr.natural (fun e => f (entryToJson e)) ks
    rw [hr.object, text_object, keysToJson_eq, hvalues, List.map_map, Slot.map,
      hr.natural (Entry.map g)]
    -- The keys stand in their new order on both sides, each with the text of its own value.
    refine .keys (laidKeys_map fun k hk => ?_)
    have hmem : k ∈ ks := (hr.perm ks).mem_iff.mp hk
    exact hr.laidEntry (hmembers k hmem) fun c hc => hnodes c (List.mem_flatMap_of_mem hmem hc)

theorem laid (hdepth : n.toJson.depth ≤ room) : Laid room (g n) (text (f n.toJson)) := by
  induction n using induct_children generalizing room with
  | h n ih =>
    rw [toJson_eq, tagged, depth] at hdepth
    obtain ⟨room, rfl⟩ : ∃ r, room = r + 1 := ⟨room - 1, by omega⟩
    have hmembers := membersDepth_le.mp (Nat.le_of_succ_le_succ hdepth)
    rw [List.forall_mem_cons] at hmembers
    have hfields : LaidFields room (g n).slots
        (n.written.map fun m => (quoted m.1, text (f m.2))) := by
      rw [hr.slots]
      apply laidFields_map
      intro s hs j hj
      have hwritten : (s.1, j) ∈ n.written :=
        List.mem_filterMap.mpr ⟨s, hs, by rw [hj, Option.map_some]⟩
      apply hr.laidSlot hj (hmembers.2 _ hwritten)
      intro c hc room hroom
      apply ih c _ hroom
      rw [children_eq]
      exact List.mem_flatMap_of_mem hs hc
    rw [toJson_eq, tagged, hr.object, text_object]
    refine Laid.object hfields (List.forall_mem_nil _) ?_
    rw [List.append_nil, hr.tag]
    refine ((hr.perm _).map _).trans (.of_eq ?_)
    rw [List.map_map, List.map_cons, Function.comp_apply, hr.leaf _ rfl]
    rfl

theorem exists_child {c : Node} (hc : c ∈ (g n).children) : ∃ c' ∈ n.children, c = g c' := by
  rw [children_eq, hr.slots, List.flatMap_map] at hc
  obtain ⟨s, hs, hc⟩ := List.mem_flatMap.mp hc
  have hbelow : ∃ c' ∈ s.2.nodes, c = g c' := by
    obtain ⟨name, s⟩ := s
    cases s with
    | text | flag | literal => cases hc
    | node n => exact ⟨n, List.mem_singleton_self n, List.mem_singleton.mp hc⟩
    | optional o =>
      cases o with
      | none => cases hc
      | some n => exact ⟨n, List.mem_singleton_self n, List.mem_singleton.mp hc⟩
    | list ns =>
      obtain ⟨n, hn, rfl⟩ := List.mem_map.mp hc
      exact ⟨n, hn, rfl⟩
    | keys ks =>
      obtain ⟨entry, hentry, hc⟩ := List.mem_flatMap.mp hc
      obtain ⟨k, hk, rfl⟩ := List.mem_map.mp ((hr.perm _).mem_iff.mp hentry)
      rw [Entry.values_map] at hc
      obtain ⟨n, hn, rfl⟩ := List.mem_map.mp hc
      exact ⟨n, List.mem_flatMap_of_mem hk hn, rfl⟩
  obtain ⟨c', hc', rfl⟩ := hbelow
  refine ⟨c', ?_, rfl⟩
  rw [children_eq]
  exact List.mem_flatMap_of_mem hs hc'

theorem exists_part {m : Node} (hm : m ∈ (g n).parts) : ∃ m' ∈ n.parts, m = g m' := by
  induction n using induct_children with
  | h n ih =>
    rw [parts_eq, List.mem_cons, List.mem_flatMap] at hm
    rcases hm with rfl | ⟨c, hc, hm⟩
    · exact ⟨n, self_mem_parts n, rfl⟩
    · obtain ⟨c', hc', rfl⟩ := hr.exists_child hc
      obtain ⟨m', hm', rfl⟩ := ih c' hc' hm
      exact ⟨m', mem_parts_of_child hc' hm', rfl⟩

end Rearranges

theorem nodup_keys_sortKeys
    (hkeys : ∀ keys, .keyValues keys ∈ n.parts → (Keyed.keys keys).Nodup) :
    ∀ keys, .keyValues keys ∈ n.sortKeys.parts → (Keyed.keys keys).Nodup := by
  intro keys hmem
  obtain ⟨m, hm, heq⟩ := rearranges_sorted.exists_part hmem
  cases m with
  | keyValues ks =>
    rw [sortKeys, sortKeysEntries_eq, keyValues.injEq] at heq
    have hperm : (Keyed.keys keys).Perm (Keyed.keys ks) := by
      rw [heq, Keyed.keys, Keyed.keys]
      refine ((List.mergeSort_perm _ _).map _).trans (.of_eq ?_)
      rw [List.map_map]
      rfl
    exact hperm.nodup_iff.mpr (hkeys ks hm)
  | _ => cases heq

theorem literal_of_sortKeys {value : LiteralValue} {raw : String}
    (hmem : .literal value raw ∈ n.sortKeys.parts) : .literal value raw ∈ n.parts := by
  obtain ⟨m, hm, heq⟩ := rearranges_sorted.exists_part hmem
  cases m with
  | literal value' raw' =>
    rw [heq]
    exact hm
  | _ => cases heq

theorem ofText?_of_readAs {t : String} (h : ReadAs maxDepth n t.toList) : ofText? t = some n := by
  obtain ⟨j, hspells, hnode, htag⟩ := h
  rw [ofText?, read?_of_spells hspells, Option.bind_some, ofJson?, if_pos htag, hnode]

/-- A tree is read from each of its layouts, of which its written form is one. The written form with
all names in order is read as the tree with its keys in order. The keys of one node are distinct, as
they are in a map; the numbers are finite, and each of them is a double whose written form is read
as that double. -/
theorem ofText?_laid (n : Node)
    (hkeys : ∀ keys, .keyValues keys ∈ n.parts → (Keyed.keys keys).Nodup)
    (hfinite : ∀ x raw, .literal (.number x) raw ∈ n.parts → x.isFinite = true)
    (hback : ∀ x raw, .literal (.number x) raw ∈ n.parts → x.isFinite = true →
      (JsonNumber.real x).ReadsBack)
    (hdepth : n.toJson.depth ≤ Json.maxDepth) :
    Laid Json.maxDepth n n.wire.toList ∧
      (∀ t : String, Laid Json.maxDepth n t.toList → ofText? t = some n) ∧
      ofText? n.sortedWire = some n.sortKeys := by
  have hnumbers : ∀ x raw, .literal (.number x) raw ∈ n.parts → (JsonNumber.real x).ReadsBack :=
    fun x raw hmem => hback x raw hmem (hfinite x raw hmem)
  have hwire : Laid maxDepth n n.wire.toList := by
    have hlaid := rearranges_id.laid hdepth
    rwa [wire, toText_eq, String.toList_ofList]
  have hsorted : Laid maxDepth n.sortKeys n.sortedWire.toList := by
    have hlaid := rearranges_sorted.laid hdepth
    rwa [sortedWire, toText_eq, String.toList_ofList]
  refine ⟨hwire, fun t ht => ofText?_of_readAs (readAs_of_laid ht hkeys hnumbers), ?_⟩
  apply ofText?_of_readAs
  exact readAs_of_laid hsorted (nodup_keys_sortKeys hkeys) fun x raw hmem =>
    hnumbers x raw (literal_of_sortKeys hmem)

/-- Two keys out of order, one of them with two values. -/
def keyed : Node :=
  .keyValues [
    ("b", .many [.literal (.number (.ofDecimal 15 (-1))) "1.5", plain "x"]),
    ("a", .single .this)]

/-- The tag comes last, two of the nodes are arrays, and a name has two members that say nothing
and one that says what it lacks. -/
def keyedText : String :=
  "\x7b\"keys\":\x7b\"b\":[[\"Literal\",1.5,\"1.5\"]," ++
    "\x7b\"z\":[null],\"name\":\"x\",\"z\":\x7b\x7d," ++
    "\"object\":null,\"type\":\"Identifier\"\x7d],\"a\":[\"ThisExpression\"]\x7d," ++
    "\"type\":\"KeyValueExpression\"\x7d"

theorem laid_keyed : Laid maxDepth keyed keyedText.toList := by
  have hnumber : ∀ x : Binary64, Laid 124 (.literal (.number x) "1.5")
      (arrayText [quoted "Literal", text (.number (.real x)), quoted "1.5"]) := fun x =>
    @Laid.array 123 _ [(quoted "value", _), (quoted "raw", _)]
      (.cons (.literal _) (.cons (.text _) .nil)) rfl
  have hforeign : ∀ j : Json, j.numbers = [] → j.depth ≤ 123 →
      Foreign 123 .identifier (quoted "z", text j) := by
    intro j hnumbers hdepth
    refine ⟨"z", j, ?_, by decide, ?_, hdepth⟩
    · exact read?_of_spells (spells_string "z")
    · exact read?_text (by simp [hnumbers]) (hdepth.trans (by decide))
  have hname : Laid 124 (plain "x") (objectText [
      (quoted "z", text (.array [.null])), (quoted "name", quoted "x"),
      (quoted "z", text (.object [])), (quoted "object", text .null),
      (quoted "type", quoted "Identifier")]) := by
    refine @Laid.object 123 _ [(quoted "name", _), (quoted "object", _)]
      [(quoted "z", text (.array [.null])), (quoted "z", text (.object []))] _
      (.cons (.text _) (.cons .null (.absent .nil))) ?_ (by decide +kernel)
    rw [List.forall_mem_cons, List.forall_mem_singleton]
    exact ⟨hforeign _ rfl (by decide), hforeign _ rfl (by decide)⟩
  have hthis : Laid 125 .this (arrayText [quoted "ThisExpression"]) := @Laid.array 124 _ [] .nil rfl
  have hmany := @LaidEntry.many 124 _ _ (.cons (hnumber (.ofDecimal 15 (-1))) (.cons hname .nil))
  have hkeys := @LaidKeys.cons 125 "b" _ _ _ _ hmany
    (@LaidKeys.cons 125 "a" _ _ _ _ (.single hthis) .nil)
  have htext : keyedText = String.ofList (objectText [(quoted "keys", objectText [
      (quoted "b", arrayText [
        arrayText [quoted "Literal", text (.number (.real (.ofDecimal 15 (-1)))), quoted "1.5"],
        objectText [
          (quoted "z", text (.array [.null])), (quoted "name", quoted "x"),
          (quoted "z", text (.object [])), (quoted "object", text .null),
          (quoted "type", quoted "Identifier")]]),
      (quoted "a", arrayText [quoted "ThisExpression"])]),
    (quoted "type", quoted "KeyValueExpression")]) := by
    decide +kernel
  rw [htext, String.toList_ofList]
  exact @Laid.object 126 keyed [(quoted "keys", _)] [] _ (.cons (@LaidSlot.keys 125 _ _ hkeys) .nil)
    nofun (.swap _ _ _)

theorem ofText?_laid_keyed :
    ofText? keyedText = some keyed ∧ ofText? keyed.sortedWire = some keyed.sortKeys := by
  have hliteral : ∀ x raw, .literal (.number x) raw ∈ keyed.parts → x = .ofDecimal 15 (-1) := by
    intro x raw hmem
    simp only [keyed, parts, allParts, keyParts, entryParts, optionParts, plain, List.mem_cons,
      List.mem_append, List.not_mem_nil, reduceCtorEq, or_false, false_or, Node.literal.injEq,
      LiteralValue.number.injEq] at hmem
    exact hmem.1
  have hlaid := ofText?_laid keyed ?_ ?_ ?_ (by decide)
  · exact ⟨hlaid.2.1 keyedText laid_keyed, hlaid.2.2⟩
  · intro keys hmem
    simp only [keyed, parts, allParts, keyParts, entryParts, optionParts, plain, List.mem_cons,
      List.mem_append, List.not_mem_nil, reduceCtorEq, or_false, Node.keyValues.injEq] at hmem
    subst hmem
    decide
  · intro x raw hmem
    rw [hliteral x raw hmem]
    decide +kernel
  · intro x raw hmem _
    rw [hliteral x raw hmem, JsonNumber.ReadsBack]
    decide +kernel

end

end ExprTree.Node
