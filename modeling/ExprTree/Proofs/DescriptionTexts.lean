import ExprTree.Grammar.Description
import ExprTree.Proofs.JsonText
import Mathlib.Data.List.Nodup

/-!
The texts of a description. Its fields are looked up by name, so it does not matter in which order
they stand, and a field that is as in the standard description need not be there at all; an array
gives the same look-ups, with the names taken from the order of the fields. What a description holds
is all that its own text needs to be read back: its operators are distinct and their precedences
have 32 bits.
-/

namespace ExprTree

namespace Description

open Json

/-- The members that a description is written with. -/
def members (d : Description) : List (String × Json) :=
  [("extend_defaults", .bool d.extendDefaults),
    ("unary_ops", .array (d.unary.map .string)),
    ("binary_ops", .object (d.binary.pairs.map fun (op, p) => (op, .number (.integer p)))),
    ("remove_unary_ops", .array (d.removedUnary.map .string)),
    ("remove_binary_ops", .array (d.removedBinary.map .string)),
    ("identifier_chars", .string d.letters),
    ("this_keyword", (d.thisWord.map .string).getD .null)]

/-- A field is there as it is written, or it is left out and as in the standard description. -/
def Given (field? : String → Option Json) (m : String × Json) : Prop :=
  field? m.1 = some m.2 ∨ field? m.1 = none ∧ m ∈ standard.members

/-- What is read for a field that may be left out. -/
def valueOf {α : Type} (found : Option Json) (ofJson? : Json → Option α) (default : α) :
    Option α :=
  match found with
  | none => some default
  | some j => ofJson? j

section

variable {d : Description} {j : Json} {field? : String → Option Json}
  {given : List (String × Json)}

theorem names_members (d : Description) : d.members.map (·.1) = fields := rfl

theorem strings?_array (ss : List String) : strings? (.array (ss.map .string)) = some ss :=
  mapM_eq_some fun _ _ => rfl

theorem precedences?_object (ps : Precedences) :
    precedences? (.object (ps.pairs.map fun (op, p) => (op, .number (.integer p)))) = some ps := by
  have hpairs : (ps.pairs.map fun (op, p) => (op, Json.number (.integer p))).mapM
      (fun m => m.2.integer?.map (m.1, ·)) = some ps.pairs :=
    mapM_eq_some fun _ _ => rfl
  rw [precedences?, hpairs]
  exact ps.ofPairs?_pairs

theorem optionalString?_getD (w : Option String) :
    optionalString? ((w.map .string).getD .null) = some w := by
  cases w <;> rfl

theorem assemble?_eq (field? : String → Option Json) : assemble? field? = (do
    return {
      extendDefaults := ← valueOf (field? "extend_defaults") Json.bool? standard.extendDefaults
      unary := ← valueOf (field? "unary_ops") strings? standard.unary
      binary := ← valueOf (field? "binary_ops") precedences? standard.binary
      removedUnary := ← valueOf (field? "remove_unary_ops") strings? standard.removedUnary
      removedBinary := ← valueOf (field? "remove_binary_ops") strings? standard.removedBinary
      letters := ← valueOf (field? "identifier_chars") Json.string? standard.letters
      thisWord := ← valueOf (field? "this_keyword") optionalString? standard.thisWord }) :=
  rfl

theorem valueOf_of_given {α : Type} {name : String} (ofJson? : Json → Option α) (default v : α)
    (h : Given field? (name, j)) (hv : ofJson? j = some v)
    (hdefault : (name, j) ∈ standard.members → v = default) :
    valueOf (field? name) ofJson? default = some v := by
  rcases h with hfound | ⟨hnone, hmem⟩
  · dsimp only at hfound
    rw [hfound]
    exact hv
  · dsimp only at hnone
    rw [hnone, hdefault hmem]
    rfl

/-- A description is put together from its fields. -/
theorem assemble?_of_given (h : ∀ m ∈ d.members, Given field? m) :
    assemble? field? = some d := by
  simp only [members, List.forall_mem_cons] at h
  obtain ⟨hextend, hunary, hbinary, hnounary, hnobinary, hletters, hthis, -⟩ := h
  have hextend := valueOf_of_given Json.bool? standard.extendDefaults d.extendDefaults hextend rfl
    (by simp [members, standard])
  have hunary := valueOf_of_given strings? standard.unary d.unary hunary (strings?_array d.unary)
    (by simp [members, standard])
  have hbinary := valueOf_of_given precedences? standard.binary d.binary hbinary
    (precedences?_object d.binary)
    (by simp [members, standard, Precedences.empty, Precedences.ext_iff])
  have hnounary := valueOf_of_given strings? standard.removedUnary d.removedUnary hnounary
    (strings?_array d.removedUnary) (by simp [members, standard])
  have hnobinary := valueOf_of_given strings? standard.removedBinary d.removedBinary hnobinary
    (strings?_array d.removedBinary) (by simp [members, standard])
  have hletters := valueOf_of_given Json.string? standard.letters d.letters hletters rfl
    (by simp [members, standard])
  have hthis := valueOf_of_given optionalString? standard.thisWord d.thisWord hthis
    (optionalString?_getD d.thisWord) (by cases hw : d.thisWord <;> simp [members, standard])
  rw [assemble?_eq, hextend, hunary, hbinary, hnounary, hnobinary, hletters, hthis]
  rfl

theorem nodup_names (d : Description) : (d.members.map (·.1)).Nodup := by
  rw [names_members]
  decide

theorem nodup_given_names (hdistinct : given.Nodup) (hmem : ∀ m ∈ given, m ∈ d.members) :
    (given.map (·.1)).Nodup :=
  List.Nodup.map_on (fun m hm m' hm' =>
    List.inj_on_of_nodup_map (nodup_names d) (hmem m hm) (hmem m' hm')) hdistinct

/-- In members of a description that leave out nothing but defaults, every field is found. -/
theorem given_lookup (hdistinct : given.Nodup) (hmem : ∀ m ∈ given, m ∈ d.members)
    (hdefault : ∀ m ∈ d.members, m ∉ given → m ∈ standard.members) :
    ∀ m ∈ d.members, Given (given.lookup ·) m := by
  have hnames := nodup_given_names hdistinct hmem
  intro m hm
  by_cases hgiven : m ∈ given
  · left
    exact (Keyed.lookup_eq_get? given m.1).trans ((Keyed.get?_eq_some_iff hnames).mpr hgiven)
  · right
    refine ⟨(Keyed.lookup_eq_get? given m.1).trans ?_, hdefault m hm hgiven⟩
    apply Keyed.get?_eq_none
    intro hname
    obtain ⟨m', hm', heq⟩ := List.mem_map.mp hname
    have hsame : m = m' := List.inj_on_of_nodup_map (nodup_names d) hm (hmem m' hm') heq.symm
    rw [hsame] at hgiven
    exact hgiven hm'

/-- The members of a description in any order, without some that are as in the standard one. -/
theorem ofJson?_object (hdistinct : given.Nodup)
    (hmem : ∀ m ∈ given, m ∈ d.members)
    (hdefault : ∀ m ∈ d.members, m ∉ given → m ∈ standard.members) :
    ofJson? (.object given) = some d := by
  have hall : (given.map (·.1)).all (· ∈ fields) = true := by
    rw [List.all_eq_true]
    intro name hname
    obtain ⟨m, hm, rfl⟩ := List.mem_map.mp hname
    exact decide_eq_true (names_members d ▸ List.mem_map_of_mem (hmem m hm))
  rw [ofJson?, if_pos ⟨hall, nodup_given_names hdistinct hmem⟩]
  exact assemble?_of_given (given_lookup hdistinct hmem hdefault)

theorem zip_map_take {α β : Type} (ms : List (α × β)) (n : Nat) :
    (ms.map (·.1)).zip ((ms.take n).map (·.2)) = ms.take n := by
  induction ms generalizing n with
  | nil => simp
  | cons m ms ih =>
    cases n with
    | zero => simp
    | succ n => rw [List.take_succ_cons, List.map_cons, List.map_cons, List.zip_cons_cons, ih]

/-- The values of the fields in their order, without some at the end that are as in the standard
description. -/
theorem ofJson?_array {n : Nat}
    (hdefault : ∀ m ∈ d.members.drop n, m ∈ standard.members) :
    ofJson? (.array ((d.members.take n).map (·.2))) = some d := by
  have hzip : fields.zip ((d.members.take n).map (·.2)) = d.members.take n := by
    rw [← names_members d]
    exact zip_map_take d.members n
  have hlength : ((d.members.take n).map (·.2)).length ≤ fields.length := by
    rw [List.length_map, ← names_members d, List.length_map]
    exact List.length_take_le' n d.members
  rw [ofJson?, if_pos hlength, hzip]
  refine assemble?_of_given (given_lookup ?_ (fun m hm => List.mem_of_mem_take hm) ?_)
  · exact (List.Nodup.of_map _ (nodup_names d)).sublist (List.take_sublist n d.members)
  · intro m hm hnot
    rw [← List.take_append_drop n d.members, List.mem_append] at hm
    exact hdefault m (hm.resolve_left hnot)

/-- The members of a description are written in a form that is read back. -/
theorem written_member {m : String × Json} (hm : m ∈ d.members) :
    m.2.depth ≤ 1 ∧ ∀ x ∈ m.2.numbers, x.ReadsBack := by
  have hstrings : ∀ ss : List String, (Json.array (ss.map .string)).depth ≤ 1 ∧
      ∀ x ∈ (Json.array (ss.map .string)).numbers, x.ReadsBack := by
    intro ss
    refine ⟨Nat.succ_le_succ (itemsDepth_le.mpr ?_), ?_⟩
    · simp [depth]
    · simp [numbers, itemsNumbers_eq, List.flatMap_map]
  simp only [members, List.mem_cons, List.not_mem_nil, or_false] at hm
  rcases hm with rfl | rfl | rfl | rfl | rfl | rfl | rfl
  · simp [depth, numbers]
  · exact hstrings d.unary
  · refine ⟨Nat.succ_le_succ (membersDepth_le.mpr ?_), ?_⟩
    · intro m hm
      obtain ⟨p, -, rfl⟩ := List.mem_map.mp hm
      exact Nat.le_refl 0
    · intro x hx
      simp only [numbers, membersNumbers_eq, List.flatMap_map, List.mem_flatMap,
        List.mem_singleton] at hx
      obtain ⟨p, hp, rfl⟩ := hx
      have hbounds : IsPrecedence p.2 := d.binary.bounded p hp
      rw [IsPrecedence] at hbounds
      exact JsonNumber.readsBack_integer (by omega) (by omega)
  · exact hstrings d.removedUnary
  · exact hstrings d.removedBinary
  · simp [depth, numbers]
  · cases d.thisWord <;> simp [depth, numbers]

theorem ofText?_toText (hnumbers : ∀ x ∈ j.numbers, x.ReadsBack) (hdepth : j.depth ≤ maxDepth) :
    ofText? j.toText = ofJson? j := by
  rw [ofText?, toText_eq, String.toList_ofList, read?_text hnumbers hdepth, Option.bind_some]

theorem ofText?_object (hdistinct : given.Nodup)
    (hmem : ∀ m ∈ given, m ∈ d.members)
    (hdefault : ∀ m ∈ d.members, m ∉ given → m ∈ standard.members) :
    ofText? (Json.object given).toText = some d := by
  rw [ofText?_toText, ofJson?_object hdistinct hmem hdefault]
  · rw [numbers, membersNumbers_eq]
    intro x hx
    obtain ⟨m, hm, hx⟩ := List.mem_flatMap.mp hx
    exact (written_member (hmem m hm)).2 x hx
  · have hbelow := membersDepth_le.mpr fun m hm => (written_member (hmem m hm)).1
    rw [depth, maxDepth]
    omega

theorem ofText?_array {n : Nat}
    (hdefault : ∀ m ∈ d.members.drop n, m ∈ standard.members) :
    ofText? (Json.array ((d.members.take n).map (·.2))).toText = some d := by
  have hmem : ∀ j ∈ (d.members.take n).map (·.2), ∃ m ∈ d.members, m.2 = j := by
    intro j hj
    obtain ⟨m, hm, rfl⟩ := List.mem_map.mp hj
    exact ⟨m, List.mem_of_mem_take hm, rfl⟩
  rw [ofText?_toText, ofJson?_array hdefault]
  · rw [numbers, itemsNumbers_eq]
    intro x hx
    obtain ⟨j, hj, hx⟩ := List.mem_flatMap.mp hx
    obtain ⟨m, hm, rfl⟩ := hmem j hj
    exact (written_member hm).2 x hx
  · have hbelow : itemsDepth ((d.members.take n).map (·.2)) ≤ 1 := itemsDepth_le.mpr fun j hj => by
      obtain ⟨m, hm, rfl⟩ := hmem j hj
      exact (written_member hm).1
    rw [depth, maxDepth]
    omega

theorem ofText?_text (d : Description) : ofText? d.text = some d :=
  ofText?_object (List.Nodup.of_map _ (nodup_names d)) (fun _ hm => hm)
    fun _ hm hnot => absurd hm hnot

/-- A description is read back from its text, and from any text of its members in any order,
of which those that are as in the standard description may be left out, or of the values alone in
the order of the fields, of which the last may be left out then. The description that any text gives
is read back from its own text, so both texts describe the same grammar or have the same error. -/
theorem ofText?_spellings :
    (∀ d : Description, ofText? d.text = some d ∧
      (∀ given : List (String × Json), given.Nodup → (∀ m ∈ given, m ∈ d.members) →
        (∀ m ∈ d.members, m ∉ given → m ∈ standard.members) →
          ofText? (Json.object given).toText = some d ∧
          ∀ source : String, Json.read? source.toList = some (.object given) →
            ofText? source = some d) ∧
      ∀ n, (∀ m ∈ d.members.drop n, m ∈ standard.members) →
        ofText? (Json.array ((d.members.take n).map (·.2))).toText = some d ∧
        ∀ source : String,
          Json.read? source.toList = some (.array ((d.members.take n).map (·.2))) →
            ofText? source = some d) ∧
    ∀ (source : String) (d : Description), ofText? source = some d →
      ofText? d.text = some d ∧ Grammar.ofText d.text = Grammar.ofText source := by
  have hsource : ∀ {source : String} {j : Json} {d : Description},
      Json.read? source.toList = some j → ofJson? j = some d → ofText? source = some d := by
    intro source j d hread hj
    rw [ofText?, hread, Option.bind_some, hj]
  refine ⟨fun d => ⟨ofText?_text d, ?_, ?_⟩, ?_⟩
  · intro given hdistinct hmem hdefault
    exact ⟨ofText?_object hdistinct hmem hdefault, fun source hread =>
      hsource hread (ofJson?_object hdistinct hmem hdefault)⟩
  · intro n hdefault
    exact ⟨ofText?_array hdefault, fun source hread =>
      hsource hread (ofJson?_array hdefault)⟩
  · intro source d h
    have hback := ofText?_text d
    refine ⟨hback, ?_⟩
    rw [Grammar.ofText, Grammar.ofText, hback, h]

/-- A description with a quote, a line break and a repeated operator in its texts. -/
def unusual : Description :=
  ⟨true, ["a\"b", "a\"b"], ⟨[("^", 10), ("é\n", -0x80000000)], by decide, by decide⟩, [],
    ["%"], "@", none⟩

/-- Three of its fields are left out here, and the others stand in another order. -/
theorem ofText?_spellings_unusual :
    let given : List (String × Json) := [
      ("identifier_chars", .string "@"), ("remove_binary_ops", .array [.string "%"]),
      ("binary_ops", .object [("^", .number (.integer 10)),
        ("é\n", .number (.integer (-0x80000000)))]),
      ("unary_ops", .array [.string "a\"b", .string "a\"b"])]
    ofText? (Json.object given).toText = some unusual ∧ ofText? unusual.text = some unusual ∧
      Grammar.ofText unusual.text = Grammar.ofText (Json.object given).toText := by
  intro given
  obtain ⟨hspellings, hsame⟩ := ofText?_spellings
  have hdistinct : given.Nodup := List.Nodup.of_map (·.1) (by decide)
  have hmem : ∀ m ∈ given, m ∈ unusual.members := by simp [given, members, unusual]
  have hdefault : ∀ m ∈ unusual.members, m ∉ given → m ∈ standard.members := by
    simp [given, members, unusual, standard]
  obtain ⟨hread, -⟩ := (hspellings unusual).2.1 given hdistinct hmem hdefault
  exact ⟨hread, hsame _ unusual hread⟩

end

end Description

end ExprTree
