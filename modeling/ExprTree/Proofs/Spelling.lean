import ExprTree.Grammar.Basic
import ExprTree.Parse.Operand
import ExprTree.Proofs.Parts
import ExprTree.Proofs.Stacks

/-!
The characters of a tree from left to right. A repeated key stands at the place of its first value
with all its values; so one more value for a key that is there already moves characters, and one
for a new key does not. Combining operands on a stack keeps the characters as they are.
-/

namespace ExprTree.Accounting

open Parse

mutual

/-- The characters of a tree: its names, the spellings of its literals without the point of a
numeral, and its operators in front of or between the parts. -/
def spell : Node → List Char
  | .compound body => spellAll body
  | .identifier name _ _ => name.toList
  | .literal (.number _) raw => raw.toList.filter (· ≠ '.')
  | .literal _ raw => raw.toList
  | .this => Grammar.standardThisWord.toList
  | .member _ object property => spell object ++ spell property
  | .call callee arguments => spell callee ++ spellAll arguments
  | .unary operator argument _ => operator.toList ++ spell argument
  | .binary operator left right => spell left ++ operator.toList ++ spell right
  | .logical operator left right => spell left ++ operator.toList ++ spell right
  | .conditional test consequent alternate => spell test ++ spell consequent ++ spell alternate
  | .array elements => spellAll elements
  | .keyValues keys => spellKeys keys

def spellAll : List Node → List Char
  | [] => []
  | n :: rest => spell n ++ spellAll rest

/-- A key in front of each of its values. -/
def spellValues (key : String) : List Node → List Char
  | [] => []
  | v :: vs => key.toList ++ '=' :: spell v ++ spellValues key vs

def spellEntry (key : String) : Entry Node → List Char
  | .single v => key.toList ++ '=' :: spell v
  | .many vs => spellValues key vs

def spellKeys : List (String × Entry Node) → List Char
  | [] => []
  | (key, entry) :: rest => spellEntry key entry ++ spellKeys rest

end

/-- No key of named arguments in the tree has several values. -/
def Unrepeated (n : Node) : Prop :=
  ∀ keys, .keyValues keys ∈ n.parts → ∀ key values, (key, .many values) ∉ keys

section

variable {n : Node} {keys : Keyed (Entry Node)} {key : String}

theorem unrepeated_iff :
    Unrepeated n ↔ (∀ keys, n = .keyValues keys → ∀ key values, (key, .many values) ∉ keys) ∧
      ∀ c ∈ n.children, Unrepeated c := by
  have hparts : ∀ n, Unrepeated n ↔ ∀ m ∈ n.parts, ∀ keys, m = .keyValues keys →
      ∀ key values, (key, .many values) ∉ keys := by
    refine fun n => ⟨?_, fun h keys hkeys => h _ hkeys keys rfl⟩
    rintro h m hm keys rfl
    exact h keys hm
  rw [hparts, Node.forall_parts_iff]
  simp only [hparts]

/-- In a tree without repeated keys its children have none either. -/
theorem Unrepeated.child {c : Node} (h : Unrepeated n) (hc : c ∈ n.children) : Unrepeated c :=
  (unrepeated_iff.mp h).2 c hc

theorem unrepeated_keyValues_iff :
    Unrepeated (.keyValues keys) ↔
      ∀ k ∈ keys, (∀ values, k.2 ≠ .many values) ∧ ∀ v ∈ k.2.values, Unrepeated v := by
  rw [unrepeated_iff]
  constructor
  · rintro ⟨hsingle, hvalues⟩ k hk
    refine ⟨fun values hmany => hsingle keys rfl k.1 values (hmany ▸ hk), fun v hv => ?_⟩
    exact hvalues v (List.mem_flatMap_of_mem hk hv)
  · refine fun h => ⟨?_, fun v hv => ?_⟩
    · rintro _ ⟨⟩ key values hk
      exact (h _ hk).1 values rfl
    · obtain ⟨k, hk, hv⟩ := List.mem_flatMap.mp hv
      exact (h k hk).2 v hv

theorem spellEntry_eq (key : String) (entry : Entry Node) :
    spellEntry key entry = spellValues key entry.values := by
  cases entry <;> simp [spellEntry, spellValues, Entry.values]

theorem spellValues_append (key : String) (vs ws : List Node) :
    spellValues key (vs ++ ws) = spellValues key vs ++ spellValues key ws := by
  induction vs with
  | nil => rfl
  | cons v vs ih => simp only [List.cons_append, spellValues, ih, List.append_assoc]

/-- One more value for a key adds the key and the value, and at the end if the key is new. -/
theorem spellKeys_addValue (keys : Keyed (Entry Node)) (key : String) (value : Node) :
    (spellKeys (addValue keys key value)).Perm
        (spellKeys keys ++ (key.toList ++ '=' :: spell value)) ∧
      (Unrepeated (.keyValues (addValue keys key value)) →
        spellKeys (addValue keys key value) =
          spellKeys keys ++ (key.toList ++ '=' :: spell value)) := by
  induction keys with
  | nil => simp [addValue, Keyed.alter, spellKeys, spellEntry]
  | cons k keys ih =>
    obtain ⟨k, entry⟩ := k
    by_cases hk : k = key
    · subst hk
      have hadd : addValue ((k, entry) :: keys) k value = (k, entry.push value) :: keys := by
        simp [addValue, Keyed.alter]
      rw [hadd]
      constructor
      · have hpush : spellEntry k (entry.push value) =
            spellEntry k entry ++ (k.toList ++ '=' :: spell value) := by
          simp only [spellEntry_eq, Entry.values_push, spellValues_append, spellValues,
            List.append_nil]
        rw [spellKeys, spellKeys, hpush]
        generalize k.toList ++ '=' :: spell value = added
        rw [List.append_assoc, List.append_assoc]
        exact List.perm_append_comm.append_left _
      · intro h
        exact absurd rfl ((unrepeated_keyValues_iff.mp h _ List.mem_cons_self).1 _)
    · have hadd : addValue ((k, entry) :: keys) key value =
          (k, entry) :: addValue keys key value := by
        simp [addValue, Keyed.alter, hk]
      rw [hadd]
      simp only [spellKeys, List.append_assoc]
      refine ⟨ih.1.append_left _, fun h => ?_⟩
      rw [ih.2]
      rw [unrepeated_keyValues_iff, List.forall_mem_cons] at h
      exact unrepeated_keyValues_iff.mpr h.2

/-- If no key is repeated with one more value, none was before, and the value has none inside. -/
theorem unrepeated_of_addValue {value : Node}
    (h : Unrepeated (.keyValues (addValue keys key value))) :
    Unrepeated (.keyValues keys) ∧ Unrepeated value := by
  rw [unrepeated_keyValues_iff] at h ⊢
  induction keys with
  | nil =>
    refine ⟨List.forall_mem_nil _, (h (key, .single value) List.mem_cons_self).2 value ?_⟩
    simp [Entry.values]
  | cons k keys ih =>
    obtain ⟨k, entry⟩ := k
    by_cases hk : k = key
    · simp only [addValue, Keyed.alter, hk, if_true, List.forall_mem_cons] at h
      exact absurd rfl (h.1.1 _)
    · simp only [addValue, Keyed.alter, hk, if_false, List.forall_mem_cons] at h
      obtain ⟨hkeys, hvalue⟩ := ih h.2
      exact ⟨List.forall_mem_cons.mpr ⟨h.1, hkeys⟩, hvalue⟩

theorem spell_ofOperator (operator : String) (left right : Node) :
    spell (.ofOperator operator left right) = spell left ++ operator.toList ++ spell right := by
  unfold Node.ofOperator
  split <;> simp only [spell]

theorem unrepeated_ofOperator {operator : String} {left right : Node}
    (h : Unrepeated (.ofOperator operator left right)) : Unrepeated left ∧ Unrepeated right := by
  unfold Node.ofOperator at h
  split at h <;> exact ⟨h.child (by simp [Node.children]), h.child (by simp [Node.children])⟩

/-- The characters of a stack: its operands with the operators between them, the last of each
first. -/
def spellBetween : List Node → List (String × Int) → List Char
  | [], _ => []
  | n :: _, [] => spell n
  | right :: operands, (operator, _) :: operators =>
    spellBetween operands operators ++ operator.toList ++ spell right

def spellStack (s : OperatorStack) : List Char :=
  spellBetween s.operands s.operators

theorem spellStack_combine (right left : Node) (operands : List Node) (operator : String)
    (precedence : Int) (operators : List (String × Int)) :
    spellStack ⟨.ofOperator operator left right :: operands, operators⟩ =
      spellStack ⟨right :: left :: operands, (operator, precedence) :: operators⟩ := by
  cases operators with
  | nil => simp [spellStack, spellBetween, spell_ofOperator]
  | cons o operators => simp [spellStack, spellBetween, spell_ofOperator]

end

end ExprTree.Accounting
