/-!
Lists of values with keys, kept in the order in which the keys first occurred. `alter` is the only
change there is: it works on the value of a key in its place, or puts a new key at the end.
`get?_alter` says what is found afterwards, `keys_alter` what the keys are. Where the keys are
distinct, a value is found exactly where it stands, see `get?_eq_some_iff`.
-/

namespace ExprTree

/-- Values with keys in the order of the keys' first occurrences. -/
abbrev Keyed (β : Type) := List (String × β)

namespace Keyed

variable {β : Type}

def keys (m : Keyed β) : List String :=
  m.map (·.1)

def get? (m : Keyed β) (k : String) : Option β :=
  match m with
  | [] => none
  | (k', b) :: rest => if k' = k then some b else get? rest k

/-- The value of a key made from the one it had, if it had one. -/
def alter (m : Keyed β) (k : String) (f : Option β → β) : Keyed β :=
  match m with
  | [] => [(k, f none)]
  | (k', b) :: rest => if k' = k then (k', f (some b)) :: rest else (k', b) :: alter rest k f

/-- The key with this value and no other. -/
def set (m : Keyed β) (k : String) (b : β) : Keyed β :=
  m.alter k fun _ => b

/-- All but one key. -/
def erase (m : Keyed β) (k : String) : Keyed β :=
  m.filter (·.1 ≠ k)

/-- The list of keys that pairs give one after the other, the last value of each. -/
def ofPairs (pairs : List (String × β)) : Keyed β :=
  pairs.foldl (fun m (k, b) => m.set k b) []

theorem get?_alter (m : Keyed β) (k : String) (f : Option β → β) (k' : String) :
    (m.alter k f).get? k' = if k' = k then some (f (m.get? k)) else m.get? k' := by
  induction m with
  | nil =>
    by_cases h : k' = k
    · simp [alter, get?, h]
    · simp [alter, get?, h, Ne.symm h]
  | cons p rest ih =>
    obtain ⟨a, b⟩ := p
    by_cases ha : a = k
    · subst ha
      by_cases h : k' = a
      · simp [alter, get?, h]
      · simp [alter, get?, h, Ne.symm h]
    · by_cases h : k' = k
      · subst h
        simp [alter, get?, ha, ih]
      · by_cases h' : a = k'
        · subst h'
          simp [alter, get?, h]
        · simp [alter, get?, ha, h, h', ih]

theorem keys_alter (m : Keyed β) (k : String) (f : Option β → β) :
    (m.alter k f).keys = if k ∈ m.keys then m.keys else m.keys ++ [k] := by
  induction m with
  | nil => simp [alter, keys]
  | cons p rest ih =>
    obtain ⟨a, b⟩ := p
    by_cases ha : a = k
    · simp [alter, keys, ha]
    · have ha' : ¬k = a := Ne.symm ha
      simp only [keys] at ih
      by_cases hk : k ∈ rest.map (·.1)
      · simp [alter, keys, ha, ha', hk, ih]
      · simp [alter, keys, ha, ha', hk, ih]

/-- What stands in a list after a change was there before, or has the key that was changed. -/
theorem mem_alter {m : Keyed β} {k : String} {f : Option β → β} {p : String × β}
    (h : p ∈ m.alter k f) : p ∈ m ∨ p = (k, f none) ∨ ∃ b, (k, b) ∈ m ∧ p = (k, f (some b)) := by
  induction m with
  | nil => exact .inr (.inl (List.mem_singleton.mp h))
  | cons q rest ih =>
    obtain ⟨a, b⟩ := q
    by_cases ha : a = k
    · subst ha
      simp only [alter, if_true] at h
      rcases List.mem_cons.mp h with rfl | h
      · exact .inr (.inr ⟨b, List.mem_cons_self, rfl⟩)
      · exact .inl (List.mem_cons_of_mem _ h)
    · simp only [alter, ha, if_false] at h
      rcases List.mem_cons.mp h with rfl | h
      · exact .inl List.mem_cons_self
      · rcases ih h with hold | hnew | ⟨b', hmem, hp⟩
        · exact .inl (List.mem_cons_of_mem _ hold)
        · exact .inr (.inl hnew)
        · exact .inr (.inr ⟨b', List.mem_cons_of_mem _ hmem, hp⟩)

/-- Keys that are distinct stay distinct. -/
theorem nodup_keys_alter {m : Keyed β} (hm : m.keys.Nodup) (k : String) (f : Option β → β) :
    (m.alter k f).keys.Nodup := by
  rw [keys_alter]
  split
  · exact hm
  · rename_i hk
    rw [List.nodup_append]
    refine ⟨hm, by simp, ?_⟩
    intro a ha b hb hab
    simp only [List.mem_singleton] at hb
    exact hk (hb ▸ hab ▸ ha)

theorem alter_append {m : Keyed β} {key : String} (hkey : key ∉ m.keys) (rest : Keyed β)
    (f : Option β → β) : Keyed.alter (m ++ rest) key f = m ++ rest.alter key f := by
  induction m with
  | nil => rfl
  | cons p m ih =>
    obtain ⟨k, b⟩ := p
    simp only [Keyed.keys, List.map_cons, List.mem_cons, not_or] at hkey
    simp only [List.cons_append, Keyed.alter, Ne.symm hkey.1, if_false, ih hkey.2]

theorem mem_of_get? {m : Keyed β} {k : String} {b : β} (h : m.get? k = some b) : (k, b) ∈ m := by
  induction m with
  | nil => cases h
  | cons p m ih =>
    obtain ⟨k', b'⟩ := p
    by_cases hk : k' = k
    · obtain rfl : b' = b := by simpa [get?, hk] using h
      simp [hk]
    · simp only [get?, hk, if_false] at h
      exact List.mem_cons_of_mem _ (ih h)

/-- A key has a value exactly if it is one of the keys. -/
theorem isSome_get? (m : Keyed β) (k : String) : (m.get? k).isSome = true ↔ k ∈ m.keys := by
  induction m with
  | nil => simp [get?, keys]
  | cons p m ih =>
    obtain ⟨k', b⟩ := p
    by_cases hk : k' = k
    · simp [get?, keys, hk]
    · simpa [get?, keys, hk, Ne.symm hk] using ih

/-- With distinct keys, the value of a key is the one that it stands with. -/
theorem get?_eq_some_iff {m : Keyed β} (hm : m.keys.Nodup) {k : String} {b : β} :
    m.get? k = some b ↔ (k, b) ∈ m := by
  refine ⟨mem_of_get?, fun h => ?_⟩
  induction m with
  | nil => cases h
  | cons p m ih =>
    obtain ⟨k', b'⟩ := p
    simp only [keys, List.map_cons, List.nodup_cons] at hm
    rcases List.mem_cons.mp h with heq | hmem
    · cases heq
      simp [get?]
    · have hne : k' ≠ k := by
        rintro rfl
        exact hm.1 (List.mem_map_of_mem hmem)
      simpa [get?, hne] using ih hm.2 hmem

/-- With distinct keys, the order of the pairs does not matter to what is found. -/
theorem get?_of_perm {m m' : Keyed β} (hm : m.keys.Nodup) (h : m'.Perm m) (k : String) :
    m'.get? k = m.get? k := by
  have hm' : m'.keys.Nodup := (h.map _).nodup_iff.mpr hm
  refine Option.ext fun b => ?_
  rw [get?_eq_some_iff hm', get?_eq_some_iff hm, h.mem_iff]

theorem get?_eq_head? (m : Keyed β) (k : String) :
    m.get? k = ((m.filter (·.1 = k)).head?).map (·.2) := by
  induction m with
  | nil => rfl
  | cons p m ih =>
    by_cases hk : p.1 = k
    · simp [get?, hk]
    · simp [get?, hk, ih]

/-- For a key that stands in a list once at most, the order of the pairs does not matter. -/
theorem get?_of_perm_once {m m' : Keyed β} {k : String} (h : m'.Perm m)
    (hone : m.countP (·.1 = k) ≤ 1) : m'.get? k = m.get? k := by
  have hfilter := h.filter (·.1 = k)
  have hsame : m'.filter (·.1 = k) = m.filter (·.1 = k) := by
    rw [List.countP_eq_length_filter] at hone
    generalize m.filter (·.1 = k) = found at hfilter hone
    cases found with
    | nil => exact hfilter.eq_nil
    | cons p rest =>
      obtain rfl : rest = [] := by simpa using hone
      exact List.perm_singleton.mp hfilter
  rw [get?_eq_head?, get?_eq_head?, hsame]

theorem get?_append (m m' : Keyed β) (k : String) :
    get? (m ++ m') k = (m.get? k).or (m'.get? k) := by
  induction m with
  | nil => rfl
  | cons p m ih =>
    by_cases hk : p.1 = k
    · simp [get?, hk]
    · simpa [get?, hk] using ih

theorem lookup_eq_get? (m : Keyed β) (k : String) : m.lookup k = m.get? k := by
  induction m with
  | nil => rfl
  | cons p m ih =>
    obtain ⟨k', b⟩ := p
    by_cases hk : k' = k
    · simp [get?, hk]
    · rw [List.lookup_cons, beq_false_of_ne (Ne.symm hk), get?, if_neg hk, ih]

theorem get?_eq_none {m : Keyed β} {k : String} (hk : k ∉ m.keys) : m.get? k = none := by
  rw [← Option.not_isSome_iff_eq_none, isSome_get?]
  exact hk

/-- Distinct keys and what is found for them are all there is. -/
theorem ext {m m' : Keyed β} (hm : m.keys.Nodup) (hkeys : m.keys = m'.keys)
    (hget : ∀ k, m.get? k = m'.get? k) : m = m' := by
  induction m generalizing m' with
  | nil => exact (List.map_eq_nil_iff.mp hkeys.symm).symm
  | cons p m ih =>
    cases m' with
    | nil => cases hkeys
    | cons p' m' =>
      obtain ⟨k, b⟩ := p
      obtain ⟨k', b'⟩ := p'
      obtain ⟨hhead, hrest⟩ := List.cons_eq_cons.mp hkeys
      obtain rfl : k = k' := hhead
      have hrest : keys m = keys m' := hrest
      obtain ⟨hk, hm⟩ := List.nodup_cons.mp hm
      have hk : k ∉ keys m := hk
      obtain rfl : b = b' := by simpa [get?] using hget k
      refine congrArg _ (ih hm hrest fun a => ?_)
      by_cases ha : k = a
      · subst ha
        rw [get?_eq_none hk, get?_eq_none (hrest ▸ hk)]
      · simpa [get?, ha] using hget a

theorem get?_erase (m : Keyed β) (k k' : String) :
    (m.erase k).get? k' = if k' = k then none else m.get? k' := by
  induction m with
  | nil => simp [erase, get?]
  | cons p m ih =>
    obtain ⟨a, b⟩ := p
    simp only [erase] at ih
    by_cases ha : a = k
    · by_cases h : k' = k
      · simpa [erase, ha, h] using ih
      · simpa [erase, ha, h, get?, Ne.symm h] using ih
    · by_cases h : a = k'
      · simp [erase, get?, ← h, ha]
      · simpa [erase, get?, ha, h] using ih

theorem keys_erase (m : Keyed β) (k : String) : (m.erase k).keys = m.keys.filter (· ≠ k) := by
  rw [keys, keys, erase, List.filter_map]
  rfl

theorem nodup_keys_erase {m : Keyed β} (hm : m.keys.Nodup) (k : String) :
    (m.erase k).keys.Nodup := by
  rw [keys_erase]
  exact hm.filter _

theorem foldl_set_append {m rest : Keyed β} (h : (m ++ rest).keys.Nodup) :
    rest.foldl (fun m (k, b) => m.set k b) m = m ++ rest := by
  induction rest generalizing m with
  | nil => simp
  | cons p rest ih =>
    obtain ⟨k, b⟩ := p
    have hk : k ∉ m.keys := by
      simp only [keys, List.map_append, List.map_cons, List.nodup_append] at h
      exact fun hmem => h.2.2 k hmem k List.mem_cons_self rfl
    have hset : m.set k b = m ++ [(k, b)] := by
      rw [set, ← List.append_nil m, alter_append hk, List.append_nil]
      rfl
    simp only [List.foldl_cons, hset]
    rw [ih (by simpa using h), List.append_assoc, List.singleton_append]

/-- Whatever the pairs are, the keys that they give are distinct, and each has a value of its own
among the pairs. -/
theorem ofPairs_spec (pairs : List (String × β)) :
    (ofPairs pairs).keys.Nodup ∧ ∀ p ∈ ofPairs pairs, p ∈ pairs := by
  have hfold : ∀ (rest : List (String × β)) (m : Keyed β), m.keys.Nodup →
      (rest.foldl (fun m (k, b) => m.set k b) m).keys.Nodup ∧
        ∀ p ∈ rest.foldl (fun m (k, b) => m.set k b) m, p ∈ m ∨ p ∈ rest := by
    intro rest
    induction rest with
    | nil => exact fun m hm => ⟨hm, fun p hp => .inl hp⟩
    | cons q rest ih =>
      intro m hm
      obtain ⟨hnodup, hmem⟩ := ih (m.set q.1 q.2) (nodup_keys_alter hm q.1 _)
      refine ⟨hnodup, fun p hp => ?_⟩
      rcases hmem p hp with hset | hrest
      · rcases mem_alter hset with hold | rfl | ⟨-, -, rfl⟩
        · exact .inl hold
        · exact .inr List.mem_cons_self
        · exact .inr List.mem_cons_self
      · exact .inr (List.mem_cons_of_mem q hrest)
  obtain ⟨hnodup, hmem⟩ := hfold pairs [] List.nodup_nil
  exact ⟨hnodup, fun p hp => (hmem p hp).resolve_left List.not_mem_nil⟩

/-- Pairs with distinct keys are a list of keys as they are. -/
theorem ofPairs_eq_self {m : Keyed β} (hm : m.keys.Nodup) : ofPairs m = m :=
  foldl_set_append hm

end Keyed

end ExprTree
