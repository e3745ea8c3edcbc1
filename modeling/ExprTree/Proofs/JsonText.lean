import ExprTree.Json.Reader
import ExprTree.Json.Writer
import ExprTree.Proofs.Decimals
import Mathlib.Data.List.Forall2

/-!
The texts of JSON values. `Spells` says that a text is read as a value wherever a value may stand,
up to what stands after it: the end of the text, a comma or a closing bracket. The text of an array
is put together from any texts of its items, that of an object from any texts of its members. So the
written form of a value is read as that value, if its levels are not too many and its numbers are
read back one by one, as integers of 64 bits always are.
-/

namespace ExprTree

namespace JsonNumber

/-- The written form of a number is read as that number. -/
def ReadsBack (x : JsonNumber) : Prop :=
  read? x.text = some (x, [])

/-- Decimal digits are written without zeros in front. -/
theorem head?_toDigits {n : Nat} (hn : 0 < n) : (Nat.toDigits 10 n).head? ≠ some '0' := by
  induction n using Nat.strong_induction_on with
  | _ n ih =>
    by_cases hsmall : n < 10
    · have hdigit : ∀ d < 10, 0 < d → some (Nat.digitChar d) ≠ some '0' := by decide
      rw [Nat.toDigits_of_lt_base hsmall]
      exact hdigit n hsmall hn
    · have hleading := ih (n / 10) (by omega) (by omega)
      rw [Nat.toDigits_of_base_le (by omega) (by omega),
        List.head?_append_of_ne_nil _ Nat.toDigits_ne_nil]
      exact hleading

theorem isAdmitted_toDigits (n : Nat) : isAdmitted ⟨Nat.toDigits 10 n, none, none⟩ = true := by
  have hne : (Nat.toDigits 10 n).isEmpty = false := by
    simp [List.isEmpty_eq_false_iff]
  have hfirst : (Nat.toDigits 10 n).head? ≠ some '0' ∨ (Nat.toDigits 10 n).length = 1 := by
    by_cases hn : 0 < n
    · exact .inl (head?_toDigits hn)
    · obtain rfl : n = 0 := by omega
      exact .inr rfl
  simp [isAdmitted, hne, hfirst, Numeral.lacksExponent]

/-- An integer of 64 bits is read back. -/
theorem readsBack_integer {n : Int} (hlow : -0x8000000000000000 ≤ n)
    (hhigh : n < 0x10000000000000000) : (integer n).ReadsBack := by
  have hdigits : ∀ d ∈ Nat.toDigits 10 n.natAbs, d.isDigit = true :=
    fun d hd => Nat.isDigit_of_mem_toDigits (by omega) (by omega) hd
  have hmunch := Decimals.munch_digits hdigits
  have hvalue : digitsValue (Nat.toDigits 10 n.natAbs) = n.natAbs := Nat.ofDigitChars_ten_toDigits
  have hadmitted := isAdmitted_toDigits n.natAbs
  rw [ReadsBack, text, integerText]
  split
  · rename_i hneg
    have hsmall : n.natAbs ≤ Nat.pow 2 63 := by
      change n.natAbs ≤ 2 ^ 63
      omega
    have hread : ofNumeral? true ⟨Nat.toDigits 10 n.natAbs, none, none⟩ = some (integer n) := by
      have hvalue' : -(n.natAbs : Int) = n := by omega
      have hpos : 0 < n.natAbs := by omega
      simp only [ofNumeral?, hadmitted, hvalue, hsmall, hpos, hvalue']
      rfl
    rw [read?, hmunch]
    simp [hread]
  · rename_i hpos
    have hsmall : n.natAbs < Nat.pow 2 64 := by
      change n.natAbs < 2 ^ 64
      omega
    have hread : ofNumeral? false ⟨Nat.toDigits 10 n.natAbs, none, none⟩ = some (integer n) := by
      have hvalue' : (n.natAbs : Int) = n := by omega
      simp only [ofNumeral?, hadmitted, hvalue, hsmall, hvalue']
      rfl
    have hminus : ∀ cs, Nat.toDigits 10 n.natAbs ≠ '-' :: cs := by
      intro cs h
      have hsign := hdigits '-' (by rw [h]; exact List.mem_cons_self)
      cases hsign
    rw [read?, hmunch]
    · simp [hread]
    · exact hminus

end JsonNumber

theorem mapM_of_forall₂ {α β : Type} {f : α → Option β} {as : List α} {bs : List β}
    (h : List.Forall₂ (fun a b => f a = some b) as bs) : as.mapM f = some bs := by
  induction h with
  | nil => rfl
  | cons ha _ ih => simp [ha, ih]

/-- The readers of the items of an array agree with the values that were written, item by item. -/
theorem mapM_eq_some {α β : Type} {f : α → Option β} {g : β → α} {bs : List β}
    (h : ∀ b ∈ bs, f (g b) = some b) : (bs.map g).mapM f = some bs :=
  mapM_of_forall₂ (List.forall₂_map_left_iff.mpr (List.forall₂_same.mpr h))

namespace Json

open Reading Print

mutual

/-- How many levels of arrays and objects a value has. -/
def depth : Json → Nat
  | .array items => itemsDepth items + 1
  | .object members => membersDepth members + 1
  | _ => 0

def itemsDepth : List Json → Nat
  | [] => 0
  | j :: rest => max j.depth (itemsDepth rest)

def membersDepth : List (String × Json) → Nat
  | [] => 0
  | (_, j) :: rest => max j.depth (membersDepth rest)

end

mutual

/-- The numbers in a value. -/
def numbers : Json → List JsonNumber
  | .number x => [x]
  | .array items => itemsNumbers items
  | .object members => membersNumbers members
  | _ => []

def itemsNumbers : List Json → List JsonNumber
  | [] => []
  | j :: rest => j.numbers ++ itemsNumbers rest

def membersNumbers : List (String × Json) → List JsonNumber
  | [] => []
  | (_, j) :: rest => j.numbers ++ membersNumbers rest

end

theorem itemsNumbers_eq (js : List Json) : itemsNumbers js = js.flatMap numbers := by
  induction js with
  | nil => rfl
  | cons j js ih => rw [itemsNumbers, ih, List.flatMap_cons]

theorem membersNumbers_eq (members : List (String × Json)) :
    membersNumbers members = members.flatMap fun m => m.2.numbers := by
  induction members with
  | nil => rfl
  | cons m members ih => rw [membersNumbers, ih, List.flatMap_cons]

theorem itemsDepth_le {js : List Json} {n : Nat} :
    itemsDepth js ≤ n ↔ ∀ j ∈ js, j.depth ≤ n := by
  induction js with
  | nil => simp [itemsDepth]
  | cons j js ih => rw [itemsDepth, Nat.max_le, ih, List.forall_mem_cons]

theorem membersDepth_le {members : List (String × Json)} {n : Nat} :
    membersDepth members ≤ n ↔ ∀ m ∈ members, m.2.depth ≤ n := by
  induction members with
  | nil => simp [membersDepth]
  | cons m members ih => rw [membersDepth, Nat.max_le, ih, List.forall_mem_cons]

/-- What may stand after a value. -/
def Closed (after : List Char) : Prop :=
  ∀ c ∈ after.head?, c ∈ [',', ']', '}']

/-- The text is read as the value wherever one may stand and open so many levels. The rounds of the
reader are counted by the characters of the text; blanks at its end may be left over. -/
def Spells (room : Nat) (t : List Char) (j : Json) : Prop :=
  ∀ fuel after, 2 * t.length + 2 ≤ fuel → Closed after →
    ∃ rest, readValue fuel room (t ++ after) = some (j, rest) ∧ skipSpace rest = after

/-- The text is read as the name of a member. -/
def SpellsName (t : List Char) (name : String) : Prop :=
  ∀ after, ∃ text rest, skipSpace (t ++ after) = '"' :: text ∧
    Quoted.read? text = some (name.toList, rest) ∧ skipSpace rest = skipSpace after

/-- The texts of a name and of a value are read as a member. -/
def SpellsMember (room : Nat) (t : List Char × List Char) (m : String × Json) : Prop :=
  SpellsName t.1 m.1 ∧ Spells room t.2 m.2

/-- An array with the given texts of its items. -/
def arrayText (ts : List (List Char)) : List Char :=
  '[' :: (commas ts ++ [']'])

/-- The text of a member. -/
def memberText (t : List Char × List Char) : List Char :=
  t.1 ++ ':' :: t.2

/-- An object with the given texts of its members. -/
def objectText (ts : List (List Char × List Char)) : List Char :=
  '{' :: (commas (ts.map memberText) ++ ['}'])

section

variable {after : List Char} {x : JsonNumber}

theorem closed_nil : Closed [] := by
  rintro c ⟨⟩

theorem closed_cons {c : Char} (hc : c ∈ [',', ']', '}']) (after : List Char) :
    Closed (c :: after) := by
  rintro d ⟨⟩
  exact hc

theorem skipSpace_cons {c : Char} (hc : isSpace c = false) (rest : List Char) :
    skipSpace (c :: rest) = c :: rest := by
  simp [skipSpace, hc]

theorem skipSpace_closed (h : Closed after) : skipSpace after = after := by
  have hends : ∀ c ∈ [',', ']', '}'], isSpace c = false := forall_mem_of_all (by decide)
  cases after with
  | nil => rfl
  | cons c rest => exact skipSpace_cons (hends c (h c rfl)) rest

theorem skipSpace_skipSpace (t : List Char) : skipSpace (skipSpace t) = skipSpace t :=
  List.dropWhile_idempotent isSpace t

/-- A number begins with its sign or with a digit. -/
theorem head_of_number {text : List Char} {r : JsonNumber × List Char}
    (h : JsonNumber.read? text = some r) :
    ∃ c rest, text = c :: rest ∧ (c = '-' ∨ c.isDigit = true) := by
  cases text with
  | nil => cases h
  | cons c rest =>
    refine ⟨c, rest, rfl, ?_⟩
    by_cases hminus : c = '-'
    · exact .inl hminus
    · right
      unfold JsonNumber.read? at h
      split at h
      · rename_i heq
        exact absurd (List.cons.inj heq).1 hminus
      · by_contra hdigit
        have hwhole : (Numeral.munch (c :: rest)).1.whole = [] := by
          simp [Numeral.munch, hdigit]
        simp [JsonNumber.ofNumeral?, JsonNumber.isAdmitted, hwhole] at h

/-- A number is read in the same way in front of what may stand after a value. -/
theorem read?_number_append {t rest : List Char} (h : JsonNumber.read? t = some (x, rest))
    (hafter : Closed after) : JsonNumber.read? (t ++ after) = some (x, rest ++ after) := by
  have hends : ∀ c ∈ [',', ']', '}'], c.isDigit = false ∧ c ∉ ['e', 'E', '+', '-', '.'] :=
    forall_mem_of_all (by decide)
  have hmunch : ∀ cs, Numeral.munch (cs ++ after) =
      ((Numeral.munch cs).1, (Numeral.munch cs).2 ++ after) :=
    fun cs => munch_append fun c hc => hends c (hafter c hc)
  have hread : ∀ negative cs,
      (JsonNumber.ofNumeral? negative (Numeral.munch cs).1).map (·, (Numeral.munch cs).2) =
        some (x, rest) →
      (JsonNumber.ofNumeral? negative (Numeral.munch (cs ++ after)).1).map
        (·, (Numeral.munch (cs ++ after)).2) = some (x, rest ++ after) := by
    intro negative cs h
    obtain ⟨y, hy, heq⟩ := Option.map_eq_some_iff.mp h
    obtain ⟨rfl, hrest⟩ := Prod.mk.inj heq
    rw [hmunch, hy, hrest]
    rfl
  obtain ⟨c, cs, hc, -⟩ := head_of_number h
  rw [hc] at h ⊢
  by_cases hminus : c = '-'
  · subst hminus
    exact hread true cs h
  · rw [JsonNumber.read?] at h
    · rw [List.cons_append, JsonNumber.read?]
      · exact hread false (c :: cs) h
      · simpa using hminus
    · simpa using hminus

/-- A number has a beginning of its own. -/
theorem first_of_number {c : Char} (h : c = '-' ∨ c.isDigit = true) :
    ∀ d ∈ ['n', 't', 'f', '"', '[', '{', ']', ' ', '\t', '\n', '\r'], c ≠ d := by
  have hall : ∀ d ∈ ['n', 't', 'f', '"', '[', '{', ']', ' ', '\t', '\n', '\r'],
      d ≠ '-' ∧ d.isDigit = false := forall_mem_of_all (by decide)
  rintro d hd rfl
  rcases h with h | h
  · exact (hall _ hd).1 h
  · rw [(hall _ hd).2] at h
    cases h

theorem skipSpace_number {t : List Char} {r : JsonNumber × List Char}
    (h : JsonNumber.read? t = some r) : skipSpace t = t := by
  obtain ⟨c, rest, rfl, hfirst⟩ := head_of_number h
  have hother := first_of_number hfirst
  exact skipSpace_cons (by simp [isSpace, hother]) rest

theorem readValue_number {fuel room : Nat} {t rest : List Char}
    (h : JsonNumber.read? (skipSpace t) = some (x, rest)) :
    readValue (fuel + 1) room t = some (.number x, rest) := by
  obtain ⟨c, more, hc, hfirst⟩ := head_of_number h
  have hother := first_of_number hfirst
  simp only [List.mem_cons, List.not_mem_nil, or_false, forall_eq_or_imp, forall_eq] at hother
  rw [hc] at h
  rw [readValue, hc]
  split
  case h_7 =>
    rw [h]
    rfl
  all_goals simp_all

theorem readValue_skipSpace (fuel room : Nat) (t : List Char) :
    readValue fuel room (skipSpace t) = readValue fuel room t := by
  cases fuel with
  | zero => rfl
  | succ fuel => rw [readValue, readValue, skipSpace_skipSpace]

theorem readItems_skipSpace (fuel room : Nat) (t : List Char) :
    readItems fuel room (skipSpace t) = readItems fuel room t := by
  cases fuel with
  | zero => rfl
  | succ fuel => rw [readItems, readItems, readValue_skipSpace]

theorem readMembers_skipSpace (fuel room : Nat) (t : List Char) :
    readMembers fuel room (skipSpace t) = readMembers fuel room t := by
  cases fuel with
  | zero => rfl
  | succ fuel => rw [readMembers, readMembers, skipSpace_skipSpace]

/-- No value begins with a closing bracket. -/
theorem head_of_value {fuel room : Nat} {t : List Char} {r : Json × List Char}
    (h : readValue fuel room t = some r) : ∃ c rest, skipSpace t = c :: rest ∧ c ≠ ']' := by
  cases fuel with
  | zero => cases h
  | succ fuel =>
    rw [readValue] at h
    split at h
    case h_7 =>
      obtain ⟨n, hn, -⟩ := Option.map_eq_some_iff.mp h
      obtain ⟨c, rest, hc, hfirst⟩ := head_of_number hn
      exact ⟨c, rest, hc, first_of_number hfirst ']' (by simp)⟩
    all_goals exact ⟨_, _, ‹_›, by decide⟩

/-- An array from its items. -/
theorem readValue_of_items {fuel room : Nat} {t rest : List Char} {items : List Json}
    (h : readItems fuel room t = some (items, rest)) :
    readValue (fuel + 1) (room + 1) ('[' :: t) = some (.array items, rest) := by
  have hhead : ∃ c more, skipSpace t = c :: more ∧ c ≠ ']' := by
    cases fuel with
    | zero => cases h
    | succ fuel =>
      rw [readItems] at h
      cases hvalue : readValue fuel room t with
      | none =>
        rw [hvalue] at h
        cases h
      | some r => exact head_of_value hvalue
  obtain ⟨c, more, hc, hbracket⟩ := hhead
  rw [readValue, skipSpace_cons (by decide)]
  simp only [hc]
  split
  case h_1 hroom => cases hroom
  case h_2 hbegins => exact absurd (List.cons.inj hbegins).1 hbracket
  case h_3 hroom _ =>
    cases hroom
    rw [← hc, readItems_skipSpace, h]
    rfl

/-- An object from its members. -/
theorem readValue_of_members {fuel room : Nat} {t rest : List Char}
    {members : List (String × Json)} (h : readMembers fuel room t = some (members, rest)) :
    readValue (fuel + 1) (room + 1) ('{' :: t) = some (.object members, rest) := by
  have hhead : ∃ more, skipSpace t = '"' :: more := by
    cases fuel with
    | zero => cases h
    | succ fuel =>
      rw [readMembers] at h
      split at h
      · exact ⟨_, ‹_›⟩
      · cases h
  obtain ⟨more, hmore⟩ := hhead
  rw [readValue, skipSpace_cons (by decide)]
  simp only [hmore]
  split
  case h_1 hroom => cases hroom
  case h_2 hbegins => cases hbegins
  case h_3 hroom _ =>
    cases hroom
    rw [← hmore, readMembers_skipSpace, h]
    rfl

end

section

variable {room : Nat} {t : List Char} {j : Json} {after : List Char}

theorem readItems_spells {ts : List (List Char)} {js : List Json} (h : Spells room t j)
    (hrest : List.Forall₂ (Spells room) ts js) {fuel : Nat}
    (hfuel : 2 * (commas (t :: ts)).length + 3 ≤ fuel) :
    readItems fuel room (commas (t :: ts) ++ ']' :: after) = some (j :: js, after) := by
  obtain ⟨fuel, rfl⟩ : ∃ n, fuel = n + 1 := ⟨fuel - 1, by omega⟩
  induction hrest generalizing t j fuel with
  | nil =>
    rw [commas] at hfuel ⊢
    obtain ⟨rest, hread, hskip⟩ := h fuel (']' :: after) (by omega) (closed_cons (by simp) after)
    rw [readItems, hread]
    simp only [hskip]
  | @cons u k ts js hu _ ih =>
    rw [commas, List.length_append, List.length_cons] at hfuel
    have hmore := ih hu (fuel - 1) (by omega)
    have hsucc : fuel - 1 + 1 = fuel := by omega
    rw [hsucc] at hmore
    rw [commas, List.append_assoc, List.cons_append]
    obtain ⟨rest, hread, hskip⟩ := h fuel (',' :: (commas (u :: ts) ++ ']' :: after)) (by omega)
      (closed_cons (by simp) _)
    rw [readItems, hread]
    simp only [hskip, hmore, Option.map_some]

section

variable {fuel : Nat} {name : String} {u more rest : List Char}

theorem readMembers_last (hname : SpellsName u name)
    (hvalue : readValue fuel room more = some (j, rest)) (hend : skipSpace rest = '}' :: after) :
    readMembers (fuel + 1) room (u ++ ':' :: more) = some ([(name, j)], after) := by
  obtain ⟨text, left, hopen, hquoted, hskip⟩ := hname (':' :: more)
  rw [skipSpace_cons (by decide)] at hskip
  rw [readMembers, hopen]
  simp only [hquoted, hskip, hvalue, hend, String.ofList_toList]

theorem readMembers_next {next : List Char} {members : List (String × Json)}
    (hname : SpellsName u name) (hvalue : readValue fuel room more = some (j, rest))
    (hend : skipSpace rest = ',' :: next)
    (hnext : readMembers fuel room next = some (members, after)) :
    readMembers (fuel + 1) room (u ++ ':' :: more) = some ((name, j) :: members, after) := by
  obtain ⟨text, left, hopen, hquoted, hskip⟩ := hname (':' :: more)
  rw [skipSpace_cons (by decide)] at hskip
  rw [readMembers, hopen]
  simp only [hquoted, hskip, hvalue, hend, hnext, Option.map_some, String.ofList_toList]

end

theorem readMembers_spells {u : List Char × List Char} {m : String × Json}
    {ts : List (List Char × List Char)} {ms : List (String × Json)} (h : SpellsMember room u m)
    (hrest : List.Forall₂ (SpellsMember room) ts ms) {fuel : Nat}
    (hfuel : 2 * (commas ((u :: ts).map memberText)).length + 3 ≤ fuel) :
    readMembers fuel room (commas ((u :: ts).map memberText) ++ '}' :: after) =
      some (m :: ms, after) := by
  obtain ⟨fuel, rfl⟩ : ∃ n, fuel = n + 1 := ⟨fuel - 1, by omega⟩
  induction hrest generalizing u m fuel with
  | nil =>
    rw [List.map_singleton, commas, memberText, List.length_append, List.length_cons] at hfuel
    rw [List.map_singleton, commas, memberText, List.append_assoc, List.cons_append]
    obtain ⟨rest, hread, hskip⟩ := h.2 fuel ('}' :: after) (by omega) (closed_cons (by simp) after)
    exact readMembers_last h.1 hread hskip
  | @cons v k ts ms hv _ ih =>
    rw [List.map_cons, List.map_cons, commas, memberText, List.length_append, List.length_append,
      List.length_cons, List.length_cons, ← List.map_cons] at hfuel
    have hmore := ih hv (fuel - 1) (by omega)
    have hsucc : fuel - 1 + 1 = fuel := by omega
    rw [hsucc] at hmore
    rw [List.map_cons, List.map_cons, commas, memberText, ← List.map_cons, List.append_assoc,
      List.cons_append, List.append_assoc, List.cons_append]
    obtain ⟨rest, hread, hskip⟩ := h.2 fuel
      (',' :: (commas ((v :: ts).map memberText) ++ '}' :: after)) (by omega)
      (closed_cons (by simp) _)
    exact readMembers_next h.1 hread hskip hmore

/-- An array is read from its text, whatever texts its items have. -/
theorem spells_array {ts : List (List Char)} {js : List Json}
    (h : List.Forall₂ (Spells room) ts js) : Spells (room + 1) (arrayText ts) (.array js) := by
  intro fuel after hfuel hafter
  obtain ⟨fuel, rfl⟩ : ∃ n, fuel = n + 1 := ⟨fuel - 1, by omega⟩
  refine ⟨after, ?_, skipSpace_closed hafter⟩
  cases h with
  | nil => simp [arrayText, commas, readValue, skipSpace, isSpace]
  | cons hj hrest =>
    rw [arrayText, List.length_cons, List.length_append, List.length_singleton] at hfuel
    rw [arrayText, List.cons_append, List.append_assoc, List.singleton_append]
    exact readValue_of_items (readItems_spells hj hrest (by omega))

/-- An object is read from its text, whatever texts its members have. -/
theorem spells_object {ts : List (List Char × List Char)} {ms : List (String × Json)}
    (h : List.Forall₂ (SpellsMember room) ts ms) :
    Spells (room + 1) (objectText ts) (.object ms) := by
  intro fuel after hfuel hafter
  obtain ⟨fuel, rfl⟩ : ∃ n, fuel = n + 1 := ⟨fuel - 1, by omega⟩
  refine ⟨after, ?_, skipSpace_closed hafter⟩
  cases h with
  | nil => simp [objectText, commas, readValue, skipSpace, isSpace]
  | cons hm hrest =>
    rw [objectText, List.length_cons, List.length_append, List.length_singleton] at hfuel
    rw [objectText, List.cons_append, List.append_assoc, List.singleton_append]
    exact readValue_of_members (readMembers_spells hm hrest (by omega))

/-- A text that is read without a look at the levels. -/
theorem spells_of_read (h : ∀ fuel after, Closed after →
    readValue (fuel + 1) room (t ++ after) = some (j, after)) : Spells room t j := by
  intro fuel after hfuel hafter
  obtain ⟨fuel, rfl⟩ : ∃ n, fuel = n + 1 := ⟨fuel - 1, by omega⟩
  exact ⟨after, h fuel after hafter, skipSpace_closed hafter⟩

theorem spellsName_quoted (name : String) : SpellsName (quoted name) name := by
  intro after
  refine ⟨Quoted.encode name.toList ++ '"' :: after, after, ?_, Quoted.read?_encode _ after, rfl⟩
  rw [quoted, List.cons_append, skipSpace_cons (by decide), List.append_assoc,
    List.singleton_append]

theorem spells_string (s : String) : Spells room (quoted s) (.string s) := by
  refine spells_of_read fun fuel after _ => ?_
  rw [quoted, List.cons_append, readValue, skipSpace_cons (by decide)]
  simp only [List.append_assoc, List.singleton_append, Quoted.read?_encode, Option.map_some,
    String.ofList_toList]

theorem itemsText_eq (js : List Json) : itemsText js = commas (js.map text) := by
  induction js with
  | nil => rfl
  | cons j js ih =>
    cases js with
    | nil => rfl
    | cons k js => simp [itemsText, ih, commas]

theorem membersText_eq (ms : List (String × Json)) :
    membersText ms = commas ((ms.map fun m => (quoted m.1, text m.2)).map memberText) := by
  induction ms with
  | nil => rfl
  | cons m ms ih =>
    cases ms with
    | nil => rfl
    | cons k ms => simp [membersText, ih, commas, memberText]

theorem text_array (js : List Json) : text (.array js) = arrayText (js.map text) := by
  rw [text, itemsText_eq, arrayText]

theorem text_object (ms : List (String × Json)) :
    text (.object ms) = objectText (ms.map fun m => (quoted m.1, text m.2)) := by
  rw [text, membersText_eq, objectText]

mutual

/-- The written form of a value is one of its texts. -/
theorem spells_text : ∀ (j : Json) (room : Nat), (∀ x ∈ j.numbers, x.ReadsBack) →
    j.depth ≤ room → Spells room (text j) j
  | .null, _, _, _ => spells_of_read fun _ _ _ => by
    simp [text, leafText, readValue, skipSpace, isSpace]
  | .bool true, _, _, _ => spells_of_read fun _ _ _ => by
    simp [text, leafText, readValue, skipSpace, isSpace]
  | .bool false, _, _, _ => spells_of_read fun _ _ _ => by
    simp [text, leafText, readValue, skipSpace, isSpace]
  | .number x, _, hnumbers, _ => spells_of_read fun _ _ hafter => by
    have hread := read?_number_append (hnumbers x (by simp [numbers])) hafter
    rw [← skipSpace_number hread] at hread
    exact readValue_number hread
  | .string s, _, _, _ => spells_string s
  | .array js, room + 1, hnumbers, hdepth => by
    rw [text_array]
    exact spells_array (spells_items js room hnumbers (Nat.le_of_succ_le_succ hdepth))
  | .object ms, room + 1, hnumbers, hdepth => by
    rw [text_object]
    exact spells_object (spells_members ms room hnumbers (Nat.le_of_succ_le_succ hdepth))
  | .array _, 0, _, hdepth => by simp [depth] at hdepth
  | .object _, 0, _, hdepth => by simp [depth] at hdepth

theorem spells_items : ∀ (js : List Json) (room : Nat), (∀ x ∈ itemsNumbers js, x.ReadsBack) →
    itemsDepth js ≤ room → List.Forall₂ (Spells room) (js.map text) js
  | [], _, _, _ => .nil
  | j :: js, room, hnumbers, hdepth => by
    rw [itemsNumbers, List.forall_mem_append] at hnumbers
    rw [itemsDepth, Nat.max_le] at hdepth
    exact .cons (spells_text j room hnumbers.1 hdepth.1) (spells_items js room hnumbers.2 hdepth.2)

theorem spells_members : ∀ (ms : List (String × Json)) (room : Nat),
    (∀ x ∈ membersNumbers ms, x.ReadsBack) → membersDepth ms ≤ room →
      List.Forall₂ (SpellsMember room) (ms.map fun m => (quoted m.1, text m.2)) ms
  | [], _, _, _ => .nil
  | (name, j) :: ms, room, hnumbers, hdepth => by
    rw [membersNumbers, List.forall_mem_append] at hnumbers
    rw [membersDepth, Nat.max_le] at hdepth
    exact .cons ⟨spellsName_quoted name, spells_text j room hnumbers.1 hdepth.1⟩
      (spells_members ms room hnumbers.2 hdepth.2)

end

theorem read?_of_spells (h : Spells maxDepth t j) : read? t = some j := by
  obtain ⟨rest, hread, hskip⟩ := h (2 * t.length + 2) [] (Nat.le_refl _) closed_nil
  rw [List.append_nil] at hread
  rw [read?, hread]
  simp only [hskip]
  rfl

/-- A written value is read back. -/
theorem read?_text (hnumbers : ∀ x ∈ j.numbers, x.ReadsBack) (hdepth : j.depth ≤ maxDepth) :
    read? (text j) = some j :=
  read?_of_spells (spells_text j maxDepth hnumbers hdepth)

end

end Json

end ExprTree
