import ExprTree.Grammar.Description
import ExprTree.Proofs.LongestMatch
import Mathlib.Tactic.ByContra

/-!
Grammars as they come about: from the standard one, the one without operators or a description, by
changes one after the other. Each change keeps a table `Sound`: its two lengths are those of the
longest operators in it, also after operators were added twice, removed without having been there,
or empty. So the lengths never hide an operator, and they say nothing that the operators do not;
what a grammar is depends on what is registered in it and not on how it came to be.
-/

namespace ExprTree

/-- The grammars that there can be. -/
inductive Grammar.Reachable : Grammar → Prop
  | standard : Reachable .standard
  | bare : Reachable .bare
  | described {d : Description} {g : Grammar} : d.grammar = .ok g → Reachable g
  | addUnary {g : Grammar} (op : String) : Reachable g → Reachable (g.addUnary op)
  | removeUnary {g : Grammar} (op : String) : Reachable g → Reachable (g.removeUnary op)
  | addBinary {g : Grammar} (op : String) (precedence : Int) :
    Reachable g → Reachable (g.addBinary op precedence)
  | removeBinary {g : Grammar} (op : String) : Reachable g → Reachable (g.removeBinary op)
  | addLetters {g : Grammar} (chars : String) : Reachable g → Reachable (g.addLetters chars)
  | removeLetters {g : Grammar} (chars : String) : Reachable g → Reachable (g.removeLetters chars)
  | setThisWord {g : Grammar} (word : String) : Reachable g → Reachable (g.setThisWord word)

namespace Histories

/-- The greatest length of the texts that are accepted, 0 if none is. -/
def IsLongest (accept : String → Bool) (n : Nat) : Prop :=
  (∀ op, accept op = true → op.length ≤ n) ∧ (n = 0 ∨ ∃ op, accept op = true ∧ op.length = n)

/-- The longest accepted text that a text begins with, the empty one apart. -/
def IsLongestMatch (accept : String → Bool) (text : List Char) (op : String) : Prop :=
  accept op = true ∧ op ≠ "" ∧ op.toList <+: text ∧
    ∀ op', accept op' = true → op'.toList <+: text → op'.length ≤ op.length

section

variable {accept accept' : String → Bool} {n : Nat} {op : String} {text : List Char}

theorem IsLongest.congr (h : IsLongest accept n) (heq : ∀ x, accept' x = accept x) :
    IsLongest accept' n := by
  obtain rfl : accept' = accept := funext heq
  exact h

theorem isLongest_longestLength (texts : List String) :
    IsLongest texts.contains (longestLength texts) := by
  induction texts with
  | nil => exact ⟨by simp, .inl rfl⟩
  | cons x texts ih =>
    obtain ⟨hbound, hreached⟩ := ih
    have hlength : longestLength (x :: texts) = max x.length (longestLength texts) := rfl
    refine ⟨fun op hop => ?_, ?_⟩
    · rw [List.contains_cons, Bool.or_eq_true, beq_iff_eq] at hop
      rcases hop with rfl | hop
      · omega
      · have := hbound op hop
        omega
    · rcases Nat.le_total (longestLength texts) x.length with hle | hle
      · exact .inr ⟨x, by simp, by omega⟩
      · rcases hreached with hzero | ⟨op, hop, hop'⟩
        · exact .inl (by omega)
        · exact .inr ⟨op, by simp only [List.contains_cons, hop, Bool.or_true], by omega⟩

/-- One more text can only raise the greatest length. -/
theorem IsLongest.add (h : IsLongest accept n) (op : String)
    (hadd : ∀ x, accept' x = (accept x || x == op)) : IsLongest accept' (max n op.length) := by
  obtain ⟨hbound, hreached⟩ := h
  refine ⟨fun x hx => ?_, ?_⟩
  · rw [hadd, Bool.or_eq_true, beq_iff_eq] at hx
    rcases hx with hx | rfl
    · have := hbound x hx
      omega
    · omega
  · rcases Nat.le_total n op.length with hle | hle
    · exact .inr ⟨op, by simp [hadd], by omega⟩
    · rcases hreached with hzero | ⟨x, hx, hx'⟩
      · exact .inl (by omega)
      · exact .inr ⟨x, by simp [hadd, hx], by omega⟩

/-- Without a text that is not of the greatest length, the greatest length is the same, whether the
text had been there or not. -/
theorem IsLongest.remove (h : IsLongest accept n) (hop : op.length ≠ n)
    (hremove : ∀ x, accept' x = (accept x && x != op)) : IsLongest accept' n := by
  obtain ⟨hbound, hreached⟩ := h
  refine ⟨fun x hx => ?_, ?_⟩
  · rw [hremove, Bool.and_eq_true] at hx
    exact hbound x hx.1
  · rcases hreached with hzero | ⟨x, hx, hx'⟩
    · exact .inl hzero
    · have hne : x ≠ op := by
        rintro rfl
        exact hop hx'
      exact .inr ⟨x, by simp [hremove, hx, hne], hx'⟩

theorem ofList_take_length (h : op.toList <+: text) :
    String.ofList (text.take op.length) = op := by
  rw [← String.length_toList, ← List.prefix_iff_eq_take.mp h, String.ofList_toList]

theorem begins_ofList_take (text : List Char) (k : Nat) :
    (String.ofList (text.take k)).toList <+: text := by
  rw [String.toList_ofList]
  exact List.take_prefix k text

/-- An accepted text is found within the characters looked at. -/
theorem IsLongest.length_le_min (h : IsLongest accept n) (haccept : accept op = true)
    (hbegins : op.toList <+: text) : op.length ≤ min n text.length := by
  have hwithin := hbegins.length_le
  rw [String.length_toList] at hwithin
  exact Nat.le_min.mpr ⟨h.1 op haccept, hwithin⟩

/-- Looking ahead as far as the greatest length finds the longest match of all. -/
theorem longestBeginning_eq_some_iff_isLongestMatch (h : IsLongest accept n) :
    longestBeginning accept (min n text.length) text = some op ↔
      IsLongestMatch accept text op := by
  rw [longestBeginning_eq_some_iff]
  constructor
  · rintro ⟨k, hpos, hle, rfl, haccept, hlonger⟩
    have hlength : (String.ofList (text.take k)).length = k := by
      simp only [String.length_ofList, List.length_take]
      omega
    refine ⟨haccept, ?_, begins_ofList_take text k, fun op' haccept' hbegins => ?_⟩
    · intro hempty
      rw [hempty, String.length_empty] at hlength
      omega
    · rw [hlength]
      by_contra hlt
      have hreject := hlonger op'.length (by omega) (h.length_le_min haccept' hbegins)
      rw [ofList_take_length hbegins, haccept'] at hreject
      cases hreject
  · rintro ⟨haccept, hne, hbegins, hlongest⟩
    have hpos : 0 < op.length :=
      Nat.pos_of_ne_zero fun hzero => hne (String.length_eq_zero_iff.mp hzero)
    refine ⟨op.length, hpos, h.length_le_min haccept hbegins, (ofList_take_length hbegins).symm,
      haccept, fun j hj hj' => ?_⟩
    by_contra hsome
    have hlength := hlongest _ (Bool.of_not_eq_false hsome) (begins_ofList_take text j)
    simp only [String.length_ofList, List.length_take] at hlength
    omega

theorem longestBeginning_eq_none_iff_of_isLongest (h : IsLongest accept n) :
    longestBeginning accept (min n text.length) text = none ↔
      ∀ op, accept op = true → op.toList <+: text → op = "" := by
  rw [longestBeginning_eq_none_iff]
  constructor
  · intro hnone op haccept hbegins
    by_contra hne
    have hpos : 0 < op.length :=
      Nat.pos_of_ne_zero fun hzero => hne (String.length_eq_zero_iff.mp hzero)
    have hreject := hnone op.length hpos (h.length_le_min haccept hbegins)
    rw [ofList_take_length hbegins, haccept] at hreject
    cases hreject
  · intro hempty j hpos hj
    by_contra hsome
    have hnil := hempty _ (Bool.of_not_eq_false hsome) (begins_ofList_take text j)
    have hlength := congrArg String.length hnil
    simp only [String.length_ofList, List.length_take, String.length_empty] at hlength
    omega

/-- Texts that begin with the same accepted texts have the same longest match. -/
theorem longestBeginning_congr (h : IsLongest accept n) {text' : List Char}
    (hsame : ∀ op, accept op = true → (op.toList <+: text' ↔ op.toList <+: text)) :
    longestBeginning accept (min n text'.length) text' =
      longestBeginning accept (min n text.length) text := by
  refine Option.ext fun op => ?_
  rw [longestBeginning_eq_some_iff_isLongestMatch h, longestBeginning_eq_some_iff_isLongestMatch h]
  refine and_congr_right fun hop => and_congr_right fun _ => ?_
  rw [hsame op hop]
  refine and_congr_right fun _ => forall_congr' fun op' => forall_congr' fun hop' => ?_
  rw [hsame op' hop']

/-- Nothing beyond the characters looked at matters. -/
theorem longestBeginning_take (accept : String → Bool) (text : List Char) {m n : Nat}
    (h : m ≤ n) : longestBeginning accept m (text.take n) = longestBeginning accept m text := by
  induction m with
  | zero => rfl
  | succ m ih =>
    simp only [longestBeginning]
    rw [List.take_take, Nat.min_eq_left h, ih (by omega)]

end

/-- Whether a binary operator is registered. -/
def isBinary (t : OperatorTable) (op : String) : Bool :=
  (t.precedence? op).isSome

/-- A table that knows the lengths of its longest operators, and a precedence for each binary
one. -/
structure Sound (t : OperatorTable) : Prop where
  unary : IsLongest t.isUnary t.longestUnary
  binary : IsLongest (isBinary t) t.longestBinary
  nodup : t.binary.keys.Nodup

section

variable {t : OperatorTable}

theorem isBinary_eq_contains (t : OperatorTable) (op : String) :
    isBinary t op = t.binary.keys.contains op := by
  rw [Bool.eq_iff_iff, isBinary, OperatorTable.precedence?, Keyed.isSome_get?,
    List.contains_iff_mem]

theorem sound_empty : Sound .empty :=
  ⟨⟨by simp [OperatorTable.isUnary, OperatorTable.empty], .inl rfl⟩,
    ⟨by simp [isBinary_eq_contains, OperatorTable.empty, Keyed.keys], .inl rfl⟩, List.nodup_nil⟩

theorem isUnary_addUnary (t : OperatorTable) (op x : String) :
    (t.addUnary op).isUnary x = (t.isUnary x || x == op) := by
  change (if t.isUnary op then t.unary else t.unary ++ [op]).contains x = (t.isUnary x || x == op)
  by_cases hop : t.isUnary op = true
  · rw [if_pos hop, Bool.eq_iff_iff, Bool.or_eq_true, beq_iff_eq]
    constructor
    · exact .inl
    · rintro (hx | rfl)
      · exact hx
      · exact hop
  · rw [if_neg hop, Bool.eq_iff_iff]
    simp [OperatorTable.isUnary]

theorem isUnary_removeUnary (t : OperatorTable) (op x : String) :
    (t.removeUnary op).isUnary x = (t.isUnary x && x != op) := by
  rw [Bool.eq_iff_iff]
  simp [OperatorTable.removeUnary, OperatorTable.isUnary, List.mem_filter]

theorem precedence?_addBinary (t : OperatorTable) (op : String) (p : Int) (x : String) :
    (t.addBinary op p).precedence? x = if x = op then some p else t.precedence? x :=
  Keyed.get?_alter t.binary op (fun _ => p) x

theorem precedence?_removeBinary (t : OperatorTable) (op x : String) :
    (t.removeBinary op).precedence? x = if x = op then none else t.precedence? x :=
  Keyed.get?_erase t.binary op x

theorem Sound.addUnary (h : Sound t) (op : String) : Sound (t.addUnary op) :=
  ⟨h.unary.add op (isUnary_addUnary t op), h.binary, h.nodup⟩

theorem Sound.removeUnary (h : Sound t) (op : String) : Sound (t.removeUnary op) := by
  refine ⟨?_, h.binary, h.nodup⟩
  simp only [OperatorTable.removeUnary]
  split
  · exact isLongest_longestLength _
  · rename_i hop
    exact h.unary.remove hop (isUnary_removeUnary t op)

theorem Sound.addBinary (h : Sound t) (op : String) (precedence : Int) :
    Sound (t.addBinary op precedence) := by
  refine ⟨h.unary, h.binary.add op fun x => ?_, Keyed.nodup_keys_alter h.nodup _ _⟩
  simp only [isBinary, precedence?_addBinary]
  by_cases hx : x = op <;> simp [hx]

theorem Sound.removeBinary (h : Sound t) (op : String) : Sound (t.removeBinary op) := by
  have hremove : ∀ x, isBinary (t.removeBinary op) x = (isBinary t x && x != op) := by
    intro x
    simp only [isBinary, precedence?_removeBinary]
    by_cases hx : x = op <;> simp [hx]
  refine ⟨h.unary, ?_, Keyed.nodup_keys_erase h.nodup op⟩
  simp only [OperatorTable.removeBinary]
  split
  · exact (isLongest_longestLength _).congr fun x => isBinary_eq_contains _ x
  · rename_i hop
    exact h.binary.remove hop hremove

theorem Sound.addAllUnary (h : Sound t) (ops : List String) : Sound (t.addAllUnary ops) := by
  induction ops generalizing t with
  | nil => exact h
  | cons op ops ih => exact ih (h.addUnary op)

theorem Sound.addAllBinary (h : Sound t) (ops : List (String × Int)) :
    Sound (t.addAllBinary ops) := by
  induction ops generalizing t with
  | nil => exact h
  | cons o ops ih => exact ih (h.addBinary o.1 o.2)

theorem Sound.removeAllUnary (h : Sound t) (ops : List String) :
    Sound (ops.foldl OperatorTable.removeUnary t) := by
  induction ops generalizing t with
  | nil => exact h
  | cons op ops ih => exact ih (h.removeUnary op)

theorem Sound.removeAllBinary (h : Sound t) (ops : List String) :
    Sound (ops.foldl OperatorTable.removeBinary t) := by
  induction ops generalizing t with
  | nil => exact h
  | cons op ops ih => exact ih (h.removeBinary op)

theorem sound_standard : Sound .standard :=
  (sound_empty.addAllUnary _).addAllBinary _

theorem sound_described {d : Description} {g : Grammar} (h : d.grammar = .ok g) :
    Sound g.operators := by
  have hstart : Sound (if d.extendDefaults then Grammar.standard else .bare).operators := by
    split
    · exact sound_standard
    · exact sound_empty
  unfold Description.grammar at h
  split at h
  · cases h
  · cases h
    exact (((hstart.addAllUnary _).addAllBinary _).removeAllUnary _).removeAllBinary _

/-- Every table that there can be is sound. -/
theorem sound_of_reachable {g : Grammar} (h : g.Reachable) : Sound g.operators := by
  induction h with
  | standard => exact sound_standard
  | bare => exact sound_empty
  | described hd => exact sound_described hd
  | addUnary op _ ih => exact ih.addUnary op
  | removeUnary op _ ih => exact ih.removeUnary op
  | addBinary op precedence _ ih => exact ih.addBinary op precedence
  | removeBinary op _ ih => exact ih.removeBinary op
  | addLetters _ _ ih | removeLetters _ _ ih | setThisWord _ _ ih => exact ih

end

section

variable {t u : OperatorTable}

theorem unaryAt?_take (t : OperatorTable) (text : List Char) :
    t.unaryAt? (text.take t.longestUnary) = t.unaryAt? text := by
  rw [OperatorTable.unaryAt?, OperatorTable.unaryAt?, List.length_take,
    longestBeginning_take _ _ (Nat.min_le_left _ _), ← Nat.min_assoc, Nat.min_self]

theorem binaryAt?_take (t : OperatorTable) (text : List Char) :
    t.binaryAt? (text.take t.longestBinary) = t.binaryAt? text := by
  rw [OperatorTable.binaryAt?, OperatorTable.binaryAt?, List.length_take,
    longestBeginning_take _ _ (Nat.min_le_left _ _), ← Nat.min_assoc, Nat.min_self]

theorem Sound.unaryAt?_congr (ht : Sound t) {text text' : List Char}
    (hsame : ∀ op, t.isUnary op = true → (op.toList <+: text' ↔ op.toList <+: text)) :
    t.unaryAt? (text'.take t.longestUnary) = t.unaryAt? (text.take t.longestUnary) := by
  rw [unaryAt?_take, unaryAt?_take]
  exact longestBeginning_congr ht.unary hsame

theorem Sound.binaryAt?_congr (ht : Sound t) {text text' : List Char}
    (hsame : ∀ op, isBinary t op = true → (op.toList <+: text' ↔ op.toList <+: text)) :
    t.binaryAt? (text'.take t.longestBinary) = t.binaryAt? (text.take t.longestBinary) := by
  have hlongest : longestBeginning (isBinary t) _ text' = longestBeginning (isBinary t) _ text :=
    longestBeginning_congr ht.binary hsame
  rw [binaryAt?_take, binaryAt?_take]
  exact congrArg (fun o => o.bind fun op => (t.precedence? op).bind fun p => some (op, p)) hlongest

theorem binaryAt?_eq_none_iff {text : List Char} : t.binaryAt? text = none ↔
    longestBeginning (isBinary t) (min t.longestBinary text.length) text = none := by
  constructor
  · intro hnone
    cases hlongest : longestBeginning (isBinary t) (min t.longestBinary text.length) text with
    | none => rfl
    | some op =>
      obtain ⟨_, _, _, _, haccept, -⟩ := longestBeginning_eq_some_iff.mp hlongest
      obtain ⟨p, hp⟩ := Option.isSome_iff_exists.mp haccept
      rw [OperatorTable.binaryAt?_eq_some_iff.mpr ⟨hlongest, hp⟩] at hnone
      cases hnone
  · intro hnone
    rw [Option.eq_none_iff_forall_ne_some]
    rintro ⟨op, p⟩ hsome
    have hlongest :
        longestBeginning (isBinary t) (min t.longestBinary text.length) text = some op :=
      (OperatorTable.binaryAt?_eq_some_iff.mp hsome).1
    rw [hnone] at hlongest
    cases hlongest

/-- The greatest length is settled by what is accepted. -/
theorem IsLongest.unique {accept : String → Bool} {m n : Nat} (hm : IsLongest accept m)
    (hn : IsLongest accept n) : m = n := by
  have hle : ∀ {m n : Nat}, IsLongest accept m → IsLongest accept n → m ≤ n := by
    intro m n hm hn
    rcases hm.2 with hzero | ⟨op, hop, hop'⟩
    · omega
    · have := hn.1 op hop
      omega
  exact Nat.le_antisymm (hle hm hn) (hle hn hm)

theorem all_isUnary_iff : t.unary.all u.isUnary = true ↔
    ∀ op, t.isUnary op = true → u.isUnary op = true := by
  simp [OperatorTable.isUnary]

theorem all_precedence_iff (ht : t.binary.keys.Nodup) :
    t.binary.all (fun (op, p) => u.precedence? op == some p) = true ↔
      ∀ op p, t.precedence? op = some p → u.precedence? op = some p := by
  rw [List.all_eq_true]
  constructor
  · intro h op p hp
    simpa using h (op, p) (Keyed.mem_of_get? hp)
  · rintro h ⟨op, p⟩ hmem
    simpa using h op p ((Keyed.get?_eq_some_iff ht).mpr hmem)

theorem letters_agrees_iff (l m : Letters) :
    l.agrees m = true ↔ ∀ c, l.isExtra c = m.isExtra c := by
  simp only [Letters.agrees, Bool.and_eq_true, List.all_eq_true, Letters.isExtra,
    List.contains_iff_mem]
  constructor
  · rintro ⟨hl, hm⟩ c
    rw [Bool.eq_iff_iff, List.contains_iff_mem, List.contains_iff_mem]
    exact ⟨hl c, hm c⟩
  · intro h
    exact ⟨fun c hc => by rw [← List.contains_iff_mem, ← h c, List.contains_iff_mem]; exact hc,
      fun c hc => by rw [← List.contains_iff_mem, h c, List.contains_iff_mem]; exact hc⟩

/-- Sound tables are the same exactly if they hold the same operators with the same precedences;
their lengths then are the same by themselves. -/
theorem agrees_iff (ht : Sound t) (hu : Sound u) : t.agrees u = true ↔
    (∀ op, t.isUnary op = u.isUnary op) ∧ ∀ op, t.precedence? op = u.precedence? op := by
  simp only [OperatorTable.agrees, Bool.and_eq_true, beq_iff_eq, all_isUnary_iff,
    all_precedence_iff ht.nodup, all_precedence_iff hu.nodup]
  constructor
  · rintro ⟨⟨⟨⟨⟨htu, hut⟩, hptu⟩, hput⟩, -⟩, -⟩
    refine ⟨fun op => Bool.eq_iff_iff.mpr ⟨htu op, hut op⟩, fun op => ?_⟩
    exact Option.ext fun p => ⟨hptu op p, hput op p⟩
  · rintro ⟨hunary, hbinary⟩
    have hlongest : IsLongest t.isUnary u.longestUnary := hu.unary.congr hunary
    have hlongest' : IsLongest (isBinary t) u.longestBinary :=
      hu.binary.congr fun op => by rw [isBinary, isBinary, hbinary]
    refine ⟨⟨⟨⟨⟨?_, ?_⟩, ?_⟩, ?_⟩, ht.unary.unique hlongest⟩, ht.binary.unique hlongest'⟩
    · exact fun op hop => (hunary op).symm.trans hop
    · exact fun op hop => (hunary op).trans hop
    · exact fun op p hp => (hbinary op).symm.trans hp
    · exact fun op p hp => (hbinary op).trans hp

end

/-- However a grammar came about, the lengths of its table are those of its longest operators. So
the match at the beginning of a text is the longest registered operator there, also if no more of
the text is looked at than the longest operator is long; and two grammars are the same exactly if
the same is registered in them. -/
theorem lengths_of_reachable {g : Grammar} (hg : g.Reachable) :
    IsLongest g.operators.isUnary g.operators.longestUnary ∧
    IsLongest (isBinary g.operators) g.operators.longestBinary ∧
    (∀ text,
      (∀ op, g.operators.unaryAt? text = some op ↔
        IsLongestMatch g.operators.isUnary text op) ∧
      (g.operators.unaryAt? text = none ↔
        ∀ op, g.operators.isUnary op = true → op.toList <+: text → op = "") ∧
      (∀ op p, g.operators.binaryAt? text = some (op, p) ↔
        IsLongestMatch (isBinary g.operators) text op ∧ g.operators.precedence? op = some p) ∧
      (g.operators.binaryAt? text = none ↔
        ∀ op, isBinary g.operators op = true → op.toList <+: text → op = "") ∧
      g.operators.unaryAt? (text.take g.operators.longestUnary) = g.operators.unaryAt? text ∧
      g.operators.binaryAt? (text.take g.operators.longestBinary) = g.operators.binaryAt? text) ∧
    ∀ h : Grammar, h.Reachable → (g.agrees h = true ↔
      (∀ op, g.operators.isUnary op = h.operators.isUnary op) ∧
      (∀ op, g.operators.precedence? op = h.operators.precedence? op) ∧
      (∀ c, g.letters.isExtra c = h.letters.isExtra c) ∧ g.thisWord = h.thisWord) := by
  have hsound := sound_of_reachable hg
  refine ⟨hsound.unary, hsound.binary, fun text => ⟨fun op => ?_, ?_, fun op p => ?_, ?_,
    unaryAt?_take _ text, binaryAt?_take _ text⟩, fun h hh => ?_⟩
  · exact longestBeginning_eq_some_iff_isLongestMatch hsound.unary
  · exact longestBeginning_eq_none_iff_of_isLongest hsound.unary
  · rw [OperatorTable.binaryAt?_eq_some_iff]
    exact and_congr_left fun _ => longestBeginning_eq_some_iff_isLongestMatch hsound.binary
  · rw [binaryAt?_eq_none_iff]
    exact longestBeginning_eq_none_iff_of_isLongest hsound.binary
  · simp only [Grammar.agrees, Bool.and_eq_true, beq_iff_eq, letters_agrees_iff,
      agrees_iff hsound (sound_of_reachable hh), and_assoc]

/-- An operator that was never there is removed; it is as long as the longest one. -/
theorem lengths_of_reachable_three_characters :
    let g := ((Grammar.bare.addBinary "<" 7).addBinary "<=>" 7).removeBinary ">>>"
    g.Reachable ∧ IsLongest (isBinary g.operators) 3 ∧
      IsLongestMatch (isBinary g.operators) "<=>b".toList "<=>" := by
  have hg : (((Grammar.bare.addBinary "<" 7).addBinary "<=>" 7).removeBinary ">>>").Reachable :=
    .removeBinary _ (.addBinary _ _ (.addBinary _ _ .bare))
  obtain ⟨-, hbinary, hmatch, -⟩ := lengths_of_reachable hg
  refine ⟨hg, hbinary, ?_⟩
  exact (((hmatch "<=>b".toList).2.2.1 "<=>" 7).mp (by decide +kernel)).1

end Histories

end ExprTree
