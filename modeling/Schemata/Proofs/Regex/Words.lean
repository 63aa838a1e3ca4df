import Schemata.Proofs.Regex.Matching
import Schemata.Proofs.Value.Decimal
import Schemata.Regex.Reader
import Mathlib

/-! The words that parts of a regular expression match, place by place, and those that the key of a numeric index
signature matches: the numerals, with digits of any script. -/
namespace Schemata.Regex

section Words

/-- The characters from one place of a text to another. -/
def Covers (text : Subject) (p q : Nat) (cs : List Char) : Prop :=
  ∃ before behind, text.toList = before ++ (cs ++ behind) ∧ before.length = p ∧ q = p + cs.length

/-- The part matches the characters between two places just when they are a word of `L`. -/
def Spells (text : Subject) (flags : RegexFlags) (r : Regex) (L : List Char → Prop) : Prop :=
  ∀ p q, p ≤ text.size → (Matches text flags r p q ↔ ∃ cs, Covers text p q cs ∧ L cs)

/-- The parts in a row match a word of `L`. -/
def SpellsAll (text : Subject) (flags : RegexFlags) (rs : List Regex) (L : List Char → Prop) : Prop :=
  ∀ p q, p ≤ text.size → (MatchesAll text flags rs p q ↔ ∃ cs, Covers text p q cs ∧ L cs)

variable {text : Subject} {flags : RegexFlags} {r : Regex} {rs : List Regex} {L M : List Char → Prop} {p q : Nat}
  {cs ds : List Char}

theorem Covers.le_size (h : Covers text p q cs) : q ≤ text.size := by
  obtain ⟨before, behind, htext, rfl, rfl⟩ := h
  rw [← Array.length_toList, htext]
  simp

theorem covers_nil (hp : p ≤ text.size) : Covers text p q [] ↔ q = p := by
  constructor
  · rintro ⟨before, behind, -, -, rfl⟩
    rfl
  · rintro rfl
    exact ⟨text.toList.take q, text.toList.drop q, by simp, by simpa using hp, by simp⟩

theorem covers_append : Covers text p q (cs ++ ds) ↔ ∃ m, Covers text p m cs ∧ Covers text m q ds := by
  constructor
  · rintro ⟨before, behind, htext, rfl, rfl⟩
    refine ⟨_, ⟨before, ds ++ behind, by simpa using htext, rfl, rfl⟩, before ++ cs, behind, by simpa using htext, ?_, ?_⟩
    · simp
    · simp [Nat.add_assoc]
  · rintro ⟨_, ⟨before, behind, htext, rfl, rfl⟩, before', behind', htext', hlength, rfl⟩
    rw [htext', ← List.append_assoc before] at htext
    obtain ⟨rfl, hrest⟩ := List.append_inj htext (by simpa using hlength)
    exact ⟨before, behind', by simpa using htext', rfl, by simp [Nat.add_assoc]⟩

theorem spells_char (t : CharTest) : Spells text flags (.char t) fun cs => ∃ c, cs = [c] ∧ t.holds flags c = true := by
  intro p q _
  constructor
  · rintro ⟨rfl, c, hc, hholds⟩
    obtain ⟨hp, rfl⟩ := Array.getElem?_eq_some_iff.mp hc
    refine ⟨[text[p]], ⟨text.toList.take p, text.toList.drop (p + 1), ?_, ?_, rfl⟩, _, rfl, hholds⟩
    · rw [List.singleton_append, ← Array.getElem_toList hp, ← List.drop_eq_getElem_cons, List.take_append_drop]
    · simpa using hp.le
  · rintro ⟨_, ⟨before, behind, htext, rfl, rfl⟩, c, rfl, hholds⟩
    refine ⟨rfl, c, ?_, hholds⟩
    rw [← Array.getElem?_toList, htext]
    simp

theorem spells_group (number : Nat) (h : Spells text flags r L) : Spells text flags (.group number r) L := h

theorem spells_sequence (h : SpellsAll text flags rs L) : Spells text flags (.sequence rs) L := h

theorem spellsAll_nil : SpellsAll text flags [] (· = []) := by
  intro p q hp
  simp only [MatchesAll, exists_eq_right, covers_nil hp]

theorem matchesAll_append {rs ts : List Regex} :
    MatchesAll text flags (rs ++ ts) p q ↔ ∃ m, MatchesAll text flags rs p m ∧ MatchesAll text flags ts m q := by
  induction rs generalizing p with
  | nil => simp [MatchesAll]
  | cons r rs ih =>
    simp only [List.cons_append, MatchesAll, ih]
    constructor
    · rintro ⟨m, hr, n, hrs, hts⟩
      exact ⟨n, ⟨m, hr, hrs⟩, hts⟩
    · rintro ⟨n, ⟨m, hr, hrs⟩, hts⟩
      exact ⟨m, hr, n, hrs, hts⟩

theorem spellsAll_cons (h : Spells text flags r L) (hs : SpellsAll text flags rs M) :
    SpellsAll text flags (r :: rs) fun cs => ∃ as bs, cs = as ++ bs ∧ L as ∧ M bs := by
  intro p q hp
  constructor
  · rintro ⟨m, hr, hrs⟩
    obtain ⟨as, has, hL⟩ := (h p m hp).mp hr
    obtain ⟨bs, hbs, hM⟩ := (hs m q has.le_size).mp hrs
    exact ⟨as ++ bs, covers_append.mpr ⟨m, has, hbs⟩, as, bs, rfl, hL, hM⟩
  · rintro ⟨_, hcovers, as, bs, rfl, hL, hM⟩
    obtain ⟨m, has, hbs⟩ := covers_append.mp hcovers
    exact ⟨m, (h p m hp).mpr ⟨as, has, hL⟩, (hs m q has.le_size).mpr ⟨bs, hbs, hM⟩⟩

/-- At most one round matches nothing or what the part matches. -/
theorem spells_optional (appetite : Appetite) (h : Spells text flags r L) :
    Spells text flags (.repeated appetite 0 (some 1) r) fun cs => cs = [] ∨ L cs := by
  intro p q hp
  constructor
  · rintro ⟨n, -, hmost, hchain⟩
    cases hchain with
    | zero => exact ⟨[], (covers_nil hp).mpr rfl, Or.inl rfl⟩
    | succ hr hrest =>
      cases hrest with
      | zero =>
        obtain ⟨cs, hcs, hL⟩ := (h p q hp).mp hr
        exact ⟨cs, hcs, Or.inr hL⟩
      | succ => exact absurd (hmost 1 rfl) (by omega)
  · rintro ⟨cs, hcs, rfl | hL⟩
    · obtain rfl := (covers_nil hp).mp hcs
      exact ⟨0, Nat.le_refl _, by simp, .zero _⟩
    · exact ⟨1, Nat.zero_le _, by simp, .succ ((h p q hp).mpr ⟨cs, hcs, hL⟩) (.zero _)⟩

/-- Rounds of one character each match as many of them. -/
theorem chain_char {t : CharTest} {n : Nat} (hp : p ≤ text.size) : Chain (Matches text flags (.char t)) n p q ↔
    ∃ cs, Covers text p q cs ∧ cs.length = n ∧ ∀ c ∈ cs, t.holds flags c = true := by
  constructor
  · intro h
    induction h with
    | zero p => exact ⟨[], (covers_nil hp).mpr rfl, rfl, List.forall_mem_nil _⟩
    | @succ n p m q hstep _ ih =>
      obtain ⟨_, hfirst, c, rfl, hc⟩ := (spells_char t p m hp).mp hstep
      obtain ⟨cs, hcs, rfl, hall⟩ := ih hfirst.le_size
      exact ⟨c :: cs, covers_append.mpr ⟨m, hfirst, hcs⟩, rfl, List.forall_mem_cons.mpr ⟨hc, hall⟩⟩
  · rintro ⟨cs, hcs, rfl, hall⟩
    induction cs generalizing p with
    | nil =>
      obtain rfl := (covers_nil hp).mp hcs
      exact .zero _
    | cons c cs ih =>
      obtain ⟨hc, hall⟩ := List.forall_mem_cons.mp hall
      obtain ⟨m, hfirst, hrest⟩ := covers_append.mp (show Covers text p q ([c] ++ cs) from hcs)
      exact .succ ((spells_char t p m hp).mpr ⟨[c], hfirst, c, rfl, hc⟩) (ih hfirst.le_size hrest hall)

theorem spells_many (appetite : Appetite) (t : CharTest) : Spells text flags (.repeated appetite 1 none (.char t))
    fun cs => cs ≠ [] ∧ ∀ c ∈ cs, t.holds flags c = true := by
  intro p q hp
  constructor
  · rintro ⟨n, hn, -, hchain⟩
    obtain ⟨cs, hcs, rfl, hall⟩ := (chain_char hp).mp hchain
    exact ⟨cs, hcs, List.length_pos_iff.mp hn, hall⟩
  · rintro ⟨cs, hcs, hne, hall⟩
    exact ⟨cs.length, List.length_pos_iff.mpr hne, by simp, (chain_char hp).mpr ⟨cs, hcs, rfl, hall⟩⟩

end Words

section Numerals

open Decimal

/-- Digits of any script. -/
def digits : Regex := .repeated .greedy 1 none (.char (.set false [.digit true]))

/-- A sign, digits, and a point with digits, as the key of a numeric index signature asks for them. -/
def numeralParts : List Regex :=
  [.repeated .greedy 0 (some 1) (.char (.literal false 45)), digits,
    .repeated .greedy 0 (some 1) (.group 1 (.sequence [.char (.literal false 46), digits]))]

/-- The expression of a numeric key. -/
def numeric : Regex := .flagged [] (.sequence (.anchor .lineStart :: numeralParts ++ [.anchor .lineEnd]))

theorem read_numeric : read (.ofInt 0) "^-?\\d+(\\.\\d+)?$" = .ok numeric := by
  cbv

variable {text : Subject}

theorem spells_literal (c : Char) : Spells text [] (.char (.literal false c.toNat)) (· = [c]) := by
  intro p q hp
  rw [spells_char _ p q hp]
  simp [CharTest.holds, Char.toNat_inj]

theorem spells_digits : Spells text [] digits (IsDigits Text.isDecimal) := by
  intro p q hp
  rw [digits, spells_many _ _ p q hp]
  simp [CharTest.holds, CharItem.holds, RegexFlags.isDigit, IsDigits]

theorem spells_numeral : SpellsAll text [] numeralParts (IsNumeral Text.isDecimal) := by
  intro p q hp
  have hpoint := spells_optional .greedy <| spells_group 1 <| spells_sequence <|
    spellsAll_cons (spells_literal '.') <| spellsAll_cons spells_digits (@spellsAll_nil text [])
  have hall := spellsAll_cons (spells_optional .greedy (spells_literal '-')) <|
    spellsAll_cons spells_digits <| spellsAll_cons hpoint spellsAll_nil
  refine (hall p q hp).trans (exists_congr fun cs => and_congr_right fun _ => ?_)
  constructor
  · rintro ⟨sign, _, rfl, hsign, whole, _, rfl, hwhole, fraction, _, rfl, hfraction, rfl⟩
    refine ⟨sign, whole, fraction, by simp, hsign, hwhole, hfraction.imp_right ?_⟩
    rintro ⟨_, _, rfl, rfl, ds, _, rfl, hds, rfl⟩
    exact ⟨ds, by simp, hds⟩
  · rintro ⟨sign, whole, fraction, rfl, hsign, hwhole, hfraction⟩
    refine ⟨sign, _, rfl, hsign, whole, fraction, rfl, hwhole, fraction, [], by simp, hfraction.imp_right ?_, rfl⟩
    rintro ⟨ds, rfl, hds⟩
    exact ⟨['.'], ds, rfl, rfl, ds, [], by simp, hds, rfl⟩

theorem covers_start {q : Nat} {cs : List Char} :
    Covers text 0 q cs ↔ ∃ behind, text.toList = cs ++ behind ∧ q = cs.length := by
  constructor
  · rintro ⟨before, behind, htext, hbefore, rfl⟩
    obtain rfl := List.length_eq_zero_iff.mp hbefore
    exact ⟨behind, htext, Nat.zero_add _⟩
  · rintro ⟨behind, htext, rfl⟩
    exact ⟨[], behind, htext, rfl, (Nat.zero_add _).symm⟩

/-- A line ends where the text does, and before the line break that ends the text. -/
theorem lineEnd_iff {cs behind : List Char} (htext : text.toList = cs ++ behind) :
    anchored [] text cs.length .lineEnd = true ↔ behind = [] ∨ behind = ['\n'] := by
  have hget : text[cs.length]? = behind.head? := by
    rw [← Array.getElem?_toList, htext, List.getElem?_append_right (Nat.le_refl _), Nat.sub_self, List.head?_eq_getElem?]
  have hsize : text.size = cs.length + behind.length := by rw [← Array.length_toList, htext, List.length_append]
  simp only [anchored, hget, hsize]
  rcases behind with _ | ⟨c, _ | ⟨d, rest⟩⟩
  · simp
  · simp
  · simp

/-- The whole text is matched, but for a line break that ends it. -/
theorem search_numeric (s : String) : numeric.search s = true ↔
    ∃ cs, IsNumeral Text.isDecimal cs ∧ (s.toList = cs ∨ s.toList = cs ++ ['\n']) := by
  rw [search_iff (by decide)]
  have hmatches : ∀ p q, Matches s.toList.toArray [] numeric p q ↔
      p = 0 ∧ MatchesAll s.toList.toArray [] numeralParts p q ∧ anchored [] s.toList.toArray q .lineEnd = true := by
    intro p q
    show MatchesAll _ [] (.anchor .lineStart :: numeralParts ++ [.anchor .lineEnd]) p q ↔ _
    rw [matchesAll_append]
    simp only [MatchesAll, Matches]
    constructor
    · rintro ⟨_, ⟨_, ⟨rfl, hstart⟩, hparts⟩, _, ⟨rfl, hend⟩, rfl⟩
      exact ⟨by simpa [anchored] using hstart, hparts, hend⟩
    · rintro ⟨rfl, hparts, hend⟩
      exact ⟨q, ⟨0, ⟨rfl, by simp [anchored]⟩, hparts⟩, q, ⟨rfl, hend⟩, rfl⟩
  simp only [hmatches]
  constructor
  · rintro ⟨_, -, q, rfl, hparts, hend⟩
    obtain ⟨cs, hcs, hnumeral⟩ := (spells_numeral 0 q (Nat.zero_le _)).mp hparts
    obtain ⟨behind, htext, rfl⟩ := covers_start.mp hcs
    refine ⟨cs, hnumeral, ?_⟩
    rcases (lineEnd_iff htext).mp hend with rfl | rfl
    · exact Or.inl (by simpa using htext)
    · exact Or.inr (by simpa using htext)
  · rintro ⟨cs, hnumeral, htext⟩
    obtain ⟨behind, hbehind, htext⟩ : ∃ behind, (behind = [] ∨ behind = ['\n']) ∧
        s.toList.toArray.toList = cs ++ behind := by
      rcases htext with htext | htext
      · exact ⟨[], Or.inl rfl, by simpa using htext⟩
      · exact ⟨['\n'], Or.inr rfl, by simpa using htext⟩
    refine ⟨0, Nat.zero_le _, cs.length, rfl, ?_, (lineEnd_iff htext).mpr hbehind⟩
    exact (spells_numeral 0 _ (Nat.zero_le _)).mpr ⟨cs, covers_start.mpr ⟨behind, htext, rfl⟩, hnumeral⟩

theorem isDecimal_of_isDigit (c : Char) (h : c.isDigit = true) : Text.isDecimal c = true := by
  refine List.any_eq_true.mpr ⟨(0x30, 0x39), List.mem_cons_self, ?_⟩
  simp only [Char.isDigit, Bool.and_eq_true, decide_eq_true_eq] at h ⊢
  exact h

/-- The key of a finite number is matched, unless the number is tiny: its exponent is no part of a numeral. -/
theorem search_keyText {n : Number} (hn : n.IsFinite) : numeric.search n.keyText = true ↔ ¬ n.IsTiny := by
  rw [search_numeric]
  constructor
  · rintro ⟨cs, hcs, htext⟩ htiny
    have he := n.exponent_keyText hn htiny
    have hmem : 'e' ∈ cs := by
      rcases htext with htext | htext
      · rwa [htext] at he
      · rw [htext] at he
        simpa using he
    exact absurd (hcs.mem hmem) (by decide)
  · intro htiny
    exact ⟨_, (n.isNumeral_keyText hn htiny).mono isDecimal_of_isDigit, Or.inl rfl⟩

end Numerals

end Schemata.Regex
