import Mathlib.Data.List.Infix
import Mathlib.Data.List.TakeWhile
import StagedAlgebra.Attribute
import StagedAlgebra.Proofs.Names

/-!
# References are read from their texts

Reading a reference removes the blanks around its parts, so what is read is in a canonical form:
no part is empty, holds a dot or has a blank at one of its ends. The canonical references are the
ones that can be read, and each is read from its own text: `Attribute.canonical_iff`,
`Attribute.Canonical.parse_text`. Which texts can be read is decided by their dots and by what is
left of their parts without blanks: `Attribute.parse_readable`.
-/

namespace StagedAlgebra

namespace Text

/-- There is no blank at either end. -/
def Trimmed (cs : List Char) : Prop :=
  (∀ c ∈ cs.head?, isBlank c = false) ∧ ∀ c ∈ cs.getLast?, isBlank c = false

theorem dropBlanks_of_head {cs : List Char} (h : ∀ c ∈ cs.head?, isBlank c = false) :
    dropBlanks cs = cs := by
  cases cs with
  | nil => rfl
  | cons c cs => simp [dropBlanks, h c (by simp)]

theorem head_dropBlanks (cs : List Char) : ∀ c ∈ (dropBlanks cs).head?, isBlank c = false := by
  intro c first
  have found := List.head?_dropWhile_not isBlank cs
  rw [dropBlanks] at first
  simpa [Option.mem_def.mp first] using found

theorem trimChars_isPrefix (cs : List Char) : trimChars cs <+: dropBlanks cs := by
  rw [← List.reverse_suffix, trimChars, List.reverse_reverse]
  exact List.dropWhile_suffix _

theorem mem_of_mem_trimChars {cs : List Char} {c : Char} (h : c ∈ trimChars cs) : c ∈ cs :=
  (List.dropWhile_suffix _).mem ((trimChars_isPrefix cs).mem h)

theorem trimmed_trimChars (cs : List Char) : Trimmed (trimChars cs) := by
  constructor
  · intro c first
    obtain ⟨rest, split⟩ := trimChars_isPrefix cs
    refine head_dropBlanks cs c ?_
    rw [← split, List.head?_append, Option.mem_def.mp first]
    rfl
  · rw [trimChars, List.getLast?_reverse]
    exact head_dropBlanks _

/-- Trimming takes away blanks only. -/
theorem mem_trimChars_iff {cs : List Char} {c : Char} (h : isBlank c = false) :
    c ∈ trimChars cs ↔ c ∈ cs := by
  have front (ds : List Char) : c ∈ dropBlanks ds ↔ c ∈ ds := by
    constructor
    · exact fun member => (List.dropWhile_suffix _).mem member
    · intro member
      rw [← List.takeWhile_append_dropWhile (p := isBlank) (l := ds), List.mem_append] at member
      apply member.resolve_left
      intro blank
      exact Bool.false_ne_true (h.symm.trans (List.mem_takeWhile_imp blank))
  rw [trimChars, List.mem_reverse, front, List.mem_reverse, front]

/-- What is left after trimming is some text exactly if not everything is blank. -/
theorem trimChars_ne_nil_iff {cs : List Char} :
    trimChars cs ≠ [] ↔ ∃ c ∈ cs, isBlank c = false := by
  constructor
  · intro some_text
    obtain ⟨c, rest, split⟩ := List.exists_cons_of_ne_nil some_text
    have first : isBlank c = false := (trimmed_trimChars cs).1 c (by simp [split])
    exact ⟨c, (mem_trimChars_iff first).mp (by simp [split]), first⟩
  · rintro ⟨c, member, some_char⟩
    exact List.ne_nil_of_mem ((mem_trimChars_iff some_char).mpr member)

theorem Trimmed.trimChars_eq {cs : List Char} (h : Trimmed cs) : trimChars cs = cs := by
  rw [trimChars, dropBlanks_of_head h.1, dropBlanks_of_head, List.reverse_reverse]
  rw [List.head?_reverse]
  exact h.2

theorem Trimmed.join {before after : List Char} (h : Trimmed before) (h' : Trimmed after)
    (some_before : before ≠ []) (some_after : after ≠ []) (c : Char) :
    Trimmed (before ++ c :: after) := by
  constructor
  · intro d first
    rw [List.head?_append_of_ne_nil _ some_before] at first
    exact h.1 d first
  · intro d last
    rw [List.getLast?_append_of_ne_nil _ (by simp), List.getLast?_cons_of_ne_nil some_after] at last
    exact h'.2 d last

end Text

namespace Attribute

/-- What a part of a reference is: some text without a dot or a blank at one of its ends. -/
structure IsPart (part : List Char) : Prop where
  nonempty : part ≠ []
  trimmed : Text.Trimmed part
  dotless : '.' ∉ part

theorem IsPart.isEmpty_eq_false {part : List Char} (h : IsPart part) : part.isEmpty = false := by
  simpa using h.nonempty

/-- Every part of the reference is as one that is read. -/
structure Canonical (a : Attribute) : Prop where
  relation : ∀ r ∈ a.relation, IsPart r.toList
  name : IsPart a.name.toList

/-- What is read is canonical. -/
theorem canonical_of_parse {s : String} {a : Attribute} (h : parse s = .ok a) : a.Canonical := by
  have trimmed := Text.trimmed_trimChars s.toList
  simp only [parse] at h
  split at h
  case h_1 before after split =>
    obtain ⟨-, dotless⟩ := Text.splitOnce_eq_some split
    split at h
    · cases h
    · next parts =>
        simp only [Bool.or_eq_true, List.isEmpty_iff, List.contains_iff_mem, not_or] at parts
        obtain ⟨⟨some_before, some_after⟩, single⟩ := parts
        cases h
        refine ⟨?_, ?_⟩
        · intro r relation
          cases relation
          rw [String.toList_ofList]
          exact ⟨some_before, Text.trimmed_trimChars before,
            fun dot => dotless (Text.mem_of_mem_trimChars dot)⟩
        · simp only [qualified, String.toList_ofList]
          exact ⟨some_after, Text.trimmed_trimChars after, single⟩
  case h_2 none =>
    split at h
    · cases h
    · next some_text =>
        cases h
        refine ⟨by simp [bare], ?_⟩
        simp only [bare, String.toList_ofList]
        exact ⟨by simpa using some_text, trimmed, Text.splitOnce_eq_none.mp none⟩

/-- A canonical reference is read from its text. -/
theorem Canonical.parse_text {a : Attribute} (h : a.Canonical) : parse a.text = .ok a := by
  obtain ⟨relation, name⟩ := a
  have part : IsPart name.toList := h.name
  cases relation with
  | none =>
      simp only [parse, text, part.trimmed.trimChars_eq, Text.splitOnce_eq_none.mpr part.dotless,
        part.isEmpty_eq_false, Bool.false_eq_true, if_false, String.ofList_toList]
      rfl
  | some relation =>
      have front : IsPart relation.toList := h.relation relation rfl
      have whole := front.trimmed.join part.trimmed front.nonempty part.nonempty '.'
      have chars : (attributeKey relation name).toList = relation.toList ++ '.' :: name.toList := by
        simp [attributeKey]
      have single : name.toList.contains '.' = false := by simpa using part.dotless
      simp only [parse, text, chars, whole.trimChars_eq, Text.splitOnce_append front.dotless,
        front.trimmed.trimChars_eq, part.trimmed.trimChars_eq, front.isEmpty_eq_false,
        part.isEmpty_eq_false, single, Bool.or_false, Bool.false_eq_true, if_false,
        String.ofList_toList]
      rfl

/-- The canonical references are those that can be read. -/
theorem canonical_iff {a : Attribute} : a.Canonical ↔ ∃ s, parse s = .ok a :=
  ⟨fun h => ⟨a.text, h.parse_text⟩, fun ⟨_, h⟩ => canonical_of_parse h⟩

/-- A text without blanks at its ends that stands for a reference: some text without a dot, or one
dot with more than blanks on both its sides. -/
def Readable (cs : List Char) : Prop :=
  (cs ≠ [] ∧ '.' ∉ cs) ∨
    ∃ before after, cs = before ++ '.' :: after ∧ '.' ∉ before ∧ '.' ∉ after ∧
      (∃ c ∈ before, Text.isBlank c = false) ∧ ∃ c ∈ after, Text.isBlank c = false

/-- Around its first dot, a readable text has more than blanks, and no dot after it. -/
theorem readable_append_iff {before : List Char} (dotless : '.' ∉ before) (after : List Char) :
    Readable (before ++ '.' :: after) ↔
      '.' ∉ after ∧ (∃ c ∈ before, Text.isBlank c = false) ∧
        ∃ c ∈ after, Text.isBlank c = false := by
  constructor
  · rintro (⟨-, none⟩ | ⟨before', after', same, dotless', parts⟩)
    · exact absurd (by simp) none
    · have cut := Text.splitOnce_append dotless after
      rw [same, Text.splitOnce_append dotless', Option.some.injEq, Prod.mk.injEq] at cut
      obtain ⟨rfl, rfl⟩ := cut
      exact parts
  · intro parts
    exact .inr ⟨before, after, rfl, dotless, parts⟩

/-- The readable texts are those that are read. -/
theorem exists_parse_iff (s : String) :
    (∃ a, parse s = .ok a) ↔ Readable (Text.trimChars s.toList) := by
  unfold parse
  dsimp only
  generalize Text.trimChars s.toList = cs
  cases cut : Text.splitOnce '.' cs with
  | none =>
      have dotless := Text.splitOnce_eq_none.mp cut
      have alone : Readable cs ↔ cs ≠ [] := by
        constructor
        · rintro (⟨some_text, -⟩ | ⟨before, after, rfl, -⟩)
          · exact some_text
          · exact absurd (by simp) dotless
        · exact fun some_text => .inl ⟨some_text, dotless⟩
      rw [alone]
      by_cases empty : cs = [] <;> simp [empty]
  | some parts =>
      obtain ⟨before, after⟩ := parts
      obtain ⟨rfl, dotless⟩ := Text.splitOnce_eq_some cut
      have dots : '.' ∈ Text.trimChars after ↔ '.' ∈ after := Text.mem_trimChars_iff (by decide)
      rw [readable_append_iff dotless, ← Text.trimChars_ne_nil_iff, ← Text.trimChars_ne_nil_iff,
        ← dots]
      dsimp only
      split
      · rename_i misshapen
        simp only [Bool.or_eq_true, List.isEmpty_iff, List.contains_iff_mem] at misshapen
        simp only [reduceCtorEq, exists_false, false_iff]
        rintro ⟨single, some_before, some_after⟩
        rcases misshapen with (none_before | none_after) | dot
        · exact some_before none_before
        · exact some_after none_after
        · exact single dot
      · rename_i shaped
        simp only [Bool.or_eq_true, List.isEmpty_iff, List.contains_iff_mem, not_or] at shaped
        simp [shaped]

/-- A text is a reference exactly if, without the blanks at its ends, it is some text without a dot
or has one dot with more than blanks on both its sides. The reference is read again from its own
text, and no other one that is read has this text. -/
theorem parse_readable (s : String) :
    ((∃ a, parse s = .ok a) ↔ Readable (Text.trimChars s.toList)) ∧
      ∀ a, parse s = .ok a →
        parse a.text = .ok a ∧ ∀ t b, parse t = .ok b → b.text = a.text → b = a := by
  refine ⟨exists_parse_iff s, fun a read => ?_⟩
  have again : parse a.text = .ok a := (canonical_of_parse read).parse_text
  refine ⟨again, fun t b read' same => ?_⟩
  have other : parse b.text = .ok b := (canonical_of_parse read').parse_text
  rw [same, again] at other
  exact (Except.ok.inj other).symm

/-- A tab, a line feed and a wide blank at the ends and around the dot are no part of the reference,
while the blank inside the relation's name is. -/
theorem parse_readable_blanks :
    let age : Attribute := .qualified "Old Person" "age"
    parse "\t Old Person\u3000. age\n" = .ok age ∧ parse age.text = .ok age ∧
      parse "Old Person .age" = .ok age ∧
      ∀ b, parse " Old Person.\u3000age" = .ok b → b.text = age.text → b = age := by
  intro age
  have read : parse "\t Old Person\u3000. age\n" = .ok age := by decide +kernel
  obtain ⟨again, alone⟩ := (parse_readable _).2 age read
  exact ⟨read, again, by decide +kernel, alone " Old Person.\u3000age"⟩

end Attribute

end StagedAlgebra
