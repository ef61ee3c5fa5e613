import Mathlib.Data.List.Basic
import StagedAlgebra.Operator

/-!
# Names and keys

A key joins a label and an attribute's name by a dot. As long as labels hold no dot, a key says
which label and which name it was made of, and giving it another label keeps the name. A bare name
without a dot is the end of a key exactly if it is the key's own name.

Labels of pairs are joined by commas, so a *plain* name, without dots and commas, is never the
label of a pair.
-/

namespace StagedAlgebra

/-- A name that holds neither of the two characters that join names. -/
def PlainName (s : String) : Prop :=
  '.' ∉ s.toList ∧ ',' ∉ s.toList

instance (s : String) : Decidable (PlainName s) :=
  inferInstanceAs (Decidable (_ ∧ _))

namespace Text

theorem splitOnce_append {c : Char} {before : List Char} (h : c ∉ before) (after : List Char) :
    splitOnce c (before ++ c :: after) = some (before, after) := by
  induction before with
  | nil => simp [splitOnce]
  | cons d rest ih =>
      obtain ⟨hd, hrest⟩ : ¬ c = d ∧ c ∉ rest := by simpa using h
      simp [splitOnce, Ne.symm hd, ih hrest]

end Text

theorem toList_attributeKey (label name : String) :
    (attributeKey label name).toList = label.toList ++ '.' :: name.toList := by
  simp [attributeKey]

/-- A key is cut at its first dot into the label and the name it was made of. -/
theorem splitOnce_attributeKey {label : String} (h : '.' ∉ label.toList) (name : String) :
    Text.splitOnce '.' (attributeKey label name).toList = some (label.toList, name.toList) := by
  rw [toList_attributeKey]
  exact Text.splitOnce_append h _

/-- Keys with labels without dots are equal only if label and name are. -/
theorem attributeKey_inj {label label' name name' : String} (h : '.' ∉ label.toList)
    (h' : '.' ∉ label'.toList) :
    attributeKey label name = attributeKey label' name' ↔ label = label' ∧ name = name' := by
  constructor
  · intro heq
    have hsplit := splitOnce_attributeKey h name
    rw [heq, splitOnce_attributeKey h' name'] at hsplit
    simpa [eq_comm, String.toList_inj] using hsplit
  · rintro ⟨rfl, rfl⟩
    rfl

/-- Under one label, keys are equal only if the names are. -/
theorem attributeKey_right_inj {label name name' : String} :
    attributeKey label name = attributeKey label name' ↔ name = name' := by
  constructor
  · intro heq
    have hlist := congrArg String.toList heq
    simpa [toList_attributeKey, String.toList_inj] using hlist
  · rintro rfl
    rfl

/-- Another label keeps the name of a key. -/
theorem rekey_attributeKey {label : String} (h : '.' ∉ label.toList) (newLabel name : String) :
    rekey newLabel (attributeKey label name) = attributeKey newLabel name := by
  simp [rekey, splitOnce_attributeKey h]

/-- A suffix that starts with a character that comes only once is what follows it. -/
theorem isSuffixOf_append_iff {c : Char} {xs ys zs : List Char} (hy : c ∉ ys) (hz : c ∉ zs) :
    (c :: zs).isSuffixOf (xs ++ c :: ys) = true ↔ ys = zs := by
  rw [List.isSuffixOf_iff_suffix]
  constructor
  · intro hsuffix
    have hys : (c :: ys) <:+ xs ++ c :: ys := List.suffix_append _ _
    have hlen : ∀ {as bs : List Char}, c ∉ bs → (c :: as) <:+ c :: bs → as = bs := by
      intro as bs hb hs
      rcases List.suffix_cons_iff.1 hs with heq | htail
      · exact (List.cons.inj heq).2
      · exact absurd (htail.subset (List.mem_cons_self ..)) hb
    rcases Nat.le_total (c :: zs).length (c :: ys).length with hle | hle
    · exact (hlen hy (List.suffix_of_suffix_length_le hsuffix hys hle)).symm
    · exact hlen hz (List.suffix_of_suffix_length_le hys hsuffix hle)
  · rintro rfl
    exact List.suffix_append _ _

/-- A bare name ends a key exactly if it is the name of the key. -/
theorem keyEndsIn_attributeKey {label name bareName : String} (hname : '.' ∉ name.toList)
    (hbare : '.' ∉ bareName.toList) :
    keyEndsIn bareName (attributeKey label name) = true ↔ name = bareName := by
  have hne : attributeKey label name ≠ bareName := by
    intro heq
    apply hbare
    rw [← heq, toList_attributeKey]
    simp
  simp only [keyEndsIn, Bool.or_eq_true, beq_iff_eq, hne, false_or, toList_attributeKey]
  rw [isSuffixOf_append_iff hname hbare, String.toList_inj]

/-- The label of a pair is no plain name. -/
theorem not_plainName_pairLabel (left right : String) : ¬ PlainName (Plan.pairLabel left right) := by
  intro h
  apply h.2
  simp [Plan.pairLabel]

end StagedAlgebra
