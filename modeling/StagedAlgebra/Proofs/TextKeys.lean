import StagedAlgebra.Operator.Join
import StagedAlgebra.Proofs.FloatTexts
import StagedAlgebra.Proofs.RecordCodec

/-!
# Texts as keys

Records are grouped by the texts of tuples and by the texts of joining values. Equal texts stand
for equal tuples and for equal lists of values, so grouping by text is grouping by value. Nothing
is assumed of the binary numbers: they need not read back, only have distinct texts.
-/

namespace StagedAlgebra

open Json (written writtenItems writtenFields intText floatText)

theorem Json.written_eq_of_compact {j k : Json} (h : j.compact = k.compact) :
    j.written = k.written := by
  have parsed := Json.parse_compact j
  rw [h, Json.parse_compact k] at parsed
  exact (Option.some.inj parsed).symm

theorem Json.intText_injective {i k : Int} (h : intText i = intText k) : i = k := by
  simp only [intText, NumberText.mk.injEq, decide_eq_decide, and_true] at h
  have magnitude := Text.natChars_injective h.2
  have sign := h.1
  omega

/-- Scalars that are written alike are equal. -/
theorem Scalar.eq_of_written {v w : Scalar} (h : written v.toJson = written w.toJson) : v = w := by
  cases v <;> cases w <;>
    simp only [toJson, written, Json.Written.bool.injEq, Json.Written.number.injEq,
      Json.Written.string.injEq, Option.some.injEq, reduceCtorEq] at h
  case null.null => rfl
  case bool.bool => rw [h]
  case int.int => rw [Int64.toInt_inj.mp (Json.intText_injective h)]
  case float.float => rw [Json.floatText_injective h]
  case text.text => rw [h]
  case int.float => exact absurd h.symm (Json.floatText_ne_intText _ _)
  case float.int => exact absurd h (Json.floatText_ne_intText _ _)

theorem Scalar.eq_of_writtenItems {vs ws : List Scalar}
    (h : writtenItems (vs.map toJson) = writtenItems (ws.map toJson)) : vs = ws := by
  induction vs generalizing ws with
  | nil =>
      cases ws with
      | nil => rfl
      | cons w ws => cases h
  | cons v vs ih =>
      cases ws with
      | nil => cases h
      | cons w ws =>
          simp only [List.map_cons, writtenItems, List.cons.injEq] at h
          rw [Scalar.eq_of_written h.1, ih h.2]

theorem Tuple.eq_of_writtenFields {es fs : List (String × Scalar)}
    (h : writtenFields (es.map fun (key, value) => (key, value.toJson)) =
      writtenFields (fs.map fun (key, value) => (key, value.toJson))) : es = fs := by
  induction es generalizing fs with
  | nil =>
      cases fs with
      | nil => rfl
      | cons f fs => cases h
  | cons e es ih =>
      cases fs with
      | nil => cases h
      | cons f fs =>
          simp only [List.map_cons, writtenFields, List.cons.injEq, Prod.mk.injEq,
            Option.some.injEq] at h
          rw [ih h.2, Prod.ext h.1.1 (Scalar.eq_of_written h.1.2)]

/-- Tuples with one text are equal. -/
theorem Tuple.text_injective {t u : Tuple} (h : t.text = u.text) : t = u := by
  have fields := Json.written_eq_of_compact h
  simp only [toJson, written, Json.Written.object.injEq] at fields
  exact Table.ext (Tuple.eq_of_writtenFields fields)

/-- Joining values with one text are equal. -/
theorem KeyJoin.keyText_injective {vs ws : List Scalar} (h : keyText vs = keyText ws) :
    vs = ws := by
  have items := Json.written_eq_of_compact h
  simp only [written, Json.Written.array.injEq] at items
  exact Scalar.eq_of_writtenItems items

/-- Records with one label and one text are equal. -/
theorem Record.eq_of_text {r s : Record} (label : r.label = s.label)
    (text : Tuple.text r.tuple = Tuple.text s.tuple) : r = s := by
  cases r
  cases s
  cases label
  cases Tuple.text_injective text
  rfl

end StagedAlgebra
