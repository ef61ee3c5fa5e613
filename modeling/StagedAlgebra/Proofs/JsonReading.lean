import StagedAlgebra.Json.Reader
import StagedAlgebra.Proofs.NumberTexts

/-!
# JSON values are read as they are written

The characters of a value, in front of anything that can follow one, are read as the value's
written form `Json.written`, whatever blanks stand between its parts. So the text of a value
determines its written form, and a value is read back if its numbers are.

## Implementation notes

The reader is given a bound for its steps. The number of characters that a value takes is
enough for the value, and the bound of `Written.parse` is larger.
-/

namespace StagedAlgebra.Json

theorem hexNumber?_hexDigit : ∀ n < 32,
    hexNumber? '0' '0' (hexDigit (n / 16)) (hexDigit (n % 16)) = some n := by
  decide

/-- A character is escaped by a letter, or by its number, or it stands for itself. -/
theorem escape_cases (c : Char) :
    (∃ e, e ≠ 'u' ∧ 32 ≤ e.toNat ∧ escape c = ['\\', e] ∧ unescape? e = some c) ∨
      (c.toNat < 32 ∧
        escape c = ['\\', 'u', '0', '0', hexDigit (c.toNat / 16), hexDigit (c.toNat % 16)]) ∨
      (32 ≤ c.toNat ∧ c ≠ '"' ∧ c ≠ '\\' ∧ escape c = [c]) := by
  unfold escape
  iterate 7
    split
    · subst_vars
      exact .inl ⟨_, by decide, by decide, rfl, rfl⟩
  split
  · rename_i control
    exact .inr (.inl ⟨control, rfl⟩)
  · rename_i quote backslash _ _ _ _ _ plain
    exact .inr (.inr ⟨by omega, quote, backslash, rfl⟩)

/-- An escaped character is read as the character. -/
theorem readQuoted_escape {q : QuotedStart} (hq : q.high = none) (c : Char) (more : List Char) :
    readQuoted q (escape c ++ more) = readQuoted (q.add c) more := by
  obtain ⟨e, other, -, chars, letter⟩ | ⟨control, chars⟩ | ⟨plain, quote, backslash, chars⟩ :=
    escape_cases c
  · rw [chars, List.cons_append, List.cons_append, List.nil_append, readQuoted]
    · rw [letter]
    · simp_all
  · have unit : q.addUnit c.toNat = q.add c := by
      have low : isLowSurrogate c.toNat = false := by simp [isLowSurrogate]; omega
      have high : isHighSurrogate c.toNat = false := by simp [isHighSurrogate]; omega
      simp [QuotedStart.addUnit, hq, low, high]
    rw [chars]
    simp only [List.cons_append, List.nil_append]
    rw [readQuoted, hexNumber?_hexDigit _ control]
    dsimp only
    rw [unit]
  · rw [chars, List.cons_append, List.nil_append, readQuoted]
    · rw [if_neg (by omega)]
    all_goals simp_all

/-- The characters of a quoted text are read as the text. -/
theorem readQuoted_quoteChars (cs rest done : List Char) :
    readQuoted ⟨done, none, false⟩ (quoteChars rest cs) =
      some (some (String.ofList (done.reverse ++ cs)), rest) := by
  induction cs generalizing done with
  | nil => simp [quoteChars, readQuoted, QuotedStart.text?]
  | cons c cs ih =>
      rw [quoteChars, readQuoted_escape rfl]
      simp [QuotedStart.add, ih]

theorem readQuoted_quote (s : String) (rest : List Char) :
    readQuoted {} (quoteChars rest s.toList) = some (some s, rest) := by
  simpa using readQuoted_quoteChars s.toList rest []

mutual

/-- The form in which a value is written. -/
def written : Json → Written
  | .null => .null
  | .bool b => .bool b
  | .int i => .number (intText i)
  | .float x => .number (floatText x)
  | .string s => .string (some s)
  | .array items => .array (writtenItems items)
  | .object fields => .object (writtenFields fields)

/-- The forms of items. -/
def writtenItems : List Json → List Written
  | [] => []
  | item :: items => item.written :: writtenItems items

/-- The forms of fields. -/
def writtenFields : List (String × Json) → List (Option String × Written)
  | [] => []
  | (name, value) :: fields => (some name, value.written) :: writtenFields fields

end

/-- Not one of the characters that stand between values. -/
def StartsValue (c : Char) : Prop :=
  isJsonBlank c = false ∧ c ≠ ']' ∧ c ≠ '\x7d'

instance (c : Char) : Decidable (StartsValue c) :=
  inferInstanceAs (Decidable (_ ∧ _))

theorem NumberText.WellFormed.exists_chars {t : NumberText} (wf : t.WellFormed) :
    ∃ c cs, t.chars = c :: cs ∧ (Text.isDigit c = true ∨ c = '-') := by
  unfold NumberText.chars
  cases t.negative with
  | true => exact ⟨_, _, rfl, .inr rfl⟩
  | false =>
      cases whole : t.whole with
      | nil => exact absurd whole wf.whole_ne_nil
      | cons c cs => exact ⟨c, _, rfl, .inl (wf.whole_digits c (by simp [whole]))⟩

theorem startsValue_of_isDigit {c : Char} (h : Text.isDigit c = true ∨ c = '-') :
    StartsValue c := by
  rcases h with digit | rfl
  · have apart : ∀ d, Text.isDigit d = false → c ≠ d := by
      rintro d other rfl
      rw [digit] at other
      cases other
    refine ⟨?_, apart _ (by decide), apart _ (by decide)⟩
    simp [isJsonBlank, apart ' ' (by decide), apart '\n' (by decide), apart '\t' (by decide),
      apart '\r' (by decide)]
  · decide

/-- A value is written with a first character that stands for a value. -/
theorem exists_write (rest : List Char) (j : Json) :
    ∃ c cs, write rest j = c :: cs ∧ StartsValue c := by
  have number {t : NumberText} (wf : t.WellFormed) :
      ∃ c cs, t.chars ++ rest = c :: cs ∧ StartsValue c := by
    obtain ⟨c, cs, chars, start⟩ := wf.exists_chars
    exact ⟨c, cs ++ rest, by simp [chars], startsValue_of_isDigit start⟩
  match j with
  | .null => exact ⟨_, _, by rw [write], by decide⟩
  | .bool true => exact ⟨_, _, by rw [write], by decide⟩
  | .bool false => exact ⟨_, _, by rw [write], by decide⟩
  | .int i =>
      rw [write, ← chars_intText]
      exact number (wellFormed_intText i)
  | .float x =>
      rw [write, ← chars_floatText]
      exact number (wellFormed_floatText x)
  | .string s => exact ⟨_, _, by rw [write, quote], by decide⟩
  | .array [] => exact ⟨_, _, by rw [write], by decide⟩
  | .array (_ :: _) => exact ⟨_, _, by rw [write], by decide⟩
  | .object [] => exact ⟨_, _, by rw [write], by decide⟩
  | .object ((_, _) :: _) => exact ⟨_, _, by rw [write], by decide⟩

theorem skipBlanks_cons {c : Char} {cs : List Char} (h : isJsonBlank c = false) :
    skipBlanks (c :: cs) = c :: cs := by
  simp [skipBlanks, h]

theorem readValue_number {t : NumberText} (wf : t.WellFormed) {rest : List Char}
    (h : Delimited rest) (n : Nat) :
    readValue (n + 1) (t.chars ++ rest) = some (.number t, rest) := by
  have read := readNumber_chars wf h
  obtain ⟨c, cs, chars, start⟩ := wf.exists_chars
  rw [chars, List.cons_append] at read ⊢
  have blank := (startsValue_of_isDigit start).1
  have apart : ∀ d, Text.isDigit d = false → d ≠ '-' → c ≠ d := by
    rintro d other minus rfl
    rcases start with digit | equal
    · rw [digit] at other
      cases other
    · exact minus equal
  have hn := apart 'n' (by decide) (by decide)
  have ht := apart 't' (by decide) (by decide)
  have hf := apart 'f' (by decide) (by decide)
  have hq := apart '"' (by decide) (by decide)
  have ha := apart '[' (by decide) (by decide)
  have ho := apart '\x7b' (by decide) (by decide)
  rw [readValue, skipBlanks_cons blank]
  split
  all_goals simp_all

/-- A text without control characters. -/
def Printable (cs : List Char) : Prop :=
  ∀ c ∈ cs, 32 ≤ c.toNat

instance (cs : List Char) : Decidable (Printable cs) :=
  List.decidableBAll _ cs

theorem printable_append {cs ds : List Char} :
    Printable (cs ++ ds) ↔ Printable cs ∧ Printable ds := by
  simp only [Printable, List.mem_append, or_imp, forall_and]

theorem printable_cons {c : Char} {cs : List Char} :
    Printable (c :: cs) ↔ 32 ≤ c.toNat ∧ Printable cs := by
  simp only [Printable, List.mem_cons, or_imp, forall_and, forall_eq]

theorem printable_digits {cs : List Char} (h : ∀ c ∈ cs, Text.isDigit c = true) :
    Printable cs := by
  intro c hc
  have digit := h c hc
  simp only [Text.isDigit, Bool.and_eq_true, decide_eq_true_eq, Char.le_def] at digit
  have : 48 ≤ c.toNat := digit.1
  omega

theorem NumberText.WellFormed.printable {t : NumberText} (wf : t.WellFormed) :
    Printable t.chars := by
  have whole := printable_digits wf.whole_digits
  have fraction : Printable (fractionPart t.fraction) := by
    cases h : t.fraction with
    | none => simp [fractionPart, Printable]
    | some digits =>
        rw [fractionPart, printable_cons]
        exact ⟨by decide, printable_digits (wf.fraction_digits digits h)⟩
  have exponent : Printable (exponentPart t.exponent) := by
    cases t.exponent with
    | none => simp [exponentPart, Printable]
    | some e =>
        rw [exponentPart, printable_cons, printable_cons]
        refine ⟨by decide, ?_, printable_digits fun c hc => Text.isDigit_of_mem_natChars hc⟩
        split <;> decide
  have body := printable_append.mpr ⟨whole, printable_append.mpr ⟨fraction, exponent⟩⟩
  unfold chars
  cases t.negative with
  | true => exact printable_cons.mpr ⟨by decide, body⟩
  | false => exact body

theorem hexDigit_ge : ∀ n < 16, 32 ≤ (hexDigit n).toNat := by
  decide

theorem printable_escape (c : Char) : Printable (escape c) := by
  obtain ⟨e, -, letter, chars, -⟩ | ⟨control, chars⟩ | ⟨plain, -, -, chars⟩ := escape_cases c
  · simp [chars, Printable, letter]
  · simp only [chars, Printable, List.mem_cons, List.not_mem_nil, or_false, forall_eq_or_imp,
      forall_eq]
    exact ⟨by decide, by decide, by decide, by decide, hexDigit_ge _ (by omega),
      hexDigit_ge _ (by omega)⟩
  · simpa [chars, Printable] using plain

/-- A quoted text is written in front of the rest. -/
theorem exists_quote (s : String) :
    ∃ front, Printable front ∧ ∀ rest, quote s rest = front ++ '"' :: rest := by
  have inner (cs : List Char) :
      ∃ front, Printable front ∧ ∀ rest, quoteChars rest cs = front ++ '"' :: rest := by
    induction cs with
    | nil => exact ⟨[], by simp [Printable], fun rest => by simp [quoteChars]⟩
    | cons c cs ih =>
        obtain ⟨front, printable, chars⟩ := ih
        refine ⟨escape c ++ front, printable_append.mpr ⟨printable_escape c, printable⟩, ?_⟩
        intro rest
        rw [quoteChars, chars, List.append_assoc]
  obtain ⟨front, printable, chars⟩ := inner s.toList
  refine ⟨'"' :: front, printable_cons.mpr ⟨by decide, printable⟩, fun rest => ?_⟩
  rw [quote, chars, List.cons_append]

mutual

/-- A value is written in front of the rest, without control characters. -/
theorem exists_front : ∀ j : Json,
    ∃ front, front ≠ [] ∧ Printable front ∧ ∀ rest, write rest j = front ++ rest
  | .null => ⟨['n', 'u', 'l', 'l'], by decide, by decide, fun _ => by rw [write]; rfl⟩
  | .bool true =>
      ⟨['t', 'r', 'u', 'e'], by decide, by decide, fun _ => by rw [write]; rfl⟩
  | .bool false =>
      ⟨['f', 'a', 'l', 's', 'e'], by decide, by decide,
        fun _ => by rw [write]; rfl⟩
  | .int i => by
      obtain ⟨c, cs, chars, -⟩ := (wellFormed_intText i).exists_chars
      refine ⟨(intText i).chars, by simp [chars], (wellFormed_intText i).printable, fun rest => ?_⟩
      rw [write, chars_intText]
  | .float x => by
      obtain ⟨c, cs, chars, -⟩ := (wellFormed_floatText x).exists_chars
      refine ⟨(floatText x).chars, by simp [chars], (wellFormed_floatText x).printable,
        fun rest => ?_⟩
      rw [write, chars_floatText]
  | .string s => by
      obtain ⟨front, printable, chars⟩ := exists_quote s
      refine ⟨front ++ ['"'], by simp, ?_, fun rest => by rw [write, chars]; simp⟩
      exact printable_append.mpr ⟨printable, by decide⟩
  | .array [] => ⟨['[', ']'], by decide, by decide, fun _ => by rw [write]; rfl⟩
  | .array (item :: items) => by
      obtain ⟨front, -, printable, chars⟩ := exists_front item
      obtain ⟨others, printable', chars'⟩ := exists_itemsFront items
      refine ⟨'[' :: front ++ others ++ [']'], by simp, ?_, fun rest => ?_⟩
      · simp only [printable_append, printable_cons, printable, printable', and_true]
        exact ⟨by decide, by decide⟩
      · rw [write, chars, chars']
        simp
  | .object [] =>
      ⟨['\x7b', '\x7d'], by decide, by decide, fun _ => by rw [write]; rfl⟩
  | .object ((name, value) :: fields) => by
      obtain ⟨key, printable, chars⟩ := exists_quote name
      obtain ⟨front, -, printable', chars'⟩ := exists_front value
      obtain ⟨others, printable'', chars''⟩ := exists_fieldsFront fields
      refine ⟨'\x7b' :: key ++ '"' :: ':' :: front ++ others ++ ['\x7d'], by simp, ?_,
        fun rest => ?_⟩
      · simp only [printable_append, printable_cons, printable, printable', printable'',
          and_true]
        exact ⟨⟨by decide, by decide, by decide⟩, by decide⟩
      · rw [write, chars, chars', chars'']
        simp

theorem exists_itemsFront : ∀ items : List Json,
    ∃ front, Printable front ∧ ∀ rest, writeItems rest items = front ++ ']' :: rest
  | [] => ⟨[], by simp [Printable], fun _ => by rw [writeItems]; rfl⟩
  | item :: items => by
      obtain ⟨front, -, printable, chars⟩ := exists_front item
      obtain ⟨others, printable', chars'⟩ := exists_itemsFront items
      refine ⟨',' :: front ++ others, ?_, fun rest => ?_⟩
      · simp only [printable_append, printable_cons, printable, printable', and_true]
        decide
      · rw [writeItems, chars, chars']
        simp

theorem exists_fieldsFront : ∀ fields : List (String × Json),
    ∃ front, Printable front ∧ ∀ rest, writeFields rest fields = front ++ '\x7d' :: rest
  | [] => ⟨[], by simp [Printable], fun _ => by rw [writeFields]; rfl⟩
  | (name, value) :: fields => by
      obtain ⟨key, printable, chars⟩ := exists_quote name
      obtain ⟨front, -, printable', chars'⟩ := exists_front value
      obtain ⟨others, printable'', chars''⟩ := exists_fieldsFront fields
      refine ⟨',' :: key ++ '"' :: ':' :: front ++ others, ?_, fun rest => ?_⟩
      · simp only [printable_append, printable_cons, printable, printable', printable'',
          and_true]
        exact ⟨by decide, by decide, by decide⟩
      · rw [writeFields, chars, chars', chars'']
        simp

end

theorem length_lt_quote (s : String) (rest : List Char) : rest.length < (quote s rest).length := by
  obtain ⟨front, -, chars⟩ := exists_quote s
  rw [chars, List.length_append, List.length_cons]
  omega

theorem length_lt_write (j : Json) (rest : List Char) : rest.length < (write rest j).length := by
  obtain ⟨front, nonempty, -, chars⟩ := exists_front j
  have := List.length_pos_iff.mpr nonempty
  rw [chars, List.length_append]
  omega

/-- The last character of an object is its closing brace. -/
theorem exists_object (fields : List (String × Json)) :
    ∃ front, write [] (.object fields) = front ++ ['\x7d'] := by
  match fields with
  | [] => exact ⟨['\x7b'], by rw [write]; rfl⟩
  | (name, value) :: fields =>
      obtain ⟨key, -, chars⟩ := exists_quote name
      obtain ⟨front, -, -, chars'⟩ := exists_front value
      obtain ⟨others, -, chars''⟩ := exists_fieldsFront fields
      refine ⟨'\x7b' :: key ++ '"' :: ':' :: front ++ others, ?_⟩
      rw [write, chars, chars', chars'']
      simp

/-- The blanks of a text: before each part of a list or object and before its end, by level, and
after the name of a field. -/
structure Spacing where
  /-- The blanks before a part, or before the end, at a level. -/
  line : Nat → List Char
  /-- The blanks after the colon. -/
  colon : List Char
  /-- What stands before a part is blank. -/
  blank_line : ∀ level, ∀ c ∈ line level, isJsonBlank c = true
  /-- What stands after the colon is blank. -/
  blank_colon : ∀ c ∈ colon, isJsonBlank c = true

/-- No blanks. -/
def Spacing.none : Spacing where
  line _ := []
  colon := []
  blank_line := by simp
  blank_colon := by simp

/-- One part a line. -/
def Spacing.lines : Spacing where
  line level := newLine level []
  colon := [' ']
  blank_line level c hc := by
    rw [newLine, List.append_nil, List.mem_cons, List.mem_replicate] at hc
    rcases hc with rfl | ⟨-, rfl⟩ <;> decide
  blank_colon := by simp [isJsonBlank]

mutual

/-- A value with blanks between its parts, before `rest`. -/
def layOut (s : Spacing) (level : Nat) (rest : List Char) : Json → List Char
  | .array (item :: items) =>
    '[' :: (s.line (level + 1) ++ layOut s (level + 1) (layOutItems s level rest items) item)
  | .object ((name, value) :: fields) =>
    '\x7b' :: (s.line (level + 1) ++ quote name (':' :: (s.colon ++
      layOut s (level + 1) (layOutFields s level rest fields) value)))
  | .array [] => write rest (.array [])
  | .object [] => write rest (.object [])
  | .null => write rest .null
  | .bool b => write rest (.bool b)
  | .int i => write rest (.int i)
  | .float x => write rest (.float x)
  | .string t => write rest (.string t)

/-- The items after the first one with blanks between them, before `rest`. -/
def layOutItems (s : Spacing) (level : Nat) (rest : List Char) : List Json → List Char
  | [] => s.line level ++ ']' :: rest
  | item :: items =>
    ',' :: (s.line (level + 1) ++ layOut s (level + 1) (layOutItems s level rest items) item)

/-- The fields after the first one with blanks between them, before `rest`. -/
def layOutFields (s : Spacing) (level : Nat) (rest : List Char) :
    List (String × Json) → List Char
  | [] => s.line level ++ '\x7d' :: rest
  | (name, value) :: fields =>
    ',' :: (s.line (level + 1) ++ quote name (':' :: (s.colon ++
      layOut s (level + 1) (layOutFields s level rest fields) value)))

end

mutual

theorem layOut_none : ∀ (j : Json) (level : Nat) (rest : List Char),
    layOut .none level rest j = write rest j
  | .array (item :: items), level, rest => by
      rw [layOut, layOutItems_none items, layOut_none item, write]
      rfl
  | .object ((name, value) :: fields), level, rest => by
      rw [layOut, layOutFields_none fields, layOut_none value, write]
      rfl
  | .array [], _, _ | .object [], _, _ | .null, _, _ | .bool _, _, _ | .int _, _, _
  | .float _, _, _ | .string _, _, _ => by rw [layOut]

theorem layOutItems_none : ∀ (items : List Json) (level : Nat) (rest : List Char),
    layOutItems .none level rest items = writeItems rest items
  | [], _, _ => by rw [layOutItems, writeItems]; rfl
  | item :: items, level, rest => by
      rw [layOutItems, layOutItems_none items, layOut_none item, writeItems]
      rfl

theorem layOutFields_none : ∀ (fields : List (String × Json)) (level : Nat) (rest : List Char),
    layOutFields .none level rest fields = writeFields rest fields
  | [], _, _ => by rw [layOutFields, writeFields]; rfl
  | (name, value) :: fields, level, rest => by
      rw [layOutFields, layOutFields_none fields, layOut_none value, writeFields]
      rfl

end

theorem newLine_append (level : Nat) (rest : List Char) :
    newLine level [] ++ rest = newLine level rest := by
  simp [newLine]

mutual

theorem layOut_lines : ∀ (j : Json) (level : Nat) (rest : List Char),
    layOut .lines level rest j = writePretty level rest j
  | .array (item :: items), level, rest => by
      rw [layOut, layOutItems_lines items, layOut_lines item, writePretty, Spacing.lines,
        newLine_append]
  | .object ((name, value) :: fields), level, rest => by
      rw [layOut, layOutFields_lines fields, layOut_lines value, writePretty, Spacing.lines,
        newLine_append]
      rfl
  | .array [], _, _ | .object [], _, _ | .null, _, _ | .bool true, _, _ | .bool false, _, _
  | .int _, _, _ | .float _, _, _ | .string _, _, _ => by rw [layOut, write, writePretty]

theorem layOutItems_lines : ∀ (items : List Json) (level : Nat) (rest : List Char),
    layOutItems .lines level rest items = writePrettyItems level rest items
  | [], _, _ => by rw [layOutItems, writePrettyItems, Spacing.lines, newLine_append]
  | item :: items, level, rest => by
      rw [layOutItems, layOutItems_lines items, layOut_lines item, writePrettyItems, Spacing.lines,
        newLine_append]

theorem layOutFields_lines : ∀ (fields : List (String × Json)) (level : Nat) (rest : List Char),
    layOutFields .lines level rest fields = writePrettyFields level rest fields
  | [], _, _ => by rw [layOutFields, writePrettyFields, Spacing.lines, newLine_append]
  | (name, value) :: fields, level, rest => by
      rw [layOutFields, layOutFields_lines fields, layOut_lines value, writePrettyFields,
        Spacing.lines, newLine_append]
      rfl

end

section Reading

variable {s : Spacing} {level n : Nat} {rest : List Char}

theorem skipBlanks_append {blanks : List Char} (h : ∀ c ∈ blanks, isJsonBlank c = true)
    (cs : List Char) : skipBlanks (blanks ++ cs) = skipBlanks cs :=
  List.dropWhile_append_of_pos h

theorem skipBlanks_line {c : Char} (h : isJsonBlank c = false) (cs : List Char) :
    skipBlanks (s.line level ++ c :: cs) = c :: cs := by
  rw [skipBlanks_append (s.blank_line level), skipBlanks_cons h]

/-- Blanks before a value are not read. -/
theorem readValue_append {blanks : List Char} (h : ∀ c ∈ blanks, isJsonBlank c = true)
    (n : Nat) (cs : List Char) : readValue n (blanks ++ cs) = readValue n cs := by
  cases n with
  | zero => rfl
  | succ n => simp only [readValue, skipBlanks_append h]

theorem readItems_append {blanks : List Char} (h : ∀ c ∈ blanks, isJsonBlank c = true)
    (n : Nat) (cs : List Char) : readItems n (blanks ++ cs) = readItems n cs := by
  cases n with
  | zero => rfl
  | succ n => simp only [readItems, readValue_append h]

theorem readFields_append {blanks : List Char} (h : ∀ c ∈ blanks, isJsonBlank c = true)
    (n : Nat) (cs : List Char) : readFields n (blanks ++ cs) = readFields n cs := by
  cases n with
  | zero => rfl
  | succ n => simp only [readFields, skipBlanks_append h]

theorem delimited_line (h : Delimited rest) : Delimited (s.line level ++ rest) := by
  cases blanks : s.line level with
  | nil => exact h
  | cons c cs =>
      have blank := s.blank_line level c (by simp [blanks])
      have known : ∀ c, isJsonBlank c = true → c ∈ delimiters := by
        intro c
        simp only [isJsonBlank, Bool.or_eq_true, beq_iff_eq, delimiters, List.mem_cons]
        tauto
      simpa [Delimited] using known c blank

theorem delimited_layOutItems (s : Spacing) (level : Nat) (rest : List Char) (items : List Json) :
    Delimited (layOutItems s level rest items) := by
  cases items with
  | nil =>
      rw [layOutItems]
      exact delimited_line (by simp [Delimited, delimiters])
  | cons item items => simp [layOutItems, Delimited, delimiters]

theorem delimited_layOutFields (s : Spacing) (level : Nat) (rest : List Char)
    (fields : List (String × Json)) :
    Delimited (layOutFields s level rest fields) := by
  cases fields with
  | nil =>
      rw [layOutFields]
      exact delimited_line (by simp [Delimited, delimiters])
  | cons field fields => simp [layOutFields, Delimited, delimiters]

/-- A value starts with a character that stands for a value. -/
theorem exists_layOut (s : Spacing) (level : Nat) (rest : List Char) (j : Json) :
    ∃ c cs, layOut s level rest j = c :: cs ∧ StartsValue c := by
  match j with
  | .array (_ :: _) => exact ⟨_, _, by rw [layOut], by decide⟩
  | .object ((_, _) :: _) => exact ⟨_, _, by rw [layOut], by decide⟩
  | .array [] | .object [] | .null | .bool _ | .int _ | .float _ | .string _ =>
      rw [layOut]
      exact exists_write rest _

mutual

theorem length_lt_layOut : ∀ (j : Json) (level : Nat) (rest : List Char),
    rest.length < (layOut s level rest j).length
  | .array (item :: items), level, rest => by
      have first := length_lt_layOut item (level + 1) (layOutItems s level rest items)
      have others := length_lt_layOutItems items level rest
      rw [layOut, List.length_cons, List.length_append]
      omega
  | .object ((name, value) :: fields), level, rest => by
      have named := length_lt_quote name (':' :: (s.colon ++
        layOut s (level + 1) (layOutFields s level rest fields) value))
      have first := length_lt_layOut value (level + 1) (layOutFields s level rest fields)
      have others := length_lt_layOutFields fields level rest
      rw [List.length_cons, List.length_append] at named
      rw [layOut, List.length_cons, List.length_append]
      omega
  | .array [], _, rest | .object [], _, rest | .null, _, rest | .bool _, _, rest
  | .int _, _, rest | .float _, _, rest | .string _, _, rest => by
      rw [layOut]
      exact length_lt_write _ rest

theorem length_lt_layOutItems : ∀ (items : List Json) (level : Nat) (rest : List Char),
    rest.length < (layOutItems s level rest items).length
  | [], level, rest => by
      rw [layOutItems, List.length_append, List.length_cons]
      omega
  | item :: items, level, rest => by
      have first := length_lt_layOut item (level + 1) (layOutItems s level rest items)
      have others := length_lt_layOutItems items level rest
      rw [layOutItems, List.length_cons, List.length_append]
      omega

theorem length_lt_layOutFields : ∀ (fields : List (String × Json)) (level : Nat)
    (rest : List Char), rest.length < (layOutFields s level rest fields).length
  | [], level, rest => by
      rw [layOutFields, List.length_append, List.length_cons]
      omega
  | (name, value) :: fields, level, rest => by
      have named := length_lt_quote name (':' :: (s.colon ++
        layOut s (level + 1) (layOutFields s level rest fields) value))
      have first := length_lt_layOut value (level + 1) (layOutFields s level rest fields)
      have others := length_lt_layOutFields fields level rest
      rw [List.length_cons, List.length_append] at named
      rw [layOutFields, List.length_cons, List.length_append]
      omega

end

theorem readValue_array {item : Json} {level' : Nat} :
    readValue (n + 1) ('[' :: (s.line level' ++ layOut s level rest item)) =
      (readItems n (layOut s level rest item)).map fun (items, rest) => (.array items, rest) := by
  obtain ⟨c, cs, chars, start⟩ := exists_layOut s level rest item
  have bracket := start.2.1
  have opening : isJsonBlank '[' = false := by decide
  simp only [chars, readValue, skipBlanks_cons opening, skipBlanks_line start.1]
  split
  · simp_all
  · rfl

theorem readValue_object {name : String} :
    readValue (n + 1) ('\x7b' :: (s.line level ++ quote name rest)) =
      (readFields n (quote name rest)).map fun (fields, rest) => (.object fields, rest) := by
  have opening : isJsonBlank '\x7b' = false := by decide
  have quoted : isJsonBlank '"' = false := by decide
  simp [quote, readValue, skipBlanks_cons opening, skipBlanks_line quoted]

mutual

/-- A value is read as it is written, with whatever blanks. -/
theorem readValue_layOut : ∀ (j : Json) (level : Nat) (rest : List Char), Delimited rest →
    ∀ n, (layOut s level rest j).length ≤ n + rest.length →
      readValue n (layOut s level rest j) = some (j.written, rest)
  | j, level, rest, _, 0, bound => by
      have := length_lt_layOut (s := s) j level rest
      omega
  | .null, _, rest, _, n + 1, _ => by
      simp [layOut, write, readValue, skipBlanks_cons, isJsonBlank, written]
  | .bool true, _, rest, _, n + 1, _ => by
      simp [layOut, write, readValue, skipBlanks_cons, isJsonBlank, written]
  | .bool false, _, rest, _, n + 1, _ => by
      simp [layOut, write, readValue, skipBlanks_cons, isJsonBlank, written]
  | .int i, _, rest, delimited, n + 1, _ => by
      rw [layOut, write, ← chars_intText, written]
      exact readValue_number (wellFormed_intText i) delimited n
  | .float x, _, rest, delimited, n + 1, _ => by
      rw [layOut, write, ← chars_floatText, written]
      exact readValue_number (wellFormed_floatText x) delimited n
  | .string t, _, rest, _, n + 1, _ => by
      simp [layOut, write, quote, readValue, skipBlanks_cons, isJsonBlank, readQuoted_quote,
        written]
  | .array [], _, rest, _, n + 1, _ => by
      simp [layOut, write, readValue, skipBlanks_cons, isJsonBlank, written, writtenItems]
  | .array (item :: items), level, rest, _, n + 1, bound => by
      rw [layOut, List.length_cons, List.length_append] at bound
      rw [layOut, readValue_array, readItems_layOut item items level rest n (by omega), written,
        writtenItems]
      rfl
  | .object [], _, rest, _, n + 1, _ => by
      simp [layOut, write, readValue, skipBlanks_cons, isJsonBlank, written, writtenFields]
  | .object ((name, value) :: fields), level, rest, _, n + 1, bound => by
      rw [layOut, List.length_cons, List.length_append] at bound
      rw [layOut, readValue_object, readFields_layOut name value fields level rest n (by omega),
        written, writtenFields]
      rfl

theorem readItems_layOut : ∀ (item : Json) (items : List Json) (level : Nat) (rest : List Char)
    (n : Nat),
    (layOut s (level + 1) (layOutItems s level rest items) item).length ≤ n + rest.length →
    readItems n (layOut s (level + 1) (layOutItems s level rest items) item) =
      some (item.written :: writtenItems items, rest)
  | item, items, level, rest, 0, bound => by
      have first := length_lt_layOut (s := s) item (level + 1) (layOutItems s level rest items)
      have others := length_lt_layOutItems (s := s) items level rest
      omega
  | item, items, level, rest, n + 1, bound => by
      have first := length_lt_layOut (s := s) item (level + 1) (layOutItems s level rest items)
      have others := length_lt_layOutItems (s := s) items level rest
      have read := readValue_layOut item (level + 1) _
        (delimited_layOutItems s level rest items) n (by omega)
      match items with
      | [] =>
          have closing : isJsonBlank ']' = false := by decide
          rw [layOutItems] at read ⊢
          simp [readItems, read, skipBlanks_line closing, writtenItems]
      | next :: items =>
          have comma : isJsonBlank ',' = false := by decide
          have shorter : (layOut s (level + 1) (layOutItems s level rest items) next).length <
              (layOutItems s level rest (next :: items)).length := by
            rw [layOutItems, List.length_cons, List.length_append]
            omega
          have more := readItems_layOut next items level rest n (by omega)
          rw [layOutItems] at read ⊢
          simp [readItems, read, skipBlanks_cons comma, readItems_append (s.blank_line _), more,
            writtenItems]

theorem readFields_layOut : ∀ (name : String) (value : Json) (fields : List (String × Json))
    (level : Nat) (rest : List Char) (n : Nat),
    (quote name (':' :: (s.colon ++
      layOut s (level + 1) (layOutFields s level rest fields) value))).length ≤ n + rest.length →
    readFields n (quote name (':' :: (s.colon ++
        layOut s (level + 1) (layOutFields s level rest fields) value))) =
      some ((some name, value.written) :: writtenFields fields, rest)
  | name, value, fields, level, rest, n, bound => by
      have named := length_lt_quote name (':' :: (s.colon ++
        layOut s (level + 1) (layOutFields s level rest fields) value))
      have first := length_lt_layOut (s := s) value (level + 1) (layOutFields s level rest fields)
      have others := length_lt_layOutFields (s := s) fields level rest
      rw [List.length_cons, List.length_append] at named
      match n with
      | 0 => omega
      | n + 1 =>
          have colon : isJsonBlank ':' = false := by decide
          have quoted : isJsonBlank '"' = false := by decide
          have read := readValue_layOut value (level + 1) _
            (delimited_layOutFields s level rest fields) n (by omega)
          rw [← readValue_append s.blank_colon] at read
          match fields with
          | [] =>
              have closing : isJsonBlank '\x7d' = false := by decide
              rw [layOutFields] at read ⊢
              simp [quote, readFields, readQuoted_quote, read, skipBlanks_cons quoted,
                skipBlanks_cons colon, skipBlanks_line closing, writtenFields]
          | (next, following) :: fields =>
              have comma : isJsonBlank ',' = false := by decide
              have shorter : (quote next (':' :: (s.colon ++
                  layOut s (level + 1) (layOutFields s level rest fields) following))).length <
                    (layOutFields s level rest ((next, following) :: fields)).length := by
                rw [layOutFields, List.length_cons, List.length_append]
                omega
              have more := readFields_layOut next following fields level rest n (by omega)
              rw [layOutFields] at read ⊢
              rw [quote]
              simp [readFields, readQuoted_quote, read, skipBlanks_cons quoted,
                skipBlanks_cons colon, skipBlanks_cons comma, readFields_append (s.blank_line _),
                more, writtenFields]

end

/-- A text with the characters of a laid out value writes the value's form. -/
theorem parse_layOut (s : Spacing) (j : Json) :
    Written.parse (String.ofList (layOut s 0 [] j)) = some j.written := by
  have ends : Delimited [] := by simp [Delimited]
  have read := readValue_layOut (s := s) j 0 [] ends (2 * (layOut s 0 [] j).length + 2)
    (by simp; omega)
  simp only [Written.parse, String.toList_ofList, read]
  simp [skipBlanks]

end Reading

/-- The text of a value writes the value's form. -/
theorem parse_compact (j : Json) : Written.parse j.compact = some j.written := by
  rw [compact, ← layOut_none j 0]
  exact parse_layOut .none j

/-- The text of a value with one part a line writes the value's form. -/
theorem parse_pretty (j : Json) : Written.parse j.pretty = some j.written := by
  rw [pretty, ← layOut_lines]
  exact parse_layOut .lines j

/-- An integer fits 64 bits, signed or unsigned. -/
def FitsWord (i : Int) : Prop :=
  -(Text.signedLimit : Int) ≤ i ∧ i < (Text.wordCount : Int)

theorem fitsWord_int64 (i : Int64) : FitsWord i.toInt := by
  have least := i.le_toInt
  have most := i.toInt_lt
  unfold FitsWord Text.signedLimit Text.wordCount
  omega

theorem fitsWord_word (n : UInt64) : FitsWord n.toNat := by
  have most := n.toNat_lt
  unfold FitsWord Text.signedLimit Text.wordCount
  omega

theorem value?_intText {i : Int} (h : FitsWord i) : (intText i).value? = some (.int i) := by
  have value : (intText i).int? = some i := by
    simp only [NumberText.int?, intText, Text.numeral?_natChars]
    unfold FitsWord at h
    by_cases negative : i < 0
    · have fits : i.natAbs ≠ 0 ∧ i.natAbs ≤ Text.signedLimit := by omega
      simp only [negative, decide_true, if_true, if_pos fits, Option.some.injEq]
      omega
    · have fits : i.natAbs < Text.wordCount := by omega
      simp only [negative, decide_false, Bool.false_eq_true, if_false, if_pos fits,
        Option.some.injEq]
      omega
  simp [NumberText.value?, value]

end StagedAlgebra.Json
