/-!
# Cutting text

A record line is cut at its first tab, an attribute reference at its first dot, and a file into
lines. A line ends with a line feed; a carriage return just before the line feed belongs to the
line end. The last line may lack its end.
-/

namespace StagedAlgebra.Text

/-- The characters before and after the first occurrence of `c`. -/
def splitOnce (c : Char) : List Char → Option (List Char × List Char)
  | [] => none
  | d :: rest =>
    if d = c then some ([], rest)
    else (splitOnce c rest).map fun (before, after) => (d :: before, after)

/-- A line without the carriage return at its end; `reversed` holds the line last character first. -/
def closeLine (reversed : List Char) : List Char :=
  match reversed with
  | '\r' :: rest => rest.reverse
  | _ => reversed.reverse

/-- The lines of the text whose current line so far is `reversed`, last character first. -/
def linesFrom (reversed : List Char) : List Char → List (List Char)
  | [] => if reversed.isEmpty then [] else [reversed.reverse]
  | c :: rest =>
    if c = '\n' then closeLine reversed :: linesFrom [] rest
    else linesFrom (c :: reversed) rest

/-- The lines of a text, in order. -/
def lines (cs : List Char) : List (List Char) :=
  linesFrom [] cs

/-- The lines of a text with their numbers, counted from one. -/
def numberedLines (cs : List Char) : List (Nat × List Char) :=
  ((lines cs).zipIdx 1).map fun (line, number) => (number, line)

/-- A text without the trailing occurrences of `c`. -/
def trimEndOf (c : Char) (s : String) : String :=
  String.ofList (s.toList.reverse.dropWhile (· == c)).reverse

/-- A text without the leading occurrences of `c`. -/
def trimStartOf (c : Char) (s : String) : String :=
  String.ofList (s.toList.dropWhile (· == c))

/-- What is before the first occurrence of `c` does not hold it, and joined with `c` and what
is after gives the text back. -/
theorem splitOnce_eq_some {c : Char} {cs before after : List Char}
    (h : splitOnce c cs = some (before, after)) : cs = before ++ c :: after ∧ c ∉ before := by
  induction cs generalizing before after with
  | nil => simp [splitOnce] at h
  | cons d rest ih =>
    by_cases hd : d = c
    · simp [splitOnce, hd] at h
      simp [h, hd]
    · simp only [splitOnce, hd, if_false, Option.map_eq_some_iff] at h
      obtain ⟨⟨u, v⟩, huv, heq⟩ := h
      simp only [Prod.mk.injEq] at heq
      obtain ⟨rfl, rfl⟩ := heq
      have step := ih huv
      refine ⟨by simp [step.1], ?_⟩
      simp [step.2, Ne.symm hd]

/-- A text that does not hold `c` is not cut at `c`. -/
theorem splitOnce_eq_none {c : Char} {cs : List Char} : splitOnce c cs = none ↔ c ∉ cs := by
  induction cs with
  | nil => simp [splitOnce]
  | cons d rest ih =>
    by_cases hd : d = c
    · simp [splitOnce, hd]
    · simp [splitOnce, hd, ih, Ne.symm hd]

end StagedAlgebra.Text
