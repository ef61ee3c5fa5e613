import StagedAlgebra.Yaml.Node

/-!
# The grammar of nodes

`Node.ofTokens?` builds the node of the only document that a list of tokens holds. Where a key or
a value is left out, `Node.absent` stands for it.

## Implementation notes

Every reader recurses on a bound for the depth of its calls, which is taken from the number of
tokens: each call that leads to another one of the same reader has taken a token.
-/

namespace StagedAlgebra.Yaml

/-- Whether an entry of an indented mapping ends before a list of tokens. -/
def endsBlockEntry : List Token → Bool
  | .key :: _ | .value :: _ | .blockEnd :: _ => true
  | _ => false

/-- Whether an item of an indented list ends before a list of tokens. -/
def endsBlockItem : List Token → Bool
  | .blockEntry :: _ | .blockEnd :: _ => true
  | _ => false

/-- Whether an item of a list without own indentation ends before a list of tokens. -/
def endsLooseItem (tokens : List Token) : Bool :=
  endsBlockItem tokens || endsBlockEntry tokens

/-- Whether a value in braces ends before a list of tokens. -/
def endsFlowValue : List Token → Bool
  | .flowEntry :: _ | .flowMappingEnd :: _ => true
  | _ => false

/-- Whether a value in brackets ends before a list of tokens. -/
def endsFlowItem : List Token → Bool
  | .flowEntry :: _ | .flowSequenceEnd :: _ => true
  | _ => false

/-- Whether a list of tokens starts with a value. -/
def startsValue : List Token → Bool
  | .value :: _ => true
  | _ => false

/-- Passes over a comma, which must stand before all but the first item. -/
def skipComma (first : Bool) (tokens : List Token) : Option (List Token) :=
  if first then some tokens
  else
    match tokens with
    | .flowEntry :: tokens => some tokens
    | _ => none

mutual

/-- Reads a node. In `block` places collections without brackets may start; in `loose` places a
list may stand without an indentation of its own. -/
def readNode (block loose : Bool) : (steps : Nat) → List Token → Option (Node × List Token)
  | 0, _ => none
  | _ + 1, .reference name :: tokens => some (.reference name, tokens)
  | steps + 1, .anchor name :: .tag tag :: tokens =>
    (readContent block loose true (some tag) steps tokens).map fun (n, rest) => (.named name n, rest)
  | steps + 1, .anchor name :: tokens =>
    (readContent block loose true none steps tokens).map fun (n, rest) => (.named name n, rest)
  | steps + 1, .tag tag :: .anchor name :: tokens =>
    (readContent block loose true (some tag) steps tokens).map fun (n, rest) => (.named name n, rest)
  | steps + 1, .tag tag :: tokens => readContent block loose true (some tag) steps tokens
  | steps + 1, tokens => readContent block loose false none steps tokens

/-- Reads a node after its name and its tag. A node with one of them may be left out. -/
def readContent (block loose marked : Bool) (tag : Option Tag) :
    (steps : Nat) → List Token → Option (Node × List Token)
  | 0, _ => none
  | steps + 1, tokens =>
    let leftOut := if marked then some (Node.scalar tag .plain "", tokens) else none
    match tokens with
    | .scalar style text :: tokens => some (.scalar tag style text, tokens)
    | .flowSequenceStart :: tokens =>
      (readFlowItems true steps tokens).map fun (items, rest) => (.sequence items, rest)
    | .flowMappingStart :: tokens =>
      (readFlowEntries true steps tokens).map fun (entries, rest) => (.mapping entries, rest)
    | .blockEntry :: _ =>
      if loose then (readLooseItems steps tokens).map fun (items, rest) => (.sequence items, rest)
      else leftOut
    | .blockSequenceStart :: tokens =>
      if block then (readBlockItems steps tokens).map fun (items, rest) => (.sequence items, rest)
      else leftOut
    | .blockMappingStart :: tokens =>
      if block then (readBlockEntries steps tokens).map fun (entries, rest) => (.mapping entries, rest)
      else leftOut
    | _ => leftOut

/-- Reads the items of an indented list and its end. -/
def readBlockItems : (steps : Nat) → List Token → Option (List Node × List Token)
  | 0, _ => none
  | _ + 1, .blockEnd :: tokens => some ([], tokens)
  | steps + 1, .blockEntry :: tokens =>
    let item := if endsBlockItem tokens then some (Node.absent, tokens)
      else readNode true false steps tokens
    match item with
    | none => none
    | some (item, tokens) =>
      (readBlockItems steps tokens).map fun (items, rest) => (item :: items, rest)
  | _ + 1, _ => none

/-- Reads the items of a list without own indentation. -/
def readLooseItems : (steps : Nat) → List Token → Option (List Node × List Token)
  | 0, _ => none
  | steps + 1, .blockEntry :: tokens =>
    let item := if endsLooseItem tokens then some (Node.absent, tokens)
      else readNode true false steps tokens
    match item with
    | none => none
    | some (item, tokens) =>
      (readLooseItems steps tokens).map fun (items, rest) => (item :: items, rest)
  | _ + 1, tokens => some ([], tokens)

/-- Reads the entries of an indented mapping and its end. -/
def readBlockEntries : (steps : Nat) → List Token → Option (List (Node × Node) × List Token)
  | 0, _ => none
  | _ + 1, .blockEnd :: tokens => some ([], tokens)
  | steps + 1, tokens =>
    let key := match tokens with
      | .key :: tokens =>
        if endsBlockEntry tokens then some (Node.absent, tokens) else readNode true true steps tokens
      | .value :: _ => some (Node.absent, tokens)
      | _ => none
    match key with
    | none => none
    | some (key, tokens) =>
      let value := match tokens with
        | .value :: tokens =>
          if endsBlockEntry tokens then some (Node.absent, tokens) else readNode true true steps tokens
        | _ => some (Node.absent, tokens)
      match value with
      | none => none
      | some (value, tokens) =>
        (readBlockEntries steps tokens).map fun (entries, rest) => ((key, value) :: entries, rest)

/-- Reads the items of a list in brackets and its end. An item may be a single key with a
value. -/
def readFlowItems (first : Bool) : (steps : Nat) → List Token → Option (List Node × List Token)
  | 0, _ => none
  | _ + 1, .flowSequenceEnd :: tokens => some ([], tokens)
  | steps + 1, tokens =>
    match skipComma first tokens with
    | none => none
    | some (.flowSequenceEnd :: tokens) => some ([], tokens)
    | some tokens =>
      let item := match tokens with
        | .key :: tokens => (readFlowPair steps tokens).map fun (e, rest) => (.mapping [e], rest)
        | _ => readNode false false steps tokens
      match item with
      | none => none
      | some (item, tokens) =>
        (readFlowItems false steps tokens).map fun (items, rest) => (item :: items, rest)

/-- Reads a single key with its value in brackets. -/
def readFlowPair : (steps : Nat) → List Token → Option ((Node × Node) × List Token)
  | 0, _ => none
  | steps + 1, tokens =>
    let key := if endsFlowItem tokens || startsValue tokens then some (Node.absent, tokens.tail)
      else readNode false false steps tokens
    match key with
    | none => none
    | some (key, tokens) =>
      let value := match tokens with
        | .value :: tokens =>
          if endsFlowItem tokens then some (Node.absent, tokens) else readNode false false steps tokens
        | _ => some (Node.absent, tokens)
      value.map fun (value, rest) => ((key, value), rest)

/-- Reads the entries of a mapping in braces and its end. -/
def readFlowEntries (first : Bool) :
    (steps : Nat) → List Token → Option (List (Node × Node) × List Token)
  | 0, _ => none
  | _ + 1, .flowMappingEnd :: tokens => some ([], tokens)
  | steps + 1, tokens =>
    match skipComma first tokens with
    | none => none
    | some (.flowMappingEnd :: tokens) => some ([], tokens)
    | some tokens =>
      match readFlowEntry steps tokens with
      | none => none
      | some (entry, tokens) =>
        (readFlowEntries false steps tokens).map fun (entries, rest) => (entry :: entries, rest)

/-- Reads an entry of a mapping in braces. A node that is no key has no value. -/
def readFlowEntry : (steps : Nat) → List Token → Option ((Node × Node) × List Token)
  | 0, _ => none
  | steps + 1, tokens =>
    let value := fun (key : Node) (tokens : List Token) =>
      (match tokens with
        | .value :: tokens =>
          if endsFlowValue tokens then some (Node.absent, tokens) else readNode false false steps tokens
        | _ => some (Node.absent, tokens)).map fun (value, rest) => ((key, value), rest)
    match tokens with
    | .key :: tokens =>
      if endsFlowValue tokens || startsValue tokens then value .absent tokens
      else
        match readNode false false steps tokens with
        | none => none
        | some (key, tokens) => value key tokens
    | .value :: _ => value .absent tokens
    | _ => (readNode false false steps tokens).map fun (key, rest) => ((key, .absent), rest)

end

/-- Whether a document has no node before a list of tokens. -/
def endsDocument : List Token → Bool
  | [] | .directive :: _ | .documentStart :: _ | .documentEnd :: _ => true
  | _ => false

/-- Whether a list of tokens starts with a mark of the start of a document. -/
def startsDocument : List Token → Bool
  | .directive :: _ | .documentStart :: _ => true
  | _ => false

/-- Reads the first document, with the mark of its start or without. -/
def readDocument (tokens : List Token) : Option (Node × List Token) :=
  let steps := 4 * tokens.length + 4
  if tokens.isEmpty then none
  else if startsDocument tokens then
    match tokens.dropWhile (· == .directive) with
    | .documentStart :: tokens =>
      if endsDocument tokens then some (Node.absent, tokens) else readNode true false steps tokens
    | _ => none
  else readNode true false steps tokens

/-- The node of the only document of a list of tokens. -/
def Node.ofTokens? (tokens : List Token) : Option Node :=
  match readDocument tokens with
  | some (node, rest) => if rest.all (· == .documentEnd) then some node else none
  | none => none

end StagedAlgebra.Yaml
