import MinerInfo.Json.Token

/-! JSON texts as trees. A text that is no JSON, or not all of one, has a tree as well: it is cut off at the
first fault, and the fault stands in the tree where it was met. What is to the left of it can be used,
so a reader of the tree sees the problems of a text in the order in which they are written. -/

namespace MinerInfo.Json

/-- The tree of a JSON text. An array and an object end with their bracket or with a fault. -/
inductive Document where
  | null
  | boolean (b : Bool)
  | number (n : Except Fault Numeral)
  | string (l : Literal)
  | array (elements : List Document) (ending : Except Fault Unit)
  | object (members : List (Literal × Document)) (ending : Except Fault Unit)
  /-- The place of a value that is not there. -/
  | broken (f : Fault)

abbrev Member := Literal × Document

/-- Steps over a value. It need only be JSON: strings need not spell a text, and numbers may be of any size.
A number that breaks off is malformed here, even at the end of the text. -/
def Document.skip : Document → Except Fault Unit
  | .null | .boolean _ | .number (.ok _) => .ok ()
  | .number (.error _) => .error .malformed
  | .string l => l.ending
  | .array _ ending => ending
  | .object _ ending => ending
  | .broken f => .error f

/-- An array or object that has been opened and not closed, with what stands in it so far, the last in front;
an object with the name of the member whose value is being read. -/
inductive Frame where
  | array (before : List Document)
  | object (before : List Member) (label : Literal)

/-- What has been read, and what is due next. The stack holds the frames around that place, the inmost in
front. -/
inductive State where
  | value (stack : List Frame)
  /-- The first element of an array, or its end. -/
  | element (stack : List Frame)
  /-- The name of a member, or the end of the object if it has no member yet. -/
  | name (before : List Member) (stack : List Frame)
  | colon (before : List Member) (label : Literal) (stack : List Frame)
  /-- What follows the value `v`: a comma, a closing bracket, or the end of the text. -/
  | after (v : Document) (stack : List Frame)
  /-- Nothing: the tree is complete, or cut off. -/
  | stopped (v : Document) (ending : Except Fault Unit)

/-- The tree when `f` is met right after the value `v`. -/
def cutOff (f : Fault) : Document → List Frame → Document
  | v, [] => v
  | v, .array before :: stack => cutOff f (.array (v :: before).reverse (.error f)) stack
  | v, .object before label :: stack => cutOff f (.object ((label, v) :: before).reverse (.error f)) stack

/-- Stops where a value is due. -/
def State.noValue (f : Fault) (stack : List Frame) : State := .stopped (cutOff f (.broken f) stack) (.error f)

def State.beginValue (stack : List Frame) : Token → State
  | .openArray => .element stack
  | .openObject => .name [] stack
  | .null => .after .null stack
  | .boolean b => .after (.boolean b) stack
  | .number n => .after (.number n) stack
  | .string l => .after (.string l) stack
  | .stray f => noValue f stack
  | .closeArray | .closeObject | .comma | .colon => noValue .malformed stack

def State.goOn (v : Document) : List Frame → Token → State
  | .array before :: stack, .comma => .value (.array (v :: before) :: stack)
  | .array before :: stack, .closeArray => .after (.array (v :: before).reverse (.ok ())) stack
  | .object before label :: stack, .comma => .name ((label, v) :: before) stack
  | .object before label :: stack, .closeObject =>
    .after (.object ((label, v) :: before).reverse (.ok ())) stack
  | stack, _ => .stopped (cutOff .malformed v stack) (.error .malformed)

def State.step : State → Token → State
  | .value stack, token => beginValue stack token
  | .element stack, .closeArray => .after (.array [] (.ok ())) stack
  | .element stack, token => beginValue (.array [] :: stack) token
  | .name before stack, .string l => .colon before l stack
  | .name [] stack, .closeObject => .after (.object [] (.ok ())) stack
  | .name before stack, _ =>
    .stopped (cutOff .malformed (.object before.reverse (.error .malformed)) stack) (.error .malformed)
  | .colon before label stack, .colon => .value (.object before label :: stack)
  | .colon before label stack, _ => noValue .malformed (.object before label :: stack)
  | .after v stack, token => goOn v stack token
  | .stopped v ending, _ => .stopped v ending

/-- The fault that the end of the text is, unless the text broke off before with another. -/
def faultOr (ending : Except Fault Unit) : Fault :=
  match ending with
  | .ok () => .truncated
  | .error f => f

/-- The tree when the tokens have come to their end, and whether the text is fit to end there. -/
def State.finish : State → Document × Except Fault Unit
  | .value stack => (cutOff .truncated (.broken .truncated) stack, .error .truncated)
  | .element stack => (cutOff .truncated (.array [] (.error .truncated)) stack, .error .truncated)
  | .name before stack =>
    (cutOff .truncated (.object before.reverse (.error .truncated)) stack, .error .truncated)
  | .colon before label stack =>
    let f := faultOr label.ending
    (cutOff f (.broken f) (.object before label :: stack), .error f)
  | .after v [] => (v, v.skip)
  | .after v stack => (cutOff (faultOr v.skip) v stack, .error (faultOr v.skip))
  | .stopped v ending => (v, ending)

/-- The tree of a text, and whether the text ends after it. -/
def parse (s : Text) : Document × Except Fault Unit := ((tokens s).foldl State.step (.value [])).finish

/-- Reads a value from a text: from its tree, and then to the end of the text. -/
def read {α : Type} (ofDocument : Document → Except Fault α) (s : Text) : Except Fault α := do
  let (document, ending) := parse s
  let v ← ofDocument document
  ending
  return v

end MinerInfo.Json
