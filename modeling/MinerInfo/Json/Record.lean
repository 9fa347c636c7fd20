import MinerInfo.Json.Document

/-! Reading texts and records from JSON trees. A record is written as an object, its members in any order
and among others, or as an array of its fields in their order. -/

namespace MinerInfo.Json

/-- The fault of a document that stands where another kind of value is wanted. Of an array or an object only
the opening bracket counts; all else is first read to its end. -/
def Document.unexpected (expected : Text) : Document → Fault
  | .null => .misfit (.wrongType .null expected)
  | .boolean b => .misfit (.wrongType (.boolean b) expected)
  | .number n =>
    match n.bind Numeral.value with
    | .ok found => .misfit (.wrongType found expected)
    | .error f => f
  | .string l =>
    match l.text with
    | .ok t => .misfit (.wrongType (.string t) expected)
    | .error f => f
  | .array _ _ => .misfit (.wrongType .array expected)
  | .object _ _ => .misfit (.wrongType .object expected)
  | .broken f => f

def Document.text (expected : Text) : Document → Except Fault Text
  | .string l => l.text
  | d => .error (d.unexpected expected)

/-- Reads a string that a hexadecimal reader understands. -/
def Document.hex {α : Type} (expected : Text) (decode : Text → Except Hex.Fault α) (d : Document) :
    Except Fault α := do
  match decode (← d.text expected) with
  | .ok v => return v
  | .error fault => throw (.misfit (.badHex fault))

/-- How a type of records is written: its title, its fields in their order, and the label and the reader of
each. -/
structure Record (α : Type) where
  Field : Type
  Value : Field → Type
  decEq : DecidableEq Field
  title : Text
  fields : List Field
  mem_fields : ∀ f, f ∈ fields
  label : Field → Text
  read : (f : Field) → Document → Except Fault (Value f)
  build : ((f : Field) → Value f) → α

namespace Record

variable {α : Type} (R : Record α)

instance : DecidableEq R.Field := R.decEq

/-- The fields of a record read so far. -/
def Draft : Type := (f : R.Field) → Option (R.Value f)

def blank : R.Draft := fun _ => none

variable {R}

def Draft.put (draft : R.Draft) (f : R.Field) (v : R.Value f) : R.Draft :=
  fun g => if h : g = f then some (h ▸ v) else draft g

/-- The record of a draft; of the fields that are missing the first is reported. -/
def Draft.finish (draft : R.Draft) : Except Fault α :=
  match h : R.fields.find? fun f => (draft f).isNone with
  | some f => .error (.misfit (.missing (R.label f)))
  | none => .ok <| R.build fun f => (draft f).get <| by
      have := List.find?_eq_none.1 h f (R.mem_fields f)
      simpa [Option.isSome_iff_ne_none] using this

/-- Takes a member. One that is no field is stepped over; a field that was there before is refused before its
value is looked at. -/
def Draft.accept (draft : R.Draft) (m : Member) : Except Fault R.Draft := do
  let name ← m.1.text
  match R.fields.find? fun f => R.label f = name with
  | none =>
    m.2.skip
    return draft
  | some f =>
    if (draft f).isSome then throw (.misfit (.duplicate name))
    return draft.put f (← R.read f m.2)

/-- Takes the elements of an array of `count` for the fields still open. -/
def Draft.fill (draft : R.Draft) (count : Nat) (ending : Except Fault Unit) :
    List R.Field → List Document → Except Fault R.Draft
  | f :: fields, d :: elements => do (draft.put f (← R.read f d)).fill count ending fields elements
  | [], [] => do
    ending
    return draft
  | _ :: _, [] => do
    ending
    throw (.misfit (.tooFew count R.title R.fields.length))
  | [], _ :: _ => throw .malformed

variable (R)

def ofDocument : Document → Except Fault α
  | .array elements ending => do
    let draft ← R.blank.fill elements.length ending R.fields elements
    draft.finish
  | .object members ending => do
    let draft ← members.foldlM Draft.accept R.blank
    ending
    draft.finish
  | d => .error (d.unexpected ("struct ".toList ++ R.title))

end Record

end MinerInfo.Json
