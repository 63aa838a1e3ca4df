import Schemata.Schema.Kind

/-! Schemas as data: one record of its parts for each schema, property and element. `ofData?` reads back
what `toData` writes. -/
namespace Schemata

namespace Producer

def toData (p : Producer) : Value :=
  .record .producer (some p.token) [p.source, .bool p.isFactory]

def ofData? : Value → Option Producer
  | .record .producer (some token) [source, .bool isFactory] => some ⟨token, source, isFactory⟩
  | _ => none

/-- The producer that a part holds, or none in the place of one. -/
def partOfData? : Value → Option (Option Producer)
  | .null => some none
  | v => (ofData? v).map some

end Producer

namespace Property

def dataWith (key : Key) (presence : Presence) (value : Value) : Value :=
  .record .property none
    [key.toData, value, .choice "PropertyKind" presence.name, .ofOption Producer.toData presence.default?]

/-- The property of the given parts. -/
def ofParts? (key : Value) (kind : String) (default : Value) (schema : Option Schema) :
    Option (Property Schema) := do
  let presence ← (← PresenceKind.ofName? kind).presence? (← Producer.partOfData? default)
  some ⟨← Key.ofValue? key, ← schema, presence⟩

end Property

namespace Element

def dataWith (role : Role) (value : Value) : Value :=
  .record .element none
    [.choice "ElementKind" role.name, value, .ofOption Producer.toData role.default?]

/-- The element of the given parts. -/
def ofParts? (kind : String) (default : Value) (schema : Option Schema) : Option (Element Schema) := do
  let role ← (← RoleKind.ofName? kind).role? (← Producer.partOfData? default)
  some ⟨role, ← schema⟩

end Element

namespace Schema

mutual
def toData : Schema → Value
  | .keyword k => .record .keyword none [.string k.name]
  | .literal v => .record .literal none [v, .string v.domain.name]
  | .constrained s cs => .record .constrained none [toData s, .tuple none (cs.map Constraint.toData)]
  | .union bs => .record .union none [.tuple none (allToData bs)]
  | .intersection ms => .record .intersection none [.tuple none (allToData ms)]
  | .ref r => .record .ref none [.int r.arena, .int r.handle, .string r.name]
  | .object ⟨ps, i, u⟩ =>
    .record .object none
      [.tuple none (propertiesToData ps), indexToData i, .choice "UndeclaredPolicy" u.name]
  | .tuple es => .record .tuple none [.tuple none (elementsToData es)]
termination_by structural s => s
def allToData : List Schema → List Value
  | [] => []
  | s :: rest => toData s :: allToData rest
termination_by structural ss => ss
def propertiesToData : List (Property Schema) → List Value
  | [] => []
  | ⟨k, s, p⟩ :: rest => Property.dataWith k p (toData s) :: propertiesToData rest
termination_by structural ps => ps
def indexToData : Option (IndexSignature Schema) → Value
  | none => .null
  | some ⟨k, s⟩ => .record .indexSignature none [toData k, toData s]
termination_by structural i => i
def elementsToData : List (Element Schema) → List Value
  | [] => []
  | ⟨r, s⟩ :: rest => Element.dataWith r (toData s) :: elementsToData rest
termination_by structural es => es
end

mutual
/-- The schema that a record stands for. -/
def ofData? : Value → Option Schema
  | .record .keyword _ [.string name] => (Keyword.ofName? name).map .keyword
  | .record .literal _ [v, _] => some (.literal v)
  | .record .constrained _ [base, .tuple _ cs] =>
    match ofData? base, cs.mapM Constraint.ofData? with
    | some s, some ds => some (.constrained s ds)
    | _, _ => none
  | .record .union _ [.tuple _ bs] => (allOfData? bs).map .union
  | .record .intersection _ [.tuple _ ms] => (allOfData? ms).map .intersection
  | .record .ref _ [.number (.int arena), .number (.int handle), .string name] =>
    some (.ref ⟨arena.toNat, handle.toNat, name⟩)
  | .record .object _ [.tuple _ ps, index, .choice _ policy] =>
    match propertiesOfData? ps, indexOfData? index, Policy.ofName? policy with
    | some properties, some i, some u => some (.object ⟨properties, i, u⟩)
    | _, _, _ => none
  | .record .tuple _ [.tuple _ es] => (elementsOfData? es).map .tuple
  | _ => none
termination_by structural v => v
def allOfData? : List Value → Option (List Schema)
  | [] => some []
  | v :: rest =>
    match ofData? v, allOfData? rest with
    | some s, some ss => some (s :: ss)
    | _, _ => none
termination_by structural vs => vs
def propertiesOfData? : List Value → Option (List (Property Schema))
  | [] => some []
  | .record .property _ [key, value, .choice _ kind, default] :: rest =>
    match Property.ofParts? key kind default (ofData? value), propertiesOfData? rest with
    | some p, some ps => some (p :: ps)
    | _, _ => none
  | _ => none
termination_by structural vs => vs
/-- The index signature that a part holds, or none in the place of one. -/
def indexOfData? : Value → Option (Option (IndexSignature Schema))
  | .null => some none
  | .record .indexSignature _ [key, value] =>
    match ofData? key, ofData? value with
    | some k, some s => some (some ⟨k, s⟩)
    | _, _ => none
  | _ => none
termination_by structural v => v
def elementsOfData? : List Value → Option (List (Element Schema))
  | [] => some []
  | .record .element _ [.choice _ kind, value, default] :: rest =>
    match Element.ofParts? kind default (ofData? value), elementsOfData? rest with
    | some e, some es => some (e :: es)
    | _, _ => none
  | _ => none
termination_by structural vs => vs
end

end Schema

namespace Property

def toData (p : Property Schema) : Value :=
  dataWith p.key p.presence p.value.toData

def ofData? : Value → Option (Property Schema)
  | .record .property _ [key, value, .choice _ kind, default] =>
    ofParts? key kind default (Schema.ofData? value)
  | _ => none

end Property
end Schemata
