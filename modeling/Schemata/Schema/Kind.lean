import Schemata.Schema

/-! Kinds of properties and of tuple elements, as they are chosen by name. -/
namespace Schemata

inductive PresenceKind where
  | required | optional | defaultable
  deriving DecidableEq

inductive RoleKind where
  | leading | defaultable | optional | variadic | trailing
  deriving DecidableEq

namespace PresenceKind

def all : List (String × PresenceKind) :=
  [("required", .required), ("optional", .optional), ("defaultable", .defaultable)]

def ofName? (s : String) : Option PresenceKind := all.lookup s

/-- A default goes with a defaultable property and with no other. -/
def presence? : PresenceKind → Option Producer → Option Presence
  | .required, none => some .required
  | .optional, none => some .optional
  | .defaultable, some p => some (.defaultable p)
  | _, _ => none

end PresenceKind

namespace RoleKind

def all : List (String × RoleKind) :=
  [("prefix", .leading), ("defaultable", .defaultable), ("optional", .optional), ("variadic", .variadic),
   ("postfix", .trailing)]

def ofName? (s : String) : Option RoleKind := all.lookup s

def name (k : RoleKind) : String :=
  ((all.find? fun e => e.2 = k).map (·.1)).getD ""

/-- A default goes with a defaultable element and with no other. -/
def role? : RoleKind → Option Producer → Option Role
  | .leading, none => some .leading
  | .defaultable, some p => some (.defaultable p)
  | .optional, none => some .optional
  | .variadic, none => some .variadic
  | .trailing, none => some .trailing
  | _, _ => none

end RoleKind

end Schemata
