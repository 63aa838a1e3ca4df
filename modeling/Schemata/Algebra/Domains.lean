import Schemata.Arena

/-! Domains that the values of a schema can lie in, when the schema's form bounds them. -/
namespace Schemata
namespace Schema

/-- Meets the bounds that are known. -/
def meetKnown : List (Option DomainSet) → Option DomainSet
  | [] => none
  | none :: rest => meetKnown rest
  | some d :: rest => some (match meetKnown rest with
    | some e => d.inter e
    | none => d)

mutual
/-- The bound of a schema, with `follow` for references. A union is bounded when all its branches are, an
intersection when one member is. -/
def domainsWith (follow : Ref → Except Fault (Option DomainSet)) : Schema → Except Fault (Option DomainSet)
  | .keyword k => pure (some k.domains)
  | .literal v => pure (some (.of [v.domain]))
  | .constrained s _ => domainsWith follow s
  | .union bs => unionDomains follow bs
  | .intersection ms => do pure (meetKnown (← memberDomains follow ms))
  | .ref r => follow r
  | .object _ => pure (some (.of [.object]))
  | .tuple _ => pure (some (.of [.array]))
termination_by structural s => s
def unionDomains (follow : Ref → Except Fault (Option DomainSet)) :
    List Schema → Except Fault (Option DomainSet)
  | [] => pure (some (.of []))
  | s :: rest => do
    match ← domainsWith follow s with
    | none => pure none
    | some d => pure ((← unionDomains follow rest).map d.union)
termination_by structural ss => ss
def memberDomains (follow : Ref → Except Fault (Option DomainSet)) :
    List Schema → Except Fault (List (Option DomainSet))
  | [] => pure []
  | s :: rest => do
    let d ← domainsWith follow s
    pure (d :: (← memberDomains follow rest))
termination_by structural ss => ss
end

end Schema

namespace Env

/-- A reference met inside itself or still being defined bounds nothing. -/
def domainsWithin (env : Env) : Nat → List Ref → Schema → Except Fault (Option DomainSet)
  | 0, _, s => s.domainsWith fun _ => pure none
  | fuel + 1, seen, s => s.domainsWith fun r =>
    if seen.contains r then pure none
    else do
      match ← env.resolve? r with
      | none => pure none
      | some t => env.domainsWithin fuel (r :: seen) t

/-- Domains that the schema's values lie in, if they can be told. -/
def domains? (env : Env) (s : Schema) : Except Fault (Option DomainSet) :=
  env.domainsWithin (env.slotCount + 1) [] s

end Env
end Schemata
