import Schemata.Algebra.Union

/-! The keys that a schema's values may have, as a schema. -/
namespace Schemata

namespace Schema

def isKeyword (k : Keyword) : Schema → Bool
  | .keyword l => k == l
  | _ => false

end Schema

namespace Key

def isName : Key → Bool
  | .name _ => true
  | _ => false

def isSymbol : Key → Bool
  | .symbol _ => true
  | _ => false

end Key

namespace ObjectShape

/-- Names, symbols, then the index signature's keys. A bare string or symbol key takes the place of all
named keys of its kind. -/
def keySchemas (o : ObjectShape Schema) : List Schema :=
  let indexed := match o.index with
    | some i => i.key.branches
    | none => []
  let literals := fun (keyword : Keyword) (keep : Key → Bool) =>
    if indexed.any (Schema.isKeyword keyword) then []
    else (o.keys.filter keep).map fun k => Schema.literal k.toValue
  literals .string Key.isName ++ literals .symbol Key.isSymbol ++ indexed

end ObjectShape

namespace Env

/-- Keys that all the other key schemas contain. -/
def commonKeys (env : Env) (others : List Schema) (keys : List Schema) : Except Fault (List Schema) :=
  match keys with
  | [] => .ok []
  | k :: rest => do
    let common ← others.allM fun other => env.isSubset k other
    let kept ← env.commonKeys others rest
    pure (if common then k :: kept else kept)

end Env

namespace Schema

mutual
/-- The keys of a schema, with `follow` for references. A union keeps the keys that all branches have. -/
def keyOfWith (env : Env) (follow : Ref → Except Fault Schema) : Schema → Except Fault Schema
  | .ref r => follow r
  | .object o => env.union o.keySchemas
  | .union (b :: bs) => do
    let first ← keyOfWith env follow b
    let others ← keyOfEach env follow bs
    env.union (← env.commonKeys others first.branches)
  | .intersection ms => do env.union (← keyOfEach env follow ms)
  | .constrained base _ => keyOfWith env follow base
  | .keyword k => .error (.conflict (.objectRequired "keyof" (.keyword k)))
  | .literal v => .error (.conflict (.objectRequired "keyof" (.literal v)))
  | .union [] => .error (.conflict (.objectRequired "keyof" .never))
  | .tuple es => .error (.conflict (.objectRequired "keyof" (.tuple es)))
termination_by structural s => s
def keyOfEach (env : Env) (follow : Ref → Except Fault Schema) : List Schema → Except Fault (List Schema)
  | [] => .ok []
  | s :: rest => do
    let keys ← keyOfWith env follow s
    pure (keys :: (← keyOfEach env follow rest))
termination_by structural ss => ss
end

end Schema

namespace Env

def keyOfWithin (env : Env) : Nat → Schema → Except Fault Schema
  | 0, s => s.keyOfWith env fun r => .ok (.ref r)
  | fuel + 1, s => s.keyOfWith env fun r => do env.keyOfWithin fuel (← env.resolve r)

/-- The keys of a schema. References are followed as deep as distinct ones can nest. -/
def keyOf (env : Env) (s : Schema) : Except Fault Schema :=
  env.keyOfWithin (env.slotCount + 1) s

end Env
end Schemata
