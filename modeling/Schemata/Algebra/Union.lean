import Schemata.Algebra.Subset

/-! The normal form of a union: flat, without repetition, true and false as one keyword, and no plain branch
inside another branch. -/
namespace Schemata
namespace Schema

def trueLiteral : Schema := .literal (.bool true)

def falseLiteral : Schema := .literal (.bool false)

/-- Schemas that put out what they accept. -/
def isPlain : Schema → Bool
  | .keyword _ => true
  | .literal _ => true
  | .constrained _ _ => true
  | _ => false

/-- The first of the two truth values becomes the keyword, the other one goes. -/
def collapseBooleans (flat : List Schema) : List Schema :=
  if trueLiteral.isIn flat && falseLiteral.isIn flat then
    let isTruth := fun s : Schema => s.same trueLiteral || s.same falseLiteral
    (flat.takeWhile fun s => !isTruth s) ++ .keyword .boolean ::
      (flat.dropWhile fun s => !isTruth s).filter fun s => !isTruth s
  else flat

def ofBranches : List Schema → Schema
  | [s] => s
  | bs => .union bs

end Schema

namespace Env

/-- A plain branch is redundant beside a branch that contains it; of two equal ones the first stays. -/
def isRedundant (env : Env) (before : List Schema) (s : Schema) (behind : List Schema) :
    Except Fault Bool :=
  if !s.isPlain then .ok false
  else do
    if ← before.anyM fun t => env.isSubset s t then pure true
    else
      behind.anyM fun t => do
        if ← env.isSubset s t then pure (!(← env.isSubset t s)) else pure false

/-- Drops the redundant branches behind those of `before`. -/
def pruned (env : Env) (before : List Schema) : List Schema → Except Fault (List Schema)
  | [] => .ok []
  | s :: behind => do
    let redundant ← env.isRedundant before s behind
    let kept ← env.pruned (before ++ [s]) behind
    pure (if redundant then kept else s :: kept)

/-- The union of schemas in normal form. -/
def union (env : Env) (ss : List Schema) : Except Fault Schema := do
  let flat := Schema.collapseBooleans (Schema.distinct (ss.flatMap Schema.branches))
  pure (.ofBranches (← env.pruned [] flat))

end Env
end Schemata
