import Schemata.Error

/-! Results: a value or an error. Taking the one that is not there is a misuse, reported with the text of
the other. -/
namespace Schemata.Result

variable {α β γ ε : Type}

def isOk : Except ε α → Bool
  | .ok _ => true
  | .error _ => false

def unwrapOr (fallback : α) : Except ε α → α
  | .ok a => a
  | .error _ => fallback

def unwrap (text : ε → String) : Except ε α → Except Fault α
  | .ok a => .ok a
  | .error e => .error (.misuse ("Called unwrap on Err: " ++ text e))

def unwrapError (text : α → String) : Except ε α → Except Fault ε
  | .ok a => .error (.misuse ("Called unwrap_err on Ok: " ++ text a))
  | .error e => .ok e

def fold (onOk : α → γ) (onError : ε → γ) : Except ε α → γ
  | .ok a => onOk a
  | .error e => onError e

end Schemata.Result
