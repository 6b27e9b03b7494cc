import CPreprocessor.Location

/-!
Conditional directives and the frames they open. A frame lasts from an opening directive to its
`#endif`; its state says whether the current branch is live and whether a later one may be.
-/

namespace CPreprocessor

/-- The directives that open a frame. -/
inductive Opening
  | ifTrue
  | ifDefined
  | ifUndefined
deriving DecidableEq, Inhabited

/-- The directives that structure a source into branches. -/
inductive Conditional
  | opening (o : Opening)
  | elseIf
  | otherwise
  | closing
deriving DecidableEq, Inhabited

def Opening.name : Opening → String
  | ifTrue => "if"
  | ifDefined => "ifdef"
  | ifUndefined => "ifndef"

def Conditional.name : Conditional → String
  | opening o => o.name
  | elseIf => "elif"
  | otherwise => "else"
  | closing => "endif"

/-- The state of the current branch of a frame. -/
inductive Branch
  /-- the branch is live -/
  | active
  /-- no branch was taken yet -/
  | awaiting
  /-- an earlier branch was taken -/
  | done
  /-- the frame as a whole is in a branch that is not live -/
  | dead
deriving DecidableEq, Inhabited

/-- A conditional that was opened and not closed yet. -/
structure Frame where
  opening : Opening
  branch : Branch
  location : Location
  elseSeen : Bool := false
deriving DecidableEq, Inhabited

/-- Whether text inside open frames is live; the innermost frame comes first. -/
def isLive (frames : List Frame) : Bool := frames.head?.all (·.branch = .active)

/-- Where a run stands, seen from the innermost frame. -/
inductive Standing
  | top
  | trueBranch
  | falseBranch
  | deadBranch
deriving DecidableEq, Inhabited

/-- Where a run with these open frames stands. -/
def standing : List Frame → Standing
  | [] => .top
  | frame :: _ =>
    match frame.branch with
    | .active => .trueBranch
    | .dead => .deadBranch
    | .awaiting | .done => .falseBranch

/-- How a directive that begins a branch was decided. It is not evaluated when its branch could not
be taken whatever its condition. -/
structure Verdict where
  directive : Conditional
  location : Location
  taken : Option Bool
  /-- the condition as written -/
  condition : String
deriving DecidableEq, Inhabited

end CPreprocessor
