import ServiceDirectory.Failure

namespace ServiceDirectory

/-- How a request ended, by the numbering that callers know. -/
inductive Code
  | ok
  | cancelled
  | unknown
  | invalidArgument
  | deadlineExceeded
  | notFound
  | alreadyExists
  | permissionDenied
  | resourceExhausted
  | failedPrecondition
  | aborted
  | outOfRange
  | unimplemented
  | internal
  | unavailable
  | dataLoss
  | unauthenticated
deriving DecidableEq

structure Status where
  code : Code
  message : String
deriving DecidableEq

def Failure.code : Failure → Code
  | notFound => .notFound
  | timeout => .deadlineExceeded
  | invalidArgument _ | codec _ => .invalidArgument
  | transport _ => .unavailable
  | storage _ | undecodableRow => .internal

def Failure.toStatus (f : Failure) : Status := ⟨f.code, f.message⟩

/-- Answers that are the caller's own doing count as served. -/
def Status.isFailure (s : Status) : Bool :=
  match s.code with
  | .invalidArgument | .notFound | .alreadyExists | .failedPrecondition => false
  | _ => true

end ServiceDirectory
