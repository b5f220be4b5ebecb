namespace ServiceDirectory

/-- Why an operation on a store or a view did not complete. -/
inductive Failure
  | notFound
  | timeout
  | storage (detail : String)
  | undecodableRow
  | transport (detail : String)
  | codec (detail : String)
  | invalidArgument (detail : String)
deriving DecidableEq

namespace Failure

def message : Failure → String
  | notFound => "not found"
  | timeout => "operation timed out"
  | storage detail => "storage error: " ++ detail
  | undecodableRow => "storage error: undecodable row"
  | transport detail => "transport error: " ++ detail
  | codec detail => "codec error: " ++ detail
  | invalidArgument detail => "invalid argument: " ++ detail

end Failure

/-- A step on a state that may fail; what was done before the failure stays done. -/
abbrev Op (σ α : Type) := ExceptT Failure (StateM σ) α

end ServiceDirectory
