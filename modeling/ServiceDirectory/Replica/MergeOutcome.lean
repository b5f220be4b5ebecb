namespace ServiceDirectory

/-- What became of one entry of a peer. -/
inductive Verdict
  /-- It won and was written. -/
  | applied
  /-- It lost to what was held, or came already expired. -/
  | ignored
  /-- It was malformed. -/
  | rejected
deriving DecidableEq

/-- How many entries of a batch met each verdict. -/
structure MergeOutcome where
  applied : Nat := 0
  ignored : Nat := 0
  rejected : Nat := 0
deriving DecidableEq

def MergeOutcome.count (o : MergeOutcome) : Verdict → MergeOutcome
  | .applied => { o with applied := o.applied + 1 }
  | .ignored => { o with ignored := o.ignored + 1 }
  | .rejected => { o with rejected := o.rejected + 1 }

end ServiceDirectory
