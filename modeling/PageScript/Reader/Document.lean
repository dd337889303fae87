import PageScript.Reader.Advance

/-!
# Whole scripts
-/
namespace PageScript.Reader

/-- All statements of a script. The end of the script and the first error, which comes last, stop
the reading. -/
def document (r : Reader) : List (Except StatementError Statement) :=
  match h : r.readStatement with
  | (.ok (some s), r') =>
    have := outstanding_readStatement_lt h
    .ok s :: document r'
  | (.ok none, _) => []
  | (.error e, _) => [.error e]
termination_by r.outstanding

end PageScript.Reader
