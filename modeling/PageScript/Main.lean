import PageScript.Listing

/-!
# The command line

Lists the script whose path is the first argument.
-/

/-- The bytes of a file, or the reason why it cannot be read. -/
def readScript (path : String) : IO (Except String (List UInt8)) := do
  try
    return .ok (← IO.FS.readBinFile path).toList
  catch e =>
    match e with
    | .noFileOrDirectory .. => return .error PageScript.Listing.missingFile
    | _ => return .error (toString e)

def main (arguments : List String) : IO UInt32 := do
  let found ← match arguments with
    | path :: _ => readScript path
    | [] => pure (.error PageScript.Listing.missingFile)
  let outcome := PageScript.Listing.command arguments fun _ => found
  outcome.output.forM IO.println
  outcome.errors.forM IO.eprintln
  return UInt32.ofNat outcome.exitCode
