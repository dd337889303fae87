import PageScript.Reader.Document
import PageScript.Statement.Inspect

/-!
# Listings of scripts

The statements of a script, one to a line, with those of a page indented. An error is told with
everything that led to it.
-/
namespace PageScript

structure Outcome where
  exitCode : Nat
  output : List String
  errors : List String
  deriving DecidableEq, Repr

namespace Listing

/-- An error and its causes, outermost first. Several causes are numbered. -/
def report (outermost : String) : List String → List String
  | [] => ["Error: " ++ outermost]
  | [cause] => ["Error: " ++ outermost, "", "Caused by:", "    " ++ cause]
  | causes =>
    ["Error: " ++ outermost, "", "Caused by:"] ++
      causes.mapIdx fun (n : Nat) cause => s!"    {n}: {cause}"

def failure (output : List String) (outermost : String) (causes : List String) : Outcome :=
  ⟨1, output, report outermost causes⟩

/-- A statement on a line of its own, indented inside a page. -/
def line (insidePage : Bool) (s : Statement) : String :=
  (if insidePage then "  " else "") ++ Inspect.statement s

/-- The lines of some statements and the error behind them, if there is one. -/
def lines (insidePage : Bool) :
    List (Except StatementError Statement) → List String × Option StatementError
  | [] => ([], none)
  | .error e :: _ => ([], some e)
  | .ok s :: rest =>
    let (indented, after) := match s with
      | .page _ => (insidePage, true)
      | .endPage => (false, false)
      | _ => (insidePage, insidePage)
    let (more, e) := lines after rest
    (line indented s :: more, e)

/-- Lists a script read from `path`. -/
def ofScript (path : String) (bytes : List UInt8) : Outcome :=
  match lines false (Reader.ofBytes bytes).document with
  | (output, none) => ⟨0, output, []⟩
  | (output, some e) => failure output s!"failed to read {path}" [e.place, e.cause.message]

/-- The command, given its arguments and what is found under a path: bytes, or the reason why there
are none. -/
def command (arguments : List String) (find : String → Except String (List UInt8)) : Outcome :=
  match arguments with
  | [] => failure [] "usage: pdfs-dump <script>" []
  | path :: _ =>
    match find path with
    | .ok bytes => ofScript path bytes
    | .error reason => failure [] s!"failed to open {path}" [reason]

/-- Why nothing is found under a path that does not exist. -/
def missingFile : String := "No such file or directory (os error 2)"

end Listing

end PageScript
