/-!
# Contexts

Where a script stands: outside every page, on a page, or inside a path or text object of a page.
-/
namespace PageScript

inductive Context where
  | outside
  | page
  | path
  | text
  deriving DecidableEq, Repr, Inhabited

structure ContextSet where
  page : Bool := false
  path : Bool := false
  text : Bool := false
  deriving DecidableEq, Repr

namespace ContextSet

def pageOrPath : ContextSet := { page := true, path := true }

def pageOrText : ContextSet := { page := true, text := true }

/-- Whether a context belongs to the set; `outside` belongs to none. -/
def contains (s : ContextSet) : Context → Bool
  | .outside => false
  | .page => s.page
  | .path => s.path
  | .text => s.text

def meets (s t : ContextSet) : Bool := s.page && t.page || s.path && t.path || s.text && t.text

def union (s t : ContextSet) : ContextSet := ⟨s.page || t.page, s.path || t.path, s.text || t.text⟩

def members (s : ContextSet) : List Context :=
  [Context.page, Context.path, Context.text].filter s.contains

end ContextSet

namespace Context

def name : Context → String
  | outside => "none"
  | page => "page"
  | path => "path"
  | text => "text"

/-- The set of one context, empty for `outside`. -/
def singleton : Context → ContextSet
  | outside => {}
  | page => { page := true }
  | path => { path := true }
  | text => { text := true }

end Context

namespace ContextSet

/-- The name of the only member, `none` without members, and `mixed` with several. -/
def name (s : ContextSet) : String :=
  match s.members with
  | [] => Context.outside.name
  | [c] => c.name
  | _ => "mixed"

def inspect (s : ContextSet) : String :=
  match s.members with
  | [] => "Context(none)"
  | members => "Context(" ++ String.intercalate " | " (members.map Context.name) ++ ")"

end ContextSet

end PageScript
