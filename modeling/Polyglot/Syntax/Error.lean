import Polyglot.Language

/-!
# Errors of parsing and querying
-/

set_option autoImplicit false

namespace Polyglot

/-- Why a text has no tree, or a query no answer. -/
inductive SyntaxError where
  | parseFailed (language : Language)
  | invalidQuery (language : Language) (message : String)
  | notFound (language : Language)
  | languageMismatch (query tree : Language)
deriving DecidableEq, Repr

/-- The message for the error. -/
def SyntaxError.message : SyntaxError → String
  | .parseFailed l => "failed to parse " ++ l.name ++ " source"
  | .invalidQuery l text => "invalid " ++ l.name ++ " query: " ++ text
  | .notFound l => "no " ++ l.name ++ " syntax tree was resolved for this file"
  | .languageMismatch q t =>
    "query compiled for " ++ q.name ++ " cannot run against a " ++ t.name ++ " tree"

end Polyglot
