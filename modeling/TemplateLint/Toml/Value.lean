/-!
# Values of TOML
-/

namespace TemplateLint.Toml

/-- A value. Of floats, dates and times only the form is checked, because no setting is one. -/
inductive Value where
  | text (text : String)
  | integer (number : Int)
  | float
  | boolean (flag : Bool)
  | moment
  | array (values : List Value)
  -- The names in a table occur once.
  | table (entries : List (String × Value))

/-- A name with the names of the tables around it, as dots separate them. -/
structure Key where
  stem : List String
  name : String
  deriving DecidableEq, Repr

end TemplateLint.Toml
