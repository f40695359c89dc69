namespace BoundaryTag.Text

def record (name : String) (fields : List (String × String)) : String :=
  let written := fields.map fun (field, value) => field ++ ": " ++ value
  name ++ " \x7b " ++ String.intercalate ", " written ++ " \x7d"

def wrap (name content : String) : String := name ++ "(" ++ content ++ ")"

def ofOption : Option Nat → String
  | none => "None"
  | some n => wrap "Some" (toString n)

def ofBool (b : Bool) : String := if b then "true" else "false"

end BoundaryTag.Text
