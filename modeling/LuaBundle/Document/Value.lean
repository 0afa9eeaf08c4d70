/-!
# Document values

What a configuration document holds, in whichever format it is written. Members of a table keep the
order in which they are written, repeated names included.
-/
namespace LuaBundle.Document

inductive Value where
  | null
  | bool (b : Bool)
  | integer (i : Int)
  /-- A number written with a fraction or an exponent: `mantissa * 10 ^ exponent`. -/
  | decimal (mantissa exponent : Int)
  | string (s : String)
  /-- A date, a time or a number that is not finite, as it is written. -/
  | literal (text : String)
  | list (items : List Value)
  | table (members : List (String × Value))
  deriving Repr, Inhabited

namespace Value

/-- The last member of the given name. -/
def member? (name : String) : Value → Option Value
  | table members => members.reverse.lookup name
  | _ => none

def isNull : Value → Bool
  | null => true
  | _ => false

def strings (items : List String) : Value := list (items.map string)

def natural (n : Nat) : Value := integer n

/-- A table of strings, integers and the like in the order given. -/
def ofMembers (members : List (String × Value)) : Value := table members

def orNull {α : Type} (write : α → Value) : Option α → Value
  | some a => write a
  | none => null

end Value

end LuaBundle.Document
