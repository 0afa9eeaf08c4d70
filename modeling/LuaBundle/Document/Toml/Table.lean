import LuaBundle.Document.Value

/-!
# Tables of TOML

A document builds its tables piece by piece, and how a table came to be decides what may still be
added to it. A table that a header names is not named by another one. A table made by dotted keys is
extended by dotted keys and by headers of tables below it. Members are kept in the order of their
names.
-/
namespace LuaBundle.Document.Toml

inductive Origin where
  /-- By the header of a table below it. -/
  | passed
  | dotted
  | header
  deriving DecidableEq, Repr

inductive Node where
  /-- A value between an equals sign and the end of the line. Nothing is added to it. -/
  | value (v : Value)
  | table (origin : Origin) (members : List (String × Node))
  /-- The tables under a doubled header, last first. -/
  | rows (tables : List (List (String × Node)))
  deriving Repr, Inhabited

abbrev Members := List (String × Node)

/-- Change the member of the given name, or make it, unless `change` fails. -/
def alter (name : String) (change : Option Node → Option Node) : Members → Option Members
  | [] => (change none).map fun n => [(name, n)]
  | (k, n) :: rest =>
    if k = name then (change (some n)).map fun n => (k, n) :: rest
    else if name < k then (change none).map fun new => (name, new) :: (k, n) :: rest
    else (alter name change rest).map ((k, n) :: ·)

/-- Put a value under a dotted key. The last table on the way has to be made by dotted keys. -/
def put (v : Value) : List String → Members → Option Members
  | [] => fun _ => none
  | [name] => alter name fun
    | none => some (.value v)
    | some _ => none
  | name :: next :: rest => alter name fun
    | none => (put v (next :: rest) []).map (.table .dotted)
    | some (.table .dotted members) => (put v (next :: rest) members).map (.table .dotted)
    | some (.table .passed members) =>
      if rest = [] then none else (put v (next :: rest) members).map (.table .passed)
    | some (.rows (last :: before)) =>
      if rest = [] then none else (put v (next :: rest) last).map fun t => .rows (t :: before)
    | some _ => none

/-- What a header does to the table that it names. -/
def openTable : Option Node → Option Node
  | none => some (.table .header [])
  | some (.table .passed members) => some (.table .header members)
  | some _ => none

/-- What a doubled header does to the tables that it names. -/
def openRow : Option Node → Option Node
  | none => some (.rows [[]])
  | some (.rows tables) => some (.rows ([] :: tables))
  | some _ => none

/-- Follow a header and apply `change` to what it names. Of tables in rows, the last counts. -/
def openHeader (change : Option Node → Option Node) : List String → Members → Option Members
  | [] => fun _ => none
  | [name] => alter name change
  | name :: next :: rest => alter name fun
    | none => (openHeader change (next :: rest) []).map (.table .passed)
    | some (.table origin members) =>
      (openHeader change (next :: rest) members).map (.table origin)
    | some (.rows (last :: before)) =>
      (openHeader change (next :: rest) last).map fun t => .rows (t :: before)
    | some _ => none

/-- Put a value into the table that a header has opened. -/
def putBelow (v : Value) (keys : List String) : List String → Members → Option Members
  | [] => put v keys
  | name :: rest => alter name fun
    | some (.table origin members) => (putBelow v keys rest members).map (.table origin)
    | some (.rows (last :: before)) =>
      (putBelow v keys rest last).map fun t => .rows (t :: before)
    | _ => none

mutual

def Node.toValue : Node → Value
  | .value v => v
  | .table _ members => .table (toMembers members)
  | .rows tables => .list (toRows tables).reverse

def toMembers : List (String × Node) → List (String × Value)
  | [] => []
  | (name, n) :: rest => (name, n.toValue) :: toMembers rest

def toRows : List (List (String × Node)) → List Value
  | [] => []
  | t :: rest => .table (toMembers t) :: toRows rest

end

end LuaBundle.Document.Toml
