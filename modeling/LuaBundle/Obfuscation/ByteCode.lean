import LuaBundle.Lua.Quoted

/-!
# Byte codes

A source becomes calls of `string.char` that rebuild its bytes when they run, and a `load` of the
result under a chunk name.
-/
namespace LuaBundle.Obfuscation

def blockSize : Nat := 200

def bytes (source : List Char) : List UInt8 := source.flatMap String.utf8EncodeChar

/-- Cut a list into pieces of `size + 1` items; the last may be shorter. -/
def blocks {α : Type} (size : Nat) : List α → List (List α)
  | [] => []
  | x :: xs => (x :: xs.take size) :: blocks size (xs.drop size)
termination_by xs => xs.length
decreasing_by simp only [List.length_drop, List.length_cons]; omega

def joined (separator : List Char) (parts : List (List Char)) : List Char :=
  separator.intercalate parts

def charCall (codes : List UInt8) : List Char :=
  "string.char(".toList ++ joined [','] (codes.map fun b => Nat.toDigits 10 b.toNat) ++ [')']

def bytesExpression (codes : List UInt8) : List Char :=
  match blocks (blockSize - 1) codes with
  | [] => ['"', '"']
  | [block] => charCall block
  | many =>
    "table.concat(\x7b ".toList ++ joined [',', ' '] (many.map charCall) ++ " \x7d)".toList

def encode (source chunk : List Char) : List Char :=
  "local __lp_source = ".toList ++ bytesExpression (bytes source) ++
    "\nlocal __lp_chunk = assert(load(__lp_source, ".toList ++ Lua.quoted chunk ++
    "))\nreturn __lp_chunk(...)\n".toList

end LuaBundle.Obfuscation
