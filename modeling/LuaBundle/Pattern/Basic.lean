import LuaBundle.Pattern.CharSet

/-!
# Patterns

A pattern describes pieces of a text. It is matched by the set of all places that it can reach from
a set of places; a place is the number of characters before it. A pattern does not come back to a
place that it has left, so more rounds of a repetition than the text has places reach nothing new.
-/
namespace LuaBundle

namespace Pattern

/-- How a place lies between words. -/
inductive Boundary where
  | either
  | neither
  | start
  | finish
  | startHalf
  | finishHalf
  deriving DecidableEq, Repr

/-- A demand on the place itself. With `crlf`, a carriage return and a line feed end one line. -/
inductive Assertion where
  | textStart
  | textEnd
  | lineStart (crlf : Bool)
  | lineEnd (crlf : Bool)
  /-- Words consist of the characters of the given set. -/
  | word (kind : Boundary) (chars : CharSet)
  deriving DecidableEq, Repr

def Boundary.holds (inBefore inAfter : Bool) : Boundary → Bool
  | either => inBefore != inAfter
  | neither => inBefore == inAfter
  | start => !inBefore && inAfter
  | finish => inBefore && !inAfter
  | startHalf => !inBefore
  | finishHalf => !inAfter

/-- Whether a place between two characters, of which either may be missing, is as demanded. -/
def Assertion.holds (before after : Option Char) : Assertion → Bool
  | textStart => before == none
  | textEnd => after == none
  | lineStart crlf =>
    before == none || before == some '\n' || crlf && before == some '\r' && after != some '\n'
  | lineEnd crlf =>
    if crlf then
      after == none || after == some '\r' || after == some '\n' && before != some '\r'
    else after == none || after == some '\n'
  | word kind chars => kind.holds (before.any chars.holds) (after.any chars.holds)

end Pattern

inductive Pattern where
  | empty
  | char (s : Pattern.CharSet)
  | assertion (a : Pattern.Assertion)
  | seq (p q : Pattern)
  | either (p q : Pattern)
  | repeated (p : Pattern) (least : Nat) (most : Option Nat)
  deriving DecidableEq, Repr

namespace Pattern

/-- Places of both kinds, each once. -/
def joinPlaces (s t : List Nat) : List Nat := s ++ t.filter (· ∉ s)

@[simp] theorem mem_joinPlaces {s t : List Nat} {i : Nat} :
    i ∈ joinPlaces s t ↔ i ∈ s ∨ i ∈ t := by
  simp only [joinPlaces, List.mem_append, List.mem_filter, decide_eq_true_eq]
  grind

/-- Apply `f` so many times, or until it changes nothing. -/
def settle (f : List Nat → List Nat) : Nat → List Nat → List Nat
  | 0, places => places
  | n + 1, places => if f places = places then places else settle f n (f places)

/-- The places that can be reached from the given ones. -/
def reach (text : Array Char) : Pattern → List Nat → List Nat
  | empty, places => places
  | char s, places => (places.filter fun i => text[i]?.any s.holds).map (· + 1)
  | assertion a, places =>
    places.filter fun i => a.holds (if i = 0 then none else text[i - 1]?) text[i]?
  | seq p q, places => reach text q (reach text p places)
  | either p q, places => joinPlaces (reach text p places) (reach text q places)
  | repeated p least most, places =>
    let rounds := text.size + 1
    let more := (most.map (· - least)).getD rounds
    settle (fun s => joinPlaces s (reach text p s)) (Nat.min more rounds)
      (settle (reach text p) (Nat.min least rounds) places)

def occursIn (p : Pattern) (text : List Char) : Bool :=
  p.reach text.toArray (List.range (text.length + 1)) != []

end Pattern

end LuaBundle
