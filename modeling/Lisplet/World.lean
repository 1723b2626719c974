import Lisplet.FileTree
/-!
# The world outside

What a program can ask of its surroundings, as functions: the text of a file, whether a path exists,
an environment variable, the clock and the dice. An answer may not be known yet; a run that needs it
stops with the question and can be started again once the answer is there. Only the dice are known
from the start, by their seed.
-/
namespace Lisplet

/-- Something a run needs to know. -/
inductive Question where
  | file (path : String)
  | path (path : String)
  | environment (name : String)
  | line
  | time (index : Nat)
deriving DecidableEq, Repr

/-- The surroundings of a run. -/
structure World where
  /-- The current directory. -/
  directory : String
  /-- The text of a file, by the path it is opened with. -/
  file : String → Option (Except FileFailure String)
  /-- Whether a path exists. -/
  path : String → Option Bool
  /-- An environment variable, which may be unset. -/
  environment : String → Option (Option String)
  /-- The time in seconds, by the number of times a program asked for it before. The clock of the trace is another one, at
  which no program can look. -/
  time : Nat → Option Float
  /-- A number between zero and one, by the number of times one was asked before. -/
  chance : Nat → Float

namespace World

/-- A name that stands for a procedure in any set of variables, with the text of that procedure. -/
def inheritedProcedure (name procedure : String) : String × String :=
  (name, "function " ++ procedure ++ "() \x7b [native code] \x7d")

/-- The names that every set of variables answers to, unless it has a variable of that name. -/
def inherited : List (String × String) :=
  inheritedProcedure "constructor" "Object" :: ("__proto__", "[object Object]") ::
    (["toString", "toLocaleString", "valueOf", "hasOwnProperty", "isPrototypeOf",
      "propertyIsEnumerable", "__defineGetter__", "__defineSetter__", "__lookupGetter__",
      "__lookupSetter__"].map fun name => inheritedProcedure name name)

/-- What a name stands for, given the variable of that name if there is one. -/
def answerTo (name : String) (own : Option String) : Option String :=
  own.or (inherited.lookup name)

/-- A clock that goes on by a thousandth of a second each time it is asked. -/
def steadyClock (index : Nat) : Float := 1790000000 + Float.ofNat index / 1000

/-- Mixes the bits of a word. -/
def mixBits (z : UInt64) : UInt64 :=
  let z := (z ^^^ (z >>> 30)) * 0xBF58476D1CE4E5B9
  let z := (z ^^^ (z >>> 27)) * 0x94D049BB133111EB
  z ^^^ (z >>> 31)

/-- Dice with a seed: the mixed multiples of an odd constant, as multiples of 2⁻⁵³ below one. -/
def dice (seed : UInt64) (index : Nat) : Float :=
  let z := mixBits (seed + (UInt64.ofNat index + 1) * 0x9E3779B97F4A7C15)
  (z >>> 11).toFloat / 9007199254740992

/-- A world with fixed files and variables, a steady clock and dice of a fixed seed. -/
def closed (directory : String) (files : List (String × String))
    (vars : List (String × String)) : World :=
  let tree := FileTree.ofList directory files
  { directory := directory
    file := fun path => some (tree.read path)
    path := fun path => some (tree.holds path)
    environment := fun name => some (answerTo name (vars.lookup name))
    time := fun index => some (steadyClock index)
    chance := dice 0 }

end World

end Lisplet
