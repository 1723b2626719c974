import Lisplet.Registry
/-!
# Built-in procedures

A built-in procedure is a name, the number of arguments it takes and the operation it performs. The
operations fall into families by what they work on; the last two families act on the run itself, all
others only compute. The table lists every procedure that is bound from the start. Two procedures are
the same when name and operation agree, so two names of one operation are different procedures.
-/
namespace Lisplet

/-- How many arguments a procedure takes. -/
structure Arity where
  least : Nat
  /-- No bound above when absent. -/
  most : Option Nat
deriving DecidableEq, Repr, Inhabited

namespace Arity

/-- Exactly `n` arguments. -/
def exactly (n : Nat) : Arity := ⟨n, some n⟩

/-- `n` arguments or more. -/
def atLeast (n : Nat) : Arity := ⟨n, none⟩

/-- Whether a number of arguments fits. -/
def accepts (a : Arity) (n : Nat) : Bool :=
  a.least ≤ n && (match a.most with | some m => n ≤ m | none => true)

/-- How the arity is put in an error. -/
def expected (a : Arity) : String :=
  match a.most with
  | none => "at least " ++ Nat.repr a.least
  | some m => if a.least = m then Nat.repr m else Nat.repr a.least ++ " to " ++ Nat.repr m

end Arity

/-- Functions of one real number. -/
inductive RealFunction where
  | sine
  | cosine
  | tangent
  | cosecant
  | secant
  | cotangent
  | arcsine
  | arccosine
  | arctangent
  | floor
  | ceiling
deriving DecidableEq, Repr

/-- Computing with numbers. -/
inductive Arithmetic where
  | add
  | subtract
  | multiply
  | divide
  | quaternion
  | remainder
  | power
  | squareRoot
  | exponential
  | logarithm
  | real (f : RealFunction)
deriving DecidableEq, Repr

/-- Comparing values and combining truth values. -/
inductive Logic where
  | equal
  | less
  | lessOrEqual
  | greater
  | greaterOrEqual
  | conjunction
  | disjunction
  | negation
deriving DecidableEq, Repr

/-- Building and taking apart lists and strings. -/
inductive Sequence where
  | cons
  | head
  | tail
  | list
  | append
  | isEmpty
  | length
  | concatenate
  | characters
deriving DecidableEq, Repr

/-- Looking at values of any kind, and reading one from text. -/
inductive Inspection where
  | typeOf
  | parse
deriving DecidableEq, Repr

/-- Making, raising and looking into error values. -/
inductive ErrorHandling where
  | make
  | raise
  | test
  | code
  | description
  | payload
  | catalogue
deriving DecidableEq, Repr

/-- Working with structs; the last three belong to one struct type. -/
inductive StructOperation where
  | get
  | typeOf
  | fields
  | construct (type : StructType)
  | test (type : StructType)
  | access (type : StructType) (index : Nat) (field : String)
deriving DecidableEq, Repr

/-- Talking to the world outside. -/
inductive HostOperation where
  | display
  | displayDebug
  | newline
  | printError
  | readLine
  | readFile
  | environment
  | currentTime
  | random
deriving DecidableEq, Repr

/-- Steering the run itself. -/
inductive Control where
  | eval
  | format
  | expand
  | repeat
  | exit
  | expectType
deriving DecidableEq, Repr

/-- What a built-in procedure does. -/
inductive Operation where
  | arithmetic (op : Arithmetic)
  | logic (op : Logic)
  | sequence (op : Sequence)
  | inspection (op : Inspection)
  | errors (op : ErrorHandling)
  | structs (op : StructOperation)
  | host (op : HostOperation)
  | control (op : Control)
deriving DecidableEq, Repr

/-- A built-in procedure. -/
structure Builtin where
  name : String
  arity : Arity
  operation : Operation
deriving DecidableEq, Repr

namespace Builtin

/-- Every procedure bound from the start. -/
def table : List Builtin :=
  [ ⟨"+", .atLeast 0, .arithmetic .add⟩,
    ⟨"-", .atLeast 1, .arithmetic .subtract⟩,
    ⟨"*", .atLeast 0, .arithmetic .multiply⟩,
    ⟨"/", .atLeast 1, .arithmetic .divide⟩,
    ⟨"quat", .exactly 4, .arithmetic .quaternion⟩,
    ⟨"%", .exactly 2, .arithmetic .remainder⟩,
    ⟨"rem", .exactly 2, .arithmetic .remainder⟩,
    ⟨"pow", .exactly 2, .arithmetic .power⟩,
    ⟨"sqrt", .exactly 1, .arithmetic .squareRoot⟩,
    ⟨"sin", .exactly 1, .arithmetic (.real .sine)⟩,
    ⟨"cos", .exactly 1, .arithmetic (.real .cosine)⟩,
    ⟨"tan", .exactly 1, .arithmetic (.real .tangent)⟩,
    ⟨"csc", .exactly 1, .arithmetic (.real .cosecant)⟩,
    ⟨"sec", .exactly 1, .arithmetic (.real .secant)⟩,
    ⟨"cot", .exactly 1, .arithmetic (.real .cotangent)⟩,
    ⟨"asin", .exactly 1, .arithmetic (.real .arcsine)⟩,
    ⟨"acos", .exactly 1, .arithmetic (.real .arccosine)⟩,
    ⟨"atan", .exactly 1, .arithmetic (.real .arctangent)⟩,
    ⟨"exp", .exactly 1, .arithmetic .exponential⟩,
    ⟨"ln", .exactly 1, .arithmetic .logarithm⟩,
    ⟨"floor", .exactly 1, .arithmetic (.real .floor)⟩,
    ⟨"ceil", .exactly 1, .arithmetic (.real .ceiling)⟩,
    ⟨"random", .exactly 0, .host .random⟩,
    ⟨"=", .exactly 2, .logic .equal⟩,
    ⟨"eq?", .exactly 2, .logic .equal⟩,
    ⟨"<", .exactly 2, .logic .less⟩,
    ⟨"<=", .exactly 2, .logic .lessOrEqual⟩,
    ⟨">", .exactly 2, .logic .greater⟩,
    ⟨">=", .exactly 2, .logic .greaterOrEqual⟩,
    ⟨"and", .atLeast 0, .logic .conjunction⟩,
    ⟨"&&", .atLeast 0, .logic .conjunction⟩,
    ⟨"or", .atLeast 0, .logic .disjunction⟩,
    ⟨"||", .atLeast 0, .logic .disjunction⟩,
    ⟨"not", .exactly 1, .logic .negation⟩,
    ⟨"cons", .exactly 2, .sequence .cons⟩,
    ⟨":", .exactly 2, .sequence .cons⟩,
    ⟨"head", .exactly 1, .sequence .head⟩,
    ⟨"tail", .exactly 1, .sequence .tail⟩,
    ⟨"list", .atLeast 0, .sequence .list⟩,
    ⟨"append", .atLeast 0, .sequence .append⟩,
    ⟨"++", .atLeast 0, .sequence .append⟩,
    ⟨"empty?", .exactly 1, .sequence .isEmpty⟩,
    ⟨"length", .exactly 1, .sequence .length⟩,
    ⟨"string-concat", .atLeast 0, .sequence .concatenate⟩,
    ⟨"chars", .exactly 1, .sequence .characters⟩,
    ⟨"display", .atLeast 0, .host .display⟩,
    ⟨"display-debug", .atLeast 0, .host .displayDebug⟩,
    ⟨"newline", .exactly 0, .host .newline⟩,
    ⟨"readline", .exactly 0, .host .readLine⟩,
    ⟨"readfile", .exactly 1, .host .readFile⟩,
    ⟨"eval", .exactly 1, .control .eval⟩,
    ⟨"parse", .exactly 1, .inspection .parse⟩,
    ⟨"type-of", .exactly 1, .inspection .typeOf⟩,
    ⟨"format", .exactly 1, .control .format⟩,
    ⟨"expand", .exactly 1, .control .expand⟩,
    ⟨"repeat", .exactly 2, .control .repeat⟩,
    ⟨"env-var", .exactly 1, .host .environment⟩,
    ⟨"current-time", .exactly 0, .host .currentTime⟩,
    ⟨"exit", ⟨0, some 1⟩, .control .exit⟩,
    ⟨"make-error", ⟨2, some 3⟩, .errors .make⟩,
    ⟨"raise", .exactly 1, .errors .raise⟩,
    ⟨"print-error", .exactly 1, .host .printError⟩,
    ⟨"is-error?", .exactly 1, .errors .test⟩,
    ⟨"error-code", .exactly 1, .errors .code⟩,
    ⟨"error-description", .exactly 1, .errors .description⟩,
    ⟨"error-payload", .exactly 1, .errors .payload⟩,
    ⟨"catalog-description", .exactly 1, .errors .catalogue⟩,
    ⟨"expect-type", .exactly 2, .control .expectType⟩,
    ⟨"struct-get", .exactly 2, .structs .get⟩,
    ⟨"struct-type-of", .exactly 1, .structs .typeOf⟩,
    ⟨"struct-fields", .exactly 1, .structs .fields⟩ ]

/-- The accessor of a field. -/
def accessor (type : StructType) (index : Nat) (field : String) : Builtin :=
  ⟨type.name ++ "-" ++ field, .exactly 1, .structs (.access type index field)⟩

/-- The procedures a struct type brings with it: constructor, test and one accessor a field. -/
def ofStructType (type : StructType) : List Builtin :=
  ⟨"make-" ++ type.name, .exactly type.fields.length, .structs (.construct type)⟩ ::
  ⟨"is-" ++ type.name ++ "?", .exactly 1, .structs (.test type)⟩ ::
  type.fields.zipIdx.map fun (field, index) => accessor type index field

end Builtin

end Lisplet
