import Lisplet.Json
import Lisplet.Term
/-!
# Terms as JSON

A term is dumped as an object with its type, its contents and its place, in this order.
-/
namespace Lisplet

/-- A place as JSON. -/
def Position.toJson (p : Position) : Json :=
  .object [("line", .number (Float.ofInt p.line)), ("column", .number (Float.ofInt p.column))]

/-- The type name of a marked form. -/
def Marker.typeName : Marker → String
  | quote => "Quote"
  | quasiquote => "Quasiquote"
  | unquote => "Unquote"

namespace Term

variable {α : Type}

/-- A node with its contents. -/
def node (type : String) (contents : List (String × Json)) (pos : Position) : Json :=
  .object (("type", .string type) :: (contents ++ [("position", pos.toJson)]))

mutual

/-- A term as JSON; an embedded value has no form of its own. -/
def toJson : Term α → Json
  | number pos x => node "Number" [("value", .number x)] pos
  | string pos s => node "String" [("value", .string s)] pos
  | symbol pos name => node "Symbol" [("name", .string name)] pos
  | boolean pos b => node "Boolean" [("value", .boolean b)] pos
  | nil pos => node "Nil" [] pos
  | list pos ts => node "List" [("elements", .array (toJsons ts))] pos
  | marked pos m t => node m.typeName [("term", toJson t)] pos
  | format pos ps => node "Interpolation" [("parts", .array (partJsons ps))] pos
  | embedded pos _ => node "Embedded" [] pos
termination_by structural t => t

/-- A row of terms as JSON. -/
def toJsons : List (Term α) → List Json
  | [] => []
  | t :: ts => toJson t :: toJsons ts
termination_by structural ts => ts

/-- The parts of a format string as JSON. -/
def partJsons : List (Part α) → List Json
  | [] => []
  | .text s :: ps => .string s :: partJsons ps
  | .code t :: ps => toJson t :: partJsons ps
termination_by structural ps => ps

end

end Term

end Lisplet
