import TypedNotation.Json.Record
import TypedNotation.Json.Writer

/-!
# Messages

An editor and the server exchange requests, answers to them, and notifications. A request carries an
id that its answer repeats. An answer is a result or an error with a code.
-/

namespace TypedNotation

/-- What an answer is matched to its request by. -/
inductive RequestId where
  | number (n : Int)
  | text (s : String)
  deriving DecidableEq, Inhabited

namespace RequestId

/-- The id as JSON. -/
def toJson : RequestId → Json
  | number n => .int n
  | text s => .str s

/-- Reads an id. -/
def read? : Json → Option RequestId :=
  Json.either? (fun j => j.signed32?.map number) (fun j => j.text?.map text)

/-- The id as it is shown in an error. -/
def shown : RequestId → String
  | number n => s!"RequestId(I32({n}))"
  | text s => "RequestId(String(" ++ Text.quoted s ++ "))"

end RequestId

/-- A question that waits for an answer. -/
structure Request where
  id : RequestId
  method : String
  params : Json

/-- A message that waits for nothing. -/
structure Notification where
  method : String
  params : Json

/-- Why a request is refused. -/
inductive RequestError where
  | notInitialized (request : Request)
  | unknownMethod (method : String)
  | invalidParams

/-- A message. -/
inductive Message where
  | request (request : Request)
  | result (id : RequestId) (result : Json)
  | failure (id : RequestId) (error : RequestError)
  | notification (notification : Notification)
  /-- An answer from the other side, of which nothing is needed. -/
  | answered (id : RequestId)

mutual

/-- A value as it is shown in an error. -/
def Json.shown : Json → String
  | .null => "Null"
  | .bool b => if b then "Bool(true)" else "Bool(false)"
  | .int n => s!"Number({n})"
  | .float x => "Number(" ++ x.text .json ++ ")"
  | .str s => "String(" ++ Text.quoted s ++ ")"
  | .arr items => "Array [" ++ Json.shownItems items ++ "]"
  | .obj fields => "Object \x7b" ++ Json.shownFields fields ++ "\x7d"

/-- Items with commas between them. -/
def Json.shownItems : List Json → String
  | [] => ""
  | [x] => x.shown
  | x :: xs => x.shown ++ ", " ++ Json.shownItems xs

/-- Fields with commas between them. -/
def Json.shownFields : List (String × Json) → String
  | [] => ""
  | [(k, x)] => Text.quoted k ++ ": " ++ x.shown
  | (k, x) :: xs => Text.quoted k ++ ": " ++ x.shown ++ ", " ++ Json.shownFields xs

end

namespace Request

/-- The request as it is shown in an error. -/
def shown (r : Request) : String :=
  "Request \x7b id: " ++ r.id.shown ++ ", method: " ++ Text.quoted r.method ++ ", params: "
    ++ r.params.arranged.shown ++ " \x7d"

end Request

namespace RequestError

/-- The number of the reason. -/
def code : RequestError → Int
  | notInitialized _ => -32002
  | unknownMethod _ => -32601
  | invalidParams => -32602

/-- The reason in words. -/
def message : RequestError → String
  | notInitialized request => "expected initialize request, got " ++ request.shown
  | unknownMethod method => s!"method not found: {method}"
  | invalidParams => "invalid params"

end RequestError

namespace Message

/-- The version of the message format. -/
def version : String × Json :=
  ("jsonrpc", "2.0")

/-- The parameters, left out if there are none. -/
def paramsField : Json → List (String × Json)
  | .null => []
  | params => [("params", params)]

/-- The message as JSON. -/
def toJson : Message → Json
  | request r => .obj ([version, ("id", r.id.toJson), ("method", r.method)] ++ paramsField r.params)
  | result id value => .obj [version, ("id", id.toJson), ("result", value)]
  | failure id e =>
    .obj
      [version, ("id", id.toJson),
       ("error", .obj [("code", .int e.code), ("message", e.message)])]
  | notification n => .obj ([version, ("method", n.method)] ++ paramsField n.params)
  | answered id => .obj [version, ("id", id.toJson)]

/-- The parameters of a message; `null` if there are none. -/
def params (j : Json) : Json :=
  (j.field? "params").getD .null

/-- Reads a request. -/
def request? (j : Json) : Option Message := do
  let j ← j.recordFrom? 2 ["id", "method", "params"]
  let id ← j.required? "id" RequestId.read?
  let method ← j.required? "method" Json.text?
  return request ⟨id, method, params j⟩

/-- Reads an answer. -/
def answered? (j : Json) : Option Message := do
  let j ← j.record? ["id", "result", "error"]
  let id ← j.required? "id" RequestId.read?
  let _ ← j.optional? "error" fun e => do
    let e ← e.record? ["code", "message", "data"]
    let _ ← e.required? "code" Json.signed32?
    e.required? "message" Json.text?
  return answered id

/-- Reads a notification. -/
def notification? (j : Json) : Option Message := do
  let j ← j.recordFrom? 1 ["method", "params"]
  let method ← j.required? "method" Json.text?
  return notification ⟨method, params j⟩

/-- The greatest number of arrays and objects that lie inside each other in a message. -/
def maxDepth : Nat :=
  127

/-- Reads a message. What has an id and a method is a request, what has an id alone is an answer,
and what has a method alone is a notification. -/
def ofJson? (j : Json) : Option Message :=
  (request? j).or ((answered? j).or (notification? j))

/-- Whether a message is a notification of a method. -/
def isNotification (method : String) : Message → Bool
  | notification n => n.method == method
  | _ => false

end Message

end TypedNotation
