import TypedNotation.Completion
import TypedNotation.Diagnostic
import TypedNotation.Hover
import TypedNotation.Json
import TypedNotation.Uri

/-!
# What an editor sees

Findings, edits, proposals and hovers as the JSON objects of the language server protocol. A field
that has no value is left out.
-/

namespace TypedNotation

/-- A position, as the protocol writes it. -/
def Position.view (p : Position) : Json :=
  .obj [("line", p.line), ("character", p.character)]

/-- A range, as the protocol writes it. -/
def Range.view (r : Range) : Json :=
  .obj [("start", r.start.view), ("end", r.stop.view)]

/-- A remark on a related place of the same document. -/
def Related.view (uri : Uri) (r : Related) : Json :=
  .obj
    [("location", .obj [("uri", uri.text), ("range", r.range.view)]),
     ("message", r.message)]

/-- A finding, as the protocol writes it. Whether it is fatal is data of its own. -/
def Diagnostic.view (uri : Uri) (d : Diagnostic) : Json :=
  .present
    [("range", d.range.view),
     ("severity", (d.severity.code : Json)),
     ("code", (d.kind.name : Json)),
     ("source", ("thrd" : Json)),
     ("message", (d.message : Json)),
     ("relatedInformation",
      if d.related.isEmpty then none else some (.arr (d.related.map (·.view uri)))),
     ("data", if d.fatal then some (.obj [("fatal", true)]) else none)]

/-- An edit, as the protocol writes it. -/
def Edit.view (e : Edit) : Json :=
  .obj [("range", e.range.view), ("newText", e.newText)]

/-- The number of a kind of proposal. -/
def CandidateKind.code : CandidateKind → Nat
  | .property => 10
  | .snippet => 15
  | .keyword => 14
  | .enumMember => 20

/-- A proposal, as the protocol writes it. -/
def Candidate.view (c : Candidate) : Json :=
  .present
    [("label", (c.label : Json)),
     ("kind", (c.kind.code : Json)),
     ("insertText", c.insertText.map fun text => (text : Json)),
     ("insertTextFormat", ((if c.snippet then 2 else 1 : Nat) : Json))]

/-- A hover, as the protocol writes it. -/
def Hover.view (h : Hover) : Json :=
  .obj
    [("contents", .obj [("kind", "markdown"), ("value", "```thrd\n" ++ h.text ++ "\n```")]),
     ("range", h.range.view)]

namespace FixAll

/-- The kind of the action that mends a document. -/
def kind : String :=
  "source.fixAll"

/-- The kind of the same action for this notation alone. -/
def ownKind : String :=
  "source.fixAll.thrd"

/-- Whether a choice of kinds admits the action; no choice admits it too. -/
def isWanted (only : Option (List String)) : Bool :=
  only.all fun kinds => kinds.any fun k => k == "source" || k == kind || k == ownKind

/-- The action that mends a document by some edits. -/
def action (uri : Uri) (edits : List Edit) : Json :=
  .obj
    [("title", "Fix all auto-fixable issues"),
     ("kind", kind),
     ("edit", .obj [("changes", .obj [(uri.text, .arr (edits.map (·.view)))])])]

end FixAll

end TypedNotation
