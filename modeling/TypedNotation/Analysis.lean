import TypedNotation.Completion
import TypedNotation.Edits
import TypedNotation.Hover
import TypedNotation.Layout
import TypedNotation.TypeIndex

/-!
# Analysis of a document

All that is found in a document: by reading it, in its layout, and by checking it against its type.
Layout and type need data, so a document in which something fatal was found has neither looked at.
The findings stand in that order, and no more of them are kept than the settings allow.

An analysis breaks off at a layout that asks for an indent that is too wide, and what it belongs to
ends with it.
-/

namespace TypedNotation

/-- A document, its type, and what was found. -/
structure Analysis where
  fileName : String
  role : DocumentRole
  document : Document
  /-- The type that the document is checked against; absent if it has no type to have. -/
  spec : Option (Except ResolutionIssue TypeSpec)
  diagnostics : List Diagnostic
  /-- Whether the layout asked for an indent that is too wide. -/
  brokeOff : Bool

namespace Analysis

/-- The lookup of names for documents of a role. -/
def resolverFor (role : DocumentRole) (index : TypeIndex) : Resolver :=
  match role with
  | .declaration => index.declarationResolver
  | .data | .other => index.resolver

/-- The type of a document by its role and name. -/
def specOf (role : DocumentRole) (fileName : String) (index : TypeIndex) :
    Option (Except ResolutionIssue TypeSpec) :=
  match role with
  | .data => some (index.typeOfFile fileName)
  | .declaration => some (.ok Declaration.root)
  | .other => none

/-- Whether the layout of a document asks for an indent that is too wide. -/
def isTooWide (document : Document) (settings : LayoutSettings) : Bool :=
  match document.data with
  | some data =>
    settings.enabled && !Layout.indentsFit settings document.lines document.tokens data
  | none => false

/-- What is found in the layout of a document. -/
def layoutFindings (document : Document) (settings : LayoutSettings) : List Diagnostic :=
  match document.data with
  | some data =>
    if settings.enabled then
      (Layout.lint? settings document.lines document.tokens data).getD []
    else []
  | none => []

/-- What is found by checking a document against its type. -/
def typeFindings (document : Document) (r : Resolver)
    (spec : Option (Except ResolutionIssue TypeSpec)) : List Diagnostic :=
  match spec, document.data with
  | some (.ok spec), some data => (data.check r spec).diagnostics
  | some (.error issue), _ =>
    [.error .typeResolution (.point .origin) s!"Type resolution failed: {issue.message}."]
  | _, _ => []

/-- All findings, none left out. -/
def findings (document : Document) (r : Resolver) (spec : Option (Except ResolutionIssue TypeSpec))
    (settings : Settings) : List Diagnostic :=
  document.report.diagnostics ++ layoutFindings document settings.layout
    ++ typeFindings document r spec

/-- Analyses a text under a name. -/
def run (name text : String) (index : TypeIndex) (settings : Settings) : Analysis :=
  let fileName := DocumentName.base name
  let role := DocumentRole.ofPath ⟨fileName⟩
  let document := Document.parse text
  let spec := specOf role fileName index
  ⟨fileName, role, document, spec,
    (findings document (resolverFor role index) spec settings).take settings.maxProblems,
    isTooWide document settings.layout⟩

/-- The edits that mend the findings and can be made together. -/
def fixAll (a : Analysis) : List Edit :=
  Report.fixAll ⟨a.diagnostics⟩

/-- What may be written at a position. -/
def completionsAt (a : Analysis) (index : TypeIndex) (p : Position) : List Candidate :=
  match a.spec with
  | some (.ok spec) => Candidate.complete (resolverFor a.role index) a.document.data spec p
  | _ => []

/-- The type wanted at a position. Blanks, comments and newlines have none. -/
def hoverAt (a : Analysis) (index : TypeIndex) (p : Position) : Option Hover :=
  match a.document.tokenAt? p, a.spec, a.document.data with
  | some t, some (.ok spec), some data =>
    if t.isIgnored || t.kind == .newline then none
    else Hover.at? (resolverFor a.role index) data spec p
  | _, _, _ => none

end Analysis

end TypedNotation
