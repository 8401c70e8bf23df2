import TriviaTree.Json.Value
import TriviaTree.Tree.Trivia

/-!
The schema of settings files.
-/

set_option autoImplicit false

namespace TriviaTree.Schema

def described (description : String) (rest : List (String × Json)) : Json :=
  .obj (("description", .str description) :: rest)

/-- A value of a simple type that may be left open. -/
def openType (type : String) : String × Json :=
  ("type", .arr [.str type, .str "null"])

def reference (name : String) : String × Json :=
  ("$ref", .str ("#/$defs/" ++ name))

/-- A section that may be left open. -/
def openSection (description name : String) : Json :=
  described description
    [("anyOf", .arr [.obj [reference name], .obj [("type", .str "null")]])]

/-- A size that may be left open. -/
def openSize (description : String) : Json :=
  described description [openType "integer", ("format", .str "uint"), ("minimum", .nat 0)]

def record (properties : List (String × Json)) : List (String × Json) :=
  [("type", .str "object"), ("properties", .obj properties)]

def classifier : Json :=
  .obj (record
    [("enabled",
        described "Recognise directives; when false every comment stays a comment"
          [openType "boolean"]),
     ("families",
        described "Directive families to recognise (all when absent)"
          [openType "array", ("items", .obj [reference "DirectiveFamily"])])])

def family : Json :=
  described "Directive families recognised in comment text."
    [("type", .str "string"), ("enum", .arr (Family.all.map fun f => .str f.shortName))]

def printer : Json :=
  .obj (record
    [("indentSize", openSize "Spaces per indentation level"),
     ("eolPadding", openSize "Spaces between code and an end-of-line comment")])

/-- The schema of a settings file. -/
def settings : Json :=
  .obj (
    [("$schema", .str "https://json-schema.org/draft/2020-12/schema"),
     ("title", .str "MarginaliaConfig"),
     ("description", .str "Root configuration object")] ++
    record
      [("$schema", described "JSON schema reference" [openType "string"]),
       ("classifier", openSection "Directive classification settings" "ClassifierConfiguration"),
       ("printer", openSection "Rendering settings" "PrinterConfiguration")] ++
    [("$defs", .obj
      [("ClassifierConfiguration", classifier),
       ("DirectiveFamily", family),
       ("PrinterConfiguration", printer)])])

end TriviaTree.Schema
