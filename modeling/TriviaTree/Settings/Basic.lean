import TriviaTree.Directive.Classify
import TriviaTree.Render.Page

/-!
Settings: which comments are taken for directives, and how trees are written.

Every value may be left open, so settings from several places can be merged: a value that is set
stays, an open one is taken from the other side. What is open in the end has a standard value.
-/

set_option autoImplicit false

namespace TriviaTree

structure ClassifierSettings where
  enabled : Option Bool
  families : Option (List Family)
deriving DecidableEq, Repr

structure PrinterSettings where
  indentSize : Option Nat
  eolPadding : Option Nat
deriving DecidableEq, Repr

structure Settings where
  /-- The schema that a settings file names; nothing depends on it. -/
  schema : Option String
  classifier : Option ClassifierSettings
  printer : Option PrinterSettings
deriving DecidableEq, Repr

namespace ClassifierSettings

/-- What holds when nothing is said about directives. -/
def standard : ClassifierSettings := ⟨some true, none⟩

def toClassifier (s : ClassifierSettings) : Classifier :=
  ⟨s.enabled.getD true, s.families.getD Family.all⟩

/-- Take open values from `other`. -/
def merge (s other : ClassifierSettings) : ClassifierSettings :=
  ⟨s.enabled.or other.enabled, s.families.or other.families⟩

end ClassifierSettings

namespace PrinterSettings

/-- What holds when nothing is said about writing. -/
def standard : PrinterSettings :=
  ⟨some PageOptions.defaultIndentSize, some PageOptions.defaultEolPadding⟩

def toOptions (s : PrinterSettings) : PageOptions :=
  ⟨s.indentSize.getD PageOptions.defaultIndentSize,
   s.eolPadding.getD PageOptions.defaultEolPadding⟩

/-- Take open values from `other`. -/
def merge (s other : PrinterSettings) : PrinterSettings :=
  ⟨s.indentSize.or other.indentSize, s.eolPadding.or other.eolPadding⟩

end PrinterSettings

namespace Settings

/-- Nothing is set. -/
def empty : Settings := ⟨none, none, none⟩

def classifierSettings (s : Settings) : ClassifierSettings :=
  s.classifier.getD .standard

def printerSettings (s : Settings) : PrinterSettings :=
  s.printer.getD .standard

def toClassifier (s : Settings) : Classifier :=
  s.classifierSettings.toClassifier

def toOptions (s : Settings) : PageOptions :=
  s.printerSettings.toOptions

/-- One section, with its open values taken from the other side. -/
def mergeSection {α : Type} (merge : α → α → α) : Option α → Option α → Option α
  | some a, some b => some (merge a b)
  | some a, none => some a
  | none, b => b

/-- Take open values from `other`. The schema is that of `s` alone. -/
def merge (s other : Settings) : Settings :=
  { schema := s.schema
    classifier := mergeSection .merge s.classifier other.classifier
    printer := mergeSection .merge s.printer other.printer }

end Settings

end TriviaTree
