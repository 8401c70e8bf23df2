/-!
Coloured text for terminals.
-/

set_option autoImplicit false

namespace TriviaTree

inductive Colour where
  | red
  | green
  | yellow
  /-- Bold and underlined. -/
  | heading
deriving DecidableEq, Repr

/-- Whether output is coloured. -/
structure Paint where
  enabled : Bool
deriving DecidableEq, Repr

namespace Colour

/-- The sequence that turns a colour on. -/
def start : Colour → String
  | .red => "\x1b[31m"
  | .green => "\x1b[32m"
  | .yellow => "\x1b[33m"
  | .heading => "\x1b[1;4m"

/-- The sequence that turns every colour off. -/
def stop : String := "\x1b[0m"

end Colour

/-- Text in a colour, if colours are wanted. The colour is turned on again wherever the text
itself turns it off. -/
def Paint.apply (paint : Paint) (colour : Colour) (text : String) : String :=
  if paint.enabled then
    colour.start ++ text.replace Colour.stop (Colour.stop ++ colour.start) ++ Colour.stop
  else text

end TriviaTree
