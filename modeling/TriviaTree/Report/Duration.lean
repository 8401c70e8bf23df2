/-!
Times in words.

Below a second a time is given in milliseconds, below a minute in seconds, and else in minutes and
seconds. Seconds have one place. They are held as numbers of fifty-three binary digits, so it is
the nearest such number that is rounded.
-/

set_option autoImplicit false

namespace TriviaTree

/-- The nearest whole number to a quotient; of two, the even one. -/
def roundDiv (a b : Nat) : Nat :=
  let down := a / b
  let rest := 2 * (a % b)
  if rest < b then down
  else if b < rest then down + 1
  else down + down % 2

namespace Duration

/-- Binary places of a number of milliseconds, as seconds, when it has fifty-three digits. -/
def binaryPlaces (ms : Nat) : Nat :=
  62 - Nat.log2 (ms * 1024 / 1000)

/-- Tenths of a second in `ms` milliseconds. -/
def tenths (ms : Nat) : Nat :=
  let scale := 1 <<< binaryPlaces ms
  roundDiv (roundDiv (ms * scale) 1000 * 10) scale

/-- Seconds with one place. -/
def seconds (ms : Nat) : String :=
  let n := tenths ms
  toString (n / 10) ++ "." ++ toString (n % 10) ++ "s"

/-- A time of `ms` milliseconds. -/
def text (ms : Nat) : String :=
  if ms < 1000 then toString ms ++ "ms"
  else if ms < 60000 then seconds ms
  else toString (ms / 60000) ++ "m " ++ seconds (ms % 60000)

end Duration

end TriviaTree
