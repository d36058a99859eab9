/-
  Statechart.Sample — machines of any size, generated as text.

  States are told apart by letters: `a`, …, `z`, `aa`, `ab`, … name the numbers 0, 1, …
  in turn, every word over `a`, …, `z` once (`letters`).
  - `demo n`: a composite state of `n` states in a ring, each with a step round the ring
    and a step to itself, and one state beside it. Guards go through every comparison and
    assignments through every operator. Without a first state to start in there is none.
  - `ring n`: at least two states in a ring, run without guards, each firing setting the
    variables before it reads them; the last one can also end the run.
-/

namespace Statechart.Sample

def letter (i : Nat) : Char := Char.ofNat ('a'.toNat + i % 26)

/-- The letters of `i`, last letter last: after the 26 words of one letter, a word is a word and one more letter. -/
def spell (i : Nat) : List Char :=
  if i < 26 then [letter i] else spell (i / 26 - 1) ++ [letter i]
termination_by i
decreasing_by omega

/-- The `i`-th word over `a`, …, `z`, by length and then by alphabet. Nothing is spelt for a negative number. -/
def letters : Int → String
  | .ofNat i => String.ofList (spell i)
  | .negSucc _ => ""

/-- Why a sample cannot be made. -/
inductive Refusal where
  /-- There is no first state. -/
  | noStates
  deriving DecidableEq, Repr

def Refusal.message : Refusal → String
  | .noStates => "list index out of range"

/-- One of some texts, taken in turn. -/
def inTurn (texts : List String) (i : Nat) : String := (texts[i % texts.length]?).getD ""

def comparisons : List String := ["=", "!=", "<", "<=", ">", ">="]

def operators : List String := ["+", "-", "*", "/", "^"]

/-- The name of the `i`-th state of the demonstration. -/
def demoName (i : Nat) : String := "S" ++ letters i

/-- The `i`-th of `n` states in the demonstration. -/
def demoState (n i : Nat) : String :=
  "    state " ++ demoName i ++ r" {" ++ "\n" ++
  "      -> " ++ demoName ((i + 1) % n) ++ " : 'ev" ++ letters (i % 7 : Nat) ++
  "' [x " ++ inTurn comparisons i ++ " " ++ Nat.repr (i % 5) ++
  r"] / { x = x " ++ inTurn operators i ++ " 1 ; y = ( -z + " ++ Nat.repr (i % 3) ++ r" ) * 2 ; } ;" ++ "\n" ++
  "      -> " ++ demoName i ++ " : 'stay' ;\n" ++
  r"    }" ++ "\n"

/-- The demonstration with `n` states in its composite state. -/
def demo (n : Int) : Except Refusal String :=
  match n.toNat with
  | 0 => .error .noStates
  | n =>
    .ok (r"StateMachine Demo {" ++ "\n" ++
      "  INITIAL -> Wrap;\n" ++
      r"  composite state Wrap {" ++ "\n" ++
      "    -> Tail : 'exit' [x > 0] / { x = x + 1 ; } ;\n" ++
      "    -> FINAL : 'halt' ;\n" ++
      "    INITIAL -> " ++ demoName 0 ++ ";\n" ++
      String.join ((List.range n).map (demoState n)) ++
      r"  }" ++ "\n" ++
      r"  state Tail {" ++ "\n" ++
      "    -> Wrap : 'back' [y <= 9] / { z = +y - ( x / 2 ) ; } ;\n" ++
      "    -> FINAL : 'quit' [y >= 0] ;\n" ++
      r"  }" ++ "\n" ++
      r"}")

/-- The name of the `i`-th state of the ring. -/
def ringName (i : Nat) : String := "R" ++ letters i

/-- The `i`-th of `m` states in the ring. -/
def ringState (m i : Nat) : String :=
  "  state " ++ ringName i ++ r" {" ++ "\n" ++
  "    -> " ++ ringName ((i + 1) % m) ++
  r" : 'hop' / { x = " ++ Nat.repr (i % 9) ++ " ; y = x + " ++ Nat.repr (i % 4) ++ r" ; } ;" ++ "\n" ++
  (if i + 1 = m then "    -> FINAL : 'halt' ;\n" else "") ++
  r"  }" ++ "\n"

/-- How many states the ring of a given size has. -/
def ringSize (n : Int) : Nat := max 2 n.toNat

/-- A ring of `n` states, of two if `n` is less. -/
def ring (n : Int) : String :=
  r"StateMachine Ring {" ++ "\n" ++
  "  INITIAL -> " ++ ringName 0 ++ ";\n" ++
  String.join ((List.range (ringSize n)).map (ringState (ringSize n))) ++
  r"}"

end Statechart.Sample
