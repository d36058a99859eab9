/-
  Statechart.Tree.Parser — reading a tree from tokens, and repairing the text on the way.

  The parser is a machine: the rule being read, with the items left of it, and the
  rules that called it. One `step` takes the first item left. One token of look-ahead
  decides every option, repetition and choice.

  Repair. A token that does not fit is passed over when the one behind it fits
  (`skipOne`); a missing token is put in when the one in view may follow it; otherwise
  the rule is given up (`giveUp`): the parser complains, passes over tokens until one
  that some calling rule can go on with, and leaves the rule. From a complaint until
  the next token read as expected no further complaint is made (`recovering`). Giving
  up twice at one token and one place passes over a token, so that giving up comes to
  an end.
-/

import Statechart.Tree
import Statechart.Token.Lexer

namespace Statechart

/-- A rule being read: what was read of it and the items left. -/
structure Frame where
  rule : Rule
  start : Token
  target : Option Token
  trigger : Option Token
  children : List Tree
  todo : List Item
  deriving Repr

structure Parser where
  frame : Frame
  /-- The rules that wait for this one, the nearest first. -/
  callers : List Frame
  ahead : List Token
  /-- The end of the text, in view once nothing is ahead. -/
  ending : Token
  behind : Option Token
  /-- How many tokens were passed. -/
  index : Nat
  recovering : Bool
  /-- Where a rule was last given up since a token was read as expected: how many tokens had been passed, and at
      which places. -/
  lastError : Option (Nat × List Nat)
  complaints : List Complaint
  deriving Repr

/-- The kinds that may come next, when these items are left of a rule and these rules called it. -/
def expectedKinds (todo : List Item) : List Frame → List Kind
  | [] => if (lookAll todo).through then (lookAll todo).kinds ++ [.endOfText] else (lookAll todo).kinds
  | c :: cs =>
    if (lookAll todo).through then (lookAll todo).kinds ++ expectedKinds c.todo cs else (lookAll todo).kinds

/-- Kinds in the order in which complaints list them. -/
def Kind.sorted (ks : List Kind) : List Kind := Kind.all.filter ks.contains

def Kind.displayAll (ks : List Kind) : String :=
  match Kind.sorted ks with
  | [k] => k.display
  | l => r"{" ++ ", ".intercalate (l.map Kind.display) ++ r"}"

namespace Parser

/-- The token in view. -/
def view (p : Parser) : Token := p.ahead.headD p.ending

/-- The token behind the one in view. -/
def beyond (p : Parser) : Token := p.ahead.tail.headD p.ending

def expected (p : Parser) : List Kind := expectedKinds p.frame.todo p.callers

/-- The kinds some calling rule can go on with. -/
def recoverySet (p : Parser) : List Kind := p.callers.flatMap fun c => (lookAll c.todo).kinds

def sees (p : Parser) (ks : List Kind) : Bool := ks.contains p.view.kind

def goOn (p : Parser) (items : List Item) : Parser := { p with frame := { p.frame with todo := items } }

def add (p : Parser) (t : Tree) : Parser :=
  { p with frame := { p.frame with children := p.frame.children ++ [t] } }

/-- Pass the token in view; the end of the text stays in view. -/
def advance (p : Parser) : Parser :=
  match p.ahead with
  | [] => p
  | t :: ts => { p with ahead := ts, behind := some t, index := p.index + 1 }

/-- Take the token in view into the tree. -/
def consume (p : Parser) : Parser :=
  (p.add (if p.recovering then .fault p.view else .leaf p.view)).advance

/-- A token was read as expected. -/
def settle (p : Parser) : Parser := { p with recovering := false, lastError := none }

/-- Complain at the token in view, unless a complaint is still being recovered from. -/
def complain (p : Parser) (message : String) : Parser :=
  if p.recovering then p
  else { p with recovering := true, complaints := p.complaints ++ [⟨p.view.line, p.view.column, message⟩] }

def viewText (p : Parser) : String := Kind.quoted p.view.text

def complainUnwanted (p : Parser) : Parser :=
  p.complain ("extraneous input " ++ p.viewText ++ " expecting " ++ Kind.displayAll p.expected)

/-- Pass over the token in view if the one behind it fits. -/
def skipOne (p : Parser) : Option Parser :=
  if p.expected.contains p.beyond.kind then some p.complainUnwanted.consume.settle else none

/-- Pass over tokens up to one of these kinds. -/
def skipTo (ks : List Kind) : Nat → Parser → Parser
  | 0, p => p
  | n + 1, p => if p.view.kind = .endOfText ∨ p.sees ks then p else skipTo ks n p.consume

def skipUntil (p : Parser) (ks : List Kind) : Parser := skipTo ks p.ahead.length p

/-- Give the rule up at a place. -/
def giveUp (p : Parser) (place : Nat) : Parser :=
  let p := p.complain ("mismatched input " ++ p.viewText ++ " expecting " ++ Kind.displayAll p.expected)
  let places := (p.lastError.map (·.2)).getD []
  let p := if p.lastError.any fun e => e.1 = p.index ∧ place ∈ e.2 then p.consume else p
  let p := { p with lastError := some (p.index, places ++ [place]) }
  (p.skipUntil p.recoverySet).goOn []

/-- Make sure that the token in view can be dealt with: after a round of a repetition by passing over all that
    cannot, elsewhere by passing over one token at most. -/
def sync (p : Parser) (afterRound : Bool) : Option Parser :=
  let l := lookAll p.frame.todo
  if p.recovering || l.through || l.kinds.contains p.view.kind then some p
  else if afterRound then some (p.complainUnwanted.skipUntil (p.expected ++ p.recoverySet))
  else p.skipOne

def remember (p : Parser) (slot : Slot) (t : Token) : Parser :=
  match slot with
  | .none => p
  | .target => { p with frame := { p.frame with target := some t } }
  | .trigger => { p with frame := { p.frame with trigger := some t } }

/-- The token put in for a missing one. It stands where the token in view does, or the last token passed if
    nothing is left. -/
def missing (p : Parser) (ks : List Kind) : Token :=
  let k := (Kind.sorted ks).headD .endOfText
  let near := if p.view.kind = .endOfText then p.behind.getD p.view else p.view
  ⟨k, k.missingText, near.line, near.column, -1, -1⟩

/-- Read the token in view as expected. -/
def take (p : Parser) (slot : Slot) (rest : List Item) : Parser :=
  (p.settle.consume.remember slot p.view).goOn rest

/-- Put a token in. It shows in the tree only where one kind alone could stand. -/
def putIn (p : Parser) (ks : List Kind) (slot : Slot) (rest : List Item) : Parser :=
  let t := p.missing ks
  let p := p.complain ("missing " ++ Kind.displayAll p.expected ++ " at " ++ p.viewText)
  let p := if ks.length = 1 then p.add (.fault t) else p
  (p.remember slot t).goOn rest

/-- Read one token of one of these kinds. Where there are several, the rule remembers the token in view even if
    it does not fit. -/
def read (p : Parser) (place : Nat) (ks : List Kind) (slot : Slot) (rest : List Item) : Parser :=
  if p.sees ks then p.take slot rest
  else
    match p.skipOne with
    | some q => q.take slot rest
    | none =>
      if (expectedKinds rest p.callers).contains p.view.kind then p.putIn ks slot rest
      else (if ks.length = 1 then p else p.remember slot p.view).giveUp place

/-- Start a rule; its caller goes on with `rest`. -/
def enter (p : Parser) (r : Rule) (body rest : List Item) : Parser :=
  { p with
    frame := ⟨r, p.view, none, none, [], body⟩
    callers := (p.goOn rest).frame :: p.callers }

/-- The node of the rule being read, as if it ended here. -/
def close (p : Parser) : Tree :=
  .node ⟨p.frame.rule, p.frame.start, p.behind, p.frame.target, p.frame.trigger⟩ p.frame.children

/-- Make what was read of the rule the first child of a node of the same rule. -/
def wrap (p : Parser) (items : List Item) : Parser :=
  { p with frame := ⟨p.frame.rule, p.frame.start, none, none, [p.close], items⟩ }

/-- A repetition: one more round if its first token is in view. -/
def round (p : Parser) (again : Nat) (body rest : List Item) : Parser :=
  if p.sees (lookAll body).kinds then p.goOn (body ++ .again again body :: rest) else p.goOn rest

/-- Take the first item left; a rule of which none is left goes to its caller. -/
def step (p : Parser) : Parser :=
  match p.frame.todo with
  | [] =>
    match p.callers with
    | [] => p
    | c :: cs => { p with frame := c, callers := cs }.add p.close
  | .token place ks slot :: rest => p.read place ks slot rest
  | .call r :: rest => p.enter r r.body rest
  | .expression level :: rest => p.enter .expression (expressionBody level) rest
  | .option place body :: rest =>
    match p.sync false with
    | none => p.giveUp place
    | some q => if q.sees (lookAll body).kinds then q.goOn (body ++ rest) else q.goOn rest
  | .many place again body :: rest =>
    match p.sync false with
    | none => p.giveUp place
    | some q => q.round again body rest
  | .some place again body :: rest =>
    match p.sync false with
    | none => p.giveUp place
    | some q => q.goOn (body ++ .again again body :: rest)
  | .again place body :: rest =>
    match p.sync true with
    | none => p.giveUp place
    | some q => q.round place body rest
  | .choice place left right :: rest =>
    match p.sync false with
    | none => p.giveUp place
    | some q =>
      if q.sees (lookAll left).kinds then q.goOn (left ++ rest)
      else if q.sees (lookAll right).kinds then q.goOn (right ++ rest)
      else q.giveUp place
  | .operators level :: rest =>
    match p.view.kind.level? with
    | none => p.goOn rest
    | some bound => if level ≤ bound then p.wrap (operatorBody level bound ++ rest) else p.goOn rest

/-- Nothing is left to read of the first rule. -/
def finished (p : Parser) : Bool := p.callers.isEmpty && p.frame.todo.isEmpty

/-- Steps until the first rule is read, at most so many. -/
def run : Nat → Parser → Parser
  | 0, p => p
  | n + 1, p => if p.finished then p else run n p.step

def start (r : Rule) (l : Lexed) : Parser :=
  { frame := ⟨r, l.tokens.headD l.ending, none, none, [], r.body⟩
    callers := []
    ahead := l.tokens
    ending := l.ending
    behind := none
    index := 0
    recovering := false
    lastError := none
    complaints := [] }

/-- More steps than reading so many tokens takes. -/
def bound (tokens : Nat) : Nat := 64 * (tokens + 2)

end Parser

/-- What the parser makes of a text: the tree, and all complaints, the lexer's first. -/
structure Parsed where
  tree : Tree
  complaints : List Complaint
  deriving Repr

/-- Read a text by a rule, from its start and not necessarily to its end. -/
def parse (r : Rule) (text : String) : Parsed :=
  let l := lex text
  let p := Parser.run (Parser.bound l.tokens.length) (Parser.start r l)
  ⟨p.close, l.complaints ++ p.complaints⟩

end Statechart
