/-
  Statechart.Token — the kinds of token of the statechart language, the pattern and the
  spelling of each, and the token itself.

  `Kind.all` lists the kinds in the order in which a tie between two of them is decided
  and in which a complaint lists them, the end of the text first.
-/

import Statechart.Text.Pattern

namespace Statechart

open Text (Pattern)

inductive Kind where
  | endOfText
  | openBrace
  | closeBrace
  | semicolon
  | colon
  | openBracket
  | closeBracket
  | machine
  | state
  | composite
  | arrow
  | initial
  | final
  | text
  | name
  | notEqual
  | less
  | lessEqual
  | greater
  | greaterEqual
  | blank
  | variable
  | number
  | openParen
  | closeParen
  | plus
  | minus
  | times
  | divide
  | equal
  | point
  | power
  deriving DecidableEq, Repr

namespace Kind

def all : List Kind :=
  [.endOfText, .openBrace, .closeBrace, .semicolon, .colon, .openBracket, .closeBracket, .machine, .state, .composite,
   .arrow, .initial, .final, .text, .name, .notEqual, .less, .lessEqual, .greater, .greaterEqual, .blank, .variable,
   .number, .openParen, .closeParen, .plus, .minus, .times, .divide, .equal, .point, .power]

theorem mem_all (k : Kind) : k ∈ all := by cases k <;> decide

/-- The one spelling of a kind that has only one. -/
def literal? : Kind → Option String
  | .openBrace => some r"{"
  | .closeBrace => some r"}"
  | .semicolon => some ";"
  | .colon => some ":"
  | .openBracket => some "["
  | .closeBracket => some "]"
  | .machine => some "StateMachine"
  | .state => some "state"
  | .composite => some "composite state"
  | .arrow => some "->"
  | .initial => some "INITIAL"
  | .final => some "FINAL"
  | .notEqual => some "!="
  | .less => some "<"
  | .lessEqual => some "<="
  | .greater => some ">"
  | .greaterEqual => some ">="
  | .openParen => some "("
  | .closeParen => some ")"
  | .plus => some "+"
  | .minus => some "-"
  | .times => some "*"
  | .divide => some "/"
  | .equal => some "="
  | .point => some "."
  | .power => some "^"
  | .endOfText | .text | .name | .blank | .variable | .number => none

def quoted (s : String) : String := "'" ++ s ++ "'"

/-- The name under which a token of this kind is listed. Braces, brackets, the colon and the
    semicolon have none but their quoted spelling. -/
def symbol : Kind → String
  | .endOfText => "EOF"
  | .openBrace => quoted r"{"
  | .closeBrace => quoted r"}"
  | .semicolon => quoted ";"
  | .colon => quoted ":"
  | .openBracket => quoted "["
  | .closeBracket => quoted "]"
  | .machine => "STATEMACHINE"
  | .state => "STATE"
  | .composite => "COMPOSITE_STATE"
  | .arrow => "TRANSITION_SYMBOL"
  | .initial => "INITIAL"
  | .final => "FINAL"
  | .text => "TEXT"
  | .name => "NAME"
  | .notEqual => "NOT_EQ"
  | .less => "INF"
  | .lessEqual => "INF_EQ"
  | .greater => "SUP"
  | .greaterEqual => "SUP_EQ"
  | .blank => "WS"
  | .variable => "VARIABLE"
  | .number => "NUMBER"
  | .openParen => "LPAREN"
  | .closeParen => "RPAREN"
  | .plus => "PLUS"
  | .minus => "MINUS"
  | .times => "TIMES"
  | .divide => "DIV"
  | .equal => "EQ"
  | .point => "POINT"
  | .power => "POW"

/-- How a complaint speaks of a kind: its spelling if it has one, else its name. -/
def display (k : Kind) : String :=
  match k, k.literal? with
  | .endOfText, _ => "<EOF>"
  | _, some s => quoted s
  | k, none => k.symbol

/-- The text of a token that was put in because it was missing. -/
def missingText (k : Kind) : String :=
  match k, k.literal? with
  | .endOfText, _ => "<missing EOF>"
  | _, some s => "<missing " ++ quoted s ++ ">"
  | _, none => "<missing <INVALID>>"

def lower : Char × Char := ('a', 'z')
def upper : Char × Char := ('A', 'Z')
def digit : Char × Char := ('0', '9')
def underscore : Char × Char := ('_', '_')

/-- The texts of a kind; the end of the text has none. -/
def pattern (k : Kind) : Pattern :=
  match k, k.literal? with
  | _, some s => .literal s.toList
  | .text, _ => .seq (.char '\'') (.seq (.plus (.range [lower, upper])) (.char '\''))
  | .name, _ => .seq (.range [upper]) (.star (.range [lower, upper]))
  | .blank, _ => .range [(' ', ' '), ('\t', '\t'), ('\r', '\r'), ('\n', '\n')]
  | .variable, _ => .seq (.range [lower, upper, underscore]) (.star (.range [lower, upper, underscore, digit]))
  | .number, _ => .seq (.plus (.range [digit])) (.opt (.seq (.char '.') (.plus (.range [digit]))))
  | _, none => .nothing

end Kind

/-- A place in a text: the line counted from 1, the column and the offset from 0. -/
structure Position where
  line : Nat
  column : Nat
  offset : Nat
  deriving DecidableEq, Repr

namespace Position

def start : Position := ⟨1, 0, 0⟩

/-- The place behind one character; only a line feed starts a line. -/
def next (p : Position) (c : Char) : Position :=
  if c = '\n' then ⟨p.line + 1, 0, p.offset + 1⟩ else ⟨p.line, p.column + 1, p.offset + 1⟩

def skip (p : Position) (cs : List Char) : Position := cs.foldl next p

end Position

/-- A token. `start` and `stop` are the offsets of its first and last character; both are -1 for a token
    that was put in because it was missing. -/
structure Token where
  kind : Kind
  text : String
  line : Nat
  column : Nat
  start : Int
  stop : Int
  deriving DecidableEq, Repr

/-- A complaint about a text, at a place in it. -/
structure Complaint where
  line : Nat
  column : Nat
  message : String
  deriving DecidableEq, Repr

/-- The line in which a complaint is reported. -/
def Complaint.report (c : Complaint) : String :=
  "line " ++ toString c.line ++ ":" ++ toString c.column ++ " " ++ c.message

end Statechart
