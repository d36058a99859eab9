/-
  Statechart.Token.Lexer — cutting a text into pieces, each the longest that one kind of
  token can take.

  All patterns read on side by side (`reach`); when none can go on, the piece is the
  longest that some pattern had matched, and among patterns that matched there the
  first of `Kind.all` names it. If none had matched, the piece is unreadable: it
  reaches through the character at which the last pattern gave up. So every piece has
  a character, and the pieces one after the other are the text (`pieces_text`).
  Blank pieces are no tokens; an unreadable one is a complaint.
-/

import Statechart.Token

namespace Statechart

open Text (Pattern)

namespace Lexer

/-- The patterns still in the race, in the order of `Kind.all`. -/
abbrev Race := List (Kind × Pattern)

def race : Race := (Kind.all.map fun k => (k, k.pattern)).filter fun r => !r.2.dead

/-- The race once `c` was read. -/
def Race.after (c : Char) (r : Race) : Race :=
  (r.map fun (k, p) => (k, p.after c)).filter fun x => !x.2.dead

/-- The first kind whose pattern the text read so far matches. -/
def Race.winner (r : Race) : Option Kind := (r.find? fun x => x.2.nullable).map (·.1)

/-- What reading came to: the longest match, and how many characters were read before no pattern could go on. -/
structure Reach where
  best : Option (Kind × Nat)
  read : Nat
  deriving DecidableEq, Repr

def reachFrom (r : Race) (best : Option (Kind × Nat)) (n : Nat) : List Char → Reach
  | [] => ⟨best, n⟩
  | c :: cs =>
    let r' := r.after c
    if r'.isEmpty then ⟨best, n⟩
    else reachFrom r' ((r'.winner.map fun k => (k, n + 1)).or best) (n + 1) cs

def reach (cs : List Char) : Reach := reachFrom race none 0 cs

/-- The kind of the first piece of a text, if it is readable, and how many characters follow its first. -/
def cut (cs : List Char) : Option Kind × Nat :=
  match reach cs with
  | ⟨some (k, n), _⟩ => (some k, n - 1)
  | ⟨none, n⟩ => (none, n)

/-- A piece of the text; without a kind it is unreadable. -/
structure Piece where
  kind : Option Kind
  text : List Char
  start : Position
  deriving DecidableEq, Repr

/-- The pieces of a text from a place on, once `skip` characters that belong to the piece before were passed. -/
def piecesFrom (skip : Nat) (p : Position) : List Char → List Piece
  | [] => []
  | c :: cs =>
    match skip with
    | k + 1 => piecesFrom k (p.next c) cs
    | 0 =>
      let x := cut (c :: cs)
      ⟨x.1, c :: cs.take x.2, p⟩ :: piecesFrom x.2 (p.next c) cs

def pieces (cs : List Char) : List Piece := piecesFrom 0 .start cs

theorem piecesFrom_text (cs : List Char) (skip : Nat) (p : Position) :
    (piecesFrom skip p cs).flatMap (·.text) = cs.drop skip := by
  induction cs generalizing skip p with
  | nil => simp [piecesFrom]
  | cons c cs ih =>
    cases skip with
    | zero => simp [piecesFrom, ih]
    | succ k => simp [piecesFrom, ih]

/-- The pieces one after the other are the text. -/
theorem pieces_text (cs : List Char) : (pieces cs).flatMap (·.text) = cs := by
  simp [pieces, piecesFrom_text]

/-- Line ends and tabs are shown by their escapes. -/
def show1 (c : Char) : List Char :=
  if c = '\n' then ['\\', 'n'] else if c = '\t' then ['\\', 't'] else if c = '\r' then ['\\', 'r'] else [c]

def Piece.token? (x : Piece) : Option Token :=
  match x.kind with
  | none | some .blank => none
  | some k => some ⟨k, .ofList x.text, x.start.line, x.start.column, x.start.offset,
      x.start.offset + x.text.length - 1⟩

def Piece.complaint? (x : Piece) : Option Complaint :=
  match x.kind with
  | some _ => none
  | none => some ⟨x.start.line, x.start.column,
      "token recognition error at: '" ++ .ofList (x.text.flatMap show1) ++ "'"⟩

end Lexer

/-- What the lexer makes of a text: its tokens, the end of the text as a token, and the complaints. -/
structure Lexed where
  tokens : List Token
  ending : Token
  complaints : List Complaint
  deriving DecidableEq, Repr

def lex (text : String) : Lexed :=
  let cs := text.toList
  let ps := Lexer.pieces cs
  let e := Position.start.skip cs
  { tokens := ps.filterMap Lexer.Piece.token?
    ending := ⟨.endOfText, "<EOF>", e.line, e.column, cs.length, cs.length - 1⟩
    complaints := ps.filterMap Lexer.Piece.complaint? }

end Statechart
