/-
  Statechart.Session — a debugging session: the files, the machine last read from each, and
  the execution of each.

  `handle` answers a request. A request that is refused may have changed the session all
  the same: reading a file registers its machine and forgets its execution before the
  machine is shown, and executing a step may fail after the step was performed.
-/

import Statechart.Answer
import Statechart.Machine.Element
import Statechart.Machine.OfTree
import Statechart.Request
import Statechart.Tree.Parser

namespace Statechart

/-- Things kept under a name, at most one under each. -/
abbrev Table (α : Type) := List (String × α)

namespace Table

variable {α : Type}

def get? (t : Table α) (key : String) : Option α := (t.find? fun e => e.1 == key).map (·.2)

def erase (t : Table α) (key : String) : Table α := t.filter fun e => e.1 != key

def put (t : Table α) (key : String) (a : α) : Table α := (key, a) :: erase t key

/-- What is kept under a key that a client names. -/
def read (t : Table α) (key : Value) : Except Fault (String × α) :=
  match key with
  | .str s =>
    match get? t s with
    | some a => .ok (s, a)
    | none => .error (.unknownKey key)
  | .list _ | .record _ => .error (.badKey key)
  | _ => .error (.unknownKey key)

end Table

structure Session where
  files : Table (List UInt8)
  machines : Table Machine
  executions : Table Execution
  /-- How many machines and executions were numbered. -/
  count : Nat

/-- What a request comes to: the complaints about a text, if one was read, and the answer. -/
structure Reply where
  complaints : List Complaint
  result : Except Fault Answer

def Reply.refuse (f : Fault) : Reply := ⟨[], .error f⟩

/-- The text of bytes that are all ASCII characters. -/
def asciiText (bytes : List UInt8) : Except Fault String :=
  match bytes.zipIdx.find? fun b => 128 ≤ b.1.toNat with
  | some (b, n) => .error (.notAscii b n)
  | none => .ok (.ofList (bytes.map fun b => Char.ofNat b.toNat))

namespace Execution

/-- The execution as an element, with the variables as a child. In a final pseudo-state there is no state to
    refer to. An event without a name is not shown. -/
def snapshot (x : Execution) : Element :=
  let attributes := [("transitionsFired", Value.int x.fired)]
    ++ (if x.current.isFinal then [("currentState", .str "FINAL")] else [])
    ++ Value.field? "currentEvent" ((x.event.filter (· != "")).map .str)
  let registry := Element.leaf (.registry x.run x.count) ["VariablesRegistry"]
    (x.env.entries.map fun e => (e.1, .float e.2))
  let refs := (match x.transition with
      | some t => [("currentTransition", Ref.one (.minted t.id))]
      | none => [])
    ++ (if x.current.isFinal then [] else [("currentState", Ref.one (.minted (x.current.id x.machine.load)))])
  .mk ⟨.minted (.snapshot x.run x.count), ["RuntimeState"], attributes, refs, none, none⟩ [("variables", .one registry)]

def inspect (x : Execution) (s : Step) : Inspection :=
  { completed := x.isCompleted s
    ongoing := x.ongoingFrom? s
    completedSteps := x.completedWith s
    parent := s.parent?.map (·.id)
    contained := match s with
      | .atomic _ => .error .stepNotComposite
      | .firing f => .ok [(x.next f).name] }

end Execution

namespace Session

def empty : Session := ⟨[], [], [], 0⟩

def write (s : Session) (name : String) (bytes : List UInt8) : Session := { s with files := s.files.put name bytes }

/-- The bytes of the file a client names. -/
def openFile (s : Session) (file : Value) : Except Fault (String × List UInt8) :=
  match file with
  | .str name =>
    match s.files.get? name with
    | some bytes => .ok (name, bytes)
    | none => .error (if name = "." then .isDirectory file else .fileNotFound file)
  | .ident _ => .error (.fileNotFound file)
  | _ => .error (.notFileName file)

/-- Register a machine for a file; the execution of the machine before it is forgotten. -/
def register (s : Session) (name : String) (m : Machine) : Session :=
  { s with machines := s.machines.put name m, executions := s.executions.erase name, count := s.count + 1 }

def parse (s : Session) (file : Value) : Session × Reply :=
  match s.openFile file with
  | .error f => (s, .refuse f)
  | .ok (name, bytes) =>
    match asciiText bytes with
    | .error f => (s, .refuse f)
    | .ok text =>
      let p := Statechart.parse .machine text
      match Machine.ofTree s.count p.tree with
      | .error d => (s, ⟨p.complaints, .error (.defect d)⟩)
      | .ok m =>
        (s.register name m, ⟨p.complaints,
          match m.toElement with
          | .ok e => .ok (.root e)
          | .error d => .error (.defect d)⟩)

def start (s : Session) (file : Value) : Session × Reply :=
  match s.machines.read file with
  | .error f => (s, .refuse f)
  | .ok (name, m) =>
    match Execution.start s.count m with
    | .error f => (s, .refuse f)
    | .ok x => ({ s with executions := s.executions.put name x, count := s.count + 1 }, ⟨[], .ok .done⟩)

/-- Answer from the execution of a file and leave all as it is. -/
def look (s : Session) (file : Value) (f : Execution → Except Fault Answer) : Session × Reply :=
  match s.executions.read file with
  | .error e => (s, .refuse e)
  | .ok (_, x) => (s, ⟨[], f x⟩)

/-- Answer from the execution of a file and keep what becomes of it. -/
def change (s : Session) (file : Value) (f : Execution → Execution × Except Fault Answer) : Session × Reply :=
  match s.executions.read file with
  | .error e => (s, .refuse e)
  | .ok (name, x) =>
    let (y, r) := f x
    ({ s with executions := s.executions.put name y }, ⟨[], r⟩)

def handle (s : Session) : Request → Session × Reply
  | .parse file => s.parse file
  | .start file _ => s.start file
  | .state file => s.change file fun x => ({ x with count := x.count + 1 }, .ok (.snapshot x.snapshot))
  | .breakpointTypes => (s, ⟨[], .ok (.breakpointTypes (BreakpointType.all.map (·.view)))⟩)
  | .check file type step entries => s.look file fun x => do
    let message ← x.check type step entries
    return .check message.isSome message
  | .steps file => s.look file fun x => .ok (.steps (x.available.map (·.view)))
  | .enter file step => s.change file fun x =>
    let (y, r) := x.enter step
    (y, r.map fun _ => .done)
  | .execute file step => s.change file fun x =>
    let (y, r) := x.execute step
    (y, r.map fun ids => .completed (ids.map .minted))
  | .location file step => s.look file fun x => do return .location (← x.get step).location?
  | .inspect file step => s.look file fun x => do
    match ← x.find step with
    | some st => return .inspection (x.inspect st)
    | none => throw (.unknownKey step)

/-- Answer a call, if there is a request of its name. -/
def dispatch (s : Session) (name : String) (args : Value) : Session × Option Reply :=
  match Request.ofCall? name args with
  | none => (s, none)
  | some (.error f) => (s, some (.refuse f))
  | some (.ok r) => ((s.handle r).1, some (s.handle r).2)

end Session

/-- A session with a client: identifiers go by the names they were given out under. -/
structure Conversation where
  session : Session
  names : Names

namespace Conversation

def empty : Conversation := ⟨.empty, .empty⟩

/-- Answer a call. The names in the arguments stand for the identifiers given out, and those of the answer are
    given out. -/
def call (c : Conversation) (name : String) (args : Value) : Conversation × Option Reply :=
  let (s, reply) := c.session.dispatch name (args.resolve c.names.idOf?)
  let ids := match reply with
    | some ⟨_, .ok a⟩ => a.toValue.ids
    | _ => []
  (⟨s, c.names.giveAll ids⟩, reply)

end Conversation

end Statechart
