import Symex.Smt.Response
import Symex.Smt.Script

namespace Symex.Smt

/-- A solver and how it is used. -/
structure Binary where
  name : String
  arguments : List String
  /-- The options that are set at the start. -/
  options : List String
  /-- The option for the time that a question may take. -/
  timeoutOption : Option String

namespace Binary

def z3 : Binary := ⟨"z3", ["-in", "-smt2"], ["produce-models"], some "timeout"⟩

def bitwuzla : Binary := ⟨"bitwuzla", [], ["incremental", "produce-models"], some "time-limit-per"⟩

def yices2 : Binary := ⟨"yices-smt2", ["--incremental"], ["produce-models"], none⟩

def greeting (b : Binary) : List Command := b.options.map (.setOption · "true") ++ [.setLogic]

end Binary

/-- What a process answers to one question. -/
structure Reply where
  text : String
  /-- The process ends in the middle of the line. -/
  ends : Bool := false

/-- A process: what it was told, and what it wrote that was not read yet. -/
structure Process where
  received : List Command := []
  output : List Char := []
  complaint : String := ""
  alive : Bool := true
  /-- The process reported an error and is not used again. -/
  failed : Bool := false

/-- A dialogue with one process after another. The replies of all of them are fixed in advance. -/
structure Session where
  binary : Binary
  /-- The program can be started. -/
  available : Bool := true
  replies : List Reply := []
  process : Option Process := none
  /-- What earlier processes were told, in their order. -/
  past : List (List Command) := []

namespace Session

def log (s : Session) : List String :=
  (s.past ++ s.process.toList.map (·.received)).flatMap fun commands ↦
    "start" :: commands.flatMap fun c ↦ lines c.text

def isQuestion (line : String) : Bool :=
  line.startsWith "(check-sat" || line.startsWith "(get-value"

/-- What a process does with a line. Without a reply left it complains and ends. -/
def react (p : Process) (replies : List Reply) (line : String) : Process × List Reply :=
  if p.alive && isQuestion line then
    match replies with
    | [] => ({ p with alive := false, complaint := "out of responses" }, [])
    | r :: rest =>
      ({ p with
        output := p.output ++ r.text.toList ++ (if r.ends then [] else ['\n'])
        alive := !r.ends }, rest)
  else (p, replies)

def deliver (p : Process) (replies : List Reply) (c : Command) : Process × List Reply :=
  if p.alive then
    (lines c.text).foldl (fun (p, replies) line ↦ react p replies line)
      ({ p with received := p.received ++ [c] }, replies)
  else (p, replies)

def deliverAll (p : Process) (replies : List Reply) (commands : List Command) :
    Process × List Reply :=
  commands.foldl (fun (p, replies) c ↦ deliver p replies c) (p, replies)

end Session

/-- Computations that talk to a process. -/
abbrev Talk := ExceptT SolverError (StateM Session)

namespace Talk

variable {α : Type}

def attempt (talk : Talk α) : Talk (Except SolverError α) := ExceptT.lift talk.run

def discard : Talk Unit :=
  modify fun s ↦
    match s.process with
    | some p => if p.failed then { s with process := none, past := s.past ++ [p.received] } else s
    | none => s

/-- The process, which is started where there is none. -/
def process : Talk Process := do
  discard
  let s ← get
  match s.process with
  | some p => return p
  | none =>
    unless s.available do
      throw (.process
        ("could not start " ++ s.binary.name ++ ": No such file or directory (os error 2)"))
    let (p, replies) := Session.deliverAll {} s.replies s.binary.greeting
    set { s with process := some p, replies }
    return p

def setProcess (p : Process) : Talk Unit := modify fun s ↦ { s with process := some p }

def reject (p : Process) (message : String) : Talk α := do
  setProcess { p with failed := true }
  throw (.process ((← get).binary.name ++ message))

def send (commands : List Command) : Talk Unit := do
  let p ← process
  if p.alive then
    modify fun s ↦
      let (p, replies) := Session.deliverAll p s.replies commands
      { s with process := some p, replies }
  else reject p " is unreachable: Broken pipe (os error 32)"

def splitLine (cs : List Char) : List Char × List Char :=
  match cs.span (· ≠ '\n') with
  | (line, c :: rest) => (line ++ [c], rest)
  | (line, []) => (line, [])

/-- Reads lines onto `response` until its parentheses are closed or there is nothing left. -/
def readLines : Nat → String → List Char → String × List Char
  | 0, response, output => (response, output)
  | fuel + 1, response, output =>
    if openParens response ≤ 0 then (response, output)
    else
      let response := response.push ' '
      match splitLine output with
      | ([], rest) => (response, rest)
      | (line, rest) => readLines fuel (response ++ String.ofList line) rest

/-- The next answer in some output, and the rest. -/
def takeResponse (output : List Char) : String × List Char :=
  let (line, rest) := splitLine output
  readLines (rest.length + 1) (String.ofList line) rest

def receive : Talk String := do
  let p ← process
  let (response, output) := takeResponse p.output
  let p := { p with output }
  setProcess p
  if (trimStart response).startsWith "(error" then
    reject p (" reported an error: " ++ trim response)
  if response.isEmpty then reject p (" exited unexpectedly: " ++ trim p.complaint)
  return response

/-- Asks whether the assertions can hold together. -/
def checkSat (timeout : Option Nat) : Talk Bool := do
  send [.checkSat]
  let response := trim (← receive)
  match response with
  | "sat" => return true
  | "unsat" => return false
  | "unknown" =>
    if timeout = some 0 then throw .timeout
    throw (.unsupported (← get).binary.name "the solver answered unknown")
  | _ => throw (.response response "expected sat, unsat or unknown")

def getValues (terms : List Term) : Talk (List Nat) := do
  if terms.isEmpty then return []
  send [.getValue terms]
  let response ← receive
  let values ← MonadExcept.ofExcept (SExpr.parseValues response)
  unless values.length = terms.length do
    throw (.response response ("expected " ++ decimal terms.length ++ " values"))
  return values

/-- Opens a scope for a question. The script names what can be spoken of in it. -/
def openScope (q : Query) (arrays : List NamedArray) : Talk Script := do
  let (assertions, script) := (do
    let assertions ← q.constraints.toList.mapM Build.assertion
    let _ ← Build.term q.expr
    for array in arrays do
      let _ ← Build.root array
    return assertions : Build (List Term)).run {}
  let limit := match (← get).binary.timeoutOption, q.timeout with
    | some option, some ms => [Command.setOption option (decimal (max ms 1))]
    | _, _ => []
  send ([.push] ++ limit ++ script.preamble ++ assertions.map .assert)
  return script

def closeScope : Talk Unit := send [.pop]

/-- Asks whether the assertions and one more can hold together. -/
def checkAssuming (t : Term) (timeout : Option Nat) : Talk Bool := do
  send [.push, .assert t]
  let result ← attempt (checkSat timeout)
  closeScope
  MonadExcept.ofExcept result

/-- Works in a scope of its own, which is closed in any case. -/
def inScope (q : Query) (arrays : List NamedArray) (work : Script → Talk α) : Talk α := do
  let script ← openScope q arrays
  let result ← attempt (work script)
  let closed ← attempt closeScope
  let a ← MonadExcept.ofExcept result
  MonadExcept.ofExcept closed
  return a

def termIn (script : Script) (e : Expr) : Term := ((Build.term e).run script).1

def arrayIn (script : Script) (array : NamedArray) : Term := .symbol ((Build.root array).run script).1

def evaluate (q : Query) : Talk Validity :=
  inScope q [] fun script ↦ do
    let t := termIn script q.expr
    unless ← checkAssuming (t.isBit false) q.timeout do return .always
    if ← checkAssuming (t.isBit true) q.timeout then return .sometimes else return .never

def value (q : Query) : Talk Nat :=
  inScope q [] fun script ↦ do
    unless ← checkSat q.timeout do throw .unsatisfiable
    match ← getValues [termIn script q.expr] with
    | v :: _ => return v
    | [] => throw .unsatisfiable

def contents (script : Script) (array : NamedArray) : Talk ByteArray := do
  let name := arrayIn script array
  let values ← getValues ((List.range array.size).map fun i ↦ .select name (.literal i 32))
  return values.foldl (fun bytes v ↦ bytes.push v.toUInt8) .empty

def initialValues (q : Query) (arrays : List NamedArray) : Talk (Option (List ByteArray)) :=
  inScope q arrays fun script ↦ do
    send [.assert ((termIn script q.expr).isBit false)]
    unless ← checkSat q.timeout do return none
    return some (← arrays.mapM (contents script))

end Talk

namespace Session

def backend : Backend Session where
  evaluate q := (Talk.evaluate q).run.run
  mustBeTrue q := ((· == .always) <$> Talk.evaluate q).run.run
  value q := (Talk.value q).run.run
  initialValues q arrays := (Talk.initialValues q arrays).run.run

/-- Ends the dialogue. A process that failed is not told. -/
def close (s : Session) : Session :=
  match s.process with
  | none => s
  | some p =>
    let p := if p.failed then p else (deliver p [] .exit).1
    { s with process := none, past := s.past ++ [p.received] }

end Session

end Symex.Smt
