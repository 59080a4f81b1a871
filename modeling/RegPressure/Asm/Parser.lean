import RegPressure.Asm.InstrGrammar
import RegPressure.IR.WellFormed
import RegPressure.Text.Path

namespace RegPressure

/-- A module as far as it could be read, and everything that was wrong with the text. -/
structure Parsed where
  module : Module
  errors : List Located

def Reader.attempt {α : Type} (r : Reader α) (s : Stream) :
    Checked (Except Located α × Stream) :=
  match r.run s with
  | .ok a t => return (.ok a, t)
  | .error (.wrong e) t => return (.error e, t)
  | .error .endless _ => throw .endless

namespace Parser

/-- A reference left open in instruction `instr`. -/
structure Fixup where
  instr : Int
  ref : OpenRef

/-- A function in the making. -/
structure Body where
  func : Func
  names : Names
  current : Option Int := none
  fixups : List Fixup := []
  errors : List Located := []

/-- All that was read so far. -/
structure State where
  stream : Stream
  module : Module
  errors : List Located

def Body.report (b : Body) (e : Located) : Body := { b with errors := b.errors ++ [e] }

/-- Opens a block. A second block of one name is reported and takes the name over. -/
def Body.label (b : Body) (t : Token) : Body :=
  let b :=
    if (b.names.blocks.lookup t.word).isSome then
      b.report ((SourceError.blockRedefined t.word).atToken t)
    else b
  let (func, id) := b.func.addBlock t.word
  { b with func, current := some id
           names := { b.names with blocks := (t.word, id) :: b.names.blocks } }

/-- Adds a finished instruction to the current block. -/
def Body.push (b : Body) (d : Draft) : Checked Body := do
  let (func, id) ← b.func.append (b.current.getD (-1)) d.instr
  let locals := if d.instr.name = "" then b.names.locals else (d.instr.name, id) :: b.names.locals
  return { b with func, names := { b.names with locals }
                  fixups := b.fixups ++ d.pending.map (⟨id, ·⟩) }

/-- Reads one instruction, or reports why it cannot be read and passes its line. -/
def Body.step (b : Body) (s : Stream) : Checked (Body × Stream) := do
  match ← (Grammar.instruction b.names b.current.isSome).attempt s with
  | (.ok draft, s) => return (← b.push draft, s)
  | (.error e, s') =>
    let s' := if s'.rest.length = s.rest.length then s'.advance else s'
    return (b.report e, s'.passLine)

/-- Labels and instructions up to the closing brace. -/
def body : Nat → Body → Stream → Checked (Body × Stream)
  | 0, _, _ => throw .endless
  | n + 1, b, s => do
    if s.sees .rbrace || s.atEnd then return (b, s)
    else if s.sees .ident && s.ahead.kind = .colon then
      body n (b.label s.cur) s.advance.advance
    else
      let (b, s) ← b.step s
      body n b s

def Body.resolve (b : Body) (x : Fixup) : Body :=
  if x.ref.isBlock then
    match b.names.blocks.lookup x.ref.name with
    | some t =>
      let retarget (i : Instr) : Instr := { i with targets := i.targets.set x.ref.index t }
      { b with func := b.func.setInstr x.instr retarget }
    | none => b.report ((SourceError.undefinedBlock x.ref.name).atToken x.ref.token)
  else
    match b.names.locals.lookup x.ref.name with
    | some id =>
      { b with func := b.func.setInstr x.instr fun i =>
                { i with operands := i.operands.set x.ref.index (.instr id) } }
    | none => b.report ((SourceError.undefinedValue x.ref.name).atToken x.ref.token)

/-- Closes a function: open references, then edges and structure, each only if nothing was wrong
before. -/
def Body.finish (b : Body) (start : Token) : Checked Body := do
  let b := b.fixups.foldl Body.resolve b
  if b.errors ≠ [] then return b
  if b.func.blocks.isEmpty then
    return b.report ((SourceError.noBlocks b.func.name).atToken start)
  let (func, edges) := b.func.rebuildEdges
  edges
  let defects ← func.verify (some b.names.symbols)
  return { b with func, errors := defects.map fun d => (SourceError.malformed d).atToken start }

/-- The parameter list, without its parentheses. -/
def params : Nat → List Param → Reader (List Param)
  | 0, _ => throw .endless
  | n + 1, ps => do
    if ← Reader.sees .rparen then return ps
    let t ← Reader.expect .local
    if ps.any (·.name = t.word) then Reader.failAt t (.paramRedefined t.word)
    let _ ← Reader.expect .colon
    let ty ← Grammar.type
    if !(← Reader.sees .rparen) then let _ ← Reader.expect .comma
    params n (ps ++ [⟨t.word, some ty⟩])

def header (m : Module) : Reader Func := do
  let t ← Reader.expect .global
  if (m.func? t.word).isSome then Reader.failAt t (.funcRedefined t.word)
  let _ ← Reader.expect .lparen
  let ps ← params ((← get).rest.length + 1) []
  let _ ← Reader.expect .rparen
  let ret ← if ← Reader.accept .arrow then Grammar.type else pure .void
  let _ ← Reader.expect .lbrace
  return { name := t.word, params := ps, ret }

def global (m : Module) : Reader Global := do
  let t ← Reader.expect .global
  if (m.symbols.globalIndex? t.word).isSome then Reader.failAt t (.globalRedefined t.word)
  let _ ← Reader.expect .colon
  let ty ← Grammar.type
  return { name := t.word, ty := some ty, isConst := ← Reader.acceptWord "const" }

def declAttributes : Nat → Decl → Reader Decl
  | 0, _ => throw .endless
  | n + 1, d => do
    if ← Reader.acceptWord "readnone" then declAttributes n { d with readNone := true }
    else if ← Reader.acceptWord "readonly" then declAttributes n { d with readOnly := true }
    else return d

def declare : Reader Decl := do
  let t ← Reader.expect .global
  let _ ← Reader.expect .lparen
  let ps ← Reader.commaList .rparen Grammar.type
  let _ ← Reader.expect .rparen
  let ret ← if ← Reader.accept .arrow then Grammar.type else pure .void
  declAttributes ((← get).rest.length + 1) { name := t.word, params := ps.map some, ret := some ret }

namespace State

def bail (s : State) (e : Located) (stream : Stream) : State :=
  { s with stream := stream.passToItem, errors := s.errors ++ [e] }

def addFunc (s : State) (f : Func) : State :=
  { s with module := { s.module with funcs := s.module.funcs ++ [f] } }

/-- A function, from its name on. One that ends with the text is kept as it is. -/
def func (file : String) (s : State) (start : Token) : Checked State := do
  match ← (header s.module).attempt s.stream with
  | (.error e, stream) => return s.bail e stream
  | (.ok f, stream) =>
    let f := { f with file }
    let names : Names := { symbols := s.module.symbols, ret := f.ret, params := f.params }
    let (b, stream) ← body (stream.rest.length + 1) { func := f, names } stream
    match ← (Reader.expect .rbrace).attempt stream with
    | (.error e, stream) =>
      return { s with errors := s.errors ++ b.errors } |>.addFunc b.func |>.bail e stream
    | (.ok _, stream) =>
      let b ← b.finish start
      return { s with stream, errors := s.errors ++ b.errors }.addFunc b.func

def item (file : String) (s : State) : Checked State := do
  let t := s.stream.cur
  let unexpected := s.bail ((SourceError.topLevel t).atToken t) s.stream
  let after := s.stream.advance
  if t.kind ≠ .ident then return unexpected
  match t.word with
  | "global" =>
    match ← (global s.module).attempt after with
    | (.ok g, stream) =>
      let syms := s.module.symbols
      let symbols := { syms with globals := syms.globals ++ [g] }
      return { s with stream, module := { s.module with symbols } }
    | (.error e, stream) => return s.bail e stream
  | "declare" =>
    match ← declare.attempt after with
    | (.ok d, stream) =>
      let syms := s.module.symbols
      let symbols := { syms with decls := syms.decls ++ [d] }
      return { s with stream, module := { s.module with symbols } }
    | (.error e, stream) => return s.bail e stream
  | "func" => func file { s with stream := after } t
  | _ => return unexpected

def items (file : String) : Nat → State → Checked State
  | 0, _ => throw .endless
  | n + 1, s => do if s.stream.atEnd then return s else items file n (← s.item file)

end State

/-- A module is named for its file, without the ending `.mir`. -/
def moduleName (file : String) : String :=
  let base := Path.base file
  if base.endsWith ".mir" then (base.dropEnd 4).toString else base

end Parser

open RegPressure.Parser in
/-- Reads the text of a module. After an error in an instruction reading goes on with the next line,
and after one elsewhere with the next item, so that one run reports as much as it can. -/
def parse (file : String) (src : Bytes) : Checked Parsed := do
  let lexed := Lexer.tokens src
  let start : State :=
    { stream := ⟨lexed.tokens, none⟩, module := { name := moduleName file }, errors := [] }
  let s ← start.items file lexed.tokens.length
  return ⟨s.module, lexed.errors ++ s.errors⟩

def Parsed.diagnostics (p : Parsed) (file : String) : List Diagnostic :=
  p.errors.map (Located.diagnostic file)

end RegPressure
