import RegPressure.Config.Slot
import RegPressure.IR.Fault
import RegPressure.Toml.KeyTable
import RegPressure.Toml.Reader

namespace RegPressure.Config

open Toml

inductive LoadError
  | unreadable (reason : String)
  | malformed
  /-- Loading came to an end that nobody foresaw. -/
  | crashed (f : Fault)
  | invalid (file : String) (p : Problem)
  deriving DecidableEq, Repr

def LoadError.message : LoadError → String
  | .unreadable reason => "failed to read config file: " ++ reason
  | .malformed => "failed to parse config file"
  | .crashed f => f.message
  | .invalid file p => "invalid config file " ++ file ++ ": " ++ p.message

abbrev Loaded := Except LoadError

def refuse {α : Type} (wanted : String) : Toml.Value → Loaded α
  | .date d => .error (if d.isValid then .crashed (.misfit d.kind.typeName wanted) else .malformed)
  | _ => .error .malformed

def string : Toml.Value → Loaded String
  | .string s => .ok s
  | v => refuse Scalar.text.typeName v

def int (kind : Scalar) : Toml.Value → Loaded Int64
  | .integer text =>
    match Toml.Value.int64? text with
    | some n => .ok n
    | none => .error .malformed
  | v => refuse kind.typeName v

def bool : Toml.Value → Loaded Bool
  | .bool b => .ok b
  | v => refuse Scalar.switch.typeName v

def list {α : Type} (itemType : String) (item : Toml.Value → Loaded α) :
    Toml.Value → Loaded (List α)
  | .array items => items.mapM item
  | v => refuse ("[]" ++ itemType) v

def putRangePart (r : NamedRange) (v : Toml.Value) : RangePart → Loaded NamedRange
  | .name => (string v).map fun name => { r with name }
  | .min => (int .wide v).map fun min => { r with min }
  | .max => (int .wide v).map fun max => { r with max }

def putRange (r : NamedRange) (k : Key) (v : Toml.Value) : Loaded NamedRange :=
  match k with
  | [] => .error .malformed
  | name :: rest =>
    match RangePart.ofName? (Text.lower name), rest with
    | none, _ => .ok r
    | some part, [] => putRangePart r v part
    | some _, _ => .error .malformed

def range : Toml.Value → Loaded NamedRange
  | .table rows => rows.foldlM (fun r (k, v) => putRange r k v) {}
  | v => refuse rangeTypeName v

def putField (c : Config) (v : Toml.Value) : Field → Loaded Config
  | .passes => (list Scalar.text.typeName string v).map fun passes => { c with passes }
  | .workers => (int .number v).map fun workers => { c with workers }
  | .format => (string v).map fun format => { c with format }
  | .output => (string v).map fun output => { c with output }
  | .lang => (string v).map fun lang => { c with lang }
  | .logLevel => (string v).map fun logLevel => { c with logLevel }
  | .logFile => (string v).map fun logFile => { c with logFile }
  | .showGraphs => (bool v).map fun showGraphs => { c with showGraphs }
  | .viewer => (string v).map fun viewer => { c with viewer }
  | .graphDir => (string v).map fun graphDir => { c with graphDir }
  | .ranges => (list rangeTypeName range v).map fun ranges => { c with ranges }
  | .widths => (list Scalar.number.typeName (int .number) v).map fun widths => { c with widths }

def putIn (c : Config) (sec : Section) (k : Key) (v : Toml.Value) : Loaded Config :=
  match k with
  | [] => .error .malformed
  | name :: rest =>
    match Field.ofName? sec (Text.lower name), rest with
    | none, _ => .ok c
    | some field, [] => c.putField v field
    | some _, _ => .error .malformed

def put (c : Config) (k : Key) (v : Toml.Value) : Loaded Config :=
  match k with
  | [] => .error .malformed
  | name :: rest =>
    match Section.ofName? (Text.lower name), rest, v with
    | none, _, _ => .ok c
    | some sec, [], .table rows => rows.foldlM (fun c (k, v) => c.putIn sec k v) c
    | some sec, [], v => refuse sec.typeName v
    | some sec, rest, v => c.putIn sec rest v

def putAt (c : Config) (k : Key) (v : Toml.Value) : Slot → Loaded Config
  | .root => c.put k v
  | .within sec => c.putIn sec k v
  | .item .ranges =>
    match c.ranges.getLast? with
    | some r => (putRange r k v).map fun r => { c with ranges := c.ranges.dropLast ++ [r] }
    | none => .error .malformed
  | _ => .error .malformed

/-- Where a table header leads from a place, if it means anything here. A list is entered by its
last item. -/
def table (c : Config) (s : Slot) (k : Key) : Loaded (Option Slot) :=
  match s.last? c with
  | none => .error .malformed
  | some s =>
    match k with
    | [] => .ok (some s)
    | name :: rest =>
      match s.scalar?, s.child? (Text.lower name) with
      | some kind, _ => .error (.crashed (.noParts kind.typeName))
      | none, none => .ok none
      | none, some s => c.table s rest

def tableArray (c : Config) (first : Bool) (s : Slot) : Key → Loaded (Config × Option Slot)
  | [] => .error .malformed
  | name :: rest =>
    match s.scalar?, s.child? (Text.lower name), rest with
    | some kind, _, _ => .error (.crashed (.noParts kind.typeName))
    | none, none, _ => .ok (c, none)
    | none, some (.field f), [] =>
      match f.extend? c first with
      | some c => .ok (c, some (.item f))
      | none => .error .malformed
    | none, some _, [] => .error .malformed
    | none, some s, rest =>
      match s.last? c with
      | none => .error (.crashed .noLastItem)
      | some s => c.tableArray first s rest

structure Loading where
  config : Config := {}
  keys : KeyTable := {}
  /-- Where entries go, if they mean anything here. -/
  target : Option Slot := some .root

def wellFormed {α : Type} (x : Option α) : Loaded α :=
  match x with
  | some a => .ok a
  | none => .error .malformed

/-- Takes in one expression. Keys under a header that means nothing here are not even checked. -/
def Loading.step (l : Loading) : Expression → Loaded Loading
  | .entry k v => do
    let some slot := l.target | return l
    let keys ← wellFormed (l.keys.addEntry k v)
    return { l with config := ← l.config.putAt k v slot, keys }
  | .table k => do
    let keys ← wellFormed (l.keys.addTable k)
    return { l with keys, target := ← l.config.table .root k }
  | .tableArray k => do
    let first := (l.keys.find? k).isNone
    let keys ← wellFormed (l.keys.addTableArray k)
    let (config, target) ← l.config.tableArray first .root k
    return { config, keys, target }

def ofText (text : String) : Loaded Config :=
  (Toml.fold .malformed Loading.step {} text).map (·.config)

/-- The settings in a file, once they are known to make sense. -/
def load (file text : String) : Loaded Config := do
  let c ← ofText text
  match c.problem? with
  | some p => throw (.invalid file p)
  | none => return c

end RegPressure.Config
