import RegPressure.Toml.Value

namespace RegPressure.Toml

inductive KeyKind
  | value
  | table
  | tables
  deriving DecidableEq, Repr, Inhabited

/-- What a key stands for. `fixed` says that no header and no dotted key may add to it any more,
`dotted` that it came up in a dotted key of the table that is being read. -/
structure KeyMark where
  kind : KeyKind
  fixed : Bool := false
  dotted : Bool := false
  deriving DecidableEq, Repr, Inhabited

/-- The marks of keys written in full, and the table that is being read. -/
structure KeyTable where
  marks : List (Key × KeyMark) := []
  current : Key := []
  deriving DecidableEq, Repr, Inhabited

namespace KeyTable

def find? (t : KeyTable) (k : Key) : Option KeyMark := t.marks.lookup k

def set (t : KeyTable) (k : Key) (m : KeyMark) : KeyTable :=
  { t with marks := (k, m) :: t.marks.filter (·.1 ≠ k) }

def isBelow (k below : Key) : Bool := k.isPrefixOf below && k ≠ below

def close (t : KeyTable) : KeyTable :=
  { t with marks := t.marks.map fun (k, m) =>
      if isBelow t.current k && m.dotted then (k, { m with fixed := true, dotted := false })
      else (k, m) }

def clear (t : KeyTable) (k : Key) : KeyTable :=
  { t with marks := t.marks.filter fun (below, _) => !isBelow k below }

/-- Opens the tables that a header passes on its way from `done`, all but the last. -/
def pass (t : KeyTable) (done : Key) : Key → Option (KeyTable × Key)
  | [] => none
  | [last] => some (t, done ++ [last])
  | k :: ks =>
    let here := done ++ [k]
    match t.find? here with
    | none => (t.set here ⟨.table, false, false⟩).pass here ks
    | some m => if m.kind = .value then none else t.pass here ks

def addTable (t : KeyTable) (k : Key) : Option KeyTable := do
  let (t, here) ← t.close.pass [] k
  let t := { t with current := here }
  match t.find? here with
  | none => return t.set here ⟨.table, true, false⟩
  | some m =>
    if m.kind ≠ .table || m.fixed then none else return t.set here { m with fixed := true }

def addTableArray (t : KeyTable) (k : Key) : Option KeyTable := do
  let (t, here) ← t.close.pass [] k
  let t := { t with current := here }
  match t.find? here with
  | none => return t.set here ⟨.tables, true, false⟩
  | some m => if m.kind ≠ .tables then none else return t.clear here

def addKey (t : KeyTable) (done : Key) : Key → Option KeyTable
  | [] => none
  | k :: ks =>
    let here := done ++ [k]
    match t.find? here, ks with
    | none, [] => some (t.set here ⟨.value, false, true⟩)
    | none, ks => (t.set here ⟨.table, false, true⟩).addKey here ks
    | some _, [] => none
    | some m, ks => if m.kind ≠ .table || m.fixed then none else t.addKey here ks

mutual

def checkValue : Value → Bool
  | .array items => checkItems items
  | .table rows => checkRows {} rows
  | _ => true

def checkItems : List Value → Bool
  | [] => true
  | v :: vs => checkValue v && checkItems vs

def checkRows (t : KeyTable) : List (Key × Value) → Bool
  | [] => true
  | (k, v) :: rows =>
    match t.addKey [] k with
    | none => false
    | some t => checkValue v && checkRows t rows

end

def addEntry (t : KeyTable) (k : Key) (v : Value) : Option KeyTable :=
  if checkValue v then t.addKey t.current k else none

end KeyTable

end RegPressure.Toml
