import RegPressure.IR.Func

namespace RegPressure

open Bytes (ofString)

private def listText (xs : List Bytes) : Bytes :=
  ofString "[" ++ (ofString " ").intercalate xs ++ ofString "]"

private def idsText (ids : List Int) : Bytes := listText (ids.map Bytes.ofInt)

private def boolText (b : Bool) : Bytes := ofString (if b then "true" else "false")

private def words (ws : List Bytes) : Bytes := (ofString " ").intercalate ws ++ ofString "\n"

namespace AccessMeta

def fingerprint (m : AccessMeta) : Bytes :=
  ofString "\x7bTBAA:" ++ m.tbaa ++ ofString " Scope:" ++ m.scope ++
    ofString " NoAlias:" ++ listText m.noAlias ++
    ofString " Invariant:" ++ boolText m.invariant ++ ofString "\x7d"

end AccessMeta

namespace Value

/-- Sort and number of a reference, sort of a constant, and the three payloads. -/
structure Parts where
  kind : Nat := 0
  index : Int := 0
  const : Nat := 0
  int : Int := 0
  float : Binary64 := .zero
  str : Bytes := []
  ty : Option Ty := none

def parts : Value → Parts
  | .int t n => { const := 0, int := n.toInt, ty := t }
  | .float t x => { const := 1, float := x, ty := t }
  | .null => { const := 2, ty := some .ptr }
  | .undef t => { const := 3, ty := t }
  | .str s => { const := 4, str := s, ty := some .ptr }
  | .arg i => { kind := 1, index := i }
  | .global i => { kind := 2, index := i }
  | .instr id => { kind := 3, index := id }

def fingerprint (v : Value) : Bytes :=
  let p := v.parts
  ofString "  " ++ words
    [Bytes.ofNat p.kind, Bytes.ofInt p.index, Bytes.ofNat p.const, Bytes.ofInt p.int,
     ofString p.float.text, ofString (Text.quoteBytes p.str), ofString (Ty.textOf p.ty)]

end Value

def Instr.fingerprint (id : Int) (i : Instr) : Bytes :=
  words
    [ofString "i" ++ Bytes.ofInt id, ofString ("b" ++ idText i.home), ofString i.op.name,
     ofString i.ty.text, ofString i.name, idsText i.targets, ofString i.pred, ofString i.rmw,
     ofString i.callee, boolText i.volatile, Bytes.ofNat i.ordering.rank, boolText i.checked,
     i.access.fingerprint] ++
    ofString "  elem " ++ ofString (Ty.textOf i.elem) ++ ofString "\n" ++
    (i.operands.map Value.fingerprint).flatten

def Block.fingerprint (b : Int) (blk : Block) : Bytes :=
  words [ofString "b" ++ Bytes.ofInt b, idsText blk.instrs, idsText blk.succs, idsText blk.preds]

def Func.fingerprint (f : Func) : Bytes :=
  words [ofString "func", ofString f.name, ofString (idText f.entry)] ++
    (f.blocks.toList.mapIdx fun b blk => blk.fingerprint b).flatten ++
    (f.instrs.toList.mapIdx fun id i => i.fingerprint id).flatten

end RegPressure
