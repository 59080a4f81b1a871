import RegPressure.Advice.Report
import RegPressure.Asm.Printer

namespace RegPressure.Dot

def colors : List String :=
  ["lightblue", "palegreen", "lightsalmon", "khaki", "plum", "lightcyan", "wheat"]

def maxShown : Nat := 20

def escape (s : String) : String :=
  String.join <| s.toList.map fun c =>
    if c = '\\' then "\\\\" else if c = '"' then "\\\"" else String.singleton c

variable (scope : Option Symbols) (f : Func) (report : Option Report)

def isCandidate (id : Int) : Bool :=
  report.any fun r => r.records.any fun rec => rec.candidates.any (·.instr = id)

def isLink (a b : Int) : Bool :=
  report.any fun r => r.chains.any fun c =>
    (c.blocks.zip c.blocks.tail).any fun (x, y) => (x : Int) = a && (y : Int) = b

def blockLines (b : Nat) (blk : Block) : Checked String := do
  let shown ← (blk.instrs.take maxShown).mapM fun id => do
    let mark := if isCandidate report id then "* " else "  "
    return mark ++ escape (← Printer.instrAt scope f id) ++ "\\l"
  let more := if blk.instrs.length > maxShown then "...\\l" else ""
  let fill :=
    match report.bind (·.chainOf? b) with
    | some c => ", style=filled, fillcolor=" ++ colors.getD (c % colors.length) ""
    | none => ""
  let node := "  b" ++ toString b ++ " [label=\"" ++ f.blockLabel b ++ ":\\l" ++
    String.join shown ++ more ++ "\"" ++ fill ++ "];\n"
  let edges := blk.succs.map fun s =>
    "  b" ++ toString b ++ " -> b" ++ toString s ++
      (if isLink report b s then " [penwidth=3];\n" else ";\n")
  return node ++ String.join edges

/-- The graph of a function, with its advice if there is any. -/
def graph : Checked String := do
  let blocks ← f.blocks.toList.mapIdxM fun b blk => blockLines scope f report b blk
  return "digraph " ++ Text.quote f.name ++ " \x7b\n  rankdir=TB;\n" ++
    "  node [shape=box, fontname=\"Courier\"];\n" ++ String.join blocks ++ "\x7d\n"

end RegPressure.Dot
