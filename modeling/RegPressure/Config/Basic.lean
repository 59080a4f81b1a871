import RegPressure.Pass.Basic
import RegPressure.Text.Path

namespace RegPressure

structure NamedRange where
  name : String := ""
  min : Int64 := 0
  max : Int64 := 0
  deriving DecidableEq, Repr, Inhabited

structure Config where
  passes : List String := ["minreg"]
  workers : Int64 := 0
  format : String := "text"
  output : String := ""
  lang : String := "en"
  logLevel : String := ""
  logFile : String := ""
  showGraphs : Bool := false
  viewer : String := "xdot"
  graphDir : String := ""
  ranges : List NamedRange := []
  widths : List Int64 := [16, 32]
  deriving DecidableEq, Repr, Inhabited

namespace Config

def fileName : String := "minreg.toml"

def forDir (dir : String) : Config :=
  if dir = "" || dir = "." then {} else { graphDir := Path.join dir ".minreg" }

inductive Problem
  | unknownFormat (name : String)
  | negativeWorkers
  | widthOutOfRange (width : Int64)
  | namelessRange
  | emptyRange (r : NamedRange)
  deriving DecidableEq, Repr

def Problem.message : Problem → String
  | .unknownFormat name => "unknown report format " ++ Text.quote name
  | .negativeWorkers => "analysis.workers must not be negative"
  | .widthOutOfRange w => "narrow width " ++ toString w.toInt ++ " out of range"
  | .namelessRange => "assume range without name"
  | .emptyRange r =>
    "assume range " ++ r.name ++ ": min " ++ toString r.min.toInt ++ " > max " ++
      toString r.max.toInt

def formats : List String := ["text", "json", "lsp"]

def rangeProblem? (r : NamedRange) : Option Problem :=
  if r.name = "" then some .namelessRange
  else if r.min > r.max then some (.emptyRange r)
  else none

/-- The first problem of the settings, if there is one. -/
def problem? (c : Config) : Option Problem :=
  if !formats.contains c.format then some (.unknownFormat c.format)
  else if c.workers < 0 then some .negativeWorkers
  else
    (c.widths.find? fun w => w ≤ 0 || w ≥ 64).map .widthOutOfRange <|>
      c.ranges.findSome? rangeProblem?

def settings (c : Config) : PassSettings :=
  { ranges := c.ranges.map fun r => (r.name, ⟨r.min, r.max⟩), widths := c.widths.map (·.toInt) }

def listText (items : List String) : String := "[" ++ ", ".intercalate items ++ "]"

def rangeText (r : NamedRange) : String :=
  "\n[[assume.range]]\nname = " ++ Text.quote r.name ++ "\nmin = " ++ toString r.min.toInt ++
    "\nmax = " ++ toString r.max.toInt ++ "\n"

/-- The settings as a commented file. -/
def text (c : Config) : String :=
  "[analysis]\n" ++
  "# 按顺序运行的 pass: minreg, plive, xlcleanup, nvassume, redwidth, pwidth\n" ++
  "passes = " ++ listText (c.passes.map Text.quote) ++ "\n" ++
  "# 并行工作协程数（0 表示 CPU 核心数）\n" ++
  "workers = " ++ toString c.workers.toInt ++ "\n\n" ++
  "[report]\n" ++
  "# 输出格式: text, json, lsp\n" ++
  "format = " ++ Text.quote c.format ++ "\n" ++
  "# 输出文件（空表示标准输出）\n" ++
  "output = " ++ Text.quote c.output ++ "\n" ++
  "# 报告语言: en, zh\n" ++
  "lang = " ++ Text.quote c.lang ++ "\n\n" ++
  "[log]\n" ++
  "# 日志级别: debug, info, warn, error（空表示关闭）\n" ++
  "level = " ++ Text.quote c.logLevel ++ "\n" ++
  "file = " ++ Text.quote c.logFile ++ "\n\n" ++
  "[viz]\n" ++
  "# 生成 DOT 后是否启动外部查看器\n" ++
  "enabled = " ++ (if c.showGraphs then "true" else "false") ++ "\n" ++
  "viewer = " ++ Text.quote c.viewer ++ "\n" ++
  "dir = " ++ Text.quote c.graphDir ++ "\n\n" ++
  "[narrow]\n" ++
  "# 依次尝试的目标位宽\n" ++
  "widths = " ++ listText (c.widths.map fun w => toString w.toInt) ++ "\n" ++
  "\n# 额外的内建函数返回值区间，例如:\n" ++
  "# [[assume.range]]\n# name = \"my.lane.id\"\n# min = 0\n# max = 31\n" ++
  String.join (c.ranges.map rangeText)

end Config

end RegPressure
