import RegPressure.Config.Load
import RegPressure.Proofs.Toml.Lines

namespace RegPressure.Config

open Toml

/-- TOML knows all characters of the text. -/
def Legible (s : String) : Prop := KnowsAll s.toList

instance (s : String) : Decidable (Legible s) := inferInstanceAs (Decidable (KnowsAll s.toList))

/-- TOML knows all characters of the texts. -/
def AllLegible (l : List String) : Prop := ∀ s ∈ l, Legible s

instance (l : List String) : Decidable (AllLegible l) := inferInstanceAs (Decidable (∀ s ∈ l, Legible s))

@[simp] theorem allLegible_nil : AllLegible [] := fun _ hs => absurd hs List.not_mem_nil

@[simp] theorem allLegible_cons {s : String} {l : List String} :
    AllLegible (s :: l) ↔ Legible s ∧ AllLegible l :=
  List.forall_mem_cons

inductive Setting
  | text (s : String)
  | number (n : Int64)
  | switch (b : Bool)
  | texts (l : List String)
  | numbers (l : List Int64)

namespace Setting

def written : Setting → String
  | .text s => Text.quote s
  | .number n => toString n.toInt
  | .switch b => if b then "true" else "false"
  | .texts l => listText (l.map Text.quote)
  | .numbers l => listText (l.map fun n => toString n.toInt)

def strings : Setting → List String
  | .text s => [s]
  | .texts l => l
  | _ => []

def integer (n : Int64) : Toml.Value := .integer (toString n.toInt).toList

def value : Setting → Toml.Value
  | .text s => .string s
  | .number n => integer n
  | .switch b => .bool b
  | .texts l => .array (l.map .string)
  | .numbers l => .array (l.map integer)

def value? (s : Setting) : Option Toml.Value := if AllLegible s.strings then some s.value else none

theorem mapM_legible (l : List String) :
    l.mapM (fun s => if Legible s then some (Toml.Value.string s) else none) =
      if AllLegible l then some (l.map .string) else none := by
  induction l with
  | nil => rfl
  | cons s l ih =>
    rw [List.mapM_cons, ih]
    by_cases hs : Legible s
    · by_cases hl : AllLegible l
      · rw [if_pos hs, if_pos hl, if_pos (allLegible_cons.mpr ⟨hs, hl⟩)]
        rfl
      · rw [if_pos hs, if_neg hl, if_neg fun h => hl (allLegible_cons.mp h).2]
        rfl
    · rw [if_neg hs, if_neg fun h => hs (allLegible_cons.mp h).1]
      rfl

theorem mapM_integer (l : List Int64) : l.mapM (fun n => some (integer n)) = some (l.map integer) := by
  induction l with
  | nil => rfl
  | cons n l ih =>
    rw [List.mapM_cons, ih]
    rfl

theorem spells (s : Setting) : Spells s.written.toList s.value? := by
  cases s with
  | text s =>
    have hvalue : value? (.text s) = if KnowsAll s.toList then some (.string s) else none := by
      simp only [value?, strings, allLegible_cons, allLegible_nil, and_true, Legible]
      rfl
    rw [hvalue]
    exact spells_quote s
  | number n => exact spells_int n.toInt
  | switch b => exact spells_bool b
  | texts l =>
    have hspells : Spells (written (.texts l)).toList
        ((l.mapM fun s => if Legible s then some (Toml.Value.string s) else none).map .array) :=
      spells_list spells_quote l
    have hvalue : value? (.texts l) =
        (if AllLegible l then some (l.map .string) else none).map Toml.Value.array := by
      rw [apply_ite (Option.map Toml.Value.array)]
      rfl
    rwa [mapM_legible, ← hvalue] at hspells
  | numbers l =>
    have hspells : Spells (written (.numbers l)).toList
        ((l.mapM fun n => some (integer n)).map .array) :=
      spells_list (fun n : Int64 => spells_int n.toInt) l
    rwa [mapM_integer] at hspells

end Setting

variable {c d : Config}

def setting (c : Config) : (f : Field) → f ≠ .ranges → Setting
  | .passes, _ => .texts c.passes
  | .workers, _ => .number c.workers
  | .format, _ => .text c.format
  | .output, _ => .text c.output
  | .lang, _ => .text c.lang
  | .logLevel, _ => .text c.logLevel
  | .logFile, _ => .text c.logFile
  | .showGraphs, _ => .switch c.showGraphs
  | .viewer, _ => .text c.viewer
  | .graphDir, _ => .text c.graphDir
  | .widths, _ => .numbers c.widths
  | .ranges, h => absurd rfl h

/-- The section of a field and its name there. -/
def Field.home : Field → Section
  | .passes | .workers => .analysis
  | .format | .output | .lang => .report
  | .logLevel | .logFile => .log
  | .showGraphs | .viewer | .graphDir => .viz
  | .ranges => .assume
  | .widths => .narrow

def Field.name : Field → String
  | .passes => "passes"
  | .workers => "workers"
  | .format => "format"
  | .output => "output"
  | .lang => "lang"
  | .logLevel => "level"
  | .logFile => "file"
  | .showGraphs => "enabled"
  | .viewer => "viewer"
  | .graphDir => "dir"
  | .ranges => "range"
  | .widths => "widths"

theorem Field.bare_name (f : Field) : Bare f.name := by
  cases f <;> decide

theorem Section.bare_name (sec : Section) : Bare sec.name := by
  cases sec <;> decide

inductive Item
  | remark (text : String) (h : text = "" ∨ text.toList.head? = some '#' ∧
      text.toList.all isText = true)
  | header (sec : Section)
  | setting (f : Field) (h : f ≠ .ranges)

/-- The lines of a settings file, before the ranges. -/
def outline : List Item := [
  .header .analysis,
  .remark "# 按顺序运行的 pass: minreg, plive, xlcleanup, nvassume, redwidth, pwidth" (by decide +kernel),
  .setting .passes (by decide),
  .remark "# 并行工作协程数（0 表示 CPU 核心数）" (by decide +kernel),
  .setting .workers (by decide),
  .remark "" (by decide),
  .header .report,
  .remark "# 输出格式: text, json, lsp" (by decide +kernel),
  .setting .format (by decide),
  .remark "# 输出文件（空表示标准输出）" (by decide +kernel),
  .setting .output (by decide),
  .remark "# 报告语言: en, zh" (by decide +kernel),
  .setting .lang (by decide),
  .remark "" (by decide),
  .header .log,
  .remark "# 日志级别: debug, info, warn, error（空表示关闭）" (by decide +kernel),
  .setting .logLevel (by decide),
  .setting .logFile (by decide),
  .remark "" (by decide),
  .header .viz,
  .remark "# 生成 DOT 后是否启动外部查看器" (by decide +kernel),
  .setting .showGraphs (by decide),
  .setting .viewer (by decide),
  .setting .graphDir (by decide),
  .remark "" (by decide),
  .header .narrow,
  .remark "# 依次尝试的目标位宽" (by decide +kernel),
  .setting .widths (by decide),
  .remark "" (by decide),
  .remark "# 额外的内建函数返回值区间，例如:" (by decide +kernel),
  .remark "# [[assume.range]]" (by decide +kernel),
  .remark "# name = \"my.lane.id\"" (by decide +kernel),
  .remark "# min = 0" (by decide +kernel),
  .remark "# max = 31" (by decide +kernel)]

/-- The line that gives a key what is written of a setting. -/
def Setting.line (s : Setting) (name : String) (h : Bare name) : Line :=
  .entry name h s.written.toList s.value? s.spells

namespace Item

/-- The line of an item. -/
def line (c : Config) : Item → Line
  | .remark text h => .remark text h
  | .header sec => .table sec.name sec.bare_name
  | .setting f h => (c.setting f h).line f.name f.bare_name

def strings (c : Config) : Item → List String
  | .setting f h => (c.setting f h).strings
  | _ => []

def written (c : Config) : Item → String
  | .remark text _ => text ++ "\n"
  | .header sec => "[" ++ sec.name ++ "]\n"
  | .setting f h => f.name ++ " = " ++ (c.setting f h).written ++ "\n"

theorem toList_written (c : Config) (i : Item) :
    (i.written c).toList = (i.line c).text ++ ['\n'] := by
  cases i with
  | remark text h => simp [written, line, Line.remark]
  | header sec => simp [written, line, Line.table]
  | setting f h => simp [written, line, Setting.line, Line.entry]

theorem join_lines (c : Config) (is : List Item) :
    Line.join (is.map (line c)) = is.flatMap fun i => (i.written c).toList := by
  simp only [Line.join, List.flatMap_map, toList_written]

end Item

section Ranges

/-- The texts among the settings. -/
def texts (c : Config) : List String :=
  c.passes ++ [c.format, c.output, c.lang, c.logLevel, c.logFile, c.viewer, c.graphDir] ++
    c.ranges.map (·.name)

def RangePart.partName : RangePart → String
  | .name => "name"
  | .min => "min"
  | .max => "max"

theorem RangePart.bare_partName (p : RangePart) : Bare p.partName := by
  cases p <;> decide

def rangeSetting (r : NamedRange) : RangePart → Setting
  | .name => .text r.name
  | .min => .number r.min
  | .max => .number r.max

def partLine (r : NamedRange) (p : RangePart) : Line :=
  (rangeSetting r p).line p.partName p.bare_partName

def RangePart.all : List RangePart := [.name, .min, .max]

def rangeHeader : List Line := [
  .remark "" (.inl rfl),
  .item Section.assume.name Field.ranges.name Section.assume.bare_name Field.ranges.bare_name]

def rangeLines (r : NamedRange) : List Line := rangeHeader ++ RangePart.all.map (partLine r)

def lines (c : Config) : List Line := outline.map (Item.line c) ++ c.ranges.flatMap rangeLines

theorem toList_rangeText (r : NamedRange) : (rangeText r).toList = Line.join (rangeLines r) := by
  unfold rangeText
  simp only [String.toList_append, List.append_assoc]
  simp [rangeLines, rangeHeader, RangePart.all, partLine, Setting.line, Line.join, Line.remark,
    Line.item, Line.entry, Section.name, Field.name, RangePart.partName, rangeSetting, Setting.written]

theorem toList_text (c : Config) : c.text.toList = Line.join c.lines := by
  have hranges : (String.join (c.ranges.map rangeText)).toList =
      Line.join (c.ranges.flatMap rangeLines) := by
    induction c.ranges with
    | nil => rfl
    | cons r rs ih =>
      rw [List.map_cons, String.join_cons, String.toList_append, toList_rangeText, ih,
        List.flatMap_cons, Line.join, Line.join, Line.join, List.flatMap_append]
  unfold text lines
  rw [Line.join, List.flatMap_append, ← Line.join, ← Line.join, Item.join_lines, ← hranges]
  simp only [String.toList_append, List.append_assoc]
  simp only [outline, List.flatMap_cons, List.flatMap_nil, Item.written, setting, Setting.written,
    Section.name, Field.name, String.toList_append, List.append_assoc]
  -- Both sides are the same text, cut into lines on the one and into literals on the other.
  repeat rw [String.toList_ofList]
  simp only [List.cons_append, List.nil_append]

variable {keys keys' : KeyTable} {rs : List NamedRange} {r q : NamedRange} {target : Option Slot}

end Ranges

end RegPressure.Config
