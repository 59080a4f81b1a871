import RegPressure.Text.Quoted

namespace RegPressure

inductive Arg
  | text (s : String)
  | number (n : Int)
  deriving DecidableEq, Repr, Inhabited

def Arg.plain : Arg → String
  | .text s => s
  | .number n => toString n

namespace Template

def fillChars : List Char → List Arg → List Char
  | [], _ => []
  | '%' :: '%' :: rest, args => '%' :: fillChars rest args
  | '%' :: 'q' :: rest, a :: args => (Text.quote a.plain).toList ++ fillChars rest args
  | '%' :: 's' :: rest, a :: args => a.plain.toList ++ fillChars rest args
  | '%' :: 'd' :: rest, a :: args => a.plain.toList ++ fillChars rest args
  | '%' :: 'v' :: rest, a :: args => a.plain.toList ++ fillChars rest args
  | c :: rest, args => c :: fillChars rest args

/-- In a template a percent sign and a letter take the next argument: `s`, `d` and `v` its text, `q`
its text in quotes. A template without arguments is taken as it stands. -/
def fill (template : String) (args : List Arg) : String :=
  if args.isEmpty then template else String.ofList (fillChars template.toList args)

end Template

inductive Lang
  | english
  | chinese
  deriving DecidableEq, Repr, Inhabited

namespace Lang

def tag : Lang → String
  | .english => "en"
  | .chinese => "zh"

def ofTag (s : String) : Lang := if s = "zh" then .chinese else .english

def ofSetting (s : String) : Lang :=
  if ["zh", "zh-cn", "zh-tw", "zh-hk", "chinese"].contains s then .chinese else .english

end Lang

inductive Message
  | funcHeader | chainHeader | candidatesHeader | through | summary | noAdvice
  | diagCandidate | diagReason
  | passStats | unknownPass | passFailed
  | unknownCommand | noInput | wroteFile | configExists | configCreated | verifyOk
  | viewerFailed | funcsSkipped
  deriving DecidableEq, Repr, Inhabited

namespace Message

def all : List Message :=
  [.funcHeader, .chainHeader, .candidatesHeader, .through, .summary, .noAdvice, .diagCandidate,
   .diagReason, .passStats, .unknownPass, .passFailed, .unknownCommand, .noInput, .wroteFile,
   .configExists, .configCreated, .verifyOk, .viewerFailed, .funcsSkipped]

def key : Message → String
  | .funcHeader => "report.func_header"
  | .chainHeader => "report.chain_header"
  | .candidatesHeader => "report.candidates_header"
  | .through => "report.through"
  | .summary => "report.summary"
  | .noAdvice => "report.no_advice"
  | .diagCandidate => "report.diag_candidate"
  | .diagReason => "report.diag_reason"
  | .passStats => "pass.stats"
  | .unknownPass => "pass.unknown"
  | .passFailed => "pass.failed"
  | .unknownCommand => "cli.unknown_command"
  | .noInput => "cli.no_input"
  | .wroteFile => "cli.wrote_file"
  | .configExists => "cli.config_exists"
  | .configCreated => "cli.config_created"
  | .verifyOk => "cli.verify_ok"
  | .viewerFailed => "cli.viewer_failed"
  | .funcsSkipped => "cli.funcs_skipped"

def english : Message → String
  | .funcHeader => "Function %s"
  | .chainHeader => "Chain (%d blocks)"
  | .candidatesHeader => "Candidates from %s to %s:"
  | .through => "(Through %s)"
  | .summary => "%d chain(s), %d record(s), %d candidate(s)"
  | .noAdvice => "no code motion opportunities"
  | .diagCandidate => "%s can move from block %s to block %s"
  | .diagReason => "movable: %s"
  | .passStats => "%d pass run(s), %d change(s)"
  | .unknownPass => "unknown pass %q"
  | .passFailed => "pass %s failed on %s: %v"
  | .unknownCommand => "unknown command: %s"
  | .noInput => "no input files"
  | .wroteFile => "wrote %s"
  | .configExists => "%s already exists"
  | .configCreated => "Created %s"
  | .verifyOk => "%s: ok (%d function(s))"
  | .viewerFailed => "cannot start viewer: %v"
  | .funcsSkipped => "skipped %d function(s) that could not be lowered"

def chinese : Message → String
  | .funcHeader => "函数 %s"
  | .chainHeader => "链 (%d 个块)"
  | .candidatesHeader => "从 %s 到 %s 的候选指令:"
  | .through => "(途经 %s)"
  | .summary => "%d 条链, %d 条记录, %d 条候选指令"
  | .noAdvice => "没有可移动的指令"
  | .diagCandidate => "%s 可以从块 %s 移动到块 %s"
  | .diagReason => "可移动: %s"
  | .passStats => "运行了 %d 个 pass, %d 处修改"
  | .unknownPass => "未知的 pass %q"
  | .passFailed => "pass %s 处理 %s 失败: %v"
  | .unknownCommand => "未知命令: %s"
  | .noInput => "没有输入文件"
  | .wroteFile => "已写入 %s"
  | .configExists => "%s 已存在"
  | .configCreated => "已创建 %s"
  | .verifyOk => "%s: 正常 (%d 个函数)"
  | .viewerFailed => "无法启动查看器: %v"
  | .funcsSkipped => "跳过了 %d 个无法降低的函数"

def template (lang : Lang) (m : Message) : String :=
  match lang with
  | .english => m.english
  | .chinese => m.chinese

def text (lang : Lang) (m : Message) (args : List Arg := []) : String :=
  Template.fill (m.template lang) args

def lookUp (lang : Lang) (key : String) (args : List Arg) : String :=
  match all.find? (·.key = key) with
  | some m => m.text lang args
  | none => key

end Message

end RegPressure
