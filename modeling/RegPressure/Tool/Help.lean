import RegPressure.Locale.Message

namespace RegPressure

structure HelpText where
  title : String
  usage : String
  commands : String
  options : String
  examples : String
  advise : String
  plive : String
  cleanup : String
  assume : String
  redwidth : String
  pwidth : String
  run : String
  dot : String
  verify : String
  init : String
  version : String
  help : String
  optLang : String
  optConfig : String
  optVerbose : String
  optGo : String
  optFormat : String
  optOutput : String
  optDotDir : String
  optView : String
  optPasses : String
  optEmit : String
  optFunc : String
  optForce : String
  optWorkers : String
  optDir : String

namespace HelpText

def english : HelpText where
  title := "code motion advisor for register pressure"
  usage := "Usage:"
  commands := "Commands:"
  options := "Global options:"
  examples := "Examples:"
  advise := "report instructions that can move along single-entry chains"
  plive := "print values live across block boundaries"
  cleanup := "remove '$' from symbol names"
  assume := "add range assumptions after special-register reads"
  redwidth := "narrow integer arithmetic using value ranges"
  pwidth := "print the minimal width of every integer value"
  run := "run the pass pipeline from minreg.toml"
  dot := "write control flow graphs as Graphviz DOT"
  verify := "check the structure of the input"
  init := "create a default minreg.toml"
  version := "show version"
  help := "show this help"
  optLang := "message language (en, zh)"
  optConfig := "configuration file (default: search upward for minreg.toml)"
  optVerbose := "debug logging to stderr"
  optGo := "arguments are Go package patterns instead of .mir files"
  optFormat := "report format: text, json, lsp"
  optOutput := "write output to this file instead of stdout"
  optDotDir := "also write one DOT file per function into this directory"
  optView := "open the CFG of every advised function in the viewer"
  optPasses := "comma separated pass list (overrides the configuration)"
  optEmit := "write the transformed module to this file"
  optFunc := "only this function"
  optForce := "overwrite an existing file"
  optWorkers := "number of worker goroutines (0 = number of CPUs)"
  optDir := "directory for minreg.toml (default: current directory)"

def chinese : HelpText where
  title := "降低寄存器压力的代码移动建议工具"
  usage := "用法:"
  commands := "命令:"
  options := "全局选项:"
  examples := "示例:"
  advise := "报告可以沿单入口链移动的指令"
  plive := "打印跨越基本块边界的活跃值"
  cleanup := "去掉符号名中的 '$'"
  assume := "在特殊寄存器读取之后插入值域假设"
  redwidth := "依据值区间收窄整数运算"
  pwidth := "打印每个整数值的最小位宽"
  run := "运行 minreg.toml 中配置的 pass 流水线"
  dot := "以 Graphviz DOT 格式输出控制流图"
  verify := "检查输入的结构"
  init := "创建默认的 minreg.toml"
  version := "显示版本"
  help := "显示帮助"
  optLang := "消息语言 (en, zh)"
  optConfig := "配置文件（默认向上查找 minreg.toml）"
  optVerbose := "向标准错误输出调试日志"
  optGo := "参数是 Go 包模式而不是 .mir 文件"
  optFormat := "报告格式: text, json, lsp"
  optOutput := "输出到文件而不是标准输出"
  optDotDir := "同时把每个函数的 DOT 文件写入该目录"
  optView := "用查看器打开每个有建议的函数的控制流图"
  optPasses := "逗号分隔的 pass 列表（覆盖配置）"
  optEmit := "把变换后的模块写入该文件"
  optFunc := "只处理该函数"
  optForce := "覆盖已存在的文件"
  optWorkers := "工作协程数（0 表示 CPU 核心数）"
  optDir := "minreg.toml 所在目录（默认当前目录）"

def of : Lang → HelpText
  | .english => english
  | .chinese => chinese

def toolVersion : String := "0.1.0"

def overview (h : HelpText) : String :=
  "minreg " ++ toolVersion ++ " - " ++ h.title ++ "\n\n" ++
  h.usage ++ "\n" ++
  "  minreg [--lang en|zh] [--config file] [--verbose] <command> [options] [arguments]\n\n" ++
  h.commands ++ "\n" ++
  "  advise <input>    " ++ h.advise ++ "\n" ++
  "  plive <input>     " ++ h.plive ++ "\n" ++
  "  cleanup <input>   " ++ h.cleanup ++ "\n" ++
  "  assume <input>    " ++ h.assume ++ "\n" ++
  "  redwidth <input>  " ++ h.redwidth ++ "\n" ++
  "  pwidth <input>    " ++ h.pwidth ++ "\n" ++
  "  run <input>       " ++ h.run ++ "\n" ++
  "  dot <input>       " ++ h.dot ++ "\n" ++
  "  verify <input>    " ++ h.verify ++ "\n" ++
  "  init              " ++ h.init ++ "\n" ++
  "  version           " ++ h.version ++ "\n" ++
  "  help              " ++ h.help ++ "\n\n" ++
  h.options ++ "\n" ++
  "  --lang <en|zh>    " ++ h.optLang ++ "\n" ++
  "  --config <file>   " ++ h.optConfig ++ "\n" ++
  "  --verbose         " ++ h.optVerbose ++ "\n\n" ++
  h.examples ++ "\n" ++
  "  minreg advise kernel.mir\n" ++
  "  minreg advise -format json -o advice.json kernel.mir\n" ++
  "  minreg advise -go ./...\n" ++
  "  minreg redwidth -o narrow.mir kernel.mir\n" ++
  "  minreg --lang zh run kernel.mir\n"

end HelpText

end RegPressure
