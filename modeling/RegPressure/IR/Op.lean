namespace RegPressure

inductive Op
  | invalid
  | ret | br | condbr | switch | unreachable
  | add | sub | mul | udiv | sdiv | urem | srem | shl | lshr | ashr | and | or | xor
  | fadd | fsub | fmul | fdiv | frem | fneg
  | trunc | zext | sext | fptrunc | fpext | fptosi | fptoui | sitofp | uitofp
  | ptrtoint | inttoptr | bitcast
  | icmp | fcmp | select | gep
  | extractelement | insertelement | shufflevector | extractvalue | insertvalue
  | alloca | load | store | atomicrmw | cmpxchg | fence
  | call | phi
  deriving DecidableEq, Repr, Inhabited

namespace Op

/-- Every operation, in the order of its code. -/
def all : List Op :=
  [.invalid, .ret, .br, .condbr, .switch, .unreachable,
   .add, .sub, .mul, .udiv, .sdiv, .urem, .srem, .shl, .lshr, .ashr, .and, .or, .xor,
   .fadd, .fsub, .fmul, .fdiv, .frem, .fneg,
   .trunc, .zext, .sext, .fptrunc, .fpext, .fptosi, .fptoui, .sitofp, .uitofp,
   .ptrtoint, .inttoptr, .bitcast,
   .icmp, .fcmp, .select, .gep,
   .extractelement, .insertelement, .shufflevector, .extractvalue, .insertvalue,
   .alloca, .load, .store, .atomicrmw, .cmpxchg, .fence,
   .call, .phi]

def name : Op → String
  | .invalid => "invalid"
  | .ret => "ret" | .br => "br" | .condbr => "condbr" | .switch => "switch"
  | .unreachable => "unreachable"
  | .add => "add" | .sub => "sub" | .mul => "mul" | .udiv => "udiv" | .sdiv => "sdiv"
  | .urem => "urem" | .srem => "srem" | .shl => "shl" | .lshr => "lshr" | .ashr => "ashr"
  | .and => "and" | .or => "or" | .xor => "xor"
  | .fadd => "fadd" | .fsub => "fsub" | .fmul => "fmul" | .fdiv => "fdiv" | .frem => "frem"
  | .fneg => "fneg"
  | .trunc => "trunc" | .zext => "zext" | .sext => "sext" | .fptrunc => "fptrunc"
  | .fpext => "fpext" | .fptosi => "fptosi" | .fptoui => "fptoui" | .sitofp => "sitofp"
  | .uitofp => "uitofp" | .ptrtoint => "ptrtoint" | .inttoptr => "inttoptr"
  | .bitcast => "bitcast"
  | .icmp => "icmp" | .fcmp => "fcmp" | .select => "select" | .gep => "gep"
  | .extractelement => "extractelement" | .insertelement => "insertelement"
  | .shufflevector => "shufflevector" | .extractvalue => "extractvalue"
  | .insertvalue => "insertvalue"
  | .alloca => "alloca" | .load => "load" | .store => "store" | .atomicrmw => "atomicrmw"
  | .cmpxchg => "cmpxchg" | .fence => "fence"
  | .call => "call" | .phi => "phi"

def code (op : Op) : Nat := all.idxOf op

def ofCode? (n : Nat) : Option Op := all[n]?

def ofName? (s : String) : Option Op := all.tail.find? (·.name = s)

def codeText (n : Nat) : String :=
  match ofCode? n with
  | some op => op.name
  | none => "op(" ++ toString n ++ ")"

def isTerminator : Op → Bool
  | .ret | .br | .condbr | .switch | .unreachable => true
  | _ => false

def isBinary : Op → Bool
  | .add | .sub | .mul | .udiv | .sdiv | .urem | .srem | .shl | .lshr | .ashr | .and | .or | .xor
  | .fadd | .fsub | .fmul | .fdiv | .frem | .fneg => true
  | _ => false

def isCast : Op → Bool
  | .trunc | .zext | .sext | .fptrunc | .fpext | .fptosi | .fptoui | .sitofp | .uitofp
  | .ptrtoint | .inttoptr | .bitcast => true
  | _ => false

def isCompare : Op → Bool
  | .icmp | .fcmp => true
  | _ => false

def isVectorLane : Op → Bool
  | .extractelement | .insertelement | .shufflevector => true
  | _ => false

def isAggregate : Op → Bool
  | .extractvalue | .insertvalue => true
  | _ => false

/-- The result depends on the operands only, and nothing else happens. -/
def isPure (op : Op) : Bool :=
  op.isBinary || op.isCast || op.isCompare || op == .select || op == .gep || op.isVectorLane ||
    op.isAggregate

def writesMemory : Op → Bool
  | .store | .atomicrmw | .cmpxchg | .fence => true
  | _ => false

end Op

def icmpPreds : List String :=
  ["eq", "ne", "slt", "sle", "sgt", "sge", "ult", "ule", "ugt", "uge"]

inductive MemOrder
  | none | unordered | monotonic | acquire | release | acqRel | seqCst
  deriving DecidableEq, Repr, Inhabited

namespace MemOrder

def all : List MemOrder :=
  [.none, .unordered, .monotonic, .acquire, .release, .acqRel, .seqCst]

/-- A plain access has no name. -/
def name : MemOrder → String
  | .none => ""
  | .unordered => "unordered"
  | .monotonic => "monotonic"
  | .acquire => "acquire"
  | .release => "release"
  | .acqRel => "acq_rel"
  | .seqCst => "seq_cst"

def rank (o : MemOrder) : Nat := all.idxOf o

def ofRank? (n : Nat) : Option MemOrder := all[n]?

def ofName? (s : String) : Option MemOrder := all.tail.find? (·.name = s)

def rankText (n : Nat) : String :=
  match ofRank? n with
  | some o => o.name
  | Option.none => "ordering(" ++ toString n ++ ")"

end MemOrder

end RegPressure
