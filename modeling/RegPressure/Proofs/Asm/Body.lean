import RegPressure.Asm.Parser
import RegPressure.Proofs.Asm.Accepted
import RegPressure.Proofs.Asm.Pending
import RegPressure.Proofs.IR.Placing

namespace RegPressure

namespace Func

/-- A constant, or a reference to something that the function has. A result is referred to by its
name. -/
def Has (s : Symbols) (f : Func) : Value → Prop
  | .arg i => ∃ n : Nat, i = n ∧ n < f.params.length
  | .global i => ∃ n : Nat, i = n ∧ n < s.globals.length
  | .instr id => ∃ i, f.instr? id = some i ∧ i.name ≠ ""
  | _ => True

def Aims (f : Func) (i : Instr) (t : Int) : Prop :=
  ∃ blk, f.block? t = some blk ∧ Grammar.Targetable i.op blk.name

structure Keeps (f g : Func) : Prop where
  params : g.params = f.params
  instr : ∀ id i, f.instr? id = some i → ∃ j, g.instr? id = some j ∧ j.name = i.name
  block : ∀ c blk, f.block? c = some blk → ∃ blk', g.block? c = some blk' ∧ blk'.name = blk.name

structure Headed (f : Func) : Prop where
  name : IsName f.name
  params : ∀ p ∈ f.params, IsName p.name ∧ ∃ u, p.ty = some u ∧ u.Readable
  distinct : (f.params.map (·.name)).Nodup
  ret : f.ret.Readable

variable {s : Symbols} {f g : Func}

theorem Headed.congr (h : f.Headed) (hn : g.name = f.name) (hp : g.params = f.params)
    (hr : g.ret = f.ret) : g.Headed where
  name := hn ▸ h.name
  params := hp ▸ h.params
  distinct := hp ▸ h.distinct
  ret := hr ▸ h.ret

theorem Keeps.has (h : f.Keeps g) {v : Value} (hv : f.Has s v) : g.Has s v := by
  cases v with
  | arg i => simpa only [Func.Has, h.params] using hv
  | instr id =>
    obtain ⟨i, hi, hname⟩ := hv
    obtain ⟨j, hj, hji⟩ := h.instr id i hi
    exact ⟨j, hj, hji ▸ hname⟩
  | _ => exact hv

theorem Keeps.aims (h : f.Keeps g) {i j : Instr} {t : Int} (hop : j.op = i.op)
    (ht : f.Aims i t) : g.Aims j t := by
  obtain ⟨blk, hblk, hname⟩ := ht
  obtain ⟨blk', hblk', he⟩ := h.block t blk hblk
  exact ⟨blk', hblk', by rwa [he, hop]⟩

theorem keeps_setInstr {id : Int} {change : Instr → Instr} (h : ∀ i, (change i).name = i.name) :
    f.Keeps (f.setInstr id change) where
  params := params_setInstr
  instr := by
    intro x i hi
    rw [instr?_setInstr, hi]
    split
    · exact ⟨_, rfl, h i⟩
    · exact ⟨i, rfl, rfl⟩
  block := fun c blk hblk => ⟨blk, by rwa [block?_setInstr], rfl⟩

end Func

/-- Symbols as reading makes them. -/
structure Symbols.Formed (s : Symbols) : Prop where
  globals : ∀ g ∈ s.globals, IsName g.name ∧ ∃ u, g.ty = some u ∧ u.Readable
  distinct : (s.globals.map (·.name)).Nodup
  decls : ∀ d ∈ s.decls, IsName d.name ∧ ∃ u, d.ret = some u ∧ u.Readable
  params : ∀ d ∈ s.decls, ∀ p ∈ d.params, ∃ u, p = some u ∧ u.Readable

namespace Parser

/-- Each operand and target of an instruction is there or listed in `xs` to be looked up, and what
is listed is a reference. -/
structure Referenced (s : Symbols) (f : Func) (xs : List Fixup) : Prop where
  operand : ∀ id i, f.instr? id = some i → ∀ n v, i.operands[n]? = some v →
    f.Has s v ∨ v = .instr (-1) ∧
      ∃ x ∈ xs, x.instr = id ∧ x.ref.isBlock = false ∧ x.ref.index = n
  target : ∀ id i, f.instr? id = some i → ∀ n t, i.targets[n]? = some t →
    f.Aims i t ∨ t = -1 ∧ ∃ x ∈ xs, x.instr = id ∧ x.ref.isBlock = true ∧ x.ref.index = n
  openOperand : ∀ x ∈ xs, x.ref.isBlock = false →
    ∃ i d, f.instr? x.instr = some i ∧ i.operands[x.ref.index]? = some (.instr d)
  openTarget : ∀ x ∈ xs, x.ref.isBlock = true →
    ∃ i, f.instr? x.instr = some i ∧ x.ref.index < i.targets.length ∧
      Grammar.Targetable i.op x.ref.name

structure Called (ns : Names) (f : Func) : Prop where
  ret : ns.ret = f.ret
  params : ns.params = f.params
  locals : ∀ name id, ns.locals.lookup name = some id →
    ∃ i, f.instr? id = some i ∧ i.name = name ∧ name ≠ ""
  unique : ∀ id i, f.instr? id = some i → i.name ≠ "" →
    ns.locals.lookup i.name = some id ∧ ns.param? i.name = none
  blocks : ∀ name c, ns.blocks.lookup name = some c →
    ∃ blk, f.block? c = some blk ∧ blk.name = name

structure Arranged (f : Func) : Prop where
  entry : f.entry = if f.blocks.size = 0 then none else some 0
  edges : ∀ c blk, f.block? c = some blk → blk.succs = [] ∧ blk.preds = []
  order : f.blocks.toList.flatMap (·.instrs) = f.instrIds
  labels : ∀ c blk, f.block? c = some blk → IsWord blk.name

def Stated (tokens : List Token) (i : Instr) (w : Ty) : Prop :=
  ∃ s : Stream, Passes tokens s.rest ∧ i.pos = ⟨s.cur.line, s.cur.column⟩ ∧ Grammar.Writes s w

def Formed (tokens : List Token) (f : Func) : Prop :=
  ∀ id i, f.instr? id = some i →
    ∃ w, i.Formed f.ret w ∧ (i.op.restatesType = true → Stated tokens i w)

structure Body.Sound (tokens : List Token) (b : Body) : Prop where
  headed : b.func.Headed
  arranged : Arranged b.func
  called : Called b.names b.func
  formed : Formed tokens b.func
  references : Referenced b.names.symbols b.func b.fixups
  current : ∀ c, b.current = some c → 0 ≤ c ∧ c + 1 = b.func.blocks.size
  unlabelled : b.errors = [] → ∀ c blk, b.func.block? c = some blk →
    b.names.blocks.lookup blk.name = some c

end Parser

namespace Func

variable {f g : Func} {b : Int} {i j : Instr} {blk : Block} {id : Int}

structure Appends (f g : Func) (b : Int) (i : Instr) : Prop where
  name : g.name = f.name
  params : g.params = f.params
  ret : g.ret = f.ret
  entry : g.entry = f.entry
  instrs : g.instrs = f.instrs.push { i with home := some b }
  blocks : g.blocks = f.blocks.modify b.toNat fun blk =>
    { blk with instrs := blk.instrs ++ [(f.instrs.size : Int)] }

theorem block?_addBlock {name : String} {c : Int} : (f.addBlock name).1.block? c =
    if c = f.blocks.size then some { name } else f.block? c := by
  unfold block?
  by_cases h0 : c < 0
  · rw [if_pos h0, if_pos h0, if_neg (by omega)]
  · rw [if_neg h0, if_neg h0, addBlock, Array.getElem?_push]
    by_cases he : c = f.blocks.size
    · rw [if_pos he, if_pos (by omega)]
    · rw [if_neg he, if_neg (by omega)]

theorem block?_addBlock_of_some {name : String} {c : Int} (h : f.block? c = some blk) :
    (f.addBlock name).1.block? c = some blk := by
  rw [block?_addBlock, if_neg, h]
  rintro rfl
  simp [block?] at h

theorem keeps_addBlock (name : String) : f.Keeps (f.addBlock name).1 where
  params := rfl
  instr := fun _ i hi => ⟨i, hi, rfl⟩
  block := fun _ blk hblk => ⟨blk, block?_addBlock_of_some hblk, rfl⟩

theorem exists_append (h : f.block? b = some blk) :
    ∃ g, f.append b i = .ok (g, f.instrs.size) ∧ f.Appends g b i := by
  have hb : ¬b < 0 := by
    intro hb
    simp [block?, hb] at h
  refine ⟨_, by simp [append, insertAt, block_eq_ok.mpr h]; rfl, ?_⟩
  refine ⟨by simp, by simp, ?_, by simp, ?_, ?_⟩
  all_goals simp only [setBlock, if_neg hb]
  simp only [block?, if_neg hb] at h
  refine Array.ext_getElem? fun n => ?_
  rw [Array.getElem?_modify, Array.getElem?_modify]
  split
  · next hn =>
    subst hn
    rw [h]
    have := insertIdx_append blk.instrs [] f.instrs.size
    rw [List.append_nil] at this
    rw [Option.map_some, Option.map_some, this]
  · rfl

namespace Appends

variable (h : f.Appends g b i)

include h

theorem instr? : g.instr? id =
    if id = f.instrs.size then some { i with home := some b } else f.instr? id := by
  rw [← instr?_push, Func.instr?, Func.instr?, h.instrs]

theorem instr?_self : g.instr? f.instrs.size = some { i with home := some b } := by
  rw [h.instr?, if_pos rfl]

theorem instr?_of_some (hi : f.instr? id = some j) : g.instr? id = some j := by
  rw [h.instr?, if_neg, hi]
  rintro rfl
  simp [Func.instr?] at hi

theorem block? {c : Int} : g.block? c = if b.toNat = c.toNat then (f.block? c).map fun blk =>
    { blk with instrs := blk.instrs ++ [(f.instrs.size : Int)] } else f.block? c := by
  simp only [Func.block?, h.blocks, Array.getElem?_modify]
  split <;> split <;> rfl

theorem block?_of_some {c : Int} (hc : f.block? c = some blk) :
    ∃ blk', g.block? c = some blk' ∧ blk'.name = blk.name ∧ blk'.succs = blk.succs ∧
      blk'.preds = blk.preds := by
  rw [h.block?, hc]
  split
  · exact ⟨_, rfl, rfl, rfl, rfl⟩
  · exact ⟨_, rfl, rfl, rfl, rfl⟩

theorem some_of_block? {c : Int} {blk' : Block} (hc : g.block? c = some blk') :
    ∃ blk, f.block? c = some blk ∧ blk'.name = blk.name ∧ blk'.succs = blk.succs ∧
      blk'.preds = blk.preds := by
  rw [h.block?] at hc
  split at hc
  · obtain ⟨blk, hblk, rfl⟩ := Option.map_eq_some_iff.mp hc
    exact ⟨blk, hblk, rfl, rfl, rfl⟩
  · exact ⟨blk', hc, rfl, rfl, rfl⟩

theorem keeps : f.Keeps g where
  params := h.params
  instr := fun _ j hj => ⟨j, h.instr?_of_some hj, rfl⟩
  block := fun _ _ hblk => (h.block?_of_some hblk).imp fun _ hb => ⟨hb.1, hb.2.1⟩

theorem flatMap_instrs (h0 : 0 ≤ b) (hb : b + 1 = f.blocks.size) : g.blocks.toList.flatMap (·.instrs) =
    f.blocks.toList.flatMap (·.instrs) ++ [(f.instrs.size : Int)] := by
  have hn : b.toNat < f.blocks.toList.length := by
    rw [Array.length_toList]
    omega
  have hdrop : f.blocks.toList.drop (b.toNat + 1) = [] :=
    List.drop_eq_nil_of_le (by rw [Array.length_toList]; omega)
  have hsplit := List.take_append_drop b.toNat f.blocks.toList
  rw [List.drop_eq_getElem_cons hn, hdrop] at hsplit
  rw [h.blocks, Array.toList_modify, List.modify_eq_take_cons_drop hn, hdrop]
  conv_rhs => rw [← hsplit]
  simp only [List.flatMap_append, List.flatMap_cons, List.flatMap_nil, List.append_nil,
    List.append_assoc]

end Appends

end Func

namespace Parser

variable {tokens : List Token} {ns : Names} {P : String → Prop} {d : Draft} {b : Body} {f g : Func}
  {s : Symbols} {xs : List Fixup}

theorem Called.has (h : Called ns f) {v : Value} (hv : ns.Knows v) : f.Has ns.symbols v := by
  cases v with
  | arg i =>
    obtain ⟨n, rfl, hn⟩ := hv
    exact ⟨n, rfl, h.params ▸ hn⟩
  | instr id =>
    obtain ⟨name, hl⟩ := hv
    obtain ⟨i, hi, rfl, hne⟩ := h.locals name id hl
    exact ⟨i, hi, hne⟩
  | _ => exact hv

theorem Referenced.append (h : Referenced s f xs) {b : Int} (hg : f.Appends g b d.instr)
    (hns : ns.symbols = s) (hc : Called ns f) (hd : d.Sound ns (Grammar.Targetable d.instr.op)) :
    Referenced s g (xs ++ d.pending.map (⟨(f.instrs.size : Int), ·⟩)) where
  operand := by
    intro id i hi n v hv
    rw [hg.instr?] at hi
    split at hi
    · next hid =>
      cases hi
      rcases hd.operand n v hv with hk | ⟨rfl, x, hx, hxb, rfl⟩
      · exact .inl (hg.keeps.has (hns ▸ hc.has hk))
      · exact .inr ⟨rfl, _, List.mem_append_right _ (List.mem_map_of_mem hx), hid.symm, hxb, rfl⟩
    · rcases h.operand id i hi n v hv with hk | ⟨rfl, x, hx, hxb⟩
      · exact .inl (hg.keeps.has hk)
      · exact .inr ⟨rfl, x, List.mem_append_left _ hx, hxb⟩
  target := by
    intro id i hi n t ht
    rw [hg.instr?] at hi
    split at hi
    · next hid =>
      cases hi
      rcases hd.target n t ht with ⟨name, hP, hl⟩ | ⟨rfl, x, hx, hxb, rfl⟩
      · obtain ⟨blk, hblk, rfl⟩ := hc.blocks name t hl
        exact .inl (hg.keeps.aims rfl ⟨blk, hblk, hP⟩)
      · exact .inr ⟨rfl, _, List.mem_append_right _ (List.mem_map_of_mem hx), hid.symm, hxb, rfl⟩
    · rcases h.target id i hi n t ht with hk | ⟨rfl, x, hx, hxb⟩
      · exact .inl (hg.keeps.aims rfl hk)
      · exact .inr ⟨rfl, x, List.mem_append_left _ hx, hxb⟩
  openOperand := by
    intro x hx hb
    rcases List.mem_append.mp hx with hx | hx
    · obtain ⟨i, d, hi, ho⟩ := h.openOperand x hx hb
      exact ⟨i, d, hg.instr?_of_some hi, ho⟩
    · obtain ⟨y, hy, rfl⟩ := List.mem_map.mp hx
      exact ⟨_, _, hg.instr?_self, hd.openOperand y hy hb⟩
  openTarget := by
    intro x hx hb
    rcases List.mem_append.mp hx with hx | hx
    · obtain ⟨i, hi, ho⟩ := h.openTarget x hx hb
      exact ⟨i, hg.instr?_of_some hi, ho⟩
    · obtain ⟨y, hy, rfl⟩ := List.mem_map.mp hx
      obtain ⟨ht, hP⟩ := hd.openTarget y hy hb
      exact ⟨_, hg.instr?_self, (List.getElem?_eq_some_iff.mp ht).1, hP⟩

theorem Arranged.append (h : Arranged f) {b : Int} {i : Instr} (hg : f.Appends g b i) (h0 : 0 ≤ b)
    (hb : b + 1 = f.blocks.size) : Arranged g where
  entry := by rw [hg.entry, h.entry, hg.blocks, Array.size_modify]
  edges := by
    intro c blk hc
    obtain ⟨blk', hblk', -, hs, hp⟩ := hg.some_of_block? hc
    rw [hs, hp]
    exact h.edges c blk' hblk'
  order := by
    rw [hg.flatMap_instrs h0 hb, h.order, Func.instrIds, Func.instrIds, hg.instrs,
      Array.size_push, List.range_succ, List.map_append]
    rfl
  labels := by
    intro c blk hc
    obtain ⟨blk', hblk', hn, -⟩ := hg.some_of_block? hc
    exact hn ▸ h.labels c blk' hblk'

theorem Called.append (h : Called ns f) {b : Int} {i : Instr} (hg : f.Appends g b i)
    (hname : i.name ≠ "" → ns.locals.lookup i.name = none ∧ ns.param? i.name = none) :
    Called { ns with locals := if i.name = "" then ns.locals
                               else (i.name, (f.instrs.size : Int)) :: ns.locals } g where
  ret := h.ret.trans hg.ret.symm
  params := h.params.trans hg.params.symm
  locals := by
    intro name id hl
    by_cases hi : i.name = ""
    · simp only [hi, if_true] at hl
      obtain ⟨j, hj, hn⟩ := h.locals name id hl
      exact ⟨j, hg.instr?_of_some hj, hn⟩
    · simp only [if_neg hi, List.lookup_cons] at hl
      split at hl
      · next he =>
        cases hl
        exact ⟨_, hg.instr?_self, (beq_iff_eq.mp he).symm, beq_iff_eq.mp he ▸ hi⟩
      · obtain ⟨j, hj, hn⟩ := h.locals name id hl
        exact ⟨j, hg.instr?_of_some hj, hn⟩
  unique := by
    intro id j hj hne
    rw [hg.instr?] at hj
    split at hj
    · next hid =>
      cases hj
      exact ⟨by simp [if_neg hne, hid], (hname hne).2⟩
    · obtain ⟨hl, hp⟩ := h.unique id j hj hne
      refine ⟨?_, hp⟩
      dsimp only
      split
      · exact hl
      · next hi =>
        have hne : j.name ≠ i.name := by
          intro he
          rw [he, (hname hi).1] at hl
          cases hl
        rw [List.lookup_cons, beq_false_of_ne hne]
        exact hl
  blocks := by
    intro name c hc
    obtain ⟨blk, hblk, rfl⟩ := h.blocks name c hc
    exact (hg.block?_of_some hblk).imp fun _ hb => ⟨hb.1, hb.2.1⟩

theorem Formed.append (h : Formed tokens f) {b : Int} {i : Instr} {w : Ty} (hg : f.Appends g b i)
    (hi : i.Formed f.ret w) (hw : i.op.restatesType = true → Stated tokens i w) :
    Formed tokens g := by
  intro id j hj
  rw [hg.instr?] at hj
  rw [hg.ret]
  split at hj
  · cases hj
    exact ⟨w, ⟨hi.layout, hi.ty, hi.elem, hi.pred, hi.rmw, hi.callee, hi.name, hi.noAlias, hi.written⟩,
      hw⟩
  · exact h id j hj

theorem Arranged.addBlock {name : String} (h : Arranged f) (hw : IsWord name) :
    Arranged (f.addBlock name).1 where
  entry := by
    change (f.entry <|> some (f.blocks.size : Int)) = if (f.blocks.push _).size = 0 then none else _
    rw [h.entry, Array.size_push, if_neg (Nat.succ_ne_zero _)]
    split
    · next hz => simp [hz]
    · rfl
  edges := by
    intro c blk hc
    rw [Func.block?_addBlock] at hc
    split at hc
    · cases hc
      exact ⟨rfl, rfl⟩
    · exact h.edges c blk hc
  order := by
    change (f.blocks.push { name }).toList.flatMap (·.instrs) = f.instrIds
    rw [Array.toList_push, List.flatMap_append, h.order]
    simp
  labels := by
    intro c blk hc
    rw [Func.block?_addBlock] at hc
    split at hc
    · cases hc
      exact hw
    · exact h.labels c blk hc

theorem Called.addBlock {name : String} (h : Called ns f) :
    Called { ns with blocks := (name, (f.blocks.size : Int)) :: ns.blocks } (f.addBlock name).1 where
  ret := h.ret
  params := h.params
  locals := h.locals
  unique := h.unique
  blocks := by
    intro w c hc
    rw [List.lookup_cons] at hc
    split at hc
    · next he =>
      cases hc
      exact ⟨{ name }, by rw [Func.block?_addBlock, if_pos rfl], (beq_iff_eq.mp he).symm⟩
    · obtain ⟨blk, hblk, hn⟩ := h.blocks w c hc
      exact ⟨blk, Func.block?_addBlock_of_some hblk, hn⟩

theorem Referenced.keep (h : Referenced s f xs) (hk : f.Keeps g)
    (hi : ∀ id, g.instr? id = f.instr? id) : Referenced s g xs where
  operand := fun id i hid n v hv => (h.operand id i (hi id ▸ hid) n v hv).imp_left hk.has
  target := fun id i hid n t ht => (h.target id i (hi id ▸ hid) n t ht).imp_left (hk.aims rfl)
  openOperand := fun x hx hb => by simpa only [hi] using h.openOperand x hx hb
  openTarget := fun x hx hb => by simpa only [hi] using h.openTarget x hx hb

namespace Body

variable {c : Body} {t : Stream} {x : Token}

theorem Sound.report (h : b.Sound tokens) (e : Located) : (b.report e).Sound tokens where
  headed := h.headed
  arranged := h.arranged
  called := h.called
  formed := h.formed
  references := h.references
  current := h.current
  unlabelled := fun he => by simp [Body.report] at he

def opened (b : Body) (name : String) : Body :=
  { b with func := (b.func.addBlock name).1, current := some b.func.blocks.size,
           names := { b.names with blocks := (name, (b.func.blocks.size : Int)) :: b.names.blocks } }

theorem label_eq (b : Body) (x : Token) : b.label x =
    (if (b.names.blocks.lookup x.word).isSome then
      b.report ((SourceError.blockRedefined x.word).atToken x) else b).opened x.word := by
  unfold label
  split <;> rfl

theorem Sound.opened {name : String} (h : b.Sound tokens) (hw : IsWord name)
    (hnew : b.errors = [] → b.names.blocks.lookup name = none) : (b.opened name).Sound tokens where
  headed := h.headed.congr rfl rfl rfl
  arranged := h.arranged.addBlock hw
  called := h.called.addBlock
  formed := h.formed
  references := h.references.keep (Func.keeps_addBlock name) fun _ => rfl
  current := by
    rintro _ ⟨⟩
    refine ⟨Int.natCast_nonneg _, ?_⟩
    simp [Body.opened, Func.addBlock]
  unlabelled := by
    intro he c blk hc
    change (b.func.addBlock name).1.block? c = some blk at hc
    rw [Func.block?_addBlock] at hc
    change List.lookup blk.name ((name, (b.func.blocks.size : Int)) :: b.names.blocks) = some c
    rw [List.lookup_cons]
    split at hc
    · next hid =>
      cases hc
      simp [hid]
    · have hl := h.unlabelled he c blk hc
      have hne : blk.name ≠ name := by
        rintro rfl
        rw [hnew he] at hl
        cases hl
      rw [beq_false_of_ne hne]
      exact hl

theorem Sound.label (h : b.Sound tokens) (hw : IsWord x.word) : (b.label x).Sound tokens := by
  rw [label_eq]
  split
  · exact (h.report _).opened hw fun he => by simp [Body.report] at he
  · next hl => exact h.opened hw fun _ => Option.not_isSome_iff_eq_none.mp hl

theorem Sound.push (h : b.Sound tokens) {n : Int} (hn : b.current = some n) {w : Ty}
    (hd : d.Sound b.names (Grammar.Targetable d.instr.op)) (hi : d.instr.Formed b.names.ret w)
    (hw : d.instr.op.restatesType = true → Stated tokens d.instr w)
    (hfresh : d.instr.name ≠ "" → b.names.locals.lookup d.instr.name = none ∧
      b.names.param? d.instr.name = none) : ∃ c, b.push d = .ok c ∧ c.Sound tokens := by
  obtain ⟨h0, hlast⟩ := h.current n hn
  obtain ⟨blk, hblk⟩ : ∃ blk, b.func.block? n = some blk := by
    rw [Func.block?, if_neg (by omega)]
    exact ⟨_, Array.getElem?_eq_getElem (by omega)⟩
  obtain ⟨g, hg, happ⟩ := Func.exists_append (i := d.instr) hblk
  refine ⟨_, by simp only [Body.push, hn, Option.getD_some, hg]; rfl, ?_⟩
  exact {
    headed := h.headed.congr happ.name happ.params happ.ret
    arranged := h.arranged.append happ h0 hlast
    called := h.called.append happ hfresh
    formed := h.formed.append happ (h.called.ret ▸ hi) hw
    references := h.references.append happ rfl h.called hd
    current := fun c hc => by
      rw [happ.blocks, Array.size_modify]
      exact h.current c (hn.trans hc)
    unlabelled := fun he c blk' hc => by
      obtain ⟨blk, hblk, hname, -⟩ := happ.some_of_block? hc
      rw [hname]
      exact h.unlabelled he c blk hblk }

variable (hproper : ∀ x ∈ tokens, x.Proper)

include hproper

/-- Reading goes on behind what one step has read or passed. -/
theorem Sound.step (h : b.Sound tokens) (hsym : b.names.symbols.Formed)
    (ht : Passes tokens t.rest) (hmore : t.atEnd = false) : ∃ c u, b.step t = .ok (c, u) ∧
      c.Sound tokens ∧ Passes t.rest u.rest ∧ u.rest.length < t.rest.length := by
  have hproper' : ∀ x ∈ t.rest, x.Proper := fun x hx => hproper x (ht.suffix.subset hx)
  have hforward : (Grammar.instruction b.names b.current.isSome).Forward (t.rest.length + 1) :=
    Grammar.forward_instruction
  rcases hforward.attempt with ⟨d, u, hr, hattempt⟩ | ⟨e, u, hr, hattempt⟩
  · obtain ⟨w, hi, hw, hat⟩ := Grammar.formed_of_reads hproper' hsym.params hr
    have hd := Grammar.sound_of_reads hproper' hsym.params hr
    obtain ⟨n, hn⟩ : ∃ n, b.current = some n := by
      obtain ⟨-, -, -, hin, -⟩ := Grammar.reads_operation.mp (Grammar.reads_instruction.mp hr)
      exact Option.isSome_iff_exists.mp hin
    obtain ⟨c, hc, hsound⟩ := h.push hn hd hi (fun hr => ⟨t, ht, hat.pos, hw hr⟩)
      fun hname => Grammar.fresh_of_reads hat hname hr
    refine ⟨c, u, by simp only [Body.step, hattempt, Checked.ok_bind, hc]; rfl, hsound,
      (Grammar.forward_instruction (n := 0)).ok hr, ?_⟩
    exact Grammar.length_lt_of_reads_instruction hr
  · refine ⟨b.report e, _, by simp only [Body.step, hattempt]; rfl, h.report e, ?_⟩
    have hpass := (Grammar.forward_instruction (n := 0)).error hr
    split
    · next hlen =>
      have heq := (hpass.suffix.eq_of_length hlen)
      have hadv := Stream.length_advance (s := u) (by rwa [Stream.atEnd_of_rest_eq heq])
      have hline := u.advance.passes_passLine
      refine ⟨hpass.trans (u.passes_advance.trans hline), ?_⟩
      have := hline.length_le
      omega
    · next hlen =>
      have hline := u.passes_passLine
      refine ⟨hpass.trans hline, ?_⟩
      have := hline.length_le
      have := hpass.length_le
      omega

/-- The body of a function is read up to a closing brace or to the end of the text. -/
theorem Sound.body (n : Nat) (h : b.Sound tokens) (hsym : b.names.symbols.Formed)
    (ht : Passes tokens t.rest) (hn : t.rest.length < n) : ∃ c u, body n b t = .ok (c, u) ∧
      c.Sound tokens ∧ Passes t.rest u.rest ∧ (u.sees .rbrace || u.atEnd) = true := by
  induction n generalizing b t with
  | zero => exact absurd hn (Nat.not_lt_zero _)
  | succ n ih =>
    unfold Parser.body
    split
    · next hstop => exact ⟨b, t, rfl, h, .refl _, hstop⟩
    · next hgo =>
      have hmore : t.atEnd = false := by simp at hgo; exact hgo.2
      have hlen := Stream.length_advance hmore
      split
      · next hlabel =>
        simp only [Bool.and_eq_true, Stream.sees, decide_eq_true_eq] at hlabel
        have hword := hproper _ (ht.suffix.subset (Grammar.cur_mem (by simp [hlabel.1])))
        have hpass := t.passes_advance.trans t.advance.passes_advance
        obtain ⟨c, u, hc, hs, hu, hstop⟩ := ih (h.label (hword.isWord hlabel.1))
          (by rwa [show (b.label t.cur).names.symbols = _ from congrArg (·.2) (label_title b t.cur)]) (ht.trans hpass) (by
            have := t.advance.passes_advance.length_le
            omega)
        exact ⟨c, u, hc, hs, hpass.trans hu, hstop⟩
      · obtain ⟨c, u, hc, hs, hu, hlt⟩ := h.step hproper hsym ht hmore
        have hsym' : c.names.symbols = b.names.symbols := congrArg (·.2) (step_title hc)
        obtain ⟨c', u', hc', hs', hu', hstop⟩ := ih hs (hsym' ▸ hsym) (ht.trans hu) (by omega)
        exact ⟨c', u', Checked.bind_eq_ok.mpr ⟨_, hc, hc'⟩, hs',
          hu.trans hu', hstop⟩

end Body

end Parser

end RegPressure
