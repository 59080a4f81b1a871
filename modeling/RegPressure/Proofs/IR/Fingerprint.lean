import RegPressure.IR.Fingerprint
import RegPressure.Proofs.Asm.Total
import RegPressure.Proofs.IR.TypeTexts
import RegPressure.Proofs.Number.Texts
import RegPressure.Proofs.Text.Quotes

namespace RegPressure

open Bytes (ofString ofNat ofInt Numeral)

variable {x y : Bytes}

theorem breaks_blank (x : Bytes) : Breaks Numeral (32 :: x) := breaks_cons (by decide)

theorem breaks_line (x : Bytes) : Breaks Numeral (10 :: x) := breaks_cons (by decide)

theorem blank_not_mem {s : String} (h : ' ' ∉ s.toList) : 32 ∉ ofString s := fun hb =>
  h (Bytes.mem_of_mem_ofString (d := ' ') (by decide) hb)

theorem IsName.blank_not_mem {w : String} (h : IsName w) : 32 ∉ ofString w := by
  obtain ⟨bs, hbs, rfl⟩ := h
  rw [hbs.ofString_toText]
  exact fun hb => absurd (hbs.2 32 hb) (by decide)

/-! ### Operands -/

namespace Value

def Determined : Value → Prop
  | .int t _ | .undef t => t.isSome = true
  | .float t x => t.isSome = true ∧ x.isNaN = false
  | _ => True

variable {v w : Value}

theorem fingerprint_append (v : Value) (x : Bytes) : v.fingerprint ++ x =
    32 :: 32 :: (ofNat v.parts.kind ++ 32 :: (ofInt v.parts.index ++ 32 :: (ofNat v.parts.const ++
      32 :: (ofInt v.parts.int ++ 32 :: (ofString v.parts.float.text ++
        32 :: (ofString (Text.quoteBytes v.parts.str) ++
          32 :: (Ty.octets (v.parts.ty.getD .void) ++ 10 :: x))))))) := by
  change (ofString "  " ++ ((ofString " ").intercalate _ ++ ofString "\n")) ++ x = _
  simp only [List.intercalate_cons_cons, List.intercalate_singleton, List.append_assoc]
  rfl

theorem Determined.isNaN_float (h : v.Determined) : v.parts.float.isNaN = false := by
  have hzero : Binary64.zero.isNaN = false := by decide
  cases v with
  | float t x => exact h.2
  | _ => exact hzero

theorem getD_inj {t u : Option Ty} (ht : t.isSome = true) (hu : u.isSome = true)
    (h : t.getD .void = u.getD .void) : t = u := by
  obtain ⟨t, rfl⟩ := Option.isSome_iff_exists.mp ht
  obtain ⟨u, rfl⟩ := Option.isSome_iff_exists.mp hu
  exact congrArg some h

theorem eq_of_parts (hv : v.Determined) (hw : w.Determined) (hkind : v.parts.kind = w.parts.kind)
    (hindex : v.parts.index = w.parts.index) (hconst : v.parts.const = w.parts.const)
    (hint : v.parts.int = w.parts.int) (hfloat : v.parts.float = w.parts.float)
    (hstr : v.parts.str = w.parts.str) (hty : v.parts.ty.getD .void = w.parts.ty.getD .void) : v = w := by
  -- The kind and the sort of constant tell the constructor.
  have hsort : (v.parts.kind, v.parts.const) = (w.parts.kind, w.parts.const) := Prod.ext hkind hconst
  cases v with
  | int t n =>
    cases w with
    | int u m => rw [getD_inj hv hw hty, Int64.toInt_inj.mp hint]
    | _ => cases hsort
  | float t a =>
    cases w with
    | float u b => rw [getD_inj hv.1 hw.1 hty, show a = b from hfloat]
    | _ => cases hsort
  | null =>
    cases w with
    | null => rfl
    | _ => cases hsort
  | undef t =>
    cases w with
    | undef u => rw [getD_inj hv hw hty]
    | _ => cases hsort
  | str s =>
    cases w with
    | str s' => exact congrArg Value.str hstr
    | _ => cases hsort
  | arg i =>
    cases w with
    | arg j => exact congrArg Value.arg hindex
    | _ => cases hsort
  | global i =>
    cases w with
    | global j => exact congrArg Value.global hindex
    | _ => cases hsort
  | instr i =>
    cases w with
    | instr j => exact congrArg Value.instr hindex
    | _ => cases hsort

theorem read_fingerprint (hv : v.Determined) (hw : w.Determined)
    (h : v.fingerprint ++ x = w.fingerprint ++ y) : v = w ∧ x = y := by
  rw [fingerprint_append, fingerprint_append] at h
  simp only [List.cons.injEq, true_and] at h
  obtain ⟨hkind, h⟩ := Bytes.ofNat_append_inj (breaks_blank _) (breaks_blank _) h
  obtain ⟨hindex, h⟩ := Bytes.ofInt_append_inj (breaks_blank _) (breaks_blank _) (List.cons.inj h).2
  obtain ⟨hconst, h⟩ := Bytes.ofNat_append_inj (breaks_blank _) (breaks_blank _) (List.cons.inj h).2
  obtain ⟨hint, h⟩ := Bytes.ofInt_append_inj (breaks_blank _) (breaks_blank _) (List.cons.inj h).2
  obtain ⟨htext, h⟩ := append_mark_inj (blank_not_mem (Binary64.text_chars hv.isNaN_float))
    (blank_not_mem (Binary64.text_chars hw.isNaN_float)) (List.cons.inj h).2
  obtain ⟨hstr, h⟩ := Text.quoteBytes_append_inj h
  obtain ⟨hty, h⟩ := Ty.read_octets _ _ _ _ (breaks_line _) (breaks_line _) (List.cons.inj h).2
  have hfloat := Binary64.text_inj hv.isNaN_float hw.isNaN_float (Bytes.ofString_inj htext)
  exact ⟨eq_of_parts hv hw hkind hindex hconst hint hfloat hstr hty, (List.cons.inj h).2⟩

theorem legible_fingerprint : Legible (fun _ => Value.fingerprint) id Determined (· = 32)
    (fun _ => True) where
  start _ v _ := ⟨32, _, (List.append_nil _).symm.trans (fingerprint_append v []), rfl⟩
  follow _ _ _ := trivial
  read _ _ _ _ _ hv hw _ _ h := read_fingerprint hv hw h

end Value

/-! ### Lists, flags and metadata -/

def idOctets (ids : List Int) : Bytes := 91 :: (List.intercalate [32] (ids.map ofInt) ++ [93])

theorem read_ids {is js : List Int} (h : idOctets is ++ x = idOctets js ++ y) : is = js ∧ x = y := by
  have hword : ∀ ids : List Int, ∀ w ∈ ids.map ofInt, w ≠ [] ∧ 32 ∉ w := by
    intro ids w hw
    obtain ⟨k, -, rfl⟩ := List.mem_map.mp hw
    exact ⟨Bytes.ofInt_ne_nil k, fun hb => absurd (Bytes.numeral_of_mem hb) (by decide)⟩
  have hclose : ∀ ids : List Int, 93 ∉ List.intercalate [32] (ids.map ofInt) := by
    intro ids hb
    rcases Bytes.mem_intercalate hb with hb | ⟨w, hw, hb⟩
    · exact absurd hb (by decide)
    · obtain ⟨k, -, rfl⟩ := List.mem_map.mp hw
      exact absurd (Bytes.numeral_of_mem hb) (by decide)
  simp only [idOctets, List.cons_append, List.append_assoc, List.cons.injEq, true_and] at h
  obtain ⟨hids, hxy⟩ := append_mark_inj (hclose is) (hclose js) h
  have hinj : Function.Injective ofInt := fun _ _ he => toString_int_inj (Bytes.ofString_inj he)
  exact ⟨List.map_injective_iff.mpr hinj (Bytes.intercalate_inj (hword is) (hword js) hids), hxy⟩

def flagOctets (b : Bool) : Bytes := ofString (if b then "true" else "false")

theorem blank_not_mem_flag (b : Bool) : 32 ∉ flagOctets b := by
  cases b <;> decide

theorem flagOctets_inj {a b : Bool} (h : flagOctets a = flagOctets b) : a = b := by
  revert a b
  decide

namespace AccessMeta

/-- No text of the metadata has a blank. -/
structure Spaceless (m : AccessMeta) : Prop where
  tbaa : 32 ∉ m.tbaa
  scope : 32 ∉ m.scope
  noAlias : ∀ s ∈ m.noAlias, 32 ∉ s

variable {m n : AccessMeta}

def lastWord (m : AccessMeta) : Bytes := ofString "Invariant:" ++ (flagOctets m.invariant ++ [125, 10])

theorem fingerprint_append (m : AccessMeta) (x : Bytes) : m.fingerprint ++ 10 :: 32 :: 32 :: x =
    ofString "\x7bTBAA:" ++ (m.tbaa ++ 32 :: (ofString "Scope:" ++ (m.scope ++
      32 :: (ofString "NoAlias:[" ++ (List.intercalate [32] m.noAlias ++ [93] ++ 32 :: (m.lastWord ++
        32 :: 32 :: x)))))) := by
  change (ofString "\x7bTBAA:" ++ m.tbaa ++ ofString " Scope:" ++ m.scope ++ ofString " NoAlias:" ++
    (ofString "[" ++ (ofString " ").intercalate m.noAlias ++ ofString "]") ++ ofString " Invariant:" ++
    flagOctets m.invariant ++ ofString "\x7d") ++ 10 :: 32 :: 32 :: x = _
  simp only [lastWord, List.append_assoc]
  rfl

theorem read_noAlias {as bs : List Bytes} {v w : Bytes} (has : ∀ s ∈ as, s ≠ [] ∧ 32 ∉ s)
    (hbs : ∀ s ∈ bs, s ≠ [] ∧ 32 ∉ s) (hv : v ≠ [] ∧ 32 ∉ v) (hw : w ≠ [] ∧ 32 ∉ w)
    (h : List.intercalate [32] as ++ [93] ++ 32 :: (v ++ 32 :: 32 :: x) =
      List.intercalate [32] bs ++ [93] ++ 32 :: (w ++ 32 :: 32 :: y)) : as = bs ∧ v = w ∧ x = y := by
  have hsplit : ∀ {cs : List Bytes} {u z : Bytes}, 32 ∉ u →
      Bytes.split 32 (List.intercalate [32] cs ++ [93] ++ 32 :: (u ++ 32 :: 32 :: z)) =
        (Bytes.split 32 (List.intercalate [32] cs ++ [93]) ++ [u]) ++ [] :: Bytes.split 32 z := by
    intro cs u z hu
    rw [Bytes.split_append_split, Bytes.split_append hu, Bytes.split_cons, if_pos rfl, List.append_assoc]
    rfl
  have hfull : ∀ {cs : List Bytes} {u : Bytes}, (∀ s ∈ cs, s ≠ [] ∧ 32 ∉ s) → u ≠ [] ∧ 32 ∉ u →
      [] ∉ Bytes.split 32 (List.intercalate [32] cs ++ [93]) ++ [u] := by
    intro cs u hcs hu hmem
    rcases List.mem_append.mp hmem with hmem | hmem
    · exact Bytes.nil_not_mem_split_intercalate hcs (by decide) hmem
    · exact hu.1 (List.mem_singleton.mp hmem).symm
  have hwords := congrArg (Bytes.split 32) h
  rw [hsplit hv.2, hsplit hw.2] at hwords
  obtain ⟨hfront, hrest⟩ := append_mark_inj (hfull has hv) (hfull hbs hw) hwords
  obtain ⟨hlist, hlast⟩ := List.append_inj' hfront rfl
  exact ⟨Bytes.intercalate_inj has hbs (List.append_cancel_right (Bytes.split_inj hlist)),
    (List.cons.inj hlast).1, Bytes.split_inj hrest⟩

theorem read_fingerprint (hm : m.Spaceless) (hn : n.Spaceless) (hme : [] ∉ m.noAlias)
    (hne : [] ∉ n.noAlias) (h : m.fingerprint ++ 10 :: 32 :: 32 :: x = n.fingerprint ++ 10 :: 32 :: 32 :: y) :
    m = n ∧ x = y := by
  have hitem : ∀ {m : AccessMeta}, m.Spaceless → [] ∉ m.noAlias → ∀ s ∈ m.noAlias, s ≠ [] ∧ 32 ∉ s :=
    fun hm he s hs => ⟨fun hs' => he (hs' ▸ hs), hm.noAlias s hs⟩
  have hlast : ∀ m : AccessMeta, m.lastWord ≠ [] ∧ 32 ∉ m.lastWord := by
    intro m
    have hstart : 32 ∉ ofString "Invariant:" := by decide
    have hend : (32 : UInt8) ∉ [125, 10] := by decide
    refine ⟨fun he => absurd (List.append_eq_nil_iff.mp he).1 (by decide), fun hb => ?_⟩
    rw [lastWord, List.mem_append, List.mem_append] at hb
    exact hb.elim hstart fun hb => hb.elim (blank_not_mem_flag m.invariant) hend
  rw [fingerprint_append, fingerprint_append] at h
  obtain ⟨htbaa, h⟩ := append_mark_inj hm.tbaa hn.tbaa (List.append_cancel_left h)
  obtain ⟨hscope, h⟩ := append_mark_inj hm.scope hn.scope (List.append_cancel_left h)
  obtain ⟨hlist, hword, hxy⟩ := read_noAlias (hitem hm hme) (hitem hn hne) (hlast m) (hlast n)
    (List.append_cancel_left h)
  have hflag : m.invariant = n.invariant :=
    flagOctets_inj (List.append_cancel_right (List.append_cancel_left hword))
  refine ⟨?_, hxy⟩
  change AccessMeta.mk m.tbaa m.scope m.noAlias m.invariant = n
  rw [htbaa, hscope, hlist, hflag]

end AccessMeta

/-! ### Instructions and blocks -/

theorem Op.name_inj {p q : Op} (h : ofString p.name = ofString q.name) : p = q := by
  have hall : ∀ p ∈ Op.all, ∀ q ∈ Op.all, p.name = q.name → p = q := by decide +kernel
  have hmem : ∀ p : Op, p ∈ Op.all := fun p => by cases p <;> decide
  exact hall p (hmem p) q (hmem q) (Bytes.ofString_inj h)

theorem Op.blank_not_mem_name (p : Op) : 32 ∉ ofString p.name := by
  cases p <;> decide

theorem MemOrder.rank_inj {p q : MemOrder} (h : p.rank = q.rank) : p = q := by
  cases p <;> cases q <;> first | rfl | cases h

namespace Instr

/-- What the fingerprint tells of an instruction: all but its place in the source. -/
def content (i : Instr) : Instr := { i with pos := {} }

structure Determined (i : Instr) : Prop where
  home : i.home.isSome = true
  name : 32 ∉ ofString i.name
  pred : 32 ∉ ofString i.pred
  rmw : 32 ∉ ofString i.rmw
  callee : 32 ∉ ofString i.callee
  elem : i.elem.isSome = i.op.hasElem
  operands : ∀ v ∈ i.operands, v.Determined
  spaceless : i.access.Spaceless
  noAlias : [] ∉ i.access.noAlias

variable {i j : Instr}

theorem fingerprint_append (id : Int) (i : Instr) (x : Bytes) : i.fingerprint id ++ x =
    105 :: (ofInt id ++ 32 :: 98 :: (ofInt (i.home.getD (-1)) ++ 32 :: (ofString i.op.name ++
      32 :: (Ty.octets i.ty ++ 32 :: (ofString i.name ++ 32 :: (idOctets i.targets ++
        32 :: (ofString i.pred ++ 32 :: (ofString i.rmw ++ 32 :: (ofString i.callee ++
          32 :: (flagOctets i.volatile ++ 32 :: (ofNat i.ordering.rank ++ 32 :: (flagOctets i.checked ++
            32 :: (i.access.fingerprint ++ 10 :: 32 :: 32 :: (ofString "elem " ++
              (Ty.octets (i.elem.getD .void) ++ 10 :: (i.operands.flatMap Value.fingerprint ++
                x)))))))))))))))) := by
  change ((ofString " ").intercalate
    [ofString "i" ++ ofInt id, ofString ("b" ++ idText i.home), ofString i.op.name, ofString i.ty.text,
      ofString i.name, idOctets i.targets, ofString i.pred, ofString i.rmw, ofString i.callee,
      flagOctets i.volatile, ofNat i.ordering.rank, flagOctets i.checked, i.access.fingerprint] ++
    ofString "\n" ++ ofString "  elem " ++ ofString (Ty.textOf i.elem) ++ ofString "\n" ++
    (i.operands.map Value.fingerprint).flatten) ++ x = _
  simp only [List.intercalate_cons_cons, List.intercalate_singleton, List.append_assoc,
    Bytes.ofString_append, ← List.flatMap_def]
  rfl

theorem elem_eq (hi : i.Determined) (hj : j.Determined) (hop : i.op = j.op)
    (helem : i.elem.getD .void = j.elem.getD .void) : i.elem = j.elem := by
  have hsome : i.elem.isSome = j.elem.isSome := by rw [hi.elem, hj.elem, hop]
  cases hs : i.elem.isSome with
  | true => exact Value.getD_inj hs (hsome ▸ hs) helem
  | false =>
    have hnone : ∀ {t : Option Ty}, t.isSome = false → t = none := fun h => by simpa using h
    rw [hnone hs, hnone (hsome.symm.trans hs)]

/-- The fields in their order, each up to the blank behind it. -/
theorem read_fingerprint {id : Int} (hi : i.Determined) (hj : j.Determined) (hx : Breaks (· = 32) x)
    (hy : Breaks (· = 32) y) (h : i.fingerprint id ++ x = j.fingerprint id ++ y) :
    i.content = j.content ∧ x = y := by
  rw [fingerprint_append, fingerprint_append] at h
  obtain ⟨-, h⟩ := Bytes.ofInt_append_inj (breaks_blank _) (breaks_blank _) (List.cons.inj h).2
  simp only [List.cons.injEq, true_and] at h
  obtain ⟨hhome, h⟩ := Bytes.ofInt_append_inj (breaks_blank _) (breaks_blank _) h
  obtain ⟨hop, h⟩ := append_mark_inj i.op.blank_not_mem_name j.op.blank_not_mem_name (List.cons.inj h).2
  obtain ⟨hty, h⟩ := Ty.read_octets _ _ _ _ (breaks_blank _) (breaks_blank _) h
  obtain ⟨hname, h⟩ := append_mark_inj hi.name hj.name (List.cons.inj h).2
  obtain ⟨htargets, h⟩ := read_ids h
  obtain ⟨hpred, h⟩ := append_mark_inj hi.pred hj.pred (List.cons.inj h).2
  obtain ⟨hrmw, h⟩ := append_mark_inj hi.rmw hj.rmw h
  obtain ⟨hcallee, h⟩ := append_mark_inj hi.callee hj.callee h
  obtain ⟨hvolatile, h⟩ := append_mark_inj (blank_not_mem_flag _) (blank_not_mem_flag _) h
  obtain ⟨hrank, h⟩ := Bytes.ofNat_append_inj (breaks_blank _) (breaks_blank _) h
  obtain ⟨hchecked, h⟩ := append_mark_inj (blank_not_mem_flag _) (blank_not_mem_flag _) (List.cons.inj h).2
  obtain ⟨haccess, h⟩ := AccessMeta.read_fingerprint hi.spaceless hj.spaceless hi.noAlias hj.noAlias h
  obtain ⟨helem, h⟩ := Ty.read_octets _ _ _ _ (breaks_line _) (breaks_line _) (List.append_cancel_left h)
  obtain ⟨hoperands, hxy⟩ := Value.legible_fingerprint.items ⟨trivial, hx⟩ ⟨trivial, hy⟩ hi.operands
    hj.operands (List.cons.inj h).2
  rw [List.map_id, List.map_id] at hoperands
  have hhomes : i.home = j.home := by
    obtain ⟨b, hb⟩ := Option.isSome_iff_exists.mp hi.home
    obtain ⟨c, hc⟩ := Option.isSome_iff_exists.mp hj.home
    rw [hb, hc] at hhome ⊢
    exact congrArg some hhome
  have hops := Op.name_inj hop
  refine ⟨?_, hxy⟩
  change Instr.mk i.home i.name i.op i.ty i.operands i.targets i.pred i.rmw i.callee i.elem i.volatile
    i.ordering i.checked i.access {} = j.content
  rw [hhomes, Bytes.ofString_inj hname, hops, hty, hoperands, htargets, Bytes.ofString_inj hpred,
    Bytes.ofString_inj hrmw, Bytes.ofString_inj hcallee, elem_eq hi hj hops helem, flagOctets_inj hvolatile,
    MemOrder.rank_inj hrank, flagOctets_inj hchecked, haccess]
  rfl

theorem legible_fingerprint : Legible (fun id => Instr.fingerprint id) content Determined (· = 105)
    (Breaks (· = 32)) where
  start id i _ := ⟨105, _, (List.append_nil _).symm.trans (fingerprint_append id i []), rfl⟩
  follow _ _ h := breaks_cons (by rw [h]; decide)
  read _ _ _ _ _ hi hj hx hy h := read_fingerprint hi hj hx hy h

end Instr

namespace Block

/-- What the fingerprint tells of a block: all but its name. -/
def content (b : Block) : Block := { b with name := "" }

variable {b c : Block}

theorem fingerprint_append (n : Int) (b : Block) (x : Bytes) : b.fingerprint n ++ x =
    98 :: (ofInt n ++ 32 :: (idOctets b.instrs ++ 32 :: (idOctets b.succs ++
      32 :: (idOctets b.preds ++ 10 :: x)))) := by
  change ((ofString " ").intercalate [ofString "b" ++ ofInt n, idOctets b.instrs, idOctets b.succs,
    idOctets b.preds] ++ ofString "\n") ++ x = _
  simp only [List.intercalate_cons_cons, List.intercalate_singleton, List.append_assoc]
  rfl

theorem read_fingerprint {n : Int} (h : b.fingerprint n ++ x = c.fingerprint n ++ y) :
    b.content = c.content ∧ x = y := by
  rw [fingerprint_append, fingerprint_append] at h
  obtain ⟨-, h⟩ := Bytes.ofInt_append_inj (breaks_blank _) (breaks_blank _) (List.cons.inj h).2
  obtain ⟨hinstrs, h⟩ := read_ids (List.cons.inj h).2
  obtain ⟨hsuccs, h⟩ := read_ids (List.cons.inj h).2
  obtain ⟨hpreds, h⟩ := read_ids (List.cons.inj h).2
  refine ⟨?_, (List.cons.inj h).2⟩
  change Block.mk "" b.instrs b.succs b.preds = c.content
  rw [hinstrs, hsuccs, hpreds]
  rfl

theorem legible_fingerprint : Legible (fun n => Block.fingerprint n) content (fun _ => True) (· = 98)
    (fun _ => True) where
  start n b _ := ⟨98, _, (List.append_nil _).symm.trans (fingerprint_append n b []), rfl⟩
  follow _ _ _ := trivial
  read _ _ _ _ _ _ _ _ _ h := read_fingerprint h

end Block

/-! ### Functions -/

namespace Func

/-- What the fingerprint tells of a function: its name, its entry, its edges, and its instructions. -/
def content (f : Func) : Func :=
  { name := f.name, entry := f.entry, blocks := f.blocks.map Block.content
    instrs := f.instrs.map Instr.content }

structure Determined (f : Func) : Prop where
  name : 32 ∉ ofString f.name
  entry : f.entry.isSome = true
  instrs : ∀ i ∈ f.instrs.toList, i.Determined

variable {f g : Func}

theorem fingerprint_eq (f : Func) : f.fingerprint =
    ofString "func " ++ (ofString f.name ++ 32 :: (ofInt (f.entry.getD (-1)) ++
      10 :: ((f.blocks.toList.mapIdx fun b blk => blk.fingerprint b).flatten ++
        ((f.instrs.toList.mapIdx fun id i => i.fingerprint id).flatten ++ [])))) := by
  change (ofString " ").intercalate [ofString "func", ofString f.name, ofInt (f.entry.getD (-1))] ++
    ofString "\n" ++ _ ++ _ = _
  simp only [List.intercalate_cons_cons, List.intercalate_singleton, List.append_assoc, List.append_nil]
  rfl

theorem breaks_instrs (is : List Instr) :
    Breaks (· = 98) ((is.mapIdx fun id i => i.fingerprint id).flatten ++ []) := by
  cases is with
  | nil => exact breaks_nil
  | cons i is =>
    rw [List.mapIdx_cons, List.flatten_cons, List.append_assoc, Instr.fingerprint_append]
    exact breaks_cons (by decide)

theorem content_eq_of_fingerprint (hf : f.Determined) (hg : g.Determined)
    (h : f.fingerprint = g.fingerprint) : f.content = g.content := by
  rw [fingerprint_eq, fingerprint_eq] at h
  obtain ⟨hname, h⟩ := append_mark_inj hf.name hg.name (List.append_cancel_left h)
  obtain ⟨hentry, h⟩ := Bytes.ofInt_append_inj (breaks_line _) (breaks_line _) h
  obtain ⟨hblocks, h⟩ := Block.legible_fingerprint.parts ⟨trivial, breaks_instrs _⟩
    ⟨trivial, breaks_instrs _⟩ (fun _ _ => trivial) (fun _ _ => trivial) (List.cons.inj h).2
  obtain ⟨hinstrs, -⟩ := Instr.legible_fingerprint.parts ⟨breaks_nil, breaks_nil⟩
    ⟨breaks_nil, breaks_nil⟩ hf.instrs hg.instrs h
  have hentries : f.entry = g.entry := by
    obtain ⟨b, hb⟩ := Option.isSome_iff_exists.mp hf.entry
    obtain ⟨c, hc⟩ := Option.isSome_iff_exists.mp hg.entry
    rw [hb, hc] at hentry ⊢
    exact congrArg some hentry
  rw [← Array.toList_map, ← Array.toList_map] at hblocks hinstrs
  rw [content, content, Bytes.ofString_inj hname, hentries, Array.toList_inj.mp hblocks,
    Array.toList_inj.mp hinstrs]

theorem fingerprint_content (f : Func) : f.content.fingerprint = f.fingerprint := by
  have hmap : ∀ {α : Type} {k : α → α} {code : Nat → α → Bytes}, (∀ n a, code n (k a) = code n a) →
      ∀ l : List α, (l.map k).mapIdx code = l.mapIdx code := by
    intro α k code hcode l
    refine List.ext_getElem (by simp) fun n hn hn' => ?_
    rw [List.getElem_mapIdx, List.getElem_mapIdx, List.getElem_map, hcode]
  have hblock : ∀ (n : Nat) (b : Block), b.content.fingerprint n = b.fingerprint n := fun _ _ => rfl
  have hinstr : ∀ (n : Nat) (i : Instr), i.content.fingerprint n = i.fingerprint n := fun _ _ => rfl
  rw [fingerprint_eq, fingerprint_eq, content, Array.toList_map, Array.toList_map, hmap hblock, hmap hinstr]

/-- No metadata of the function has a blank. -/
def Spaceless (f : Func) : Prop := ∀ id i, f.instr? id = some i → i.access.Spaceless

end Func

theorem Value.Fits.determined {ty : Ty} {v : Value} (h : v.Fits (some ty)) : v.Determined := by
  cases v with
  | int t n =>
    rcases h with ⟨rfl, -⟩ | ⟨rfl, -⟩
    · rfl
    · rfl
  | float t x =>
    obtain ⟨rfl, hx, -⟩ := h
    exact ⟨rfl, hx⟩
  | undef t =>
    obtain rfl := h
    rfl
  | _ => trivial

theorem Slot.Holds.determined {slot : Slot} {v : Value} (h : slot.Holds v) : v.Determined := by
  cases slot with
  | plain ty => exact Value.Fits.determined h
  | typed =>
    obtain ⟨ty, -, h⟩ := h
    exact Value.Fits.determined h
  | «local» =>
    rcases h with ⟨i, rfl⟩ | ⟨id, rfl⟩
    · trivial
    · trivial
  | field n =>
    obtain rfl := h
    rfl

theorem determined_of_holds {slots : List Slot} {vs : List Value} (h : List.Forall₂ Slot.Holds slots vs) :
    ∀ v ∈ vs, v.Determined := by
  induction h with
  | nil => exact fun v hv => by cases hv
  | cons hv _ ih => exact List.forall_mem_cons.mpr ⟨hv.determined, ih⟩

theorem Instr.Formed.determined {ret w : Ty} {i : Instr} (h : i.Formed ret w) (hhome : i.home.isSome = true)
    (hspaceless : i.access.Spaceless) : i.Determined := by
  have hword : ∀ {s : String}, IsWord s → 32 ∉ ofString s := by
    rintro s ⟨bs, hbs, rfl⟩
    exact IsName.blank_not_mem ⟨bs, hbs.isName, rfl⟩
  have hname : ∀ {s : String}, (s ≠ "" → IsName s) → 32 ∉ ofString s := by
    intro s hs
    by_cases hempty : s = ""
    · rw [hempty]
      decide
    · exact (hs hempty).blank_not_mem
  obtain ⟨slots, -, hholds⟩ := h.layout
  refine ⟨hhome, hname fun hne => (h.name hne).2, ?_, ?_, hname fun hne => (h.callee hne).2, ?_,
    determined_of_holds hholds, hspaceless, fun hmem => ?_⟩
  · have hpred := h.pred
    split at hpred
    · exact hword hpred.1
    · rw [hpred]
      decide
  · have hrmw := h.rmw
    split at hrmw
    · exact hword hrmw.1
    · rw [hrmw]
      decide
  · have helem := h.elem
    split at helem
    · next hop =>
      obtain ⟨u, hu, -⟩ := helem
      rw [hu, hop]
      rfl
    · next hop =>
      rw [helem, Bool.eq_false_of_not_eq_true hop]
      rfl
  · obtain ⟨list, hlist⟩ := h.noAlias [] hmem
    exact of_decide_eq_true (List.mem_filter.mp hlist).2 rfl

theorem Func.Read.determined {tokens : List Token} {s : Symbols} {f : Func} (h : f.Read tokens s)
    (hspaceless : f.Spaceless) : f.Determined := by
  refine ⟨h.headed.name.blank_not_mem, by rw [h.entry]; rfl, fun i hmem => ?_⟩
  obtain ⟨n, hn⟩ := List.mem_iff_getElem?.mp hmem
  have hi : f.instr? (n : Int) = some i := by
    rw [Func.instr?, if_neg (by omega), Int.toNat_natCast, ← Array.getElem?_toList]
    exact hn
  obtain ⟨w, hformed, -⟩ := h.formed _ i hi
  obtain ⟨b, hb⟩ := h.stands hi
  obtain ⟨j, hj, hhome, -⟩ := h.wellFormed.home_of_stands hb
  obtain rfl := Option.some.inj (hi.symm.trans hj)
  exact hformed.determined (by rw [hhome]; rfl) (hspaceless _ i hi)

/-- The fingerprints of functions that were read are the same if and only if the functions agree in all but
the names of blocks, the parameters and the places in the source, provided that no metadata has a blank. -/
theorem fingerprint_eq_iff {file file' : String} {src src' : Bytes} {p q : Parsed} {f g : Func}
    (hp : parse file src = .ok p) (hpe : p.errors = []) (hf : f ∈ p.module.funcs)
    (hq : parse file' src' = .ok q) (hqe : q.errors = []) (hg : g ∈ q.module.funcs)
    (hfs : f.Spaceless) (hgs : g.Spaceless) : f.fingerprint = g.fingerprint ↔ f.content = g.content := by
  have hfd := ((read_of_parse hp hpe).funcs f hf).determined hfs
  have hgd := ((read_of_parse hq hqe).funcs g hg).determined hgs
  refine ⟨Func.content_eq_of_fingerprint hfd hgd, fun h => ?_⟩
  rw [← f.fingerprint_content, h, g.fingerprint_content]

/-- A store with a list of scopes that it does not meet. -/
def storing.text (list : String) : Bytes := ofString
  ("func @f(%p: ptr) \x7b\na:\n  store i32 1, %p !noalias \"" ++ list ++ "\"\n  ret\n\x7d\n")

def storing (scopes : List String) : Func where
  name := "f"
  params := [⟨"p", some .ptr⟩]
  blocks := #[{ name := "a", instrs := [0, 1] }]
  instrs := #[
    { home := some 0, op := .store, operands := [.int (some .i32) 1, .arg 0], elem := some .i32
      access := { noAlias := scopes.map ofString }, pos := ⟨3, 3⟩ },
    { home := some 0, op := .ret, pos := ⟨4, 3⟩ }]
  entry := some 0
  file := "f.mir"

theorem storing.parsed (list : String) (scopes : List String)
    (h : ((parse "f.mir" (text list)).toOption.map fun p => (p.errors, p.module.funcs)) =
      some ([], [storing scopes])) :
    ∃ p, parse "f.mir" (text list) = .ok p ∧ p.errors = [] ∧ storing scopes ∈ p.module.funcs :=
  parse_alone _ _ _ h

theorem storing.spaceless {scopes : List String} (h : ∀ s ∈ scopes.map ofString, 32 ∉ s) :
    (storing scopes).Spaceless := by
  intro id i hi
  unfold Func.instr? at hi
  split at hi
  · cases hi
  · have hmem : i ∈ (storing scopes).instrs.toList := Array.mem_toList_iff.mpr (Array.mem_of_getElem? hi)
    rcases List.mem_cons.mp hmem with rfl | hmem
    · exact ⟨List.not_mem_nil, List.not_mem_nil, h⟩
    · obtain rfl := List.mem_singleton.mp hmem
      exact ⟨List.not_mem_nil, List.not_mem_nil, List.forall_mem_nil _⟩

/-- The order of the scopes shows in the fingerprint. -/
theorem scopes_in_order_told :
    (storing ["a", "b"]).fingerprint ≠ (storing ["b", "a"]).fingerprint := by
  obtain ⟨p, hp, hpe, hf⟩ := storing.parsed "a,b" ["a", "b"] (by decide +kernel)
  obtain ⟨q, hq, hqe, hg⟩ := storing.parsed "b,a" ["b", "a"] (by decide +kernel)
  have hiff := fingerprint_eq_iff hp hpe hf hq hqe hg (storing.spaceless (by decide))
    (storing.spaceless (by decide))
  exact fun h => absurd (hiff.mp h) (by decide +kernel)

/-- Two scopes have the fingerprint of one scope with a blank in it. -/
theorem scope_with_blank_not_told : ∃ p q, parse "f.mir" (storing.text "a,b") = .ok p ∧ p.errors = [] ∧
    storing ["a", "b"] ∈ p.module.funcs ∧ parse "f.mir" (storing.text "a b") = .ok q ∧ q.errors = [] ∧
      storing ["a b"] ∈ q.module.funcs ∧
        (storing ["a", "b"]).fingerprint = (storing ["a b"]).fingerprint ∧
          (storing ["a", "b"]).content ≠ (storing ["a b"]).content := by
  obtain ⟨p, hp, hpe, hf⟩ := storing.parsed "a,b" ["a", "b"] (by decide +kernel)
  obtain ⟨q, hq, hqe, hg⟩ := storing.parsed "a b" ["a b"] (by decide +kernel)
  exact ⟨p, q, hp, hpe, hf, hq, hqe, hg, by decide +kernel, by decide +kernel⟩

end RegPressure
