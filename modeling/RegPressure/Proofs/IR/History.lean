import RegPressure.Proofs.IR.Arena
import RegPressure.Proofs.IR.Checked

namespace RegPressure

namespace Func

def withBody (f : Func) (b : Int) (ids : List Int) : Func :=
  f.setBlock b fun blk => { blk with instrs := ids }

variable {f : Func} {b : Int} {blk : Block}

theorem bodyOf_withBody {ids : List Int} (hblk : f.block? b = some blk) :
    (f.withBody b ids).bodyOf b = ids := by
  rw [withBody, bodyOf, block?_setBlock, if_pos rfl, hblk]
  rfl

theorem withBody_withBody {ids ids' : List Int} :
    (f.withBody b ids).withBody b ids' = f.withBody b ids' := by
  unfold withBody setBlock
  split
  · rfl
  · congr 1
    apply Array.ext_getElem?
    intro n
    simp only [Array.getElem?_modify]
    split <;> simp [Function.comp_def]

theorem setBlock_eq_withBody (hblk : f.block? b = some blk) (change : List Int → List Int) :
    (f.setBlock b fun blk => { blk with instrs := change blk.instrs }) =
      f.withBody b (change blk.instrs) := by
  unfold block? at hblk
  unfold withBody setBlock
  split at hblk
  · cases hblk
  · next hb =>
    rw [if_neg hb, if_neg hb]
    congr 1
    apply Array.ext_getElem?
    intro n
    rw [Array.getElem?_modify, Array.getElem?_modify]
    split
    · next hn => rw [← hn, hblk, Option.map_some, Option.map_some]
    · rfl

def registered (f : Func) (b : Int) (i : Instr) : Func :=
  { f with instrs := f.instrs.push { i with home := some b } }

variable {pos : Int} {i : Instr}

theorem block_of_none (hblk : f.block? b = none) : f.block b = .error (.breach f.name (.noBlock b)) := by
  rw [block, hblk]

theorem insertAt_of_none (hblk : f.block? b = none) :
    f.insertAt b pos i = .error (.breach f.name (.noBlock b)) := by
  rw [insertAt, block_of_none hblk]
  rfl

theorem insertAt_outside (hblk : f.block? b = some blk)
    (hpos : (pos < 0 || pos > blk.instrs.length) = true) :
    f.insertAt b pos i = .error (.breach f.name (.insertPosition pos (f.blockLabel b))) := by
  rw [insertAt, block_eq_ok.mpr hblk, Checked.ok_bind, if_pos hpos]
  rfl

theorem insertAt_inside (hblk : f.block? b = some blk)
    (hpos : ¬(pos < 0 || pos > blk.instrs.length) = true) :
    f.insertAt b pos i = .ok ((f.registered b i).withBody b
      (blk.instrs.insertIdx pos.toNat f.instrs.size), f.instrs.size) := by
  have hblk' : (f.registered b i).block? b = some blk := hblk
  rw [insertAt, block_eq_ok.mpr hblk, Checked.ok_bind, if_neg hpos, 
    ← setBlock_eq_withBody hblk' (·.insertIdx pos.toNat f.instrs.size)]
  rfl

end Func

namespace Edit

def register (b : Int) (i : Instr) : Edit Int := do
  let id : Int := (← get).instrs.size
  modify (·.registered b i)
  return id

def setBody (b : Int) (ids : List Int) : Edit Unit := modify (·.withBody b ids)

def slice (ids : List Int) (n : Nat) : Edit (List Int) :=
  if n ≤ ids.length then return ids.drop n
  else throw (.other ("runtime error: slice bounds out of range [" ++ toString n ++ ":" ++
    toString ids.length ++ "]"))

def copyWithin (ids : List Int) (target source : Nat) : Edit (List Int) := do
  let room ← slice ids target
  let copied ← slice ids source
  return ids.take target ++ copied.take room.length ++ room.drop copied.length

/-- Stores a number at a position of a list. -/
def store (ids : List Int) (n : Nat) (id : Int) : Edit (List Int) :=
  if n < ids.length then return ids.set n id else throw (.index n ids.length)

def appendStatements (b : Int) (i : Instr) : Edit Int := do
  let _ ← ask (·.block b)
  let id ← register b i
  setBody b ((← get).bodyOf b ++ [id])
  return id

def insertAtStatements (b pos : Int) (i : Instr) : Edit Int := do
  let blk ← ask (·.block b)
  if pos < 0 || pos > blk.instrs.length then
    let name ← ask (·.blockName b)
    throw (.breach (← get).name (.insertPosition pos name))
  let id ← register b i
  setBody b ((← get).bodyOf b ++ [-1])
  setBody b (← copyWithin ((← get).bodyOf b) (pos.toNat + 1) pos.toNat)
  setBody b (← store ((← get).bodyOf b) pos.toNat id)
  return id

def insertBesideStatements (place : Nat → Int) (pos : Int) (i : Instr) : Edit Int := do
  let j ← ask (·.instr pos)
  let n ← ask (·.indexOf pos)
  insertAtStatements (j.home.getD (-1)) (place n) i

def eraseStatements (id : Int) : Edit Unit := do
  let n ← ask (·.indexOf id)
  let i ← ask fun f => cell f.instrs id
  let b := i.home.getD (-1)
  let blk ← ask (·.block b)
  let rest ← slice blk.instrs (n + 1)
  setBody b (blk.instrs.take n ++ rest)
  modify (·.setInstr id fun i => { i with home := none })

variable {α β : Type} {f g : Func} {a : α}

theorem run_bind_ok {e : Edit α} {k : α → Edit β} (h : e.run f = .ok a g) :
    (e >>= k).run f = (k a).run g := by
  simp only [EStateM.run, Bind.bind, EStateM.bind] at h ⊢
  rw [h]

theorem run_bind_error {e : Edit α} {k : α → Edit β} {x : Fault} (h : e.run f = .error x g) :
    (e >>= k).run f = .error x g := by
  simp only [EStateM.run, Bind.bind, EStateM.bind] at h ⊢
  rw [h]

theorem run_ask_ok {query : Func → Checked α} (h : query f = .ok a) : (ask query).run f = .ok a f := by
  simp only [EStateM.run, ask, h]

theorem run_ask_error {query : Func → Checked α} {x : Fault} (h : query f = .error x) :
    (ask query).run f = .error x f := by
  simp only [EStateM.run, ask, h]

theorem run_change_ok {op : Func → Checked (Func × α)} (h : op f = .ok (g, a)) :
    (change op).run f = .ok a g := by
  simp only [EStateM.run, change, h]

theorem run_change_error {op : Func → Checked (Func × α)} {x : Fault} (h : op f = .error x) :
    (change op).run f = .error x f := by
  simp only [EStateM.run, change, h]

theorem run_slice {ids : List Int} {n : Nat} (h : n ≤ ids.length) :
    (slice ids n).run f = .ok (ids.drop n) f := by
  rw [slice, if_pos h]
  rfl

theorem run_store {ids : List Int} {n : Nat} {id : Int} (h : n < ids.length) :
    (store ids n id).run f = .ok (ids.set n id) f := by
  rw [store, if_pos h]
  rfl

theorem run_copyWithin (f : Func) (l r : List Int) (x : Int) :
    ∃ y, (copyWithin (l ++ r ++ [x]) (l.length + 1) l.length).run f = .ok (l ++ y :: r) f := by
  obtain ⟨y, s, hs⟩ := List.exists_cons_of_ne_nil (List.append_ne_nil_of_right_ne_nil r (by simp) :
    r ++ [x] ≠ [])
  have hlen : s.length = r.length := by simpa using (congrArg List.length hs).symm
  have hroom : (l ++ r ++ [x]).drop (l.length + 1) = s := by simp [hs]
  have hcopied : (l ++ r ++ [x]).drop l.length = r ++ [x] := by simp
  have htake : (l ++ r ++ [x]).take (l.length + 1) = l ++ [y] := by
    rw [List.append_assoc, hs, List.take_length_add_append, List.take_succ_cons, List.take_zero]
  refine ⟨y, ?_⟩
  rw [copyWithin, run_bind_ok (run_slice (by simp)), run_bind_ok (run_slice (by simp)), hroom, hcopied,
    htake, hlen]
  change EStateM.Result.ok _ f = _
  simp [hlen]

theorem run_get (f : Func) : (get : Edit Func).run f = .ok f f := rfl

theorem run_setBody (f : Func) (b : Int) (ids : List Int) :
    (setBody b ids).run f = .ok () (f.withBody b ids) := rfl

theorem run_pure (f : Func) (a : α) : (pure a : Edit α).run f = .ok a f := rfl

theorem run_register (f : Func) (b : Int) (i : Instr) :
    (register b i).run f = .ok (f.instrs.size : Int) (f.registered b i) := rfl

theorem run_appendStatements (f : Func) (b : Int) (i : Instr) :
    (appendStatements b i).run f = (change (·.append b i)).run f := by
  cases hblk : f.block? b with
  | none =>
    have hnone := Func.block_of_none hblk
    rw [appendStatements, run_bind_error (run_ask_error hnone), run_change_error]
    rw [Func.append, hnone]
    rfl
  | some blk =>
    have hsome := Func.block_eq_ok.mpr hblk
    have hbody : (f.registered b i).bodyOf b = blk.instrs := by
      rw [Func.bodyOf, show (f.registered b i).block? b = some blk from hblk]
      rfl
    rw [appendStatements, run_bind_ok (run_ask_ok hsome), run_bind_ok (run_register f b i),
      run_bind_ok (run_get _), hbody, run_bind_ok (run_setBody ..), run_pure, run_change_ok]
    rw [Func.append, hsome, Checked.ok_bind, Func.insertAt_inside hblk (by simp), Int.toNat_natCast,
      List.insertIdx_length_self]

theorem run_insertAtStatements (f : Func) (b pos : Int) (i : Instr) :
    (insertAtStatements b pos i).run f = (insertAt b pos i).run f := by
  cases hblk : f.block? b with
  | none =>
    rw [insertAtStatements, run_bind_error (run_ask_error (Func.block_of_none hblk)), insertAt,
      run_change_error (Func.insertAt_of_none hblk)]
  | some blk =>
    have hsome := Func.block_eq_ok.mpr hblk
    rw [insertAtStatements, run_bind_ok (run_ask_ok hsome)]
    by_cases hpos : (pos < 0 || pos > blk.instrs.length) = true
    · have hname : f.blockName b = .ok (f.blockLabel b) := by
        rw [Func.blockName, hsome]
        rfl
      rw [if_pos hpos, run_bind_ok (run_ask_ok hname), insertAt,
        run_change_error (Func.insertAt_outside hblk hpos)]
      rfl
    · obtain ⟨l, r, hlr, hlen⟩ : ∃ l r, blk.instrs = l ++ r ∧ l.length = pos.toNat := by
        simp only [Bool.or_eq_true, decide_eq_true_eq, not_or] at hpos
        refine ⟨_, _, (List.take_append_drop pos.toNat _).symm, ?_⟩
        rw [List.length_take]
        omega
      have hblk' : (f.registered b i).block? b = some blk := hblk
      have hbody : (f.registered b i).bodyOf b = l ++ r := by
        rw [Func.bodyOf, hblk', ← hlr]
        rfl
      obtain ⟨y, hcopy⟩ := run_copyWithin ((f.registered b i).withBody b (l ++ r ++ [-1])) l r (-1)
      rw [if_neg hpos, run_bind_ok (run_register f b i), run_bind_ok (run_get _), hbody,
        run_bind_ok (run_setBody ..), run_bind_ok (run_get _), Func.bodyOf_withBody hblk', ← hlen,
        run_bind_ok hcopy, run_bind_ok (run_setBody ..), run_bind_ok (run_get _),
        Func.withBody_withBody, Func.bodyOf_withBody hblk', run_bind_ok (run_store (by simp)),
        run_bind_ok (run_setBody ..), run_pure, Func.withBody_withBody, insertAt,
        run_change_ok (Func.insertAt_inside hblk hpos), ← hlen, hlr, Func.insertIdx_append]
      simp

theorem run_insertBesideStatements (f : Func) (place : Nat → Int) (pos : Int) (i : Instr) :
    (insertBesideStatements place pos i).run f = (change fun f => do
      let home := (← f.instr pos).home
      let n ← f.indexOf pos
      f.insertAt (home.getD (-1)) (place n) i).run f := by
  cases hj : f.instr pos with
  | error x =>
    rw [insertBesideStatements, run_bind_error (run_ask_error hj), run_change_error]
    rw [hj]
    rfl
  | ok j =>
    rw [insertBesideStatements, run_bind_ok (run_ask_ok hj)]
    cases hn : f.indexOf pos with
    | error x =>
      rw [run_bind_error (run_ask_error hn), run_change_error]
      rw [hj, Checked.ok_bind, hn]
      rfl
    | ok n =>
      rw [run_bind_ok (run_ask_ok hn), run_insertAtStatements]
      simp only [EStateM.run, insertAt, change, hj, hn, Checked.ok_bind]

theorem run_eraseStatements (f : Func) (id : Int) :
    (eraseStatements id).run f = (erase id).run f := by
  cases hn : f.indexOf id with
  | error x =>
    rw [eraseStatements, run_bind_error (run_ask_error hn), erase, run_change_error]
    rw [Func.erase, hn]
    rfl
  | ok n =>
    obtain ⟨b, i, hi, hhome, blk, hblk, hmem⟩ := Func.stands_of_indexOf hn
    have hcell := Func.cell_eq_ok.mpr hi
    have hlt : n < blk.instrs.length := by
      rw [Func.indexOf_of_home hi hhome hblk hmem] at hn
      cases hn
      exact List.idxOf_lt_length_iff.mpr hmem
    rw [eraseStatements, run_bind_ok (run_ask_ok hn), run_bind_ok (run_ask_ok hcell)]
    simp only [hhome, Option.getD_some]
    rw [run_bind_ok (run_ask_ok (Func.block_eq_ok.mpr hblk)), run_bind_ok (run_slice (by omega)),
      run_bind_ok (run_setBody ..), erase, run_change_ok]
    · rfl
    · rw [Func.erase, hn, Checked.ok_bind, Func.instr_eq_ok.mpr hi, Checked.ok_bind]
      simp only [hhome, Option.getD_some]
      rw [Func.setBlock_eq_withBody hblk (·.eraseIdx n), List.eraseIdx_eq_take_drop_succ]
      rfl

end Edit

/-- A call of one of the operations that build a function up or edit it. -/
inductive Call
  | addBlock (name : String)
  | append (b : Int) (i : Instr)
  | insertAt (b pos : Int) (i : Instr)
  | insertBefore (pos : Int) (i : Instr)
  | insertAfter (pos : Int) (i : Instr)
  | erase (id : Int)
  | replaceAllUses (old : Int) (v : Value)
  deriving DecidableEq, Repr

namespace Call

def edit : Call → Edit (Option Int)
  | .addBlock name => some <$> Edit.change fun f => .ok (f.addBlock name)
  | .append b i => some <$> Edit.change (·.append b i)
  | .insertAt b pos i => some <$> Edit.insertAt b pos i
  | .insertBefore pos i => some <$> Edit.insertBefore pos i
  | .insertAfter pos i => some <$> Edit.insertAfter pos i
  | .erase id => (fun _ => none) <$> Edit.erase id
  | .replaceAllUses old v => (fun _ => none) <$> (modify (·.replaceAllUses old v) : Edit Unit)

def statements : Call → Edit (Option Int)
  | .append b i => some <$> Edit.appendStatements b i
  | .insertAt b pos i => some <$> Edit.insertAtStatements b pos i
  | .insertBefore pos i => some <$> Edit.insertBesideStatements (fun n => n) pos i
  | .insertAfter pos i => some <$> Edit.insertBesideStatements (fun n => n + 1) pos i
  | .erase id => (fun _ => none) <$> Edit.eraseStatements id
  | c => c.edit

def new? : Call → Option Instr
  | .append _ i | .insertAt _ _ i | .insertBefore _ i | .insertAfter _ i => some i
  | _ => none

def subject? (c : Call) (f : Func) : Option Int :=
  match c with
  | .erase id => some id
  | c => c.new?.map fun _ => (f.instrs.size : Int)

variable {f g : Func} {c : Call} {r : Option Int} {x : Fault}

theorem run_map_congr {α β : Type} {e e' : Edit α} (k : α → β) (h : e.run f = e'.run f) :
    (k <$> e).run f = (k <$> e').run f := by
  simp only [EStateM.run, Functor.map, EStateM.map] at h ⊢
  rw [h]

theorem map_eq_ok {α β : Type} {e : Edit α} {k : α → β} {b : β} :
    (k <$> e).run f = .ok b g ↔ ∃ a, e.run f = .ok a g ∧ k a = b := by
  simp only [EStateM.run, Functor.map, EStateM.map]
  cases e f with
  | ok a h => simp [and_comm]
  | error x h => simp

theorem map_eq_error {α β : Type} {e : Edit α} {k : α → β} :
    (k <$> e).run f = .error x g ↔ e.run f = .error x g := by
  simp only [EStateM.run, Functor.map, EStateM.map]
  cases e f with
  | ok a h => simp
  | error y h => simp

theorem run_statements (c : Call) (f : Func) : c.statements.run f = c.edit.run f := by
  cases c with
  | append b i => exact run_map_congr some (Edit.run_appendStatements f b i)
  | insertAt b pos i => exact run_map_congr some (Edit.run_insertAtStatements f b pos i)
  | insertBefore pos i => exact run_map_congr some (Edit.run_insertBesideStatements f _ pos i)
  | insertAfter pos i => exact run_map_congr some (Edit.run_insertBesideStatements f _ pos i)
  | erase id => exact run_map_congr _ (Edit.run_eraseStatements f id)
  | addBlock name => rfl
  | replaceAllUses old v => rfl

inductive Done (f : Func) : Call → Option Int → Func → Prop
  | added (name : String) :
    Done f (.addBlock name) (some (f.blocks.size : Int)) (f.addBlock name).1
  | placed (c : Call) (i : Instr) (b : Int) (g : Func) (hc : c.new? = some i) (hg : f.Places b i g) :
    Done f c (some (f.instrs.size : Int)) g
  | removed (id : Int) (g : Func) (hg : f.Removes id g) : Done f (.erase id) none g
  | replaced (old : Int) (v : Value) : Done f (.replaceAllUses old v) none (f.replaceAllUses old v)

theorem places_of_beside {place : Nat → Int} {pos u : Int} {i : Instr}
    (he : (do
      let home := (← f.instr pos).home
      let n ← f.indexOf pos
      f.insertAt (home.getD (-1)) (place n) i) = .ok (g, u)) :
    u = f.instrs.size ∧ ∃ b, f.Places b i g := by
  simp only [Checked.bind_eq_ok] at he
  obtain ⟨j, -, n, -, he⟩ := he
  obtain ⟨hu, hg⟩ := Func.places_of_insertAt he
  exact ⟨hu, _, hg⟩

theorem done_of_edit (hf : f.Arena) (h : c.edit.run f = .ok r g) : c.Done f r g := by
  cases c with
  | addBlock name =>
    obtain ⟨u, hu, rfl⟩ := map_eq_ok.mp h
    cases Edit.change_eq_ok.mp hu
    exact .added name
  | append b i =>
    obtain ⟨u, hu, rfl⟩ := map_eq_ok.mp h
    have he := Edit.change_eq_ok.mp hu
    simp only [Func.append, Checked.bind_eq_ok] at he
    obtain ⟨blk, -, he⟩ := he
    obtain ⟨rfl, hg⟩ := Func.places_of_insertAt he
    exact .placed _ i b g rfl hg
  | insertAt b pos i =>
    obtain ⟨u, hu, rfl⟩ := map_eq_ok.mp h
    obtain ⟨rfl, hg⟩ := Func.places_of_insertAt (Edit.change_eq_ok.mp hu)
    exact .placed _ i b g rfl hg
  | insertBefore pos i =>
    obtain ⟨u, hu, rfl⟩ := map_eq_ok.mp h
    obtain ⟨rfl, b, hg⟩ := places_of_beside (Edit.change_eq_ok.mp hu)
    exact .placed _ i b g rfl hg
  | insertAfter pos i =>
    obtain ⟨u, hu, rfl⟩ := map_eq_ok.mp h
    obtain ⟨rfl, b, hg⟩ := places_of_beside (Edit.change_eq_ok.mp hu)
    exact .placed _ i b g rfl hg
  | erase id =>
    obtain ⟨u, hu, rfl⟩ := map_eq_ok.mp h
    exact .removed id g (Func.removes_of_erase hf (Edit.erase_eq_ok.mp hu))
  | replaceAllUses old v =>
    obtain ⟨u, hu, rfl⟩ := map_eq_ok.mp h
    cases Edit.modify_eq_ok.mp hu
    exact .replaced old v

theorem change_eq_error {α : Type} {op : Func → Checked (Func × α)} :
    (Edit.change op).run f = .error x g ↔ op f = .error x ∧ g = f := by
  simp only [EStateM.run, Edit.change]
  cases op f with
  | error y => simp [eq_comm]
  | ok p => simp

def Blames (f : Func) (x : Fault) : Prop := ∃ cause, x = .breach f.name cause

theorem blames_of_block {b : Int} (h : f.block b = .error x) : Blames f x := by
  unfold Func.block at h
  split at h
  · cases h
  · cases h
    exact ⟨_, rfl⟩

theorem blames_of_instr {id : Int} (h : f.instr id = .error x) : Blames f x := by
  unfold Func.instr at h
  split at h
  · cases h
  · cases h
    exact ⟨_, rfl⟩

theorem blames_of_indexOf {id : Int} (h : f.indexOf id = .error x) : Blames f x := by
  rcases Checked.bind_eq_error.mp h with h | ⟨i, -, h⟩
  · exact blames_of_instr h
  · split at h
    · cases h
      exact ⟨_, rfl⟩
    · rcases Checked.bind_eq_error.mp h with h | ⟨blk, -, h⟩
      · exact blames_of_block h
      · split at h
        · cases h
        · cases h
          exact ⟨_, rfl⟩

theorem blames_of_insertAt {b pos : Int} {i : Instr} (h : f.insertAt b pos i = .error x) :
    Blames f x := by
  cases hblk : f.block? b with
  | none =>
    rw [Func.insertAt_of_none hblk] at h
    cases h
    exact ⟨_, rfl⟩
  | some blk =>
    by_cases hpos : (pos < 0 || pos > blk.instrs.length) = true
    · rw [Func.insertAt_outside hblk hpos] at h
      cases h
      exact ⟨_, rfl⟩
    · rw [Func.insertAt_inside hblk hpos] at h
      cases h

theorem blames_of_beside {place : Nat → Int} {pos : Int} {i : Instr}
    (h : (do
      let home := (← f.instr pos).home
      let n ← f.indexOf pos
      f.insertAt (home.getD (-1)) (place n) i) = .error x) : Blames f x := by
  rcases Checked.bind_eq_error.mp h with h | ⟨j, -, h⟩
  · exact blames_of_instr h
  · rcases Checked.bind_eq_error.mp h with h | ⟨n, -, h⟩
    · exact blames_of_indexOf h
    · exact blames_of_insertAt h

theorem blames_of_edit (h : c.edit.run f = .error x g) : g = f ∧ Blames f x := by
  cases c with
  | addBlock name => cases (change_eq_error.mp (map_eq_error.mp h)).1
  | append b i =>
    obtain ⟨he, hg⟩ := change_eq_error.mp (map_eq_error.mp h)
    refine ⟨hg, ?_⟩
    rcases Checked.bind_eq_error.mp he with he | ⟨blk, -, he⟩
    · exact blames_of_block he
    · exact blames_of_insertAt he
  | insertAt b pos i =>
    obtain ⟨he, hg⟩ := change_eq_error.mp (map_eq_error.mp h)
    exact ⟨hg, blames_of_insertAt he⟩
  | insertBefore pos i =>
    obtain ⟨he, hg⟩ := change_eq_error.mp (map_eq_error.mp h)
    exact ⟨hg, blames_of_beside he⟩
  | insertAfter pos i =>
    obtain ⟨he, hg⟩ := change_eq_error.mp (map_eq_error.mp h)
    exact ⟨hg, blames_of_beside he⟩
  | erase id =>
    obtain ⟨he, hg⟩ := change_eq_error.mp (map_eq_error.mp h)
    refine ⟨hg, ?_⟩
    rcases Checked.bind_eq_error.mp he with he | ⟨k, -, he⟩
    · rcases Checked.bind_eq_error.mp he with he | ⟨n, -, he⟩
      · exact blames_of_indexOf he
      · rcases Checked.bind_eq_error.mp he with he | ⟨i, -, he⟩
        · exact blames_of_instr he
        · cases he
    · cases he
  | replaceAllUses old v => cases map_eq_error.mp h

namespace Done

variable (hd : c.Done f r g)

include hd

theorem arena (hf : f.Arena) : g.Arena := by
  cases hd with
  | added name => exact hf.addBlock name
  | placed _ i b _ hc hg => exact hg.arena hf
  | removed id _ hg => exact hg.arena hf
  | replaced old v => exact hf.replaceAllUses

theorem persists : f.Persists g := by
  cases hd with
  | added name => exact Func.persists_addBlock name
  | placed _ i b _ hc hg => exact hg.persists
  | removed id _ hg => exact hg.persists
  | replaced old v => exact Func.persists_replaceAllUses

/-- Apart from the instruction that comes or goes, every block holds what it held, in its order. -/
theorem order (hf : f.Arena) (b : Int) :
    (g.bodyOf b).filter (fun id => c.subject? f ≠ some id) =
      (f.bodyOf b).filter (fun id => c.subject? f ≠ some id) := by
  cases hd with
  | added name => rw [Func.bodyOf_addBlock]
  | placed _ i b' _ hc hg =>
    have hsubject : c.subject? f = some (f.instrs.size : Int) := by
      cases c with
      | erase id => cases hc
      | _ => simp_all [subject?, new?]
    have hne : ∀ ids : List Int, ids.filter (fun id => c.subject? f ≠ some id) =
        ids.filter (· ≠ (f.instrs.size : Int)) := by
      intro ids
      refine List.filter_congr fun id _ => ?_
      simp [hsubject, eq_comm]
    rw [hne, hne, hg.filter_bodyOf hf, Func.filter_ne_of_notMem (hf.size_notMem b)]
  | removed id _ hg =>
    rw [hg.body, List.filter_filter]
    refine List.filter_congr fun x _ => ?_
    simp [subject?, eq_comm]
  | replaced old v => rw [Func.bodyOf_replaceAllUses]

end Done

def perform (f : Func) (c : Call) : Func := (c.statements.apply f).1

/-- What a call makes of a function, and that its statements are the edit. -/
structure Outcome (c : Call) (f : Func) : Prop where
  edit : c.statements.run f = c.edit.run f
  fault : ∀ x g, c.statements.run f = .error x g → g = f ∧ ∃ cause, x = .breach f.name cause
  added : ∀ name r g, c = .addBlock name → c.statements.run f = .ok r g →
    r = some (f.blocks.size : Int) ∧ f.title? f.blocks.size = none ∧
      g.title? f.blocks.size = some name
  placed : ∀ i r g, c.new? = some i → c.statements.run f = .ok r g →
    r = some (f.instrs.size : Int) ∧ f.instr? f.instrs.size = none ∧
      ∃ b, g.instr? f.instrs.size = some { i with home := some b }
  removed : ∀ id r g, c = .erase id → c.statements.run f = .ok r g →
    ∃ i, g.instr? id = some i ∧ i.home = none
  order : ∀ r g, c.statements.run f = .ok r g → ∀ b,
    (g.bodyOf b).filter (fun id => c.subject? f ≠ some id) =
      (f.bodyOf b).filter (fun id => c.subject? f ≠ some id)

theorem outcome (c : Call) (hf : f.Arena) : c.Outcome f := by
  have hok : ∀ {r g}, c.statements.run f = .ok r g → c.Done f r g := by
    intro r g h
    rw [run_statements] at h
    exact done_of_edit hf h
  refine ⟨run_statements c f, fun x g h => ?_, fun name r g hc h => ?_, fun i r g hc h => ?_,
    fun id r g hc h => ?_, fun r g h => (hok h).order hf⟩
  · rw [run_statements] at h
    exact blames_of_edit h
  · subst hc
    cases hok h with
    | added _ =>
      refine ⟨rfl, ?_, by rw [Func.title?_addBlock, if_pos rfl]⟩
      cases htitle : f.title? f.blocks.size with
      | none => rfl
      | some old => exact absurd (Func.lt_of_title? htitle) (lt_irrefl _)
    | placed _ i b _ hnew hg => cases hnew
  · cases hok h with
    | placed _ j b _ hnew hg =>
      rw [hc] at hnew
      cases hnew
      exact ⟨rfl, Func.instr?_size, b, by rw [hg.instr, if_pos rfl]⟩
    | _ => cases hc
  · subst hc
    cases hok h with
    | placed _ i b _ hnew hg => cases hnew
    | removed _ _ hg =>
      obtain ⟨i, b, hi, -⟩ := hg.stood
      exact ⟨_, by rw [hg.instr, if_pos rfl, hi, Option.map_some], rfl⟩

theorem perform_keeps (hf : f.Arena) (c : Call) : (perform f c).Arena ∧ f.Persists (perform f c) := by
  unfold perform Edit.apply
  cases h : c.statements.run f with
  | error x g =>
    obtain ⟨rfl, -⟩ := (outcome c hf).fault x g h
    exact ⟨hf, .refl _⟩
  | ok r g =>
    rw [run_statements] at h
    have hd := done_of_edit hf h
    exact ⟨hd.arena hf, hd.persists⟩

end Call

namespace Func

variable {f : Func}

/-- The function after calls that follow one another, whether they end well or not. -/
def after (f : Func) (calls : List Call) : Func := calls.foldl Call.perform f

theorem after_keeps (hf : f.Arena) (calls : List Call) :
    (f.after calls).Arena ∧ f.Persists (f.after calls) := by
  induction calls generalizing f with
  | nil => exact ⟨hf, .refl f⟩
  | cons c calls ih =>
    obtain ⟨hc, hp⟩ := Call.perform_keeps hf c
    obtain ⟨hrest, hp'⟩ := ih hc
    exact ⟨hrest, hp.trans hp'⟩

/-- Whatever calls a function has seen since it was new, failed ones among them, its arena is sound,
its blocks and instructions keep their numbers through all further calls, and the next call either
faults and changes nothing or does its work and leaves the order of everything else alone. -/
theorem arena_after_calls (name : String) (params : List Param) (ret : Ty) (calls : List Call) :
    let f := after { name, params, ret } calls
    f.Arena ∧ (∀ later, f.Persists (f.after later)) ∧ ∀ c : Call, c.Outcome f := by
  have hf := (after_keeps (Arena.empty name params ret) calls).1
  exact ⟨hf, fun later => (after_keeps hf later).2, fun c => c.outcome hf⟩

end Func

end RegPressure
