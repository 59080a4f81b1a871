import RegPressure.Proofs.IR.Housed
import RegPressure.Proofs.IR.Names
import RegPressure.Proofs.Pass.Unchanged

namespace RegPressure

open Checked

theorem exists_labels {α κ β : Type} {l : List α} {labels : List β} {key : α → κ}
    (hlength : labels.length = l.length)
    (h : ∀ p ∈ l.zip labels, ∀ q ∈ l.zip labels, key p.1 = key q.1 → p.2 = q.2) (d : κ → β) :
    ∃ σ : κ → β, labels = l.map (fun a => σ (key a)) ∧ ∀ k, (∀ a ∈ l, key a ≠ k) → σ k = d k := by
  classical
  refine ⟨fun k => if hk : ∃ p ∈ l.zip labels, key p.1 = k then hk.choose.2 else d k, ?_, ?_⟩
  · refine List.ext_getElem (by simp [hlength]) fun n hn hn' => ?_
    have hlt : n < l.length := by simpa using hn'
    have hmem : (l[n], labels[n]) ∈ l.zip labels := by
      rw [List.mem_iff_getElem]
      exact ⟨n, by simpa [hlength] using hlt, by simp⟩
    have hk : ∃ p ∈ l.zip labels, key p.1 = key l[n] := ⟨_, hmem, rfl⟩
    rw [List.getElem_map]
    dsimp only
    rw [dif_pos hk]
    exact h _ hmem _ hk.choose_spec.1 hk.choose_spec.2.symm
  · intro k hk
    refine dif_neg ?_
    rintro ⟨p, hp, hkey⟩
    exact hk p.1 (List.of_mem_zip hp).1 hkey

namespace Rename

variable {isBad counts : String → Bool} {name : String}

def Plain (name : String) : Prop := name ≠ "" ∧ '$' ∉ name.toList

theorem notMem_strip (name : String) : '$' ∉ (strip name).toList := by
  simp [strip]

theorem free_spec (taken : List String) (hname : '$' ∉ name.toList) :
    free taken name ∉ taken ∧ Plain (free taken name) := by
  unfold free
  split
  · next h => exact ⟨by simp_all, by simp_all, hname⟩
  · have hbase : (if name = "" then "v" else name) ≠ "" ∧
        '$' ∉ (if name = "" then "v" else name).toList := by
      split
      · decide
      · exact ⟨‹_›, hname⟩
    generalize (if name = "" then "v" else name) = base at hbase
    obtain ⟨hnew, k, -, hk⟩ := firstFree_spec taken (base ++ ".") 1
    have hdigits : '$' ∉ Nat.toDigits 10 k := fun h =>
      absurd (Nat.isDigit_of_mem_toDigits (by decide) (by decide) h) (by decide)
    refine ⟨hnew, ?_⟩
    rw [hk]
    exact ⟨by simp [hbase.1], by simp [hbase.2, hdigits]⟩

theorem forall₂_clean (isBad : String → Bool) (taken names : List String) :
    List.Forall₂ (fun old new => if isBad old then Plain new else new = old) names
      (clean isBad taken names) := by
  induction names generalizing taken with
  | nil => exact .nil
  | cons n ns ih =>
    unfold clean
    split
    · next hbad =>
      refine .cons ?_ (ih _)
      rw [if_pos hbad]
      exact (free_spec _ (notMem_strip n)).2
    · next hgood =>
      refine .cons ?_ (ih _)
      rw [if_neg hgood]

/-- Names that count and are all different stay so. Only what counts has to be taken. -/
theorem nodup_clean (isBad counts : String → Bool) {taken names : List String} (others : List String)
    (hbad : ∀ n, isBad n = true → counts n = true)
    (hplain : ∀ n, Plain n → counts n = true)
    (hnodup : (others ++ names.filter counts).Nodup)
    (htaken : ∀ n ∈ others ++ names.filter counts, n ∈ taken) :
    (others ++ (clean isBad taken names).filter counts).Nodup := by
  -- A new name is none of `taken`, which has the names given before it and those that still wait for
  -- their turn.
  induction names generalizing taken others with
  | nil => exact hnodup
  | cons n ns ih =>
    unfold clean
    split
    · next hn =>
      have hcount := hbad n hn
      obtain ⟨hnew, hp⟩ := free_spec taken (notMem_strip n)
      generalize free taken (strip n) = new at hnew hp
      rw [List.filter_cons_of_pos hcount] at hnodup htaken
      obtain ⟨hmem, hrest⟩ := List.nodup_cons.mp (List.perm_middle.nodup_iff.mp hnodup)
      rw [List.filter_cons_of_pos (hplain new hp), List.perm_middle.nodup_iff, ← List.cons_append]
      refine ih _ ?_ fun x hx => ?_
      · refine List.nodup_cons.mpr ⟨fun h => hnew (htaken _ ?_), hrest⟩
        exact List.perm_middle.mem_iff.mpr (List.mem_cons_of_mem _ h)
      · rw [List.cons_append, List.mem_cons] at hx
        refine List.mem_cons.mpr (hx.imp_right fun hx => List.mem_filter.mpr ⟨?_, ?_⟩)
        · exact htaken x (List.perm_middle.mem_iff.mpr (List.mem_cons_of_mem _ hx))
        · simpa using ne_of_mem_of_not_mem hx hmem
    · next hn =>
      by_cases hcount : counts n = true
      · rw [List.filter_cons_of_pos hcount] at hnodup htaken ⊢
        rw [List.perm_middle.nodup_iff, ← List.cons_append]
        exact ih _ (List.perm_middle.nodup_iff.mp hnodup) fun x hx =>
          htaken x (List.perm_middle.mem_iff.mpr hx)
      · rw [List.filter_cons_of_neg hcount] at hnodup htaken ⊢
        exact ih _ hnodup htaken

/-- New names as a table: by `key`, where the names are all different or do not count. -/
theorem exists_table {α κ : Type} (isBad counts : String → Bool) (l : List α) (name : α → String)
    (key : α → κ) (hbad : ∀ n, isBad n = true → counts n = true)
    (hnodup : ((l.map name).filter counts).Nodup)
    (hkey : ∀ a ∈ l, ∀ b ∈ l, key a = key b → name a = name b) (taken : List String)
    (d : κ → String) :
    ∃ σ : κ → String, clean isBad taken (l.map name) = l.map (fun a => σ (key a)) ∧
      (∀ a ∈ l, if isBad (name a) then Plain (σ (key a)) else σ (key a) = name a) ∧
      ∀ k, (∀ a ∈ l, key a ≠ k) → σ k = d k := by
  have hlength : (clean isBad taken (l.map name)).length = l.length := by
    rw [Module.length_rename_clean, List.length_map]
  have hclean := forall₂_clean isBad taken (l.map name)
  have hzip : ∀ p ∈ l.zip (clean isBad taken (l.map name)),
      if isBad (name p.1) then Plain p.2 else p.2 = name p.1 := by
    rw [List.forall₂_map_left_iff, List.forall₂_iff_zip] at hclean
    exact fun p hp => hclean.2 hp
  -- Where a name counts, it says which of the pairs it comes from.
  have hsame : ∀ p ∈ l.zip (clean isBad taken (l.map name)),
      ∀ q ∈ l.zip (clean isBad taken (l.map name)), key p.1 = key q.1 → p.2 = q.2 := by
    intro p hp q hq hpq
    have hname := hkey p.1 (List.of_mem_zip hp).1 q.1 (List.of_mem_zip hq).1 hpq
    by_cases hcount : counts (name p.1) = true
    · have hnames : (l.zip (clean isBad taken (l.map name))).map (fun r => name r.1) =
          l.map name := by
        rw [← Function.comp_def, ← List.map_map, List.map_fst_zip hlength.ge]
      rw [← hnames, List.filter_map] at hnodup
      exact congrArg Prod.snd (List.inj_on_of_nodup_map hnodup
        (List.mem_filter.mpr ⟨hp, hcount⟩) (List.mem_filter.mpr ⟨hq, by simpa [← hname]⟩) hname)
    · have hp := hzip p hp
      have hq := hzip q hq
      rw [if_neg fun hn => hcount (hbad _ hn)] at hp
      rw [← hname, if_neg fun hn => hcount (hbad _ hn)] at hq
      rw [hp, hq]
  obtain ⟨σ, hσ, hother⟩ := exists_labels hlength hsame d
  refine ⟨σ, hσ, ?_, hother⟩
  rw [hσ, List.forall₂_map_left_iff, List.forall₂_map_right_iff, List.forall₂_same] at hclean
  exact hclean

theorem changes_eq {α : Type} {l : List α} {name label : α → String}
    (hbad : ∀ n, isBad n = true → '$' ∈ n.toList)
    (h : ∀ a ∈ l, if isBad (name a) then Plain (label a) else label a = name a) (func : String) :
    changes isBad func (l.map name) (l.map label) =
      (l.filter fun a => name a ≠ label a).map fun a => ⟨func, name a, label a⟩ := by
  rw [changes, List.zip_map', List.filter_map, List.map_map]
  refine congrArg (List.map _) (List.filter_congr fun a ha => ?_)
  have ha := h a ha
  dsimp only [Function.comp_apply]
  split at ha
  · next hn =>
    have hne : name a ≠ label a := fun he => ha.2 (he ▸ hbad _ hn)
    simp [hn, hne]
  · next hn => simp [hn, ha]

theorem mem_of_badInstr {n : String} (h : badInstr n = true) : '$' ∈ n.toList :=
  List.contains_iff_mem.mp h

theorem mem_of_badGlobal {n : String} (h : badGlobal n = true) : '$' ∈ n.toList :=
  (String.startsWith_string_iff.mp h).subset (List.mem_singleton.mpr rfl)

end Rename

namespace Symbols

variable {s : Symbols} {τ : String → String}

def relabeled (s : Symbols) (τ : String → String) : Symbols :=
  { s with globals := s.globals.map fun g => { g with name := τ g.name } }

def Cleans (s : Symbols) (τ : String → String) : Prop :=
  ∀ g ∈ s.globals, τ g.name ≠ g.name → g.name.startsWith "$" = true

def renames (s : Symbols) (τ : String → String) : List Rename :=
  (s.globals.filter fun g => g.name ≠ τ g.name).map fun g => ⟨"", g.name, τ g.name⟩

def DistinctNames (s : Symbols) : Prop := (s.globals.map (·.name)).Nodup

def NoDollar (s : Symbols) : Prop := ∀ g ∈ s.globals, g.name.startsWith "$" = false

theorem DistinctNames.exists_clean (h : s.DistinctNames) : ∃ τ, s.Cleans τ ∧
    s.clean = (s.relabeled τ, s.renames τ) ∧ (s.relabeled τ).DistinctNames ∧
      (s.relabeled τ).NoDollar := by
  have hnodup : ((s.globals.map (·.name)).filter fun _ => true).Nodup := by rwa [List.filter_true]
  obtain ⟨τ, hnew, hτ, -⟩ := Rename.exists_table Rename.badGlobal (fun _ => true) s.globals (·.name)
    (·.name) (fun _ _ => rfl) hnodup (fun _ _ _ _ he => he) (s.globals.map (·.name)) id
  refine ⟨τ, fun g hg hne => ?_, ?_, ?_, fun g hg => ?_⟩
  · by_contra hgood
    have hg := hτ g hg
    rw [if_neg (show ¬Rename.badGlobal g.name = true from hgood)] at hg
    exact hne hg
  · rw [clean]
    dsimp only
    rw [hnew, Rename.changes_eq (fun _ => Rename.mem_of_badGlobal) hτ, ← List.map_prod_left_eq_zip,
      List.map_map]
    rfl
  · have hclean := Rename.nodup_clean Rename.badGlobal (fun _ => true) [] (fun _ _ => rfl)
      (fun _ _ => rfl) hnodup fun n hn => (List.mem_filter.mp hn).1
    rw [hnew] at hclean
    simpa [DistinctNames, relabeled, Function.comp_def] using hclean
  · obtain ⟨g, hmem, rfl⟩ := List.mem_map.mp hg
    have hg := hτ g hmem
    split at hg
    · exact Bool.eq_false_iff.mpr fun h => hg.2 (Rename.mem_of_badGlobal h)
    · next hgood =>
      rw [hg]
      exact Bool.eq_false_iff.mpr hgood

theorem NoDollar.renames_eq_nil (h : s.NoDollar) (hτ : s.Cleans τ) : s.renames τ = [] := by
  rw [renames, List.map_eq_nil_iff, List.filter_eq_nil_iff]
  intro g hg hne
  have hdollar := hτ g hg (Ne.symm (of_decide_eq_true hne))
  rw [h g hg] at hdollar
  cases hdollar

end Symbols

namespace Func

variable {f : Func} {σ : Int → String} {placed : List (Int × Instr)} {id : Int}

def relabeled (f : Func) (σ : Int → String) : Func :=
  { f with instrs := f.instrs.mapIdx fun n i => { i with name := σ n } }

@[simp] theorem instr?_relabeled :
    (f.relabeled σ).instr? id = (f.instr? id).map ({ · with name := σ id }) := by
  unfold instr? relabeled
  split
  · rfl
  · next hneg => rw [Array.getElem?_mapIdx, Int.toNat_of_nonneg (by omega)]

theorem relabeled_setInstr (f : Func) (id : Int) (name : String) (σ : Int → String) :
    (f.setInstr id ({ · with name })).relabeled σ = f.relabeled σ := by
  unfold setInstr
  split
  · rfl
  · unfold relabeled
    congr 1
    refine Array.ext_getElem? fun n => ?_
    simp only [Array.getElem?_mapIdx, Array.getElem?_modify]
    split
    · rw [Option.map_map]
      rfl
    · rfl

theorem relabeled_eq_self (h : ∀ id i, f.instr? id = some i → σ id = i.name) : f.relabeled σ = f := by
  unfold relabeled
  congr 1
  refine Array.ext_getElem? fun n => ?_
  rw [Array.getElem?_mapIdx]
  cases hn : f.instrs[n]? with
  | none => rfl
  | some i => rw [Option.map_some, h n i (by simpa [instr?] using hn)]

theorem foldl_setInstr_name
    (h : ∀ id i, f.instr? id = some i → (∀ x ∈ placed, x.1 ≠ id) → σ id = i.name) :
    placed.foldl (fun f x => f.setInstr x.1 ({ · with name := σ x.1 })) f = f.relabeled σ := by
  induction placed generalizing f with
  | nil => exact (relabeled_eq_self fun id i hi => h id i hi (by simp)).symm
  | cons x l ih =>
    rw [List.foldl_cons, ih, relabeled_setInstr]
    intro id i hi hl
    rw [instr?_setInstr] at hi
    split at hi
    · next he =>
      obtain ⟨j, -, rfl⟩ := Option.map_eq_some_iff.mp hi
      rw [he]
    · next hne => exact h id i hi (List.forall_mem_cons.mpr ⟨hne, hl⟩)

theorem placed_relabeled (h : f.placed = .ok placed) :
    (f.relabeled σ).placed = .ok (placed.map fun x => (x.1, { x.2 with name := σ x.1 })) := by
  rw [Func.placed, Checked.mapM_eq_ok] at h ⊢
  rw [List.forall₂_map_right_iff]
  refine h.imp fun id x hx => ?_
  simp only [Checked.bind_eq_ok, Checked.pure_eq_ok, cell_eq_ok] at hx ⊢
  obtain ⟨i, hi, rfl⟩ := hx
  exact ⟨_, by rw [instr?_relabeled, hi]; rfl, rfl⟩

/-- The parameters and the instructions that stand in blocks go by different names. Not every
instruction has a name. -/
def DistinctNames (f : Func) : Prop := ∃ placed, f.placed = .ok placed ∧
  (f.params.map (·.name) ++ (placed.map (·.2.name)).filter (· ≠ "")).Nodup

theorem Intact.named_iff {scope : Option Symbols} (hf : f.Intact scope) (h : f.placed = .ok placed)
    {x : String} : f.Named id x ↔ x ≠ "" ∧ ∃ i, (id, i) ∈ placed ∧ i.name = x := by
  refine and_congr_right fun _ => exists_congr fun i => ?_
  constructor
  · rintro ⟨hi, hlive, hx⟩
    obtain ⟨b, hb⟩ := hf.stands id i hi hlive
    exact ⟨mem_placed_of_stands h hb hi, hx⟩
  · rintro ⟨hmem, hx⟩
    obtain ⟨hi, b, hb⟩ := mem_placed h hmem
    exact ⟨hi, by rw [Instr.isErased, hf.wellFormed.home_eq hb hi]; rfl, hx⟩

theorem Intact.distinctNames_iff {scope : Option Symbols} (hf : f.Intact scope)
    (hparams : ∀ q ∈ f.params, q.name ≠ "") : f.DistinctNames ↔ f.NamesApart := by
  obtain ⟨placed, hplaced, -⟩ := hf.wellFormed.exists_placed
  have hids := hf.wellFormed.housed.nodup_placed hplaced
  constructor
  · rintro ⟨placed', hplaced', hnodup⟩
    cases hplaced.symm.trans hplaced'
    rw [List.filter_map] at hnodup
    obtain ⟨hdistinct, hinstrs, hnew⟩ := List.nodup_append.mp hnodup
    have hnamed : ∀ x id, f.Named id x → ∃ i, i.name = x ∧
        (id, i) ∈ placed.filter ((fun n => decide (n ≠ "")) ∘ fun y => y.2.name) := by
      intro x id hid
      obtain ⟨hne, i, hi, rfl⟩ := (hf.named_iff hplaced).mp hid
      exact ⟨i, rfl, List.mem_filter.mpr ⟨hi, decide_eq_true hne⟩⟩
    refine ⟨hparams, hdistinct, fun x id u hid hu => ?_, fun x id hid q hq => ?_⟩
    · obtain ⟨i, rfl, hi⟩ := hnamed x id hid
      obtain ⟨j, hx, hj⟩ := hnamed i.name u hu
      exact congrArg Prod.fst (List.inj_on_of_nodup_map hinstrs hi hj hx.symm)
    · obtain ⟨i, rfl, hi⟩ := hnamed x id hid
      exact hnew q.name (List.mem_map_of_mem hq) i.name (List.mem_map_of_mem hi)
  · intro hnames
    have hnamed : ∀ y ∈ placed.filter ((fun n => decide (n ≠ "")) ∘ fun y => y.2.name),
        y ∈ placed ∧ f.Named y.1 y.2.name := by
      intro y hy
      obtain ⟨hmem, hne⟩ := List.mem_filter.mp hy
      exact ⟨hmem, (hf.named_iff hplaced).mpr ⟨of_decide_eq_true hne, y.2, hmem, rfl⟩⟩
    refine ⟨placed, hplaced, ?_⟩
    rw [List.filter_map]
    refine List.nodup_append.mpr ⟨hnames.params, ?_, ?_⟩
    · refine List.Nodup.map_on (fun y hy z hz he => ?_) (hids.of_map.filter _)
      obtain ⟨hy, hyname⟩ := hnamed y hy
      obtain ⟨hz, hzname⟩ := hnamed z hz
      exact List.inj_on_of_nodup_map hids hy hz
        (hnames.unique y.2.name y.1 z.1 hyname (he ▸ hzname))
    · rintro x hx _ hy rfl
      obtain ⟨q, hq, rfl⟩ := List.mem_map.mp hx
      obtain ⟨y, hy, hyname⟩ := List.mem_map.mp hy
      exact hnames.new _ y.1 (hnamed y hy).2 q hq hyname.symm

structure Cleans (f : Func) (placed : List (Int × Instr)) (σ : Int → String) : Prop where
  listed : f.placed = .ok placed
  kept : ∀ id i, f.instr? id = some i → σ id ≠ i.name → '$' ∈ i.name.toList ∧ (id, i) ∈ placed

def NoDollar (f : Func) : Prop :=
  ∀ b id i, f.Stands b id → f.instr? id = some i → '$' ∉ i.name.toList

def renames (f : Func) (placed : List (Int × Instr)) (σ : Int → String) : List Rename :=
  (placed.filter fun x => x.2.name ≠ σ x.1).map fun x => ⟨f.name, x.2.name, σ x.1⟩

theorem DistinctNames.exists_clean (h : f.DistinctNames) : ∃ placed σ, f.Cleans placed σ ∧
    f.clean = .ok (f.relabeled σ, f.renames placed σ) ∧ (f.relabeled σ).DistinctNames ∧
      (f.relabeled σ).NoDollar := by
  obtain ⟨placed, hplaced, hnodup⟩ := h
  have hbad : ∀ n, Rename.badInstr n = true → decide (n ≠ "") = true := by
    rintro n hn
    refine decide_eq_true fun he => ?_
    simp [he, Rename.badInstr] at hn
  have hmem : ∀ x ∈ placed, f.instr? x.1 = some x.2 := fun x hx => (mem_placed hplaced hx).1
  obtain ⟨σ, hnew, hσ, hother⟩ := Rename.exists_table Rename.badInstr (· ≠ "") placed
    (·.2.name) (·.1) hbad (List.nodup_append.mp hnodup).2.1
    (fun x hx y hy he => by
      have hxy := hmem x hx
      rw [he, hmem y hy] at hxy
      rw [Option.some.inj hxy])
    (f.params.map (·.name) ++ (placed.map (·.2.name)).filter (· ≠ ""))
    (fun id => ((f.instr? id).map (·.name)).getD "")
  have hlabel : ∀ id i, f.instr? id = some i → (∀ x ∈ placed, x.1 ≠ id) → σ id = i.name :=
    fun id i hi hid => by rw [hother id hid, hi]; rfl
  refine ⟨placed, σ, ⟨hplaced, fun id i hi hne => ?_⟩, ?_, ⟨_, placed_relabeled hplaced, ?_⟩,
    fun b id i hb hi => ?_⟩
  · by_cases hstands : ∀ x ∈ placed, x.1 ≠ id
    · exact absurd (hlabel id i hi hstands) hne
    · push Not at hstands
      obtain ⟨x, hx, rfl⟩ := hstands
      obtain rfl := Option.some.inj (hi.symm.trans (hmem x hx))
      refine ⟨?_, hx⟩
      by_contra hgood
      have hx := hσ x hx
      rw [if_neg fun h => hgood (Rename.mem_of_badInstr h)] at hx
      exact hne hx
  · rw [Func.clean, hplaced, Checked.ok_bind]
    dsimp only
    rw [hnew, Rename.changes_eq (fun _ => Rename.mem_of_badInstr) hσ, ← List.map_prod_left_eq_zip,
      List.foldl_map, ← foldl_setInstr_name hlabel]
    rfl
  · have hclean := Rename.nodup_clean Rename.badInstr (· ≠ "") _ hbad
      (fun n hn => decide_eq_true hn.1) hnodup (fun n hn => hn)
    rw [hnew] at hclean
    simpa [relabeled, Function.comp_def] using hclean
  · rw [instr?_relabeled] at hi
    obtain ⟨j, hj, rfl⟩ := Option.map_eq_some_iff.mp hi
    have hx := hσ (id, j) (mem_placed_of_stands hplaced hb hj)
    split at hx
    · exact hx.2
    · next hgood =>
      dsimp only at hx ⊢
      rw [hx]
      exact fun h => hgood (List.contains_iff_mem.mpr h)

theorem NoDollar.renames_eq_nil (h : f.NoDollar) (hσ : f.Cleans placed σ) :
    f.renames placed σ = [] := by
  rw [renames, List.map_eq_nil_iff, List.filter_eq_nil_iff]
  intro x hx hne
  obtain ⟨hi, b, hb⟩ := mem_placed hσ.listed hx
  exact h b x.1 x.2 hb hi (hσ.kept x.1 x.2 hi (Ne.symm (of_decide_eq_true hne))).1

/-- The outcome for a function: its instructions under new names, and the records of these. -/
def CleansTo (f : Func) (r : Func × List Rename) : Prop :=
  ∃ placed σ, f.Cleans placed σ ∧ r = (f.relabeled σ, f.renames placed σ)

end Func

namespace Module

variable {m m' : Module} {records : List Rename}

structure DistinctNames (m : Module) : Prop where
  symbols : m.symbols.DistinctNames
  funcs : ∀ f ∈ m.funcs, f.DistinctNames

/-- No global begins with a dollar sign, and no instruction has one. -/
structure NoDollar (m : Module) : Prop where
  symbols : m.symbols.NoDollar
  funcs : ∀ f ∈ m.funcs, f.NoDollar

theorem exists_of_cleaned {cleaned : List (Func × List Rename)} {r : Func × List Rename}
    (h : List.Forall₂ Func.CleansTo m.funcs cleaned) (hr : r ∈ cleaned) :
    ∃ f ∈ m.funcs, f.CleansTo r := by
  obtain ⟨n, hn, rfl⟩ := List.mem_iff_getElem.mp hr
  have hf : n < m.funcs.length := h.length_eq ▸ hn
  exact ⟨_, List.getElem_mem hf, (List.forall₂_iff_get.mp h).2 n hf hn⟩

/-- The outcome for a module: the records come in the order of the globals, then of the functions. -/
def CleansTo (m m' : Module) (records : List Rename) : Prop :=
  ∃ τ cleaned, m.symbols.Cleans τ ∧ List.Forall₂ Func.CleansTo m.funcs cleaned ∧
    m' = { m with symbols := m.symbols.relabeled τ, funcs := cleaned.map (·.1) } ∧
    records = m.symbols.renames τ ++ cleaned.flatMap (·.2)

theorem DistinctNames.exists_clean (h : m.DistinctNames) : ∃ m' records,
    m.clean = .ok (m', records) ∧ m.CleansTo m' records ∧ m'.DistinctNames ∧ m'.NoDollar := by
  obtain ⟨τ, hτ, hsymbols, hdistinct, hplain⟩ := h.symbols.exists_clean
  have hfuncs : ∀ f ∈ m.funcs, ∃ r, f.clean = .ok r := fun f hf => by
    obtain ⟨placed, σ, -, hclean, -⟩ := (h.funcs f hf).exists_clean
    exact ⟨_, hclean⟩
  obtain ⟨cleaned, hcleaned⟩ := answers_mapM hfuncs
  have hspec : ∀ f ∈ m.funcs, ∀ r, f.clean = .ok r →
      f.CleansTo r ∧ r.1.DistinctNames ∧ r.1.NoDollar := fun f hf r hr => by
    obtain ⟨placed, σ, hσ, hclean, hd, hn⟩ := (h.funcs f hf).exists_clean
    cases hr.symm.trans hclean
    exact ⟨⟨placed, σ, hσ, rfl⟩, hd, hn⟩
  have hout : ∀ g ∈ cleaned.map (·.1), g.DistinctNames ∧ g.NoDollar := fun g hg => by
    obtain ⟨r, hr, rfl⟩ := List.mem_map.mp hg
    obtain ⟨f, hf, he⟩ := mem_of_mapM hcleaned hr
    exact (hspec f hf r he).2
  refine ⟨_, _, ?_, ⟨τ, cleaned, hτ, ?_, rfl, rfl⟩, ⟨hdistinct, fun g hg => (hout g hg).1⟩,
    ⟨hplain, fun g hg => (hout g hg).2⟩⟩
  · rw [Module.clean, hsymbols]
    dsimp only
    rw [hcleaned]
    rfl
  · have hall := mapM_eq_ok.mp hcleaned
    exact List.forall₂_iff_zip.mpr ⟨hall.length_eq, fun hp =>
      (hspec _ (List.of_mem_zip hp).1 _ (List.forall₂_zip hall hp)).1⟩

theorem NoDollar.records_eq_nil (h : m.NoDollar) (hm : m.CleansTo m' records) : records = [] := by
  obtain ⟨τ, cleaned, hτ, hcleaned, -, rfl⟩ := hm
  rw [List.append_eq_nil_iff, List.flatMap_eq_nil_iff]
  refine ⟨h.symbols.renames_eq_nil hτ, fun r hr => ?_⟩
  obtain ⟨f, hf, placed, σ, hσ, rfl⟩ := exists_of_cleaned hcleaned hr
  exact (h.funcs f hf).renames_eq_nil hσ

/-- Cleaning ends, keeps the names of a module distinct and rids them of dollar signs. It changes
nothing but names that had some, and tells which, and there is nothing left to change. -/
theorem clean_distinct_names (h : m.DistinctNames) : ∃ m' records, m.clean = .ok (m', records) ∧
    m.CleansTo m' records ∧ m'.DistinctNames ∧ m'.NoDollar ∧ m'.clean = .ok (m', []) := by
  obtain ⟨m', records, hclean, hto, hdistinct, hplain⟩ := h.exists_clean
  obtain ⟨m'', records', hclean', hto', -⟩ := hdistinct.exists_clean
  obtain rfl := hplain.records_eq_nil hto'
  have hsame : m'' = m' := clean_of_nil hclean' rfl
  rw [hsame] at hclean'
  exact ⟨m', records, hclean, hto, hdistinct, hplain, hclean'⟩

def dollarNames : Module where
  symbols := { globals := [⟨"$tmp", some .i32, false⟩, ⟨"tmp", some .i32, false⟩,
    ⟨"keep$me", some .i32, false⟩] }
  funcs := [{
    name := "f"
    params := [⟨"n", some .i32⟩]
    ret := .i32
    blocks := #[{ name := "entry", instrs := [0, 1, 2, 3, 4] }]
    instrs := #[
      { op := .add, ty := .i32, name := "a$1", operands := [.arg 0, .int (some .i32) 1],
        home := some 0 },
      { op := .add, ty := .i32, name := "a1", operands := [.instr 0, .int (some .i32) 1],
        home := some 0 },
      { op := .add, ty := .i32, name := "$$", operands := [.instr 1, .int (some .i32) 2],
        home := some 0 },
      { op := .add, ty := .i32, name := "a1$", operands := [.instr 2, .int (some .i32) 3],
        home := some 0 },
      { op := .ret, ty := .void, operands := [.instr 3], home := some 0 }]
    entry := some 0 }]

theorem dollarNames_cleaned : dollarNames.DistinctNames ∧ ∃ m', dollarNames.clean = .ok (m',
    [⟨"", "$tmp", "tmp.1"⟩, ⟨"f", "a$1", "a1.1"⟩, ⟨"f", "$$", "v.1"⟩, ⟨"f", "a1$", "a1.2"⟩]) ∧
    m'.DistinctNames ∧ m'.NoDollar ∧ m'.clean = .ok (m', []) := by
  have hdistinct : dollarNames.DistinctNames := by
    refine ⟨by simp [Symbols.DistinctNames, dollarNames], fun f hf => ?_⟩
    rw [List.mem_singleton.mp hf]
    exact ⟨_, rfl, by decide⟩
  refine ⟨hdistinct, ?_⟩
  obtain ⟨m', records, hclean, -, hkept⟩ := clean_distinct_names hdistinct
  have hrecords : dollarNames.clean.toOption.map (·.2) = some
      [⟨"", "$tmp", "tmp.1"⟩, ⟨"f", "a$1", "a1.1"⟩, ⟨"f", "$$", "v.1"⟩, ⟨"f", "a1$", "a1.2"⟩] := by
    decide +kernel
  rw [hclean] at hrecords
  obtain rfl := Option.some.inj hrecords
  exact ⟨m', hclean, hkept⟩

end Module

end RegPressure
