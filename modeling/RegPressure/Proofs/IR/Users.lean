import RegPressure.Proofs.IR.Update
import Mathlib.Data.List.Sort

namespace RegPressure.Func

variable {f : Func} {id user : Int} {i : Instr} {users acc acc' : Array (List Int)}

theorem pairwise_instrIds : f.instrIds.Pairwise (· < ·) :=
  List.pairwise_lt_range.map _ fun _ _ => Int.ofNat_lt.mpr

theorem nodup_instrIds : f.instrIds.Nodup := pairwise_instrIds.imp fun h => h.ne

theorem usesOf_eq_true : usesOf i id = true ↔ i.isErased = false ∧ Value.instr id ∈ i.operands := by
  simp [usesOf]

theorem mem_users : user ∈ f.users id ↔
    ∃ i, f.instr? user = some i ∧ i.isErased = false ∧ Value.instr id ∈ i.operands := by
  simp only [users, List.mem_filter, Option.any_eq_true, usesOf_eq_true, mem_instrIds]
  constructor
  · exact fun h => h.2
  · rintro ⟨i, hi, huses⟩
    exact ⟨⟨i, hi⟩, i, hi, huses⟩

theorem pairwise_users (f : Func) (id : Int) : (f.users id).Pairwise (· < ·) :=
  pairwise_instrIds.filter _

theorem addUser_of_notMem {us : List Int} (h : user ∉ us) : addUser user us = us ++ [user] :=
  if_neg fun he => h (List.mem_of_getLast? he)

theorem addUser_concat (user : Int) (us : List Int) : addUser user (us ++ [user]) = us ++ [user] :=
  if_pos List.getLast?_concat

def noteUse (f : Func) (user : Int) (acc : Array (List Int)) : Value → Checked (Array (List Int))
  | .instr d =>
    if f.isLive d then .ok (acc.modify d.toNat (addUser user))
    else .error (.breach f.name (.danglingUse (f.instrLabel user) d))
  | _ => .ok acc

def noteUses (f : Func) (acc : Array (List Int)) (user : Int) : Checked (Array (List Int)) :=
  match f.instr? user with
  | some i => if i.isErased then .ok acc else i.operands.foldlM (f.noteUse user) acc
  | none => .ok acc

theorem userMap_eq :
    f.userMap = f.instrIds.foldlM f.noteUses (Array.replicate f.instrs.size []) := rfl

theorem noteUse_cases {v : Value} (h : f.noteUse user acc v = .ok acc') :
    (acc' = acc ∧ ∀ d, v ≠ .instr d) ∨
      ∃ d, v = .instr d ∧ f.isLive d = true ∧ acc' = acc.modify d.toNat (addUser user) := by
  cases v with
  | instr d =>
    rw [noteUse] at h
    split at h
    · next hd =>
      cases h
      exact .inr ⟨d, rfl, hd, rfl⟩
    · cases h
  | _ =>
    cases h
    exact .inl ⟨rfl, by rintro _ ⟨⟩⟩

structure Noted (f : Func) (acc : Array (List Int)) (known : Nat → List Int) : Prop where
  size : acc.size = f.instrs.size
  getElem? : ∀ d < f.instrs.size, acc[d]? = some (known d)

theorem Noted.modify {known : Nat → List Int} {g : List Int → List Int} (h : f.Noted acc known)
    (n : Nat) : f.Noted (acc.modify n g) fun d => if n = d then g (known d) else known d where
  size := by rw [Array.size_modify, h.size]
  getElem? d hd := by
    rw [Array.getElem?_modify, h.getElem? d hd]
    split <;> rfl

/-- What is noted of a user does not depend on how often and in which order it names its operands. -/
theorem Noted.operands {known : Nat → List Int} (hfresh : ∀ d, user ∉ known d) (ops done : List Value)
    (h : f.Noted acc fun d => known d ++ if Value.instr d ∈ done then [user] else [])
    (hops : ops.foldlM (f.noteUse user) acc = .ok acc') :
    f.Noted acc' fun d => known d ++ if Value.instr d ∈ done ++ ops then [user] else [] := by
  induction ops generalizing acc done with
  | nil =>
    cases hops
    simpa using h
  | cons v ops ih =>
    rw [List.foldlM_cons, Checked.bind_eq_ok] at hops
    obtain ⟨next, hnext, hops⟩ := hops
    rw [List.append_cons]
    refine ih (done ++ [v]) ?_ hops
    rcases noteUse_cases hnext with ⟨rfl, hv⟩ | ⟨x, rfl, hlive, rfl⟩
    · simpa [fun d => (hv d).symm] using h
    · obtain ⟨j, hj, -⟩ := isLive_iff.mp hlive
      obtain ⟨hpos, -⟩ := lt_of_instr? hj
      have hstep := h.modify (g := addUser user) x.toNat
      refine ⟨hstep.size, fun d hd => ?_⟩
      rw [hstep.getElem? d hd]
      by_cases hx : x = d
      · subst hx
        by_cases hdone : Value.instr d ∈ done
        · simp [hdone, addUser_concat]
        · simp [hdone, addUser_of_notMem (hfresh d)]
      · have hne : x.toNat ≠ d := by omega
        simp [hne, Ne.symm hx]

theorem Noted.noteUses {known : Nat → List Int} (h : f.Noted acc known) (hfresh : ∀ d, user ∉ known d)
    (hacc : f.noteUses acc user = .ok acc') : f.Noted acc' fun d =>
      known d ++ if (f.instr? user).any (usesOf · d) then [user] else [] := by
  unfold Func.noteUses at hacc
  cases hi : f.instr? user with
  | none =>
    rw [hi] at hacc
    cases hacc
    simpa using h
  | some i =>
    rw [hi] at hacc
    dsimp only at hacc
    split at hacc
    · next herased =>
      cases hacc
      simpa [usesOf, herased] using h
    · next hlive =>
      have hnone : f.Noted acc fun d =>
          known d ++ if Value.instr d ∈ ([] : List Value) then [user] else [] := by simpa using h
      simpa [usesOf, hlive] using Noted.operands hfresh i.operands [] hnone hacc

/-- What the map holds after some users is what each search finds among them. -/
theorem Noted.run (rest done : List Int) (hnodup : (done ++ rest).Nodup)
    (h : f.Noted acc fun d => done.filter fun u => (f.instr? u).any (usesOf · d))
    (hrest : rest.foldlM f.noteUses acc = .ok acc') :
    f.Noted acc' fun d => (done ++ rest).filter fun u => (f.instr? u).any (usesOf · d) := by
  induction rest generalizing acc done with
  | nil =>
    cases hrest
    simpa using h
  | cons user rest ih =>
    rw [List.foldlM_cons, Checked.bind_eq_ok] at hrest
    obtain ⟨next, hnext, hrest⟩ := hrest
    rw [List.append_cons] at hnodup ⊢
    have huser : user ∉ done := by
      have := (List.nodup_append.mp hnodup).1
      exact fun hmem => (List.nodup_append.mp this).2.2 user hmem user (by simp) rfl
    refine ih (done ++ [user]) hnodup ?_ hrest
    have hstep := h.noteUses (fun d hmem => huser (List.mem_filter.mp hmem).1) hnext
    simpa only [List.filter_append, List.filter_singleton, Bool.cond_eq_ite] using hstep

theorem noted_of_userMap (h : f.userMap = .ok users) : f.Noted users fun d => f.users d := by
  rw [userMap_eq] at h
  refine Noted.run f.instrIds [] nodup_instrIds ⟨by simp, fun d hd => ?_⟩ h
  simp [hd]

theorem cell_of_userMap (h : f.userMap = .ok users) (hi : f.instr? id = some i) :
    cell users id = .ok (f.users id) := by
  obtain ⟨hpos, hlt⟩ := lt_of_instr? hi
  obtain ⟨n, rfl⟩ := Int.eq_ofNat_of_zero_le hpos
  have hn := (noted_of_userMap h).getElem? n (Int.ofNat_lt.mp hlt)
  rw [cell, if_neg (by omega), Int.toNat_natCast, hn]

/-- The map can be filled exactly if all that is used has not been erased. -/
theorem answers_userMap_iff : Checked.Answers f.userMap ↔ ∀ user i, f.instr? user = some i →
    i.isErased = false → ∀ d, Value.instr d ∈ i.operands → f.isLive d = true := by
  rw [userMap_eq]
  constructor
  · rintro ⟨users, h⟩ user i hi hlive d hd
    refine Checked.foldlM_ensures (P := fun _ => True) (Q := fun _ => f.isLive d = true)
      (mem_instrIds.mpr ⟨i, hi⟩) (fun _ _ _ _ _ _ => trivial) (fun acc acc' _ hacc => ?_)
      (fun _ _ _ _ hq _ => hq) trivial h
    simp only [Func.noteUses, hi, hlive, Bool.false_eq_true, if_false] at hacc
    refine Checked.foldlM_ensures (P := fun _ => True) (Q := fun _ => f.isLive d = true) hd
      (fun _ _ _ _ _ _ => trivial) (fun acc acc' _ hacc => ?_) (fun _ _ _ _ hq _ => hq) trivial hacc
    rcases noteUse_cases hacc with ⟨-, hne⟩ | ⟨d', he, hd', -⟩
    · exact absurd rfl (hne d)
    · cases he
      exact hd'
  · intro h
    refine (Checked.answers_foldlM (fun _ => True) (fun acc user huser _ => ?_) trivial).imp
      fun _ hc => hc.1
    obtain ⟨i, hi⟩ := mem_instrIds.mp huser
    simp only [Func.noteUses, hi]
    cases hlive : i.isErased with
    | true => exact ⟨acc, rfl, trivial⟩
    | false =>
      refine Checked.answers_foldlM (fun _ => True) (fun acc v hv _ => ?_) trivial
      cases v with
      | instr d => exact ⟨_, by rw [noteUse, if_pos (h user i hi hlive d hv)], trivial⟩
      | _ => exact ⟨acc, rfl, trivial⟩

theorem userMap_spec (h : f.userMap = .ok users) (hi : f.instr? user = some i)
    (hlive : i.isErased = false) (hid : Value.instr id ∈ i.operands) : users.getD id.toNat [] ≠ [] := by
  obtain ⟨j, hj, -⟩ := isLive_iff.mp (answers_userMap_iff.mp ⟨users, h⟩ user i hi hlive id hid)
  obtain ⟨hpos, hlt⟩ := lt_of_instr? hj
  obtain ⟨n, rfl⟩ := Int.eq_ofNat_of_zero_le hpos
  have hn := (noted_of_userMap h).getElem? n (Int.ofNat_lt.mp hlt)
  rw [Array.getD_eq_getD_getElem?, Int.toNat_natCast, hn]
  exact List.ne_nil_of_mem (mem_users.mpr ⟨i, hi, hlive, hid⟩)

/-! ### Uses that move to another value -/

theorem mem_map_replaced {ops : List Value} {old : Int} {v : Value} :
    .instr id ∈ ops.map (fun o => if o = .instr old then v else o) ↔
      (id ≠ old ∧ .instr id ∈ ops) ∨ (v = .instr id ∧ .instr old ∈ ops) := by
  rw [List.mem_map]
  constructor
  · rintro ⟨o, ho, he⟩
    split at he
    · next heq => exact .inr ⟨he, heq ▸ ho⟩
    · next hne =>
      subst he
      exact .inl ⟨fun heq => hne (congrArg Value.instr heq), ho⟩
  · rintro (⟨hne, hid⟩ | ⟨rfl, hold⟩)
    · exact ⟨_, hid, if_neg fun he => hne (Value.instr.inj he)⟩
    · exact ⟨_, hold, if_pos rfl⟩

theorem mem_users_replaceAllUses {old : Int} {v : Value} : user ∈ (f.replaceAllUses old v).users id ↔
    (id ≠ old ∧ user ∈ f.users id) ∨ (v = .instr id ∧ user ∈ f.users old) := by
  simp only [mem_users, instr?_replaceAllUses]
  cases f.instr? user with
  | none => simp
  | some i =>
    by_cases herased : i.isErased = true
    · simp [herased]
    · simp only [Option.map_some, Option.some.injEq, exists_eq_left', herased, Bool.false_eq_true,
        if_false, mem_map_replaced]
      have hlive : i.isErased = false := by simpa using herased
      have hsame : ∀ ops, ({ i with operands := ops } : Instr).isErased = false := fun _ => hlive
      simp [hsame]

theorem users_replaceAllUses_of_ne {old : Int} {v : Value} (hid : id ≠ old) (hv : v ≠ .instr id) :
    (f.replaceAllUses old v).users id = f.users id := by
  refine (pairwise_users _ id).eq_of_mem_iff (pairwise_users f id) fun user => ?_
  simp [mem_users_replaceAllUses, hid, hv]

/-- Where whatever live instructions use is live, the map of all users can be filled, and it holds for
every live instruction what a search for its users finds: the live instructions that have it among their
operands, in ascending order and so each once. When every use of an instruction has been turned into a
use of a value that is not this instruction, the instruction has no users, the instruction that the value
is has got them besides its own, and all others have those they had. -/
theorem userMap_eq_users (h : ∀ user i, f.instr? user = some i → i.isErased = false →
      ∀ d, Value.instr d ∈ i.operands → f.isLive d = true) :
    (∃ users, f.userMap = .ok users ∧ users.size = f.instrs.size ∧
      ∀ id, f.isLive id = true → cell users id = .ok (f.users id)) ∧
    (∀ id, (f.users id).Pairwise (· < ·) ∧ ∀ user, user ∈ f.users id ↔
      ∃ i, f.instr? user = some i ∧ i.isErased = false ∧ Value.instr id ∈ i.operands) ∧
    ∀ old v, v ≠ .instr old → (f.replaceAllUses old v).users old = [] ∧ ∀ w, w ≠ old →
      (v ≠ .instr w → (f.replaceAllUses old v).users w = f.users w) ∧
      (v = .instr w → ((f.replaceAllUses old v).users w).Pairwise (· < ·) ∧
        ∀ user, user ∈ (f.replaceAllUses old v).users w ↔ user ∈ f.users w ∨ user ∈ f.users old) := by
  refine ⟨?_, fun id => ⟨pairwise_users f id, fun user => mem_users⟩, fun old v hv => ⟨?_, fun w hw => ?_⟩⟩
  · obtain ⟨users, husers⟩ := answers_userMap_iff.mpr h
    refine ⟨users, husers, (noted_of_userMap husers).size, fun id hid => ?_⟩
    obtain ⟨i, hi, -⟩ := isLive_iff.mp hid
    exact cell_of_userMap husers hi
  · refine List.eq_nil_iff_forall_not_mem.mpr fun user => ?_
    simp [mem_users_replaceAllUses, hv]
  · refine ⟨users_replaceAllUses_of_ne hw, fun he => ⟨pairwise_users _ w, fun user => ?_⟩⟩
    simp [mem_users_replaceAllUses, hw, he]

def repeating : Func where
  name := "f"
  params := [{ name := "x", ty := some .i32 }]
  blocks := #[{ name := "a", instrs := [0, 1, 2, 3] }]
  entry := some 0
  instrs := #[
    { home := some 0, op := .add, ty := .i32, operands := [.arg 0, .arg 0] },
    { home := some 0, op := .select, ty := .i32, operands := [.instr 0, .arg 0, .instr 0] },
    { home := some 0, op := .add, ty := .i32, operands := [.instr 1, .instr 0] },
    { home := some 0, op := .ret, operands := [.instr 2] }]

theorem repeating_users : (∀ user i, repeating.instr? user = some i → i.isErased = false →
      ∀ d, Value.instr d ∈ i.operands → repeating.isLive d = true) ∧
    (∃ users, repeating.userMap = .ok users ∧ cell users 0 = .ok [1, 2]) ∧
    (repeating.replaceAllUses 0 (.instr 2)).users 0 = [] ∧
    ∀ user, user ∈ (repeating.replaceAllUses 0 (.instr 2)).users 2 ↔ user = 3 ∨ user = 1 ∨ user = 2 := by
  have hlive : ∀ user i, repeating.instr? user = some i → i.isErased = false →
      ∀ d, Value.instr d ∈ i.operands → repeating.isLive d = true :=
    answers_userMap_iff.mp ⟨#[[1, 2], [2], [3], []], by decide⟩
  obtain ⟨⟨users, husers, -, hcell⟩, -, hmoved⟩ := userMap_eq_users hlive
  obtain ⟨hnone, hothers⟩ := hmoved 0 (.instr 2) (by decide)
  refine ⟨hlive, ⟨users, husers, hcell 0 (by decide)⟩, hnone, fun user => ?_⟩
  rw [((hothers 2 (by decide)).2 rfl).2 user, show repeating.users 2 = [3] by decide,
    show repeating.users 0 = [1, 2] by decide]
  simp

end RegPressure.Func
