import RegPressure.Proofs.Pass.Schedule

namespace RegPressure

structure Slots (ι κ : Type) where
  slot : Nat → ι
  tally : κ

structure SlotJobs (ι ν σ ε : Type) where
  start : Nat → σ
  /-- What job `i` does next, to its slot and to the tally. -/
  next : Nat → σ → ι → (σ ⊕ Option ε) × ι × List ν

variable {ι κ ν σ ε : Type}

namespace SlotJobs

def jobs (J : SlotJobs ι ν σ ε) (note : κ → ν → κ) : Jobs (Slots ι κ) (Nat × σ) ε where
  start i := (i, J.start i)
  next job x :=
    let (after, y, notes) := J.next job.1 job.2 (x.slot job.1)
    (after.map (job.1, ·) id,
      { slot := Function.update x.slot job.1 y, tally := notes.foldl note x.tally })

/-- Job `i` on its own comes to an end: the notes of each of its steps, its result and its slot. -/
inductive Ends (J : SlotJobs ι ν σ ε) (i : Nat) :
    σ → ι → List (List ν) → Option ε → ι → Prop
  | last {job x notes result y} (h : J.next i job x = (.inr result, y, notes)) :
    Ends J i job x [notes] result y
  | more {job x notes job' y rest result z} (h : J.next i job x = (.inl job', y, notes))
    (hrest : Ends J i job' y rest result z) : Ends J i job x (notes :: rest) result z

def pending (is : List Nat) (rest : Nat → List (List ν)) : List ν := is.flatMap fun i => (rest i).flatten

def steps (is : List Nat) (rest : Nat → List (List ν)) : Nat := (is.map fun i => (rest i).length).sum

variable {is : List Nat} {rest : Nat → List (List ν)} {i : Nat} {notes : List ν}
  {later : List (List ν)}

theorem pending_update_of_notMem (hi : i ∉ is) (rest : Nat → List (List ν)) (x : List (List ν)) :
    pending is (Function.update rest i x) = pending is rest := by
  refine List.flatMap_congr fun j hj => ?_
  rw [Function.update_of_ne (by rintro rfl; exact hi hj)]

theorem steps_update_of_notMem (hi : i ∉ is) (rest : Nat → List (List ν)) (x : List (List ν)) :
    steps is (Function.update rest i x) = steps is rest := by
  refine congrArg List.sum (List.map_congr_left fun j hj => ?_)
  rw [Function.update_of_ne (by rintro rfl; exact hi hj)]

theorem pending_update (his : is.Nodup) (hi : i ∈ is) (hrest : rest i = notes :: later) :
    (pending is rest).Perm (notes ++ pending is (Function.update rest i later)) := by
  obtain ⟨a, b, rfl⟩ := List.append_of_mem hi
  have hnot : i ∉ a ∧ i ∉ b := by
    rw [List.nodup_append] at his
    exact ⟨fun ha => his.2.2 i ha i (by simp) rfl, (List.nodup_cons.mp his.2.1).1⟩
  have ha := pending_update_of_notMem hnot.1 rest later
  have hb := pending_update_of_notMem hnot.2 rest later
  unfold pending at ha hb ⊢
  rw [List.flatMap_append, List.flatMap_append, List.flatMap_cons, List.flatMap_cons, ha, hb, hrest,
    Function.update_self, List.flatten_cons, List.append_assoc]
  exact List.perm_append_comm_assoc ..

theorem steps_update (his : is.Nodup) (hi : i ∈ is) (hrest : rest i = notes :: later) :
    steps is (Function.update rest i later) < steps is rest := by
  obtain ⟨a, b, rfl⟩ := List.append_of_mem hi
  have hnot : i ∉ a ∧ i ∉ b := by
    rw [List.nodup_append] at his
    exact ⟨fun ha => his.2.2 i ha i (by simp) rfl, (List.nodup_cons.mp his.2.1).1⟩
  have ha := steps_update_of_notMem hnot.1 rest later
  have hb := steps_update_of_notMem hnot.2 rest later
  unfold steps at ha hb ⊢
  rw [List.map_append, List.map_append, List.map_cons, List.map_cons, List.sum_append,
    List.sum_append, List.sum_cons, List.sum_cons, ha, hb, hrest, Function.update_self,
    List.length_cons]
  omega

structure Effects (J : SlotJobs ι ν σ ε) (n : Nat) (slot : Nat → ι) where
  notes : Nat → List (List ν)
  result : Nat → Option ε
  final : Nat → ι
  ends : ∀ i < n, J.Ends i (J.start i) (slot i) (notes i) (result i) (final i)

theorem next_jobs (J : SlotJobs ι ν σ ε) (note : κ → ν → κ) {i : Nat} {job : σ} {x : Slots ι κ}
    {after : σ ⊕ Option ε} {y : ι} {notes : List ν} (h : J.next i job (x.slot i) = (after, y, notes)) :
    (J.jobs note).next (i, job) x =
      (after.map (i, ·) id, ⟨Function.update x.slot i y, notes.foldl note x.tally⟩) := by
  simp only [jobs, h]

variable {J : SlotJobs ι ν σ ε} {note : κ → ν → κ} {n : Nat} {slot : Nat → ι} {tally : κ}
  {pool : Pool} {workers : Nat} {t : List (JobEvent ε)} {s s' : Crew (Slots ι κ) (Nat × σ) ε}
  {event : Option (JobEvent ε)}

structure Alone (E : Effects J n slot) (note : κ → ν → κ) (tally : κ) (t : List (JobEvent ε))
    (s : Crew (Slots ι κ) (Nat × σ) ε) (rest : Nat → List (List ν)) : Prop where
  fresh : ∀ i < n, i ∉ begunIn t → s.shared.slot i = slot i ∧ rest i = E.notes i
  busy : ∀ i job, .busy i job ∈ s.workers →
    job.1 = i ∧ J.Ends i job.2 (s.shared.slot i) (rest i) (E.result i) (E.final i)
  ended : ∀ i r, (i, r) ∈ endedIn t →
    r = E.result i ∧ s.shared.slot i = E.final i ∧ rest i = []
  tally : (pending (List.range n) rest).foldl note s.shared.tally =
    (pending (List.range n) E.notes).foldl note tally

theorem alone_start (E : Effects J n slot) (note : κ → ν → κ) (tally : κ) (pool : Pool)
    (workers : Nat) :
    Alone E note tally [] (Crew.start pool workers n ⟨slot, tally⟩) E.notes where
  fresh _ _ _ := ⟨rfl, rfl⟩
  busy i job hw := by cases List.eq_of_mem_replicate hw
  ended _ _ h := by cases h
  tally := rfl

namespace Alone

variable {E : Effects J n slot} {rest : Nat → List (List ν)}

theorem frame (h : Alone E note tally t s rest) (hshared : s'.shared = s.shared)
    (hbusy : ∀ i job, .busy i job ∈ s'.workers → .busy i job ∈ s.workers) :
    Alone E note tally t s' rest where
  fresh i hi hnot := by rw [hshared]; exact h.fresh i hi hnot
  busy i job hw := by rw [hshared]; exact h.busy i job (hbusy i job hw)
  ended i r hr := by rw [hshared]; exact h.ended i r hr
  tally := by rw [hshared]; exact h.tally

variable {l r : List (Worker (Nat × σ) ε)} {i : Nat} {job : Nat × σ} {y : ι} {notes : List ν}
  {later : List (List ν)}

/-- Job `i` made one step: it has the notes `later` before it, and its slot is `y`. -/
theorem moved (h : Alone E note tally t s rest) (hl : s.Ledger pool workers n t)
    (hw : s.workers = l ++ .busy i job :: r) (hrest : rest i = notes :: later)
    (hslot : s'.shared.slot = Function.update s.shared.slot i y)
    (htally : s'.shared.tally = notes.foldl note s.shared.tally)
    {t' : List (JobEvent ε)} (hbegun : begunIn t' = begunIn t)
    (hbusy : ∀ j job', .busy j job' ∈ s'.workers → .busy j job' ∈ l ++ r ∨
      j = i ∧ job'.1 = i ∧ J.Ends i job'.2 y later (E.result i) (E.final i))
    (hended : ∀ j result, (j, result) ∈ endedIn t' → (j, result) ∈ endedIn t ∨
      j = i ∧ result = E.result i ∧ y = E.final i ∧ later = [])
    [RightCommutative note] : Alone E note tally t' s' (Function.update rest i later) := by
  obtain ⟨hlt, hbegan, hnot, hothers⟩ := hl.of_busy hw
  refine ⟨fun j hj hjnot => ?_, fun j job' hjob => ?_, fun j result hres => ?_, ?_⟩
  · have hne : j ≠ i := by
      rintro rfl
      exact hjnot (hbegun ▸ hbegan)
    rw [hslot, Function.update_of_ne hne, Function.update_of_ne hne]
    exact h.fresh j hj (hbegun ▸ hjnot)
  · rw [hslot]
    rcases hbusy j job' hjob with hold | ⟨rfl, hjob', hends⟩
    · have hne := hothers j job' hold
      rw [Function.update_of_ne hne, Function.update_of_ne hne]
      refine h.busy j job' ?_
      rw [hw]
      rcases List.mem_append.mp hold with hold | hold
      · exact List.mem_append_left _ hold
      · exact List.mem_append_right _ (List.mem_cons_of_mem _ hold)
    · rw [Function.update_self, Function.update_self]
      exact ⟨hjob', hends⟩
  · rw [hslot]
    rcases hended j result hres with hold | ⟨rfl, hresult, hfinal, hlater⟩
    · have hne : j ≠ i := by
        rintro rfl
        exact hnot result hold
      rw [Function.update_of_ne hne, Function.update_of_ne hne]
      exact h.ended j result hold
    · rw [Function.update_self, Function.update_self]
      exact ⟨hresult, hfinal, hlater⟩
  · rw [htally, ← h.tally, ← List.foldl_append]
    exact ((pending_update List.nodup_range (List.mem_range.mpr hlt) hrest).foldl_eq _).symm

theorem finished (h : Alone E note tally t s rest) (hl : s.Ledger pool workers n t)
    [RightCommutative note] {result : Option ε} {x : Slots ι κ} (hw : s.workers = l ++ .busy i job :: r)
    (hnext : (J.jobs note).next job s.shared = (.inr result, x)) (hshared : s'.shared = x)
    (hbusy : ∀ j job', .busy j job' ∈ s'.workers → .busy j job' ∈ l ++ r)
    (hle : s'.potential n ≤ s.potential n) :
    ∃ rest', Alone E note tally (t ++ [.ended i result]) s' rest' ∧
      steps (List.range n) rest' + s'.potential n < steps (List.range n) rest + s.potential n := by
  obtain ⟨j, job⟩ := job
  obtain ⟨rfl, hends⟩ := h.busy i (j, job) (by simp [hw])
  have hlt := (hl.of_busy hw).1
  generalize hrest : rest j = later at hends
  cases hends with
  | more hn hends =>
    rw [next_jobs J note hn] at hnext
    cases hnext
  | last hn =>
    rw [next_jobs J note hn] at hnext
    cases hnext
    refine ⟨_, h.moved hl hw hrest (congrArg Slots.slot hshared) (congrArg Slots.tally hshared)
      (by simp) (fun k job' hjob => .inl (hbusy k job' hjob)) (fun k result hres => ?_),
        Nat.add_lt_add_of_lt_of_le
          (steps_update List.nodup_range (List.mem_range.mpr hlt) hrest) hle⟩
    simp only [endedIn_append, endedIn_ended, List.mem_append, List.mem_singleton,
      Prod.mk.injEq] at hres
    rcases hres with hres | ⟨rfl, hres⟩
    · exact .inl hres
    · exact .inr ⟨rfl, hres, rfl, rfl⟩

/-- One step of the pool is at most one step of one job, and it brings the end nearer. -/
theorem step (h : Alone E note tally t s rest) (hl : s.Ledger pool workers n t)
    [RightCommutative note] (hs : Crew.Step (J.jobs note) n s event s') :
    ∃ rest', Alone E note tally (t ++ event.toList) s' rest' ∧
      steps (List.range n) rest' + s'.potential n < steps (List.range n) rest + s.potential n := by
  have hle := Crew.potential_le hs
  -- A job does one step less afterwards, or the crew has less potential; steps of other workers
  -- leave the slot alone.
  cases hs with
  | @work l r i job job' x hw hnext =>
    obtain ⟨j, job⟩ := job
    obtain ⟨rfl, hends⟩ := h.busy i (j, job) (by simp [hw])
    have hlt := (hl.of_busy hw).1
    generalize hrest : rest j = later at hends
    cases hends with
    | last hn =>
      rw [next_jobs J note hn] at hnext
      cases hnext
    | more hn hends =>
      rw [next_jobs J note hn] at hnext
      cases hnext
      refine ⟨_, h.moved hl hw hrest rfl rfl (by simp) (fun k job' hjob => ?_)
        (fun k result hres => .inl (by simpa using hres)), Nat.add_lt_add_of_lt_of_le
          (steps_update List.nodup_range (List.mem_range.mpr hlt) hrest) hle⟩
      simp only [List.mem_append, List.mem_cons, Worker.busy.injEq] at hjob ⊢
      rcases hjob with hjob | ⟨rfl, rfl⟩ | hjob
      · exact .inl (.inl hjob)
      · exact .inr ⟨rfl, rfl, hends⟩
      · exact .inl (.inr hjob)
  | succeed hw hnext => exact h.finished hl hw hnext rfl (by simp) hle
  | fail hw hnext => exact h.finished hl hw hnext rfl (by simp) hle
  | @begin l r i hw =>
    obtain ⟨hlt, hnot⟩ := hl.of_handed hw
    obtain ⟨hslot, hnotes⟩ := h.fresh i hlt hnot
    refine ⟨rest, ⟨fun j hj hnot => ?_, fun j job hjob => ?_, fun j result hres => ?_, h.tally⟩,
      Nat.add_lt_add_left ?_ _⟩
    · exact h.fresh j hj fun hmem => hnot (by simp [hmem])
    · simp only [List.mem_append, List.mem_cons, Worker.busy.injEq] at hjob
      rcases hjob with hjob | ⟨rfl, rfl⟩ | hjob
      · exact h.busy j job (by simp [hw, hjob])
      · refine ⟨rfl, ?_⟩
        rw [hslot, hnotes]
        exact E.ends j hlt
      · exact h.busy j job (by simp [hw, hjob])
    · exact h.ended j result (by simpa using hres)
    · simp_all [Crew.potential, Worker.weight]
  | close hopen hstop =>
    rw [Option.toList_none, List.append_nil]
    refine ⟨rest, h.frame rfl fun _ _ hj => hj, Nat.add_lt_add_left ?_ _⟩
    simp_all [Crew.potential]
  | cancel hc =>
    rw [Option.toList_none, List.append_nil]
    refine ⟨rest, h.frame rfl fun _ _ hj => hj, Nat.add_lt_add_left ?_ _⟩
    simp_all [Crew.potential]
  | _ =>
    rw [Option.toList_none, List.append_nil]
    refine ⟨rest, h.frame rfl fun i job hj => ?_, Nat.add_lt_add_left ?_ _⟩
    · simp_all
    · simp_all [Crew.potential, Worker.weight] <;> omega

end Alone

variable [RightCommutative note] (E : Effects J n slot)

theorem exists_alone (hr : Crew.Runs (J.jobs note) n (.start pool workers n ⟨slot, tally⟩) t s) :
    ∃ rest, Alone E note tally t s rest := by
  induction hr with
  | refl => exact ⟨_, alone_start E note tally pool workers⟩
  | step hr hs ih =>
    obtain ⟨rest, h⟩ := ih
    obtain ⟨rest', h', -⟩ := h.step (Crew.ledger hr) hs
    exact ⟨rest', h'⟩

/-- A run that was not cancelled ends, whatever the schedule, as if each job had been alone. -/
theorem outcome (hr : Crew.Runs (J.jobs note) n (.start pool workers n ⟨slot, tally⟩) t s)
    (hs : s.Finished) (hc : s.cancelled = false) :
    (∀ i < n, s.shared.slot i = E.final i ∧ s.errors i = E.result i) ∧
      s.shared.tally = (pending (List.range n) E.notes).foldl note tally := by
  obtain ⟨rest, h⟩ := exists_alone E hr
  have hl := Crew.ledger hr
  have hfed : s.fed = n := (hl.closed hs.1).resolve_right (by simp [hc])
  have hended : ∀ i < n, (i, s.errors i) ∈ endedIn t := by
    intro i hi
    rw [(hl.complete hs).2.mem_iff, hfed]
    exact List.mem_map.mpr ⟨i, List.mem_range.mpr hi, rfl⟩
  refine ⟨fun i hi => ?_, ?_⟩
  · obtain ⟨hresult, hfinal, -⟩ := h.ended i _ (hended i hi)
    exact ⟨hfinal, hresult⟩
  · have hnone : pending (List.range n) rest = [] := by
      rw [pending, List.flatMap_eq_nil_iff]
      intro i hi
      rw [(h.ended i _ (hended i (List.mem_range.mp hi))).2.2, List.flatten_nil]
    rw [← h.tally, hnone, List.foldl_nil]

include E in
theorem acc_step (hr : Crew.Runs (J.jobs note) n (.start pool workers n ⟨slot, tally⟩) t s) :
    Acc (fun s' s => ∃ event, Crew.Step (J.jobs note) n s event s') s := by
  obtain ⟨rest, h⟩ := exists_alone E hr
  induction hk : steps (List.range n) rest + s.potential n using Nat.strongRecOn
    generalizing t s rest with
  | _ k ih =>
    refine Acc.intro _ ?_
    rintro s' ⟨event, hs⟩
    obtain ⟨rest', h', hlt⟩ := h.step (Crew.ledger hr) hs
    exact ih _ (hk ▸ hlt) (.step hr hs) rest' h' rfl

end SlotJobs

end RegPressure
