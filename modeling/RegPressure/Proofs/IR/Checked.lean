import Mathlib.Data.List.Forall2
import RegPressure.IR.Func
import RegPressure.IR.Fault

namespace RegPressure

variable {α β γ : Type}

namespace Checked

@[simp] theorem bind_eq_ok {x : Checked α} {f : α → Checked β} {b : β} :
    (x >>= f) = .ok b ↔ ∃ a, x = .ok a ∧ f a = .ok b := by
  cases x with
  | error e => simp [bind, Except.bind]
  | ok a => simp [bind, Except.bind]

theorem bind_eq_error {x : Checked α} {f : α → Checked β} {e : Fault} :
    (x >>= f) = .error e ↔ x = .error e ∨ ∃ a, x = .ok a ∧ f a = .error e := by
  cases x with
  | error e' => simp [bind, Except.bind]
  | ok a => simp [bind, Except.bind]

theorem ok_bind (a : α) (f : α → Checked β) : ((.ok a : Checked α) >>= f) = f a := rfl

@[simp] theorem pure_eq_ok {a b : α} : (pure a : Checked α) = .ok b ↔ a = b := by
  simp [pure, Except.pure]

@[simp] theorem map_eq_ok {x : Checked α} {f : α → β} {b : β} :
    (f <$> x) = .ok b ↔ ∃ a, x = .ok a ∧ f a = b := by
  cases x with
  | error e => simp [Functor.map, Except.map]
  | ok a => simp [Functor.map, Except.map]

theorem toOption_eq_some {x : Checked α} {a : α} : x.toOption = some a ↔ x = .ok a := by
  cases x <;> simp [Except.toOption]

@[simp] theorem throw_ne_ok {e : Fault} {a : α} : (throw e : Checked α) = .ok a ↔ False := by
  simp [throw, throwThe, MonadExceptOf.throw]

theorem mapM_eq_ok {f : α → Checked β} {l : List α} {r : List β} :
    l.mapM f = .ok r ↔ List.Forall₂ (fun a b => f a = .ok b) l r := by
  induction l generalizing r with
  | nil =>
    rw [List.mapM_nil, pure_eq_ok, List.forall₂_nil_left_iff]
    exact eq_comm
  | cons a l ih =>
    rw [List.mapM_cons, List.forall₂_cons_left_iff]
    simp only [bind_eq_ok, pure_eq_ok, ih]
    constructor
    · rintro ⟨b, hb, k, hk, rfl⟩
      exact ⟨b, k, hb, hk, rfl⟩
    · rintro ⟨b, k, hb, hk, rfl⟩
      exact ⟨b, hb, k, hk, rfl⟩

theorem mem_of_mapM {f : α → Checked β} {l : List α} {r : List β} (h : l.mapM f = .ok r) {b : β}
    (hb : b ∈ r) : ∃ a ∈ l, f a = .ok b := by
  induction mapM_eq_ok.mp h with
  | nil => simp at hb
  | @cons a c l r hc hr ih =>
    rcases List.mem_cons.mp hb with rfl | hb
    · exact ⟨a, List.mem_cons_self .., hc⟩
    · obtain ⟨d, hd, he⟩ := ih (mapM_eq_ok.mpr hr) hb
      exact ⟨d, List.mem_cons_of_mem _ hd, he⟩

/-- Reading off the results what they were made from. -/
theorem map_of_mapM {f : α → Checked β} {back : β → α} {l : List α} {r : List β}
    (h : l.mapM f = .ok r) (hback : ∀ a, ∀ b ∈ r, f a = .ok b → back b = a) : r.map back = l := by
  induction mapM_eq_ok.mp h with
  | nil => rfl
  | @cons a b l r hb hr ih =>
    rw [List.map_cons, hback a b (List.mem_cons_self ..) hb,
      ih (mapM_eq_ok.mpr hr) fun x y hy => hback x y (List.mem_cons_of_mem _ hy)]

theorem ok_of_mapM {f : α → Checked β} {l : List α} {r : List β} (h : l.mapM f = .ok r) {a : α}
    (ha : a ∈ l) : ∃ b ∈ r, f a = .ok b := by
  induction mapM_eq_ok.mp h with
  | nil => simp at ha
  | @cons c b l r hc hr ih =>
    rcases List.mem_cons.mp ha with rfl | ha
    · exact ⟨b, List.mem_cons_self .., hc⟩
    · obtain ⟨d, hd, he⟩ := ih (mapM_eq_ok.mpr hr) ha
      exact ⟨d, List.mem_cons_of_mem _ hd, he⟩

theorem exists_mapM {f : α → Checked β} {l : List α} (h : ∀ a ∈ l, ∃ b, f a = .ok b) :
    ∃ r, l.mapM f = .ok r := by
  simp only [mapM_eq_ok]
  induction l with
  | nil => exact ⟨[], .nil⟩
  | cons a l ih =>
    obtain ⟨b, hb⟩ := h a (List.mem_cons_self ..)
    obtain ⟨r, hr⟩ := ih fun x hx => h x (List.mem_cons_of_mem _ hx)
    exact ⟨b :: r, .cons hb hr⟩

theorem mapM_flatten_eq_nil {f : α → Checked (List β)} {l : List α} :
    (∃ r, l.mapM f = .ok r ∧ r.flatten = []) ↔ ∀ a ∈ l, f a = .ok [] := by
  constructor
  · rintro ⟨r, hr, hnil⟩ a ha
    obtain ⟨b, hb, he⟩ := ok_of_mapM hr ha
    rw [List.flatten_eq_nil_iff] at hnil
    rw [he, hnil b hb]
  · intro h
    refine ⟨l.map fun _ => [], mapM_eq_ok.mpr ?_, by simp⟩
    rw [List.forall₂_map_right_iff]
    exact List.forall₂_same.mpr h

theorem foldlM_keeps {f : β → α → Checked β} {P : β → Prop} {l : List α}
    (hstep : ∀ b, ∀ a ∈ l, ∀ c, P b → f b a = .ok c → P c) {b c : β} (hb : P b)
    (h : l.foldlM f b = .ok c) : P c := by
  induction l generalizing b with
  | nil =>
    cases h
    exact hb
  | cons a l ih =>
    rw [List.foldlM_cons, bind_eq_ok] at h
    obtain ⟨b', hb', h⟩ := h
    exact ih (fun b x hx => hstep b x (List.mem_cons_of_mem _ hx))
      (hstep b a (List.mem_cons_self ..) b' hb hb') h

theorem foldlM_ensures {f : β → α → Checked β} {P Q : β → Prop} {l : List α} {a : α} (ha : a ∈ l)
    (hP : ∀ b, ∀ x ∈ l, ∀ c, P b → f b x = .ok c → P c) (hdo : ∀ b c, P b → f b a = .ok c → Q c)
    (hQ : ∀ b, ∀ x ∈ l, ∀ c, Q b → f b x = .ok c → Q c) {b c : β} (hb : P b)
    (h : l.foldlM f b = .ok c) : Q c := by
  induction l generalizing b with
  | nil => cases ha
  | cons x l ih =>
    rw [List.foldlM_cons, bind_eq_ok] at h
    obtain ⟨b', hb', h⟩ := h
    have hrest := fun b y (hy : y ∈ l) => hQ b y (List.mem_cons_of_mem _ hy)
    rcases List.mem_cons.mp ha with rfl | ha
    · exact foldlM_keeps hrest (hdo b b' hb hb') h
    · exact ih ha (fun b y hy => hP b y (List.mem_cons_of_mem _ hy)) hrest
        (hP b x (List.mem_cons_self ..) b' hb hb') h

theorem exists_foldlM {f : β → α → Checked β} {l : List α} (h : ∀ b, ∀ a ∈ l, ∃ c, f b a = .ok c)
    (b : β) : ∃ c, l.foldlM f b = .ok c := by
  induction l generalizing b with
  | nil => exact ⟨b, rfl⟩
  | cons a l ih =>
    obtain ⟨b', hb'⟩ := h b a (List.mem_cons_self ..)
    obtain ⟨c, hc⟩ := ih (fun b x hx => h b x (List.mem_cons_of_mem _ hx)) b'
    exact ⟨c, by rw [List.foldlM_cons, bind_eq_ok]; exact ⟨b', hb', hc⟩⟩

/-- The computation does not fault. -/
def Answers (x : Checked α) : Prop := ∃ a, x = .ok a

theorem answers_pure (a : α) : Answers (pure a : Checked α) := ⟨a, rfl⟩

theorem Answers.bind {x : Checked α} {k : α → Checked β} (hx : Answers x)
    (hk : ∀ a, x = .ok a → Answers (k a)) : Answers (x >>= k) := by
  obtain ⟨a, ha⟩ := hx
  rw [ha, ok_bind]
  exact hk a ha

theorem Answers.bind_pure {x : Checked α} {k : α → β} (hx : Answers x) :
    Answers (do return k (← x)) := hx.bind fun _ _ => answers_pure _

theorem Answers.map {x : Checked α} (f : α → β) (hx : Answers x) : Answers (f <$> x) := by
  obtain ⟨a, rfl⟩ := hx
  exact ⟨f a, rfl⟩

theorem answers_ite {p : Prop} [Decidable p] {x y : Checked α} (hx : p → Answers x)
    (hy : ¬p → Answers y) : Answers (if p then x else y) := by
  split
  · exact hx ‹_›
  · exact hy ‹_›

theorem answers_mapM {f : α → Checked β} {l : List α} (h : ∀ a ∈ l, Answers (f a)) :
    Answers (l.mapM f) := exists_mapM h

theorem answers_mapIdxM {f : Nat → α → Checked β} {l : List α}
    (h : ∀ n a, l[n]? = some a → Answers (f n a)) : Answers (l.mapIdxM f) := by
  have hgo : ∀ (l : List α) (acc : Array β), (∀ n a, l[n]? = some a → Answers (f (acc.size + n) a)) →
      Answers (List.mapIdxM.go f l acc) := by
    intro l
    induction l with
    | nil => exact fun acc _ => answers_pure _
    | cons a l ih =>
      intro acc hl
      refine (hl 0 a rfl).bind fun b _ => ih _ fun n c hc => ?_
      have := hl (n + 1) c hc
      rwa [Array.size_push, Nat.add_assoc, Nat.add_comm 1 n]
  exact hgo l #[] fun n a ha => by simpa using h n a ha

theorem answers_foldlM {f : β → α → Checked β} {l : List α} (P : β → Prop)
    (h : ∀ b, ∀ a ∈ l, P b → ∃ c, f b a = .ok c ∧ P c) {b : β} (hb : P b) :
    ∃ c, l.foldlM f b = .ok c ∧ P c := by
  induction l generalizing b with
  | nil => exact ⟨b, rfl, hb⟩
  | cons a l ih =>
    obtain ⟨c, hc, hpc⟩ := h b a (List.mem_cons_self ..) hb
    obtain ⟨d, hd, hpd⟩ := ih (fun b x hx => h b x (List.mem_cons_of_mem _ hx)) hpc
    exact ⟨d, by rw [List.foldlM_cons, hc, ok_bind, hd], hpd⟩

theorem answers_bind_iff {x : Checked α} {k : α → Checked β} :
    Answers (x >>= k) ↔ ∃ a, x = .ok a ∧ Answers (k a) := by
  constructor
  · rintro ⟨b, hb⟩
    obtain ⟨a, ha, hk⟩ := bind_eq_ok.mp hb
    exact ⟨a, ha, b, hk⟩
  · rintro ⟨a, ha, b, hk⟩
    exact ⟨b, bind_eq_ok.mpr ⟨a, ha, hk⟩⟩

theorem answers_seq_iff {x : Checked α} {k : α → Checked β} {p : Prop} (hk : ∀ a, Answers (k a) ↔ p) :
    Answers (x >>= k) ↔ Answers x ∧ p := by
  simp only [answers_bind_iff, hk]
  exact exists_and_right

theorem answers_bind_pure_iff {x : Checked α} {k : α → β} :
    Answers (do return k (← x)) ↔ Answers x := by
  refine ⟨fun h => ?_, Answers.bind_pure⟩
  obtain ⟨a, ha, -⟩ := answers_bind_iff.mp h
  exact ⟨a, ha⟩

theorem answers_map_iff {x : Checked α} {f : α → β} : Answers (f <$> x) ↔ Answers x := by
  refine ⟨fun ⟨b, hb⟩ => ?_, Answers.map f⟩
  obtain ⟨a, ha, -⟩ := map_eq_ok.mp hb
  exact ⟨a, ha⟩

theorem answers_mapM_iff {f : α → Checked β} {l : List α} :
    Answers (l.mapM f) ↔ ∀ a ∈ l, Answers (f a) := by
  refine ⟨fun ⟨r, hr⟩ a ha => ?_, answers_mapM⟩
  obtain ⟨b, -, hb⟩ := ok_of_mapM hr ha
  exact ⟨b, hb⟩

end Checked

theorem getElem?_concat_eq_some {l : List α} {a b : α} {n : Nat} :
    (l ++ [a])[n]? = some b ↔ l[n]? = some b ∨ n = l.length ∧ a = b := by
  rcases Nat.lt_trichotomy n l.length with h | rfl | h
  · simp [List.getElem?_append_left h, Nat.ne_of_lt h]
  · simp
  · rw [List.getElem?_eq_none (by simp; omega), List.getElem?_eq_none (Nat.le_of_lt h)]
    simp [Nat.ne_of_gt h]

theorem element_eq_ok {l : List α} {n : Nat} {a : α} : element l n = .ok a ↔ l[n]? = some a := by
  unfold element
  rw [if_neg (by omega), Int.toNat_natCast]
  cases l[n]? <;> simp

theorem cell_eq_ok {xs : Array α} {n : Nat} {a : α} : cell xs n = .ok a ↔ xs[n]? = some a := by
  unfold cell
  rw [if_neg (by omega), Int.toNat_natCast]
  cases xs[n]? <;> simp

theorem answers_element_iff {l : List α} {i : Int} :
    Checked.Answers (element l i) ↔ 0 ≤ i ∧ i < l.length := by
  unfold element
  by_cases hi : i < 0
  · rw [if_pos hi]
    constructor
    · rintro ⟨a, ha⟩
      cases ha
    · omega
  · rw [if_neg hi]
    constructor
    · rintro ⟨a, ha⟩
      split at ha
      · next x hx =>
        have := (List.getElem?_eq_some_iff.mp hx).1
        omega
      · cases ha
    · intro h
      rw [List.getElem?_eq_getElem (by omega)]
      exact ⟨_, rfl⟩

end RegPressure

namespace RegPressure.Edit

variable {α β : Type} {f g : Func} {a : α} {b : β}

theorem bind_eq_ok {e : Edit α} {k : α → Edit β} :
    (e >>= k).run f = .ok b g ↔ ∃ a h, e.run f = .ok a h ∧ (k a).run h = .ok b g := by
  simp only [EStateM.run, Bind.bind, EStateM.bind]
  cases e f with
  | error x h => simp
  | ok a h => simp

theorem pure_eq_ok {c : α} : (pure a : Edit α).run f = .ok c g ↔ a = c ∧ f = g := by
  simp [EStateM.run, pure, EStateM.pure]

theorem get_eq_ok {h : Func} : (get : Edit Func).run f = .ok h g ↔ f = h ∧ f = g := by
  change EStateM.Result.ok f f = .ok h g ↔ _
  simp

theorem modify_eq_ok {change : Func → Func} {u : PUnit} :
    (modify change : Edit PUnit).run f = .ok u g ↔ change f = g := by
  change EStateM.Result.ok PUnit.unit (change f) = .ok u g ↔ _
  simp

theorem throw_eq_ok {x : Fault} : (throw x : Edit α).run f = .ok a g ↔ False := by
  change EStateM.Result.error x f = .ok a g ↔ _
  simp

theorem ask_eq_ok {query : Func → Checked α} :
    (ask query).run f = .ok a g ↔ query f = .ok a ∧ f = g := by
  simp only [EStateM.run, ask]
  cases query f <;> simp

theorem change_eq_ok {op : Func → Checked (Func × α)} :
    (change op).run f = .ok a g ↔ op f = .ok (g, a) := by
  simp only [EStateM.run, change]
  cases op f with
  | error x => simp
  | ok p =>
    obtain ⟨h, c⟩ := p
    simp [and_comm]

theorem erase_eq_ok {id : Int} {u : Unit} : (erase id).run f = .ok u g ↔ f.erase id = .ok g := by
  rw [erase, change_eq_ok]
  simp

/-! ### What edits keep, also where they fault -/

def Keeps (P : Func → Prop) (e : Edit α) : Prop := ∀ f, P f → P (e.apply f).1

variable {P : Func → Prop} {e : Edit α} {k : α → Edit β}

theorem Keeps.of_ok (h : Keeps P e) (hf : P f) (he : e.run f = .ok a g) : P g := by
  have hg := h f hf
  rwa [apply, he] at hg

theorem Keeps.of_error {x : Fault} (h : Keeps P e) (hf : P f) (he : e.run f = .error x g) : P g := by
  have hg := h f hf
  rwa [apply, he] at hg

theorem keeps_pure (a : α) : Keeps P (pure a : Edit α) := fun _ hf => hf

theorem keeps_throw (x : Fault) : Keeps P (throw x : Edit α) := fun _ hf => hf

theorem keeps_get : Keeps P (get : Edit Func) := fun _ hf => hf

theorem keeps_ask (query : Func → Checked α) : Keeps P (ask query) := by
  intro f hf
  simp only [apply, EStateM.run, ask]
  cases query f <;> exact hf

theorem keeps_change {op : Func → Checked (Func × α)} (h : ∀ f g a, P f → op f = .ok (g, a) → P g) :
    Keeps P (change op) := by
  intro f hf
  simp only [apply, EStateM.run, change]
  cases hop : op f with
  | error x => exact hf
  | ok r => exact h f r.1 r.2 hf hop

theorem keeps_modify {change : Func → Func} (h : ∀ f, P f → P (change f)) :
    Keeps P (modify change : Edit PUnit) := h

theorem Keeps.error_of_bind {x : Fault} (he : Keeps P e)
    (hk : ∀ a g h, P g → (k a).run g = .error x h → P h) (hf : P f)
    (hrun : (e >>= k).run f = .error x g) : P g := by
  simp only [EStateM.run, Bind.bind, EStateM.bind] at hrun
  cases h : e f with
  | error y f' =>
    rw [h] at hrun
    cases hrun
    exact he.of_error hf h
  | ok a f' =>
    rw [h] at hrun
    exact hk a f' g (he.of_ok hf h) hrun

theorem Keeps.bind (he : Keeps P e) (hk : ∀ a, Keeps P (k a)) : Keeps P (e >>= k) := by
  intro f hf
  unfold apply
  cases hrun : (e >>= k).run f with
  | error x g => exact he.error_of_bind (fun a g h hg => (hk a).of_error hg) hf hrun
  | ok b g =>
    obtain ⟨a, h, ha, hb⟩ := bind_eq_ok.mp hrun
    exact (hk a).of_ok (he.of_ok hf ha) hb

theorem keeps_mapM {c : α → Edit β} {l : List α} (h : ∀ a, Keeps P (c a)) : Keeps P (l.mapM c) := by
  induction l with
  | nil => exact keeps_pure _
  | cons a l ih =>
    rw [List.mapM_cons]
    exact (h a).bind fun _ => ih.bind fun _ => keeps_pure _

theorem keeps_forM {c : α → Edit PUnit} {l : List α} (h : ∀ a, Keeps P (c a)) :
    Keeps P (l.forM c) := by
  induction l with
  | nil => exact keeps_pure _
  | cons a l ih => exact (h a).bind fun _ => ih

end RegPressure.Edit
