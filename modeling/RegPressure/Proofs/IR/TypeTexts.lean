import RegPressure.IR.Ty
import RegPressure.Proofs.Text.Parts

namespace RegPressure.Ty

open Bytes (ofString ofNat ofInt Numeral)

variable {t u : Ty} {m n : Int} {x y : Bytes} {b c : UInt8}

def octets (t : Ty) : Bytes := ofString t.text

def behind : List Ty → Bytes
  | [] => []
  | t :: ts => 44 :: 32 :: (octets t ++ behind ts)

def fieldOctets : List Ty → Bytes
  | [] => []
  | t :: ts => octets t ++ behind ts

def sized (b c : UInt8) (n : Int) (t : Ty) : Bytes := b :: (ofInt n ++ 32 :: 120 :: 32 :: (octets t ++ [c]))

theorem octets_int (k : Nat) : octets (.int k) = 105 :: ofNat k :=
  Bytes.ofString_append "i" (toString k)

theorem octets_float (k : Nat) : octets (.float k) = 102 :: ofNat k :=
  Bytes.ofString_append "f" (toString k)

theorem octets_vector (n : Int) (t : Ty) : octets (.vector n t) = sized 60 62 n t := by
  change ofString ("<" ++ toString n ++ " x " ++ text t ++ ">") = _
  simp only [Bytes.ofString_append, List.append_assoc]
  rfl

theorem octets_array (n : Int) (t : Ty) : octets (.array n t) = sized 91 93 n t := by
  change ofString ("[" ++ toString n ++ " x " ++ text t ++ "]") = _
  simp only [Bytes.ofString_append, List.append_assoc]
  rfl

theorem ofString_intercalate (s : String) (ts : List Ty) :
    ofString (", ".intercalate (s :: texts ts)) = ofString s ++ behind ts := by
  induction ts generalizing s with
  | nil => rw [texts, String.intercalate_singleton, behind, List.append_nil]
  | cons t ts ih =>
    rw [texts, String.intercalate_cons_cons, Bytes.ofString_append, Bytes.ofString_append, ih t.text,
      behind, List.append_assoc]
    rfl

theorem octets_struct (ts : List Ty) : octets (.struct ts) = 123 :: (fieldOctets ts ++ [125]) := by
  change ofString ("\x7b" ++ ", ".intercalate (texts ts) ++ "\x7d") = _
  rw [Bytes.ofString_append, Bytes.ofString_append]
  cases ts with
  | nil => rfl
  | cons t ts =>
    rw [texts, ofString_intercalate]
    rfl

def initial (t : Ty) : UInt8 := [118, 105, 102, 112, 60, 91, 123, 108].getD t.shape 0

theorem head?_octets (t : Ty) (x : Bytes) : (octets t ++ x).head? = some t.initial := by
  cases t with
  | int k => rw [octets_int]; rfl
  | float k => rw [octets_float]; rfl
  | vector n t => rw [octets_vector]; rfl
  | array n t => rw [octets_array]; rfl
  | struct ts => rw [octets_struct]; rfl
  | void | ptr | label => rfl

theorem shape_lt (t : Ty) : t.shape < 8 := by
  cases t <;> simp only [shape] <;> omega

theorem shape_eq (h : octets t ++ x = octets u ++ y) : t.shape = u.shape := by
  have hall : ∀ m n : Fin 8, ([118, 105, 102, 112, 60, 91, 123, 108] : List UInt8).getD m 0 =
      [118, 105, 102, 112, 60, 91, 123, 108].getD n 0 → m = n := by decide
  have hinitial : t.initial = u.initial := by
    have hhead := congrArg List.head? h
    rw [head?_octets, head?_octets] at hhead
    exact Option.some.inj hhead
  exact congrArg Fin.val (hall ⟨_, t.shape_lt⟩ ⟨_, u.shape_lt⟩ hinitial)

def Read (t : Ty) : Prop := ∀ u x y, Breaks Numeral x → Breaks Numeral y →
  octets t ++ x = octets u ++ y → t = u ∧ x = y

theorem Read.sized (ht : t.Read) (hc : ¬ Numeral c) (h : sized b c m t ++ x = sized b c n u ++ y) :
    m = n ∧ t = u ∧ x = y := by
  have hblank : ∀ z : Bytes, Breaks Numeral (32 :: z) := fun _ => breaks_cons (by decide)
  have hclose : ∀ z : Bytes, Breaks Numeral (c :: z) := fun _ => breaks_cons hc
  simp only [Ty.sized, List.cons_append, List.append_assoc, List.cons.injEq, true_and] at h
  obtain ⟨hlen, h⟩ := Bytes.ofInt_append_inj (hblank _) (hblank _) h
  simp only [List.nil_append, List.cons.injEq, true_and] at h
  obtain ⟨htu, h⟩ := ht u _ _ (hclose _) (hclose _) h
  exact ⟨hlen, htu, (List.cons.inj h).2⟩

theorem read_plain (ht : t = .void ∨ t = .ptr ∨ t = .label) : t.Read := by
  intro u x y _ _ h
  have hshape := shape_eq h
  have htu : t = u := by
    rcases ht with rfl | rfl | rfl <;> cases u <;> first | rfl | cases hshape
  subst htu
  exact ⟨rfl, List.append_cancel_left h⟩

theorem head?_fields_ne (t : Ty) (ts : List Ty) (x y : Bytes) :
    fieldOctets (t :: ts) ++ x ≠ 125 :: y := by
  have hall : ∀ n : Fin 8, ([118, 105, 102, 112, 60, 91, 123, 108] : List UInt8).getD n 0 ≠ 125 := by decide
  intro h
  have hhead := congrArg List.head? h
  rw [fieldOctets, List.append_assoc, head?_octets] at hhead
  exact hall ⟨_, t.shape_lt⟩ (Option.some.inj hhead)

theorem breaks_behind (ts : List Ty) (x : Bytes) : Breaks Numeral (behind ts ++ 125 :: x) := by
  cases ts with
  | nil => exact breaks_cons (by decide)
  | cons t ts => exact breaks_cons (by decide)

theorem read_fields {ts us : List Ty} (hbehind : ∀ us x y, behind ts ++ 125 :: x = behind us ++ 125 :: y →
    ts = us ∧ x = y) (h : fieldOctets ts ++ 125 :: x = fieldOctets us ++ 125 :: y) : ts = us ∧ x = y := by
  cases ts with
  | nil =>
    cases us with
    | nil => exact ⟨rfl, (List.cons.inj h).2⟩
    | cons u us => exact absurd h.symm (head?_fields_ne u us _ _)
  | cons t ts =>
    cases us with
    | nil => exact absurd h (head?_fields_ne t ts _ _)
    | cons u us => exact hbehind (u :: us) x y (congrArg (fun z => 44 :: 32 :: z) h)

mutual

theorem read_octets : ∀ t : Ty, t.Read
  | .void => read_plain (.inl rfl)
  | .ptr => read_plain (.inr (.inl rfl))
  | .label => read_plain (.inr (.inr rfl))
  | .int k => by
    intro u x y hx hy h
    have hshape := shape_eq h
    cases u with
    | int l =>
      rw [octets_int, octets_int] at h
      obtain ⟨rfl, hxy⟩ := Bytes.ofNat_append_inj hx hy (List.cons.inj h).2
      exact ⟨rfl, hxy⟩
    | _ => cases hshape
  | .float k => by
    intro u x y hx hy h
    have hshape := shape_eq h
    cases u with
    | float l =>
      rw [octets_float, octets_float] at h
      obtain ⟨rfl, hxy⟩ := Bytes.ofNat_append_inj hx hy (List.cons.inj h).2
      exact ⟨rfl, hxy⟩
    | _ => cases hshape
  | .vector n t => by
    intro u x y _ _ h
    have hshape := shape_eq h
    cases u with
    | vector m u =>
      rw [octets_vector, octets_vector] at h
      obtain ⟨rfl, rfl, hxy⟩ := (read_octets t).sized (by decide) h
      exact ⟨rfl, hxy⟩
    | _ => cases hshape
  | .array n t => by
    intro u x y _ _ h
    have hshape := shape_eq h
    cases u with
    | array m u =>
      rw [octets_array, octets_array] at h
      obtain ⟨rfl, rfl, hxy⟩ := (read_octets t).sized (by decide) h
      exact ⟨rfl, hxy⟩
    | _ => cases hshape
  | .struct ts => by
    intro u x y _ _ h
    have hshape := shape_eq h
    cases u with
    | struct us =>
      simp only [octets_struct, List.cons_append, List.append_assoc, List.cons.injEq, true_and] at h
      obtain ⟨rfl, hxy⟩ := read_fields (read_behind ts) h
      exact ⟨rfl, hxy⟩
    | _ => cases hshape

theorem read_behind : ∀ (ts us : List Ty) (x y : Bytes), behind ts ++ 125 :: x = behind us ++ 125 :: y →
    ts = us ∧ x = y
  | [], us, x, y, h => by
    cases us with
    | nil => exact ⟨rfl, (List.cons.inj h).2⟩
    | cons u us => exact absurd (List.cons.inj h).1 (by decide)
  | t :: ts, us, x, y, h => by
    cases us with
    | nil => exact absurd (List.cons.inj h).1 (by decide)
    | cons u us =>
      simp only [behind, List.cons_append, List.append_assoc, List.cons.injEq, true_and] at h
      obtain ⟨rfl, hrest⟩ := read_octets t u _ _ (breaks_behind ts x) (breaks_behind us y) h
      obtain ⟨rfl, hxy⟩ := read_behind ts us x y hrest
      exact ⟨rfl, hxy⟩

end

end RegPressure.Ty
