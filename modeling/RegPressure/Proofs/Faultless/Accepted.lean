import RegPressure.Hash.Blake2b
import RegPressure.IR.Fingerprint
import RegPressure.Proofs.Faultless.Advice
import RegPressure.Proofs.Faultless.Base
import RegPressure.Proofs.Faultless.Printing
import RegPressure.Proofs.Faultless.Ranges

namespace RegPressure

namespace Blake2b

end Blake2b

namespace Func

variable {f : Func} {i : Instr} {blk : Block} {b id : Int}

end Func

end RegPressure

namespace RegPressure

open Checked

variable {s : Symbols} {f : Func} {id : Int} {i : Instr}

theorem Printer.answers_instrAt (h : f.Solid s) (hi : f.instr? id = some i) :
    Answers (instrAt (some s) f id) :=
  (Func.answers_instr hi).bind fun _ hj => answers_instr h (Func.instr_eq_ok.mp hj)

namespace LiveSpan

variable {spans : List LiveSpan}

/-- A span is about an instruction and tells a block. -/
def StandsIn (f : Func) (span : LiveSpan) : Prop :=
  (∃ i, f.instr? span.value = some i) ∧ ∃ blk, f.block? span.home = some blk

theorem standsIn_of_liveSpans (h : f.Solid s) (he : f.liveSpans = .ok spans) :
    ∀ span ∈ spans, span.StandsIn f := by
  intro span hspan
  simp only [Func.liveSpans, bind_eq_ok, pure_eq_ok] at he
  obtain ⟨users, -, placed, hplaced, spans', hspans, rfl⟩ := he
  obtain ⟨⟨id, i⟩, hmem, hcompute⟩ := mem_of_mapM hspans (List.mem_mergeSort.mp hspan)
  obtain ⟨us, -, hcompute⟩ := bind_eq_ok.mp hcompute
  obtain ⟨hi, b, hb⟩ := Func.mem_placed hplaced (List.mem_of_mem_filter hmem)
  obtain ⟨hvalue, hhome⟩ := value_of_compute hcompute
  rw [StandsIn, hvalue, hhome, h.wellFormed.home_eq hb hi]
  exact ⟨⟨i, hi⟩, hb.imp fun _ hblk => hblk.1⟩

theorem mem_of_entries {b : Nat} {p : LiveSpan × LiveKind} (hp : p ∈ entries spans b) :
    p.1 ∈ spans := by
  obtain ⟨k, -, hp⟩ := List.mem_flatMap.mp hp
  obtain ⟨span, hspan, rfl⟩ := List.mem_map.mp hp
  exact List.mem_of_mem_filter hspan

theorem StandsIn.answers_entryText {span : LiveSpan} (h : span.StandsIn f) (k : LiveKind) :
    Answers (entryText f span k) := by
  obtain ⟨⟨i, hi⟩, blk, hblk⟩ := h
  have hname : Answers (f.instrName span.value) := (Func.answers_instr hi).bind_pure
  exact hname.bind fun _ _ => answers_ite (fun _ => answers_pure _)
    fun _ => (Printer.answers_blockName hblk).bind_pure

theorem answers_text (hspans : ∀ span ∈ spans, span.StandsIn f) : Answers (text f spans) := by
  refine (answers_mapM fun b _ => (answers_mapM fun p hp => ?_).bind_pure).bind_pure
  exact (hspans p.1 (mem_of_entries hp)).answers_entryText p.2

end LiveSpan

theorem Func.Solid.answers_liveText {β : Type} (h : f.Solid s) (k : String → β) :
    Answers (do return k (← LiveSpan.text f (← f.liveSpans))) :=
  h.answers_liveSpans.bind fun _ hspans =>
    (LiveSpan.answers_text (LiveSpan.standsIn_of_liveSpans h hspans)).bind_pure

theorem ValueRange.answers_widthText (h : f.Solid s) : Checked.Answers (widthText (some s) f) := by
  refine (answers_widths h).bind fun ws _ => (answers_mapM fun b _ => ?_).bind_pure
  refine (answers_mapM fun w hw => ?_).bind_pure
  have hhome := of_decide_eq_true (List.mem_filter.mp hw).2
  obtain ⟨i, hi, -⟩ := Option.bind_eq_some_iff.mp hhome
  exact (Printer.answers_instrAt h hi).bind_pure

end RegPressure
