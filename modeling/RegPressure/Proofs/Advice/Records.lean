import RegPressure.Advice.Report
import RegPressure.Proofs.Advice.Candidates
import RegPressure.Proofs.Graph.Partition
import Mathlib.Data.List.Flatten

namespace RegPressure

variable {f : Func} {g : Digraph} {d : DomOracle} {o : AliasOracle}

namespace Chain

/-- The chains of more than one block. -/
def nontrivial (g : Digraph) (d : DomOracle) (root : Int) : List Chain :=
  (build g d root).filter (!·.isTrivial)

theorem nontrivial_of_size {root : Int} (h : g.size = 0) : nontrivial g d root = [] := by
  rw [nontrivial, build, if_neg, List.filter_nil]
  simp only [h, Bool.and_eq_true, decide_eq_true_eq]
  omega

theorem sound_of_nontrivial {root : Int} {c : Chain} (hc : c ∈ nontrivial g d root) : c.Sound g d :=
  build_spec c (List.mem_filter.mp hc).1

/-- The links of some chains, chain by chain, and along each from its last block to its first. -/
def backLinks (g : Digraph) (d : DomOracle) (root : Int) : List ((Nat × Nat) × List Nat) :=
  (nontrivial g d root).flatMap (·.links.reverse)

theorem mem_backLinks {root : Int} {l : (Nat × Nat) × List Nat} :
    l ∈ backLinks g d root ↔ ∃ c ∈ nontrivial g d root, l ∈ c.links := by
  simp [backLinks]

theorem linkSound_of_backLinks {root : Int} {l : (Nat × Nat) × List Nat}
    (hl : l ∈ backLinks g d root) : LinkSound g d l.1.1 l.1.2 l.2 := by
  obtain ⟨c, hc, hl⟩ := mem_backLinks.mp hl
  exact (sound_of_nontrivial hc).link l.1.1 l.1.2 l.2 hl

theorem Sound.laterBlocks {c : Chain} (h : c.Sound g d) :
    c.links.map (·.1.2) = c.blocks.tail := by
  have hlen : (c.blocks.zip c.blocks.tail).length ≤ c.between.length := by
    have := h.length_eq
    simp only [List.length_zip, List.length_tail]
    omega
  have htail : c.blocks.tail.length ≤ c.blocks.length := by simp
  calc c.links.map (·.1.2)
      = (c.links.map Prod.fst).map Prod.snd := (List.map_map ..).symm
    _ = (c.blocks.zip c.blocks.tail).map Prod.snd := by rw [links, List.map_fst_zip hlen]
    _ = c.blocks.tail := List.map_snd_zip htail

theorem nodup_laterBlocks {root : Int} (hsucc : ∀ a b, b ∈ g.succ a → b < g.size) :
    ((backLinks g d root).map (·.1.2)).Nodup := by
  have hblocks : ((build g d root).flatMap (·.blocks)).Nodup := by
    by_cases hroot : 0 ≤ root ∧ root < g.size
    · obtain ⟨n, rfl⟩ := Int.eq_ofNat_of_zero_le hroot.1
      exact (mem_build hsucc (Int.ofNat_lt.mp hroot.2)).1
    · rw [build, if_neg (by simpa using hroot)]
      exact List.nodup_nil
  have hperm : ((backLinks g d root).map (·.1.2)).Perm
      ((nontrivial g d root).flatMap (·.blocks.tail)) := by
    rw [backLinks, List.map_flatMap]
    refine List.Perm.flatMap_left _ fun c hc => ?_
    rw [List.map_reverse, (sound_of_nontrivial hc).laterBlocks]
    exact List.reverse_perm _
  have hsub : ((nontrivial g d root).flatMap (·.blocks.tail)).Sublist
      ((build g d root).flatMap (·.blocks)) :=
    (List.Sublist.flatMap_right _ fun c _ => List.tail_sublist c.blocks).trans
      (List.filter_sublist.flatMap _)
  exact hperm.nodup_iff.mpr (hblocks.sublist hsub)

end Chain

def Record.link (r : Record) : (Nat × Nat) × List Nat := ((r.dst, r.src), r.between)

structure Record.Cover (f : Func) (d : DomOracle) (o : AliasOracle)
    (links : List ((Nat × Nat) × List Nat)) (all : List Record) : Prop where
  links : all.map Record.link = links
  candidates : ∀ r ∈ all, collect f d o r.between r.src r.dst = .ok r.candidates

theorem Chain.records_spec {c : Chain} {rs : List Record} (h : c.records f d o = .ok rs) :
    ∃ all, Record.Cover f d o c.links.reverse all ∧ rs = all.filter (!·.candidates.isEmpty) := by
  obtain ⟨all, hall, h⟩ := Checked.bind_eq_ok.mp h
  cases Checked.pure_eq_ok.mp h
  refine ⟨all, ⟨Checked.map_of_mapM hall fun l r _ hr => ?_, fun r hr => ?_⟩, rfl⟩
  · obtain ⟨cs, -, hr⟩ := Checked.bind_eq_ok.mp hr
    cases Checked.pure_eq_ok.mp hr
    rfl
  · obtain ⟨l, -, hr⟩ := Checked.mem_of_mapM hall hr
    obtain ⟨cs, hcs, hr⟩ := Checked.bind_eq_ok.mp hr
    cases Checked.pure_eq_ok.mp hr
    exact hcs

theorem Chain.exists_cover {cs : List Chain} {rss : List (List Record)}
    (h : cs.mapM (·.records f d o) = .ok rss) :
    ∃ all, Record.Cover f d o (cs.flatMap (·.links.reverse)) all ∧
      rss.flatten = all.filter (!·.candidates.isEmpty) := by
  induction Checked.mapM_eq_ok.mp h with
  | nil => exact ⟨[], ⟨rfl, by simp⟩, rfl⟩
  | @cons c rs cs rss hrs hrss ih =>
    obtain ⟨first, hfirst, rfl⟩ := records_spec hrs
    obtain ⟨rest, hrest, he⟩ := ih (Checked.mapM_eq_ok.mpr hrss)
    refine ⟨first ++ rest, ⟨?_, ?_⟩, by simp [he]⟩
    · rw [List.map_append, hfirst.links, hrest.links, List.flatMap_cons]
    · exact List.forall_mem_append.mpr ⟨hfirst.candidates, hrest.candidates⟩

theorem analyze_cover {report : Report} (h : analyze f g d o = .ok report) :
    report.chains = Chain.nontrivial g d (f.entry.getD (-1)) ∧
      ∃ all, Record.Cover f d o (Chain.backLinks g d (f.entry.getD (-1))) all ∧
        report.records = all.filter (!·.candidates.isEmpty) := by
  unfold analyze at h
  split at h
  · next hsize =>
    cases h
    have hnil : Chain.nontrivial g d (f.entry.getD (-1)) = [] := Chain.nontrivial_of_size hsize
    refine ⟨hnil.symm, [], ⟨?_, by simp⟩, rfl⟩
    rw [Chain.backLinks, hnil]
    rfl
  · obtain ⟨rss, hrss, h⟩ := Checked.bind_eq_ok.mp h
    cases Checked.pure_eq_ok.mp h
    exact ⟨rfl, Chain.exists_cover hrss⟩

theorem answers_analyze_iff : Checked.Answers (analyze f g d o) ↔
    ∀ l ∈ Chain.backLinks g d (f.entry.getD (-1)), Checked.Answers (collect f d o l.2 l.1.2 l.1.1) := by
  have hchains : Checked.Answers ((Chain.nontrivial g d (f.entry.getD (-1))).mapM (·.records f d o)) ↔
      ∀ l ∈ Chain.backLinks g d (f.entry.getD (-1)),
        Checked.Answers (collect f d o l.2 l.1.2 l.1.1) := by
    simp only [Checked.answers_mapM_iff, Chain.records, Checked.answers_bind_pure_iff,
      List.mem_reverse, Chain.mem_backLinks]
    exact ⟨fun h l ⟨c, hc, hl⟩ => h c hc l hl, fun h c hc l hl => h l ⟨c, hc, hl⟩⟩
  rw [← hchains]
  unfold analyze
  split
  · next hsize =>
    rw [Chain.nontrivial_of_size hsize]
    exact ⟨fun _ => Checked.answers_pure _, fun _ => Checked.answers_pure _⟩
  · exact Checked.answers_bind_pure_iff

/-- Every record belongs to a link of a chain and holds what was collected for it. -/
theorem analyze_spec {report : Report} (h : analyze f g d o = .ok report) :
    ∀ r ∈ report.records, Chain.LinkSound g d r.dst r.src r.between ∧
      collect f d o r.between r.src r.dst = .ok r.candidates := by
  obtain ⟨-, all, hall, hrecords⟩ := analyze_cover h
  intro r hr
  rw [hrecords] at hr
  have hr := (List.mem_filter.mp hr).1
  have hlink : r.link ∈ Chain.backLinks g d (f.entry.getD (-1)) := by
    rw [← hall.links]
    exact List.mem_map_of_mem hr
  exact ⟨Chain.linkSound_of_backLinks hlink, hall.candidates r hr⟩

theorem advise_not_pinned {scope : Option Symbols} {report : Report} (h : advise scope f = .ok report)
    {r : Record} (hr : r ∈ report.records) {c : Candidate} (hc : c ∈ r.candidates) :
    ∃ i, f.instr? c.instr = some i ∧ ¬i.Pinned := by
  simp only [advise, Checked.bind_eq_ok] at h
  obtain ⟨_, -, _, -, h⟩ := h
  obtain ⟨-, hcollect⟩ := analyze_spec h r hr
  obtain ⟨_, -, hcollected⟩ := collect_spec hcollect
  obtain ⟨i, hi, hverdict, hmovable, -⟩ := hcollected.each c hc
  exact ⟨i, hi, not_pinned_of_verdict hverdict hmovable⟩

theorem analyze_nodup {scope : Option Symbols} {report : Report} (hwf : f.WellFormed scope)
    (h : analyze f f.graph d o = .ok report) :
    (report.records.flatMap (·.candidates.map (·.instr))).Nodup := by
  obtain ⟨-, all, hall, hrecords⟩ := analyze_cover h
  have hsrc : (report.records.map (·.src)).Nodup := by
    have hmap : all.map (·.src) = (Chain.backLinks f.graph d (f.entry.getD (-1))).map (·.1.2) := by
      rw [← hall.links, List.map_map]
      rfl
    rw [hrecords]
    refine List.Nodup.sublist (List.filter_sublist.map _) ?_
    rw [hmap]
    exact Chain.nodup_laterBlocks hwf.mirrored.succ_lt
  have hstands : ∀ r ∈ report.records, (r.candidates.map (·.instr)).Nodup ∧
      ∀ id ∈ r.candidates.map (·.instr), f.Stands r.src id := by
    intro r hr
    obtain ⟨blk, hblk, hc⟩ := collect_spec (analyze_spec h r hr).2
    exact ⟨(hwf.block _ blk hblk).body.nodup.sublist hc.sublist,
      fun id hid => ⟨blk, hblk, hc.sublist.subset hid⟩⟩
  rw [List.nodup_flatMap]
  refine ⟨fun r hr => (hstands r hr).1, (List.pairwise_map.mp hsrc).imp_of_mem ?_⟩
  intro r r' hr hr' hne id hid hid'
  have he := hwf.stands_unique ((hstands r hr).2 id hid) ((hstands r' hr').2 id hid')
  exact hne (Int.ofNat.inj he)

/-- For every verified function and all oracles there is a report if there is a verdict on each instruction
from which advice is asked. Its records are the links along which something moves, chain by chain and from
the last to the first; no instruction moves twice, and none that is pinned. -/
theorem analyze_complete {scope : Option Symbols} (hv : f.verify scope = .ok []) (d : DomOracle)
    (o : AliasOracle) :
    (Checked.Answers (analyze f f.graph d o) ↔
      ∀ l ∈ Chain.backLinks f.graph d (f.entry.getD (-1)), ∀ id i, f.Stands l.1.2 id →
        f.instr? id = some i → Checked.Answers (verdict o l.2 i)) ∧
    ∀ report, analyze f f.graph d o = .ok report →
      report.chains = Chain.nontrivial f.graph d (f.entry.getD (-1)) ∧
      (∃ all, Record.Cover f d o (Chain.backLinks f.graph d (f.entry.getD (-1))) all ∧
        report.records = all.filter (!·.candidates.isEmpty)) ∧
      (report.records.flatMap (·.candidates.map (·.instr))).Nodup ∧
      ∀ r ∈ report.records, ∀ c ∈ r.candidates, ∃ i, f.instr? c.instr = some i ∧ ¬ i.Pinned := by
  have hwf := Func.verify_eq_nil.mp hv
  refine ⟨answers_analyze_iff.trans (forall₂_congr fun l hl => ?_), fun report h => ?_⟩
  · have hsrc := hwf.mirrored.succ_lt _ _ (Chain.linkSound_of_backLinks hl).succ
    rw [Func.graph_size] at hsrc
    obtain ⟨blk, hblk⟩ := Func.exists_block_of_lt hsrc
    rw [collect_eq hblk, hwf.answers_collectAlong_iff hblk fun _ => Iff.rfl]
    constructor
    · rintro hverdict id i ⟨blk', hblk', hid⟩ hi
      cases hblk.symm.trans hblk'
      exact hverdict id hid i hi
    · exact fun hverdict id hid i hi => hverdict id i ⟨blk, hblk, hid⟩ hi
  · obtain ⟨hchains, hcover⟩ := analyze_cover h
    refine ⟨hchains, hcover, analyze_nodup hwf h, fun r hr c hc => ?_⟩
    obtain ⟨blk, -, hcs⟩ := collect_spec (analyze_spec h r hr).2
    obtain ⟨i, hi, hverdict, hmove, -⟩ := hcs.each c hc
    exact ⟨i, hi, not_pinned_of_verdict hverdict hmove⟩

def relay : Func where
  name := "relay"
  params := [⟨"n", some .i32⟩, ⟨"p", some .ptr⟩]
  ret := .i32
  blocks := #[{ name := "a", instrs := [0], succs := [1] },
    { name := "b", instrs := [1, 2, 3], succs := [2], preds := [0] },
    { name := "c", instrs := [4, 5, 6], preds := [1] }]
  instrs := #[{ home := some 0, op := .br, targets := [1] },
    { home := some 1, op := .add, ty := .i32, operands := [.arg 0, .int (some .i32) 1] },
    { home := some 1, op := .load, ty := .i32, operands := [.arg 1], volatile := true },
    { home := some 1, op := .br, targets := [2] },
    { home := some 2, op := .mul, ty := .i32, operands := [.instr 1, .arg 0] },
    { home := some 2, op := .store, operands := [.instr 4, .arg 1] },
    { home := some 2, op := .ret, operands := [.instr 2] }]
  entry := some 0

theorem relay_complete :
    relay.verify none = .ok [] ∧
      ∃ report, analyze relay relay.graph .inLine (.always true false) = .ok report ∧
        report.records = [⟨2, 1, [], [⟨4, .pure, 1⟩]⟩, ⟨1, 0, [], [⟨1, .pure, 1⟩]⟩] ∧
        (report.records.flatMap (·.candidates.map (·.instr))).Nodup ∧
        ∀ r ∈ report.records, ∀ c ∈ r.candidates, ∃ i, relay.instr? c.instr = some i ∧ ¬ i.Pinned := by
  have hv : relay.verify none = .ok [] := by decide +kernel
  have h : analyze relay relay.graph .inLine (.always true false) =
      .ok ⟨[⟨[0, 1, 2], [[], []]⟩],
        [⟨2, 1, [], [⟨4, .pure, 1⟩]⟩, ⟨1, 0, [], [⟨1, .pure, 1⟩]⟩]⟩ := by decide +kernel
  obtain ⟨-, -, hnodup, hfree⟩ := (analyze_complete hv _ _).2 _ h
  exact ⟨hv, _, h, rfl, hnodup, hfree⟩

end RegPressure
