import DefiniteAssignment.Proofs.BitSet.Listing
import DefiniteAssignment.Proofs.Flow.Steps
/-!
# Must problems

A must problem has sets as facts: nothing is known at the entry, everything is assumed elsewhere
until it is refuted, facts meet by intersection, and each node adds the members of a fixed set. What
the solver finds for such a problem is what holds on all paths:

> `IsMust.mem_before_iff`: a number flows into a node exactly if every path from the entry to the
> node passes, strictly before its end, a node that adds the number.

A solution of the equations cannot hold more than that, by induction on the path
(`IsMust.exists_adds_of_contains`). It does not hold less since no evaluation ever takes out what is
added on all paths (`IsMust.outputAt_of_addedBefore`); this is about the run and not about the
equations, which have smaller solutions in loops.

Outputs only ever lose members (`Shrinking`), so that none changes more often than there are numbers
and a run with enough steps comes to a solution:

> `IsMust.exists_solution`
-/

namespace DefiniteAssignment.Flow

/-- `p` is the must problem over the numbers below `c` in which node `n` adds `v` if `adds n v`. -/
structure IsMust (p : Problem BitSet) (c : Nat) (adds : Nat → Nat → Prop) : Prop where
  entryFact_eq : p.entryFact = BitSet.empty c
  initialFact_eq : p.initialFact = BitSet.full c
  merge_eq : p.merge = BitSet.intersection
  over_transfer : ∀ n s, BitSet.Over c s → BitSet.Over c (p.transfer n s)
  contains_transfer : ∀ n s v, BitSet.Over c s → v < c →
    ((p.transfer n s).contains v = true ↔ s.contains v = true ∨ adds n v)

variable {p : Problem BitSet} {c : Nat} {adds : Nat → Nat → Prop} {g : Graph}

/-- Every path to a node passes, strictly before its end, a node that adds `v`. -/
def AddedBefore (g : Graph) (adds : Nat → Nat → Prop) (n v : Nat) : Prop :=
  ∀ l, g.EntryPath l n → ∃ d ∈ l, adds d v

theorem not_addedBefore_entry {e v : Nat} (he : g.entry = some e) : ¬AddedBefore g adds e v := by
  intro h
  obtain ⟨d, hd, -⟩ := h [] ⟨e, he, .nil⟩
  simp at hd

/-- What is added before a node is added before each of its predecessors or by it. -/
theorem AddedBefore.pred {q n v : Nat} (h : AddedBefore g adds n v) (hq : q ∈ g.reachablePred n) :
    AddedBefore g adds q v ∨ adds q v := by
  by_cases hadds : adds q v
  · exact .inr hadds
  · refine .inl ?_
    intro l hl
    obtain ⟨d, hd, hdv⟩ := h _ (hl.snoc (Graph.mem_reachablePred.1 hq).1)
    rcases List.mem_append.1 hd with hd | hd
    · exact ⟨d, hd, hdv⟩
    · exact absurd (List.mem_singleton.1 hd ▸ hdv) hadds

namespace IsMust

variable (hp : IsMust p c adds)
include hp

theorem over_foldl {facts : List BitSet} (h : ∀ t ∈ facts, BitSet.Over c t) {s : BitSet}
    (hs : BitSet.Over c s) : BitSet.Over c (facts.foldl p.merge s) := by
  induction facts generalizing s with
  | nil => exact hs
  | cons t facts ih =>
    have hmerge : p.merge s t = s.intersection t := by rw [hp.merge_eq]
    rw [List.foldl_cons, hmerge]
    exact ih (fun u hu => h u (List.mem_cons_of_mem _ hu))
      (BitSet.over_intersection hs (h t (List.mem_cons_self ..)))

/-- Merging keeps the members that all facts have. -/
theorem contains_foldl {facts : List BitSet} (h : ∀ t ∈ facts, BitSet.Over c t) {s : BitSet}
    (hs : BitSet.Over c s) (v : Nat) : (facts.foldl p.merge s).contains v = true ↔
      s.contains v = true ∧ ∀ t ∈ facts, t.contains v = true := by
  induction facts generalizing s with
  | nil => simp
  | cons t facts ih =>
    have ht := h t (List.mem_cons_self ..)
    have hmerge : p.merge s t = s.intersection t := by rw [hp.merge_eq]
    rw [List.foldl_cons, hmerge, ih (fun u hu => h u (List.mem_cons_of_mem _ hu))
      (BitSet.over_intersection hs ht), BitSet.contains_intersection hs ht, Bool.and_eq_true,
      List.forall_mem_cons, and_assoc]

section Inputs

variable {after : Array BitSet} (hover : ∀ q, BitSet.Over c (p.outputAt after q))
include hover

omit hp in
theorem over_of_mem_outputs (preds : List Nat) :
    ∀ t ∈ preds.map (p.outputAt after), BitSet.Over c t := by
  intro t ht
  obtain ⟨q, -, rfl⟩ := List.mem_map.1 ht
  exact hover q

theorem over_inputAt {n : Nat} (hn : g.Reaches n) : BitSet.Over c (p.inputAt g after n) := by
  by_cases he : g.entry = some n
  · rw [Problem.inputAt_entry he, ← List.foldl_map]
    exact hp.over_foldl (over_of_mem_outputs hover _) (hp.entryFact_eq ▸ BitSet.over_empty c)
  · obtain ⟨q, preds, hpreds⟩ := List.exists_cons_of_ne_nil (hn.reachablePred_ne_nil he)
    rw [Problem.inputAt_inner he hpreds, ← List.foldl_map]
    exact hp.over_foldl (over_of_mem_outputs hover _) (hover q)

/-- Nothing flows into the entry, and into another node what flows out of all predecessors. -/
theorem contains_inputAt {n : Nat} (hn : g.Reaches n) (v : Nat) :
    (p.inputAt g after n).contains v = true ↔
      g.entry ≠ some n ∧ ∀ q ∈ g.reachablePred n, (p.outputAt after q).contains v = true := by
  by_cases he : g.entry = some n
  · rw [Problem.inputAt_entry he, ← List.foldl_map,
      hp.contains_foldl (over_of_mem_outputs hover _) (hp.entryFact_eq ▸ BitSet.over_empty c),
      hp.entryFact_eq, BitSet.contains_empty]
    simp [he]
  · obtain ⟨q, preds, hpreds⟩ := List.exists_cons_of_ne_nil (hn.reachablePred_ne_nil he)
    rw [Problem.inputAt_inner he hpreds, ← List.foldl_map,
      hp.contains_foldl (over_of_mem_outputs hover _) (hover q), List.forall_mem_map, hpreds,
      List.forall_mem_cons]
    exact (and_iff_right he).symm

end Inputs

variable {limit : Nat} {solution : Flow.Solution BitSet}
  (hok : (solve g p limit).outcome = .ok solution)
include hok

/-- No evaluation takes out what is added on all paths. -/
theorem outputAt_of_addedBefore (n : Nat) : BitSet.Over c (p.outputAt solution.after n) ∧
    ∀ v < c, AddedBefore g adds n v ∨ adds n v →
      (p.outputAt solution.after n).contains v = true := by
  refine output_of_solve (R := fun n s => BitSet.Over c s ∧
    ∀ v < c, AddedBefore g adds n v ∨ adds n v → s.contains v = true) ?_ ?_ hok n
  · intro n
    rw [hp.initialFact_eq]
    refine ⟨BitSet.over_full c, ?_⟩
    intro v hv _
    rw [BitSet.contains_full, decide_eq_true hv]
  · intro after n hn h
    have hover := fun q => (h q).1
    have hinput := hp.over_inputAt hover hn
    refine ⟨hp.over_transfer n _ hinput, ?_⟩
    intro v hv hadded
    rw [hp.contains_transfer n _ v hinput hv]
    rcases hadded with hadded | hadds
    · refine .inl ((hp.contains_inputAt hover hn v).2 ⟨?_, ?_⟩)
      · intro he
        exact not_addedBefore_entry he hadded
      · intro q hq
        exact (h q).2 v hv (hadded.pred hq)
    · exact .inr hadds

/-- What flows into the end of a path has been added on it. -/
theorem exists_adds_of_contains {l : List Nat} {n v : Nat} (hl : g.EntryPath l n) (hv : v < c)
    (h : (p.inputAt g solution.after n).contains v = true) : ∃ d ∈ l, adds d v := by
  have hover := fun q => (hp.outputAt_of_addedBefore hok q).1
  obtain ⟨e, he, hw⟩ := hl
  induction hw with
  | nil =>
    have hentry := ((hp.contains_inputAt hover (Graph.reaches_entry he) v).1 h).1
    exact absurd he hentry
  | @snoc l u w hl hedge ih =>
    have hu : g.Reaches u := ⟨l, e, he, hl⟩
    have hout := ((hp.contains_inputAt hover (hu.succ hedge) v).1 h).2 u
      (Graph.mem_reachablePred.2 ⟨hedge, hu⟩)
    rw [IsRun.initial.outputAt_eq hok hu,
      hp.contains_transfer u _ v (hp.over_inputAt hover hu) hv] at hout
    rcases hout with hin | hadds
    · obtain ⟨d, hd, hdv⟩ := ih hin
      exact ⟨d, List.mem_append_left _ hd, hdv⟩
    · exact ⟨u, List.mem_append_right _ (List.mem_singleton_self u), hadds⟩

/-- What flows into a node is what every path to it adds before its end. -/
theorem mem_before_iff {n : Nat} (hn : g.Reaches n) :
    ∃ s, solution.before[n]? = some s ∧ BitSet.Over c s ∧
      ∀ v < c, s.contains v = true ↔ AddedBefore g adds n v := by
  have hout := hp.outputAt_of_addedBefore hok
  have hover := fun q => (hout q).1
  refine ⟨_, (IsRun.initial.facts_eq hok hn).1, hp.over_inputAt hover hn, ?_⟩
  intro v hv
  constructor
  · intro h l hl
    exact hp.exists_adds_of_contains hok hl hv h
  · intro h
    rw [hp.contains_inputAt hover hn]
    exact ⟨fun he => not_addedBefore_entry he h, fun q hq => (hout q).2 v hv (h.pred hq)⟩

/-- What flows out of a node is what every path to it adds, the node itself included. -/
theorem mem_after_iff {n : Nat} (hn : g.Reaches n) :
    ∃ s, solution.after[n]? = some s ∧ BitSet.Over c s ∧
      ∀ v < c, s.contains v = true ↔ AddedBefore g adds n v ∨ adds n v := by
  obtain ⟨s, hs, hover, hmem⟩ := hp.mem_before_iff hok hn
  have hfacts := IsRun.initial.facts_eq hok hn
  rw [Option.some.inj (hfacts.1.symm.trans hs)] at hfacts
  refine ⟨_, hfacts.2, hp.over_transfer n s hover, ?_⟩
  intro v hv
  rw [hp.contains_transfer n s v hover hv, hmem v hv]

end IsMust

/-! ## Runs come to a solution -/

/-- The outputs are sets over the capacity, and a node would be given no member next that its output
does not have. -/
structure Shrinking (p : Problem BitSet) (c : Nat) (g : Graph) (after : Array BitSet) : Prop where
  bounded : ∀ q, BitSet.Over c (p.outputAt after q)
  next_subset : ∀ n, g.Reaches n → ∀ v,
    (p.transfer n (p.inputAt g after n)).contains v = true →
      (p.outputAt after n).contains v = true

namespace IsMust

variable (hp : IsMust p c adds)
include hp

theorem shrinking_initial {after : Array BitSet}
    (hinitial : ∀ n, p.outputAt after n = p.initialFact) : Shrinking p c g after := by
  have hover : ∀ q, BitSet.Over c (p.outputAt after q) := by
    intro q
    rw [hinitial, hp.initialFact_eq]
    exact BitSet.over_full c
  refine ⟨hover, ?_⟩
  intro n hn v hv
  have hlt := (hp.over_transfer n _ (hp.over_inputAt hover hn)).lt_of_contains hv
  rw [hinitial, hp.initialFact_eq, BitSet.contains_full, decide_eq_true hlt]

/-- An evaluation leaves outputs that go on shrinking. -/
theorem shrinking_evaluate {after after' : Array BitSet} {n : Nat} (h : Shrinking p c g after)
    (hn : g.Reaches n)
    (hout : ∀ m, p.outputAt after' m =
      if m = n then p.transfer n (p.inputAt g after n) else p.outputAt after m) :
    Shrinking p c g after' := by
  have hover : ∀ q, BitSet.Over c (p.outputAt after' q) := by
    intro q
    rw [hout]
    split
    next => exact hp.over_transfer n _ (hp.over_inputAt h.bounded hn)
    next => exact h.bounded q
  have hsub : ∀ q v, (p.outputAt after' q).contains v = true →
      (p.outputAt after q).contains v = true := by
    intro q v hv
    rw [hout] at hv
    split at hv
    next hqn => exact hqn ▸ h.next_subset n hn v hv
    next => exact hv
  refine ⟨hover, ?_⟩
  intro m hm v hv
  have hinput := hp.over_inputAt h.bounded hm
  have hinput' := hp.over_inputAt hover hm
  have hlt := (hp.over_transfer m _ hinput').lt_of_contains hv
  have hnext : (p.transfer m (p.inputAt g after m)).contains v = true := by
    rw [hp.contains_transfer m _ v hinput' hlt, hp.contains_inputAt hover hm] at hv
    rw [hp.contains_transfer m _ v hinput hlt, hp.contains_inputAt h.bounded hm]
    rcases hv with ⟨hne, hpreds⟩ | hadds
    · exact .inl ⟨hne, fun q hq => hsub q v (hpreds q hq)⟩
    · exact .inr hadds
  rw [hout]
  split
  next hmn => exact hmn ▸ hnext
  next => exact h.next_subset m hm v hnext

/-- A run that may take enough steps comes to a solution. -/
theorem exists_solution {limit : Nat}
    (hlimit : g.reachableNodes.length + c * g.liveEdges.length ≤ limit) :
    ∃ solution, (solve g p limit).outcome = .ok solution := by
  have hchains : ∀ l, (p.initialFact :: l).IsChain (fun s t : BitSet => t.size < s.size) →
      l.length ≤ c := by
    intro l hl
    have hsize := (BitSet.over_full c).size_le
    rw [← hp.initialFact_eq] at hsize
    exact Nat.le_trans (length_le_of_isChain hl) hsize
  obtain ⟨solution, hok, -⟩ := exists_solution_of_chains (Shrinking p c g)
    (fun s t => t.size < s.size) (fun _ _ _ hn h hout => hp.shrinking_evaluate h hn hout)
    (fun _ n hn h hne => BitSet.size_lt_of_subset
      (hp.over_transfer n _ (hp.over_inputAt h.bounded hn)) (h.bounded n) (h.next_subset n hn) hne)
    (fun _ => hp.shrinking_initial) hchains hlimit
  exact ⟨solution, hok⟩

end IsMust

end DefiniteAssignment.Flow
