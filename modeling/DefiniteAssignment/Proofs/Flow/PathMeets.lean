import Mathlib
import DefiniteAssignment.Proofs.Flow.Steps
/-!
# Meets over all paths

A problem is distributive if merging two facts gives their greatest lower bound, transfers may be
done before or after a merge, and the initial fact is the greatest. Along a path from the entry to a
node the entry fact is transferred by one node after the other; what is true at the node whichever
path was taken is below all the facts that come of this. What a run comes to is the greatest of such
facts:

> `isGLB_of_solve`

There may be infinitely many paths, but every output is made of finitely many: it is the initial
fact or a merge of facts that come along paths (`MeetOver`). The initial fact is no such merge and
must not be transferred. This is why the order of the first evaluations matters. They take the nodes
in reverse post order, so that a node is evaluated after one of its predecessors at least, and the
initial facts of the others are lost in the merge (`State.FirstRound.step`).
-/

namespace DefiniteAssignment.Flow

variable {F : Type} {g : Graph} {p : Problem F} {n : Nat}

/-- What the entry fact becomes on a path through the nodes of `l`. -/
def Problem.along (p : Problem F) (l : List Nat) : F :=
  l.foldl (fun fact q => p.transfer q fact) p.entryFact

/-- On a path that goes on, the fact goes through one more transfer. -/
theorem Problem.along_concat (p : Problem F) (l : List Nat) (q : Nat) :
    p.along (l ++ [q]) = p.transfer q (p.along l) := by
  rw [along, List.foldl_append, List.foldl_cons, List.foldl_nil, along]

/-- Merges of facts that come along one or more paths to a node. -/
inductive MeetOver (p : Problem F) (g : Graph) (n : Nat) : F → Prop
  | path {l : List Nat} : g.EntryPath l n → MeetOver p g n (p.along l)
  | merge {a b : F} : MeetOver p g n a → MeetOver p g n b → MeetOver p g n (p.merge a b)

/-- Merging gives greatest lower bounds, transfers distribute over it, and no fact is above the
initial one. -/
structure Problem.IsDistributive [PartialOrder F] (p : Problem F) : Prop where
  merge_isGLB : ∀ a b, IsGLB {a, b} (p.merge a b)
  transfer_merge : ∀ n a b, p.transfer n (p.merge a b) = p.merge (p.transfer n a) (p.transfer n b)
  le_initialFact : ∀ a, a ≤ p.initialFact

/-- The least that the nodes on a path before its last weigh together, infinity where there is no
path. -/
def Problem.lightest (weight : Nat → Nat) : Problem (WithTop Nat) where
  entryFact := 0
  initialFact := ⊤
  merge := min
  transfer n sum := sum + weight n

/-- Sums of weights are such a problem: a minimum may be taken before or after adding a weight. -/
theorem Problem.isDistributive_lightest (weight : Nat → Nat) :
    (Problem.lightest weight).IsDistributive where
  merge_isGLB _ _ := isGLB_pair
  transfer_merge _ _ _ := (min_add_add_right _ _ _).symm
  le_initialFact _ := le_top

namespace Problem.IsDistributive

variable [PartialOrder F] (hp : p.IsDistributive) {a b : F} {l : List F}
include hp

theorem merge_le_left (a b : F) : p.merge a b ≤ a :=
  (hp.merge_isGLB a b).1 (Set.mem_insert a {b})

theorem merge_le_right (a b : F) : p.merge a b ≤ b :=
  (hp.merge_isGLB a b).1 (Set.mem_insert_of_mem a rfl)

/-- A fact below two others is below their merge. -/
theorem le_merge {c : F} (ha : c ≤ a) (hb : c ≤ b) : c ≤ p.merge a b := by
  apply (hp.merge_isGLB a b).2
  intro x hx
  rcases hx with rfl | rfl
  · exact ha
  · exact hb

/-- Merging with a fact above changes nothing. -/
theorem merge_eq_left (h : a ≤ b) : p.merge a b = a :=
  le_antisymm (hp.merge_le_left a b) (hp.le_merge (le_refl a) h)

theorem merge_eq_right (h : b ≤ a) : p.merge a b = b :=
  le_antisymm (hp.merge_le_right a b) (hp.le_merge h (le_refl b))

/-- Transfers that distribute over merges are monotone. -/
theorem transfer_mono (n : Nat) : Monotone (p.transfer n) := by
  intro a b h
  calc p.transfer n a = p.transfer n (p.merge a b) := by rw [hp.merge_eq_left h]
    _ = p.merge (p.transfer n a) (p.transfer n b) := hp.transfer_merge n a b
    _ ≤ p.transfer n b := hp.merge_le_right _ _

/-! ## Inputs are below what comes along a path -/

/-- A merge of several facts is below each of them. -/
theorem foldl_le : l.foldl p.merge a ≤ a ∧ ∀ b ∈ l, l.foldl p.merge a ≤ b := by
  induction l generalizing a with
  | nil => exact ⟨le_refl a, by simp⟩
  | cons c l ih =>
    obtain ⟨hle, hall⟩ := ih (a := p.merge a c)
    rw [List.foldl_cons]
    refine ⟨hle.trans (hp.merge_le_left a c), ?_⟩
    intro b hb
    rcases List.mem_cons.1 hb with rfl | hb
    · exact hle.trans (hp.merge_le_right a b)
    · exact hall b hb

theorem mergeAll_le (ha : a ∈ l) : p.mergeAll l ≤ a := by
  cases l with
  | nil => cases ha
  | cons c l =>
    rcases List.mem_cons.1 ha with rfl | ha
    · exact hp.foldl_le.1
    · exact hp.foldl_le.2 a ha

/-- At the entry, the input is below the entry fact. -/
theorem inputAt_le_entryFact (he : g.entry = some n) (after : Array F) :
    p.inputAt g after n ≤ p.entryFact := by
  apply hp.mergeAll_le
  rw [if_pos he]
  exact List.mem_append_left _ (List.mem_singleton_self _)

/-- The input of a node is below the outputs of its predecessors. -/
theorem inputAt_le_outputAt {q : Nat} (hq : q ∈ g.reachablePred n) (after : Array F) :
    p.inputAt g after n ≤ p.outputAt after q := by
  apply hp.mergeAll_le
  exact List.mem_append_right _ (List.mem_map_of_mem hq)

/-! ## Outputs are made of what comes along paths -/

/-- A merge of facts that come along paths goes on along an edge. -/
theorem meetOver_transfer {v : Nat} (h : MeetOver p g n a) (hv : v ∈ g.succ n) :
    MeetOver p g v (p.transfer n a) := by
  induction h with
  | path hl => exact p.along_concat _ n ▸ .path (hl.snoc hv)
  | merge _ _ iha ihb => exact hp.transfer_merge n _ _ ▸ .merge iha ihb

/-- What is below all facts that come along a path is below their merges. -/
theorem le_of_meetOver (h : MeetOver p g n a) (hb : ∀ l, g.EntryPath l n → b ≤ p.along l) :
    b ≤ a := by
  induction h with
  | path hl => exact hb _ hl
  | merge _ _ iha ihb => exact hp.le_merge iha ihb

/-- The initial fact is above all others, so merging it to a meet leaves that meet. -/
theorem meetOver_merge_left (ha : MeetOver p g n a) (hb : MeetOver p g n b ∨ b = p.initialFact) :
    MeetOver p g n (p.merge a b) := by
  rcases hb with hb | rfl
  · exact .merge ha hb
  · rwa [hp.merge_eq_left (hp.le_initialFact a)]

/-- The same with the initial fact on the left. -/
theorem meetOver_merge_right (ha : MeetOver p g n a ∨ a = p.initialFact) (hb : MeetOver p g n b) :
    MeetOver p g n (p.merge a b) := by
  rcases ha with ha | rfl
  · exact .merge ha hb
  · rwa [hp.merge_eq_right (hp.le_initialFact b)]

/-- Merging keeps to meets over paths and the initial fact. -/
theorem meetOver_or_merge (ha : MeetOver p g n a ∨ a = p.initialFact)
    (hb : MeetOver p g n b ∨ b = p.initialFact) :
    MeetOver p g n (p.merge a b) ∨ p.merge a b = p.initialFact := by
  rcases ha with ha | rfl
  · exact .inl (hp.meetOver_merge_left ha hb)
  · rwa [hp.merge_eq_right (hp.le_initialFact b)]

/-- A merge of meets and initial facts is a meet if there is a meet among them. -/
theorem meetOver_foldl (ha : MeetOver p g n a ∨ a = p.initialFact)
    (hl : ∀ b ∈ l, MeetOver p g n b ∨ b = p.initialFact)
    (hone : MeetOver p g n a ∨ ∃ b ∈ l, MeetOver p g n b) :
    MeetOver p g n (l.foldl p.merge a) := by
  induction l generalizing a with
  | nil => exact hone.resolve_right (by simp)
  | cons b l ih =>
    obtain ⟨hb, hl⟩ := List.forall_mem_cons.1 hl
    refine ih (hp.meetOver_or_merge ha hb) hl ?_
    rcases hone with hmeet | ⟨c, hc, hmeet⟩
    · exact .inl (hp.meetOver_merge_left hmeet hb)
    · rcases List.mem_cons.1 hc with rfl | hc
      · exact .inl (hp.meetOver_merge_right ha hmeet)
      · exact .inr ⟨c, hc, hmeet⟩

/-- Initial facts are lost in a merge with a fact that comes along a path. -/
theorem meetOver_mergeAll (hl : ∀ b ∈ l, MeetOver p g n b ∨ b = p.initialFact)
    (hone : ∃ b ∈ l, MeetOver p g n b) : MeetOver p g n (p.mergeAll l) := by
  cases l with
  | nil => simp at hone
  | cons a l =>
    obtain ⟨ha, hl⟩ := List.forall_mem_cons.1 hl
    apply hp.meetOver_foldl ha hl
    obtain ⟨b, hb, hmeet⟩ := hone
    rcases List.mem_cons.1 hb with rfl | hb
    · exact .inl hmeet
    · exact .inr ⟨b, hb, hmeet⟩

end Problem.IsDistributive

/-! ## The first round -/

/-- The nodes of `done` have been evaluated, in reverse post order, and those of `todo` wait for it
before any node waits for the second time. -/
structure State.FirstRound (g : Graph) (p : Problem F) (done todo : List Nat) (s : State F) :
    Prop where
  order_eq : g.reversePostOrder = done ++ todo
  queue_eq : ∃ again, s.queue = todo ++ again
  evaluated : ∀ q ∈ done, ∃ fact, MeetOver p g q fact ∧ p.outputAt s.after q = p.transfer q fact
  initial : ∀ q ∉ done, p.outputAt s.after q = p.initialFact

namespace State.FirstRound

variable {s : State F} {done todo rest : List Nat}

/-- Before anything is evaluated, the first round is all ahead. -/
theorem start (g : Graph) (p : Problem F) :
    FirstRound g p [] g.reversePostOrder (.start g (Array.replicate g.size p.initialFact)
      (Array.replicate g.size p.initialFact)) where
  order_eq := rfl
  queue_eq := ⟨[], (List.append_nil _).symm⟩
  evaluated q hq := by cases hq
  initial q _ := p.outputAt_replicate g.size q

/-- When the first round is over, it is over for all nodes that control can get to. -/
theorem mem_done (h : FirstRound g p done [] s) (hn : g.Reaches n) : n ∈ done := by
  have hmem := Graph.mem_reversePostOrder.2 hn
  rwa [h.order_eq, List.append_nil] at hmem

/-- Behind the first round, every reachable node but the entry has an evaluated predecessor. -/
theorem exists_pred_mem_done (h : FirstRound g p done [] s) (hn : g.Reaches n) :
    g.entry = some n ∨ ∃ q ∈ g.reachablePred n, q ∈ done := by
  by_cases he : g.entry = some n
  · exact .inl he
  · obtain ⟨q, hq⟩ := List.exists_mem_of_ne_nil _ (hn.reachablePred_ne_nil he)
    exact .inr ⟨q, hq, h.mem_done (Graph.mem_reachablePred.1 hq).2⟩

variable [PartialOrder F] (hp : p.IsDistributive)
include hp

/-- What flows into a node is a merge of facts that come along paths, if one of its predecessors has
been evaluated. -/
theorem meetOver_inputAt (h : FirstRound g p done todo s)
    (hn : g.entry = some n ∨ ∃ q ∈ g.reachablePred n, q ∈ done) :
    MeetOver p g n (p.inputAt g s.after n) := by
  have hentry : ∀ a ∈ (if g.entry = some n then [p.entryFact] else []), MeetOver p g n a := by
    intro a ha
    split at ha
    next he =>
      rw [List.mem_singleton.1 ha]
      exact .path (l := []) ⟨n, he, .nil⟩
    next => cases ha
  have hpred : ∀ q ∈ g.reachablePred n, q ∈ done → MeetOver p g n (p.outputAt s.after q) := by
    intro q hq hdone
    obtain ⟨fact, hfact, hout⟩ := h.evaluated q hdone
    rw [hout]
    exact hp.meetOver_transfer hfact (Graph.mem_reachablePred.1 hq).1
  apply hp.meetOver_mergeAll
  · intro a ha
    rcases List.mem_append.1 ha with ha | ha
    · exact .inl (hentry a ha)
    · obtain ⟨q, hq, rfl⟩ := List.mem_map.1 ha
      by_cases hdone : q ∈ done
      · exact .inl (hpred q hq hdone)
      · exact .inr (h.initial q hdone)
  · rcases hn with he | ⟨q, hq, hdone⟩
    · refine ⟨p.entryFact, ?_, .path (l := []) ⟨n, he, .nil⟩⟩
      rw [if_pos he]
      exact List.mem_append_left _ (List.mem_singleton_self _)
    · exact ⟨p.outputAt s.after q, List.mem_append_right _ (List.mem_map_of_mem hq),
        hpred q hq hdone⟩

/-- After its evaluation, the output of a node is made of what comes along paths. -/
theorem evaluate {s' : State F} (h : FirstRound g p done todo s)
    (hn : g.entry = some n ∨ ∃ q ∈ g.reachablePred n, q ∈ done)
    (hout : ∀ m, p.outputAt s'.after m =
      if m = n then p.transfer n (p.inputAt g s.after n) else p.outputAt s.after m) :
    (∀ q, q ∈ done ∨ q = n →
      ∃ fact, MeetOver p g q fact ∧ p.outputAt s'.after q = p.transfer q fact) ∧
    ∀ q, q ∉ done → q ≠ n → p.outputAt s'.after q = p.initialFact := by
  constructor
  · intro q hq
    rw [hout]
    by_cases hqn : q = n
    · subst hqn
      exact ⟨p.inputAt g s.after q, h.meetOver_inputAt hp hn, if_pos rfl⟩
    · rw [if_neg hqn]
      exact h.evaluated q (hq.resolve_right hqn)
  · intro q hq hqn
    rw [hout, if_neg hqn]
    exact h.initial q hq

/-- A step evaluates the next node of the first round or, when that is over, some node again. -/
theorem step [DecidableEq F] (h : FirstRound g p done todo s) (hvalid : Valid g p s)
    (hq : s.queue = n :: rest) :
    ∃ done' todo', FirstRound g p done' todo' (s.step g p) := by
  have he := hvalid.waits.step hq p
  have hn : g.Reaches n := hvalid.waits.reaches n (hq ▸ List.mem_cons_self ..)
  have hout := he.outputAt_eq (hvalid.size_after.symm ▸ hn.lt_size)
  obtain ⟨added, -, hqueue, -⟩ := queue_step hq g p
  obtain ⟨again, hagain⟩ := h.queue_eq
  rw [hq] at hagain
  cases todo with
  | nil =>
    obtain ⟨hevaluated, hinitial⟩ := h.evaluate hp (h.exists_pred_mem_done hn) hout
    refine ⟨done, [], h.order_eq, ⟨rest ++ added, hqueue⟩, ?_, ?_⟩
    · intro q hq
      exact hevaluated q (.inl hq)
    · intro q hq
      exact hinitial q hq fun hqn => hq (hqn ▸ h.mem_done hn)
  | cons m todo =>
    rw [List.cons_append] at hagain
    obtain ⟨rfl, rfl⟩ := List.cons.inj hagain
    obtain ⟨hevaluated, hinitial⟩ := h.evaluate hp (Graph.exists_pred_mem_done h.order_eq) hout
    refine ⟨done ++ [n], todo, ?_, ⟨again ++ added, ?_⟩, ?_, ?_⟩
    · rw [h.order_eq, List.append_cons]
    · rw [hqueue, List.append_assoc]
    · intro q hq
      apply hevaluated q
      rwa [List.mem_append, List.mem_singleton] at hq
    · intro q hq
      rw [List.mem_append, List.mem_singleton, not_or] at hq
      exact hinitial q hq.1 hq.2

end State.FirstRound

/-! ## What a run comes to -/

section Solutions

variable [PartialOrder F] [DecidableEq F] (hp : p.IsDistributive) {limit : Nat}
  {solution : Solution F} (hok : (solve g p limit).outcome = .ok solution)
include hp hok

/-- The result at a node is below what arrives there on any path. -/
theorem inputAt_le_along {l : List Nat} (hl : g.EntryPath l n) :
    p.inputAt g solution.after n ≤ p.along l := by
  obtain ⟨e, he, hw⟩ := hl
  induction hw with
  | nil => exact hp.inputAt_le_entryFact he solution.after
  | @snoc l q v hl hedge ih =>
    have hq : g.Reaches q := ⟨l, e, he, hl⟩
    rw [p.along_concat]
    calc p.inputAt g solution.after v
        ≤ p.outputAt solution.after q :=
          hp.inputAt_le_outputAt (Graph.mem_reachablePred.2 ⟨hedge, hq⟩) solution.after
      _ = p.transfer q (p.inputAt g solution.after q) := IsRun.initial.outputAt_eq hok hq
      _ ≤ p.transfer q (p.along l) := hp.transfer_mono q ih

/-- The result at a node is itself a merge of what arrives there on paths. -/
theorem meetOver_of_solve (hn : g.Reaches n) :
    MeetOver p g n (p.inputAt g solution.after n) := by
  have hstep : ∀ s n rest, (State.Valid g p s ∧ ∃ done todo, State.FirstRound g p done todo s) →
      s.queue = n :: rest → State.Valid g p (s.step g p) ∧
        ∃ done todo, State.FirstRound g p done todo (s.step g p) := by
    intro s n rest hs hq
    obtain ⟨hvalid, done, todo, hround⟩ := hs
    exact ⟨hvalid.step hq, hround.step hp hvalid hq⟩
  obtain ⟨s, ⟨-, done, todo, hround⟩, hempty, rfl⟩ := exists_last_state hstep
    ⟨State.valid_start Array.size_replicate Array.size_replicate p, _, _, .start g p⟩ hok
  obtain ⟨again, hagain⟩ := hround.queue_eq
  rw [hempty] at hagain
  obtain ⟨rfl, -⟩ := List.append_eq_nil_iff.1 hagain.symm
  exact hround.meetOver_inputAt hp (hround.exists_pred_mem_done hn)

/-- What a run finds before a node is the greatest of the facts that are below what comes along each
path to the node. -/
theorem isGLB_of_solve (hn : g.Reaches n) :
    ∃ fact, solution.before[n]? = some fact ∧
      IsGLB {value | ∃ l, g.EntryPath l n ∧ p.along l = value} fact := by
  refine ⟨_, (IsRun.initial.facts_eq hok hn).1, ?_, ?_⟩
  · intro value hvalue
    obtain ⟨l, hl, rfl⟩ := hvalue
    exact inputAt_le_along hp hok hl
  · intro fact hfact
    apply hp.le_of_meetOver (meetOver_of_solve hp hok hn)
    intro l hl
    exact hfact ⟨l, hl, rfl⟩

end Solutions

/-- The path past node 2 is the lighter one. -/
theorem isGLB_sample :
    IsGLB {value | ∃ l, Graph.sample.EntryPath l 3 ∧
      (Problem.lightest fun n => if n = 1 then 5 else 1).along l = value} 2 := by
  have hok : (solve .sample (Problem.lightest fun n => if n = 1 then 5 else 1) 100).outcome =
      .ok ⟨#[0, 1, 1, 2, ⊤], #[1, 6, 2, 3, ⊤], 6⟩ := by cbv
  have hreaches : Graph.sample.Reaches 3 := Graph.isReachable_iff.1 (by cbv)
  obtain ⟨fact, hfact, hglb⟩ := isGLB_of_solve (Problem.isDistributive_lightest _) hok hreaches
  obtain rfl : 2 = fact := Option.some.inj hfact
  exact hglb

end DefiniteAssignment.Flow
