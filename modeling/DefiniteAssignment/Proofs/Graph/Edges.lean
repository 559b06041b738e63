import DefiniteAssignment.Graph.OfFunction
import DefiniteAssignment.Proofs.Graph.Building
import DefiniteAssignment.Proofs.Program.ControlSteps
/-!
# Edges for the control of a function

Node `n` of the graph of a function stands for the `n`-th instruction of its text
(`Function.StandsFor`), and the edges out of a node are computed from its instruction alone: to the
next node, or to the first node of each block that is branched to. Where every branch leads to a
block, these are the control steps (`Function.goesTo_iff_controlStep`); where one does not, the
computation ends at the first such branch (`Function.targetsOf_eq_error_iff`).
-/

namespace DefiniteAssignment

/-! ## Lists of computations that may fail -/

section Lists

variable {α β ε : Type} {step : α → Except ε β}

/-- If the whole succeeds, each computation does, and their values are all there is. -/
theorem mapM_eq_ok {l : List α} {out : List β} (h : l.mapM step = .ok out) :
    (∀ a ∈ l, ∃ b, step a = .ok b) ∧ ∀ b, b ∈ out ↔ ∃ a ∈ l, step a = .ok b := by
  induction l generalizing out with
  | nil =>
    obtain rfl := Except.ok.inj h
    simp
  | cons a l ih =>
    rw [List.mapM_cons] at h
    cases ha : step a with
    | error e =>
      rw [ha] at h
      cases h
    | ok b =>
      cases hl : l.mapM step with
      | error e =>
        rw [ha, hl] at h
        cases h
      | ok bs =>
        rw [ha, hl] at h
        obtain rfl : b :: bs = out := Except.ok.inj h
        obtain ⟨hall, hmem⟩ := ih hl
        refine ⟨List.forall_mem_cons.2 ⟨⟨b, ha⟩, hall⟩, ?_⟩
        intro c
        simp [hmem, ha, eq_comm]

/-- The first computation that fails makes the whole fail. -/
theorem mapM_eq_error_iff {l : List α} {e : ε} :
    l.mapM step = .error e ↔ ∃ before a after, l = before ++ a :: after ∧
      (∀ x ∈ before, ∃ b, step x = .ok b) ∧ step a = .error e := by
  induction l with
  | nil => simp [pure, Except.pure]
  | cons a l ih =>
    rw [List.mapM_cons]
    cases ha : step a with
    | error e' =>
      constructor
      · rintro ⟨⟩
        exact ⟨[], a, l, rfl, by simp, ha⟩
      · rintro ⟨before, x, after, heq, hbefore, hx⟩
        cases before with
        | nil =>
          obtain ⟨rfl, rfl⟩ := List.cons.inj heq
          obtain rfl := Except.error.inj (ha.symm.trans hx)
          rfl
        | cons y before =>
          obtain ⟨rfl, rfl⟩ := List.cons.inj heq
          obtain ⟨b, hb⟩ := hbefore a (List.mem_cons_self ..)
          cases ha.symm.trans hb
    | ok b =>
      have hrest : (Except.ok b >>= fun b => do return b :: (← l.mapM step)) = .error e ↔
          l.mapM step = .error e := by
        cases l.mapM step <;> simp [bind, Except.bind, pure, Except.pure]
      rw [hrest, ih]
      constructor
      · rintro ⟨before, x, after, rfl, hbefore, hx⟩
        exact ⟨a :: before, x, after, rfl, List.forall_mem_cons.2 ⟨⟨b, ha⟩, hbefore⟩, hx⟩
      · rintro ⟨before, x, after, heq, hbefore, hx⟩
        cases before with
        | nil =>
          obtain ⟨rfl, rfl⟩ := List.cons.inj heq
          cases ha.symm.trans hx
        | cons y before =>
          obtain ⟨rfl, rfl⟩ := List.cons.inj heq
          exact ⟨before, x, after, rfl, (List.forall_mem_cons.1 hbefore).2, hx⟩

end Lists

namespace Function

variable {f : Function} {p q : Point} {inst : Inst} {m n : Nat} {target : UInt32}

/-! ## Edges -/

/-- The listing holds the instructions that `points` does. -/
theorem points_eq_map_listing (f : Function) :
    f.points = f.listing.map fun (p, inst) => (p.block, inst) := by
  unfold points listing
  rw [List.map_flatMap]
  refine List.flatMap_congr ?_
  rintro ⟨block, i⟩ -
  rw [List.map_map]
  calc block.map (i, ·) = (block.zipIdx.map Prod.fst).map (i, ·) := by rw [List.zipIdx_map_fst]
    _ = _ := by rw [List.map_map]; rfl

/-- A branch leads to the first instruction of its block. -/
theorem branchTarget_eq_ok_iff {block : Nat} : f.branchTarget block target = .ok n ↔
    target.toNat < f.blocks.length ∧ n = f.position ⟨target.toNat, 0⟩ := by
  unfold branchTarget blockStart? position
  by_cases h : target.toNat < f.blocks.length
  · simp [h, eq_comm]
  · simp [h]

/-- A branch to a block that is not there is an error that names the block. -/
theorem branchTarget_eq_error_iff {block : Nat} {e : GraphError} :
    f.branchTarget block target = .error e ↔
      ¬target.toNat < f.blocks.length ∧ e = .unknownBlock block target := by
  unfold branchTarget blockStart?
  by_cases h : target.toNat < f.blocks.length
  · simp [h]
  · simp [h, eq_comm]

/-- A node and the point of the instruction that it holds. -/
def StandsFor (f : Function) (n : Nat) (p : Point) : Prop :=
  ∃ inst, f.listing[n]? = some (p, inst)

theorem standsFor_iff {f : Function} {n : Nat} {p : Point} :
    f.StandsFor n p ↔ ∃ inst, f.inst? p = some inst ∧ n = f.position p :=
  exists_congr fun _ => getElem?_listing_iff

/-- Nodes are in the order of their points in the text. -/
theorem StandsFor.lt_iff {f : Function} {m n : Nat} {p q : Point} (hm : f.StandsFor m p)
    (hn : f.StandsFor n q) : m < n ↔ p.Before q := by
  obtain ⟨inst, hp, rfl⟩ := standsFor_iff.1 hm
  obtain ⟨later, hq, rfl⟩ := standsFor_iff.1 hn
  refine ⟨fun hlt => ?_, position_lt hp⟩
  rcases p.before_trichotomous q with h | rfl | h
  · exact h
  · exact absurd hlt (Nat.lt_irrefl _)
  · exact absurd hlt (Nat.lt_asymm (position_lt hq h))

/-- The nodes that edges from node `m` lead to if it holds the instruction `inst`. -/
def GoesTo (f : Function) (m : Nat) (inst : Inst) (n : Nat) : Prop :=
  (∃ t ∈ inst.targets, n = f.position ⟨t.toNat, 0⟩) ∨
    inst.isTerminator = false ∧ m + 1 < f.instCount ∧ n = m + 1

/-- The targets of an instruction are where control can go from it. -/
theorem targetsOf_eq_ok {block : Nat} {targets : List Nat}
    (h : f.targetsOf m block inst = .ok targets) :
    f.Leads inst ∧ ∀ n, n ∈ targets ↔ f.GoesTo m inst n := by
  unfold targetsOf at h
  cases hbranches : inst.targets.mapM (f.branchTarget block) with
  | error e =>
    rw [hbranches] at h
    cases h
  | ok branches =>
    obtain ⟨hall, hmem⟩ := mapM_eq_ok hbranches
    have hleads : f.Leads inst := by
      intro t ht
      obtain ⟨n, hn⟩ := hall t ht
      exact (branchTarget_eq_ok_iff.1 hn).1
    have hbranch : ∀ n, n ∈ branches ↔ ∃ t ∈ inst.targets, n = f.position ⟨t.toNat, 0⟩ := by
      intro n
      rw [hmem]
      refine exists_congr fun t => and_congr_right fun ht => ?_
      rw [branchTarget_eq_ok_iff, and_iff_right (hleads t ht)]
    rw [hbranches] at h
    refine ⟨hleads, fun n => ?_⟩
    have htargets : (if inst.isTerminator || f.instCount ≤ m + 1 then branches
        else branches ++ [m + 1]) = targets := by
      split at h
      next hstop => rw [if_pos hstop, Except.ok.inj h]
      next hgo => rw [if_neg hgo, Except.ok.inj h]
    rw [← htargets, GoesTo, ← hbranch]
    cases inst.isTerminator with
    | true => simp
    | false =>
      by_cases hlast : f.instCount ≤ m + 1
      · simp [hlast, Nat.not_lt.2 hlast]
      · simp [hlast, Nat.lt_of_not_le hlast]

/-- Of several missing targets, the first one is reported. -/
theorem targetsOf_eq_error_iff {block : Nat} {e : GraphError} :
    f.targetsOf m block inst = .error e ↔ ∃ before t after, inst.targets = before ++ t :: after ∧
      (∀ x ∈ before, x.toNat < f.blocks.length) ∧ ¬t.toNat < f.blocks.length ∧
        e = .unknownBlock block t := by
  have hiff : f.targetsOf m block inst = .error e ↔
      inst.targets.mapM (f.branchTarget block) = .error e := by
    unfold targetsOf
    cases inst.targets.mapM (f.branchTarget block) with
    | error e' => exact Iff.rfl
    | ok branches =>
      refine iff_of_false (fun h => ?_) (fun h => by cases h)
      split at h <;> cases h
  rw [hiff, mapM_eq_error_iff]
  simp only [branchTarget_eq_ok_iff, branchTarget_eq_error_iff, exists_and_left, exists_eq,
    and_true]

/-- An instruction has its targets exactly if no block is missing. -/
theorem exists_targetsOf_iff {block : Nat} :
    (∃ targets, f.targetsOf m block inst = .ok targets) ↔ f.Leads inst := by
  constructor
  · rintro ⟨targets, h⟩
    exact (targetsOf_eq_ok h).1
  · intro hleads
    cases h : f.targetsOf m block inst with
    | ok targets => exact ⟨targets, rfl⟩
    | error e =>
      obtain ⟨before, t, after, htargets, -, hnot, -⟩ := targetsOf_eq_error_iff.1 h
      refine absurd (hleads t ?_) hnot
      rw [htargets]
      exact List.mem_append_right _ (List.mem_cons_self ..)

theorem lt_instCount (h : f.listing[n]? = some (p, inst)) : n < f.instCount := by
  rw [← length_listing]
  exact (List.getElem?_eq_some_iff.1 h).1

/-- A point stands at no place of the listing but its own. -/
theorem eq_of_position_eq {later : Inst} (hp : f.inst? p = some inst) (hq : f.inst? q = some later)
    (h : f.position p = f.position q) : p = q := by
  have hlisting := getElem?_listing_iff.2 ⟨hp, rfl⟩
  rw [h, getElem?_listing_iff.2 ⟨hq, rfl⟩] at hlisting
  exact (Prod.mk.inj (Option.some.inj hlisting)).1.symm

/-- What is written behind a point, if anything is, is where control goes on from it. -/
theorem controlStep_of_position {later : Inst} (hne : [] ∉ f.blocks) (hp : f.inst? p = some inst)
    (hterm : inst.isTerminator = false) (hq : f.inst? q = some later)
    (hpos : f.position q = f.position p + 1) : f.ControlStep p q := by
  cases hnext : f.inst? ⟨p.block, p.offset + 1⟩ with
  | some x =>
    obtain rfl : q = ⟨p.block, p.offset + 1⟩ := eq_of_position_eq hq hnext hpos
    exact .next hp hterm hnext
  | none =>
    have hend := position_fallThrough hp hnext
    have hblock : p.block + 1 < f.blocks.length := by
      by_contra hlast
      have hall : f.position ⟨p.block + 1, 0⟩ = f.instCount := by
        rw [position, List.take_of_length_le (Nat.le_of_not_lt hlast)]
        rfl
      have hlt := lt_instCount (getElem?_listing_iff.2 ⟨hq, rfl⟩)
      omega
    obtain ⟨x, hx⟩ := exists_inst?_zero hne hblock
    obtain rfl : q = ⟨p.block + 1, 0⟩ := eq_of_position_eq hq hx (hpos.trans hend.symm)
    exact .fallThrough hp hterm hnext hblock

/-- Edges lead along control steps. -/
theorem goesTo_iff_controlStep {later : Inst} (hne : [] ∉ f.blocks) (hleads : f.Leads inst)
    (hm : f.listing[m]? = some (p, inst)) (hn : f.listing[n]? = some (q, later)) :
    f.GoesTo m inst n ↔ f.ControlStep p q := by
  have hlt := lt_instCount hn
  obtain ⟨hp, rfl⟩ := getElem?_listing_iff.1 hm
  obtain ⟨hq, rfl⟩ := getElem?_listing_iff.1 hn
  constructor
  · rintro (⟨t, ht, hpos⟩ | ⟨hterm, -, hpos⟩)
    · obtain ⟨x, hx⟩ := exists_inst?_zero hne (hleads t ht)
      obtain rfl := eq_of_position_eq hq hx hpos
      cases inst with
      | jump target =>
        obtain rfl := List.mem_singleton.1 ht
        exact .jump hp
      | brif condition onTrue onFalse =>
        rcases List.mem_pair.1 ht with rfl | rfl
        · exact .onTrue hp
        · exact .onFalse hp
      | _ => exact absurd ht List.not_mem_nil
    · exact controlStep_of_position hne hp hterm hq hpos
  · intro hstep
    have hinst : ∀ {x : Inst}, f.inst? p = some x → x = inst :=
      fun h => Option.some.inj (h.symm.trans hp)
    cases hstep with
    | jump h =>
      obtain rfl := hinst h
      exact .inl ⟨_, List.mem_singleton_self _, rfl⟩
    | onTrue h =>
      obtain rfl := hinst h
      exact .inl ⟨_, List.mem_cons_self .., rfl⟩
    | onFalse h =>
      obtain rfl := hinst h
      exact .inl ⟨_, List.mem_cons_of_mem _ (List.mem_singleton_self _), rfl⟩
    | next h hterm _ =>
      obtain rfl := hinst h
      exact .inr ⟨hterm, hlt, rfl⟩
    | fallThrough h hterm hend _ =>
      obtain rfl := hinst h
      have hpos := position_fallThrough h hend
      exact .inr ⟨hterm, hpos ▸ hlt, hpos⟩

/-- If nothing is missing, control steps lead to instructions. -/
theorem ControlStep.exists_inst? (h : f.ControlStep p q) (hne : [] ∉ f.blocks)
    (hleads : ∀ inst, f.inst? p = some inst → f.Leads inst) : ∃ inst, f.inst? q = some inst := by
  cases h with
  | jump h => exact exists_inst?_zero hne (hleads _ h _ (List.mem_singleton_self _))
  | onTrue h => exact exists_inst?_zero hne (hleads _ h _ (List.mem_cons_self ..))
  | onFalse h =>
    exact exists_inst?_zero hne (hleads _ h _ (List.mem_cons_of_mem _ (List.mem_singleton_self _)))
  | next _ _ hlater => exact ⟨_, hlater⟩
  | fallThrough _ _ _ hblock => exact exists_inst?_zero hne hblock

/-- Edges lead to instructions. -/
theorem GoesTo.lt_instCount (h : f.GoesTo m inst n) (hne : [] ∉ f.blocks) (hleads : f.Leads inst) :
    n < f.instCount := by
  rcases h with ⟨t, ht, rfl⟩ | ⟨-, hlt, rfl⟩
  · obtain ⟨x, hx⟩ := exists_inst?_zero hne (hleads t ht)
    exact Function.lt_instCount (getElem?_listing_iff.2 ⟨hx, rfl⟩)
  · exact hlt

end Function

end DefiniteAssignment
