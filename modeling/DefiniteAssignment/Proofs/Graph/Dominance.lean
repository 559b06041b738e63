import DefiniteAssignment.Proofs.Graph.ReversePostOrder
/-!
# Dominance

A node dominates another if every path from the entry to the other passes it, the end of the path
included. For a node that control cannot get to there is no path and the notion is empty, so that
the facts below are about nodes that it can get to.

A dominator other than the node itself also dominates all predecessors (`Dominates.pred`), and it
comes earlier in reverse post order (`Dominates.idxOf_lt`), since there is a path to the node that
only passes nodes before it. So dominance is an order, and the dominators of one node form a chain
in it (`Dominates.total`). The last of the chain but the node itself is its immediate dominator:

> `exists_immediatelyDominates`: every node but the entry has one.
-/

namespace DefiniteAssignment.Graph

variable {g : Graph} {m n q : Nat}

/-- Control cannot get to `n` without passing `m`. -/
def Dominates (g : Graph) (m n : Nat) : Prop :=
  ∀ l, g.EntryPath l n → m ∈ l ++ [n]

theorem Dominates.refl (g : Graph) (n : Nat) : g.Dominates n n :=
  fun _ _ => List.mem_append_right _ (List.mem_singleton_self n)

/-- What dominates a dominator dominates. -/
theorem Dominates.trans {k : Nat} (h₁ : g.Dominates k m) (h₂ : g.Dominates m n) :
    g.Dominates k n := by
  intro l hl
  rcases List.mem_append.1 (h₂ l hl) with hm | hm
  · obtain ⟨l', hl', hsub⟩ := hl.exists_path_of_mem hm
    exact List.mem_append_left _ (hsub (h₁ l' hl'))
  · exact List.mem_singleton.1 hm ▸ h₁ l (List.mem_singleton.1 hm ▸ hl)

/-- Only the entry dominates the entry. -/
theorem Dominates.eq_entry {e : Nat} (he : g.entry = some e) (h : g.Dominates m e) : m = e := by
  simpa using h [] ⟨e, he, .nil⟩

/-- What dominates a node and is not the node dominates its predecessors. -/
theorem Dominates.pred (h : g.Dominates m n) (hne : m ≠ n) (hq : q ∈ g.reachablePred n) :
    g.Dominates m q := by
  intro l hl
  rcases List.mem_append.1 (h _ (hl.snoc (mem_reachablePred.1 hq).1)) with hm | hm
  · exact hm
  · exact absurd (List.mem_singleton.1 hm) hne

/-- Control gets to a node through its dominators. -/
theorem Dominates.reaches (h : g.Dominates m n) (hn : g.Reaches n) : g.Reaches m := by
  obtain ⟨l, hl⟩ := hn
  rcases List.mem_append.1 (h l hl) with hm | hm
  · obtain ⟨l', hl', -⟩ := hl.exists_path_of_mem hm
    exact ⟨l', hl'⟩
  · exact ⟨l, List.mem_singleton.1 hm ▸ hl⟩

/-- A path to a node begins with a path to any other dominator of the node. -/
theorem Dominates.exists_path {l : List Nat} (h : g.Dominates m n) (hne : m ≠ n)
    (hl : g.EntryPath l n) : ∃ l', g.EntryPath l' m ∧ l' ++ [m] ⊆ l := by
  rcases List.mem_append.1 (h l hl) with hm | hm
  · exact hl.exists_path_of_mem hm
  · exact absurd (List.mem_singleton.1 hm) hne

/-- A dominator other than the node itself comes before the node. -/
theorem Dominates.idxOf_lt (h : g.Dominates m n) (hn : g.Reaches n) (hne : m ≠ n) :
    g.reversePostOrder.idxOf m < g.reversePostOrder.idxOf n := by
  obtain ⟨l, hl, hbefore⟩ := exists_forward_path hn
  rcases List.mem_append.1 (h l hl) with hm | hm
  · exact hbefore m hm
  · exact absurd (List.mem_singleton.1 hm) hne

/-- No two nodes that control can get to dominate each other. -/
theorem Dominates.antisymm (h₁ : g.Dominates m n) (h₂ : g.Dominates n m) (hn : g.Reaches n) :
    m = n := by
  by_cases hne : m = n
  · exact hne
  · have hlt := h₁.idxOf_lt hn hne
    have hgt := h₂.idxOf_lt (h₁.reaches hn) (Ne.symm hne)
    omega

/-- The entry dominates every node. -/
theorem dominates_of_entry {e : Nat} (he : g.entry = some e) (n : Nat) : g.Dominates e n := by
  intro l hl
  obtain ⟨e', he', hw⟩ := hl
  obtain rfl : e = e' := Option.some.inj (he.symm.trans he')
  induction hw with
  | nil => exact List.mem_singleton_self e
  | snoc _ _ ih => exact List.mem_append_left _ ih

/-- Of two dominators of a node, one dominates the other. -/
theorem Dominates.total {a b : Nat} (ha : g.Dominates a n) (hb : g.Dominates b n)
    (hn : g.Reaches n) : g.Dominates a b ∨ g.Dominates b a := by
  -- Both dominate the nodes of a path to `n`, from the end back to where it passes one of them.
  obtain ⟨l, e, he, hl⟩ := hn
  induction hl with
  | nil =>
    rw [ha.eq_entry he, hb.eq_entry he]
    exact .inl (.refl g e)
  | @snoc l v w hl hedge ih =>
    by_cases haw : a = w
    · exact .inr (haw ▸ hb)
    · by_cases hbw : b = w
      · exact .inl (hbw ▸ ha)
      · have hv : v ∈ g.reachablePred w := mem_reachablePred.2 ⟨hedge, l, e, he, hl⟩
        exact ih (ha.pred haw hv) (hb.pred hbw hv)

/-! ## Immediate dominators -/

/-- The last of the other dominators of `n`: what else dominates `n` dominates `u`. -/
structure ImmediatelyDominates (g : Graph) (u n : Nat) : Prop where
  ne : u ≠ n
  dominates_iff : ∀ m, g.Dominates m n ↔ m = n ∨ g.Dominates m u

namespace ImmediatelyDominates

variable {u v : Nat}

theorem dominates (h : g.ImmediatelyDominates u n) : g.Dominates u n :=
  (h.dominates_iff u).2 (.inr (.refl g u))

/-- What dominates `n` and is not `n` dominates the immediate dominator. -/
theorem closest (h : g.ImmediatelyDominates u n) (hmn : m ≠ n) (hm : g.Dominates m n) :
    g.Dominates m u :=
  ((h.dominates_iff m).1 hm).resolve_left hmn

/-- A strict dominator that all others dominate is the immediate one. -/
theorem of_closest (hne : u ≠ n) (hu : g.Dominates u n)
    (hclosest : ∀ m, m ≠ n → g.Dominates m n → g.Dominates m u) : g.ImmediatelyDominates u n := by
  refine ⟨hne, ?_⟩
  intro m
  constructor
  · intro hm
    by_cases hmn : m = n
    · exact .inl hmn
    · exact .inr (hclosest m hmn hm)
  · intro hm
    rcases hm with rfl | hm
    · exact .refl g m
    · exact hm.trans hu

/-- The entry has no immediate dominator. -/
theorem ne_entry (h : g.ImmediatelyDominates u n) : g.entry ≠ some n :=
  fun he => h.ne (h.dominates.eq_entry he)

theorem idxOf_lt (h : g.ImmediatelyDominates u n) (hn : g.Reaches n) :
    g.reversePostOrder.idxOf u < g.reversePostOrder.idxOf n :=
  h.dominates.idxOf_lt hn h.ne

/-- A node has at most one immediate dominator. -/
theorem unique (hu : g.ImmediatelyDominates u n) (hv : g.ImmediatelyDominates v n)
    (hn : g.Reaches n) : u = v :=
  (hv.closest hu.ne hu.dominates).antisymm (hu.closest hv.ne hv.dominates)
    (hv.dominates.reaches hn)

end ImmediatelyDominates

/-- Among the dominators from `m` on there is an immediate dominator. -/
theorem Dominates.exists_immediatelyDominates (hm : g.Dominates m n) (hmn : m ≠ n)
    (hn : g.Reaches n) : ∃ u, g.ImmediatelyDominates u n := by
  -- A dominator that does not dominate `m` comes after it in the order, and still before `n`.
  induction hk : g.reversePostOrder.idxOf n - g.reversePostOrder.idxOf m using Nat.strongRecOn
    generalizing m with
  | _ k ih =>
    by_cases hclosest : ∀ d, d ≠ n → g.Dominates d n → g.Dominates d m
    · exact ⟨m, .of_closest hmn hm hclosest⟩
    · obtain ⟨d, hd⟩ := Classical.not_forall.1 hclosest
      obtain ⟨hdn, hd⟩ := Classical.not_imp.1 hd
      obtain ⟨hdom, hnot⟩ := Classical.not_imp.1 hd
      have hmd : g.Dominates m d := (hm.total hdom hn).resolve_right hnot
      have hne : m ≠ d := fun heq => hnot (heq ▸ .refl g m)
      have hlt := hmd.idxOf_lt (hdom.reaches hn) hne
      have hltn := hdom.idxOf_lt hn hdn
      exact ih _ (by omega) hdom hdn rfl

/-- Every node that control can get to has an immediate dominator, unless it is the entry. -/
theorem exists_immediatelyDominates (hn : g.Reaches n) (hne : g.entry ≠ some n) :
    ∃ u, g.ImmediatelyDominates u n := by
  obtain ⟨l, e, he, hl⟩ := hn
  have hen : e ≠ n := fun heq => hne (heq ▸ he)
  exact (dominates_of_entry he n).exists_immediatelyDominates hen ⟨l, e, he, hl⟩

/-- A table that has some immediate dominator for every node but the entry, and nothing else, has
for each node the only one. -/
theorem eq_some_iff_immediatelyDominates {f : Nat → Option Nat} {u : Nat}
    (hnone : ∀ n, (g.Reaches n → g.entry = some n) → f n = none)
    (hsome : ∀ n, g.Reaches n → g.entry ≠ some n → ∃ v, f n = some v ∧ g.ImmediatelyDominates v n) :
    f n = some u ↔ g.Reaches n ∧ g.ImmediatelyDominates u n := by
  constructor
  · intro hu
    obtain ⟨hn, hne⟩ : g.Reaches n ∧ g.entry ≠ some n := by
      refine Classical.not_imp.1 fun hn => ?_
      cases (hnone n hn).symm.trans hu
    obtain ⟨v, hv, hdom⟩ := hsome n hn hne
    obtain rfl := Option.some.inj (hv.symm.trans hu)
    exact ⟨hn, hdom⟩
  · intro hu
    obtain ⟨v, hv, hdom⟩ := hsome n hu.1 hu.2.ne_entry
    rw [hv, hdom.unique hu.2 hu.1]

end DefiniteAssignment.Graph
