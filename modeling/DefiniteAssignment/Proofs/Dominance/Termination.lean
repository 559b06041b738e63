import DefiniteAssignment.Proofs.Dominance.Settling
/-!
# Building a tree comes to an end

Two loops have to end before a tree is found. The passes go on until one changes nothing;
`linksAfter` are the links after so many of them, whether or not that many are made. And each step
of a pass walks up from two linked predecessors at a time until the walks meet; `WalksEnd` says that
they do, without the test that `nearestCommon` makes before it follows a link. Both hold of every
graph, also where control can enter a loop at several nodes:

> `settles_within_reachableNodes`

A pass that sets the flag has changed a link, since it comes to each node only once
(`foldl_relink_of_changed`), so that the passes that are counted are those that change something and
the one that finds nothing to change.
-/

namespace DefiniteAssignment.DominatorTree

variable {g : Graph} {idom : Array (Option Nat)} {k m n : Nat}

/-! ## Passes made -/

/-- The links before the first pass. -/
def startLinks (g : Graph) : Array (Option Nat) :=
  match g.entry with
  | some e => (Array.replicate g.size none).setIfInBounds e (some e)
  | none => Array.replicate g.size none

/-- The links in a pass that began with `idom` and has come past the nodes `done`. -/
def passOver (g : Graph) (idom : Array (Option Nat)) (done : List Nat) : Array (Option Nat) :=
  (done.foldl (relink g (numbering g.size g.reversePostOrder)) (idom, false)).1

/-- The links after `k` passes. -/
def linksAfter (g : Graph) : Nat → Array (Option Nat)
  | 0 => startLinks g
  | k + 1 => passOver g (linksAfter g k) g.reversePostOrder.tail

/-- Linking one node again leaves the links of all others. -/
theorem linkOf_relink_of_ne {number : Array Nat} (hmn : m ≠ n)
    (pass : Array (Option Nat) × Bool) :
    linkOf (relink g number pass n).1 m = linkOf pass.1 m := by
  unfold relink
  split
  next => rfl
  next d _ =>
    split
    next => rfl
    next =>
      unfold linkOf
      rw [Array.getElem?_setIfInBounds, if_neg (Ne.symm hmn)]

theorem size_relink (number : Array Nat) (pass : Array (Option Nat) × Bool) (n : Nat) :
    (relink g number pass n).1.size = pass.1.size := by
  unfold relink
  split
  next => rfl
  next =>
    split
    next => rfl
    next => exact Array.size_setIfInBounds

/-- A pass leaves the links of nodes that it does not visit. -/
theorem linkOf_foldl_relink_of_notMem {number : Array Nat} {nodes : List Nat} (hm : m ∉ nodes)
    (pass : Array (Option Nat) × Bool) :
    linkOf (nodes.foldl (relink g number) pass).1 m = linkOf pass.1 m := by
  induction nodes generalizing pass with
  | nil => rfl
  | cons n nodes ih =>
    rw [List.foldl_cons, ih (List.not_mem_of_not_mem_cons hm),
      linkOf_relink_of_ne (List.ne_of_not_mem_cons hm)]

/-- A step that sets the flag gives its node another link. -/
theorem linkOf_relink_of_changed {number : Array Nat} {pass : Array (Option Nat) × Bool}
    (hn : n < pass.1.size) (hflag : pass.2 = false) (h : (relink g number pass n).2 = true) :
    linkOf (relink g number pass n).1 n ≠ linkOf pass.1 n := by
  unfold relink at h ⊢
  cases hcand : candidate? g number pass.1 n with
  | none =>
    simp only [hcand, hflag] at h
    cases h
  | some d =>
    simp only [hcand] at h ⊢
    by_cases hsame : linkOf pass.1 n = some d
    · rw [if_pos hsame, hflag] at h
      cases h
    · rw [if_neg hsame, linkOf_set hn, if_pos rfl]
      exact Ne.symm hsame

/-- What a pass that sets the flag has changed is not changed back, since no node comes again. -/
theorem foldl_relink_of_changed {number : Array Nat} {nodes : List Nat} (hnodup : nodes.Nodup)
    {pass : Array (Option Nat) × Bool} (hlt : ∀ n ∈ nodes, n < pass.1.size)
    (hflag : pass.2 = false) (h : (nodes.foldl (relink g number) pass).2 = true) :
    (nodes.foldl (relink g number) pass).1 ≠ pass.1 := by
  induction nodes generalizing pass with
  | nil => exact absurd (hflag.symm.trans h) Bool.false_ne_true
  | cons n nodes ih =>
    obtain ⟨hnot, hnodup⟩ := List.nodup_cons.1 hnodup
    obtain ⟨hn, hlt⟩ := List.forall_mem_cons.1 hlt
    rw [List.foldl_cons] at h ⊢
    cases hstep : (relink g number pass n).2 with
    | true =>
      intro heq
      apply linkOf_relink_of_changed hn hflag hstep
      rw [← linkOf_foldl_relink_of_notMem hnot, heq]
    | false =>
      have hsame := (relink_of_unchanged hstep).1
      rw [hsame] at h ⊢
      exact ih hnodup hlt hflag h

theorem size_foldl_relink (number : Array Nat) (nodes : List Nat)
    (pass : Array (Option Nat) × Bool) :
    (nodes.foldl (relink g number) pass).1.size = pass.1.size := by
  induction nodes generalizing pass with
  | nil => rfl
  | cons n nodes ih => rw [List.foldl_cons, ih, size_relink]

theorem size_linksAfter (g : Graph) (k : Nat) : (linksAfter g k).size = g.size := by
  induction k with
  | zero =>
    unfold linksAfter startLinks
    split <;> simp
  | succ k ih => rw [linksAfter, passOver, size_foldl_relink, ih]

/-- A pass changes the links exactly if it sets the flag. -/
theorem linksAfter_succ_eq_iff (g : Graph) (k : Nat) :
    linksAfter g (k + 1) = linksAfter g k ↔
      (g.reversePostOrder.tail.foldl (relink g (numbering g.size g.reversePostOrder))
        (linksAfter g k, false)).2 = false := by
  constructor
  · intro hsame
    by_contra hflag
    have hnodup := g.nodup_reversePostOrder.sublist (List.tail_sublist _)
    refine foldl_relink_of_changed hnodup ?_ rfl (Bool.eq_true_of_not_eq_false hflag) hsame
    intro n hn
    rw [size_linksAfter]
    exact (Graph.mem_reversePostOrder.1 (List.mem_of_mem_tail hn)).lt_size
  · intro hflag
    exact congrArg Prod.fst (foldl_relink_of_unchanged hflag).1

/-- Passes that begin behind the first `k` end with the first one that changes nothing. -/
theorem settle_linksAfter {limit fuel passes : Nat} {settled : Array (Option Nat)}
    (hlimit : limit = k + fuel)
    (hok : settle g (numbering g.size g.reversePostOrder) g.reversePostOrder.tail limit fuel
      (linksAfter g k) = .ok (settled, passes)) :
    settled = linksAfter g passes ∧ k < passes ∧
      ∀ j, k ≤ j → j < passes → (linksAfter g (j + 1) = linksAfter g j ↔ j + 1 = passes) := by
  induction fuel generalizing k with
  | zero => cases hok
  | succ fuel ih =>
    have hiff := linksAfter_succ_eq_iff g k
    have hnext : linksAfter g (k + 1) = (g.reversePostOrder.tail.foldl
      (relink g (numbering g.size g.reversePostOrder)) (linksAfter g k, false)).1 := rfl
    unfold settle at hok
    generalize g.reversePostOrder.tail.foldl _ (linksAfter g k, false) = pass at hok hiff hnext
    obtain ⟨linked, changed⟩ := pass
    obtain rfl : linksAfter g (k + 1) = linked := hnext
    cases changed with
    | false =>
      obtain ⟨rfl, rfl⟩ := Prod.mk.inj (Except.ok.inj hok)
      have hpasses : limit - fuel = k + 1 := by omega
      rw [hpasses]
      refine ⟨rfl, Nat.lt_succ_self k, ?_⟩
      intro j hkj hj
      obtain rfl : j = k := by omega
      exact iff_of_true (hiff.2 rfl) rfl
    | true =>
      obtain ⟨hsettled, hk, hall⟩ := ih (by omega) hok
      refine ⟨hsettled, by omega, ?_⟩
      intro j hkj hj
      rcases Nat.lt_or_eq_of_le hkj with hkj | rfl
      · exact hall j hkj hj
      · exact iff_of_false (fun hsame => by cases hiff.1 hsame) (by omega)

/-- The tree that is built holds the links after the passes that are counted, and these are as many
as it takes for one to change nothing. -/
theorem linksAfter_of_build {limit passes : Nat} {t : DominatorTree}
    (h : build g limit = .ok (t, passes)) :
    (∀ e, g.entry = some e → t.idom = (linksAfter g passes).setIfInBounds e none) ∧
      ∀ j < passes, (linksAfter g (j + 1) = linksAfter g j ↔ j + 1 = passes) := by
  cases horder : g.reversePostOrder with
  | nil =>
    have hentry := g.head?_reversePostOrder
    unfold build at h
    rw [horder] at h hentry
    obtain ⟨rfl, rfl⟩ := Prod.mk.inj (Except.ok.inj h)
    refine ⟨?_, fun j hj => absurd hj (Nat.not_lt_zero j)⟩
    intro e he
    cases hentry.trans he
  | cons e nodes =>
    have he : g.entry = some e := by rw [← g.head?_reversePostOrder, horder, List.head?_cons]
    have hstart : linksAfter g 0 = (Array.replicate g.size none).setIfInBounds e (some e) := by
      rw [linksAfter, startLinks, he]
    have hnodes : g.reversePostOrder.tail = nodes := by rw [horder, List.tail_cons]
    rw [build_eq_map horder, ← hstart] at h
    cases hsettle : settle g (numbering g.size g.reversePostOrder) nodes limit limit
        (linksAfter g 0) with
    | error cause =>
      rw [hsettle] at h
      cases h
    | ok found =>
      obtain ⟨settled, passes'⟩ := found
      rw [hsettle] at h
      obtain ⟨rfl, rfl⟩ := Prod.mk.inj (Except.ok.inj h)
      obtain ⟨hlinks, -, hall⟩ := settle_linksAfter (Nat.zero_add limit).symm (hnodes ▸ hsettle)
      refine ⟨?_, fun j hj => hall j (Nat.zero_le j) hj⟩
      intro e' he'
      obtain rfl : e = e' := Option.some.inj (he.symm.trans he')
      rw [hlinks]

/-! ## Walks made -/

/-- All walks that give node `n` its link come to an end: that from the place where the linked
predecessors seen so far meet and that from the next one come together. -/
def WalksEnd (g : Graph) (idom : Array (Option Nat)) (n : Nat) : Prop :=
  ∀ first seen q later,
    (g.pred n).filter (fun q => (linkOf idom q).isSome) = first :: (seen ++ q :: later) →
      let number := numbering g.size g.reversePostOrder
      let c := seen.foldl (nearestCommon idom number) first
      WalksMeet idom number (nearestCommon idom number c q) c q

/-- Links lead to nodes with smaller numbers, so walks along them come to an end. -/
theorem Links.walksEnd (h : Links g idom) (n : Nat) : WalksEnd g idom n := by
  intro first seen q later hpreds
  have hlinked : ∀ r ∈ first :: (seen ++ q :: later), Linked idom r := by
    intro r hr
    rw [← hpreds, List.mem_filter, Option.isSome_iff_exists] at hr
    exact hr.2
  obtain ⟨hfirst, hrest⟩ := List.forall_mem_cons.1 hlinked
  obtain ⟨hseen, hrest⟩ := List.forall_mem_append.1 hrest
  exact h.walksMeet_nearestCommon (h.linked_foldl hseen hfirst) (List.forall_mem_cons.1 hrest).1

/-- After any number of passes, the links skip no dominator. -/
theorem links_linksAfter {e : Nat} {nodes : List Nat} (horder : g.reversePostOrder = e :: nodes)
    (k : Nat) : Links g (linksAfter g k) := by
  have he : g.entry = some e := by rw [← g.head?_reversePostOrder, horder, List.head?_cons]
  induction k with
  | zero =>
    rw [linksAfter, startLinks, he]
    exact links_start he
  | succ k ih =>
    have horder' : g.reversePostOrder = [e] ++ g.reversePostOrder.tail := by rw [horder]; rfl
    have hrest : ∀ n ∈ g.reversePostOrder.tail, g.entry ≠ some n := by
      rw [horder]
      exact fun n hn => ne_entry_of_mem_tail horder hn
    exact (ih.pass horder' hrest
      (fun n hn => ⟨e, List.mem_singleton.1 hn ▸ ih.entry_link e he⟩) false).1

/-- The walks of all steps of all passes come to an end. -/
theorem walksEnd_passOver {done later : List Nat} (k : Nat)
    (horder : g.reversePostOrder.tail = done ++ n :: later) :
    WalksEnd g (passOver g (linksAfter g k) done) n := by
  cases hcons : g.reversePostOrder with
  | nil =>
    rw [hcons] at horder
    simp at horder
  | cons e nodes =>
    have he : g.entry = some e := by rw [← g.head?_reversePostOrder, hcons, List.head?_cons]
    have hlinks := links_linksAfter hcons k
    have hnodes : nodes = done ++ n :: later := by rw [← horder, hcons, List.tail_cons]
    have horder' : g.reversePostOrder = [e] ++ done ++ n :: later := by
      rw [hcons, hnodes, List.append_assoc, List.singleton_append]
    have hdone : ∀ m ∈ done, g.entry ≠ some m := by
      intro m hm
      exact ne_entry_of_mem_tail hcons (hnodes ▸ List.mem_append_left _ hm)
    obtain ⟨hpart, -⟩ := hlinks.pass_part horder' hdone
      (fun m hm => ⟨e, List.mem_singleton.1 hm ▸ hlinks.entry_link e he⟩) false
    exact hpart.walksEnd n

/-- A tree is found if the limit allows as many passes as there are nodes that control can get to.
The last of the passes that are made is the only one to change nothing, and all walks end. -/
theorem settles_within_reachableNodes (g : Graph) {limit : Nat}
    (hlimit : g.reachableNodes.length ≤ limit) :
    (∃ t passes, ofGraph g limit = .ok t ∧ build g limit = .ok (t, passes) ∧
      passes ≤ g.reachableNodes.length ∧
      (∀ e, g.entry = some e → t.idom = (linksAfter g passes).setIfInBounds e none) ∧
      ∀ k < passes, (linksAfter g (k + 1) = linksAfter g k ↔ k + 1 = passes)) ∧
    ∀ k done n later, g.reversePostOrder.tail = done ++ n :: later →
      WalksEnd g (passOver g (linksAfter g k) done) n := by
  obtain ⟨t, passes, hbuild, hle⟩ := exists_build hlimit
  obtain ⟨hlinks, hpasses⟩ := linksAfter_of_build hbuild
  refine ⟨⟨t, passes, ?_, hbuild, hle, hlinks, hpasses⟩, ?_⟩
  · rw [ofGraph, hbuild]
    rfl
  · intro k done n later horder
    exact walksEnd_passOver k horder

/-- The sample has a loop that control can enter at two nodes. The walks up from these meet at the
entry when the node behind the loop gets its link. -/
theorem settles_sample :
    Graph.sample.reachableNodes.length = 4 ∧
      build .sample 4 =
        .ok (⟨#[none, some 0, some 0, some 0, none], #[1, 2, 3, 4, 0], [0, 1, 2, 3]⟩, 2) ∧
      linksAfter .sample 2 = linksAfter .sample 1 ∧
      WalksMeet #[some 0, some 0, some 0, none, none] #[1, 2, 3, 4, 0] 0 1 2 := by
  have hlength : Graph.sample.reachableNodes.length = 4 := by cbv
  have hbuild : build .sample 4 =
      .ok (⟨#[none, some 0, some 0, some 0, none], #[1, 2, 3, 4, 0], [0, 1, 2, 3]⟩, 2) := by cbv
  obtain ⟨⟨t, passes, -, hok, -, -, hpasses⟩, hwalks⟩ :=
    settles_within_reachableNodes .sample (Nat.le_of_eq hlength)
  obtain ⟨rfl, rfl⟩ := Prod.mk.inj (Except.ok.inj (hbuild.symm.trans hok))
  have horder : Graph.sample.reversePostOrder = [0, 1, 2, 3] := by cbv
  have hlinks : passOver .sample (linksAfter .sample 0) [1, 2] =
      #[some 0, some 0, some 0, none, none] := by cbv
  have hmeet := hwalks 0 [1, 2] 3 [] (congrArg List.tail horder)
  rw [hlinks] at hmeet
  have hwalk := hmeet 1 [] 2 [] (by cbv)
  have hnumber : numbering Graph.sample.size Graph.sample.reversePostOrder = #[1, 2, 3, 4, 0] := by
    cbv
  have hcommon : nearestCommon #[some 0, some 0, some 0, none, none] #[1, 2, 3, 4, 0] 1 2 = 0 := by
    cbv
  simp only [hnumber, List.foldl_nil, hcommon] at hwalk
  exact ⟨hlength, hbuild, (hpasses 1 (by decide)).2 rfl, hwalk⟩

end DefiniteAssignment.DominatorTree
