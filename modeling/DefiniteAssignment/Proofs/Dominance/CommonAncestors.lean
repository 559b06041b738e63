import DefiniteAssignment.Dominance.Tree
/-!
# The closest common ancestor

Links that lead down in number, from one linked node to another, all come to the entry, which is
linked to itself (`Rooted`). So the links of any two linked nodes lead to common ancestors, and one
of these has all others for its own ancestors (`IsClosest`). The walk that `nearestCommon` makes
finds it: of two nodes with different numbers the greater is no common ancestor, and whatever is a
common ancestor lies behind its link.

That is all there is to the laws. A closest common ancestor is determined by the nodes and not by
the way in which it is found, and so neither the order of the two nodes nor that of several searches
matters:

> `nearestCommon_laws`

`nearestCommon` looks at the numbers again after every link, and tests each link before it follows
it. The fingers of `FingersMeet` do not: in each round one finger goes up until it is no longer
above the other, then the other does, a node without a link makes its finger jump to the other one,
and nothing but having met ends the rounds. From linked nodes the rounds end all the same, and where
`nearestCommon` says.
-/

namespace DefiniteAssignment.DominatorTree

variable {idom : Array (Option Nat)} {number : Array Nat} {entry a b c d m n u : Nat}

/-! ## Ancestors -/

/-- Following links from a node leads to `a`. -/
inductive Ancestor (idom : Array (Option Nat)) (a : Nat) : Nat → Prop
  | refl : Ancestor idom a a
  | up {b c : Nat} : linkOf idom b = some c → Ancestor idom a c → Ancestor idom a b

theorem Ancestor.trans (h₁ : Ancestor idom a b) (h₂ : Ancestor idom b c) : Ancestor idom a c := by
  induction h₂ with
  | refl => exact h₁
  | up hlink _ ih => exact .up hlink ih

/-- Whether a node has a link. -/
def Linked (idom : Array (Option Nat)) (n : Nat) : Prop :=
  ∃ u, linkOf idom n = some u

/-- A node that is linked to the entry has an entry in the array of links. -/
theorem lt_size_of_linked (h : Linked idom n) : n < idom.size := by
  obtain ⟨u, hu⟩ := h
  refine Nat.lt_of_not_le fun hge => ?_
  rw [linkOf, Array.getElem?_eq_none hge] at hu
  cases hu

/-- Two walks up the links, from `a` and from `b`, come together at `c`. As long as they are at
nodes of different numbers, the one at the greater number goes on along its link, wherever that
leads. -/
inductive WalksMeet (idom : Array (Option Nat)) (number : Array Nat) (c : Nat) : Nat → Nat → Prop
  | met : WalksMeet idom number c c c
  | left {a b up : Nat} : numberOf number b < numberOf number a → linkOf idom a = some up →
      WalksMeet idom number c up b → WalksMeet idom number c a b
  | right {a b up : Nat} : numberOf number a < numberOf number b → linkOf idom b = some up →
      WalksMeet idom number c a up → WalksMeet idom number c a b

/-- An ancestor of two nodes that all their common ancestors are ancestors of. -/
structure IsClosest (idom : Array (Option Nat)) (a b c : Nat) : Prop where
  left : Ancestor idom c a
  right : Ancestor idom c b
  closest : ∀ d, Ancestor idom d a → Ancestor idom d b → Ancestor idom d c

/-- A closest common ancestor does not depend on the order of the two nodes. -/
theorem IsClosest.symm (h : IsClosest idom a b c) : IsClosest idom b a c :=
  ⟨h.right, h.left, fun d hb ha => h.closest d ha hb⟩

theorem IsClosest.self (a : Nat) : IsClosest idom a a a :=
  ⟨.refl, .refl, fun _ hd _ => hd⟩

/-- Links on which every node but the entry goes down in number, to a node that has a link itself,
and which can tell linked nodes by their numbers. -/
structure Rooted (idom : Array (Option Nat)) (number : Array Nat) (entry : Nat) : Prop where
  entry_link : linkOf idom entry = some entry
  linked : ∀ n u, linkOf idom n = some u → n ≠ entry → Linked idom u
  number_lt : ∀ n u, linkOf idom n = some u → n ≠ entry → numberOf number u < numberOf number n
  number_inj : ∀ m n, Linked idom m → Linked idom n → numberOf number m = numberOf number n → m = n

namespace Rooted

variable (h : Rooted idom number entry)
include h

/-- What a node is linked to is linked in turn. -/
theorem linked_link (hu : linkOf idom n = some u) : Linked idom u := by
  by_cases hn : n = entry
  · subst hn
    obtain rfl : n = u := Option.some.inj (h.entry_link.symm.trans hu)
    exact ⟨n, hu⟩
  · exact h.linked n u hu hn

/-- The ancestors of a linked node are linked. -/
theorem linked_of_ancestor (hb : Linked idom b) (hab : Ancestor idom a b) : Linked idom a := by
  induction hab with
  | refl => exact hb
  | up hlink _ ih => exact ih (h.linked_link hlink)

/-- An ancestor has no greater number than the nodes below it. -/
theorem number_le (hab : Ancestor idom a b) : numberOf number a ≤ numberOf number b := by
  induction hab with
  | refl => exact Nat.le_refl _
  | @up b c hlink _ ih =>
    by_cases hb : b = entry
    · subst hb
      exact Option.some.inj (h.entry_link.symm.trans hlink) ▸ ih
    · exact Nat.le_trans ih (Nat.le_of_lt (h.number_lt b c hlink hb))

/-- All links lead to the entry. -/
theorem ancestor_entry (hn : Linked idom n) : Ancestor idom entry n := by
  induction hk : numberOf number n using Nat.strongRecOn generalizing n with
  | ind k ih =>
    by_cases he : n = entry
    · exact he ▸ .refl
    · obtain ⟨u, hu⟩ := hn
      have hlt := h.number_lt n u hu he
      exact .up hu (ih _ (hk ▸ hlt) (h.linked n u hu he) rfl)

/-- Nodes that are ancestors of each other are equal. -/
theorem antisymm (hb : Linked idom b) (hab : Ancestor idom a b) (hba : Ancestor idom b a) :
    a = b :=
  h.number_inj a b (h.linked_of_ancestor hb hab) hb
    (Nat.le_antisymm (h.number_le hab) (h.number_le hba))

/-- Of two linked nodes, the one with the greater number can go on to its link. -/
theorem step_up (ha : Linked idom a) (hb : Linked idom b)
    (hlt : numberOf number b < numberOf number a) :
    ∃ u, linkOf idom a = some u ∧ numberOf number u < numberOf number a ∧ Linked idom u := by
  obtain ⟨u, hu⟩ := ha
  have hentry := h.number_le (h.ancestor_entry hb)
  have hne : a ≠ entry := by
    rintro rfl
    omega
  exact ⟨u, hu, h.number_lt a u hu hne, h.linked a u hu hne⟩

/-! ## Where two walks meet -/

/-- The test of `nearestCommon` holds at every step from linked nodes, so that it goes where the two
walks go, and ends where they meet. -/
theorem walksMeet_nearestCommon (ha : Linked idom a) (hb : Linked idom b) :
    WalksMeet idom number (nearestCommon idom number a b) a b := by
  fun_induction nearestCommon idom number a b with
  | case1 a b hlt hnone =>
    obtain ⟨u, hu, -⟩ := h.step_up ha hb hlt
    cases hnone.symm.trans hu
  | case2 a b hlt up hup hless ih => exact .left hlt hup (ih (h.linked_link hup) hb)
  | case3 a b hlt up hup hnotless =>
    obtain ⟨u, hu, hless, -⟩ := h.step_up ha hb hlt
    obtain rfl : up = u := Option.some.inj (hup.symm.trans hu)
    exact absurd hless hnotless
  | case4 a b hle hlt hnone =>
    obtain ⟨u, hu, -⟩ := h.step_up hb ha hlt
    cases hnone.symm.trans hu
  | case5 a b hle hlt up hup hless ih => exact .right hlt hup (ih ha (h.linked_link hup))
  | case6 a b hle hlt up hup hnotless =>
    obtain ⟨u, hu, hless, -⟩ := h.step_up hb ha hlt
    obtain rfl : up = u := Option.some.inj (hup.symm.trans hu)
    exact absurd hless hnotless
  | case7 a b hle hle' =>
    -- Nodes with equal numbers are equal.
    obtain rfl : a = b := h.number_inj a b ha hb (by omega)
    exact .met

/-- A common ancestor of a node and one with a smaller number is an ancestor of the node's link. -/
theorem isClosest_up (hu : linkOf idom a = some u) (hlt : numberOf number b < numberOf number a)
    (hc : IsClosest idom u b c) : IsClosest idom a b c where
  left := .up hu hc.left
  right := hc.right
  closest d hda hdb := by
    refine hc.closest d ?_ hdb
    cases hda with
    | refl => exact absurd (h.number_le hdb) (Nat.not_le_of_lt hlt)
    | up hlink hd =>
      obtain rfl := Option.some.inj (hu.symm.trans hlink)
      exact hd

/-- Where the two walks meet is a closest common ancestor. -/
theorem isClosest_of_walksMeet (hmeet : WalksMeet idom number c a b) : IsClosest idom a b c := by
  induction hmeet with
  | met => exact .self c
  | left hlt hup _ ih => exact h.isClosest_up hup hlt ih
  | right hlt hup _ ih => exact (h.isClosest_up hup hlt ih.symm).symm

/-- What the loops compute is a closest common ancestor. -/
theorem isClosest_nearestCommon (ha : Linked idom a) (hb : Linked idom b) :
    IsClosest idom a b (nearestCommon idom number a b) :=
  h.isClosest_of_walksMeet (h.walksMeet_nearestCommon ha hb)

/-- What the loops compute is linked to the entry. -/
theorem linked_nearestCommon (ha : Linked idom a) (hb : Linked idom b) :
    Linked idom (nearestCommon idom number a b) :=
  h.linked_of_ancestor ha (h.isClosest_nearestCommon ha hb).left

/-- Two nodes have one closest common ancestor. -/
theorem eq_nearestCommon (ha : Linked idom a) (hb : Linked idom b) (hc : IsClosest idom a b c) :
    c = nearestCommon idom number a b := by
  have hfound := h.isClosest_nearestCommon ha hb
  exact h.antisymm (h.linked_nearestCommon ha hb) (hfound.closest c hc.left hc.right)
    (hc.closest _ hfound.left hfound.right)

/-- The loops may start from the two nodes in either order. -/
theorem nearestCommon_comm (ha : Linked idom a) (hb : Linked idom b) :
    nearestCommon idom number a b = nearestCommon idom number b a :=
  h.eq_nearestCommon hb ha (h.isClosest_nearestCommon ha hb).symm

theorem nearestCommon_self (ha : Linked idom a) : nearestCommon idom number a a = a :=
  (h.eq_nearestCommon ha ha (.self a)).symm

/-- However three nodes are taken together, what is found is the closest of the ancestors that all
three have in common. -/
theorem nearestCommon_assoc (ha : Linked idom a) (hb : Linked idom b) (hc : Linked idom c) :
    nearestCommon idom number (nearestCommon idom number a b) c =
      nearestCommon idom number a (nearestCommon idom number b c) := by
  have hab := h.isClosest_nearestCommon ha hb
  have hbc := h.isClosest_nearestCommon hb hc
  have hall := h.isClosest_nearestCommon (h.linked_nearestCommon ha hb) hc
  refine h.eq_nearestCommon ha (h.linked_nearestCommon hb hc) ⟨?_, ?_, fun d hda hd => ?_⟩
  · exact hall.left.trans hab.left
  · exact hbc.closest _ (hall.left.trans hab.right) hall.right
  · exact hall.closest d (hab.closest d hda (hd.trans hbc.left)) (hd.trans hbc.right)

end Rooted

/-! ## Fingers -/

/-- A finger at `a` goes up as long as its number is greater than that of the other finger, which
stays at `b`, and comes to the last node. Where there is no link it jumps to `b`. -/
inductive FingerClimbs (idom : Array (Option Nat)) (number : Array Nat) (b : Nat) :
    Nat → Nat → Prop
  | stop {a : Nat} : numberOf number a ≤ numberOf number b → FingerClimbs idom number b a a
  | step {a last : Nat} : numberOf number b < numberOf number a →
      FingerClimbs idom number b ((linkOf idom a).getD b) last → FingerClimbs idom number b a last

/-- The fingers at `a` and `b` meet at `c`. As long as they are apart, there is another round, in
which first the one goes up and then the other. -/
inductive FingersMeet (idom : Array (Option Nat)) (number : Array Nat) (c : Nat) :
    Nat → Nat → Prop
  | met : FingersMeet idom number c c c
  | round {a b a' b' : Nat} : a ≠ b → FingerClimbs idom number b a a' →
      FingerClimbs idom number a' b b' → FingersMeet idom number c a' b' →
      FingersMeet idom number c a b

namespace Rooted

variable (h : Rooted idom number entry)
include h

/-- A finger that goes up has reached an ancestor, which is not above the other finger. -/
theorem exists_fingerClimbs (ha : Linked idom a) (hb : Linked idom b) :
    ∃ a', FingerClimbs idom number b a a' ∧ Linked idom a' ∧
      numberOf number a' ≤ numberOf number a ∧ numberOf number a' ≤ numberOf number b := by
  induction hk : numberOf number a using Nat.strongRecOn generalizing a with
  | ind k ih =>
    by_cases hle : numberOf number a ≤ numberOf number b
    · exact ⟨a, .stop hle, ha, Nat.le_of_eq hk, hle⟩
    · have hlt := Nat.lt_of_not_le hle
      obtain ⟨u, hu, hless, hlinked⟩ := h.step_up ha hb hlt
      obtain ⟨a', hclimbs, ha', hle', hb'⟩ := ih _ (hk ▸ hless) hlinked rfl
      refine ⟨a', .step hlt ?_, ha', by omega, hb'⟩
      rwa [hu, Option.getD_some]

/-- Going up changes nothing about where the walks meet. -/
theorem nearestCommon_of_fingerClimbs (ha : Linked idom a) (hb : Linked idom b)
    (hclimbs : FingerClimbs idom number b a d) :
    Linked idom d ∧ nearestCommon idom number a b = nearestCommon idom number d b := by
  induction hclimbs with
  | stop => exact ⟨ha, rfl⟩
  | step hlt _ ih =>
    obtain ⟨u, hu, -, hlinked⟩ := h.step_up ha hb hlt
    rw [hu, Option.getD_some] at ih
    obtain ⟨hd, heq⟩ := ih hlinked
    have hclosest := h.isClosest_up hu hlt (h.isClosest_nearestCommon hlinked hb)
    exact ⟨hd, (h.eq_nearestCommon ha hb hclosest).symm.trans heq⟩

/-- So the rounds can end nowhere else. -/
theorem eq_of_fingersMeet (ha : Linked idom a) (hb : Linked idom b)
    (hmeet : FingersMeet idom number c a b) : c = nearestCommon idom number a b := by
  induction hmeet with
  | met => exact (h.nearestCommon_self ha).symm
  | round hne hfirst hsecond _ ih =>
    obtain ⟨ha', heq⟩ := h.nearestCommon_of_fingerClimbs ha hb hfirst
    obtain ⟨hb', heq'⟩ := h.nearestCommon_of_fingerClimbs hb ha' hsecond
    rw [ih ha' hb', heq, h.nearestCommon_comm ha' hb, heq', h.nearestCommon_comm hb' ha']

/-- The numbers of the two fingers together go down from round to round, for of two fingers that are
apart one is above the other. -/
theorem exists_fingersMeet (ha : Linked idom a) (hb : Linked idom b) :
    ∃ c, FingersMeet idom number c a b := by
  induction hk : numberOf number a + numberOf number b using Nat.strongRecOn generalizing a b with
  | ind k ih =>
    by_cases hab : a = b
    · exact ⟨b, hab ▸ .met⟩
    · obtain ⟨a', hfirst, ha', hlea, hlea'⟩ := h.exists_fingerClimbs ha hb
      obtain ⟨b', hsecond, hb', hleb, hleb'⟩ := h.exists_fingerClimbs hb ha'
      have hne : numberOf number a ≠ numberOf number b := mt (h.number_inj a b ha hb) hab
      obtain ⟨c, hmeet⟩ := ih _ (by omega) ha' hb' rfl
      exact ⟨c, .round hab hfirst hsecond hmeet⟩

/-- The loops meet at the node that the bounded recursion gives, and at no other. -/
theorem fingersMeet_iff (ha : Linked idom a) (hb : Linked idom b) :
    FingersMeet idom number c a b ↔ c = nearestCommon idom number a b := by
  refine ⟨h.eq_of_fingersMeet ha hb, ?_⟩
  rintro rfl
  obtain ⟨c, hmeet⟩ := h.exists_fingersMeet ha hb
  exact h.eq_of_fingersMeet ha hb hmeet ▸ hmeet

end Rooted

/-- The node with the greatest number on both chains of links, from `a` and from `b`. -/
structure IsDeepest (idom : Array (Option Nat)) (number : Array Nat) (a b c : Nat) : Prop where
  left : Ancestor idom c a
  right : Ancestor idom c b
  number_lt : ∀ d, Ancestor idom d a → Ancestor idom d b → d ≠ c →
    numberOf number d < numberOf number c

/-- In a rooted array the closest common ancestor has a greater number than all others. -/
theorem Rooted.isDeepest (h : Rooted idom number entry) (ha : Linked idom a)
    (hc : IsClosest idom a b c) : IsDeepest idom number a b c where
  left := hc.left
  right := hc.right
  number_lt d hda hdb hne := by
    have hlinked := h.linked_of_ancestor ha hc.left
    have hdc := hc.closest d hda hdb
    refine Nat.lt_of_le_of_ne (h.number_le hdc) fun heq => hne ?_
    exact h.number_inj d c (h.linked_of_ancestor hlinked hdc) hlinked heq

/-- On links that lead to the entry the fingers meet, whatever two linked nodes they set out from,
and meet at the one node that has the greatest number of all on both chains. This makes finding the
node commutative, idempotent and associative. -/
theorem nearestCommon_laws (h : Rooted idom number entry) :
    (∀ a b, Linked idom a → Linked idom b →
      (∀ c, FingersMeet idom number c a b ↔ c = nearestCommon idom number a b) ∧
      IsDeepest idom number a b (nearestCommon idom number a b) ∧
      nearestCommon idom number a b = nearestCommon idom number b a) ∧
    (∀ a, Linked idom a → nearestCommon idom number a a = a) ∧
    ∀ a b c, Linked idom a → Linked idom b → Linked idom c →
      nearestCommon idom number (nearestCommon idom number a b) c =
        nearestCommon idom number a (nearestCommon idom number b c) := by
  refine ⟨fun a b ha hb => ⟨fun c => h.fingersMeet_iff ha hb, ?_, h.nearestCommon_comm ha hb⟩,
    fun a => h.nearestCommon_self, fun a b c => h.nearestCommon_assoc⟩
  exact h.isDeepest ha (h.isClosest_nearestCommon ha hb)

/-- A tree in which the numbers on one branch lie between those on the other, so that the fingers
take turns. The last node is not linked. -/
def branchesSample : Array (Option Nat) :=
  #[some 2, some 5, some 2, some 0, some 1, some 2, none]

def branchesNumber : Array Nat :=
  #[3, 5, 1, 4, 6, 2, 9]

theorem nearestCommon_laws_sample :
    Rooted branchesSample branchesNumber 2 ∧
      (Linked branchesSample 4 ∧ Linked branchesSample 3 ∧ Linked branchesSample 1) ∧
      FingersMeet branchesSample branchesNumber 2 4 3 ∧
      IsDeepest branchesSample branchesNumber 4 1 1 ∧
      nearestCommon branchesSample branchesNumber
          (nearestCommon branchesSample branchesNumber 4 1) 3 =
        nearestCommon branchesSample branchesNumber 4
          (nearestCommon branchesSample branchesNumber 1 3) := by
  have hdown : ∀ n < 7, n ≠ 2 → (linkOf branchesSample n).all fun u =>
      (linkOf branchesSample u).isSome &&
        numberOf branchesNumber u < numberOf branchesNumber n := by decide
  have hsize {n u : Nat} (hu : linkOf branchesSample n = some u) : n < 7 :=
    lt_size_of_linked ⟨u, hu⟩
  have hlink {n u : Nat} (hu : linkOf branchesSample n = some u) (hn : n ≠ 2) :
      Linked branchesSample u ∧
        numberOf branchesNumber u < numberOf branchesNumber n := by
    have hall := hdown n (hsize hu) hn
    rw [hu, Option.all_some, Bool.and_eq_true, decide_eq_true_eq] at hall
    exact ⟨Option.isSome_iff_exists.1 hall.1, hall.2⟩
  have hrooted : Rooted branchesSample branchesNumber 2 :=
    { entry_link := rfl
      linked := fun n u hu hn => (hlink hu hn).1
      number_lt := fun n u hu hn => (hlink hu hn).2
      number_inj := by
        have hinj : ∀ m < 7, ∀ n < 7,
            numberOf branchesNumber m = numberOf branchesNumber n → m = n := by
          decide
        exact fun m n ⟨_, hm⟩ ⟨_, hn⟩ => hinj m (hsize hm) n (hsize hn) }
  have h4 : Linked branchesSample 4 := ⟨1, rfl⟩
  have h3 : Linked branchesSample 3 := ⟨0, rfl⟩
  have h1 : Linked branchesSample 1 := ⟨5, rfl⟩
  obtain ⟨hpair, -, hassoc⟩ := nearestCommon_laws hrooted
  have hmeet : 2 = nearestCommon branchesSample branchesNumber 4 3 := by cbv
  have hnear : nearestCommon branchesSample branchesNumber 4 1 = 1 := by cbv
  have hdeepest := (hpair 4 1 h4 h1).2.1
  rw [hnear] at hdeepest
  exact ⟨hrooted, ⟨h4, h3, h1⟩, ((hpair 4 3 h4 h3).1 2).2 hmeet, hdeepest, hassoc 4 1 3 h4 h1 h3⟩

end DefiniteAssignment.DominatorTree
