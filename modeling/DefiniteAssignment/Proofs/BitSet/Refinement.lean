import Mathlib.Order.Lattice.Nat
import Mathlib.Algebra.Order.Floor.Div
import DefiniteAssignment.Proofs.BitSet.Listing
/-!
# Bit sets as finite sets

However a bit set is made, it stands for a finite set of numbers. `Construction` lists the ways:
from nothing, from everything below a capacity or from a list of numbers, and from other bit sets by
adding or removing a number and by the three operations on two sets, whose capacities may differ.
The same construction carried out on finite sets gives the members that it ought to have, and its
capacity. The main statement is that it has them:

> `represents_build`

What is stored is exactly as many words as the capacity takes, and bits that stand for no number
below the capacity are zero, whether the capacity ends with a word or within one (`Represents`).
Since the answers of `contains`, `size`, `isEmpty` and `isSubset` are about stored words, that is
what they rest on.
-/

namespace DefiniteAssignment.BitSet

variable {c d : Nat} {s t : BitSet} {a : Finset Nat}

/-! ## Removing a number, and what one set has and another lacks -/

/-- Erasing clears one bit. -/
theorem bit_erase (h : Over c s) (i j : Nat) :
    (s.erase i).bit j = (s.bit j && !decide (i = j)) := by
  unfold erase
  split
  next hi =>
    rw [h.capacity_eq] at hi
    have hword : i / 64 < s.words.size := h.size_words.symm ▸ div_lt_wordCount hi
    have hmod : j % 64 < 64 := Nat.mod_lt j (by decide)
    rw [bit, word_modify]
    split
    next hk =>
      have hiff : i % 64 = j % 64 ↔ i = j := by omega
      rw [testBit_and _ _ hmod, testBit_not _ hmod, testBit_oneBit (Nat.mod_lt i (by decide)) hmod,
        bit, decide_eq_decide.2 hiff]
    next hk =>
      have hne : i ≠ j := fun hij => hk ⟨by rw [hij], hij ▸ hword⟩
      rw [bit, decide_eq_false hne, Bool.not_false, Bool.and_true]
  next hi =>
    rw [h.capacity_eq] at hi
    by_cases hij : i = j
    · have hbit : s.bit j = false := Bool.eq_false_iff.2 fun hb => hi (hij ▸ h.lt_of_bit j hb)
      rw [hbit, Bool.false_and]
    · rw [decide_eq_false hij, Bool.not_false, Bool.and_true]

/-- Erasing sets no bit. -/
theorem over_erase (h : Over c s) (i : Nat) : Over c (s.erase i) where
  capacity_eq := by unfold erase; split <;> exact h.capacity_eq
  size_words := by rw [← h.size_words]; unfold erase; split <;> simp
  lt_of_bit j hj := by
    rw [bit_erase h, Bool.and_eq_true] at hj
    exact h.lt_of_bit j hj.1

/-- Removing a number takes it out and nothing else. -/
theorem contains_erase (h : Over c s) (i j : Nat) :
    (s.erase i).contains j = (s.contains j && !decide (i = j)) := by
  rw [(over_erase h i).contains_eq_bit, h.contains_eq_bit, bit_erase h]

/-- The difference of two sets has the larger of their capacities. -/
theorem over_difference (hs : Over c s) (ht : Over d t) : Over (max c d) (s.difference t) := by
  unfold difference
  exact over_zipWith hs ht

/-- The difference has the numbers that the first set has and the second has not. -/
theorem contains_difference (hs : Over c s) (ht : Over d t) (i : Nat) :
    (s.difference t).contains i = (s.contains i && !t.contains i) := by
  refine contains_zipWith (f := fun x y => x && !y) ?_ rfl hs ht i
  intro v w i hi
  rw [testBit_and v _ hi, testBit_not w hi]

/-! ## Sets from lists -/

/-- Inserting one number after another sets no bit at or above the capacity. -/
theorem over_foldl_insert (h : Over c s) (items : List Nat) : Over c (items.foldl insert s) := by
  induction items generalizing s with
  | nil => exact h
  | cons i items ih => exact ih (over_insert h i)

/-- Inserting numbers one after another makes all of them members. -/
theorem contains_foldl_insert (h : Over c s) {items : List Nat} (hitems : ∀ i ∈ items, i < c)
    (j : Nat) : (items.foldl insert s).contains j = true ↔ s.contains j = true ∨ j ∈ items := by
  induction items generalizing s with
  | nil => simp
  | cons i items ih =>
    obtain ⟨hi, hitems⟩ := List.forall_mem_cons.1 hitems
    rw [List.foldl_cons, ih (over_insert h i) hitems, contains_insert_iff h hi, List.mem_cons,
      or_comm (a := j = i), or_assoc]

/-- The capacity of a set from a list is one more than the greatest number, or zero. -/
theorem foldl_max_succ (items : List Nat) (bound : Nat) :
    items.foldl (fun bound i => max bound (i + 1)) bound =
      max bound (items.toFinset.sup (· + 1)) := by
  induction items generalizing bound with
  | nil => simp
  | cons i items ih =>
    rw [List.foldl_cons, ih, List.toFinset_cons, Finset.sup_insert]
    exact max_assoc bound (i + 1) _

/-- The set of a list has room for the largest number of the list. -/
theorem ofList_eq (items : List Nat) :
    ofList items = items.foldl insert (empty (items.toFinset.sup (· + 1))) := by
  rw [ofList, foldl_max_succ, Nat.zero_max]

/-- The set of a list has no bit above the largest number of the list. -/
theorem over_ofList (items : List Nat) : Over (items.toFinset.sup (· + 1)) (ofList items) := by
  rw [ofList_eq]
  exact over_foldl_insert (over_empty _) items

/-- The set of a list has the numbers of the list. -/
theorem contains_ofList (items : List Nat) (i : Nat) :
    (ofList items).contains i = true ↔ i ∈ items := by
  have hlt : ∀ i ∈ items, i < items.toFinset.sup (· + 1) := by
    intro i hi
    have hle := Finset.le_sup (f := (· + 1)) (List.mem_toFinset.2 hi)
    exact Nat.lt_of_succ_le hle
  rw [ofList_eq, contains_foldl_insert (over_empty _) hlt, contains_empty]
  exact or_iff_right Bool.false_ne_true

/-! ## Questions that words answer -/

/-- A word without bits is zero. -/
theorem word_eq_zero_iff {w : UInt64} : w = 0 ↔ ∀ i < 64, testBit w i = false := by
  constructor
  · intro h i _
    rw [h, testBit_zero]
  · intro h
    refine word_ext ?_
    intro i hi
    rw [h i hi, testBit_zero]

/-- A set is empty if it has no bit at all. -/
theorem isEmpty_iff_bit (s : BitSet) : s.isEmpty = true ↔ ∀ i, s.bit i = false := by
  rw [isEmpty, Array.all_eq_true]
  simp only [beq_iff_eq, word_eq_zero_iff]
  constructor
  · intro h i
    rcases Nat.lt_or_ge (i / 64) s.words.size with hlt | hge
    · rw [bit, word, Array.getElem?_eq_getElem hlt]
      exact h _ hlt _ (Nat.mod_lt i (by decide))
    · rw [bit, word_of_size_le hge, testBit_zero]
  · intro h k hk r hr
    have hbit := h (64 * k + r)
    rw [bit, show (64 * k + r) / 64 = k by omega, show (64 * k + r) % 64 = r by omega, word,
      Array.getElem?_eq_getElem hk] at hbit
    exact hbit

/-- One set is in another if no bit of it is zero in the other, also where that has no words. -/
theorem isSubset_iff_bit (s t : BitSet) :
    s.isSubset t = true ↔ ∀ i, s.bit i = true → t.bit i = true := by
  have hand : ∀ x y : Bool, (x && !y) = false ↔ (x = true → y = true) := by decide
  have hword : ∀ k, s.word k &&& ~~~(t.word k) = 0 ↔
      ∀ r < 64, testBit (s.word k) r = true → testBit (t.word k) r = true := by
    intro k
    rw [word_eq_zero_iff]
    refine forall₂_congr fun r hr => ?_
    rw [testBit_and _ _ hr, testBit_not _ hr, hand]
  simp only [isSubset, List.all_eq_true, List.mem_range, beq_iff_eq, hword]
  constructor
  · intro h i hi
    rcases Nat.lt_or_ge (i / 64) s.words.size with hlt | hge
    · exact h _ hlt _ (Nat.mod_lt i (by decide)) hi
    · rw [bit, word_of_size_le hge, testBit_zero] at hi
      cases hi
  · intro h k _ r hr
    have hbit := h (64 * k + r)
    rw [bit, bit, show (64 * k + r) / 64 = k by omega, show (64 * k + r) % 64 = r by omega] at hbit
    exact hbit

/-! ## Finite sets -/

/-- `s` stands for the set `a` of numbers below `c`: it has the words that it takes, none of their
bits is one that stands for a number from `c` on, and what is asked of it is answered as for `a`. -/
structure Represents (s : BitSet) (c : Nat) (a : Finset Nat) : Prop where
  capacity_eq : s.capacity = c
  size_words : s.words.size = c ⌈/⌉ 64
  lt_of_testBit : ∀ (k : Nat) (hk : k < s.words.size) (r : Nat),
    s.words[k].toNat.testBit r = true → 64 * k + r < c
  subset_range : a ⊆ Finset.range c
  contains_iff : ∀ i, s.contains i = true ↔ i ∈ a
  size_eq : s.size = a.card
  isEmpty_iff : s.isEmpty = true ↔ a = ∅

/-- The bits of any word stand for numbers below the capacity. -/
theorem Over.lt_of_testBit (h : Over c s) {k r : Nat} (hk : k < s.words.size)
    (hr : s.words[k].toNat.testBit r = true) : 64 * k + r < c := by
  have hlt : r < 64 := by
    by_contra hge
    have hbound := Nat.lt_of_lt_of_le s.words[k].toNat_lt
      (Nat.pow_le_pow_right (by decide) (Nat.le_of_not_lt hge))
    rw [Nat.testBit_lt_two_pow hbound] at hr
    cases hr
  refine h.lt_of_bit (64 * k + r) ?_
  rw [bit, show (64 * k + r) / 64 = k by omega, show (64 * k + r) % 64 = r by omega, word,
    Array.getElem?_eq_getElem hk, Option.getD_some, testBit_eq _ hlt, hr]

/-- A set is empty if it has no member. -/
theorem Over.isEmpty_iff (h : Over c s) : s.isEmpty = true ↔ ∀ i, s.contains i = false := by
  simp only [isEmpty_iff_bit, h.contains_eq_bit]

/-- Subsets are told word by word, also if the capacities differ. -/
theorem Over.isSubset_iff (hs : Over c s) (ht : Over d t) :
    s.isSubset t = true ↔ ∀ i, s.contains i = true → t.contains i = true := by
  simp only [isSubset_iff_bit, hs.contains_eq_bit, ht.contains_eq_bit]

/-- A set over a capacity stands for the finite set of its members. -/
theorem Over.represents (h : Over c s) (ha : ∀ i, s.contains i = true ↔ i ∈ a) :
    Represents s c a where
  capacity_eq := h.capacity_eq
  size_words := by
    rw [h.size_words, wordCount, Nat.ceilDiv_eq_add_pred_div]
    omega
  lt_of_testBit k hk r hr := h.lt_of_testBit hk hr
  subset_range i hi := Finset.mem_range.2 (h.lt_of_contains ((ha i).2 hi))
  contains_iff := ha
  size_eq := by
    have hlist : s.toList.toFinset = a := by
      ext i
      rw [List.mem_toFinset, h.mem_toList, ha]
    rw [size_eq_length_toList, ← List.toFinset_card_of_nodup s.nodup_toList, hlist]
  isEmpty_iff := by
    simp only [h.isEmpty_iff, Finset.eq_empty_iff_forall_notMem, ← ha, Bool.not_eq_true]

/-- The ways to make a bit set. -/
inductive Construction where
  | empty (capacity : Nat)
  | full (capacity : Nat)
  | ofList (items : List Nat)
  | insert (e : Construction) (i : Nat)
  | erase (e : Construction) (i : Nat)
  | union (e e' : Construction)
  | intersection (e e' : Construction)
  | difference (e e' : Construction)

namespace Construction

/-- The bit set that is made. -/
def build : Construction → BitSet
  | empty c => .empty c
  | full c => .full c
  | ofList items => .ofList items
  | insert e i => e.build.insert i
  | erase e i => e.build.erase i
  | union e e' => e.build.union e'.build
  | intersection e e' => e.build.intersection e'.build
  | difference e e' => e.build.difference e'.build

/-- The capacity that it has: a list takes one more than its greatest number, and two sets take the
greater of their capacities. -/
def capacity : Construction → Nat
  | empty c | full c => c
  | ofList items => items.toFinset.sup (· + 1)
  | insert e _ | erase e _ => e.capacity
  | union e e' | intersection e e' | difference e e' => max e.capacity e'.capacity

/-- The numbers that it holds. A number at or above the capacity is not added. -/
def members : Construction → Finset Nat
  | empty _ => ∅
  | full c => Finset.range c
  | ofList items => items.toFinset
  | insert e i => if i < e.capacity then Insert.insert i e.members else e.members
  | erase e i => e.members.erase i
  | union e e' => e.members ∪ e'.members
  | intersection e e' => e.members ∩ e'.members
  | difference e e' => e.members \ e'.members

/-- However a set is put together, no bit is at or above its capacity. -/
theorem over_build (e : Construction) : Over e.capacity e.build := by
  induction e with
  | empty c => exact over_empty c
  | full c => exact over_full c
  | ofList items => exact over_ofList items
  | insert e i ih => exact over_insert ih i
  | erase e i ih => exact over_erase ih i
  | union e e' ih ih' => exact over_zipWith ih ih'
  | intersection e e' ih ih' => exact over_zipWith ih ih'
  | difference e e' ih ih' => exact over_difference ih ih'

/-- However a set is put together, its members are those of the finite set that is built
alongside. -/
theorem contains_build (e : Construction) (i : Nat) :
    e.build.contains i = true ↔ i ∈ e.members := by
  induction e with
  | empty c => simp [build, members]
  | full c => simp [build, members]
  | ofList items => rw [build, members, contains_ofList, List.mem_toFinset]
  | insert e j ih =>
    rw [build, members]
    split
    next hj => rw [contains_insert_iff e.over_build hj, Finset.mem_insert, ih]
    next hj =>
      rw [← e.over_build.capacity_eq] at hj
      rw [BitSet.insert, if_neg hj, ih]
  | erase e j ih =>
    rw [build, members, contains_erase e.over_build, Finset.mem_erase, Bool.and_eq_true, ih,
      Bool.not_eq_true', decide_eq_false_iff_not, and_comm, ne_comm]
  | union e e' ih ih' =>
    rw [build, members, contains_union e.over_build e'.over_build, Bool.or_eq_true, ih, ih',
      Finset.mem_union]
  | intersection e e' ih ih' =>
    rw [build, members, contains_intersection e.over_build e'.over_build, Bool.and_eq_true, ih, ih',
      Finset.mem_inter]
  | difference e e' ih ih' =>
    rw [build, members, contains_difference e.over_build e'.over_build, Bool.and_eq_true,
      Bool.not_eq_true', ← Bool.not_eq_true, ih, ih', Finset.mem_sdiff]

/-- What is made stands for the set that the same construction gives on finite sets, and one such
set is told to be within another exactly if it is, whatever their capacities. -/
theorem represents_build (e : Construction) :
    Represents e.build e.capacity e.members ∧
      ∀ e' : Construction, e.build.isSubset e'.build = true ↔ e.members ⊆ e'.members := by
  refine ⟨e.over_build.represents e.contains_build, ?_⟩
  intro e'
  rw [e.over_build.isSubset_iff e'.over_build]
  simp only [contains_build]
  rfl

/-- What is left of all numbers below 70 without those of a set of less than two words. -/
example : (difference (full 70) (ofList [3, 64])).build.size = 68 := by decide +kernel

end Construction

end DefiniteAssignment.BitSet
