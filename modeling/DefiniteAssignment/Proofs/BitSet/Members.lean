import DefiniteAssignment.BitSet
/-!
# Members of bit sets

What the operations on bit sets do to the sets that they stand for. `Over capacity s` says that `s`
has as many words as the capacity needs and that no bit at or above the capacity is one. The
operations keep it, and under it a set is known by its members:

> `ext`: sets over one capacity that have the same members are equal as data.

All operations on two sets combine words one by one, so that their laws are instances of
`contains_zipWith`, which only asks how a single bit of the result comes about.
-/

namespace DefiniteAssignment.BitSet

/-! ## Bits of a word -/

theorem lt_size_of_lt {i : Nat} (hi : i < 64) : i < UInt64.size :=
  Nat.lt_trans hi (by decide)

/-- The bits of a word are those of the number that it stands for. -/
theorem testBit_eq (word : UInt64) {i : Nat} (hi : i < 64) :
    testBit word i = word.toNat.testBit i := by
  have hval : ((word >>> UInt64.ofNat i) &&& 1).toNat = word.toNat >>> i % 2 := by
    rw [UInt64.toNat_and, UInt64.toNat_shiftRight, UInt64.toNat_ofNat_of_lt' (lt_size_of_lt hi),
      Nat.mod_eq_of_lt hi, show (1 : UInt64).toNat = 1 from rfl, Nat.and_one_is_mod]
  rw [Bool.eq_iff_iff, testBit, bne_iff_ne, ne_eq, ← UInt64.toNat_inj, hval,
    show (0 : UInt64).toNat = 0 from rfl, Nat.testBit_eq_decide_div_mod_eq,
    ← Nat.shiftRight_eq_div_pow, decide_eq_true_eq]
  omega

/-- A bit looked at by shifting is the bit of the word as a vector. -/
theorem testBit_eq_getLsbD (word : UInt64) {i : Nat} (hi : i < 64) :
    testBit word i = word.toBitVec.getLsbD i := by
  rw [testBit_eq _ hi, ← UInt64.toNat_toBitVec, BitVec.testBit_toNat]

/-- Words are intersected bit by bit. -/
theorem testBit_and (v w : UInt64) {i : Nat} (hi : i < 64) :
    testBit (v &&& w) i = (testBit v i && testBit w i) := by
  rw [testBit_eq _ hi, testBit_eq _ hi, testBit_eq _ hi, UInt64.toNat_and, Nat.testBit_and]

/-- Words are united bit by bit. -/
theorem testBit_or (v w : UInt64) {i : Nat} (hi : i < 64) :
    testBit (v ||| w) i = (testBit v i || testBit w i) := by
  rw [testBit_eq _ hi, testBit_eq _ hi, testBit_eq _ hi, UInt64.toNat_or, Nat.testBit_or]

/-- The complement of a word has the bits that the word has not. -/
theorem testBit_not (w : UInt64) {i : Nat} (hi : i < 64) : testBit (~~~w) i = !testBit w i := by
  rw [testBit_eq_getLsbD _ hi, testBit_eq_getLsbD _ hi, UInt64.toBitVec_not, BitVec.getLsbD_not]
  simp [hi]

@[simp]
theorem testBit_zero (i : Nat) : testBit 0 i = false := by
  simp [testBit]

theorem toNat_oneBit {i : Nat} (hi : i < 64) : (oneBit i).toNat = 1 <<< i := by
  rw [oneBit, UInt64.toNat_shiftLeft, UInt64.toNat_ofNat_of_lt' (lt_size_of_lt hi),
    Nat.mod_eq_of_lt hi, show (1 : UInt64).toNat = 1 from rfl]
  refine Nat.mod_eq_of_lt ?_
  rw [Nat.one_shiftLeft]
  exact Nat.pow_lt_pow_right (by omega) hi

/-- A word with one bit has that bit and no other. -/
theorem testBit_oneBit {i j : Nat} (hi : i < 64) (hj : j < 64) :
    testBit (oneBit i) j = decide (i = j) := by
  rw [testBit_eq _ hj, toNat_oneBit hi, Nat.one_shiftLeft, Nat.testBit_two_pow]

/-- One less than the word of a single bit is the word of all bits below it. -/
theorem testBit_oneBit_sub_one {r j : Nat} (hr : r < 64) (hj : j < 64) :
    testBit (oneBit r - 1) j = decide (j < r) := by
  have hle : 1 ≤ oneBit r := by
    rw [UInt64.le_iff_toNat_le, toNat_oneBit hr, Nat.one_shiftLeft]
    exact Nat.one_le_two_pow
  rw [testBit_eq _ hj, UInt64.toNat_sub_of_le _ _ hle, toNat_oneBit hr, Nat.one_shiftLeft,
    show (1 : UInt64).toNat = 1 from rfl, Nat.testBit_two_pow_sub_one]

/-- A word is determined by its bits. -/
theorem word_ext {v w : UInt64} (h : ∀ i < 64, testBit v i = testBit w i) : v = w := by
  rw [← UInt64.toBitVec_inj]
  refine BitVec.eq_of_getLsbD_eq ?_
  intro i hi
  rw [← testBit_eq_getLsbD v hi, ← testBit_eq_getLsbD w hi, h i hi]

/-! ## Words of a capacity -/

/-- Every number below the capacity has a word. -/
theorem div_lt_wordCount {c i : Nat} (hi : i < c) : i / 64 < wordCount c := by
  unfold wordCount
  omega

/-- Of two capacities, the greater one needs the greater number of words. -/
theorem max_wordCount (c d : Nat) : max (wordCount c) (wordCount d) = wordCount (max c d) := by
  unfold wordCount
  omega

/-! ## Sets over a capacity -/

/-- The bit of a set that stands for a number, wherever it lies. -/
def bit (s : BitSet) (i : Nat) : Bool :=
  testBit (s.word (i / 64)) (i % 64)

/-- `s` has the words that its capacity needs and no bit at or above it. -/
structure Over (capacity : Nat) (s : BitSet) : Prop where
  capacity_eq : s.capacity = capacity
  size_words : s.words.size = wordCount capacity
  lt_of_bit : ∀ i, s.bit i = true → i < capacity

variable {c d : Nat} {s t : BitSet}

/-- The bound that membership checks first is no restriction, since there are no bits beyond it. -/
theorem Over.contains_eq_bit (h : Over c s) (i : Nat) : s.contains i = s.bit i := by
  unfold contains
  rw [h.capacity_eq]
  by_cases hi : i < c
  · simp [hi, bit]
  · have hbit : s.bit i = false := by
      rw [← Bool.not_eq_true]
      exact fun hb => hi (h.lt_of_bit i hb)
    simp [hi, hbit]

/-- Every member is below the capacity. -/
theorem Over.lt_of_contains (h : Over c s) {i : Nat} (hi : s.contains i = true) : i < c :=
  h.lt_of_bit i (h.contains_eq_bit i ▸ hi)

/-- Words that are not there count as empty. -/
theorem word_of_size_le {i : Nat} (h : s.words.size ≤ i) : s.word i = 0 := by
  rw [word, Array.getElem?_eq_none h]
  rfl

/-- Changing one word changes no other, and nothing if there is no such word. -/
theorem word_modify (s : BitSet) (k : Nat) (f : UInt64 → UInt64) (i : Nat) :
    ({ s with words := s.words.modify k f } : BitSet).word i =
      if k = i ∧ i < s.words.size then f (s.word i) else s.word i := by
  unfold word
  rw [Array.getElem?_modify]
  by_cases hi : i < s.words.size
  · by_cases hk : k = i <;> simp [hk, hi]
  · simp [hi]

/-- Sets over one capacity that have the same members are equal as data. -/
theorem ext (hs : Over c s) (ht : Over c t) (h : ∀ i, s.contains i = t.contains i) : s = t := by
  have hwords : s.words = t.words := by
    refine Array.ext (hs.size_words.trans ht.size_words.symm) ?_
    intro k hk hk'
    refine word_ext ?_
    intro r hr
    have hbit := h (64 * k + r)
    rw [hs.contains_eq_bit, ht.contains_eq_bit, bit, bit, show (64 * k + r) / 64 = k by omega,
      show (64 * k + r) % 64 = r by omega, word, word, Array.getElem?_eq_getElem hk,
      Array.getElem?_eq_getElem hk'] at hbit
    exact hbit
  cases s
  cases t
  have hcapacity := hs.capacity_eq.trans ht.capacity_eq.symm
  simp_all

theorem word_empty (c i : Nat) : (empty c).word i = 0 := by
  by_cases hi : i < wordCount c <;> simp [word, empty, hi]

/-- The empty set has the words that its capacity needs. -/
theorem over_empty (c : Nat) : Over c (empty c) where
  capacity_eq := rfl
  size_words := by simp [empty]
  lt_of_bit i hi := by simp [bit, word_empty] at hi

@[simp]
theorem contains_empty (c i : Nat) : (empty c).contains i = false := by
  rw [(over_empty c).contains_eq_bit, bit, word_empty, testBit_zero]

/-- Clearing the tail of a set with the right number of words takes out what is not below its
capacity. -/
theorem bit_clearTail (h : s.words.size = wordCount s.capacity) (i : Nat) :
    s.clearTail.bit i = (s.bit i && decide (i < s.capacity)) := by
  have hsize : s.words.size = (s.capacity + 63) / 64 := h
  -- Beyond the last word both sides are false.
  by_cases hlast : s.words.size ≤ i / 64
  · have hout : ∀ u : BitSet, u.words.size = s.words.size → u.bit i = false := fun u hu => by
      rw [bit, word_of_size_le (hu ▸ hlast), testBit_zero]
    rw [hout s rfl, hout _ (by unfold clearTail; split <;> simp), Bool.false_and]
  · unfold clearTail
    split
    next hfull =>
      have hlt : i < s.capacity := by omega
      simp [hlt]
    next hpart =>
      have hmod : i % 64 < 64 := Nat.mod_lt _ (by decide)
      rw [bit, word_modify]
      split
      next hk =>
        have hiff : i % 64 < s.capacity % 64 ↔ i < s.capacity := by omega
        rw [testBit_and _ _ hmod, testBit_oneBit_sub_one (Nat.mod_lt _ (by decide)) hmod, bit,
          decide_eq_decide.2 hiff]
      next hk =>
        have hlt : i < s.capacity := by omega
        rw [bit, decide_eq_true hlt, Bool.and_true]

/-- Clearing the end of the last word leaves no bit at or above the capacity. -/
theorem over_clearTail (h : s.words.size = wordCount s.capacity) : Over s.capacity s.clearTail where
  capacity_eq := by unfold clearTail; split <;> rfl
  size_words := by rw [← h]; unfold clearTail; split <;> simp
  lt_of_bit i hi := by
    rw [bit_clearTail h, Bool.and_eq_true, decide_eq_true_eq] at hi
    exact hi.2

/-- The full set has no bit at or above its capacity. -/
theorem over_full (c : Nat) : Over c (full c) :=
  over_clearTail (s := ⟨Array.replicate (wordCount c) (~~~0), c⟩) Array.size_replicate

/-- The full set has the numbers below its capacity. -/
@[simp]
theorem contains_full (c i : Nat) : (full c).contains i = decide (i < c) := by
  rw [(over_full c).contains_eq_bit, full, bit_clearTail Array.size_replicate]
  by_cases hi : i < c
  · rw [bit, word, Array.getElem?_replicate, if_pos (div_lt_wordCount hi), Option.getD_some,
      testBit_not _ (Nat.mod_lt _ (by decide)), testBit_zero, Bool.not_false, Bool.true_and]
  · rw [decide_eq_false hi, Bool.and_false]

/-- Inserting sets one bit, if it is below the capacity. -/
theorem bit_insert (h : Over c s) (i j : Nat) :
    (s.insert i).bit j = (s.bit j || (decide (i = j) && decide (j < c))) := by
  unfold insert
  split
  next hi =>
    rw [h.capacity_eq] at hi
    have hword : i / 64 < s.words.size := h.size_words.symm ▸ div_lt_wordCount hi
    rw [bit, word_modify]
    split
    next hk =>
      have hiff : i % 64 = j % 64 ↔ i = j ∧ j < c := by omega
      rw [testBit_or _ _ (Nat.mod_lt j (by decide)),
        testBit_oneBit (Nat.mod_lt i (by decide)) (Nat.mod_lt j (by decide)), bit,
        decide_eq_decide.2 hiff, Bool.decide_and]
    next hk =>
      have hnot : ¬(i = j ∧ j < c) := by
        intro hij
        rw [← hij.1] at hk
        exact hk ⟨rfl, hword⟩
      rw [bit, ← Bool.decide_and, decide_eq_false hnot, Bool.or_false]
  next hi =>
    rw [h.capacity_eq] at hi
    have hnot : ¬(i = j ∧ j < c) := by omega
    rw [← Bool.decide_and, decide_eq_false hnot, Bool.or_false]

/-- Inserting sets no bit at or above the capacity. -/
theorem over_insert (h : Over c s) (i : Nat) : Over c (s.insert i) where
  capacity_eq := by unfold insert; split <;> exact h.capacity_eq
  size_words := by rw [← h.size_words]; unfold insert; split <;> simp
  lt_of_bit j hj := by
    rw [bit_insert h, Bool.or_eq_true, Bool.and_eq_true, decide_eq_true_eq, decide_eq_true_eq] at hj
    rcases hj with hj | hj
    · exact h.lt_of_bit j hj
    · exact hj.2

/-- Insertion adds its number, if that is below the capacity, and nothing else. -/
theorem contains_insert (h : Over c s) (i j : Nat) :
    (s.insert i).contains j = (s.contains j || (decide (i = j) && decide (j < c))) := by
  rw [(over_insert h i).contains_eq_bit, h.contains_eq_bit, bit_insert h]

/-- A number below the capacity is a member once it is inserted, and so are those before it. -/
theorem contains_insert_iff (h : Over c s) {i : Nat} (hi : i < c) (j : Nat) :
    (s.insert i).contains j = true ↔ j = i ∨ s.contains j = true := by
  rw [contains_insert h, Bool.or_eq_true, Bool.and_eq_true, decide_eq_true_eq, decide_eq_true_eq,
    or_comm]
  exact or_congr_left ⟨fun hij => hij.1.symm, fun hij => ⟨hij.symm, hij ▸ hi⟩⟩

/-! ## Operations on two sets -/

section Combination

variable {op : UInt64 → UInt64 → UInt64} {f : Bool → Bool → Bool}

/-- Word by word, two sets make one over the larger of their capacities. -/
theorem over_zipWith (hs : Over c s) (ht : Over d t) : Over (max c d) (zipWith op s t) := by
  have hsize : max s.words.size t.words.size = wordCount (max s.capacity t.capacity) := by
    rw [hs.size_words, ht.size_words, hs.capacity_eq, ht.capacity_eq, max_wordCount]
  have hover := over_clearTail (s := ⟨(Array.range (max s.words.size t.words.size)).map
    fun i => op (s.word i) (t.word i), max s.capacity t.capacity⟩) (by simpa using hsize)
  rw [hs.capacity_eq, ht.capacity_eq] at hover
  rw [zipWith, hs.capacity_eq, ht.capacity_eq]
  exact hover

/-- An operation whose bits come about by `f` has the members that `f` says. -/
theorem contains_zipWith (hop : ∀ v w : UInt64, ∀ i < 64, testBit (op v w) i =
    f (testBit v i) (testBit w i)) (hf : f false false = false) (hs : Over c s) (ht : Over d t)
    (i : Nat) : (zipWith op s t).contains i = f (s.contains i) (t.contains i) := by
  have hmod : i % 64 < 64 := Nat.mod_lt _ (by decide)
  have hsize : max s.words.size t.words.size = wordCount (max s.capacity t.capacity) := by
    rw [hs.size_words, ht.size_words, hs.capacity_eq, ht.capacity_eq, max_wordCount]
  rw [(over_zipWith hs ht).contains_eq_bit, hs.contains_eq_bit, ht.contains_eq_bit, zipWith,
    bit_clearTail (by simpa using hsize)]
  by_cases hi : i < max s.capacity t.capacity
  · have hword : i / 64 < max s.words.size t.words.size := hsize.symm ▸ div_lt_wordCount hi
    have hget : (BitSet.mk ((Array.range (max s.words.size t.words.size)).map
        fun k => op (s.word k) (t.word k)) (max s.capacity t.capacity)).word (i / 64) =
          op (s.word (i / 64)) (t.word (i / 64)) := by
      rw [word, Array.getElem?_eq_getElem (by simpa using hword)]
      simp
    simp only [bit, hget, hop _ _ _ hmod, hi, decide_true, Bool.and_true]
  -- At or above both capacities neither set has the number.
  · have hsbit : s.bit i = false := by
      rw [← Bool.not_eq_true]
      intro hb
      have := hs.lt_of_bit i hb
      have := hs.capacity_eq
      omega
    have htbit : t.bit i = false := by
      rw [← Bool.not_eq_true]
      intro hb
      have := ht.lt_of_bit i hb
      have := ht.capacity_eq
      omega
    rw [hsbit, htbit, hf, decide_eq_false hi, Bool.and_false]

end Combination

/-- The intersection has the numbers that both sets have. -/
theorem contains_intersection (hs : Over c s) (ht : Over d t) (i : Nat) :
    (s.intersection t).contains i = (s.contains i && t.contains i) :=
  contains_zipWith (f := (· && ·)) (fun v w _ hi => testBit_and v w hi) rfl hs ht i

/-- The union has the numbers that either set has. -/
theorem contains_union (hs : Over c s) (ht : Over d t) (i : Nat) :
    (s.union t).contains i = (s.contains i || t.contains i) :=
  contains_zipWith (f := (· || ·)) (fun v w _ hi => testBit_or v w hi) rfl hs ht i

/-- The intersection of sets over one capacity is a set over it. -/
theorem over_intersection (hs : Over c s) (ht : Over c t) : Over c (s.intersection t) :=
  Nat.max_self c ▸ over_zipWith hs ht

/-- The union of sets over one capacity is a set over it. -/
theorem over_union (hs : Over c s) (ht : Over c t) : Over c (s.union t) :=
  Nat.max_self c ▸ over_zipWith hs ht

end DefiniteAssignment.BitSet
