import DefiniteAssignment.Proofs.BitSet.Members
/-!
# Listing the members of a bit set

`toList` goes through the words in order and through the bits of each word in order. Here it is
shown to list exactly the members (`mem_toList`), each once and in ascending order
(`pairwise_toList`), and `size` to be the length of that list (`size_eq_length_toList`). So the size
tells a set from a set within it (`size_lt_of_subset`).
-/

namespace DefiniteAssignment.BitSet

/-- The bits of a word are listed, and nothing else. -/
theorem mem_bitsOf {word : UInt64} {i : Nat} :
    i ∈ bitsOf word ↔ i < 64 ∧ testBit word i = true := by
  unfold bitsOf
  split
  next h => simp [h]
  next => simp

theorem pairwise_bitsOf (word : UInt64) : (bitsOf word).Pairwise (· < ·) := by
  unfold bitsOf
  split
  · exact List.Pairwise.nil
  · exact List.pairwise_lt_range.filter _

/-- As many bits are listed as are counted. -/
theorem length_bitsOf (word : UInt64) : (bitsOf word).length = bitCount word := by
  unfold bitsOf bitCount
  split
  · rfl
  · rw [List.countP_eq_length_filter]

/-- The listed numbers are those whose bit is one. -/
theorem mem_toList_iff_bit (s : BitSet) (i : Nat) : i ∈ s.toList ↔ s.bit i = true := by
  simp only [toList, List.mem_flatMap, List.mem_map, mem_bitsOf, Prod.exists,
    List.mem_zipIdx_iff_getElem?, Array.getElem?_toList]
  constructor
  · intro hi
    obtain ⟨w, k, hw, r, ⟨hr, hbit⟩, rfl⟩ := hi
    rw [bit, show (64 * k + r) / 64 = k by omega, show (64 * k + r) % 64 = r by omega, word, hw]
    exact hbit
  · intro hbit
    have hk : i / 64 < s.words.size := by
      rcases Nat.lt_or_ge (i / 64) s.words.size with hlt | hge
      · exact hlt
      · rw [bit, word_of_size_le hge, testBit_zero] at hbit
        exact absurd hbit (by decide)
    refine ⟨s.words[i / 64], i / 64, Array.getElem?_eq_getElem hk, i % 64,
      ⟨Nat.mod_lt _ (by decide), ?_⟩, Nat.div_add_mod i 64⟩
    rw [bit, word, Array.getElem?_eq_getElem hk] at hbit
    exact hbit

variable {c : Nat} {s : BitSet}

/-- The listed numbers are the members. -/
theorem Over.mem_toList (h : Over c s) {i : Nat} : i ∈ s.toList ↔ s.contains i = true := by
  rw [mem_toList_iff_bit, h.contains_eq_bit]

/-- Members are listed in strictly ascending order. -/
theorem pairwise_toList (s : BitSet) : s.toList.Pairwise (· < ·) := by
  unfold toList
  rw [List.pairwise_flatMap]
  constructor
  · intro p _
    obtain ⟨w, k⟩ := p
    exact List.pairwise_map.2 ((pairwise_bitsOf w).imp fun hlt => by omega)
  -- The numbers of a word all come before those of a later one.
  · have hidx : (s.words.toList.zipIdx.map Prod.snd).Pairwise (· < ·) := by
      rw [List.zipIdx_map_snd]
      exact List.pairwise_lt_range'
    refine (List.pairwise_map.1 hidx).imp ?_
    intro p q hpq x hx y hy
    obtain ⟨v, k⟩ := p
    obtain ⟨w, m⟩ := q
    have hkm : k < m := hpq
    obtain ⟨i, hi, rfl⟩ := List.mem_map.1 hx
    obtain ⟨j, hj, rfl⟩ := List.mem_map.1 hy
    have := (mem_bitsOf.1 hi).1
    show 64 * k + i < 64 * m + j
    omega

/-- As many members are listed as are counted word by word. -/
theorem length_flatMap_bitsOf (words : List UInt64) (k : Nat) :
    ((words.zipIdx k).flatMap fun (word, i) => (bitsOf word).map (64 * i + ·)).length =
      words.foldr (fun word count => bitCount word + count) 0 := by
  induction words generalizing k with
  | nil => rfl
  | cons word words ih =>
    rw [List.zipIdx_cons, List.flatMap_cons, List.length_append, ih, List.length_map, length_bitsOf,
      List.foldr_cons]

/-- The size is the number of listed members. -/
theorem size_eq_length_toList (s : BitSet) : s.size = s.toList.length :=
  (length_flatMap_bitsOf s.words.toList 0).symm

theorem nodup_toList (s : BitSet) : s.toList.Nodup :=
  (pairwise_toList s).imp Nat.ne_of_lt

/-- A set has no more members than its capacity. -/
theorem Over.size_le (h : Over c s) : s.size ≤ c := by
  have hsub : s.toList ⊆ List.range c := by
    intro i hi
    exact List.mem_range.2 (h.lt_of_contains (h.mem_toList.1 hi))
  have hle := s.nodup_toList.length_le_of_subset hsub
  rwa [List.length_range, ← size_eq_length_toList] at hle

/-- A set has more members than any other set within it. -/
theorem size_lt_of_subset {t : BitSet} (hs : Over c s) (ht : Over c t)
    (hsub : ∀ i, s.contains i = true → t.contains i = true) (hne : s ≠ t) : s.size < t.size := by
  obtain ⟨i, hti, hsi⟩ : ∃ i, t.contains i = true ∧ s.contains i ≠ true := by
    apply Classical.byContradiction
    intro hnone
    refine hne (ext hs ht fun i => ?_)
    rw [Bool.eq_iff_iff]
    exact ⟨hsub i, fun hti => Classical.byContradiction fun hsi => hnone ⟨i, hti, hsi⟩⟩
  have hnot : i ∉ s.toList := mt hs.mem_toList.1 hsi
  have hcons : i :: s.toList ⊆ t.toList := by
    intro j hj
    rcases List.mem_cons.1 hj with rfl | hj
    · exact ht.mem_toList.2 hti
    · exact ht.mem_toList.2 (hsub j (hs.mem_toList.1 hj))
  have hle := (List.nodup_cons.2 ⟨hnot, s.nodup_toList⟩).length_le_of_subset hcons
  rwa [List.length_cons, ← size_eq_length_toList, ← size_eq_length_toList] at hle

end DefiniteAssignment.BitSet
