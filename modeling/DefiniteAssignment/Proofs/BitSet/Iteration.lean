import DefiniteAssignment.Proofs.BitSet.Refinement
import DefiniteAssignment.Proofs.Flow.Limits
/-!
# Going through a bit set

The members of a bit set are found by taking the lowest one off a word until nothing is left of it,
and by going on to the next word then. A `Cursor` is where this has got to: the word that it is at,
less what has been taken off, and the words behind. `Yields` says that it ends and what it has given
by then.

`toList` lists the bits of each word without changing the word. The two come to the same, and so a
bit set, however it is made, is gone through in ascending order, each member once; and two bit sets
of one capacity that are gone through alike are equal as data:

> `yields_build`

The flow solver compares facts as data. Where facts are bit sets, it takes an output for changed
exactly if the capacity has changed or some member.
-/

namespace DefiniteAssignment.BitSet

/-! ## The lowest bit of a word -/

/-- The number of bits of a word below its lowest one; all of them, if there is none. -/
def trailingZeros (word : UInt64) : Nat :=
  ((List.range 64).find? (testBit word)).getD 64

/-- A word without its lowest one. -/
def clearLowest (word : UInt64) : UInt64 :=
  word &&& (word - 1)

variable {word : UInt64} {words : List UInt64} {i k n place : Nat}

theorem trailingZeros_spec (h : word ≠ 0) :
    trailingZeros word < 64 ∧ testBit word (trailingZeros word) = true ∧
      ∀ j < trailingZeros word, testBit word j = false := by
  unfold trailingZeros
  cases hfind : (List.range 64).find? (testBit word) with
  | none =>
    refine absurd (word_eq_zero_iff.2 fun i hi => ?_) h
    exact Bool.eq_false_iff.2 (List.find?_eq_none.1 hfind i (List.mem_range.2 hi))
  | some k =>
    obtain ⟨hk, hlt, hbelow⟩ := List.find?_range_eq_some.1 hfind
    exact ⟨List.mem_range.1 hlt, hk, fun j hj => by simpa using hbelow j hj⟩

/-- A number whose lowest one is bit `k` is the number of its other ones and of this one. -/
theorem eq_add_two_pow (hk : n.testBit k = true) (hbelow : ∀ j < k, n.testBit j = false) :
    n = 2 ^ (k + 1) * (n / 2 ^ (k + 1)) + 2 ^ k := by
  have hmod : n % 2 ^ (k + 1) = 2 ^ k := by
    refine Nat.eq_of_testBit_eq fun j => ?_
    rw [Nat.testBit_mod_two_pow, Nat.testBit_two_pow]
    rcases Nat.lt_trichotomy j k with hj | rfl | hj
    · rw [hbelow j hj, Bool.and_false, decide_eq_false (Nat.ne_of_gt hj)]
    · rw [hk, Bool.and_true, decide_eq_decide.2 (iff_of_true (Nat.lt_succ_self j) rfl)]
    · rw [decide_eq_false (Nat.not_lt.2 hj), Bool.false_and, decide_eq_false (Nat.ne_of_lt hj)]
  rw [← hmod, Nat.div_add_mod]

/-- To take one from a number turns its lowest one and the zeros below it over, so that this is the
only one that the two numbers do not share. -/
theorem testBit_and_pred (hk : n.testBit k = true) (hbelow : ∀ j < k, n.testBit j = false)
    (j : Nat) :
    (n &&& (n - 1)).testBit j = (n.testBit j && !decide (j = k)) := by
  have hlt : 2 ^ k < 2 ^ (k + 1) := Nat.pow_lt_pow_right (by decide) (Nat.lt_succ_self k)
  have hsplit := eq_add_two_pow hk hbelow
  have hpred : n - 1 = 2 ^ (k + 1) * (n / 2 ^ (k + 1)) + (2 ^ k - 1) := by
    have hpos := Nat.one_le_two_pow (n := k)
    omega
  have hupper : (n - 1).testBit j =
      if j < k + 1 then decide (j < k) else (n / 2 ^ (k + 1)).testBit (j - (k + 1)) := by
    rw [hpred, Nat.testBit_two_pow_mul_add _ (Nat.lt_of_le_of_lt (Nat.sub_le ..) hlt),
      Nat.testBit_two_pow_sub_one]
  have hnum : n.testBit j =
      if j < k + 1 then decide (k = j) else (n / 2 ^ (k + 1)).testBit (j - (k + 1)) := by
    rw [hsplit, Nat.testBit_two_pow_mul_add _ hlt, Nat.testBit_two_pow, ← hsplit]
  rw [Nat.testBit_and, hupper]
  rcases Nat.lt_trichotomy j k with hj | rfl | hj
  · rw [hbelow j hj, Bool.false_and, Bool.false_and]
  · simp
  · have habove : ¬j < k + 1 := Nat.not_lt.2 hj
    rw [hnum, if_neg habove, if_neg habove, Bool.and_self, decide_eq_false (Nat.ne_of_gt hj),
      Bool.not_false, Bool.and_true]

theorem testBit_clearLowest (h : word ≠ 0) (hi : i < 64) :
    testBit (clearLowest word) i = (testBit word i && !decide (i = trailingZeros word)) := by
  obtain ⟨hlt, hone, hbelow⟩ := trailingZeros_spec h
  have hle : 1 ≤ word := by
    rw [UInt64.le_iff_toNat_le]
    exact Nat.one_le_iff_ne_zero.2 fun hzero => h (UInt64.toNat_inj.1 hzero)
  rw [testBit_eq _ hlt] at hone
  rw [testBit_eq _ hi, testBit_eq _ hi, clearLowest, UInt64.toNat_and,
    UInt64.toNat_sub_of_le _ _ hle, show (1 : UInt64).toNat = 1 from rfl]
  refine testBit_and_pred hone (fun j hj => ?_) i
  rw [← testBit_eq _ (Nat.lt_trans hj hlt), hbelow j hj]

/-- The ones of a word are its lowest one and those of the word without it. -/
theorem bitsOf_eq_cons (h : word ≠ 0) :
    bitsOf word = trailingZeros word :: bitsOf (clearLowest word) := by
  obtain ⟨hlt, hone, hbelow⟩ := trailingZeros_spec h
  have hmem : ∀ i, i ∈ bitsOf (clearLowest word) ↔ i ∈ bitsOf word ∧ i ≠ trailingZeros word := by
    intro i
    rw [mem_bitsOf, mem_bitsOf, and_assoc]
    refine and_congr_right fun hi => ?_
    rw [testBit_clearLowest h hi, Bool.and_eq_true, Bool.not_eq_true', decide_eq_false_iff_not]
  have hpairwise : (trailingZeros word :: bitsOf (clearLowest word)).Pairwise (· < ·) := by
    refine List.pairwise_cons.2 ⟨fun i hi => ?_, pairwise_bitsOf _⟩
    obtain ⟨hbit, hne⟩ := (hmem i).1 hi
    refine Nat.lt_of_le_of_ne (Nat.le_of_not_lt fun hlow => ?_) (Ne.symm hne)
    exact Bool.false_ne_true ((hbelow i hlow).symm.trans (mem_bitsOf.1 hbit).2)
  refine (pairwise_bitsOf word).eq_of_mem_iff hpairwise ?_
  intro i
  rw [List.mem_cons, hmem]
  by_cases hi : i = trailingZeros word
  · simp [hi, mem_bitsOf, hlt, hone]
  · simp [hi]

/-! ## Cursors -/

/-- The words that are still to be gone through, and the place of the first of them in the set. -/
structure Cursor where
  words : List UInt64
  place : Nat

/-- The lowest member in the words from a place on, and the cursor behind it. -/
def nextFrom? (place : Nat) : List UInt64 → Option (Nat × Cursor)
  | [] => none
  | word :: words =>
    if word = 0 then nextFrom? (place + 1) words
    else some (place * 64 + trailingZeros word, ⟨clearLowest word :: words, place⟩)

/-- The next member, and the cursor behind it. -/
def Cursor.next? (c : Cursor) : Option (Nat × Cursor) :=
  nextFrom? c.place c.words

/-- The cursor before the first member. -/
def cursor (s : BitSet) : Cursor :=
  ⟨s.words.toList, 0⟩

/-- From a cursor, the members of `l` come one after the other, and then there is none. -/
inductive Cursor.Yields : Cursor → List Nat → Prop
  | done {c : Cursor} : c.next? = none → Yields c []
  | next {c c' : Cursor} {i : Nat} {l : List Nat} :
    c.next? = some (i, c') → Yields c' l → Yields c (i :: l)

namespace Cursor

variable {c c' : Cursor} {l l' : List Nat}

theorem Yields.unique (h : c.Yields l) (h' : c.Yields l') : l = l' := by
  induction h generalizing l' with
  | done hnone =>
    cases h' with
    | done => rfl
    | next hsome => cases hnone.symm.trans hsome
  | next hsome _ ih =>
    cases h' with
    | done hnone => cases hnone.symm.trans hsome
    | next hsome' hl' =>
      obtain ⟨rfl, rfl⟩ := Prod.mk.inj (Option.some.inj (hsome.symm.trans hsome'))
      rw [ih hl']

/-- What comes depends on the next member only. -/
theorem Yields.of_next?_eq (h : c.Yields l) (heq : c'.next? = c.next?) : c'.Yields l := by
  cases h with
  | done hnone => exact .done (heq.trans hnone)
  | next hsome hl => exact .next (heq.trans hsome) hl

/-- The ones of a word come before what the words behind it give. -/
theorem Yields.cons (word : UInt64) (h : Yields ⟨words, place + 1⟩ l) :
    Yields ⟨word :: words, place⟩ ((bitsOf word).map (64 * place + ·) ++ l) := by
  -- The induction is on the number of ones that are left.
  induction hlen : (bitsOf word).length generalizing word with
  | zero =>
    have hzero : word = 0 := by
      by_contra hne
      rw [bitsOf_eq_cons hne] at hlen
      cases hlen
    rw [List.length_eq_zero_iff.1 hlen, hzero]
    exact h.of_next?_eq rfl
  | succ k ih =>
    have hne : word ≠ 0 := by
      intro hzero
      rw [hzero, bitsOf, if_pos rfl] at hlen
      cases hlen
    rw [bitsOf_eq_cons hne] at hlen ⊢
    refine .next ?_ (ih (clearLowest word) (Nat.succ.inj hlen))
    rw [next?, nextFrom?, if_neg hne, Nat.mul_comm]

theorem yields_flatMap (words : List UInt64) (place : Nat) :
    Yields ⟨words, place⟩
      ((words.zipIdx place).flatMap fun (word, i) => (bitsOf word).map (64 * i + ·)) := by
  induction words generalizing place with
  | nil => exact .done rfl
  | cons word words ih => exact (ih (place + 1)).cons word

end Cursor

/-- Going through a set ends, and gives the list of its members. -/
theorem yields_cursor_iff (s : BitSet) (l : List Nat) : s.cursor.Yields l ↔ l = s.toList := by
  have hlist : s.cursor.Yields s.toList := Cursor.yields_flatMap s.words.toList 0
  exact ⟨fun h => h.unique hlist, fun h => h ▸ hlist⟩

/-- Two sets with the words that their capacities take are equal as data if they have the same
capacity and the same list of members. -/
theorem Over.eq_iff {c d : Nat} {s t : BitSet} (hs : Over c s) (ht : Over d t) :
    s = t ↔ s.capacity = t.capacity ∧ s.toList = t.toList := by
  constructor
  · intro h
    exact ⟨congrArg capacity h, congrArg toList h⟩
  · intro h
    obtain rfl : c = d := by rw [← hs.capacity_eq, ← ht.capacity_eq, h.1]
    refine ext hs ht fun i => ?_
    rw [Bool.eq_iff_iff, ← hs.mem_toList, ← ht.mem_toList, h.2]

/-! ## However a bit set is made -/

/-- Going through a bit set ends, after as many members as it has, each of them in turn; bit sets
are equal as data if this and their capacities are the same. So it is when the solver compares them:
an evaluation that replaces one by another is marked as a change if the capacity or some member is
not the same. -/
theorem yields_build (e e' : Construction) :
    (∀ l, e.build.cursor.Yields l ↔ l = e.build.toList) ∧
    (∀ i, i ∈ e.build.toList ↔ e.build.contains i = true) ∧
    e.build.toList.Pairwise (· < ·) ∧
    e.build.toList.length = e.build.size ∧
    (e.build = e'.build ↔
      e.build.capacity = e'.build.capacity ∧ e.build.toList = e'.build.toList) ∧
    ∀ (g : Graph) (p : Flow.Problem BitSet) (s : Flow.State BitSet) (n : Nat) (rest : List Nat),
      s.queue = n :: rest → s.after[n]? = some e.build →
      p.transfer n (p.inputAt g s.after n) = e'.build →
        ∃ event, (s.step g p).trail = event :: s.trail ∧ event.node = n ∧
          event.output = e'.build ∧
          (event.changed = true ↔
            e.build.capacity ≠ e'.build.capacity ∨ e.build.toList ≠ e'.build.toList) := by
  have hequal := e.over_build.eq_iff e'.over_build
  refine ⟨yields_cursor_iff e.build, fun i => e.over_build.mem_toList, pairwise_toList e.build,
    (size_eq_length_toList e.build).symm, hequal, ?_⟩
  intro g p s n rest hq hafter houtput
  refine ⟨_, Flow.State.trail_step_eq hq g p, rfl, houtput, ?_⟩
  show (s.after[n]? != some (p.transfer n (p.inputAt g s.after n))) = true ↔ _
  rw [hafter, houtput, bne_iff_ne, ne_eq, Option.some_inj, hequal, not_and_or]

/-- Two ways to the same set, one of them by way of sets of other capacities. The solver takes the
one for the other without a change. -/
theorem yields_build_sample :
    let e : Construction := .union (.ofList [1]) (.ofList [70, 5])
    let e' : Construction := .insert (.erase (.erase (.ofList [1, 70, 64]) 64) 5) 5
    let p : Flow.Problem BitSet := ⟨e.build, e.build, BitSet.union, fun _ _ => e'.build⟩
    let s : Flow.State BitSet := ⟨#[e.build], #[e.build], [0], #[true], []⟩
    e.build.cursor.Yields [1, 5, 70] ∧ e.build = e'.build ∧
      ∃ event, (s.step .empty p).trail = [event] ∧ event.node = 0 ∧ event.output = e'.build ∧
        event.changed = false := by
  intro e e' p s
  have hlist : e.build.toList = [1, 5, 70] := by cbv
  have hlist' : e'.build.toList = [1, 5, 70] := by cbv
  have hcapacity : e.build.capacity = e'.build.capacity := by cbv
  obtain ⟨hyields, -, -, -, hequal, hsolver⟩ := yields_build e e'
  obtain ⟨event, htrail, hnode, houtput, hchanged⟩ := hsolver .empty p s 0 [] rfl rfl rfl
  refine ⟨(hyields _).2 hlist.symm, hequal.2 ⟨hcapacity, hlist.trans hlist'.symm⟩,
    event, htrail, hnode, houtput, ?_⟩
  rw [← Bool.not_eq_true, hchanged]
  simp [hcapacity, hlist, hlist']

end DefiniteAssignment.BitSet
