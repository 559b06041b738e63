import Mathlib.Algebra.Order.Ring.Nat
import DefiniteAssignment.Program.Function
/-!
# Points and control steps

A point of a function is a block and an offset in it. Control goes from point to point: a branch
leads to the beginning of each of its targets, a return leads nowhere, and after anything else
control goes on in the block or, at its end, at the beginning of the next block (`ControlStep`). A
control trace begins at the first point of the first block and goes on by such steps.

The listing of a function holds its instructions with their points in the order of the text. An
instruction stands in it behind those of the blocks before its own and those before it in its own:

> `getElem?_listing_iff`
-/

namespace DefiniteAssignment

/-- A place in a function at which an instruction may stand. -/
structure Point where
  block : Nat
  offset : Nat
  deriving DecidableEq, Repr

/-- Whether a point comes before another in the text. -/
def Point.Before (p q : Point) : Prop :=
  p.block < q.block ∨ p.block = q.block ∧ p.offset < q.offset

/-- Of two different points, one is before the other. -/
theorem Point.before_trichotomous (p q : Point) : p.Before q ∨ p = q ∨ q.Before p := by
  obtain ⟨b, i⟩ := p
  obtain ⟨c, j⟩ := q
  simp only [Point.Before, Point.mk.injEq]
  omega

namespace Function

/-- The instruction at a point. -/
def inst? (f : Function) (p : Point) : Option Inst :=
  f.blocks[p.block]?.bind (·[p.offset]?)

/-- The instructions with their points, in the order of the text. -/
def listing (f : Function) : List (Point × Inst) :=
  f.blocks.zipIdx.flatMap fun (block, i) => block.zipIdx.map fun (inst, j) => (⟨i, j⟩, inst)

/-- The number of instructions before a point. -/
def position (f : Function) (p : Point) : Nat :=
  (f.blocks.take p.block).flatten.length + p.offset

/-- Control can go from one point to another in one step. -/
inductive ControlStep (f : Function) (p : Point) : Point → Prop
  | jump {target : UInt32} : f.inst? p = some (.jump target) → ControlStep f p ⟨target.toNat, 0⟩
  | onTrue {condition : Operand} {onTrue onFalse : UInt32} :
      f.inst? p = some (.brif condition onTrue onFalse) → ControlStep f p ⟨onTrue.toNat, 0⟩
  | onFalse {condition : Operand} {onTrue onFalse : UInt32} :
      f.inst? p = some (.brif condition onTrue onFalse) → ControlStep f p ⟨onFalse.toNat, 0⟩
  | next {inst later : Inst} : f.inst? p = some inst → inst.isTerminator = false →
      f.inst? ⟨p.block, p.offset + 1⟩ = some later → ControlStep f p ⟨p.block, p.offset + 1⟩
  /-- At the end of a block. -/
  | fallThrough {inst : Inst} : f.inst? p = some inst → inst.isTerminator = false →
      f.inst? ⟨p.block, p.offset + 1⟩ = none → p.block + 1 < f.blocks.length →
      ControlStep f p ⟨p.block + 1, 0⟩

/-- The points of `l`, followed by `p`, are those that control comes to in turn. -/
inductive ControlTrace (f : Function) : List Point → Point → Prop
  | start : ControlTrace f [] ⟨0, 0⟩
  | snoc {l : List Point} {p q : Point} : ControlTrace f l p → ControlStep f p q →
      ControlTrace f (l ++ [p]) q

/-- All branches of an instruction lead to blocks that are there. -/
def Leads (f : Function) (inst : Inst) : Prop :=
  ∀ t ∈ inst.targets, t.toNat < f.blocks.length

variable {f : Function} {p q : Point} {inst : Inst} {b n : Nat}

/-- An instruction is looked up by its block and then by its place in it. -/
theorem inst?_eq_some_iff : f.inst? p = some inst ↔
    ∃ block, f.blocks[p.block]? = some block ∧ block[p.offset]? = some inst := by
  rw [inst?, Option.bind_eq_some_iff]

/-- A block that is not empty has a first instruction. -/
theorem exists_inst?_zero (hne : [] ∉ f.blocks) (hb : b < f.blocks.length) :
    ∃ inst, f.inst? ⟨b, 0⟩ = some inst := by
  have hmem := List.getElem_mem hb
  cases hblock : f.blocks[b] with
  | nil =>
    rw [hblock] at hmem
    exact absurd hmem hne
  | cons inst later =>
    refine ⟨inst, inst?_eq_some_iff.2 ⟨inst :: later, ?_, rfl⟩⟩
    exact List.getElem?_eq_some_iff.2 ⟨hb, hblock⟩

/-! ## The listing -/

/-- What block number `k` adds to a listing. -/
def blockListing (k : Nat) (block : Block) : List (Point × Inst) :=
  block.zipIdx.map fun (inst, j) => (⟨k, j⟩, inst)

/-- What blocks add to a listing if they come behind `k` others. -/
def listingFrom (k : Nat) (blocks : List Block) : List (Point × Inst) :=
  (blocks.zipIdx k).flatMap fun (block, i) => blockListing i block

theorem length_blockListing (k : Nat) (block : Block) :
    (blockListing k block).length = block.length := by
  rw [blockListing, List.length_map, List.length_zipIdx]

/-- The listing of a block has each instruction at its offset. -/
theorem getElem?_blockListing_iff {k : Nat} {block : Block} :
    (blockListing k block)[n]? = some (p, inst) ↔
      p.block = k ∧ block[p.offset]? = some inst ∧ n = p.offset := by
  simp only [blockListing, List.getElem?_map, List.getElem?_zipIdx, Option.map_map,
    Option.map_eq_some_iff, Function.comp_apply, Prod.mk.injEq]
  constructor
  · rintro ⟨x, hx, rfl, rfl⟩
    exact ⟨rfl, by simpa using hx, by simp⟩
  · rintro ⟨rfl, hinst, rfl⟩
    exact ⟨inst, hinst, by simp, rfl⟩

/-- Blocks are listed one behind the other. -/
theorem listingFrom_cons (k : Nat) (block : Block) (blocks : List Block) :
    listingFrom k (block :: blocks) = blockListing k block ++ listingFrom (k + 1) blocks := by
  rw [listingFrom, List.zipIdx_cons, List.flatMap_cons, listingFrom]

/-- An instruction is listed behind all blocks before its own, at its offset. -/
theorem getElem?_listingFrom_iff {k : Nat} {blocks : List Block} {n : Nat} :
    (listingFrom k blocks)[n]? = some (p, inst) ↔
      ∃ i block, p.block = k + i ∧ blocks[i]? = some block ∧ block[p.offset]? = some inst ∧
        n = (blocks.take i).flatten.length + p.offset := by
  induction blocks generalizing k n with
  | nil => simp [listingFrom]
  | cons block blocks ih =>
    have hsucc : ∀ i, ((block :: blocks).take (i + 1)).flatten.length =
        block.length + (blocks.take i).flatten.length := fun i => by
      rw [List.take_succ_cons, List.flatten_cons, List.length_append]
    rw [listingFrom_cons]
    rcases Nat.lt_or_ge n block.length with hn | hn
    -- The place lies in the first block.
    · rw [List.getElem?_append_left (by rwa [length_blockListing]), getElem?_blockListing_iff]
      constructor
      · rintro ⟨hk, hinst, rfl⟩
        exact ⟨0, block, hk, rfl, hinst, by simp⟩
      · rintro ⟨i, block', hk, hblock, hinst, hpos⟩
        cases i with
        | zero =>
          obtain rfl := Option.some.inj hblock
          exact ⟨hk, hinst, by simpa using hpos⟩
        | succ i =>
          rw [hsucc] at hpos
          omega
    -- It lies in a later one.
    · rw [List.getElem?_append_right (by rwa [length_blockListing]), length_blockListing, ih]
      constructor
      · rintro ⟨i, block', hk, hblock, hinst, hpos⟩
        exact ⟨i + 1, block', by omega, hblock, hinst, by rw [hsucc]; omega⟩
      · rintro ⟨i, block', hk, hblock, hinst, hpos⟩
        cases i with
        | zero =>
          obtain rfl := Option.some.inj hblock
          have hlt := (List.getElem?_eq_some_iff.1 hinst).1
          rw [List.take_zero, List.flatten_nil, List.length_nil] at hpos
          omega
        | succ i =>
          rw [hsucc] at hpos
          exact ⟨i, block', by omega, hblock, hinst, by omega⟩

/-- An instruction stands in the listing at the position of its point and nowhere else. -/
theorem getElem?_listing_iff :
    f.listing[n]? = some (p, inst) ↔ f.inst? p = some inst ∧ n = f.position p := by
  have hlisting : f.listing = listingFrom 0 f.blocks := rfl
  rw [hlisting, getElem?_listingFrom_iff, inst?_eq_some_iff]
  constructor
  · rintro ⟨i, block, hk, hblock, hoffset, hpos⟩
    obtain rfl : p.block = i := by omega
    exact ⟨⟨block, hblock, hoffset⟩, hpos⟩
  · rintro ⟨⟨block, hblock, hoffset⟩, hpos⟩
    exact ⟨p.block, block, by omega, hblock, hoffset, hpos⟩

/-- The listing has every instruction at the point where it stands. -/
theorem mem_listing_iff : (p, inst) ∈ f.listing ↔ f.inst? p = some inst := by
  rw [List.mem_iff_getElem?]
  constructor
  · rintro ⟨n, hn⟩
    exact (getElem?_listing_iff.1 hn).1
  · intro h
    exact ⟨f.position p, getElem?_listing_iff.2 ⟨h, rfl⟩⟩

/-- One more block adds its instructions to those of the blocks before it. -/
theorem length_flatten_take_succ {blocks : List Block} {block : Block} {i : Nat}
    (h : blocks[i]? = some block) :
    (blocks.take (i + 1)).flatten.length = (blocks.take i).flatten.length + block.length := by
  simp [List.take_add_one, h]

/-- More blocks have no fewer instructions. -/
theorem length_flatten_take_le (blocks : List Block) {i j : Nat} (h : i ≤ j) :
    (blocks.take i).flatten.length ≤ (blocks.take j).flatten.length := by
  obtain ⟨k, rfl⟩ := Nat.exists_eq_add_of_le h
  rw [List.take_add, List.flatten_append, List.length_append]
  exact Nat.le_add_right _ _

/-- Positions are in the order of the text. -/
theorem position_lt (hp : f.inst? p = some inst) (h : p.Before q) :
    f.position p < f.position q := by
  unfold position
  rcases h with hlt | ⟨heq, hlt⟩
  · obtain ⟨block, hblock, hinst⟩ := inst?_eq_some_iff.1 hp
    have hoffset := (List.getElem?_eq_some_iff.1 hinst).1
    have hle : (f.blocks.take (p.block + 1)).flatten.length ≤ _ :=
      length_flatten_take_le f.blocks hlt
    rw [length_flatten_take_succ hblock] at hle
    omega
  · rw [heq]
    omega

/-- The end of a block and the beginning of the next stand side by side. -/
theorem position_fallThrough (h : f.inst? p = some inst)
    (hend : f.inst? ⟨p.block, p.offset + 1⟩ = none) :
    f.position ⟨p.block + 1, 0⟩ = f.position p + 1 := by
  obtain ⟨block, hblock, hinst⟩ := inst?_eq_some_iff.1 h
  have hlt := (List.getElem?_eq_some_iff.1 hinst).1
  have hlength : block.length = p.offset + 1 := by
    simp only [inst?, hblock, Option.bind_some, List.getElem?_eq_none_iff] at hend
    omega
  unfold position
  rw [length_flatten_take_succ hblock, hlength, Nat.add_zero, Nat.add_assoc]

/-- The listing holds all instructions. -/
theorem map_snd_listing (f : Function) : f.listing.map Prod.snd = f.blocks.flatten := by
  have hblock : ∀ (block : Block) (i : Nat), (blockListing i block).map Prod.snd = block := by
    intro block i
    rw [blockListing, List.map_map]
    exact List.zipIdx_map_fst 0 block
  calc f.listing.map Prod.snd
      = f.blocks.zipIdx.flatMap fun (block, i) => (blockListing i block).map Prod.snd :=
        List.map_flatMap
    _ = f.blocks.zipIdx.flatMap Prod.fst := by simp only [hblock]
    _ = f.blocks.flatten := by rw [List.flatMap_def, List.zipIdx_map_fst]

/-- The listing is as long as the function has instructions. -/
theorem length_listing (f : Function) : f.listing.length = f.instCount := by
  rw [instCount, ← map_snd_listing, List.length_map]

end Function

end DefiniteAssignment
