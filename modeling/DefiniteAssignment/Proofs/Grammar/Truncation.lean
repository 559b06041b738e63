import DefiniteAssignment.Proofs.Grammar.Modules
import DefiniteAssignment.Proofs.Grammar.Plain
/-!
# Texts cut off

A function or a module ends at its last brace and the blanks behind it. What is left of the text
there has still been looked at: to see that a name or a comment ends, and to decline whatever else
could have been read. Without it, these decisions might come out differently.

They do not. What is left begins with no blank, and at most two things could depend on it. A comment
may end in a carriage return only if a line feed follows, and this line feed would be a blank. A
return has a value if one is behind it on its line, up to where the value ends; but between there
and the end of the text there is a brace, so that this end is never where the text is cut off
(`Inst.EndsAt.cut`). All else that is spelled is spelled by itself
(`Piece.Spans.exists_front`).

> `FunctionText.Spelled.cut`, `ModuleText.Spelled.cut`
-/

namespace DefiniteAssignment

open Grammar
open Text (isIdentChar)

namespace Grammar

variable {cs mid rest tail : List Char}

section Pieces

/-- A place from which a tail is to be reached is in front of the tail. -/
theorem exists_append_of_suffix (h : rest ++ tail <:+ mid) :
    ∃ front, mid = front ++ tail ∧ rest <:+ front := by
  obtain ⟨run, rfl⟩ := h
  exact ⟨run ++ rest, (List.append_assoc _ _ _).symm, List.suffix_append _ _⟩

/-- Where no character of a class comes first, none does in a part of the text. -/
theorem Stops.cut {inClass : Char → Bool} (h : Stops inClass (cs ++ tail)) : Stops inClass cs := by
  cases cs with
  | nil => exact stops_nil
  | cons c cs => exact stops_cons.2 (stops_cons.1 h)

/-- What comes first does not change if the text goes on. -/
theorem Stops.append {inClass : Char → Bool} (h : Stops inClass cs) (hne : cs ≠ [])
    (tail : List Char) : Stops inClass (cs ++ tail) := by
  obtain ⟨c, cs, rfl⟩ := List.exists_cons_of_ne_nil hne
  exact stops_cons.2 (stops_cons.1 h)

/-- Where blanks have been skipped, there is none. -/
theorem stops_isBlank_of_skipBlanks (h : skipBlanks cs = cs) : Stops isBlank cs := by
  cases cs with
  | nil => exact stops_nil
  | cons c cs =>
    refine stops_cons.2 (Bool.eq_false_iff.2 fun hc => ?_)
    rw [skipBlanks, if_pos hc] at h
    have hle := (blank_skipBlanks cs).suffix.length_le
    rw [h, List.length_cons] at hle
    omega

/-- The end of a comment is not between a carriage return and its line feed, so it is not cut
off. -/
theorem EndsComment.cut (htail : Stops isBlank tail) (h : EndsComment (cs ++ tail)) :
    EndsComment cs := by
  generalize heq : cs ++ tail = front at h
  match cs, h with
  | [], _ => exact .text
  | c :: cs, .lineFeed later =>
    obtain ⟨rfl, -⟩ := List.cons.inj heq
    exact .lineFeed cs
  | [c], .both later =>
    -- The line feed would be in front of the tail.
    obtain ⟨-, rfl⟩ := List.cons.inj heq
    cases stops_cons.1 htail
  | c :: d :: cs, .both later =>
    obtain ⟨rfl, hlater⟩ := List.cons.inj heq
    obtain ⟨rfl, -⟩ := List.cons.inj hlater
    exact .both cs

/-- Blanks in front of a tail that is none are blanks without it. -/
theorem Blank.cut (htail : Stops isBlank tail) (h : Blank (cs ++ tail) (rest ++ tail)) :
    Blank cs rest := by
  generalize hfront : cs ++ tail = front at h
  generalize hback : rest ++ tail = back at h
  induction h generalizing cs with
  | nothing =>
    obtain rfl := List.append_cancel_right (hfront.trans hback.symm)
    exact .nothing cs
  | char blank later ih =>
    obtain ⟨front, rfl, -⟩ := exists_append_of_suffix (hback ▸ later.suffix)
    rw [← List.cons_append] at hfront
    obtain rfl := List.append_cancel_right hfront
    exact .char blank (ih rfl hback)
  | comment body_ne ends later ih =>
    obtain ⟨front, rfl, -⟩ := exists_append_of_suffix (hback ▸ later.suffix)
    rw [← List.append_assoc, ← List.cons_append] at hfront
    obtain rfl := List.append_cancel_right hfront
    exact .comment body_ne (ends.cut htail) (ih rfl hback)

/-- Whether a piece is spelled in the same way whatever follows it. -/
def Piece.isSolid : Piece → Bool
  | blanks | lineEnd => false
  | word _ | identifier _ | functionName _ | number _ | integer _ | gap | space => true

/-- A solid piece is a run of characters, with any rest behind it. -/
theorem Piece.Spans.exists_front {p : Piece} (hp : p.isSolid) (h : p.Spans cs rest) :
    ∃ run, cs = run ++ rest ∧ ∀ mid, p.Spans (run ++ mid) mid := by
  cases p with
  | gap =>
    obtain ⟨run, hrun, rfl⟩ := h
    exact ⟨run, rfl, fun _ => ⟨run, hrun, rfl⟩⟩
  | space =>
    obtain ⟨c, _, hc, rfl, run, hrun, rfl⟩ := h
    exact ⟨c :: run, rfl, fun _ => ⟨c, _, hc, rfl, run, hrun, rfl⟩⟩
  | word | identifier | functionName | number | integer =>
    have hclass : HoldsNames fun _ => true := ⟨fun _ _ => rfl, fun _ _ => rfl, rfl⟩
    obtain ⟨run, -, heq, hspans⟩ := Piece.Spans.exists_run h hclass (by simp [Piece.isOf])
    exact ⟨run, heq, hspans⟩
  | blanks | lineEnd => cases hp

/-- A solid piece stays one if the text goes on. -/
theorem Piece.Spans.append {p : Piece} (hp : p.isSolid) (h : p.Spans cs rest) (tail : List Char) :
    p.Spans (cs ++ tail) (rest ++ tail) := by
  obtain ⟨run, rfl, hspans⟩ := h.exists_front hp
  rw [List.append_assoc]
  exact hspans (rest ++ tail)

/-- A piece stays one if the text is cut off where no blank begins. -/
theorem Piece.Spans.cut {p : Piece} (hp : p ≠ .lineEnd) (htail : Stops isBlank tail)
    (h : p.Spans (cs ++ tail) (rest ++ tail)) : p.Spans cs rest := by
  have hsolid (hp : p.isSolid) : p.Spans cs rest := by
    obtain ⟨run, heq, hspans⟩ := h.exists_front hp
    rw [← List.append_assoc] at heq
    exact List.append_cancel_right heq ▸ hspans rest
  cases p with
  | blanks => exact Blank.cut htail h
  | lineEnd => exact absurd rfl hp
  | _ => exact hsolid rfl

/-- A piece that ends still ends if the text is cut off. -/
theorem Piece.EndsAt.cut {p : Piece} (h : p.EndsAt (cs ++ tail)) : p.EndsAt cs := by
  cases p with
  | word => exact fun hword => Stops.cut (h hword)
  | gap | space | blanks | lineEnd => trivial
  | _ => exact Stops.cut h

/-- A piece that ends within a text still ends if the text goes on. -/
theorem Piece.EndsAt.append {p : Piece} (h : p.EndsAt cs) (hne : cs ≠ []) (tail : List Char) :
    p.EndsAt (cs ++ tail) := by
  cases p with
  | word => exact fun hword => Stops.append (h hword) hne tail
  | gap | space | blanks | lineEnd => trivial
  | _ => exact Stops.append h hne tail

end Pieces

section Rows

variable {α : Type} {R : α → List Char → List Char → Prop}

/-- A row is cut off item by item. All items stand in front of what the row leaves. -/
theorem Chained.cut {as : List α} (h : Chained R as (cs ++ tail) (rest ++ tail))
    (hsuffix : ∀ a ∈ as, ∀ cs rest, R a cs rest → rest <:+ cs)
    (hcut : ∀ a ∈ as, ∀ cs mid, rest <:+ mid → R a (cs ++ tail) (mid ++ tail) → R a cs mid) :
    Chained R as cs rest := by
  induction as generalizing cs with
  | nil => exact List.append_cancel_right h
  | cons a as ih =>
    obtain ⟨ha, hsuffix⟩ := List.forall_mem_cons.1 hsuffix
    obtain ⟨hcut_a, hcut⟩ := List.forall_mem_cons.1 hcut
    obtain ⟨_, hfirst, hlater⟩ := h
    obtain ⟨mid, rfl, hmid⟩ := exists_append_of_suffix (hlater.suffix hsuffix)
    exact ⟨mid, hcut_a cs mid hmid hfirst, ih hlater hsuffix hcut⟩

/-- Pieces without ends of lines among them are spelled in front of the tail alone. -/
theorem Written.cut {ps : List Piece} (hps : .lineEnd ∉ ps) (htail : Stops isBlank tail)
    (h : Written ps (cs ++ tail) (rest ++ tail)) : Written ps cs rest := by
  refine Chained.cut h (fun _ _ _ _ => Piece.Spans.suffix) fun p hp cs mid _ hspans => ?_
  have hne : p ≠ .lineEnd := by
    rintro rfl
    exact hps hp
  exact hspans.cut hne htail

/-- An instruction does not bring the end of its line with it. -/
theorem lineEnd_notMem_pieces (inst : Inst) : .lineEnd ∉ inst.pieces :=
  fun hmem => Bool.false_ne_true (inst.isPlain_pieces _ hmem)

end Rows

end Grammar

/-- Where an instruction ends, it still ends if the text is cut off behind a brace. -/
theorem Inst.EndsAt.cut {inst : Inst} {cs rest tail : List Char} (h : inst.EndsAt (cs ++ tail))
    (hblank : Blank cs rest) (hbrace : '\x7d' ∈ rest) : inst.EndsAt cs where
  last p hp := (h.last p hp).cut
  bare hbare o mid hvalue hends := by
    -- With the tail behind it, the value would still be one, for it does not end with the text.
    have hplain : ∀ p ∈ [Piece.space, o.piece], p.isPlain :=
      List.forall_mem_cons.2 ⟨rfl, List.forall_mem_singleton.2 (Inst.isPlain_piece o)⟩
    have hne : mid ≠ [] := by
      rintro rfl
      obtain ⟨run, hplain, rfl⟩ := Written.exists_isPlain hplain hvalue
      rw [List.append_nil] at hblank
      exact Bool.false_ne_true (hplain _ (hblank.suffix.subset hbrace))
    obtain ⟨_, hspace, last, ho, heq⟩ := hvalue
    obtain rfl : last = mid := heq
    have hsolid : o.piece.isSolid := by cases o <;> rfl
    have hvalue : Written [.space, o.piece] (cs ++ tail) (last ++ tail) :=
      ⟨_, hspace.append rfl tail, _, ho.append hsolid tail, rfl⟩
    exact h.bare hbare o (last ++ tail) hvalue (hends.append hne tail)

namespace Grammar

variable {cs mid rest tail : List Char}

section Spellings

theorem LineSpelled.suffix {inst : Inst} (h : LineSpelled inst cs rest) : rest <:+ cs :=
  Written.suffix h.written

theorem FunctionText.Spelled.suffix {w : FunctionText} (h : w.Spelled cs rest) : rest <:+ cs :=
  Written.suffix h.written

/-- An instruction in front of a brace is spelled without the tail. -/
theorem LineSpelled.cut {inst : Inst} (htail : Stops isBlank tail) (hbrace : '\x7d' ∈ rest)
    (h : LineSpelled inst (cs ++ tail) (rest ++ tail)) : LineSpelled inst cs rest := by
  obtain ⟨_, hinst, hends, hblank⟩ := h
  obtain ⟨mid, rfl, -⟩ := exists_append_of_suffix hblank.suffix
  have hblank := hblank.cut htail
  exact ⟨mid, hinst.cut (lineEnd_notMem_pieces inst) htail, hends.cut hblank hbrace, hblank⟩

/-- A block in front of a brace is spelled without the tail. -/
theorem BlockSpelled.cut {b : UInt32 × Block} (htail : Stops isBlank tail) (hbrace : '\x7d' ∈ rest)
    (h : BlockSpelled b (cs ++ tail) (rest ++ tail)) : BlockSpelled b cs rest := by
  obtain ⟨_, hlabel, hlines⟩ := h
  have hsuffix : ∀ inst ∈ b.2, ∀ cs rest, LineSpelled inst cs rest → rest <:+ cs :=
    fun _ _ _ _ => LineSpelled.suffix
  obtain ⟨mid, rfl, -⟩ := exists_append_of_suffix (hlines.suffix hsuffix)
  refine ⟨mid, hlabel.cut (by simp) htail, hlines.cut hsuffix fun inst _ cs mid hmid hline => ?_⟩
  exact hline.cut htail (hmid.subset hbrace)

/-- A function is still one if the text is cut off behind the blanks that follow it. -/
theorem FunctionText.Spelled.cut {w : FunctionText} (htail : Stops isBlank tail)
    (h : w.Spelled (cs ++ tail) (rest ++ tail)) : w.Spelled cs rest := by
  obtain ⟨_, _, hhead, hblocks, hclose⟩ := h.spelled
  obtain ⟨mid', rfl, -⟩ := exists_append_of_suffix hclose.suffix
  obtain ⟨mid, rfl, -⟩ := exists_append_of_suffix (suffix_of_blocks hblocks)
  have hclose := hclose.cut (by simp) htail
  have hbrace : '\x7d' ∈ mid' := by
    obtain ⟨_, rfl, -⟩ := hclose
    exact List.mem_cons_self
  have hblocks : Chained BlockSpelled w.blocks mid mid' := by
    refine hblocks.cut (fun _ _ _ _ => BlockSpelled.suffix) fun b _ cs last hlast hb => ?_
    exact hb.cut htail (hlast.subset hbrace)
  exact ⟨h.ne_nil, mid, mid', hhead.cut (by simp) htail, hblocks, hclose⟩

/-- An entry is spelled without the tail. -/
theorem EntrySpelled.cut {entry : Option String} (htail : Stops isBlank tail)
    (h : EntrySpelled entry (cs ++ tail) (rest ++ tail)) : EntrySpelled entry cs rest := by
  cases entry with
  | none => exact List.append_cancel_right h
  | some name =>
    obtain ⟨_, hfront, hends, hblank⟩ := h
    obtain ⟨mid, rfl, -⟩ := exists_append_of_suffix hblank.suffix
    exact ⟨mid, hfront.cut (by simp) htail, hends.cut, hblank.cut htail⟩

/-- A module is still one if the text is cut off behind the blanks that follow it. -/
theorem ModuleText.Spelled.cut {w : ModuleText} (htail : Stops isBlank tail)
    (h : w.Spelled (cs ++ tail) (rest ++ tail)) : w.Spelled cs rest := by
  obtain ⟨_, _, _, hopen, hentry, hfunctions, hclose⟩ := h
  have hsuffix : ∀ f ∈ w.functions, ∀ cs rest, FunctionText.Spelled f cs rest → rest <:+ cs :=
    fun _ _ _ _ => FunctionText.Spelled.suffix
  obtain ⟨mid₃, rfl, -⟩ := exists_append_of_suffix hclose.suffix
  obtain ⟨mid₂, rfl, -⟩ := exists_append_of_suffix (hfunctions.suffix hsuffix)
  obtain ⟨mid₁, rfl, -⟩ := exists_append_of_suffix (Written.suffix hentry.written)
  have hfunctions : Chained FunctionText.Spelled w.functions mid₂ mid₃ :=
    hfunctions.cut hsuffix fun f _ cs rest _ hf => hf.cut htail
  exact ⟨mid₁, mid₂, mid₃, hopen.cut (by simp) htail, hentry.cut htail, hfunctions,
    hclose.cut (by simp) htail⟩

end Spellings

end Grammar

end DefiniteAssignment
