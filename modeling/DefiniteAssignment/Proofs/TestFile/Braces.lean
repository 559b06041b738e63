import DefiniteAssignment.Proofs.Grammar.Functions
import DefiniteAssignment.Proofs.Grammar.Plain
import DefiniteAssignment.Proofs.TestFile.Splitting
/-!
# The braces of a function

Whatever a function looks like, as long as it is one, its text ends for those who count braces where
it ends for those who read it:

> `Function.afterClosing_of_spelledToBrace : … → afterClosing false 0 text.toList = some []`

There are no braces in it but the one that is opened before its blocks and the one that is closed
behind them. Instructions and labels are written with plain characters (`Inst.isPlain_pieces`), and
what stands between them is blank or a comment, where both sides agree on how far a comment goes:
up to the end of its line (`afterClosing_blank`).
-/

namespace DefiniteAssignment

open Grammar
open TestFile (depthAfter afterClosing afterClosing_comment)

namespace Grammar

section Counting

variable {cs rest run : List Char}

/-- Plain characters are passed. -/
theorem afterClosing_append (h : ∀ c ∈ run, isPlain c) (depth : Nat) (cs : List Char) :
    afterClosing false depth (run ++ cs) = afterClosing false depth cs := by
  induction run with
  | nil => rfl
  | cons c run ih =>
    obtain ⟨hc, hrun⟩ := List.forall_mem_cons.1 h
    obtain ⟨⟨⟨⟨hopen, hclose⟩, hsemi⟩, hfeed⟩, -⟩ :
        (((c ≠ '\x7b' ∧ c ≠ '\x7d') ∧ c ≠ ';') ∧ c ≠ '\n') ∧ c ≠ '\r' := by
      simpa [isPlain] using hc
    have hdepth : depthAfter depth [c] = some depth := by
      rw [depthAfter, if_neg hopen, if_neg hclose, depthAfter]
    rw [List.cons_append, afterClosing, if_neg hfeed, Bool.false_or, if_neg (by simpa using hsemi)]
    simp only [hdepth, ih hrun]

/-- So are blanks and comments, whatever stands in a comment. -/
theorem afterClosing_blank (h : Blank cs rest) (depth : Nat) :
    afterClosing false depth cs = afterClosing false depth rest := by
  induction h with
  | nothing => rfl
  | char blank _ ih =>
    rw [← ih]
    rcases isBlank_eq_or blank with rfl | rfl | rfl | rfl <;> rfl
  | @comment body cs rest body_ne ends _ ih =>
    have hbody : '\n' ∉ body := fun hmem => (body_ne _ hmem).1 rfl
    have hends : afterClosing true depth cs = afterClosing false depth cs := by
      cases ends <;> rfl
    rw [← ih, ← hends, ← afterClosing_comment hbody depth cs]
    rfl

/-- Whether there is no brace in a piece outside of comments. -/
def Piece.isBraceless : Piece → Bool
  | blanks | lineEnd => true
  | p => p.isPlain

theorem Piece.isBraceless_iff {p : Piece} :
    p.isBraceless ↔ p = .blanks ∨ p = .lineEnd ∨ p.isPlain := by
  cases p <;> simp [isBraceless]

theorem Piece.Spans.afterClosing_eq {p : Piece} (hp : p.isBraceless) (h : p.Spans cs rest)
    (depth : Nat) : afterClosing false depth cs = afterClosing false depth rest := by
  rcases Piece.isBraceless_iff.1 hp with rfl | rfl | hplain
  · exact afterClosing_blank h depth
  · exact afterClosing_blank h.2 depth
  · obtain ⟨run, hrun, rfl⟩ := h.exists_isPlain hplain
    exact afterClosing_append hrun depth rest

theorem Written.afterClosing_eq {ps : List Piece} (hps : ∀ p ∈ ps, p.isBraceless)
    (h : Written ps cs rest) (depth : Nat) :
    afterClosing false depth cs = afterClosing false depth rest :=
  h.eq_of_forall fun p hp _ _ hspans => hspans.afterClosing_eq (hps p hp) depth

theorem BlockSpelled.afterClosing_eq {b : UInt32 × Block} (h : BlockSpelled b cs rest)
    (depth : Nat) : afterClosing false depth cs = afterClosing false depth rest := by
  refine Written.afterClosing_eq (fun p hp => ?_) h.written depth
  rcases List.mem_append.1 hp with hlabel | hlines
  · exact List.all_eq_true.1 (by rfl) p hlabel
  · obtain ⟨inst, -, hp⟩ := List.mem_flatMap.1 hlines
    rcases List.mem_append.1 hp with hinst | hend
    · exact Piece.isBraceless_iff.2 (.inr (.inr (inst.isPlain_pieces p hinst)))
    · exact Piece.isBraceless_iff.2 (.inl (List.mem_singleton.1 hend))

end Counting

end Grammar

namespace Function

/-- A text spells a function, with nothing but blanks in front of it, and ends in the brace that
closes it. -/
def SpelledToBrace (f : Function) (text : String) : Prop :=
  ∃ w : FunctionText, w.InSequence ∧ w.function = f ∧ w.blocks ≠ [] ∧ ∃ mid mid',
    Blank text.toList mid ∧
    Written [.word "function", .blanks, .word "%", .functionName w.name, .blanks, .word "\x7b",
      .blanks] mid mid' ∧
    Chained BlockSpelled w.blocks mid' ['\x7d']

variable {f : Function} {text : String}

/-- A text that is read as a function ends in the brace that closes it if nothing but blanks could
stand behind no other brace. -/
theorem spelledToBrace_of_parse (h : parse text = .ok f)
    (hlast : ∀ cs ∈ text.toList.tails, cs.head? = some '\x7d' → skipBlanks cs.tail = [] →
      cs.tail = []) :
    f.SpelledToBrace text := by
  obtain ⟨w, hlabels, hf, mid, hblank, hspelled⟩ := parse_eq_ok_iff.1 h
  obtain ⟨mid₁, mid₂, hhead, hblocks, rest, hclose, _, hbehind, rfl⟩ := hspelled.spelled
  obtain rfl : mid₂ = '\x7d' :: rest := hclose
  have hsuffix : '\x7d' :: rest <:+ text.toList :=
    (suffix_of_blocks hblocks).trans (hhead.suffix.trans hblank.suffix)
  have hblanks : skipBlanks rest = [] := (Blank.skipBlanks_eq hbehind).trans (by simp [skipBlanks])
  obtain rfl : rest = [] := hlast _ ((List.mem_tails _ _).2 hsuffix) rfl hblanks
  exact ⟨w, hlabels, hf, hspelled.ne_nil, mid, mid₁, hblank, hhead, hblocks⟩

theorem SpelledToBrace.suffix (h : f.SpelledToBrace text) : ['\x7d'] <:+ text.toList := by
  obtain ⟨w, -, -, -, mid, mid', hblank, hhead, hblocks⟩ := h
  exact (suffix_of_blocks hblocks).trans (hhead.suffix.trans hblank.suffix)

/-- The printed form ends in the brace. -/
theorem spelledToBrace_toString (h : f.Writable) : f.SpelledToBrace f.toString := by
  have hprinted := printed_openText h (gap_nil ['\x7d']) (stops_cons.2 rfl)
  obtain ⟨mid, hhead, hblocks⟩ := chained_append.1 hprinted.written
  refine ⟨f.written, inSequence_written h.length_le, function_written f,
    by simpa [written] using h.ne_nil, _, mid, .nothing _, ?_, ?_⟩
  · rwa [toString_eq_openText, String.toList_append]
  · exact (chained_flatMap.1 hblocks).imp fun _ _ _ _ => .of_written

/-- The brace that closes a function is where braces balance. -/
theorem afterClosing_of_spelledToBrace (h : f.SpelledToBrace text) :
    afterClosing false 0 text.toList = some [] := by
  obtain ⟨w, -, -, -, mid, _, hblank, ⟨mid₁, hword, mid₂, hblank₁, mid₃, hmark, mid₄, hname, mid₅,
    hblank₂, mid₆, hopen, mid₇, hblank₃, rfl⟩, hblocks⟩ := h
  have hfront : Written [.blanks, .word "function", .blanks, .word "%", .functionName w.name,
      .blanks] text.toList mid₅ :=
    ⟨mid, hblank, mid₁, hword, mid₂, hblank₁, mid₃, hmark, mid₄, hname, mid₅, hblank₂, rfl⟩
  calc afterClosing false 0 text.toList
      = afterClosing false 0 mid₅ := hfront.afterClosing_eq (List.all_eq_true.1 rfl) 0
    _ = afterClosing false 1 mid₆ := by rw [show mid₅ = '\x7b' :: mid₆ from hopen]; rfl
    _ = afterClosing false 1 mid₇ := afterClosing_blank hblank₃ 1
    _ = afterClosing false 1 ['\x7d'] :=
      hblocks.eq_of_forall fun _ _ _ _ hb => hb.afterClosing_eq 1
    _ = some [] := rfl

end Function

end DefiniteAssignment
