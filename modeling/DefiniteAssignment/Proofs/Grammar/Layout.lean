import DefiniteAssignment.Proofs.Grammar.Functions
/-!
# Texts in another layout

A function is read back from its printed form, and from every text that differs from it in layout
only: with other blanks in front and behind, other spaces where there is one, further ones around
punctuation, and comments and empty lines wherever a line ends. `Relaid` says this of two texts,
character by character and without a word about the grammar, `Function.LaidOut` of a function and a
text, and `Function.parse_eq_ok_of_laidOut` says that none of it changes what is read.

Between the two texts stand the pieces of which the first is printed. A row of pieces is stable if
what is printed of it is still a spelling of it in any other layout (`Stable`). Most pieces are
stable on their own, because their characters stay as they are. A sign next to which spaces may be
added is stable together with the gap next to it, and the grammar has a gap in all these places
(`Inst.stable_pieces`).
-/

namespace DefiniteAssignment

open Grammar

namespace Grammar

section Layouts

/-- The signs in front of which spaces may be added. -/
def gapBefore (c : Char) : Bool :=
  c == ',' || c == '=' || c == ')' || c == ':'

/-- The signs behind which spaces may be added. -/
def gapBehind (c : Char) : Bool :=
  c == ',' || c == '=' || c == '('

/-- Spaces and tabs where they are allowed, otherwise nothing. -/
def GapIf (allowed : Bool) (cs rest : List Char) : Prop :=
  if allowed then Gap cs rest else cs = rest

/-- A comment up to the end of its line, or nothing. -/
def Remark (cs rest : List Char) : Prop :=
  cs = rest ∨ ∃ body, (∀ c ∈ body, c ≠ '\n' ∧ c ≠ '\r') ∧ cs = ';' :: (body ++ rest)

/-- The end of a line, with spaces and a comment in front of it, and any blanks behind it: empty
lines, lines with a comment only, and the indentation of the next line. -/
def LineBreak (cs rest : List Char) : Prop :=
  ∃ mid mid' next, Gap cs mid ∧ Remark mid mid' ∧
    (mid' = '\n' :: next ∨ mid' = '\r' :: '\n' :: next) ∧ Blank next rest

/-- The first text in another layout is what the second one begins with, and the rest follows. -/
inductive Relaid : List Char → List Char → List Char → Prop where
  | nothing (text : List Char) : Relaid [] text text
  /-- A line break goes with the indentation behind it. -/
  | lineBreak {cs cs' text mid rest : List Char} (indent : Gap cs cs') (stops : Stops isSpace cs')
      (line : LineBreak text mid) (later : Relaid cs' mid rest) : Relaid ('\n' :: cs) text rest
  | space {cs text mid rest : List Char} (space : Piece.space.Spans text mid)
      (later : Relaid cs mid rest) : Relaid (' ' :: cs) text rest
  | char {c : Char} {cs text mid mid' rest : List Char} (c_ne : c ≠ '\n' ∧ c ≠ ' ')
      (before : GapIf (gapBefore c) text (c :: mid)) (behind : GapIf (gapBehind c) mid mid')
      (later : Relaid cs mid' rest) : Relaid (c :: cs) text rest

end Layouts

end Grammar

/-- A text is the printed form of a function in another layout, with any blanks in front of it and
behind it. -/
def Function.LaidOut (f : Function) (text : String) : Prop :=
  ∃ mid mid', Blank text.toList mid ∧ Relaid f.toString.toList mid mid' ∧ Blank mid' []

namespace Grammar

variable {cs cs' text mid rest : List Char} {allowed : Bool} {c : Char}

section Relaid

/-- Where spaces are not allowed there are none, which is a gap as well. -/
theorem GapIf.gap (h : GapIf allowed cs rest) : Gap cs rest := by
  cases allowed with
  | true => exact h
  | false => exact (h : cs = rest) ▸ gap_nil cs

/-- Nothing need be added, whether it is allowed or not. -/
theorem gapIf_nil (allowed : Bool) (cs : List Char) : GapIf allowed cs cs := by
  cases allowed with
  | true => exact gap_nil cs
  | false => rfl

/-- A line break is an end of a line in the sense of the grammar, with the blanks behind it. -/
theorem LineBreak.spans (h : LineBreak cs rest) : Piece.lineEnd.Spans cs rest := by
  obtain ⟨mid, mid', next, hgap, hremark, hend, hnext⟩ := h
  obtain ⟨hends, hblank⟩ : EndsComment mid' ∧ Blank mid' rest := by
    rcases hend with rfl | rfl
    · exact ⟨.lineFeed next, .char rfl hnext⟩
    · exact ⟨.both next, .char rfl (.char rfl hnext)⟩
  rcases hremark with rfl | ⟨body, hbody, rfl⟩
  · refine ⟨?_, hgap.blank.trans hblank⟩
    rcases hend with rfl | rfl
    · exact ⟨'\n', next, hgap, by simp⟩
    · exact ⟨'\r', '\n' :: next, hgap, by simp⟩
  · have hcomment : Blank (';' :: (body ++ mid')) rest := .comment hbody hends hblank
    exact ⟨⟨';', body ++ mid', hgap, .inl rfl⟩, hgap.blank.trans hcomment⟩

/-- A text is one of its own layouts. -/
theorem relaid_refl (cs : List Char) : Relaid cs cs [] := by
  match cs with
  | [] => exact .nothing []
  | c :: cs =>
    by_cases hline : c = '\n'
    · -- The indentation goes with the line break, so the induction skips it.
      subst hline
      have hlt : (cs.dropWhile isSpace).length < cs.length + 1 :=
        Nat.lt_succ_of_le (List.dropWhile_suffix _).length_le
      have hline : LineBreak ('\n' :: cs) (cs.dropWhile isSpace) :=
        ⟨_, _, cs, gap_nil _, .inl rfl, .inl rfl, (gap_dropWhile cs).blank⟩
      exact .lineBreak (gap_dropWhile cs) (stops_dropWhile cs) hline (relaid_refl _)
    · by_cases hspace : c = ' '
      · subst hspace
        exact .space ⟨' ', cs, rfl, rfl, gap_nil cs⟩ (relaid_refl cs)
      · have hbefore : GapIf (gapBefore c) (c :: cs) (c :: cs) := gapIf_nil _ _
        have hbehind : GapIf (gapBehind c) cs cs := gapIf_nil _ _
        exact .char ⟨hline, hspace⟩ hbefore hbehind (relaid_refl cs)
termination_by cs.length

/-- A printed space stands for one or more spaces. -/
theorem Relaid.of_space (h : Relaid (' ' :: cs) text rest) :
    ∃ mid, Piece.space.Spans text mid ∧ Relaid cs mid rest := by
  cases h with
  | space hspace later => exact ⟨_, hspace, later⟩
  | char c_ne => exact absurd rfl c_ne.2

/-- A printed line break stands for another one, and takes the printed indentation with it. -/
theorem Relaid.of_newLine (hline : NewLine cs cs') (h : Relaid cs text rest) :
    ∃ mid, LineBreak text mid ∧ Relaid cs' mid rest := by
  obtain ⟨mid, rfl, hgap, hstops⟩ := hline
  cases h with
  | lineBreak indent stops line later =>
    obtain rfl := indent.unique stops hgap hstops
    exact ⟨_, line, later⟩
  | char c_ne => exact absurd rfl c_ne.1

/-- Any other character stands for itself, with spaces around it where they are allowed. -/
theorem Relaid.of_char (hc : c ≠ '\n' ∧ c ≠ ' ') (h : Relaid (c :: cs) text rest) :
    ∃ mid mid', GapIf (gapBefore c) text (c :: mid) ∧ GapIf (gapBehind c) mid mid' ∧
      Relaid cs mid' rest := by
  cases h with
  | lineBreak => exact absurd rfl hc.1
  | space => exact absurd rfl hc.2
  | char _ before behind later => exact ⟨_, _, before, behind, later⟩

/-- A character that stays as it is, with nothing added next to it. -/
def isFixed (c : Char) : Bool :=
  c != '\n' && c != ' ' && !gapBefore c && !gapBehind c

/-- A run of fixed characters is found unchanged in any layout. -/
theorem Relaid.of_run {run : List Char} (hrun : ∀ c ∈ run, isFixed c)
    (h : Relaid (run ++ cs) text rest) : ∃ mid, text = run ++ mid ∧ Relaid cs mid rest := by
  induction run generalizing text with
  | nil => exact ⟨text, rfl, h⟩
  | cons c run ih =>
    obtain ⟨hc, hrun⟩ := List.forall_mem_cons.1 hrun
    obtain ⟨⟨hne, hbefore⟩, hbehind⟩ :
        ((c ≠ '\n' ∧ c ≠ ' ') ∧ gapBefore c = false) ∧ gapBehind c = false := by
      simpa [isFixed] using hc
    obtain ⟨mid, mid', before, behind, later⟩ := h.of_char hne
    rw [hbefore] at before
    rw [hbehind] at behind
    obtain rfl : text = c :: mid := before
    obtain rfl : mid = mid' := behind
    obtain ⟨last, rfl, hlast⟩ := ih hrun later
    exact ⟨last, rfl, hlast⟩

/-- A run of fixed characters may be put in front of two layouts of the same text. -/
theorem Relaid.append (run : List Char) (hrun : run.all isFixed) (later : Relaid cs text rest) :
    Relaid (run ++ cs) (run ++ text) rest := by
  induction run with
  | nil => exact later
  | cons c run ih =>
    obtain ⟨hc, hrun⟩ : isFixed c ∧ run.all isFixed := by simpa using hrun
    have hne : c ≠ '\n' ∧ c ≠ ' ' := by simp_all [isFixed]
    exact .char hne (gapIf_nil _ _) (gapIf_nil _ _) (ih hrun)

end Relaid

section Stable

/-- Laid out afresh, what is printed of the pieces is still a spelling of them. -/
def Stable (ps : List Piece) : Prop :=
  ∀ ⦃cs cs' text rest : List Char⦄, Printed ps cs cs' → Relaid cs text rest →
    ∃ mid, Written ps text mid ∧ Relaid cs' mid rest

variable {ps qs : List Piece} {p : Piece} {sign : String}

theorem Stable.nil : Stable [] := by
  rintro cs _ text rest rfl hrelaid
  exact ⟨text, rfl, hrelaid⟩

/-- Stable rows one behind the other are stable. -/
theorem Stable.append (hps : Stable ps) (hqs : Stable qs) : Stable (ps ++ qs) := by
  intro cs cs' text rest hprinted hrelaid
  obtain ⟨cs₁, hprinted, hprinted'⟩ := chained_append.1 hprinted
  obtain ⟨mid, hwritten, hrelaid⟩ := hps hprinted hrelaid
  obtain ⟨mid', hwritten', hrelaid⟩ := hqs hprinted' hrelaid
  exact ⟨mid', chained_append.2 ⟨mid, hwritten, hwritten'⟩, hrelaid⟩

theorem Stable.flatMap {β : Type} {f : β → List Piece} {bs : List β}
    (h : ∀ b ∈ bs, Stable (f b)) : Stable (bs.flatMap f) := by
  induction bs with
  | nil => exact .nil
  | cons b bs ih =>
    obtain ⟨hb, hbs⟩ := List.forall_mem_cons.1 h
    rw [List.flatMap_cons]
    exact hb.append (ih hbs)

/-- A row is stable if its first piece is on its own and the rest is. -/
theorem Stable.cons
    (hp : ∀ ⦃cs cs' text rest : List Char⦄, p.Prints cs cs' → Relaid cs text rest →
      ∃ mid, p.Spans text mid ∧ Relaid cs' mid rest)
    (h : Stable ps) : Stable (p :: ps) := by
  rintro cs cs' text rest ⟨cs₁, hprints, hprinted⟩ hrelaid
  obtain ⟨mid, hspans, hrelaid⟩ := hp hprints hrelaid
  obtain ⟨mid', hwritten, hrelaid⟩ := h hprinted hrelaid
  exact ⟨mid', ⟨mid, hspans, hwritten⟩, hrelaid⟩

/-- Whether a piece is printed with characters only that stay as they are. -/
def Piece.isFixed : Piece → Bool
  | word text => text.toList.all Grammar.isFixed
  | identifier _ | functionName _ | number _ | integer _ => true
  | gap | space | blanks | lineEnd => false

/-- Names and numbers consist of fixed characters. -/
theorem holdsNames_isFixed : HoldsNames isFixed := by
  have hothers : ∀ c, isFixed c = false → c ∈ ['\n', ' ', ',', '=', ')', ':', '('] := by
    intro c hc
    simp only [List.mem_cons]
    grind [isFixed, gapBefore, gapBehind]
  exact .of_others hothers rfl rfl rfl

theorem Piece.isOf_of_isFixed {p : Piece} (hp : p.isFixed) : p.isOf Grammar.isFixed := by
  cases p <;> exact hp

/-- Pieces of fixed characters are stable on their own. -/
theorem Stable.fixed (hp : p.isFixed) (h : Stable ps) : Stable (p :: ps) := by
  refine .cons (fun cs cs' text rest hprints hrelaid => ?_) h
  obtain ⟨run, hrun, rfl, hspans⟩ :=
    hprints.spans.exists_run holdsNames_isFixed (Piece.isOf_of_isFixed hp)
  obtain ⟨mid, rfl, hlater⟩ := hrelaid.of_run hrun
  exact ⟨mid, hspans mid, hlater⟩

/-- Where a space or nothing is printed, there may be spaces in another layout. -/
theorem Relaid.of_gap (hgap : Piece.gap.Prints cs cs') (h : Relaid cs text rest) :
    ∃ mid, Gap text mid ∧ Relaid cs' mid rest := by
  rcases hgap with rfl | rfl
  · exact ⟨text, gap_nil text, h⟩
  · obtain ⟨mid, hspace, h⟩ := h.of_space
    exact ⟨mid, gap_of_space hspace, h⟩

theorem Stable.gap (h : Stable ps) : Stable (.gap :: ps) :=
  .cons (fun _ _ _ _ => Relaid.of_gap) h

theorem Stable.space (h : Stable ps) : Stable (.space :: ps) := by
  refine .cons (fun cs cs' text rest hspace hrelaid => ?_) h
  obtain rfl : cs = ' ' :: cs' := hspace
  exact hrelaid.of_space

/-- The end of a line is stable, because line breaks stay line breaks. -/
theorem Stable.lineEnd (h : Stable ps) : Stable (.lineEnd :: ps) := by
  refine .cons (fun cs cs' text rest hline hrelaid => ?_) h
  obtain ⟨mid, hbreak, hrelaid⟩ := hrelaid.of_newLine hline
  exact ⟨mid, hbreak.spans, hrelaid⟩

/-- Blanks are stable, whichever of the three ways they are printed in. -/
theorem Stable.blanks (h : Stable ps) : Stable (.blanks :: ps) := by
  refine .cons (fun cs cs' text rest hblanks hrelaid => ?_) h
  rcases hblanks with rfl | rfl | hline
  · exact ⟨text, .nothing text, hrelaid⟩
  · obtain ⟨mid, hspace, hrelaid⟩ := hrelaid.of_space
    exact ⟨mid, (gap_of_space hspace).blank, hrelaid⟩
  · obtain ⟨mid, hbreak, hrelaid⟩ := hrelaid.of_newLine hline
    exact ⟨mid, hbreak.spans.2, hrelaid⟩

/-- A sign in another layout, with what is added in front of it and behind it. -/
theorem Relaid.of_sign (hsign : sign.toList = [c]) (hc : c ≠ '\n' ∧ c ≠ ' ')
    (hword : (Piece.word sign).Prints cs cs') (h : Relaid cs text rest) :
    ∃ mid mid' last, GapIf (gapBefore c) text mid ∧ (Piece.word sign).Spans mid mid' ∧
      GapIf (gapBehind c) mid' last ∧ Relaid cs' last rest := by
  obtain rfl : cs = sign.toList ++ cs' := hword
  rw [hsign] at h
  obtain ⟨mid, last, hbefore, hbehind, h⟩ := h.of_char hc
  exact ⟨c :: mid, mid, last, hbefore, congrArg (· ++ mid) hsign.symm, hbehind, h⟩

/-- The gap in front of a sign takes the spaces that are added there. -/
theorem Relaid.of_gap_sign {cs₁ : List Char} (hsign : sign.toList = [c])
    (hc : c ≠ '\n' ∧ c ≠ ' ') (hgap : Piece.gap.Prints cs cs₁)
    (hword : (Piece.word sign).Prints cs₁ cs') (h : Relaid cs text rest) :
    ∃ mid mid' last, Gap text mid ∧ (Piece.word sign).Spans mid mid' ∧
      GapIf (gapBehind c) mid' last ∧ Relaid cs' last rest := by
  obtain ⟨first, hfront, h⟩ := h.of_gap hgap
  obtain ⟨mid, mid', last, hbefore, hspans, hbehind, h⟩ := h.of_sign hsign hc hword
  exact ⟨mid, mid', last, hfront.trans hbefore.gap, hspans, hbehind, h⟩

/-- A sign with a gap in front of it. Behind it no spaces are added. -/
theorem Stable.closing (hsign : sign.toList = [c]) (hc : c ≠ '\n' ∧ c ≠ ' ')
    (hbehind : gapBehind c = false) (h : Stable ps) : Stable (.gap :: .word sign :: ps) := by
  rintro cs cs' text rest ⟨cs₁, hgap, cs₂, hword, hprinted⟩ hrelaid
  obtain ⟨mid₁, mid₂, mid₃, hfront, hspans, hnone, hrelaid⟩ :=
    hrelaid.of_gap_sign hsign hc hgap hword
  rw [hbehind] at hnone
  obtain rfl : mid₂ = mid₃ := hnone
  obtain ⟨mid, hwritten, hrelaid⟩ := h hprinted hrelaid
  exact ⟨mid, ⟨mid₁, hfront, mid₂, hspans, hwritten⟩, hrelaid⟩

/-- A sign with a gap behind it. In front of it no spaces are added. -/
theorem Stable.opening (hsign : sign.toList = [c]) (hc : c ≠ '\n' ∧ c ≠ ' ')
    (hbefore : gapBefore c = false) (h : Stable (.gap :: ps)) :
    Stable (.word sign :: .gap :: ps) := by
  rintro cs cs' text rest ⟨cs₁, hword, hprinted⟩ hrelaid
  obtain ⟨mid₁, mid₂, mid₃, hnone, hspans, hbehind, hrelaid⟩ := hrelaid.of_sign hsign hc hword
  rw [hbefore] at hnone
  obtain rfl : text = mid₁ := hnone
  obtain ⟨mid, ⟨mid₄, hgap, hwritten⟩, hrelaid⟩ := h hprinted hrelaid
  exact ⟨mid, ⟨mid₂, hspans, mid₄, hbehind.gap.trans hgap, hwritten⟩, hrelaid⟩

/-- A sign with gaps around it. -/
theorem Stable.around (hsign : sign.toList = [c]) (hc : c ≠ '\n' ∧ c ≠ ' ')
    (h : Stable (.gap :: ps)) : Stable (.gap :: .word sign :: .gap :: ps) := by
  rintro cs cs' text rest ⟨cs₁, hgap, cs₂, hword, hprinted⟩ hrelaid
  obtain ⟨mid₁, mid₂, mid₃, hfront, hspans, hbehind, hrelaid⟩ :=
    hrelaid.of_gap_sign hsign hc hgap hword
  obtain ⟨mid, ⟨mid₄, hgap', hwritten⟩, hrelaid⟩ := h hprinted hrelaid
  exact ⟨mid, ⟨mid₁, hfront, mid₂, hspans, mid₄, hbehind.gap.trans hgap', hwritten⟩, hrelaid⟩

end Stable

end Grammar

/-- A name or a number is written with fixed characters. -/
theorem Operand.isFixed_piece (o : Operand) : o.piece.isFixed := by
  cases o <;> rfl

namespace Inst

/-- Opcodes are names, so they are written with fixed characters. -/
theorem isFixed_opcode (inst : Inst) : (Piece.word inst.opcode).isFixed :=
  holdsNames_isFixed.isOf_word (isIdentifier_opcode inst)

/-- A comma has gaps on both of its sides. -/
theorem stable_comma {ps : List Piece} (h : Stable ps) : Stable (commaPieces ++ ps) := by
  have hgap : Stable (.gap :: ps) := .gap h
  exact .around rfl (by decide) hgap

theorem stable_operand (o : Operand) : Stable [o.piece] :=
  .fixed o.isFixed_piece .nil

/-- Between the parentheses of a call there are gaps next to either of them, also if nothing else
stands there. -/
theorem stable_arguments (args : List Operand) :
    Stable (.word "(" :: (argumentPieces args ++ [.word ")"])) := by
  have hclose : Stable [.gap, .word ")"] := .closing rfl (by decide) rfl .nil
  cases args with
  | nil => exact .opening rfl (by decide) rfl hclose
  | cons first later =>
    have hlater : Stable (later.flatMap fun arg => commaPieces ++ [arg.piece]) :=
      .flatMap fun arg _ => stable_comma (stable_operand arg)
    have hpieces : argumentPieces (first :: later) ++ [.word ")"] =
        .gap :: first.piece :: ((later.flatMap fun arg => commaPieces ++ [arg.piece]) ++
          [.gap, .word ")"]) := by
      simp [argumentPieces]
    rw [hpieces]
    apply Stable.opening rfl (by decide) rfl
    apply Stable.gap
    apply Stable.fixed first.isFixed_piece
    exact hlater.append hclose

/-- What an opcode applies to stays a spelling of it, with a space in front of it if it is anything
at all. -/
theorem stable_operandPieces (inst : Inst) : Stable inst.operandPieces := by
  have hblock (target : UInt32) : Stable [.word "block", .number target.toNat] :=
    .fixed rfl (.fixed rfl .nil)
  cases inst with
  | const | param => exact .space (.fixed rfl .nil)
  | copy dest src => exact .space (stable_operand src)
  | binary op dest lhs rhs =>
    apply Stable.space
    apply Stable.fixed lhs.isFixed_piece
    exact stable_comma (stable_operand rhs)
  | load dest global =>
    have hglobal : Stable [.word "@", .identifier global] := .fixed rfl (.fixed rfl .nil)
    exact .space hglobal
  | store global value =>
    apply Stable.space
    apply Stable.fixed rfl
    apply Stable.fixed rfl
    exact stable_comma (stable_operand value)
  | call dest callee args =>
    apply Stable.space
    apply Stable.fixed rfl
    apply Stable.fixed rfl
    apply Stable.gap
    exact stable_arguments args
  | nop => exact .nil
  | jump target => exact .space (hblock target)
  | brif condition ifNonzero ifZero =>
    apply Stable.space
    apply Stable.fixed condition.isFixed_piece
    apply stable_comma
    apply Stable.fixed rfl
    apply Stable.fixed rfl
    exact stable_comma (hblock ifZero)
  | ret value =>
    cases value with
    | none => exact .nil
    | some value => exact .space (stable_operand value)

/-- An instruction stays a spelling of itself, also with spaces around its sign of equality. -/
theorem stable_pieces (inst : Inst) : Stable inst.pieces := by
  have hopcode : Stable (.word inst.opcode :: inst.operandPieces) :=
    .fixed (isFixed_opcode inst) (stable_operandPieces inst)
  rw [pieces]
  cases inst.dest? with
  | none => exact hopcode
  | some dest =>
    apply Stable.fixed rfl
    apply Stable.around rfl (by decide)
    exact .gap hopcode

end Inst

namespace Grammar

/-- A block may be laid out afresh, with comments and empty lines behind its lines. -/
theorem stable_blockPieces (b : UInt32 × Block) : Stable (blockPieces .lineEnd b) := by
  have hlines : Stable (b.2.flatMap fun inst => inst.pieces ++ [.lineEnd]) :=
    .flatMap fun inst _ => inst.stable_pieces.append (.lineEnd .nil)
  apply Stable.fixed rfl
  apply Stable.fixed rfl
  apply Stable.closing rfl (by decide) rfl
  exact .blanks hlines

/-- All of a function may be laid out afresh. -/
theorem FunctionText.stable_pieces (w : FunctionText) : Stable (w.pieces .lineEnd) := by
  have hopen : Stable [.word "\x7b", .blanks] := .fixed rfl (.blanks .nil)
  have hname : Stable [.word "%", .functionName w.name, .blanks, .word "\x7b", .blanks] :=
    .fixed rfl (.fixed rfl (.blanks hopen))
  have hhead : Stable [.word "function", .blanks, .word "%", .functionName w.name, .blanks,
      .word "\x7b", .blanks] := .fixed rfl (.blanks hname)
  have hblocks : Stable (w.blocks.flatMap (blockPieces .lineEnd)) :=
    .flatMap fun b _ => stable_blockPieces b
  have hclose : Stable [.word "\x7d", .blanks] := .fixed rfl (.blanks .nil)
  exact (hhead.append hblocks).append hclose

end Grammar

namespace Function

/-- The printed form is one of its own layouts. -/
theorem laidOut_toString (f : Function) : f.LaidOut f.toString :=
  ⟨_, [], .nothing _, relaid_refl _, .nothing []⟩

/-- A function that can be written is read back from its printed form in any layout, the one it is
printed in among them. -/
theorem parse_eq_ok_of_laidOut {f : Function} (h : f.Writable) :
    f.LaidOut f.toString ∧ ∀ text, f.LaidOut text → parse text = .ok f := by
  refine ⟨laidOut_toString f, fun text htext => ?_⟩
  obtain ⟨mid, mid', hfront, hrelaid, hback⟩ := htext
  have hprinted := printed_functionText h []
  rw [List.append_nil] at hprinted
  obtain ⟨last, hwritten, hlast⟩ := f.written.stable_pieces hprinted hrelaid
  obtain rfl : last = mid' := by
    cases hlast
    rfl
  exact parse_eq_ok_of_written h ⟨mid, hfront, FunctionText.written_of_blank hwritten hback⟩

/-- A call and a bare return. -/
def layoutSample : Function :=
  ⟨"f", [[.call none "g" [.var "x", .imm 1], .ret none]]⟩

/-- The sample with comments, tabs and empty lines, and lines that end in either way. -/
def layoutText : String :=
  "; front\nfunction\t%f \x7b;open\r\n\n\tblock0 :\n call %g( x ,\t1 )\n return \t; bare\r\n" ++
    "\x7d ; back"

theorem layoutSample_laidOut : layoutSample.LaidOut layoutText := by
  have space (cs) : Piece.space.Spans (' ' :: cs) cs := ⟨' ', cs, rfl, rfl, gap_nil cs⟩
  have tab (cs) : Piece.space.Spans ('\t' :: cs) cs := ⟨'\t', cs, rfl, rfl, gap_nil cs⟩
  have indent (cs) : Gap (' ' :: ' ' :: ' ' :: ' ' :: cs) cs :=
    ⟨[' ', ' ', ' ', ' '], by simp [isSpace], rfl⟩
  -- The ways in which a line of the text ends.
  have afterBrace (cs) :
      LineBreak (';' :: ("open".toList ++ '\r' :: '\n' :: '\n' :: '\t' :: cs)) cs :=
    ⟨_, _, _, gap_nil _, .inr ⟨"open".toList, by simp, rfl⟩, .inr rfl,
      .char rfl (.char rfl (.nothing cs))⟩
  have plain (cs) : LineBreak ('\n' :: ' ' :: cs) cs :=
    ⟨_, _, _, gap_nil _, .inl rfl, .inl rfl, .char rfl (.nothing cs)⟩
  have afterReturn (cs) :
      LineBreak (' ' :: '\t' :: ';' :: (" bare".toList ++ '\r' :: '\n' :: cs)) cs :=
    ⟨_, _, _, (gap_of_space (space _)).trans (gap_of_space (tab _)),
      .inr ⟨" bare".toList, by simp, rfl⟩, .inr rfl, .nothing cs⟩
  -- The lines of the function, from the last one to the first.
  have hclose := Relaid.append "\x7d".toList rfl (.nothing (' ' :: ';' :: (" back".toList ++ [])))
  have hreturn := Relaid.append "return".toList rfl
    (.lineBreak (gap_nil _) (by exact stops_cons.2 rfl) (afterReturn _) hclose)
  have hend := Relaid.char (c := ')') (by decide) (gap_blank _) rfl
    (.lineBreak (indent _) (by exact stops_cons.2 rfl) (plain _) hreturn)
  have hsecond := Relaid.char (c := ',') (by decide) (gap_blank _) (gap_nil _)
    (.space (tab _) (.append "1".toList rfl hend))
  have hfirst := Relaid.char (c := '(') (by decide) rfl (gap_blank _)
    (.append "x".toList rfl hsecond)
  have hcall := Relaid.append "call".toList rfl
    (.space (space _) (.append "%g".toList rfl hfirst))
  have hcolon := Relaid.char (c := ':') (by decide) (gap_blank _) rfl
    (.lineBreak (indent _) (by exact stops_cons.2 rfl) (plain _) hcall)
  have hlabel := Relaid.append "block0".toList rfl hcolon
  have hbrace := Relaid.append "\x7b".toList rfl
    (.lineBreak (gap_nil _) (by exact stops_cons.2 rfl) (afterBrace _) hlabel)
  have hname := Relaid.append "%f".toList rfl (.space (space _) hbrace)
  have hfunction := Relaid.append "function".toList rfl (.space (tab _) hname)
  obtain ⟨cs, mid, hcs, hmid, hrelaid⟩ : ∃ cs mid, layoutSample.toString.toList = cs ∧
      layoutText.toList = ';' :: (" front".toList ++ '\n' :: mid) ∧
      Relaid cs mid (' ' :: ';' :: (" back".toList ++ [])) :=
    ⟨_, _, by decide +kernel, by decide +kernel, hfunction⟩
  have hfront : Blank layoutText.toList mid := by
    rw [hmid]
    exact .comment (by simp) (.lineFeed mid) (.char rfl (.nothing mid))
  have hback : Blank (' ' :: ';' :: (" back".toList ++ [])) [] :=
    .char rfl (.comment (by simp) .text (.nothing []))
  exact ⟨mid, _, hfront, hcs ▸ hrelaid, hback⟩

theorem parse_eq_ok_of_laidOut_sample :
    layoutSample.Writable ∧ layoutSample.LaidOut layoutText ∧
      parse layoutText = .ok layoutSample := by
  have hwritable : layoutSample.Writable := ⟨by decide, by decide, by decide, by decide⟩
  exact ⟨hwritable, layoutSample_laidOut,
    (parse_eq_ok_of_laidOut hwritable).2 layoutText layoutSample_laidOut⟩

end Function

end DefiniteAssignment
