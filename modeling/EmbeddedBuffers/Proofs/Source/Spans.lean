import EmbeddedBuffers.Proofs.Source.LineStarts
import EmbeddedBuffers.Proofs.Source.Namespaces

/-!
# Where declarations stand

The span of a declaration starts at its macro word and ends behind its call, the spaces and tabs
that follow it, and a semicolon directly behind these. Main statement: `positions_exact`.
-/

namespace EmbeddedBuffers

/-- How a declaration is written in front of `after`: its macro word, blanks, the call that its
arguments are read from, the spaces and tabs behind that, and a semicolon if one follows. -/
def Declaration.WrittenAs (d : Declaration) (piece after : List Char) : Prop :=
  ∃ (gap : List Char) (call : Source.Call) (spaces semicolon : List Char),
    piece = d.kind.render.toList ++ gap ++ call.written ++ spaces ++ semicolon ∧
    (∀ c ∈ gap, Text.isAsciiBlank c = true) ∧
    Source.Call.read? (call.written ++ spaces ++ semicolon ++ after) = some call ∧
    Argument.readAll call.meaning = .ok (.words d.typeName :: .words d.name :: d.arguments) ∧
    (∀ c ∈ spaces, c = ' ' ∨ c = '\t') ∧
    (semicolon = [';'] ∨ semicolon = [] ∧ ∀ c ∈ after.head?, c ≠ ' ' ∧ c ≠ '\t' ∧ c ≠ ';')

theorem Declaration.kind_of_read {word : String} {inner : List Char} {scope : List String}
    {path : String} {span : Span} {live : Bool} {d : Declaration}
    (h : read word inner scope path span live = .ok d) :
    Kind.ofWord? word = some d.kind ∧ d.span = span := by
  unfold read at h
  split at h
  · cases h
  · next kind hkind =>
    obtain ⟨args, -, h⟩ := exists_of_bind_eq_ok h
    obtain ⟨_, -, h⟩ := exists_of_bind_eq_ok h
    cases h
    exact ⟨hkind, rfl⟩

theorem Kind.eq_word {w : String} {k : Kind} (h : ofWord? w = some k) : w = k.word := by
  have hfound := List.find?_some h
  exact (beq_iff_eq.1 hfound).symm

/-- The macro word of a kind is its name. -/
theorem Source.eq_render_of_macroWord? {w kindWord : List Char} {k : Kind}
    (h : macroWord? w = some kindWord) (hkind : Kind.ofWord? (String.ofList kindWord) = some k) :
    w = k.render.toList := by
  have hword : kindWord = k.word.toList := by
    rw [← Kind.eq_word hkind, String.toList_ofList]
  unfold macroWord? at h
  split at h
  · cases h
  · next rest hrest =>
    split at h
    · cases h
    · next inner hinner =>
      split at h
      · cases h
        rw [Text.strip?_eq_some hrest, Text.stripEnd?_eq_some hinner, hword]
        cases k <;> rfl
      · cases h

namespace Scan

variable {m : Macros} {path : String} {s s' : Scan} {d : Declaration}

/-- What ends a declaration: spaces and tabs, and a semicolon if one follows. -/
theorem exists_ending (s : List Char) : ∃ spaces semicolon,
    (ending s).1 = spaces ++ semicolon ∧ (∀ c ∈ spaces, c = ' ' ∨ c = '\t') ∧
      (semicolon = [';'] ∨
        semicolon = [] ∧ ∀ c ∈ (ending s).2.head?, c ≠ ' ' ∧ c ≠ '\t' ∧ c ≠ ';') := by
  have hspaces : ∀ c ∈ s.takeWhile fun c => c == ' ' || c == '\t', c = ' ' ∨ c = '\t' :=
    fun c hc => by simpa using List.mem_takeWhile_imp hc
  unfold ending
  dsimp only
  split
  · exact ⟨_, [';'], rfl, hspaces, .inl rfl⟩
  · next hother =>
    refine ⟨_, [], (List.append_nil _).symm, hspaces, .inr ⟨rfl, fun c hc => ?_⟩⟩
    obtain ⟨rest, hrest⟩ := List.head?_eq_some_iff.1 hc
    have hstop := List.head?_dropWhile_not (fun c => c == ' ' || c == '\t') s
    dsimp only at hrest
    rw [hrest] at hstop
    have hne : c ≠ ' ' ∧ c ≠ '\t' := by simpa using hstop
    exact ⟨hne.1, hne.2, fun hc => hother rest (hc ▸ hrest)⟩

/-- A declaration is written where the scan stands, and its span is that piece. -/
theorem writtenAs_of_step {c : Char} {rest : List Char}
    (h : step m path s c rest = .ok (some d, s')) : ∃ piece after,
      s.rest = piece ++ after ∧ d.WrittenAs piece after ∧
        d.span = ⟨s.position, s.position.past piece⟩ := by
  obtain ⟨kindWord, hmacro, h⟩ := exists_of_step h
  obtain ⟨call, hcall, hread⟩ := exists_read_of_declaration h
  have hword := Source.word_eq s.rest
  generalize Source.word s.rest = word at hmacro hcall hread hword
  obtain ⟨w, behind⟩ := word
  dsimp only [past] at hmacro hcall hread hword
  obtain ⟨hkind, hspan⟩ := Declaration.kind_of_read hread
  obtain rfl := Source.eq_render_of_macroWord? hmacro hkind
  obtain ⟨spaces, semicolon, hending, hspaces, hsemicolon⟩ := exists_ending call.rest
  have hrest := ending_eq call.rest
  rw [hending] at hrest hspan
  refine ⟨d.kind.render.toList ++
    (behind.takeWhile Text.isAsciiBlank ++ call.written ++ (spaces ++ semicolon)),
    (ending call.rest).2, ?_, ⟨behind.takeWhile Text.isAsciiBlank, call, spaces, semicolon, ?_, ?_,
      ?_, (Declaration.readAll_of_read hread).1, hspaces, hsemicolon⟩, ?_⟩
  · rw [← hword, List.append_assoc, List.append_assoc, hrest, List.append_assoc,
      read?_eq hcall, List.takeWhile_append_dropWhile]
  · simp only [List.append_assoc]
  · exact fun c hc => List.mem_takeWhile_imp hc
  · rw [List.append_assoc call.written, List.append_assoc, hrest, read?_eq hcall]
    exact hcall
  · rw [hspan, ← Position.past_append]

/-- Every declaration of a run stands somewhere in the text. -/
theorem Reaches.exists_writtenAs {ds : List Declaration} (hreaches : Reaches m path s ds s') :
    ∀ d ∈ ds, ∃ before piece after, s.rest = before ++ piece ++ after ∧ d.WrittenAs piece after ∧
      d.span = ⟨s.position.past before, s.position.past (before ++ piece)⟩ := by
  induction hreaches with
  | refl s => exact List.forall_mem_nil _
  | @step s s' s'' c rest d ds hs hstep _ ih =>
      refine List.forall_mem_append.2 ⟨fun d' hd' => ?_, fun d' hd' => ?_⟩
      · rw [Option.mem_toList] at hd'
        subst hd'
        obtain ⟨piece, after, hrest, hwritten, hspan⟩ := writtenAs_of_step hstep
        exact ⟨[], piece, after, hrest, hwritten, hspan⟩
      · obtain ⟨front, hfront, hposition⟩ := ahead_step hs hstep
        obtain ⟨before, piece, after, hrest, hwritten, hspan⟩ := ih d' hd'
        refine ⟨front ++ before, piece, after, ?_, hwritten, ?_⟩
        · rw [hfront, hrest]
          simp only [List.append_assoc]
        · rw [hspan, hposition, ← Position.past_append, ← Position.past_append,
            List.append_assoc]

end Scan

/-- **Positions are exact.** At every character boundary of a text the line is one more than the
line feeds in front of it, and the column one more than the characters behind the last of them;
positions are in the order of their offsets, and an offset behind the text is its end. A search
among the starts of the lines finds the same positions. Lines and columns are words of 32 bits, save
for an offset so far behind that it is none of these or the last of them. The span of a declaration
is the piece that it is written as, from its macro word on. -/
theorem positions_exact (m : Macros) (path source : String) :
    let text := source.toList
    (∀ before after, text = before ++ after → Position.ofOffset text (byteLength before) =
      ⟨byteLength before, 1 + before.count '\n', 1 + lastLineLength before⟩) ∧
    (∀ a b, Boundary text a → Boundary text b → a < b →
      (Position.ofOffset text a).Precedes (Position.ofOffset text b)) ∧
    (∀ offset, byteLength text ≤ offset →
      Position.ofOffset text offset = Position.ofOffset text (byteLength text)) ∧
    (∀ offset, LineStarts.location (LineStarts.ofText text) text offset =
      Position.ofOffset text offset) ∧
    (∀ offset, min offset (byteLength text) + 1 < 2 ^ 32 →
      (Position.ofOffset text offset).FitsWords) ∧
    ∀ d ∈ (scan m path source).declarations, ∃ before piece after,
      text = before ++ piece ++ after ∧ d.WrittenAs piece after ∧
        d.span = Span.ofOffsets text (byteLength before) (byteLength (before ++ piece)) := by
  intro text
  refine ⟨?_, fun a b => Position.ofOffset_precedes, fun offset hoffset => ?_,
    LineStarts.location_eq text, fun _ => Position.fitsWords_ofOffset, fun d hd => ?_⟩
  · rintro before after htext
    rw [htext, Position.ofOffset_byteLength]
  · rw [Position.ofOffset_of_le hoffset, Position.ofOffset_of_le (Nat.le_refl _)]
  · obtain ⟨last, hreaches, -⟩ := Scan.exists_reaches_end m path (.ofText source.toList)
    obtain ⟨before, piece, after, htext, hwritten, hspan⟩ := hreaches.exists_writtenAs d hd
    have htext : text = before ++ piece ++ after := htext
    refine ⟨before, piece, after, htext, hwritten, ?_⟩
    rw [hspan, Span.ofOffsets, htext, Position.ofOffset_past, List.append_assoc,
      Position.ofOffset_past]
    rfl

/-- Behind an accent and a line feed, where bytes and characters are counted apart. -/
theorem positions_exact_accent :
    let source := "é\nBPDataBuffer(char, A, 1);\n"
    let text := source.toList
    Position.ofOffset text 3 = ⟨3, 2, 1⟩ ∧ Position.ofOffset text 40 = Position.ofOffset text 29 ∧
      Boundary text 2 ∧ (Position.ofOffset text 2).Precedes (Position.ofOffset text 3) ∧
      (Position.ofOffset text 40).FitsWords ∧
      ∃ d ∈ (scan .empty "a.h" source).declarations, d.span = ⟨⟨3, 2, 1⟩, ⟨28, 2, 26⟩⟩ ∧
        ∃ before piece after, text = before ++ piece ++ after ∧ d.WrittenAs piece after := by
  intro source text
  obtain ⟨hposition, horder, hend, -, hwords, hspan⟩ := positions_exact .empty "a.h" source
  have hlast : Boundary text 2 := ⟨['é'], text.drop 1, by decide, rfl⟩
  have hfeed : Boundary text 3 := ⟨['é', '\n'], text.drop 2, by decide, rfl⟩
  have hlength : byteLength text = 29 := by decide
  have hbehind := hend 40 (hlength ▸ (by decide : 29 ≤ 40))
  rw [show byteLength source.toList = 29 from hlength] at hbehind
  have hspans : (scan .empty "a.h" source).declarations.map (·.span) =
      [⟨⟨3, 2, 1⟩, ⟨28, 2, 26⟩⟩] := by decide +kernel
  obtain ⟨d, hd, heq⟩ := List.mem_map.1 (hspans ▸ List.mem_singleton_self _)
  obtain ⟨before, piece, after, htext, hwritten, -⟩ := hspan d hd
  exact ⟨hposition ['é', '\n'] (text.drop 2) (by decide), hbehind, hlast,
    horder 2 3 hlast hfeed (by decide), hwords 40 (by decide), d, hd, heq, before, piece,
    after, htext, hwritten⟩

/-- Spaces behind a call belong to the span even if no semicolon follows them. -/
theorem span_behind_call : ¬∀ (m : Macros) (path source : String),
    ∀ d ∈ (scan m path source).declarations, ∃ before piece after,
      source.toList = before ++ piece ++ after ∧
        d.span = Span.ofOffsets source.toList (byteLength before) (byteLength (before ++ piece)) ∧
        (piece.getLast? = some ')' ∨ piece.getLast? = some ';') := by
  intro hall
  let source := "BPDataBuffer(char, A, 1)  \n"
  have hspans : (scan .empty "a.h" source).declarations.map (·.span) =
      [⟨⟨0, 1, 1⟩, ⟨26, 1, 27⟩⟩] := by decide +kernel
  obtain ⟨d, hd, heq⟩ := List.mem_map.1 (hspans ▸ List.mem_singleton_self _)
  obtain ⟨before, piece, after, htext, hspan, hlast⟩ := hall .empty "a.h" source d hd
  -- The piece ends at the offset of the second space.
  have hoffset : byteLength (before ++ piece) = 26 := by
    rw [heq, Span.ofOffsets, htext, Position.ofOffset_past, Position.past_start] at hspan
    exact (congrArg (fun s => s.stop.offset) hspan).symm
  have hsplit := LineStarts.splitAtByte?_byteLength (before ++ piece) after
  rw [hoffset, ← htext] at hsplit
  have hcut : LineStarts.splitAtByte? 26 source.toList = some (source.toList.take 26, ['\n']) := by
    decide +kernel
  have hfront : before ++ piece = source.toList.take 26 :=
    (Prod.mk.inj (Option.some.inj (hsplit.symm.trans hcut))).1
  have hspace : (before ++ piece).getLast? = some ' ' := by rw [hfront]; decide
  rw [List.getLast?_append] at hspace
  rcases hlast with hlast | hlast <;> rw [hlast] at hspace <;> cases hspace

end EmbeddedBuffers
