import EmbeddedBuffers.Proofs.Source.Conditional
import EmbeddedBuffers.Proofs.Source.Crashes
import EmbeddedBuffers.Proofs.Source.Nesting
import EmbeddedBuffers.Proofs.Source.WrittenHeaders

/-!
# Namespaces of declarations

A declaration stands in the namespaces that the open blocks of live text name, outermost first. A
block that a header opens has the names that are written there exactly if the header is kept.
Main statement: `scope_as_written`.
-/

namespace EmbeddedBuffers.Scan

variable {m : Macros} {path : String} {source : List Char} {h : History} {s s' : Scan}
  {d : Declaration}

/-- A step that yields a declaration reads the call behind a macro word. -/
theorem exists_of_step {c : Char} {rest : List Char}
    (h : step m path s c rest = .ok (some d, s')) : ∃ kindWord,
      Source.macroWord? (Source.word s.rest).1 = some kindWord ∧
        declaration path kindWord s.position
          (s.past (Source.word s.rest).1 (Source.word s.rest).2) = .ok (some d, s') := by
  cases step_cases h with
  | word _ _ _ h =>
      cases word_cases h with
      | declared _ hkind h => exact ⟨_, hkind, h⟩

/-- What is yielded behind a macro word is read from the call there. -/
theorem exists_read_of_declaration {kindWord : List Char} {start : Position}
    (h : declaration path kindWord start s = .ok (some d, s')) : ∃ call,
      Source.Call.read? (s.rest.dropWhile Text.isAsciiBlank) = some call ∧
        Declaration.read (String.ofList kindWord) call.meaning s.scope path
          ⟨start, s.position.past (s.rest.takeWhile Text.isAsciiBlank ++ call.written ++
            (ending call.rest).1)⟩ s.isLive = .ok d := by
  cases declaration_cases h with
  | live hcall hread => exact ⟨_, hcall, hread⟩
  | dead hcall hread => exact ⟨_, hcall, hread⟩

/-- A declaration has the namespaces that are open where it stands. -/
theorem scope_of_step {c : Char} {rest : List Char}
    (h : step m path s c rest = .ok (some d, s')) : d.scope = s.scope := by
  obtain ⟨kindWord, -, h⟩ := exists_of_step h
  obtain ⟨call, -, hread⟩ := exists_read_of_declaration h
  exact (Declaration.place_of_read hread).1

theorem Within.scope_eq {blocks : List Scan} (hwithin : Within blocks s) :
    s.scope = blocks.reverse.flatMap opened := by
  induction blocks generalizing s with
  | nil => exact hwithin.2
  | cons o blocks ih =>
      obtain ⟨-, hscope, hmore⟩ := hwithin
      rw [hscope, ih hmore, List.reverse_cons, List.flatMap_append, List.flatMap_singleton]

/-- What a block of live text is opened by: a brace, or a header, whose names it then has. -/
def OpensBlock (o : Scan) : Prop :=
  o.isLive = true ∧ ((∃ rest, o.rest = '\x7b' :: rest ∧ o.opened = []) ∨
    ∃ rest written after, o.rest = "namespace".toList ++ rest ∧
      Source.Header.read [] rest = .block o.opened written after)

theorem opensBlock_of_event {names : List String} (hevent : s.event = .openBlock names) :
    s.OpensBlock := by
  have hopened : s.opened = names := by rw [opened, hevent]
  unfold event at hevent
  split at hevent
  · cases hevent
  next c rest hrest =>
  split at hevent
  · cases ha : Directive.action? (Directive.Line.read rest).meaning <;> rw [ha] at hevent <;>
      cases hevent
  split at hevent
  · cases hevent
  next hlive =>
  have hlive : s.isLive = true := by simpa using hlive
  split at hevent
  · next hbrace =>
    subst hbrace
    cases hevent
    exact ⟨hlive, .inl ⟨rest, hrest, hopened⟩⟩
  split at hevent
  · cases hevent
  split at hevent
  · next hname =>
    split at hevent
    · next names' written after hread =>
      cases hevent
      have hword := Source.word_eq (c :: rest)
      rw [hname] at hword
      exact ⟨hlive, .inr ⟨_, written, after, hrest.trans hword.symm, hopened.symm ▸ hread⟩⟩
    · cases hevent
  · cases hevent

theorem Arrives.opensBlock (harrives : Arrives m path source h s) :
    ∀ o ∈ h.blocks, o.OpensBlock := by
  induction harrives with
  | start => exact List.forall_mem_nil _
  | @step h s s' c rest d _ hs hstep ih =>
      unfold History.after
      cases hevent : s.event with
      | directive action => exact ih
      | openBlock names => exact List.forall_mem_cons.2 ⟨opensBlock_of_event hevent, ih⟩
      | closeBlock => exact fun o ho => ih o (List.mem_of_mem_tail ho)
      | other => exact ih

/-- A block whose header is kept has the names that are written in it. -/
theorem OpensBlock.opened_eq {o : Scan} (hopens : o.OpensBlock) {header : Source.WrittenHeader}
    {rest : List Char} (hrest : o.rest = "namespace".toList ++ (header.text ++ '\x7b' :: rest))
    (hkept : header.Kept) : o.opened = header.names := by
  obtain ⟨-, ⟨rest', hbrace, -⟩ | ⟨rest', written, after, hheader, hread⟩⟩ := hopens
  · rw [hbrace] at hrest
    cases hrest
  · rw [hheader] at hrest
    rw [List.append_cancel_left hrest, (header.read_eq_iff rest).2 hkept] at hread
    exact (Source.Header.block.inj hread).1.symm

/-- Declarations are yielded by steps from states that the scan arrives at. -/
theorem Reaches.exists_step {ds : List Declaration} (hreaches : Reaches m path s ds s')
    (harrives : Arrives m path source h s) : ∀ d ∈ ds, ∃ h₁ s₁ c rest s₂,
      Arrives m path source h₁ s₁ ∧ s₁.rest = c :: rest ∧
        Scan.step m path s₁ c rest = .ok (some d, s₂) := by
  induction hreaches generalizing h with
  | refl s => exact List.forall_mem_nil _
  | @step s s' s'' c rest d ds hs hstep _ ih =>
      refine List.forall_mem_append.2 ⟨fun d' hd' => ?_, ih (harrives.step hs hstep)⟩
      rw [Option.mem_toList] at hd'
      subst hd'
      exact ⟨h, s, c, rest, s', harrives, hs, hstep⟩

/-- **Where the namespaces of a declaration come from.** They are those of the blocks of live text
that are open where it stands, outermost first: a brace on its own opens none, and a header opens
those that are read of it. A header is read as it is written exactly if it is kept. -/
theorem scope_as_written (m : Macros) (path source : String) :
    (∀ d ∈ (scan m path source).declarations, ∃ h s c rest s',
      Arrives m path source.toList h s ∧ s.rest = c :: rest ∧
        step m path s c rest = .ok (some d, s') ∧ d.scope = h.blocks.reverse.flatMap opened ∧
        ∀ o ∈ h.blocks, o.OpensBlock ∧ ∀ (header : Source.WrittenHeader) (after : List Char),
          o.rest = "namespace".toList ++ (header.text ++ '\x7b' :: after) → header.Kept →
            o.opened = header.names) ∧
    ∀ (header : Source.WrittenHeader) (rest : List Char),
      Source.Header.read [] (header.text ++ '\x7b' :: rest) =
        .block header.names (header.text ++ ['\x7b']) rest ↔ header.Kept := by
  refine ⟨fun d hd => ?_, fun header rest => header.read_eq_iff rest⟩
  obtain ⟨last, hreaches, -⟩ := exists_reaches_end m path (.ofText source.toList)
  obtain ⟨h, s, c, rest, s', harrives, hs, hstep⟩ := hreaches.exists_step .start d hd
  refine ⟨h, s, c, rest, s', harrives, hs, hstep, ?_, fun o ho => ?_⟩
  · rw [scope_of_step hstep, harrives.nests.within.scope_eq]
  · have hopens := harrives.opensBlock o ho
    exact ⟨hopens, fun header after hrest hkept => hopens.opened_eq hrest hkept⟩

/-- A name with an accent is lost; names behind an attribute and the word `inline` are kept, and a
declaration has that of the block that it stands in. -/
theorem scope_as_written_accent :
    Source.Header.read [] " é \x7b".toList ≠ .block ["é"] " é \x7b".toList [] ∧
    Source.Header.read [] " [[x]] a::inline b \x7b".toList =
      .block ["a", "b"] " [[x]] a::inline b \x7b".toList [] ∧
    ∃ d ∈ (scan .empty "a.h" "namespace a \x7b\nBPDataBuffer(char, A, 1);\n").declarations,
      d.scope = ["a"] ∧ ∃ h s, d.scope = h.blocks.reverse.flatMap opened ∧
        Arrives .empty "a.h" "namespace a \x7b\nBPDataBuffer(char, A, 1);\n".toList h s := by
  have hread := (scope_as_written .empty "a.h" "").2
  let space : Source.Spacer := .blank ' ' (by decide) (by decide)
  let names : List Source.ScopeName := [⟨⟨['a'], by decide⟩, by decide⟩]
  let buffer : Source.Buffer := ⟨.data, ⟨"char".toList, by decide, by decide, by decide⟩, [], .char,
    ⟨['A'], by decide⟩, [.words ⟨['1'], by decide, by decide, by decide⟩ []], by decide, by decide⟩
  refine ⟨fun h => ?_, ?_, ?_⟩
  · have hkept := (hread (.named ⟨[.spacer space], none, ['é'], [space], by decide, by decide,
      by decide⟩ []) []).1 h
    exact absurd ((hkept _ List.mem_cons_self).ascii 'é' List.mem_cons_self) (by decide)
  · refine (hread (.named ⟨[.spacer space, .bracketed ⟨['x'], by decide, by decide⟩, .spacer space],
      none, ['a'], [], by decide, by decide, by decide⟩ [⟨[], some (space, []), ['b'], [space],
        by decide, by decide, by decide⟩]) []).2 ?_
    have hapart : ∀ {w : List Char}, w.getLast? = some ' ' →
        ∀ c ∈ w.getLast?, Text.isBlank c = true := by
      intro w hlast c hc
      rw [hlast] at hc
      cases hc
      decide
    refine List.forall_mem_cons.2 ⟨⟨by decide, hapart rfl, by decide, by decide⟩,
      List.forall_mem_singleton.2 ⟨by decide, hapart rfl, by decide, by decide⟩⟩
  · have hline : (ofText "namespace a \x7b\nBPDataBuffer(char, A, 1);\n".toList).rest =
        Source.blockLine names ++ (buffer.text ++ ['\n']) := by decide
    have hmem : ∃ d ∈ (scan .empty "a.h"
        "namespace a \x7b\nBPDataBuffer(char, A, 1);\n").declarations, d.scope = ["a"] := by
      rw [scan, run_blockLine names rfl hline, run_buffer buffer rfl]
      exact ⟨_, List.mem_cons_self, rfl⟩
    obtain ⟨d, hd, hscope⟩ := hmem
    obtain ⟨h, s, c, rest, s', harrives, -, -, heq, -⟩ :=
      (scope_as_written .empty "a.h" "namespace a \x7b\nBPDataBuffer(char, A, 1);\n").1 d hd
    exact ⟨d, hd, hscope, h, s, heq, harrives⟩

end EmbeddedBuffers.Scan
