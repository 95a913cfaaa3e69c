import EmbeddedBuffers.Proofs.Results
import EmbeddedBuffers.Proofs.Source.Steps

/-!
# What a step does to the groups and the blocks

A step of a scan opens, switches or closes a conditional group, opens or closes a block of the live
text, or leaves both stacks and the open namespaces as they are. Which of these it does is read off
the state in front of it. Main statement: `moves_of_step`.
-/

namespace EmbeddedBuffers

namespace Directive

/-! ## Directives -/

/-- The action of a directive with this text. -/
def action? (meaning : List Char) : Option Action :=
  Action.ofName? (String.ofList (nameAndRest meaning).1)

/-- How an action changes the open groups. A condition holds only where its answer matters: in
live text, and behind no branch of its group that was taken. -/
inductive Action.Acts : Action → List Group → List Group → Prop
  | enter {opening : Opening} {test : Test} {groups : List Group} (line : Nat) (holds : Bool)
      (hlive : holds = true → isLive groups = true) :
      Acts (.enter opening test) groups
        (⟨holds, isLive groups, holds, false, line, opening⟩ :: groups)
  | switch {test : Test} {g : Group} {groups : List Group} (holds : Bool)
      (helse : g.seenElse = false) (hlive : holds = true → g.parentLive = true ∧ g.taken = false) :
      Acts (.switch test) (g :: groups)
        ({ g with live := holds, taken := g.taken || holds } :: groups)
  | switchElse {g : Group} {groups : List Group} (helse : g.seenElse = false) :
      Acts .switchElse (g :: groups)
        ({ g with live := g.parentLive && !g.taken, taken := true, seenElse := true } :: groups)
  | leave {g : Group} {groups : List Group} : Acts .leave (g :: groups) groups

variable {m : Macros} {path : String} {line : Nat} {meaning : List Char}
  {groups groups' : List Group} {action : Action}

theorem apply_of_none (h : action? meaning = none) :
    apply m path line meaning groups = .ok groups := by
  unfold action? at h
  simp only [apply, h]

theorem exists_of_openGroup {origin : Origin} {name : String} {g : Group}
    (h : openGroup origin name groups = .ok (g, groups')) :
    groups = g :: groups' ∧ g.seenElse = false := by
  cases groups with
  | nil => cases h
  | cons g' gs =>
      rw [openGroup] at h
      split at h
      · cases h
      · next helse =>
        cases h
        exact ⟨rfl, Bool.not_eq_true _ ▸ helse⟩

/-- A condition that is looked at only where its answer matters holds only there. -/
theorem exists_holds {α : Type} {matters : Bool} {answer : Except Problem Bool}
    {next : Bool → Except Problem α} {a : α}
    (h : (if matters = true then answer >>= next else pure false >>= next) = .ok a) :
    ∃ holds, (holds = true → matters = true) ∧ next holds = .ok a := by
  cases matters with
  | true =>
      obtain ⟨holds, -, h⟩ := exists_of_bind_eq_ok h
      exact ⟨holds, fun _ => rfl, h⟩
  | false => exact ⟨false, fun h => h, h⟩

/-- **A directive that is followed acts on the open groups.** -/
theorem acts_of_apply (ha : action? meaning = some action)
    (h : apply m path line meaning groups = .ok groups') : action.Acts groups groups' := by
  unfold action? at ha
  simp only [apply, ha] at h
  cases action with
  | enter opening test =>
      obtain ⟨holds, hlive, h⟩ := exists_holds h
      cases h
      exact .enter line holds hlive
  | switch test =>
      obtain ⟨⟨g, gs⟩, hopen, hswitch⟩ := exists_of_bind_eq_ok h
      obtain ⟨holds, hlive, hswitch⟩ := exists_holds hswitch
      obtain ⟨rfl, helse⟩ := exists_of_openGroup hopen
      cases hswitch
      refine .switch holds helse fun htrue => ?_
      have hmatters := hlive htrue
      rwa [Bool.and_eq_true, Bool.not_eq_true'] at hmatters
  | switchElse =>
      obtain ⟨⟨g, gs⟩, hopen, hswitch⟩ := exists_of_bind_eq_ok h
      obtain ⟨rfl, helse⟩ := exists_of_openGroup hopen
      cases hswitch
      exact .switchElse helse
  | leave =>
      cases groups with
      | nil => cases h
      | cons g gs =>
          cases h
          exact .leave

end Directive

namespace Scan

/-! ## Events -/

/-- What a step does to the groups and the blocks. -/
inductive Event
  | directive (action : Directive.Action)
  /-- A brace of the live text is opened; a namespace header gives it names. -/
  | openBlock (names : List String)
  | closeBlock
  | other

/-- The event that a state stands in front of. -/
def event (s : Scan) : Event :=
  match s.rest with
  | [] => .other
  | c :: rest =>
    if c = '#' ∧ s.lineStart = true then
      ((Directive.action? (Directive.Line.read rest).meaning).map Event.directive).getD .other
    else if s.isLive = false then .other
    else if c = '\x7b' then .openBlock []
    else if c = '\x7d' then .closeBlock
    else if (Source.word (c :: rest)).1 = "namespace".toList then
      match Source.Header.read [] (Source.word (c :: rest)).2 with
      | .block names _ _ => .openBlock names
      | .statement _ _ => .other
    else .other

/-- What an event changes. The liveness of the text decides whether braces count. -/
inductive Moves (s s' : Scan) : Event → Prop
  | directive {action : Directive.Action} (hacts : action.Acts s.groups s'.groups)
      (hbraces : s'.braces = s.braces) (hscope : s'.scope = s.scope) :
      Moves s s' (.directive action)
  | openBlock {names : List String} (hlive : s.isLive = true) (hgroups : s'.groups = s.groups)
      (hbraces : s'.braces = names.length :: s.braces) (hscope : s'.scope = s.scope ++ names) :
      Moves s s' (.openBlock names)
  | closeBlock (hlive : s.isLive = true) (hgroups : s'.groups = s.groups)
      (hbraces : s'.braces = s.braces.tail)
      (hscope : s'.scope = s.scope.take (s.scope.length - s.braces.headD 0)) :
      Moves s s' .closeBlock
  | other (hgroups : s'.groups = s.groups) (hbraces : s'.braces = s.braces)
      (hscope : s'.scope = s.scope) : Moves s s' .other

variable {m : Macros} {path : String} {s s' : Scan} {d : Option Declaration} {c : Char}
  {rest : List Char}

theorem moves_of_declaration {kindWord : List Char} {start : Position}
    (h : declaration path kindWord start s = .ok (d, s')) : Moves s s' .other := by
  cases declaration_cases h with
  | uncalled => exact .other rfl rfl rfl
  | passedOver => exact .other rfl rfl rfl
  | live => exact .other rfl rfl rfl
  | dead => exact .other rfl rfl rfl

/-- The word `namespace` stands at no character but its first letter. -/
theorem eq_of_word_namespace (h : (Source.word (c :: rest)).1 = "namespace".toList) : c = 'n' := by
  have hword := Source.word_eq (c :: rest)
  rw [h] at hword
  exact (List.cons.inj hword).1.symm

/-- In front of anything but a directive, a brace or the word `namespace` nothing moves. -/
theorem event_eq_other (hs : s.rest = c :: rest) (hdirective : ¬(c = '#' ∧ s.lineStart = true))
    (h : s.isLive = false ∨ (c ≠ '\x7b' ∧ c ≠ '\x7d' ∧
      (Source.word (c :: rest)).1 ≠ "namespace".toList)) : s.event = .other := by
  rw [event, hs]
  dsimp only
  rw [if_neg hdirective]
  rcases h with hdead | ⟨hopen, hclose, hword⟩
  · rw [if_pos hdead]
  · rw [if_neg hopen, if_neg hclose, if_neg hword, ite_self]

theorem event_openBrace (hs : s.rest = '\x7b' :: rest) (hlive : s.isLive = true) :
    s.event = .openBlock [] := by
  rw [event, hs]
  dsimp only
  rw [if_neg (by simp), if_neg (by simpa using hlive), if_pos rfl]

theorem event_closeBrace (hs : s.rest = '\x7d' :: rest) (hlive : s.isLive = true) :
    s.event = .closeBlock := by
  rw [event, hs]
  dsimp only
  rw [if_neg (by simp), if_neg (by simpa using hlive), if_neg (by decide), if_pos rfl]

theorem moves_of_closeBrace (hlive : s.isLive = true) {piece rest : List Char} :
    Moves s (s.past piece rest).closeBrace .closeBlock := by
  unfold closeBrace
  split
  · next hbraces =>
    refine .closeBlock hlive rfl ?_ ?_
    · show s.braces = s.braces.tail
      have hnil : s.braces = [] := hbraces
      rw [hnil, List.tail_nil]
    · show s.scope = _
      have hnil : s.braces = [] := hbraces
      rw [hnil, List.headD_nil, Nat.sub_zero, List.take_length]
  · next n braces hbraces =>
    have hcons : s.braces = n :: braces := hbraces
    refine .closeBlock hlive rfl ?_ ?_
    · rw [hcons, List.tail_cons]
    · rw [hcons, List.headD_cons]
      rfl

theorem moves_of_header {piece text rest : List Char} (hlive : s.isLive = true) :
    Moves s ((s.past piece rest).openHeader (Source.Header.read text rest))
      (match Source.Header.read text rest with
        | .block names _ _ => .openBlock names
        | .statement _ _ => .other) := by
  unfold openHeader
  cases Source.Header.read text rest with
  | block names written after => exact .openBlock hlive rfl rfl rfl
  | statement written after => exact .other rfl rfl rfl

/-- In front of a word only the word `namespace` in live text moves anything. -/
theorem moves_of_word (hs : s.rest = c :: rest) (hdirective : ¬(c = '#' ∧ s.lineStart = true))
    (hbrace : c ≠ '\x7b' ∧ c ≠ '\x7d') (h : word path s = .ok (d, s')) : Moves s s' s.event := by
  cases word_cases h with
  | header hname hlive =>
      rw [event, hs]
      dsimp only
      rw [if_neg hdirective, if_neg (by simpa using hlive), if_neg hbrace.1, if_neg hbrace.2,
        if_pos (hs ▸ hname)]
      exact moves_of_header hlive
  | deadHeader _ hdead =>
      rw [event_eq_other hs hdirective (.inl hdead)]
      exact .other rfl rfl rfl
  | declared hname _ h =>
      rw [event_eq_other hs hdirective (.inr ⟨hbrace.1, hbrace.2, hs ▸ hname⟩)]
      cases moves_of_declaration h with
      | other hgroups hbraces hscope => exact .other hgroups hbraces hscope
  | other hname =>
      rw [event_eq_other hs hdirective (.inr ⟨hbrace.1, hbrace.2, hs ▸ hname⟩)]
      exact .other rfl rfl rfl

theorem moves_of_directive {piece after : List Char} {groups : List Directive.Group}
    (hs : s.rest = '#' :: rest) (hstart : s.lineStart = true)
    (happly : Directive.apply m path s.position.line (Directive.Line.read rest).meaning s.groups =
      .ok groups) : Moves s { s.past piece after with groups, lineStart := true } s.event := by
  rw [event, hs]
  dsimp only
  rw [if_pos ⟨rfl, hstart⟩]
  cases ha : Directive.action? (Directive.Line.read rest).meaning with
  | none =>
      rw [Directive.apply_of_none ha] at happly
      exact .other (Except.ok.inj happly).symm rfl rfl
  | some action => exact .directive (Directive.acts_of_apply ha happly) rfl rfl

/-- **A step moves the groups and the blocks as the state in front of it says.** -/
theorem moves_of_step (hs : s.rest = c :: rest) (h : step m path s c rest = .ok (d, s')) :
    Moves s s' s.event := by
  -- Only words and braces move something; every other character is told apart from theirs.
  have hother : ∀ {s' : Scan}, ¬(c = '#' ∧ s.lineStart = true) → c ≠ '\x7b' → c ≠ '\x7d' → c ≠ 'n' →
      s'.groups = s.groups → s'.braces = s.braces → s'.scope = s.scope → Moves s s' s.event := by
    intro s' hdirective hopen hclose hletter hgroups hbraces hscope
    rw [event_eq_other hs hdirective
      (.inr ⟨hopen, hclose, fun hword => hletter (eq_of_word_namespace hword)⟩)]
    exact .other hgroups hbraces hscope
  cases step_cases h with
  | lineFeed hfeed =>
      subst hfeed
      exact hother (by simp) (by decide) (by decide) (by decide) rfl rfl rfl
  | blank hfeed hblank =>
      have hne : ∀ c', Text.isAsciiBlank c' = false → c ≠ c' :=
        fun c' hc' heq => Bool.false_ne_true (hc'.symm.trans (heq ▸ hblank))
      exact hother (fun h => hne '#' (by decide) h.1) (hne _ (by decide)) (hne _ (by decide))
        (hne _ (by decide)) rfl rfl rfl
  | directive hmark hstart happly =>
      subst hmark
      exact moves_of_directive hs hstart happly
  | comment hcomment =>
      obtain rfl := Source.eq_slash_of_comment? hcomment
      exact hother (by simp) (by decide) (by decide) (by decide) rfl rfl rfl
  | openBlock hopen hlive =>
      subst hopen
      rw [event_openBrace hs hlive]
      exact .openBlock hlive rfl rfl (List.append_nil _).symm
  | closeBlock hclose hlive =>
      subst hclose
      rw [event_closeBrace hs hlive]
      exact moves_of_closeBrace hlive
  | deadBrace hbrace hdead =>
      have hdirective : ¬(c = '#' ∧ s.lineStart = true) := by
        rcases hbrace with rfl | rfl <;> simp
      rw [event_eq_other hs hdirective (.inl hdead)]
      exact .other rfl rfl rfl
  | literal hplain _ hliteral =>
      have hletter : c ≠ 'n' := by
        rintro rfl
        rw [Literal.split?_eq_none_of_head (by decide)] at hliteral
        cases hliteral
      exact hother hplain.mark hplain.openBrace hplain.closeBrace hletter rfl rfl rfl
  | word hplain _ _ h =>
      exact moves_of_word hs hplain.mark ⟨hplain.openBrace, hplain.closeBrace⟩ h
  | other hplain _ hname =>
      refine hother hplain.mark hplain.openBrace hplain.closeBrace ?_ rfl rfl rfl
      rintro rfl
      cases hname

end Scan

end EmbeddedBuffers
