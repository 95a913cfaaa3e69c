import EmbeddedBuffers.Proofs.Source.Events

/-!
# How groups and blocks nest

Each open group of a scan knows whether the text around it is live and whether one of its branches
was taken, so the innermost group alone tells whether text is live, and no group has two live
branches. Each open brace knows how many namespaces it opened, so the brace that closes a block
restores the namespaces in front of it. Both follow from the history of a scan: which groups and
blocks it has opened and not yet closed. Main statement: `nesting`.
-/

namespace EmbeddedBuffers

namespace Directive

/-! ## Linked groups -/

/-- Each group knows whether the text around it is live, and is itself live only there and once a
branch is taken. -/
def Linked : List Group → Prop
  | [] => True
  | g :: groups => g.parentLive = isLive groups ∧
      (g.live = true → g.taken = true ∧ g.parentLive = true) ∧ Linked groups

variable {groups groups' : List Group} {action : Action}

theorem Linked.acts (h : Linked groups) (hacts : action.Acts groups groups') : Linked groups' := by
  cases hacts with
  | enter line holds hlive => exact ⟨rfl, fun hholds => ⟨hholds, hlive hholds⟩, h⟩
  | switch holds helse hlive =>
      obtain ⟨hparent, -, hmore⟩ := h
      refine ⟨hparent, fun hholds => ⟨?_, (hlive hholds).1⟩, hmore⟩
      exact Bool.or_eq_true_iff.2 (.inr hholds)
  | switchElse helse =>
      obtain ⟨hparent, -, hmore⟩ := h
      exact ⟨hparent, fun hlive => ⟨rfl, (Bool.and_eq_true_iff.1 hlive).1⟩, hmore⟩
  | leave => exact h.2.2

/-- The innermost group alone tells whether all of them are live. -/
theorem Linked.isLive_eq (h : Linked groups) : isLive groups = groups.all (·.live) := by
  induction groups with
  | nil => rfl
  | cons g groups ih =>
      obtain ⟨hparent, hlive, hmore⟩ := h
      rw [List.all_cons, ← ih hmore, ← hparent]
      show g.live = _
      cases hg : g.live with
      | true => rw [(hlive hg).2, Bool.and_self]
      | false => rw [Bool.false_and]

/-! ## Paired directives -/

/-- The actions of a group from its opening on, up to its last directive so far; the flag tells
whether that group has had its `#else`. -/
inductive Opened : Bool → List Action → Prop
  | enter (opening : Opening) (test : Test) : Opened false [.enter opening test]
  | switch {before : List Action} (test : Test) (h : Opened false before) :
      Opened false (before ++ [.switch test])
  | switchElse {before : List Action} (h : Opened false before) :
      Opened true (before ++ [.switchElse])
  | group {seenElse seenElse' : Bool} {before inner : List Action} (h : Opened seenElse before)
      (hinner : Opened seenElse' inner) : Opened seenElse (before ++ (inner ++ [.leave]))

/-- Groups one after the other, each of which is closed. -/
inductive Paired : List Action → Prop
  | nil : Paired []
  | group {seenElse : Bool} {before inner : List Action} (h : Paired before)
      (hinner : Opened seenElse inner) : Paired (before ++ (inner ++ [.leave]))

/-- Actions that leave groups open, innermost first, each with the flag for its `#else`. -/
inductive Unfinished : List Bool → List Action → Prop
  | closed {before : List Action} (h : Paired before) : Unfinished [] before
  | opened {seenElse : Bool} {flags : List Bool} {before inner : List Action}
      (h : Unfinished flags before) (hinner : Opened seenElse inner) :
      Unfinished (seenElse :: flags) (before ++ inner)

theorem Unfinished.acts {actions : List Action} (h : Unfinished (groups.map (·.seenElse)) actions)
    (hacts : action.Acts groups groups') :
    Unfinished (groups'.map (·.seenElse)) (actions ++ [action]) := by
  cases hacts with
  | @enter opening test _ line holds hlive => exact .opened h (.enter opening test)
  | @switch test g groups holds helse hlive =>
      rw [List.map_cons, helse] at h
      cases h with
      | opened hmore hinner =>
          rw [List.append_assoc, List.map_cons, helse]
          exact .opened hmore (.switch test hinner)
  | @switchElse g groups helse =>
      rw [List.map_cons, helse] at h
      cases h with
      | opened hmore hinner =>
          rw [List.append_assoc]
          exact .opened hmore (.switchElse hinner)
  | @leave g groups =>
      cases h with
      | opened hmore hinner =>
          rw [List.append_assoc]
          cases hflags : groups'.map (·.seenElse) with
          | nil =>
              rw [hflags] at hmore
              cases hmore with
              | closed hpaired => exact .closed (.group hpaired hinner)
          | cons flag flags =>
              rw [hflags] at hmore
              cases hmore with
              | opened houter hbefore =>
                  rw [List.append_assoc]
                  exact .opened houter (.group hbefore hinner)

end Directive

namespace Scan

/-! ## Histories -/

/-- A group that is open: the state in front of its opening directive, and the states behind the
directives that start its branches, newest first. -/
structure OpenGroup where
  opener : Scan
  branches : List Scan

/-- What a scan has opened and not yet closed, innermost first, and what its directives did. The
blocks are given by the states in front of their opening. -/
structure History where
  groups : List OpenGroup
  blocks : List Scan
  actions : List Directive.Action

/-- The open groups behind a directive between two states. -/
def groupsAfter (s s' : Scan) : Directive.Action → List OpenGroup → List OpenGroup
  | .enter _ _, groups => ⟨s, [s']⟩ :: groups
  | .leave, groups => groups.tail
  | _, [] => []
  | _, o :: groups => { o with branches := s' :: o.branches } :: groups

def History.after (h : History) (s s' : Scan) : History :=
  match s.event with
  | .directive action =>
    { h with groups := groupsAfter s s' action h.groups, actions := h.actions ++ [action] }
  | .openBlock _ => { h with blocks := s :: h.blocks }
  | .closeBlock => { h with blocks := h.blocks.tail }
  | .other => h

/-- The states that a scan of a source reaches, with their histories. -/
inductive Arrives (m : Macros) (path : String) (source : List Char) : History → Scan → Prop
  | start : Arrives m path source ⟨[], [], []⟩ (.ofText source)
  | step {h : History} {s s' : Scan} {c : Char} {rest : List Char} {d : Option Declaration}
      (harrives : Arrives m path source h s) (hs : s.rest = c :: rest)
      (hstep : Scan.step m path s c rest = .ok (d, s')) :
      Arrives m path source (h.after s s') s'

/-- The names of the block that a state stands in front of. -/
def opened (s : Scan) : List String :=
  match s.event with
  | .openBlock names => names
  | _ => []

/-- An open group as its history has it: the text around it is what its opening stood in, its
current branch started as live as it is, and a branch is taken once one is live or the `#else` has
come. -/
structure Tracked (g : Directive.Group) (groups : List Directive.Group) (o : OpenGroup) : Prop where
  around : o.opener.groups = groups
  parentLive : g.parentLive = o.opener.isLive
  current : o.branches.head?.map isLive = some g.live
  taken : g.taken = (o.branches.any isLive || g.seenElse)
  atMostOne : (o.branches.filter isLive).length ≤ 1

/-- The open groups are those of the history. -/
def Tracks : List Directive.Group → List OpenGroup → Prop
  | [], opens => opens = []
  | g :: groups, opens => ∃ o more, opens = o :: more ∧ Tracked g groups o ∧ Tracks groups more

/-- A state within open blocks: behind each opening, what that opening added to the braces and to
the open namespaces stands on what there was in front of it. -/
def Within : List Scan → Scan → Prop
  | [], s => s.braces = [] ∧ s.scope = []
  | o :: blocks, s =>
    s.braces = o.opened.length :: o.braces ∧ s.scope = o.scope ++ o.opened ∧ Within blocks o

variable {m : Macros} {path : String} {source : List Char} {h : History} {s s' : Scan}

theorem Within.sum_braces {blocks : List Scan} (hwithin : Within blocks s) :
    s.scope.length = s.braces.sum := by
  induction blocks generalizing s with
  | nil => rw [hwithin.1, hwithin.2, List.length_nil, List.sum_nil]
  | cons o blocks ih =>
      obtain ⟨hbraces, hscope, hmore⟩ := hwithin
      rw [hbraces, hscope, List.length_append, List.sum_cons, ih hmore, Nat.add_comm]

theorem Within.congr {blocks : List Scan} (hwithin : Within blocks s)
    (hbraces : s'.braces = s.braces) (hscope : s'.scope = s.scope) : Within blocks s' := by
  cases blocks with
  | nil => exact ⟨hbraces.trans hwithin.1, hscope.trans hwithin.2⟩
  | cons o blocks => exact ⟨hbraces.trans hwithin.1, hscope.trans hwithin.2.1, hwithin.2.2⟩

/-- The brace that closes a block restores what was open in front of it. -/
theorem Within.restored {o : Scan} {blocks : List Scan} (hwithin : Within (o :: blocks) s)
    (hmoves : Moves s s' .closeBlock) : s'.braces = o.braces ∧ s'.scope = o.scope := by
  obtain ⟨hbraces, hscope, -⟩ := hwithin
  cases hmoves with
  | closeBlock hlive hgroups hbraces' hscope' =>
      rw [hbraces, List.tail_cons] at hbraces'
      rw [hscope, hbraces, List.headD_cons, List.length_append, Nat.add_sub_cancel,
        List.take_left] at hscope'
      exact ⟨hbraces', hscope'⟩

theorem Within.step (hwithin : Within h.blocks s) (hmoves : Moves s s' s.event) :
    Within (h.after s s').blocks s' := by
  unfold History.after
  generalize hevent : s.event = event at hmoves ⊢
  cases hmoves with
  | directive hacts hbraces hscope => exact hwithin.congr hbraces hscope
  | @openBlock names hlive hgroups hbraces hscope =>
      have hopened : s.opened = names := by rw [opened, hevent]
      exact ⟨hopened.symm ▸ hbraces, hopened.symm ▸ hscope, hwithin⟩
  | closeBlock hlive hgroups hbraces hscope =>
      show Within h.blocks.tail s'
      cases hblocks : h.blocks with
      | nil =>
          rw [hblocks] at hwithin
          rw [hwithin.1, List.tail_nil] at hbraces
          rw [hwithin.2, List.take_nil] at hscope
          exact ⟨hbraces, hscope⟩
      | cons o blocks =>
          rw [hblocks] at hwithin
          obtain ⟨hbraces', hscope'⟩ := hwithin.restored (.closeBlock hlive hgroups hbraces hscope)
          exact hwithin.2.2.congr hbraces' hscope'
  | other hgroups hbraces hscope => exact hwithin.congr hbraces hscope

/-! ## Open groups -/

/-- A branch is live behind its directive only if no branch in front of it is. -/
theorem length_filter_cons_le {branches : List Scan} (hone : (branches.filter isLive).length ≤ 1)
    (hlive : s'.isLive = true → branches.any isLive = false) :
    ((s' :: branches).filter isLive).length ≤ 1 := by
  rw [List.filter_cons]
  split
  · next hstart =>
    have hnone : branches.filter isLive = [] := by
      rw [List.filter_eq_nil_iff]
      exact List.any_eq_false.1 (hlive hstart)
    rw [hnone]
    exact Nat.le_refl 1
  · exact hone

theorem tracks_enter {opening : Directive.Opening} {opens : List OpenGroup} {line : Nat}
    {holds : Bool} (htracks : Tracks s.groups opens)
    (hgroups : s'.groups = ⟨holds, Directive.isLive s.groups, holds, false, line, opening⟩ ::
      s.groups) : Tracks s'.groups (⟨s, [s']⟩ :: opens) := by
  have hlive : s'.isLive = holds := by rw [isLive, hgroups, Directive.isLive]
  rw [hgroups]
  refine ⟨_, _, rfl, ⟨rfl, rfl, ?_, ?_, ?_⟩, htracks⟩
  · rw [List.head?_cons, Option.map_some, hlive]
  · rw [List.any_cons, List.any_nil, hlive, Bool.or_false, Bool.or_false]
  · exact length_filter_cons_le (Nat.zero_le 1) fun _ => rfl

/-- Another branch of the innermost group, which is live only if none was taken so far. -/
theorem Tracked.branch {g g' : Directive.Group} {groups : List Directive.Group} {o : OpenGroup}
    (htracked : Tracked g groups o) (hs' : s'.isLive = g'.live)
    (hparent : g'.parentLive = g.parentLive) (hlive : g'.live = true → g.taken = false)
    (htaken : g'.taken = (g'.live || g.taken || g'.seenElse)) (helse : g.seenElse = false) :
    Tracked g' groups { o with branches := s' :: o.branches } where
  around := htracked.around
  parentLive := hparent.trans htracked.parentLive
  current := by rw [List.head?_cons, Option.map_some, hs']
  taken := by
    have hbefore := htracked.taken
    rw [helse, Bool.or_false] at hbefore
    rw [htaken, List.any_cons, hs', hbefore]
  atMostOne := by
    refine length_filter_cons_le htracked.atMostOne fun hstart => ?_
    have hbefore := htracked.taken
    rw [hlive (hs' ▸ hstart), helse, Bool.or_false] at hbefore
    exact hbefore.symm

theorem Tracks.acts {action : Directive.Action} {opens : List OpenGroup}
    (htracks : Tracks s.groups opens) (hacts : action.Acts s.groups s'.groups) :
    Tracks s'.groups (groupsAfter s s' action opens) := by
  generalize hbefore : s.groups = groups at hacts htracks
  generalize hbehind : s'.groups = groups' at hacts
  have hlive : s'.isLive = Directive.isLive groups' := by rw [isLive, hbehind]
  cases hacts with
  | enter line holds hholds =>
      subst hbefore
      exact hbehind ▸ tracks_enter htracks hbehind
  | switch holds helse hholds =>
      obtain ⟨o, more, rfl, htracked, hmore⟩ := htracks
      refine ⟨_, _, rfl, htracked.branch hlive rfl (fun h => (hholds h).2) ?_ helse, hmore⟩
      rw [helse, Bool.or_false, Bool.or_comm]
  | switchElse helse =>
      obtain ⟨o, more, rfl, htracked, hmore⟩ := htracks
      refine ⟨_, _, rfl, htracked.branch hlive rfl (fun h => ?_) ?_ helse, hmore⟩
      · exact (Bool.not_eq_true' _).mp (Bool.and_eq_true_iff.1 h).2
      · rw [Bool.or_true]
  | leave =>
      obtain ⟨o, more, rfl, -, hmore⟩ := htracks
      exact hmore

/-! ## Whole scans -/

/-- What the history of a scan says about its state. -/
structure Nests (h : History) (s : Scan) : Prop where
  linked : Directive.Linked s.groups
  tracks : Tracks s.groups h.groups
  within : Within h.blocks s
  unfinished : Directive.Unfinished (s.groups.map (·.seenElse)) h.actions

theorem Nests.step (hnests : Nests h s) (hmoves : Moves s s' s.event) :
    Nests (h.after s s') s' := by
  have hwithin := hnests.within.step hmoves
  have hsame : s'.groups = s.groups → (h.after s s').groups = h.groups →
      (h.after s s').actions = h.actions → Nests (h.after s s') s' := by
    intro hgroups hopens hactions
    refine ⟨hgroups ▸ hnests.linked, ?_, hwithin, ?_⟩
    · rw [hgroups, hopens]
      exact hnests.tracks
    · rw [hgroups, hactions]
      exact hnests.unfinished
  unfold History.after at hwithin hsame ⊢
  generalize s.event = event at hmoves hwithin hsame ⊢
  cases hmoves with
  | directive hacts hbraces hscope =>
      exact ⟨hnests.linked.acts hacts, hnests.tracks.acts hacts, hwithin,
        hnests.unfinished.acts hacts⟩
  | openBlock hlive hgroups hbraces hscope => exact hsame hgroups rfl rfl
  | closeBlock hlive hgroups hbraces hscope => exact hsame hgroups rfl rfl
  | other hgroups hbraces hscope => exact hsame hgroups rfl rfl

theorem Arrives.nests (harrives : Arrives m path source h s) : Nests h s := by
  induction harrives with
  | start => exact ⟨trivial, rfl, ⟨rfl, rfl⟩, .closed .nil⟩
  | step _ hs hstep ih => exact ih.step (moves_of_step hs hstep)

/-- What a scan reaches it arrives at. -/
theorem Reaches.exists_arrives {ds : List Declaration} (hreaches : Reaches m path s ds s')
    (harrives : Arrives m path source h s) : ∃ h', Arrives m path source h' s' := by
  induction hreaches generalizing h with
  | refl s => exact ⟨h, harrives⟩
  | step hs hstep _ ih => exact ih (harrives.step hs hstep)

/-- A brace that closes a block restores what was open in front of the block. -/
theorem Nests.closeBlock (hnests : Nests h s) (hmoves : Moves s s' s.event)
    (hevent : s.event = .closeBlock) {o : Scan} {blocks : List Scan}
    (hblocks : h.blocks = o :: blocks) : s'.braces = o.braces ∧ s'.scope = o.scope :=
  (hblocks ▸ hnests.within : Within (o :: blocks) s).restored (hevent ▸ hmoves)

/-- An `#endif` closes the innermost group and leaves those in front of its opening. -/
theorem Nests.leave (hnests : Nests h s) (hmoves : Moves s s' s.event)
    (hevent : s.event = .directive .leave) :
    ∃ o more, h.groups = o :: more ∧ s'.groups = o.opener.groups := by
  rw [hevent] at hmoves
  cases hmoves with
  | directive hacts hbraces hscope =>
      have htracks := hnests.tracks
      generalize s.groups = groups at hacts htracks
      generalize hbehind : s'.groups = groups' at hacts
      cases hacts with
      | leave =>
          obtain ⟨o, more, hgroups, htracked, -⟩ := htracks
          exact ⟨o, more, hgroups, htracked.around.symm⟩

theorem StopsWith.of_none (h : StopsWith m path s none) : s.rest = [] ∧ s.groups = [] := by
  unfold StopsWith at h
  split at h
  · next hrest => exact ⟨hrest, List.head?_eq_none_iff.1 (Option.map_eq_none_iff.1 h.symm)⟩
  · obtain ⟨e, -, heq⟩ := h
    cases heq

/-- **How groups and blocks nest in every state that a scan reaches.** Each open group knows
whether the text around it is live, and is live only there and once it is taken, so the innermost
one tells whether all of them are; at most one of its branches so far was live when it started. The
open namespaces are as many as the open braces have counted, so no brace closes more of them than
there are, and the one that closes a block restores those in front of it. A scan that nothing ends
early leaves no group open, and its directives pair up. -/
theorem nesting (m : Macros) (path source : String) :
    (∀ ds s, Reaches m path (.ofText source.toList) ds s →
      ∃ h, Arrives m path source.toList h s) ∧
    (∀ h s, Arrives m path source.toList h s →
      Directive.Linked s.groups ∧ s.isLive = s.groups.all (·.live) ∧ Tracks s.groups h.groups ∧
      Within h.blocks s ∧ s.scope.length = s.braces.sum ∧
      ∀ count ∈ s.braces.head?, count ≤ s.scope.length) ∧
    (∀ h s c rest d s', Arrives m path source.toList h s → s.rest = c :: rest →
      step m path s c rest = .ok (d, s') →
      (s.event = .closeBlock → ∀ o ∈ h.blocks.head?, s'.braces = o.braces ∧ s'.scope = o.scope) ∧
      (s.event = .directive .leave →
        ∃ o more, h.groups = o :: more ∧ s'.groups = o.opener.groups)) ∧
    ((scan m path source).stop = none → ∃ h s, Arrives m path source.toList h s ∧
      Reaches m path (.ofText source.toList) (scan m path source).declarations s ∧
      s.rest = [] ∧ s.groups = [] ∧ Directive.Paired h.actions) := by
  refine ⟨fun ds s hreaches => hreaches.exists_arrives .start, fun h s harrives => ?_,
    fun h s c rest d s' harrives hs hstep => ?_, fun hstop => ?_⟩
  · have hnests := harrives.nests
    have hsum := hnests.within.sum_braces
    refine ⟨hnests.linked, hnests.linked.isLive_eq, hnests.tracks, hnests.within, hsum,
      fun count hcount => ?_⟩
    obtain ⟨braces, hbraces⟩ := List.head?_eq_some_iff.1 hcount
    rw [hsum, hbraces, List.sum_cons]
    exact Nat.le_add_right _ _
  · have hmoves := moves_of_step hs hstep
    refine ⟨fun hevent o ho => ?_, harrives.nests.leave hmoves⟩
    obtain ⟨blocks, hblocks⟩ := List.head?_eq_some_iff.1 ho
    exact harrives.nests.closeBlock hmoves hevent hblocks
  · obtain ⟨s, hreaches, hstops⟩ := exists_reaches_end m path (.ofText source.toList)
    have hstops : StopsWith m path s (scan m path source).stop := hstops
    rw [hstop] at hstops
    obtain ⟨hrest, hgroups⟩ := hstops.of_none
    obtain ⟨h, harrives⟩ := hreaches.exists_arrives .start
    refine ⟨h, s, harrives, hreaches, hrest, hgroups, ?_⟩
    have hunfinished := harrives.nests.unfinished
    rw [hgroups] at hunfinished
    cases hunfinished with
    | closed hpaired => exact hpaired

/-- A block that is opened and closed. -/
theorem nesting_block : (scan .empty "a.h" "namespace a \x7b\x7d").stop = none ∧
    (∃ h s, Arrives .empty "a.h" "namespace a \x7b\x7d".toList h s ∧ s.rest = [] ∧ s.groups = [] ∧
      Directive.Paired h.actions) ∧
    ∃ h s s', Arrives .empty "a.h" "namespace a \x7b\x7d".toList h s ∧ s.scope = ["a"] ∧
      step .empty "a.h" s '\x7d' [] = .ok (none, s') ∧ s'.braces = [] ∧ s'.scope = [] := by
  have hread : Source.Header.read [] " a \x7b\x7d".toList =
      .block ["a"] " a \x7b".toList ['\x7d'] :=
    Source.Header.read_names [⟨⟨['a'], by decide⟩, by decide⟩] ['\x7d']
  have hopen : step .empty "a.h" (.ofText "namespace a \x7b\x7d".toList) 'n'
      "amespace a \x7b\x7d".toList =
        .ok (none, ⟨⟨13, 1, 14⟩, ['\x7d'], false, [], [1], ["a"], []⟩) := by
    show Except.ok (none, (past _ _ _).openHeader (Source.Header.read [] " a \x7b\x7d".toList)) = _
    rw [hread]
    rfl
  have hclose : step .empty "a.h" ⟨⟨13, 1, 14⟩, ['\x7d'], false, [], [1], ["a"], []⟩ '\x7d' [] =
      .ok (none, ⟨⟨14, 1, 15⟩, [], false, [], [], [], []⟩) := rfl
  have hword : Source.Header.read [] (Source.word ('n' :: "amespace a \x7b\x7d".toList)).2 =
      .block ["a"] " a \x7b".toList ['\x7d'] := hread
  have hevent : (ofText "namespace a \x7b\x7d".toList).event = .openBlock ["a"] := by
    have hrest : (ofText "namespace a \x7b\x7d".toList).rest =
        'n' :: "amespace a \x7b\x7d".toList := rfl
    rw [event, hrest]
    dsimp only
    rw [if_neg (by decide), if_neg (by decide), if_neg (by decide), if_neg (by decide),
      if_pos (by decide), hword]
  have hstop : (scan .empty "a.h" "namespace a \x7b\x7d").stop = none := by
    rw [scan, run_of_step rfl hopen, run_of_step rfl hclose, run_end rfl rfl]
  obtain ⟨-, -, hsteps, hend⟩ := nesting .empty "a.h" "namespace a \x7b\x7d"
  obtain ⟨h, s, harrives, -, hrest⟩ := hend hstop
  refine ⟨hstop, ⟨h, s, harrives, hrest⟩, _, _, _, .step .start rfl hopen, rfl, hclose, ?_⟩
  refine (hsteps _ _ _ _ _ _ (.step .start rfl hopen) rfl hclose).1 rfl
    (.ofText "namespace a \x7b\x7d".toList) ?_
  rw [History.after, hevent]
  rfl

end Scan

end EmbeddedBuffers
