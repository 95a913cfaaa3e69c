import EmbeddedBuffers.Condition.Value
import EmbeddedBuffers.Source.Literal
import EmbeddedBuffers.Source.Position

/-!
# Conditional directives

The text of a directive, and the stack of conditional groups that the directives open,
switch and close. The innermost group alone tells whether text is live: a branch is live
only where the text around its group is. At most one branch of a group is taken, and a
condition is looked at only where its answer matters.
-/

namespace EmbeddedBuffers

/-! ## Comments -/

/-- The rest of a line, the line break left standing. -/
def lineRest (s : List Char) : List Char × List Char :=
  (s.takeWhile (· != '\n'), s.dropWhile (· != '\n'))

/-- A comment of the block form after its `/*`: what is written up to the `*/` and with it,
or nothing when the comment is not closed. -/
def blockComment? (s : List Char) : Option (List Char × List Char) :=
  (Text.splitAtText ['*', '/'] s).map fun (body, after) => (body ++ ['*', '/'], after)

theorem lineRest_eq (s : List Char) : (lineRest s).1 ++ (lineRest s).2 = s :=
  List.takeWhile_append_dropWhile

theorem blockComment?_eq {s w r : List Char} (h : blockComment? s = some (w, r)) :
    w ++ r = s := by
  obtain ⟨⟨b, a⟩, hb, he⟩ := Option.map_eq_some_iff.1 h
  simp only [Prod.mk.injEq] at he
  have := Text.splitAtText_eq hb
  rw [← he.1, ← he.2, ← this]

namespace Directive

/-- What a directive line is made of: the text it means, the text as it is written, and
what follows, which starts with a line break unless it is empty. -/
structure Line where
  meaning : List Char
  written : List Char
  rest : List Char
deriving Repr, Inhabited

/-- Puts a piece in front of a line. -/
def Line.cons (meaning written : List Char) (l : Line) : Line :=
  ⟨meaning ++ l.meaning, written ++ l.written, l.rest⟩

/-- Reads a directive after its `#`. Continued lines are joined and comments dropped, a
space standing in for each; literals are kept as they are. -/
def Line.read (s : List Char) : Line :=
  match s with
  | [] => ⟨[], [], []⟩
  | '\n' :: rest => ⟨[], [], '\n' :: rest⟩
  | '\\' :: '\n' :: rest => (Line.read rest).cons [' '] ['\\', '\n']
  | '\\' :: '\r' :: '\n' :: rest => (Line.read rest).cons [' '] ['\\', '\r', '\n']
  | '/' :: '/' :: rest => ⟨[], '/' :: '/' :: (lineRest rest).1, (lineRest rest).2⟩
  | '/' :: '*' :: rest =>
    match _h : blockComment? rest with
    | none => ⟨[' '], s, []⟩
    | some (comment, after) => (Line.read after).cons [' '] ('/' :: '*' :: comment)
  | c :: rest =>
    match _h : if c = '"' ∨ c = '\'' then Literal.split? (c :: rest) else none with
    | some (literal, after) => (Line.read after).cons literal literal
    | none => (Line.read rest).cons [c] [c]
termination_by s.length
decreasing_by
  · simp only [List.length_cons]; omega
  · simp only [List.length_cons]; omega
  · have := congrArg List.length (blockComment?_eq _h)
    simp only [List.length_append] at this
    simp only [List.length_cons]
    omega
  · split at _h
    · exact Literal.length_lt_of_split? _h
    · simp at _h
  · simp

/-- A directive line is a piece of its text. -/
theorem Line.read_eq (s : List Char) : (Line.read s).written ++ (Line.read s).rest = s := by
  fun_induction Line.read s with
  | case1 => rfl
  | case2 => rfl
  | case3 rest ih => simp [Line.cons, ih]
  | case4 rest ih => simp [Line.cons, ih]
  | case5 rest => simp [lineRest_eq]
  | case6 => simp
  | case7 rest comment after h ih =>
    have := blockComment?_eq h
    simp [Line.cons, ih, this]
  | case8 c rest h1 h2 h3 h4 h5 literal after h ih =>
    split at h
    · have := (Literal.split?_eq h).1
      simp [Line.cons, ih, this]
    · simp at h
  | case9 => simp_all [Line.cons]

/-- Name of a directive and the text after it, both without blanks around them. -/
def nameAndRest (meaning : List Char) : List Char × List Char :=
  let text := Text.trim meaning
  (text.takeWhile Text.isNameChar, Text.trim (text.dropWhile Text.isNameChar))

/-! ## Groups -/

/-- The directive that opened a group. -/
inductive Opening
  | ifExpr | ifDefined | ifNotDefined
deriving DecidableEq, Repr, Inhabited

def Opening.render : Opening → String
  | .ifExpr => "if"
  | .ifDefined => "ifdef"
  | .ifNotDefined => "ifndef"

/-- One open group. -/
structure Group where
  /-- Whether the current branch is live. -/
  live : Bool
  /-- Whether the text around the group is live. -/
  parentLive : Bool
  /-- Whether some branch so far was taken. -/
  taken : Bool
  seenElse : Bool
  /-- Line of the opening directive. -/
  line : Nat
  opening : Opening
deriving DecidableEq, Repr, Inhabited

/-- Whether text is live under a stack of groups, innermost first. -/
def isLive : List Group → Bool
  | [] => true
  | g :: _ => g.live

/-- Why directives do not pair up. -/
inductive Fault
  | neverClosed (opening : Opening)
  | strayEnd
  | stray (name : String)
  | afterElse (name : String)
deriving DecidableEq, Repr

def Fault.message : Fault → String
  | .neverClosed opening => s!"#{opening.render} is never closed by #endif"
  | .strayEnd => "#endif without a matching #if"
  | .stray name => s!"#{name} without a matching #if"
  | .afterElse name => s!"#{name} after #else"

/-- What a branch depends on. -/
inductive Test
  /-- The value of a condition. -/
  | expression
  /-- Whether a macro is defined, or, negated, is not. -/
  | definedness (negated : Bool)
deriving DecidableEq, Repr

/-- The directives that open, switch and close groups. -/
inductive Action
  | enter (opening : Opening) (test : Test)
  | switch (test : Test)
  | switchElse
  | leave
deriving DecidableEq, Repr

/-- The action of a directive; most directives have none. -/
def Action.ofName? : String → Option Action
  | "if" => some (.enter .ifExpr .expression)
  | "ifdef" => some (.enter .ifDefined (.definedness false))
  | "ifndef" => some (.enter .ifNotDefined (.definedness true))
  | "elif" => some (.switch .expression)
  | "elifdef" => some (.switch (.definedness false))
  | "elifndef" => some (.switch (.definedness true))
  | "else" => some .switchElse
  | "endif" => some .leave
  | _ => none

/-- Whether a branch is taken. -/
def Test.holds (m : Macros) (origin : Origin) (name : String) (rest : List Char) :
    Test → Except Problem Bool
  | .expression =>
    match Condition.parse? rest >>= Condition.holds? m with
    | .ok b => .ok b
    | .error f => .error (f.problem.withOrigin origin)
  | .definedness negated =>
    let word := (Text.words rest).headD []
    if Text.isName word then .ok (m.isDefined (String.ofList word) != negated)
    else .error (.condition origin s!"#{name} requires a macro name" none)

/-- The innermost group, which must not have seen its `#else`. -/
def openGroup (origin : Origin) (name : String) :
    List Group → Except Problem (Group × List Group)
  | [] => .error (.unpairedDirective origin (Fault.stray name).message)
  | g :: gs =>
    if g.seenElse then .error (.unpairedDirective origin (Fault.afterElse name).message)
    else .ok (g, gs)

/-- The stack of groups after a directive. -/
def apply (m : Macros) (path : String) (line : Nat) (meaning : List Char)
    (groups : List Group) : Except Problem (List Group) :=
  let (word, rest) := nameAndRest meaning
  let name := String.ofList word
  let origin := Origin.atLine path line
  match Action.ofName? name with
  | none => .ok groups
  | some (.enter opening test) => do
    let parentLive := isLive groups
    let taken ← if parentLive then test.holds m origin name rest else pure false
    return ⟨taken, parentLive, taken, false, line, opening⟩ :: groups
  | some (.switch test) => do
    let (g, gs) ← openGroup origin name groups
    let taken ← if g.parentLive && !g.taken then test.holds m origin name rest else pure false
    return { g with live := taken, taken := g.taken || taken } :: gs
  | some .switchElse => do
    let (g, gs) ← openGroup origin name groups
    return { g with live := g.parentLive && !g.taken, taken := true, seenElse := true } :: gs
  | some .leave =>
    match groups with
    | [] => .error (.unpairedDirective origin Fault.strayEnd.message)
    | _ :: gs => .ok gs

end Directive

end EmbeddedBuffers
