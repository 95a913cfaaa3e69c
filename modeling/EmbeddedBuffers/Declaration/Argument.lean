import EmbeddedBuffers.Problem
import EmbeddedBuffers.Source.Literal
import EmbeddedBuffers.Text.Name
import EmbeddedBuffers.Text.Quoted

/-!
# Arguments of a declaration

What stands between the parentheses of a declaration: bare words, string literals and
brace lists, separated by commas. Brackets have to pair up, and a comma inside them
separates nothing. Outside literals only ASCII is cut at: a character beyond it breaks the
cutting off as a crash. Main statement: the parts of a cut, joined by commas, are the text.
-/

namespace EmbeddedBuffers

/-- One argument. -/
inductive Argument
  /-- Bare words, one space apart. -/
  | words (text : String)
  /-- A string literal, its escapes resolved. -/
  | string (text : String)
  /-- A list in braces. -/
  | list (items : List Argument)
deriving Repr, Inhabited

namespace Argument

/-- Text of an argument that is no list. -/
def text? : Argument → Option String
  | .words t | .string t => some t
  | .list _ => none

mutual

/-- An argument as it is shown in messages. -/
def render : Argument → String
  | .words t => t
  | .string t => Text.quoted t
  | .list items => "\x7b" ++ renderItems items ++ "\x7d"

/-- The items of a list with a comma and a space between them. -/
def renderItems : List Argument → String
  | [] => ""
  | [a] => a.render
  | a :: b :: rest => a.render ++ ", " ++ renderItems (b :: rest)

end

mutual

/-- Equality of arguments. -/
def beq : Argument → Argument → Bool
  | .words a, .words b => a == b
  | .string a, .string b => a == b
  | .list a, .list b => beqItems a b
  | _, _ => false

/-- Equality of lists of arguments. -/
def beqItems : List Argument → List Argument → Bool
  | [], [] => true
  | a :: as, b :: bs => beq a b && beqItems as bs
  | _, _ => false

end

instance : BEq Argument := ⟨beq⟩

/-- Why a text is no list of arguments. -/
inductive Fault
  /-- A closing bracket without its partner. -/
  | unbalanced (bracket : Char)
  /-- An opening bracket without its partner. -/
  | unclosed (bracket : Char)
  /-- Nothing between two commas. -/
  | empty
  /-- A list that does not end with its brace. -/
  | afterList (text : String)
  /-- Something other than a literal after a string literal. -/
  | afterString (text : String)
  /-- A string literal without contents. -/
  | badString (f : Literal.Fault)
deriving DecidableEq, Repr

def Fault.message : Fault → String
  | .unbalanced c =>
    let shown := String.singleton c
    s!"unbalanced '{shown}' in arguments"
  | .unclosed c =>
    let shown := String.singleton c
    s!"unclosed '{shown}' in arguments"
  | .empty => "empty argument"
  | .afterList text => s!"unexpected text after list in '{text}'"
  | .afterString text => s!"unexpected text after string literal in '{text}'"
  | .badString f => f.message

/-- The end of reading arguments without a value. -/
def Fault.stop (f : Fault) : Stop := .problem (.badDeclaration f.message)

/-! ## Cutting at commas -/

/-- The closing bracket that belongs to an opening one. -/
def partner? : Char → Option Char
  | '(' => some ')'
  | '\x7b' => some '\x7d'
  | '[' => some ']'
  | _ => none

def isClosing (c : Char) : Bool := c == ')' || c == '\x7d' || c == ']'

/-- Puts a piece in front of the first part. -/
def extendFirst (piece : List Char) : List (List Char) → List (List Char)
  | [] => [piece]
  | part :: parts => (piece ++ part) :: parts

/-- Cuts a text at the commas outside brackets and literals. `opened` holds the open
brackets, innermost first, and `inWord` tells whether the character before belongs to a
word, inside which no literal starts. -/
def cut (opened : List Char) (inWord : Bool) (s : List Char) :
    Except Stop (List (List Char)) :=
  match s with
  | [] =>
    match opened with
    | [] => .ok [[]]
    | c :: _ => .error (Fault.unclosed c).stop
  | c :: rest =>
    match _h : if inWord then none else Literal.split? (c :: rest) with
    | some (literal, after) => (cut opened false after).map (extendFirst literal)
    | none =>
      if 128 ≤ c.toNat then .error (.crash .brokenCharacter)
      else if c = ',' ∧ opened = [] then (cut [] false rest).map ([] :: ·)
      else if (partner? c).isSome then
        (cut (c :: opened) false rest).map (extendFirst [c])
      else if isClosing c then
        match opened with
        | [] => .error (Fault.unbalanced c).stop
        | o :: opened =>
          if partner? o = some c then (cut opened false rest).map (extendFirst [c])
          else .error (Fault.unbalanced c).stop
      else (cut opened (Text.isNameChar c) rest).map (extendFirst [c])
termination_by s.length
decreasing_by
  all_goals try (simp only [List.length_cons]; omega)
  split at _h
  · simp at _h
  · exact Literal.length_lt_of_split? _h

theorem map_eq_ok {ε α β : Type} {f : α → β} {x : Except ε α} {b : β}
    (h : x.map f = .ok b) : ∃ a, x = .ok a ∧ f a = b := by
  cases x with
  | error e => simp [Except.map] at h
  | ok a => exact ⟨a, rfl, by simpa [Except.map] using h⟩

theorem intercalate_extendFirst (piece : List Char) (parts : List (List Char))
    (h : parts ≠ []) : List.intercalate [','] (extendFirst piece parts) =
      piece ++ List.intercalate [','] parts := by
  cases parts with
  | nil => contradiction
  | cons p ps =>
    cases ps <;> simp [extendFirst, List.intercalate, List.intersperse]

theorem extendFirst_ne_nil (piece : List Char) (parts : List (List Char)) :
    extendFirst piece parts ≠ [] := by
  cases parts <;> simp [extendFirst]

/-- The parts of a cut are at least one and give the text back. -/
theorem intercalate_cut (opened : List Char) (inWord : Bool) (s : List Char)
    (parts : List (List Char)) (h : cut opened inWord s = .ok parts) :
    parts ≠ [] ∧ List.intercalate [','] parts = s := by
  fun_induction cut opened inWord s generalizing parts with
  | case1 =>
    simp only [Except.ok.injEq] at h
    subst h
    simp [List.intercalate]
  | case2 => simp at h
  | case3 opened inWord c rest literal after heq ih =>
    obtain ⟨ps, hps, rfl⟩ := map_eq_ok h
    obtain ⟨hne, hps⟩ := ih ps hps
    refine ⟨extendFirst_ne_nil _ _, ?_⟩
    rw [intercalate_extendFirst _ _ hne, hps]
    split at heq
    · simp at heq
    · exact (Literal.split?_eq heq).1
  | case4 => simp at h
  | case5 opened inWord c rest heq hc hcomma ih =>
    obtain ⟨ps, hps, rfl⟩ := map_eq_ok h
    obtain ⟨hne, hps⟩ := ih ps hps
    refine ⟨by simp, ?_⟩
    cases ps with
    | nil => contradiction
    | cons p ps => simp [List.intercalate, hcomma.1, ← hps]
  | case6 opened inWord c rest heq hc hcomma ho ih =>
    obtain ⟨ps, hps, rfl⟩ := map_eq_ok h
    obtain ⟨hne, hps⟩ := ih ps hps
    exact ⟨extendFirst_ne_nil _ _, by rw [intercalate_extendFirst _ _ hne, hps]; rfl⟩
  | case7 => simp at h
  | case8 inWord c rest heq hc ho hcl o opened hcomma hp ih =>
    obtain ⟨ps, hps, rfl⟩ := map_eq_ok h
    obtain ⟨hne, hps⟩ := ih ps hps
    exact ⟨extendFirst_ne_nil _ _, by rw [intercalate_extendFirst _ _ hne, hps]; rfl⟩
  | case9 => simp at h
  | case10 opened inWord c rest heq hc hcomma ho hcl ih =>
    obtain ⟨ps, hps, rfl⟩ := map_eq_ok h
    obtain ⟨hne, hps⟩ := ih ps hps
    exact ⟨extendFirst_ne_nil _ _, by rw [intercalate_extendFirst _ _ hne, hps]; rfl⟩

theorem length_le_intercalate {part : List Char} {parts : List (List Char)}
    (h : part ∈ parts) : part.length ≤ (List.intercalate [','] parts).length := by
  induction parts with
  | nil => simp at h
  | cons p ps ih =>
    rcases List.mem_cons.1 h with rfl | h
    · cases ps <;> simp [List.intercalate]
    · cases ps with
      | nil => simp at h
      | cons q qs =>
        have := ih h
        simp only [List.intercalate, List.intersperse, List.flatten_cons, List.length_append] at *
        omega

/-- No part of a cut is longer than the text. -/
theorem length_le_of_mem_cut {opened : List Char} {inWord : Bool} {s : List Char}
    {parts : List (List Char)} (h : cut opened inWord s = .ok parts) {part : List Char}
    (hp : part ∈ parts) : part.length ≤ s.length := by
  have := length_le_intercalate hp
  rwa [(intercalate_cut opened inWord s parts h).2] at this

/-! ## Reading -/

/-- Contents of adjacent string literals, one after the other; `whole` is the argument
that stray text is reported in. -/
def joined (whole : String) (s : List Char) : Except Fault (List Char) :=
  match s with
  | [] => .ok []
  | c :: rest =>
    if Text.isAsciiBlank c then joined whole rest
    else
      match _h : Literal.split? (c :: rest) with
      | none => .error (.afterString whole)
      | some (literal, after) =>
        match Literal.contents literal with
        | .error f => .error (.badString f)
        | .ok text => (joined whole after).map (text ++ ·)
termination_by s.length
decreasing_by
  · simp
  · exact Literal.length_lt_of_split? _h

/-- Drops the last part of a list when a comma before it ends the list. -/
def dropTrailing (parts : List (List Char)) : List (List Char) :=
  if 1 < parts.length ∧ (parts.getLast?.map Text.isAllBlank) = some true then parts.dropLast
  else parts

theorem mem_of_mem_dropTrailing {part : List Char} {parts : List (List Char)}
    (h : part ∈ dropTrailing parts) : part ∈ parts := by
  unfold dropTrailing at h
  split at h
  · exact List.dropLast_subset parts h
  · exact h

theorem length_trim_le (s : List Char) : (Text.trim s).length ≤ s.length := by
  have h₁ (t : List Char) : (t.dropWhile Text.isBlank).length ≤ t.length :=
    (List.dropWhile_sublist Text.isBlank).length_le
  simp only [Text.trim, Text.trimEnd, Text.dropEndWhile, Text.trimStart, List.length_reverse]
  exact Nat.le_trans (h₁ _) (by rw [List.length_reverse]; exact h₁ s)

/-- Reads one argument from the text between two commas. -/
def read (raw : List Char) : Except Stop Argument :=
  match _h : Text.trim raw with
  | [] => .error Fault.empty.stop
  | '\x7b' :: rest =>
    match _h' : Text.stripEnd? ['\x7d'] rest with
    | none => .error (Fault.afterList (String.ofList ('\x7b' :: rest))).stop
    | some inner =>
      if Text.isAllBlank inner then .ok (.list [])
      else
        match _h'' : cut [] false inner with
        | .error s => .error s
        | .ok parts =>
          ((dropTrailing parts).attach.mapM fun part => read part.1).map .list
  | c :: rest =>
    if c ≠ '\'' ∧ (Literal.split? (c :: rest)).isSome then
      match joined (String.ofList (c :: rest)) (c :: rest) with
      | .ok text => .ok (.string (String.ofList text))
      | .error f => .error f.stop
    else .ok (.words (String.ofList (Text.squeeze (c :: rest))))
termination_by raw.length
decreasing_by
  have h₁ := length_trim_le raw
  have h₂ := length_le_of_mem_cut _h'' (mem_of_mem_dropTrailing part.2)
  have h₃ := Text.stripEnd?_eq_some _h'
  rw [_h, h₃] at h₁
  simp only [List.length_cons, List.length_append, List.length_nil] at h₁
  omega

/-- Reads the arguments between the parentheses of a declaration. -/
def readAll (text : List Char) : Except Stop (List Argument) :=
  if Text.isAllBlank text then .ok []
  else do
    let parts ← cut [] false text
    parts.mapM read

end Argument

end EmbeddedBuffers
