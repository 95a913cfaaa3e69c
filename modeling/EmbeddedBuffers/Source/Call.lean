import EmbeddedBuffers.Source.Directive

/-!
# Words and calls

The pieces that a scan takes off the front of a source: words, numbers, comments,
namespace headers and the parentheses of a call. Each of them is a prefix of the text, and
what is handed on is the rest.
-/

namespace EmbeddedBuffers.Source

/-! ## Words -/

/-- The rest of a number: digits, letters, points, and a quote where a digit or a letter
follows it. -/
def numberRest : List Char → List Char × List Char
  | [] => ([], [])
  | c :: rest =>
    let separator := c == '\'' && (rest.head?.map Char.isAlphanum).getD false
    if Text.isNameChar c || c == '.' || separator then
      let (word, after) := numberRest rest
      (c :: word, after)
    else ([], c :: rest)

theorem numberRest_eq (s : List Char) : (numberRest s).1 ++ (numberRest s).2 = s := by
  fun_induction numberRest s <;> simp_all

/-- A name or a number at the front of a text that starts with a character of a name. -/
def word : List Char → List Char × List Char
  | [] => ([], [])
  | c :: rest =>
    if c.isDigit then numberRest (c :: rest)
    else ((c :: rest).takeWhile Text.isNameChar, (c :: rest).dropWhile Text.isNameChar)

theorem word_eq (s : List Char) : (word s).1 ++ (word s).2 = s := by
  unfold word
  split
  · rfl
  · split
    · exact numberRest_eq _
    · exact List.takeWhile_append_dropWhile

/-- The kind that a macro word names: letters between `BP` and `Buffer`. -/
def macroWord? (s : List Char) : Option (List Char) :=
  match Text.strip? ['B', 'P'] s with
  | none => none
  | some rest =>
    match Text.stripEnd? ['B', 'u', 'f', 'f', 'e', 'r'] rest with
    | none => none
    | some w => if !w.isEmpty && w.all Char.isAlpha then some w else none

/-! ## Comments -/

/-- A comment at the front of a text. One of the block form that is not closed reaches to
the end. -/
def comment? : List Char → Option (List Char × List Char)
  | '/' :: '/' :: rest =>
    let (body, after) := lineRest rest
    some ('/' :: '/' :: body, after)
  | '/' :: '*' :: rest =>
    match blockComment? rest with
    | some (body, after) => some ('/' :: '*' :: body, after)
    | none => some ('/' :: '*' :: rest, [])
  | _ => none

theorem comment?_eq {s w r : List Char} (h : comment? s = some (w, r)) :
    w ++ r = s ∧ w ≠ [] := by
  unfold comment? at h
  split at h
  · simp only [Option.some.injEq, Prod.mk.injEq] at h
    rw [← h.1, ← h.2]
    simp [lineRest_eq]
  · split at h
    · next hb =>
      simp only [Option.some.injEq, Prod.mk.injEq] at h
      rw [← h.1, ← h.2, ← blockComment?_eq hb]
      simp
    · simp only [Option.some.injEq, Prod.mk.injEq] at h
      rw [← h.1, ← h.2]
      simp
  · simp at h

theorem eq_slash_of_comment? {c : Char} {s : List Char} {p : List Char × List Char}
    (h : comment? (c :: s) = some p) : c = '/' := by
  unfold comment? at h
  split at h
  · next heq => exact (List.cons.inj heq).1
  · next heq => exact (List.cons.inj heq).1
  · cases h

theorem length_lt_of_comment? {s w r : List Char} (h : comment? s = some (w, r)) :
    r.length < s.length := by
  obtain ⟨rfl, hw⟩ := comment?_eq h
  have := List.length_pos_iff.2 hw
  simp only [List.length_append]
  omega

/-! ## Namespaces -/

/-- The bytes of a character, each as the character of that number. -/
def byteChars (c : Char) : List Char :=
  (String.utf8EncodeChar c).map fun b => Char.ofNat b.toNat

/-- The parts of a header between double colons, `part` being the open one in reverse. -/
def colonParts (part : List Char) : List Char → List (List Char)
  | [] => [part.reverse]
  | ':' :: ':' :: rest => part.reverse :: colonParts [] rest
  | c :: rest => colonParts (c :: part) rest

/-- The names in a namespace header: of each part between double colons the last word
other than `inline`. -/
def headerNames (header : List Char) : List String :=
  (colonParts [] header).filterMap fun part =>
    (((Text.words part).filter (· ≠ "inline".toList)).getLast?).map String.ofList

/-- What follows the word `namespace`. -/
inductive Header
  /-- A block with its names; the text up to the brace and with it is `written`. -/
  | block (names : List String) (written rest : List Char)
  /-- An alias, a directive or an unfinished header, which opens nothing. -/
  | statement (written rest : List Char)
deriving Repr, Inhabited

namespace Header

def written : Header → List Char
  | .block _ w _ => w
  | .statement w _ => w

def rest : Header → List Char
  | .block _ _ r => r
  | .statement _ r => r

/-- Puts a piece in front of what is written. -/
def cons (piece : List Char) : Header → Header
  | .block names w r => .block names (piece ++ w) r
  | .statement w r => .statement (piece ++ w) r

/-- Reads a header; `text` is what was read of it so far, byte by byte and in reverse.
Comments are skipped. A semicolon or an equals sign makes it a statement, which ends with
the next semicolon. -/
def read (text : List Char) (s : List Char) : Header :=
  match s with
  | [] => .statement [] []
  | c :: rest =>
    match _h : comment? (c :: rest) with
    | some (comment, after) => (read text after).cons comment
    | none =>
      if c = '\x7b' then .block (headerNames text.reverse) [c] rest
      else if c = ';' ∨ c = '=' then
        match Text.splitOnce ';' (c :: rest) with
        | some (before, after) => .statement (before ++ [';']) after
        | none => .statement (c :: rest) []
      else (read ((byteChars c).reverse ++ text) rest).cons [c]
termination_by s.length
decreasing_by
  · exact length_lt_of_comment? _h
  · simp

theorem cons_eq (piece : List Char) (h : Header) :
    (h.cons piece).written ++ (h.cons piece).rest = piece ++ (h.written ++ h.rest) := by
  cases h <;> simp [cons, written, rest]

/-- A header is a piece of its text. -/
theorem read_eq (text s : List Char) : (read text s).written ++ (read text s).rest = s := by
  fun_induction read text s with
  | case1 => rfl
  | case2 text c rest comment after h ih => rw [cons_eq, ih, (comment?_eq h).1]
  | case3 => rfl
  | case4 text c rest h hc hs before after h' =>
    simp only [written, Header.rest, ← Text.splitOnce_eq h', List.append_assoc,
      List.cons_append, List.nil_append]
  | case5 => simp [written, Header.rest]
  | case6 text c rest h hc hs ih => rw [cons_eq, ih]; rfl

end Header

/-! ## Calls -/

/-- A call from its opening parenthesis to the one that closes it: the text it means, in
which a comment is a space, the text as written, and what follows. -/
structure Call where
  meaning : List Char
  written : List Char
  rest : List Char
deriving Repr, Inhabited

/-- Puts a piece in front of a call. -/
def Call.cons (meaning written : List Char) (c : Call) : Call :=
  ⟨meaning ++ c.meaning, written ++ c.written, c.rest⟩

/-- A literal where one can start: not inside a word, at a quote or at a letter. -/
def literalAt? (inWord : Bool) : List Char → Option (List Char × List Char)
  | [] => none
  | c :: rest =>
    if !inWord && (c == '"' || c == '\'' || c.isAlpha) then Literal.split? (c :: rest)
    else none

/-- Reads on inside a call with `depth` parentheses open below the first. There is no call
when the text, or a comment in it, ends too early. -/
def Call.inside? (depth : Nat) (inWord : Bool) (s : List Char) : Option Call :=
  match s with
  | [] => none
  | c :: rest =>
    match _h : literalAt? inWord (c :: rest) with
    | some (literal, after) =>
      (Call.inside? depth false after).map (Call.cons literal literal)
    | none =>
      match _h' : comment? (c :: rest) with
      | some (comment, after) =>
        (Call.inside? depth false after).map (Call.cons [' '] comment)
      | none =>
        if c = ')' then
          match depth with
          | 0 => some ⟨[], [c], rest⟩
          | depth + 1 => (Call.inside? depth false rest).map (Call.cons [c] [c])
        else if c = '(' then (Call.inside? (depth + 1) false rest).map (Call.cons [c] [c])
        else (Call.inside? depth (Text.isNameChar c) rest).map (Call.cons [c] [c])
termination_by s.length
decreasing_by
  · unfold literalAt? at _h
    split at _h
    · simp at _h
    · next heq =>
      rw [← heq] at _h
      split at _h
      · exact Literal.length_lt_of_split? _h
      · simp at _h
  · exact length_lt_of_comment? _h'
  all_goals simp

/-- Reads a call at its opening parenthesis. -/
def Call.read? : List Char → Option Call
  | '(' :: rest => (Call.inside? 0 false rest).map (Call.cons [] ['('])
  | _ => none

end EmbeddedBuffers.Source
