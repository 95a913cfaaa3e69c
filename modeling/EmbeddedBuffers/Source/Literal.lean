import EmbeddedBuffers.Text.Radix
import EmbeddedBuffers.Text.Split

/-!
# String and character literals

Where a literal of C++ ends and what a string literal means. A literal has an optional
encoding mark, and a raw one has no escapes. One that is not closed ends with its line, or
with the text where it is raw. Main statement: `split?` takes a non-empty piece off the
front of its text and changes nothing.
-/

namespace EmbeddedBuffers.Literal

/-- Marks of raw strings, longer ones before those they end in. -/
def rawMarks : List (List Char) := [['u', '8', 'R'], ['L', 'R'], ['u', 'R'], ['U', 'R'], ['R']]

/-- Marks of other literals. -/
def plainMarks : List (List Char) := [['u', '8'], ['L'], ['u'], ['U']]

/-- The part of a literal after its opening quote `q`, up to the closing quote and with it.
A backslash takes the next character along. -/
def plainBody (q : Char) : List Char → List Char × List Char
  | [] => ([], [])
  | ['\\'] => (['\\'], [])
  | '\\' :: c :: rest =>
    let (body, after) := plainBody q rest
    ('\\' :: c :: body, after)
  | c :: rest =>
    if c = '\n' then ([], c :: rest)
    else if c = q then ([c], rest)
    else
      let (body, after) := plainBody q rest
      (c :: body, after)

/-- The part of a raw string after its opening quote: a delimiter, an opening parenthesis,
and everything up to the closing parenthesis with the same delimiter and a quote. -/
def rawBody (s : List Char) : List Char × List Char :=
  match Text.splitOnce '(' s with
  | none => (s, [])
  | some (delimiter, rest) =>
    let closing := ')' :: delimiter ++ ['"']
    match Text.splitAtText closing rest with
    | none => (s, [])
    | some (content, after) => (delimiter ++ '(' :: content ++ closing, after)

/-- The rest of a raw string after its mark, quote included. -/
def rawAfter? (mark s : List Char) : Option (List Char × List Char) :=
  match Text.strip? mark s with
  | some ('"' :: rest) =>
    let (body, after) := rawBody rest
    some (mark ++ '"' :: body, after)
  | _ => none

/-- A literal without raw text that starts with a mark. -/
def plainAfter? (mark s : List Char) : Option (List Char × List Char) :=
  match Text.strip? mark s with
  | some (q :: rest) =>
    if q = '"' ∨ q = '\'' then
      let (body, after) := plainBody q rest
      some (mark ++ q :: body, after)
    else none
  | _ => none

/-- The literal at the front of a text as it is written, and what follows it. -/
def split? (s : List Char) : Option (List Char × List Char) :=
  match rawMarks.findSome? (rawAfter? · s) with
  | some p => some p
  | none =>
    match plainMarks.findSome? (plainAfter? · s) with
    | some p => some p
    | none => plainAfter? [] s

theorem plainBody_eq (q : Char) (s : List Char) :
    (plainBody q s).1 ++ (plainBody q s).2 = s := by
  fun_induction plainBody q s <;> simp_all

theorem rawBody_eq (s : List Char) : (rawBody s).1 ++ (rawBody s).2 = s := by
  unfold rawBody
  split
  · simp
  · next delimiter rest h =>
    dsimp only
    split
    · simp
    · next content after h' =>
      rw [← Text.splitOnce_eq h, ← Text.splitAtText_eq h']
      simp

theorem rawAfter?_eq {mark s w r : List Char} (h : rawAfter? mark s = some (w, r)) :
    w ++ r = s ∧ w ≠ [] := by
  unfold rawAfter? at h
  split at h
  · next rest hs =>
    simp only [Option.some.injEq, Prod.mk.injEq] at h
    have := rawBody_eq rest
    rw [Text.strip?_eq_some hs, ← h.1, ← h.2]
    simp [this]
  · simp at h

theorem plainAfter?_eq {mark s w r : List Char} (h : plainAfter? mark s = some (w, r)) :
    w ++ r = s ∧ w ≠ [] := by
  unfold plainAfter? at h
  split at h
  · next q rest hs =>
    split at h
    · simp only [Option.some.injEq, Prod.mk.injEq] at h
      have := plainBody_eq q rest
      rw [Text.strip?_eq_some hs, ← h.1, ← h.2]
      simp [this]
    · simp at h
  · simp at h

/-- A literal is a non-empty piece of its text. -/
theorem split?_eq {s w r : List Char} (h : split? s = some (w, r)) : w ++ r = s ∧ w ≠ [] := by
  unfold split? at h
  split at h
  · next p hp =>
    obtain ⟨_, _, hp⟩ := List.exists_of_findSome?_eq_some hp
    exact rawAfter?_eq (h ▸ hp)
  · split at h
    · next p hp =>
      obtain ⟨_, _, hp⟩ := List.exists_of_findSome?_eq_some hp
      exact plainAfter?_eq (h ▸ hp)
    · exact plainAfter?_eq h

theorem split?_quote {q : Char} (hq : q = '"' ∨ q = '\'') (s : List Char) :
    split? (q :: s) = some (q :: (plainBody q s).1, (plainBody q s).2) := by
  rcases hq with rfl | rfl <;>
    simp [split?, rawMarks, plainMarks, rawAfter?, plainAfter?, Text.strip?]

theorem length_lt_of_split? {s w r : List Char} (h : split? s = some (w, r)) :
    r.length < s.length := by
  obtain ⟨rfl, hw⟩ := split?_eq h
  have := List.length_pos_iff.2 hw
  simp only [List.length_append]
  omega

/-! ## Contents -/

/-- Why a string literal has no contents. -/
inductive Fault
  | unterminated (literal : String)
  | badHex (digits : String)
  | unknownEscape (c : Char)
  | danglingBackslash
deriving DecidableEq, Repr

def Fault.message : Fault → String
  | .unterminated literal => s!"unterminated string literal {literal}"
  | .badHex digits => s!"invalid escape '\\x{digits}'"
  | .unknownEscape c =>
    let shown := String.singleton c
    s!"unsupported escape '\\{shown}'"
  | .danglingBackslash => "dangling '\\' in string literal"

/-- The character of a simple escape. -/
def escape? : Char → Option Char
  | 'n' => some '\n'
  | 't' => some '\t'
  | 'r' => some '\r'
  | '0' => some '\x00'
  | '\\' => some '\\'
  | '"' => some '"'
  | '\'' => some '\''
  | _ => none

/-- Resolves the escapes between the quotes. A hexadecimal escape takes the next two
characters, or what there is, and stands for a character below 256. -/
def unescape : List Char → Except Fault (List Char)
  | [] => .ok []
  | ['\\'] => .error .danglingBackslash
  | ['\\', 'x'] => .error (.badHex "")
  | ['\\', 'x', a] =>
    match Text.unsigned? 16 256 [a] with
    | some n => .ok [Char.ofNat n]
    | none => .error (.badHex (String.ofList [a]))
  | '\\' :: 'x' :: a :: b :: rest =>
    match Text.unsigned? 16 256 [a, b] with
    | some n => (unescape rest).map (Char.ofNat n :: ·)
    | none => .error (.badHex (String.ofList [a, b]))
  | '\\' :: c :: rest =>
    match escape? c with
    | some d => (unescape rest).map (d :: ·)
    | none => .error (.unknownEscape c)
  | c :: rest => (unescape rest).map (c :: ·)

/-- What a string literal means. -/
def contents (literal : List Char) : Except Fault (List Char) :=
  let unterminated := Fault.unterminated (String.ofList literal)
  match Text.splitOnce '"' literal with
  | none => .error unterminated
  | some (mark, body) =>
    if mark.getLast? = some 'R' then
      match Text.splitOnce '(' body with
      | none => .error unterminated
      | some (delimiter, rest) =>
        match Text.stripEnd? (')' :: delimiter ++ ['"']) rest with
        | none => .error unterminated
        | some content => .ok content
    else
      match Text.stripEnd? ['"'] body with
      | none => .error unterminated
      | some content => unescape content

end EmbeddedBuffers.Literal
