import EmbeddedBuffers.Condition.Basic
import EmbeddedBuffers.Text.Name
import EmbeddedBuffers.Text.Integer

/-!
# Tokens of a condition

Cutting the text of a condition into tokens. Blanks separate, the longest operator wins,
and the shifts `<<` and `>>` are no operators, so their first character is refused.
-/

namespace EmbeddedBuffers.Condition

/-- The token that starts a text which does not start with a blank, and what follows
it; `whole` is the text that a refused character is reported in. -/
def Token.read (whole : String) : List Char → Except Fault (Option (Token × List Char))
  | [] => .ok none
  | '(' :: rest => .ok (some (.openParen, rest))
  | ')' :: rest => .ok (some (.closeParen, rest))
  | '-' :: rest => .ok (some (.minus, rest))
  | '!' :: '=' :: rest => .ok (some (.comparison .ne, rest))
  | '!' :: rest => .ok (some (.bang, rest))
  | '&' :: '&' :: rest => .ok (some (.andAnd, rest))
  | '|' :: '|' :: rest => .ok (some (.orOr, rest))
  | '=' :: '=' :: rest => .ok (some (.comparison .eq, rest))
  | '<' :: '=' :: rest => .ok (some (.comparison .le, rest))
  | '>' :: '=' :: rest => .ok (some (.comparison .ge, rest))
  | '<' :: '<' :: _ => .error (.badCharacter '<' whole)
  | '>' :: '>' :: _ => .error (.badCharacter '>' whole)
  | '<' :: rest => .ok (some (.comparison .lt, rest))
  | '>' :: rest => .ok (some (.comparison .gt, rest))
  | c :: rest =>
    if Text.isNameChar c then
      let word := c :: rest.takeWhile Text.isNameChar
      let after := rest.dropWhile Text.isNameChar
      if c.isDigit then
        match Text.integer? word with
        | some n => .ok (some (.number n, after))
        | none => .error (.badNumber (String.ofList word))
      else .ok (some (.word (String.ofList word), after))
    else .error (.badCharacter c whole)

theorem Token.length_lt_of_read {whole : String} {s rest : List Char} {t : Token}
    (h : Token.read whole s = .ok (some (t, rest))) : rest.length < s.length := by
  have hd (p : Char → Bool) (s : List Char) : (s.dropWhile p).length ≤ s.length :=
    (List.dropWhile_sublist p).length_le
  unfold Token.read at h
  split at h
  case h_16 c tail _ _ _ _ _ _ _ _ _ _ _ _ _ _ =>
    have := hd Text.isNameChar tail
    split at h
    · dsimp only at h
      split at h
      · split at h
        · simp only [Except.ok.injEq, Option.some.injEq, Prod.mk.injEq] at h
          rw [← h.2, List.length_cons]
          omega
        · simp at h
      · simp only [Except.ok.injEq, Option.some.injEq, Prod.mk.injEq] at h
        rw [← h.2, List.length_cons]
        omega
    · simp at h
  all_goals
    simp only [Except.ok.injEq, Option.some.injEq, Prod.mk.injEq, reduceCtorEq] at h
  all_goals
    rw [← h.2]
    simp only [List.length_cons]
    omega

theorem length_trimStart_le (s : List Char) : (Text.trimStart s).length ≤ s.length :=
  (List.dropWhile_sublist Text.isBlank).length_le

/-- All tokens of a text, in order. -/
def tokensAux (whole : String) (s : List Char) : Except Fault (List Token) :=
  match _h : Token.read whole (Text.trimStart s) with
  | .error f => .error f
  | .ok none => .ok []
  | .ok (some (token, rest)) => (tokensAux whole rest).map (token :: ·)
termination_by s.length
decreasing_by
  have := Token.length_lt_of_read ‹_›
  have := length_trimStart_le s
  omega

/-- The tokens of a condition. -/
def tokens (s : List Char) : Except Fault (List Token) :=
  tokensAux (String.ofList (Text.trim s)) s

end EmbeddedBuffers.Condition
