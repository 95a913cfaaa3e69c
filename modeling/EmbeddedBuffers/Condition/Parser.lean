import EmbeddedBuffers.Condition.Token

/-!
# Reading conditions

The grammar, lowest precedence first:

    or      ::= and ('||' and)*
    and     ::= compare ('&&' compare)*
    compare ::= unary [comparison unary]
    unary   ::= '!' unary | primary
    primary ::= '(' or ')' | number | '-' number | defined name | defined '(' name ')' | name

Conjunction and disjunction associate to the left and comparisons do not chain. Each
reader takes a proper prefix of the tokens and hands on the rest, which bounds the
recursion.
-/

namespace EmbeddedBuffers.Condition

/-- A condition read from the front of `ts`, and the shorter rest. -/
abbrev Parsed (ts : List Token) :=
  { r : Condition × List Token // r.2.length < ts.length }

/-- A condition continued from the front of `ts`, and the rest. -/
abbrev Continued (ts : List Token) :=
  { r : Condition × List Token // r.2.length ≤ ts.length }

/-- What stands after the word `defined`. -/
def parseDefined : (ts : List Token) → Except Fault (Continued ts)
  | .word name :: rest => .ok ⟨(.isDefined name, rest), by simp⟩
  | .openParen :: .word name :: .closeParen :: rest =>
    .ok ⟨(.isDefined name, rest), by simp only [List.length_cons]; omega⟩
  | .openParen :: .word _ :: rest => .error (.expected .closeParen rest.head?)
  | .openParen :: _ => .error .definedWithoutName
  | _ => .error .bareDefined

/-- Operands that hold no condition: numbers with their sign, and words. -/
def parseAtom : (ts : List Token) → Except Fault (Parsed ts)
  | [] => .error .unexpectedEnd
  | .number n :: rest => .ok ⟨(.literal n, rest), by simp⟩
  | .minus :: .number n :: rest =>
    .ok ⟨(.literal (-n), rest), by simp only [List.length_cons]; omega⟩
  | .minus :: _ => .error .strayMinus
  | .word name :: rest =>
    if name = "defined" then
      match parseDefined rest with
      | .error f => .error f
      | .ok ⟨r, h⟩ => .ok ⟨r, by simp only [List.length_cons]; omega⟩
    else
      match rest with
      | .openParen :: _ => .error (.call name)
      | rest => .ok ⟨(.reference name, rest), by simp⟩
  | token :: _ => .error (.unexpected token)

/-- The comparison that a rest starts with. -/
def chained? : List Token → Option Comparison
  | .comparison op :: _ => some op
  | _ => none

mutual

/-- Disjunctions. -/
def parseOr (ts : List Token) : Except Fault (Parsed ts) :=
  match parseAnd ts with
  | .error f => .error f
  | .ok ⟨(a, rest), h⟩ =>
    match continueOr a rest with
    | .error f => .error f
    | .ok ⟨r, h'⟩ => .ok ⟨r, by simp only at h; omega⟩
termination_by (ts.length, 5)
decreasing_by
  · exact Prod.Lex.right _ (by omega)
  · simp only at h
    exact Prod.Lex.left _ _ h

/-- The disjuncts after the first. -/
def continueOr (a : Condition) (ts : List Token) : Except Fault (Continued ts) :=
  match ts with
  | .orOr :: rest =>
    match parseAnd rest with
    | .error f => .error f
    | .ok ⟨(b, after), h⟩ =>
      match continueOr (.or a b) after with
      | .error f => .error f
      | .ok ⟨r, h'⟩ => .ok ⟨r, by simp only [List.length_cons] at *; omega⟩
  | ts => .ok ⟨(a, ts), Nat.le_refl _⟩
termination_by (ts.length, 0)
decreasing_by
  · exact Prod.Lex.left _ _ (by simp only [List.length_cons]; omega)
  · simp only at h
    exact Prod.Lex.left _ _ (by simp only [List.length_cons]; omega)

/-- Conjunctions. -/
def parseAnd (ts : List Token) : Except Fault (Parsed ts) :=
  match parseCompare ts with
  | .error f => .error f
  | .ok ⟨(a, rest), h⟩ =>
    match continueAnd a rest with
    | .error f => .error f
    | .ok ⟨r, h'⟩ => .ok ⟨r, by simp only at h; omega⟩
termination_by (ts.length, 4)
decreasing_by
  · exact Prod.Lex.right _ (by omega)
  · simp only at h
    exact Prod.Lex.left _ _ h

/-- The conjuncts after the first. -/
def continueAnd (a : Condition) (ts : List Token) : Except Fault (Continued ts) :=
  match ts with
  | .andAnd :: rest =>
    match parseCompare rest with
    | .error f => .error f
    | .ok ⟨(b, after), h⟩ =>
      match continueAnd (.and a b) after with
      | .error f => .error f
      | .ok ⟨r, h'⟩ => .ok ⟨r, by simp only [List.length_cons] at *; omega⟩
  | ts => .ok ⟨(a, ts), Nat.le_refl _⟩
termination_by (ts.length, 0)
decreasing_by
  · exact Prod.Lex.left _ _ (by simp only [List.length_cons]; omega)
  · simp only at h
    exact Prod.Lex.left _ _ (by simp only [List.length_cons]; omega)

/-- An operand or a comparison of two. -/
def parseCompare (ts : List Token) : Except Fault (Parsed ts) :=
  match parseUnary ts with
  | .error f => .error f
  | .ok ⟨(a, rest), h⟩ =>
    match rest, h with
    | .comparison op :: rest, h =>
      match parseUnary rest with
      | .error f => .error f
      | .ok ⟨(b, after), h'⟩ =>
        match chained? after with
        | some next => .error (.chained next)
        | none => .ok ⟨(.compare op a b, after), by simp only [List.length_cons] at *; omega⟩
    | rest, h => .ok ⟨(a, rest), h⟩
termination_by (ts.length, 3)
decreasing_by
  · exact Prod.Lex.right _ (by omega)
  · simp only [List.length_cons] at h
    exact Prod.Lex.left _ _ (by omega)

/-- Negations. -/
def parseUnary (ts : List Token) : Except Fault (Parsed ts) :=
  match ts with
  | .bang :: rest =>
    match parseUnary rest with
    | .error f => .error f
    | .ok ⟨(a, after), h⟩ =>
      .ok ⟨(.not a, after), by simp only [List.length_cons] at *; omega⟩
  | ts => parsePrimary ts
termination_by (ts.length, 2)
decreasing_by
  · exact Prod.Lex.left _ _ (by simp only [List.length_cons]; omega)
  · exact Prod.Lex.right _ (by omega)

/-- Operands. -/
def parsePrimary (ts : List Token) : Except Fault (Parsed ts) :=
  match ts with
  | .openParen :: rest =>
    match parseOr rest with
    | .error f => .error f
    | .ok ⟨(a, after), h⟩ =>
      match after, h with
      | .closeParen :: after, h =>
        .ok ⟨(a, after), by simp only [List.length_cons] at *; omega⟩
      | after, _ => .error (.expected .closeParen after.head?)
  | ts => parseAtom ts
termination_by (ts.length, 1)
decreasing_by
  exact Prod.Lex.left _ _ (by simp only [List.length_cons]; omega)

end

/-- Reads a condition; the whole text has to be used up. -/
def parse? (s : List Char) : Except Fault Condition :=
  match tokens s with
  | .error f => .error f
  | .ok [] => .error .empty
  | .ok ts =>
    match parseOr ts with
    | .error f => .error f
    | .ok ⟨(a, []), _⟩ => .ok a
    | .ok ⟨(_, token :: _), _⟩ => .error (.leftover token (String.ofList (Text.trim s)))

/-- Reads the text of a condition. -/
def parse (text : String) : Except Problem Condition :=
  (parse? text.toList).mapError Fault.problem

end EmbeddedBuffers.Condition
