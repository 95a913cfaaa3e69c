import Mathlib.Data.List.Chain
import EmbeddedBuffers.Condition.Basic
import EmbeddedBuffers.Proofs.Text.Numerals

/-!
# The grammar of conditions

What a condition is, said without a reader: how a text splits into lexemes, and which formulas the
lexemes derive. `Reads s f` puts the two together. The formula keeps every number as the integer
that is written; `Formula.condition` is the tree with signed words in their places.
-/

namespace EmbeddedBuffers.Condition

/-! ## Lexemes -/

/-- A lexical unit as the text means it. -/
inductive Lexeme
  | word (name : String)
  | number (n : Nat)
  | bang
  | andAnd
  | orOr
  | openParen
  | closeParen
  | minus
  | comparison (op : Comparison)
deriving DecidableEq, Repr

namespace Lexeme

/-- The token that a lexeme is read as. -/
def token : Lexeme → Token
  | .word name => .word name
  | .number n => .number (Int64.ofNat n)
  | .bang => .bang
  | .andAnd => .andAnd
  | .orOr => .orOr
  | .openParen => .openParen
  | .closeParen => .closeParen
  | .minus => .minus
  | .comparison op => .comparison op

/-- How a lexeme is written. -/
def Spelled : Lexeme → List Char → Prop
  | .word name, s => s = name.toList ∧ Text.isName s = true
  | .number n, s => Text.IsLiteral s n
  | .bang, s => s = ['!']
  | .andAnd, s => s = ['&', '&']
  | .orOr, s => s = ['|', '|']
  | .openParen, s => s = ['(']
  | .closeParen, s => s = [')']
  | .minus, s => s = ['-']
  | .comparison op, s => s = op.symbol.toList

/-- Whether a lexeme ends before `rest`: the longest spelling wins. There are no shifts, so `<<` is
two comparisons, which no formula has as neighbours. -/
def Ends : Lexeme → List Char → Prop
  | .word _, rest | .number _, rest => ∀ c, rest.head? = some c → Text.isNameChar c = false
  | .bang, rest | .comparison .lt, rest | .comparison .gt, rest => rest.head? ≠ some '='
  | _, _ => True

end Lexeme

/-- How a text splits into lexemes, with blanks between them. -/
inductive Splits : List Char → List Lexeme → Prop
  | done {blanks : List Char} (h : ∀ c ∈ blanks, Text.isBlank c = true) : Splits blanks []
  | lexeme {blanks s rest : List Char} {l : Lexeme} {ls : List Lexeme}
      (hblanks : ∀ c ∈ blanks, Text.isBlank c = true) (hs : l.Spelled s) (hend : l.Ends rest)
      (hrest : Splits rest ls) : Splits (blanks ++ s ++ rest) (l :: ls)

/-! ## Formulas -/

/-- A condition whose numbers are integers. -/
inductive Formula
  | literal (z : Int)
  | reference (name : String)
  | isDefined (name : String)
  | not (f : Formula)
  | compare (op : Comparison) (f g : Formula)
  | and (f g : Formula)
  | or (f g : Formula)
deriving DecidableEq, Repr

/-- The tree of a formula, every integer taken to a signed word. -/
def Formula.condition : Formula → Condition
  | .literal z => .literal (Int64.ofInt z)
  | .reference name => .reference name
  | .isDefined name => .isDefined name
  | .not f => .not f.condition
  | .compare op f g => .compare op f.condition g.condition
  | .and f g => .and f.condition g.condition
  | .or f g => .or f.condition g.condition

/-- The nonterminals, lowest precedence first. -/
inductive Nonterminal
  | or | and | compare | unary | primary
deriving DecidableEq, Repr

/-- The derivations, one rule for each alternative. Chains of `||` and of `&&` go on to the right
of what is derived already, so they associate to the left. -/
inductive Derives : Nonterminal → List Lexeme → Formula → Prop
  | orOne {ls f} (h : Derives .and ls f) : Derives .or ls f
  | orMore {ls ms f g} (hf : Derives .or ls f) (hg : Derives .and ms g) :
      Derives .or (ls ++ .orOr :: ms) (.or f g)
  | andOne {ls f} (h : Derives .compare ls f) : Derives .and ls f
  | andMore {ls ms f g} (hf : Derives .and ls f) (hg : Derives .compare ms g) :
      Derives .and (ls ++ .andAnd :: ms) (.and f g)
  | compareOne {ls f} (h : Derives .unary ls f) : Derives .compare ls f
  | compareTwo {ls ms f g} (op : Comparison) (hf : Derives .unary ls f) (hg : Derives .unary ms g) :
      Derives .compare (ls ++ .comparison op :: ms) (.compare op f g)
  | not {ls f} (h : Derives .unary ls f) : Derives .unary (.bang :: ls) (.not f)
  | operand {ls f} (h : Derives .primary ls f) : Derives .unary ls f
  | parens {ls f} (h : Derives .or ls f) : Derives .primary (.openParen :: ls ++ [.closeParen]) f
  | number (n : Nat) : Derives .primary [.number n] (.literal n)
  | negative (n : Nat) : Derives .primary [.minus, .number n] (.literal (-n))
  | defined (name : String) :
      Derives .primary [.word "defined", .word name] (.isDefined name)
  | definedParens (name : String) :
      Derives .primary [.word "defined", .openParen, .word name, .closeParen] (.isDefined name)
  | name {name : String} (h : name ≠ "defined") : Derives .primary [.word name] (.reference name)

/-- A text is a condition with this formula. -/
def Reads (s : List Char) (f : Formula) : Prop := ∃ ls, Splits s ls ∧ Derives .or ls f

/-! ## What derived lexemes look like -/

def Lexeme.isComparison : Lexeme → Bool
  | .comparison _ => true
  | _ => false

/-- Lexemes that no comparison starts or ends, and among which no two comparisons meet. -/
structure Framed (ls : List Lexeme) : Prop where
  ne : ls ≠ []
  head : ∀ l ∈ ls.head?, l.isComparison = false
  last : ∀ l ∈ ls.getLast?, l.isComparison = false
  apart : ls.IsChain fun l m => l.isComparison = false ∨ m.isComparison = false

namespace Framed

variable {ls ms : List Lexeme} {l : Lexeme}

theorem singleton (h : l.isComparison = false) : Framed [l] where
  ne := List.cons_ne_nil l []
  head := by simpa using h
  last := by simpa using h
  apart := List.isChain_singleton l

theorem append (hl : Framed ls) (hm : Framed ms) : Framed (ls ++ ms) where
  ne := List.append_ne_nil_of_left_ne_nil hl.ne ms
  head := by
    rw [List.head?_append_of_ne_nil ls hl.ne]
    exact hl.head
  last := by
    rw [List.getLast?_append_of_ne_nil ls hm.ne]
    exact hm.last
  apart := List.isChain_append.2 ⟨hl.apart, hm.apart, fun l h _ _ => Or.inl (hl.last l h)⟩

theorem join (hl : Framed ls) (hm : Framed ms) (l : Lexeme) : Framed (ls ++ l :: ms) where
  ne := List.append_ne_nil_of_left_ne_nil hl.ne _
  head := by
    rw [List.head?_append_of_ne_nil ls hl.ne]
    exact hl.head
  last := by
    rw [List.getLast?_append_of_ne_nil ls (List.cons_ne_nil l ms),
      List.getLast?_cons_of_ne_nil hm.ne]
    exact hm.last
  apart := by
    refine List.isChain_append.2 ⟨hl.apart, ?_, fun m h _ _ => Or.inl (hl.last m h)⟩
    exact List.isChain_cons.2 ⟨fun m h => Or.inr (hm.head m h), hm.apart⟩

end Framed

theorem framed_of_derives {nt : Nonterminal} {ls : List Lexeme} {f : Formula}
    (h : Derives nt ls f) : Framed ls := by
  induction h with
  | orOne h ih | andOne h ih | compareOne h ih | operand h ih => exact ih
  | orMore hf hg ihf ihg | andMore hf hg ihf ihg | compareTwo op hf hg ihf ihg =>
      exact ihf.join ihg _
  | not h ih => exact (Framed.singleton rfl).append ih
  | parens h ih => exact ((Framed.singleton rfl).append ih).append (Framed.singleton rfl)
  | number n => exact Framed.singleton rfl
  | negative n => exact (Framed.singleton rfl).append (Framed.singleton rfl)
  | defined name => exact (Framed.singleton rfl).append (Framed.singleton rfl)
  | definedParens name =>
      exact (((Framed.singleton rfl).append (Framed.singleton rfl)).append
        (Framed.singleton rfl)).append (Framed.singleton rfl)
  | name h => exact Framed.singleton rfl

/-! ## Joining texts -/

variable {s t : List Char} {l : Lexeme} {ls ms : List Lexeme}

/-- A lexeme that ends before a text ends before a longer one, unless the text is empty and the
next character goes on with it. -/
theorem Lexeme.Ends.append (h : l.Ends s)
    (ht : ∀ c ∈ t.head?, Text.isNameChar c = false ∧ c ≠ '=') : l.Ends (s ++ t) := by
  rcases s with - | ⟨c, s⟩
  · cases l with
    | word name => exact fun c hc => (ht c hc).1
    | number n => exact fun c hc => (ht c hc).1
    | bang => exact fun hc => (ht _ hc).2 rfl
    | comparison op =>
        cases op with
        | lt => exact fun hc => (ht _ hc).2 rfl
        | gt => exact fun hc => (ht _ hc).2 rfl
        | _ => trivial
    | _ => trivial
  · cases l with
    | comparison op => cases op <;> exact h
    | _ => exact h

theorem Splits.blank {blanks : List Char} (hblanks : ∀ c ∈ blanks, Text.isBlank c = true)
    (h : Splits s ls) : Splits (blanks ++ s) ls := by
  cases h with
  | done hs =>
      refine Splits.done fun c hc => ?_
      rcases List.mem_append.1 hc with hc | hc
      · exact hblanks c hc
      · exact hs c hc
  | @lexeme before s rest l ls hbefore hs hend hrest =>
      rw [← List.append_assoc, ← List.append_assoc]
      refine Splits.lexeme (fun c hc => ?_) hs hend hrest
      rcases List.mem_append.1 hc with hc | hc
      · exact hblanks c hc
      · exact hbefore c hc

/-- A text that splits goes on with another one, where it cannot go on itself. -/
theorem Splits.append (hs : Splits s ls) (ht : Splits t ms)
    (hedge : ∀ c ∈ t.head?, Text.isNameChar c = false ∧ c ≠ '=') :
    Splits (s ++ t) (ls ++ ms) := by
  induction hs with
  | done hblanks => exact ht.blank hblanks
  | lexeme hblanks hl hend hrest ih =>
      rw [List.append_assoc]
      exact Splits.lexeme hblanks hl (hend.append hedge) ih

theorem Splits.cons (hl : l.Spelled s) (hend : l.Ends t) (ht : Splits t ms) :
    Splits (s ++ t) (l :: ms) :=
  Splits.lexeme (List.forall_mem_nil _) hl hend ht

theorem Splits.single (hl : l.Spelled s) : Splits s [l] := by
  have hend : l.Ends [] := by
    cases l with
    | comparison op => cases op <;> simp [Lexeme.Ends]
    | _ => simp [Lexeme.Ends]
  have h := Splits.cons hl hend (Splits.done (List.forall_mem_nil _))
  rwa [List.append_nil] at h

/-- A sign between blanks joins two texts. -/
theorem Splits.join {sign : List Char} (hl : l.Spelled sign) (hs : Splits s ls)
    (ht : Splits t ms) : Splits (s ++ ([' '] ++ sign ++ [' '] ++ t)) (ls ++ l :: ms) := by
  have hspace : ∀ c ∈ [' '], Text.isBlank c = true := by decide
  have hedge : ∀ c ∈ ([' '] ++ t).head?, Text.isNameChar c = false ∧ c ≠ '=' := by
    rintro _ ⟨⟩
    decide
  have hsign : Splits (sign ++ ([' '] ++ t)) ([l] ++ ms) :=
    (Splits.single hl).append (ht.blank hspace) hedge
  rw [List.append_assoc, List.append_assoc]
  refine hs.append (hsign.blank hspace) ?_
  rintro _ ⟨⟩
  decide

end EmbeddedBuffers.Condition
