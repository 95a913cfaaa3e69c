import EmbeddedBuffers.Proofs.Source.DirectiveLines
import EmbeddedBuffers.Proofs.Source.Operands
import EmbeddedBuffers.Source.Scan

/-!
# Sources as trees

A well-formed source as a tree: declarations, blocks of namespaces, and conditional groups, nested
to any depth and written one item a line. `Item.read` says what the tree declares by recursion on
it: a group asks its conditions one after the other, but only in live text and only until one of
them holds, and the branch of that condition is the live one, or `#else` if there is none. The
namespaces of live blocks are those of what stands in them. A condition without an answer ends the
reading, and so does a live declaration whose namespace and name an earlier one has.
-/

namespace EmbeddedBuffers.Source

/-! ## Items -/

structure Identifier where
  text : List Char
  isName : Text.isName text = true

/-- The name of a namespace, which is no keyword of a header. -/
structure ScopeName extends Identifier where
  notInline : text ≠ "inline".toList

theorem isAsciiBlank_of_isNameChar {c : Char} (h : Text.isNameChar c = true) :
    Text.isAsciiBlank c = false := by
  have hplain := (ne_of_isPlain (isPlain_of_isNameChar h)).2.1
  rw [Bool.eq_false_iff]
  intro hblank
  rw [Text.isBlank_of_isAsciiBlank hblank] at hplain
  cases hplain

theorem Identifier.isNameChar (i : Identifier) : ∀ c ∈ i.text, Text.isNameChar c = true :=
  Text.isNameChar_of_isName i.isName

theorem Identifier.ne_nil (i : Identifier) : i.text ≠ [] := by
  obtain ⟨text, h⟩ := i
  rintro rfl
  cases h

/-- A name as a word of a call. -/
def Identifier.word (i : Identifier) : Word where
  text := i.text
  ne_nil := i.ne_nil
  plain c hc := isPlain_of_isNameChar (i.isNameChar c hc)
  noComment := opensComment_of_not_mem fun h => absurd (i.isNameChar _ h) (by decide)

/-- A declaration as it is written. -/
structure Buffer where
  kind : Kind
  typeFirst : Word
  typeMore : List Word
  element : ElementType
  name : Identifier
  operands : List Operand
  /-- The words of the type name an element type. -/
  type_eq : ElementType.ofText? (Text.spaced (typeFirst.text :: typeMore.map Word.text)) =
    some element
  enough : kind.required ≤ operands.length

namespace Buffer

/-- All arguments between the parentheses. -/
def call (b : Buffer) : List Operand :=
  .words b.typeFirst b.typeMore :: .words b.name.word [] :: b.operands

def text (b : Buffer) : List Char :=
  b.kind.render.toList ++ '(' :: (Operand.listText b.call ++ [')', ';'])

/-- The declaration that is meant, at its place. -/
def declaration (b : Buffer) (path : String) (scope : List String) (span : Span) (live : Bool) :
    Declaration where
  kind := b.kind
  element := b.element
  typeName := String.ofList (Text.spaced (b.typeFirst.text :: b.typeMore.map Word.text))
  name := String.ofList b.name.text
  arguments := Operand.meanings b.operands
  scope := scope
  path := path
  span := span
  live := live

end Buffer

mutual

/-- A piece of a source. -/
inductive Item
  | buffer (b : Buffer)
  | block (names : List ScopeName) (body : List Item)
  /-- A conditional group: its first branch, and what follows that branch. -/
  | group (opening : Directive.Opening) (condition : ConditionText) (body : List Item)
      (chain : Chain)

/-- What follows a branch of a group. -/
inductive Chain
  | close
  | otherwise (body : List Item)
  | switch (test : Directive.Test) (condition : ConditionText) (body : List Item) (chain : Chain)

end

/-! ## Text -/

/-- Names with double colons between them. -/
def colonized : List (List Char) → List Char
  | [] => []
  | [w] => w
  | w :: v :: ws => w ++ ':' :: ':' :: colonized (v :: ws)

/-- The line that opens a block. -/
def blockLine (names : List ScopeName) : List Char :=
  "namespace".toList ++ ' ' :: (colonized (names.map (·.text)) ++ [' ', '\x7b', '\n'])

/-- The line of a directive with a condition. -/
def testLine (name : String) (condition : ConditionText) : List Char :=
  '#' :: (name.toList ++ ' ' :: condition.text ++ ['\n'])

/-- The line of a directive without a condition. -/
def plainLine (name : String) : List Char := '#' :: (name.toList ++ ['\n'])

mutual

def Item.text : Item → List Char
  | .buffer b => b.text ++ ['\n']
  | .block names body => blockLine names ++ (Item.listText body ++ ['\x7d', '\n'])
  | .group opening condition body chain =>
    testLine opening.render condition ++ (Item.listText body ++ chain.text)

def Item.listText : List Item → List Char
  | [] => []
  | item :: rest => item.text ++ Item.listText rest

def Chain.text : Chain → List Char
  | .close => plainLine "endif"
  | .otherwise body => plainLine "else" ++ (Item.listText body ++ plainLine "endif")
  | .switch test condition body chain =>
    testLine test.switchName condition ++ (Item.listText body ++ chain.text)

end

/-! ## Meaning -/

/-- The live names so far, each with the line that declares it. -/
abbrev Names := List ((List String × String) × Nat)

/-- What reading a piece of a source gives: declarations, and the live names after it or what
ended the reading. -/
structure Reading where
  declarations : List Declaration
  ending : Except Stop Names

namespace Reading

/-- Reads on, unless the reading ended. -/
def andThen (r : Reading) (next : Names → Reading) : Reading :=
  match r.ending with
  | .error stop => ⟨r.declarations, .error stop⟩
  | .ok seen => ⟨r.declarations ++ (next seen).declarations, (next seen).ending⟩

/-- Scans on, unless the reading ended. -/
def andScan (r : Reading) (next : Names → Scan.Result) : Scan.Result :=
  match r.ending with
  | .error stop => ⟨r.declarations, some stop⟩
  | .ok seen => ⟨r.declarations ++ (next seen).declarations, (next seen).stop⟩

/-- What a scan yields that ends where the reading does. -/
def result (r : Reading) : Scan.Result := r.andScan fun _ => ⟨[], none⟩

theorem andScan_andThen (r : Reading) (next : Names → Reading) (last : Names → Scan.Result) :
    (r.andThen next).andScan last = r.andScan fun seen => (next seen).andScan last := by
  obtain ⟨ds, ending⟩ := r
  cases ending with
  | error stop => rfl
  | ok seen =>
      show (Reading.mk (ds ++ (next seen).declarations) (next seen).ending).andScan last =
        ⟨ds ++ ((next seen).andScan last).declarations, ((next seen).andScan last).stop⟩
      unfold andScan
      split <;> simp_all

end Reading

section Meaning

variable (m : Macros) (path : String)

/-- A declaration, which must be the first of its name in its namespace where it is live. -/
def Buffer.read (live : Bool) (scope : List String) (p : Position) (seen : Names) (b : Buffer) :
    Reading :=
  let d := b.declaration path scope ⟨p, p.past b.text⟩ live
  if live then
    match seen.lookup (scope, d.name) with
    | some first =>
      ⟨[], .error (.problem (.duplicate (.atLine path p.line) d.qualifiedName first))⟩
    | none => ⟨[d], .ok (((scope, d.name), p.line) :: seen)⟩
  else ⟨[d], .ok seen⟩

/-- Goes on with the answer to a condition. -/
def Reading.ofAnswer (answer : Except Problem Bool) (next : Bool → Reading) : Reading :=
  match answer with
  | .error p => ⟨[], .error (.problem p)⟩
  | .ok holds => next holds

mutual

/-- The declarations of an item. -/
def Item.read (live : Bool) (scope : List String) (p : Position) (seen : Names) :
    Item → Reading
  | .buffer b => b.read path live scope p seen
  | .block names body =>
    Item.readAll live (if live then scope ++ names.map fun n => String.ofList n.text else scope)
      (p.past (blockLine names)) seen body
  | .group opening condition body chain =>
    .ofAnswer (opening.test.answer m (.atLine path p.line) opening.render condition.text live)
      fun holds =>
        let p₁ := p.past (testLine opening.render condition)
        (Item.readAll holds scope p₁ seen body).andThen fun seen =>
          chain.read live holds scope (p₁.past (Item.listText body)) seen

/-- The declarations of items one after the other. -/
def Item.readAll (live : Bool) (scope : List String) (p : Position) (seen : Names) :
    List Item → Reading
  | [] => ⟨[], .ok seen⟩
  | item :: rest =>
    (item.read live scope p seen).andThen fun seen =>
      Item.readAll live scope (p.past item.text) seen rest

/-- The declarations of the later branches of a group; `live` tells whether the text around the
group is live, and `selected` whether the branch to take was an earlier one. -/
def Chain.read (live selected : Bool) (scope : List String) (p : Position) (seen : Names) :
    Chain → Reading
  | .close => ⟨[], .ok seen⟩
  | .otherwise body =>
    Item.readAll (live && !selected) scope (p.past (plainLine "else")) seen body
  | .switch test condition body chain =>
    .ofAnswer (test.answer m (.atLine path p.line) test.switchName condition.text
        (live && !selected)) fun holds =>
      let p₁ := p.past (testLine test.switchName condition)
      (Item.readAll holds scope p₁ seen body).andThen fun seen =>
        chain.read live (selected || holds) scope (p₁.past (Item.listText body)) seen

end

/-- What a source declares. -/
def meaning (items : List Item) : Scan.Result :=
  (Item.readAll m path true [] .start [] items).result

end Meaning

end EmbeddedBuffers.Source
