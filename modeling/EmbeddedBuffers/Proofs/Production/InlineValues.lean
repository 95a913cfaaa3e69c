import EmbeddedBuffers.Proofs.Production.Reading
import EmbeddedBuffers.Proofs.Production.Scalars
import EmbeddedBuffers.Proofs.Source.Lines

/-!
# Buffers with values in the declaration

Values stand on their own or in lists of any depth, and a buffer holds them in the order in which
they are written, every one in the width of the element type. The first value that does not fit is
what a refusal tells of. Main statement: `compressed_produce_inline`.
-/

namespace EmbeddedBuffers

open Elements (twosComplement)
open Source

namespace Production

/-! ## Values -/

/-- Values as they are written: a single one, or a list of them. -/
inductive Inline
  | scalar (before : Blanks) (s : Scalar) (after : Blanks)
  | emptyList (before inner after : Blanks)
  | list (before : Blanks) (first : Inline) (more : List Inline) (tail : Option Blanks)
      (after : Blanks)

namespace Inline

mutual

def part : Inline → Part
  | .scalar before s after => s.part before after
  | .emptyList before inner after => Part.emptyList before inner after
  | .list before first more tail after => Part.list before first.part (parts more) tail after

def parts : List Inline → List Part
  | [] => []
  | v :: vs => v.part :: parts vs

end

mutual

/-- The values in their order. -/
def scalars : Inline → List Scalar
  | .scalar _ s _ => [s]
  | .emptyList _ _ _ => []
  | .list _ first more _ _ => first.scalars ++ scalarsOf more

def scalarsOf : List Inline → List Scalar
  | [] => []
  | v :: vs => v.scalars ++ scalarsOf vs

end

mutual

theorem leaves_part : (v : Inline) → v.part.argument.leaves = v.scalars.map Scalar.argument
  | .scalar _ _ _ => rfl
  | .emptyList _ _ _ => rfl
  | .list _ first more _ _ => by
      rw [scalars, List.map_append, ← leaves_part first, ← leavesOf_parts more]
      rfl

theorem leavesOf_parts : (vs : List Inline) →
    Argument.leavesOf ((parts vs).map Part.argument) = (scalarsOf vs).map Scalar.argument
  | [] => rfl
  | v :: vs => by
      rw [scalarsOf, List.map_append, ← leaves_part v, ← leavesOf_parts vs]
      rfl

end

theorem isPath_part (v : Inline) : isPath v.part.argument = false := by
  cases v with
  | scalar _ s _ => exact s.isPath_argument
  | emptyList _ _ _ => rfl
  | list _ _ _ _ _ => rfl

/-- Values are no file, be it one or many. -/
theorem source_parts {d : Declaration} {scheme : Argument} {v : Inline} {vs : List Inline}
    (h : d.arguments = scheme :: (parts (v :: vs)).map Part.argument) :
    source d = .ok (.values ((scalarsOf (v :: vs)).map Scalar.argument)) := by
  rw [← leavesOf_parts, source, h]
  cases vs with
  | nil =>
      show (if isPath v.part.argument then _ else _) = _
      rw [v.isPath_part, if_neg Bool.false_ne_true]
      show _ = Except.ok (Source.values (v.part.argument.leaves ++ []))
      rw [List.append_nil]
  | cons w vs => rfl

end Inline

/-! ## Bytes -/

/-- The first value that is too small or too large, as it is read. -/
def misfit? (t : ElementType) (ss : List Scalar) : Option Scalar :=
  ss.find? fun s => !fits t s.read

section Bytes

variable {t : ElementType} {ss : List Scalar}

theorem misfit?_eq_none : misfit? t ss = none ↔ ∀ s ∈ ss, fits t s.read = true := by
  simp [misfit?]

theorem misfit?_cons (s : Scalar) (ss : List Scalar) :
    misfit? t (s :: ss) = if fits t s.read then misfit? t ss else some s := by
  rw [misfit?, List.find?_cons]
  cases fits t s.read <;> rfl

/-- Values are packed one by one, up to the first that does not fit. -/
theorem mapM_valueBytes (hfloat : t.isFloat = false) (typeName : String)
    (problem : ValueFault → Problem) :
    ((ss.map Scalar.argument).mapM fun a => (valueBytes t typeName a).mapError problem) =
      match misfit? t ss with
      | none => .ok (ss.map fun s => twosComplement t.width s.read)
      | some s => .error (problem (.outOfRange (String.ofList s.shown) typeName)) := by
  induction ss with
  | nil => rfl
  | cons s ss ih =>
      rw [List.map_cons, List.mapM_cons, s.valueBytes_eq hfloat, ih, misfit?_cons]
      cases fits t s.read with
      | false => rfl
      | true =>
          rw [if_pos rfl, if_pos rfl]
          cases misfit? t ss <;> rfl

/-- Values that are not misread fit exactly if there is room for what they mean. -/
theorem forall_fits_iff (h : ∀ s ∈ ss, ¬ s.Misread t) :
    (∀ s ∈ ss, fits t s.read = true) ↔ ∀ s ∈ ss, Scalar.HasRoom t s.value :=
  forall₂_congr fun s hs => (Scalar.fits_read (h s hs)).1

theorem flatMap_read (h : ∀ s ∈ ss, ¬ s.Misread t) (hfits : ∀ s ∈ ss, fits t s.read = true) :
    (ss.flatMap fun s => twosComplement t.width s.read) =
      ss.flatMap fun s => twosComplement t.width s.value :=
  List.flatMap_congr fun s hs => (Scalar.fits_read (h s hs)).2 (hfits s hs)

end Bytes

section Outcome

variable {d : Declaration} {ss : List Scalar}
  (hsource : source d = .ok (.values (ss.map Scalar.argument)))
  (hfloat : d.element.isFloat = false) (ctx : Context)

include hsource hfloat

/-- What a buffer with values holds, or which value is to blame. -/
theorem outcome_compressed :
    (compressed.produce d ctx).outcome =
      (match misfit? d.element ss with
        | none => .ok ⟨ss.flatMap fun s => twosComplement d.element.width s.read, []⟩
        | some s => .error (.problem (d.failure
            (ValueFault.outOfRange (String.ofList s.shown) d.typeName).message)), []) := by
  unfold compressed
  dsimp only
  rw [hsource, lift_ok_bind]
  dsimp only
  rw [mapM_valueBytes hfloat]
  cases misfit? d.element ss with
  | none =>
      rw [List.flatMap_def]
      rfl
  | some s => rfl

/-- There is such a buffer exactly if there is room for what the values mean. -/
theorem outcome_compressed_of_meant (hmeant : ∀ s ∈ ss, ¬ s.Misread d.element) :
    ((∃ made, (compressed.produce d ctx).outcome.1 = .ok made) ↔
        ∀ s ∈ ss, Scalar.HasRoom d.element s.value) ∧
      ((∀ s ∈ ss, Scalar.HasRoom d.element s.value) → (compressed.produce d ctx).outcome =
        (.ok ⟨ss.flatMap fun s => twosComplement d.element.width s.value, []⟩, [])) := by
  rw [← forall_fits_iff hmeant, outcome_compressed hsource hfloat ctx]
  cases hmisfit : misfit? d.element ss with
  | none =>
      have hfits := misfit?_eq_none.1 hmisfit
      rw [flatMap_read hmeant hfits]
      exact ⟨iff_of_true ⟨_, rfl⟩ hfits, fun _ => rfl⟩
  | some s =>
      have hfits : ¬ ∀ s ∈ ss, fits d.element s.read = true := by
        rw [← misfit?_eq_none, hmisfit]
        exact Option.some_ne_none s
      exact ⟨iff_of_false (fun ⟨_, hmade⟩ => (nomatch hmade)) hfits, fun hall => absurd hall hfits⟩

end Outcome

/-! ## Declarations -/

/-- Type, name, scheme and values of a buffer, with commas between them. -/
def inlineText (type name scheme : Part) (values : List Inline) : List Char :=
  List.intercalate [','] ((type :: name :: scheme :: Inline.parts values).map Part.text)

variable {type name : Part} {typeName called : String} {t : ElementType} (scheme : Part)
  (v : Inline) (vs : List Inline) (scope : List String) (path : String) (span : Span) (live : Bool)

theorem exists_read_inlineText (htype : type.argument = .words typeName)
    (helement : ElementType.parse typeName = .ok t) (hname : name.argument = .words called)
    (hcalled : Text.isName called.toList = true) :
    ∃ d, Declaration.read Kind.compressed.word (inlineText type name scheme (v :: vs)) scope path
        span live = .ok d ∧ d.kind = .compressed ∧ d.element = t ∧ d.typeName = typeName ∧
      d.arguments = scheme.argument :: (Inline.parts (v :: vs)).map Part.argument := by
  have hargs : Argument.readAll (inlineText type name scheme (v :: vs)) = .ok (.words typeName ::
      .words called :: scheme.argument :: (Inline.parts (v :: vs)).map Part.argument) := by
    rw [inlineText, Part.readAll_intercalate (List.cons_ne_nil _ _), List.map_cons, List.map_cons,
      List.map_cons, htype, hname]
  have hcount : ¬(scheme.argument :: (Inline.parts (v :: vs)).map Part.argument).length <
      Kind.required .compressed := by
    rw [Inline.parts, List.map_cons, List.length_cons, List.length_cons]
    exact Nat.not_lt.2 (Nat.le_add_left 2 _)
  exact ⟨_, Scan.read_of_parts (by decide) hargs (Scan.parts_eq_ok helement hcalled hcount), rfl,
    rfl, rfl, rfl⟩

/-- **A buffer with values is made exactly as its values are read.** It holds the numbers that are
meant, and there is one exactly if the elements have room for all of them, as long as no value is
misread. -/
theorem compressed_produce_inline (htype : type.argument = .words typeName)
    (helement : ElementType.parse typeName = .ok t) (hfloat : t.isFloat = false)
    (hname : name.argument = .words called) (hcalled : Text.isName called.toList = true) :
    ∃ d, Declaration.read Kind.compressed.word (inlineText type name scheme (v :: vs)) scope path
        span live = .ok d ∧ d.kind = .compressed ∧ d.element = t ∧
      ∀ ctx, (compressed.produce d ctx).outcome =
          (match misfit? t (Inline.scalarsOf (v :: vs)) with
            | none => .ok ⟨(Inline.scalarsOf (v :: vs)).flatMap fun s =>
                twosComplement t.width s.read, []⟩
            | some s => .error (.problem (d.failure
                (ValueFault.outOfRange (String.ofList s.shown) typeName).message)), []) ∧
        ((∀ s ∈ Inline.scalarsOf (v :: vs), ¬ s.Misread t) →
          ((∃ made, (compressed.produce d ctx).outcome.1 = .ok made) ↔
            ∀ s ∈ Inline.scalarsOf (v :: vs), Scalar.HasRoom t s.value) ∧
          ((∀ s ∈ Inline.scalarsOf (v :: vs), Scalar.HasRoom t s.value) →
            (compressed.produce d ctx).outcome =
              (.ok ⟨(Inline.scalarsOf (v :: vs)).flatMap fun s =>
                twosComplement t.width s.value, []⟩, []))) := by
  obtain ⟨d, hread, hkind, rfl, rfl, hargs⟩ := exists_read_inlineText scheme v vs scope path span
    live htype helement hname hcalled
  have hsource := Inline.source_parts hargs
  exact ⟨d, hread, hkind, rfl, fun ctx => ⟨outcome_compressed hsource hfloat ctx,
    outcome_compressed_of_meant hsource hfloat ctx⟩⟩

/-- A list in a list, `{'A', {true, -1}}`. -/
def nestedValues : Inline :=
  let negative : Scalar := .integer "-1".toList (-1) ⟨['-'], true, ['1'], 1, rfl,
    .minus (List.forall_mem_nil _), (Text.magnitude?_eq_some (by decide)).1 (by decide), rfl⟩
    (by decide)
  let inner : Inline := .list .empty (.scalar .empty (.truth true) .empty)
    [.scalar .empty negative .empty] none .empty
  .list .empty (.scalar .empty (.character 'A' (by decide)) .empty) [inner] none .empty

/-- The greatest number of 64 bits. -/
def greatestWord : Scalar := .integer "0xFFFFFFFFFFFFFFFF".toList (2 ^ 64 - 1)
  ⟨[], false, _, 2 ^ 64 - 1, rfl, .none, (Text.magnitude?_eq_some (by decide)).1 (by decide), rfl⟩
  (by decide)

/-- A list in a list is packed in the order of its values. The greatest number of 64 bits has no
room in a byte, but is read as one that has. -/
theorem compressed_produce_inline_bytes :
    (∃ d, Declaration.read "Compressed"
        "int8_t,A,none,\x7b'A',\x7btrue,-1\x7d\x7d".toList [] "in.h" default true = .ok d ∧
      ∀ ctx, (compressed.produce d ctx).outcome = (.ok ⟨[0x41, 0x01, 0xFF], []⟩, [])) ∧
    ∃ d, Declaration.read "Compressed" "uint8_t,A,none,0xFFFFFFFFFFFFFFFF".toList []
        "in.h" default true = .ok d ∧
      (∀ ctx, (compressed.produce d ctx).outcome = (.ok ⟨[0xFF], []⟩, [])) ∧
        ¬ Scalar.HasRoom .u8 greatestWord.value := by
  let name : Part := .ofWord ⟨"A".toList, by decide, by decide, by decide⟩
  let stored : Part := .ofWord ⟨"none".toList, by decide, by decide, by decide⟩
  have hname : name.argument = .words "A" := rfl
  constructor
  · let type : Part := .ofWord ⟨"int8_t".toList, by decide, by decide, by decide⟩
    have htype : type.argument = .words "int8_t" := rfl
    have helement : ElementType.parse "int8_t" = .ok .i8 := by decide
    obtain ⟨d, hread, -, -, hmade⟩ := compressed_produce_inline stored nestedValues [] [] "in.h"
      default true htype helement rfl hname (by decide)
    exact ⟨d, hread, fun ctx => ((hmade ctx).2 (by decide)).2 (by decide)⟩
  · let type : Part := .ofWord ⟨"uint8_t".toList, by decide, by decide, by decide⟩
    have htype : type.argument = .words "uint8_t" := rfl
    have helement : ElementType.parse "uint8_t" = .ok .u8 := by decide
    obtain ⟨d, hread, -, -, hmade⟩ := compressed_produce_inline stored
      (.scalar .empty greatestWord .empty) [] [] "in.h" default true htype helement rfl hname
      (by decide)
    exact ⟨d, hread, fun ctx => (hmade ctx).1, by decide⟩

end Production

end EmbeddedBuffers
