import EmbeddedBuffers.Proofs.Results
import EmbeddedBuffers.Proofs.Source.Operands

/-!
# Texts between commas

What stands between two commas of a call: an argument, blanks around it, or a list of such texts in
braces, a comma at its end being allowed. A cut leaves these texts as they are, and each of them is
read on its own. Main statements: `Part.read_braced` and `Part.readAll_intercalate`.
-/

namespace EmbeddedBuffers.Source

open Argument

/-- Blanks of ASCII, which may stand around any argument. -/
structure Blanks where
  text : List Char
  narrow : ∀ c ∈ text, isNarrowBlank c = true

/-- A text that a cut leaves in one piece. -/
def Uncut (text : List Char) : Prop := ∀ opened rest, Separated rest →
  cut opened false (text ++ rest) = (cut opened false rest).map (extendFirst text)

/-- A text that a cut leaves in one piece, and the argument that it is read as. -/
structure Part where
  text : List Char
  argument : Argument
  uncut : Uncut text
  read : Argument.read text = .ok argument

namespace Blanks

variable (b : Blanks)

def empty : Blanks := ⟨[], List.forall_mem_nil _⟩

theorem isBlank : ∀ c ∈ b.text, Text.isBlank c = true :=
  fun c hc => (Bool.and_eq_true_iff.1 (b.narrow c hc)).1

theorem isAllBlank : Text.isAllBlank b.text = true := List.all_eq_true.2 b.isBlank

theorem uncut : Uncut b.text := fun opened rest _ => cut_blanks b.narrow opened rest

end Blanks

/-! ## Pieces -/

section Pieces

variable {text : List Char} {pieces : List (List Char)}

theorem uncut_quiet (h : ∀ c ∈ text, isQuiet c = true) : Uncut text :=
  fun opened _ hrest => cut_quiet h hrest opened false

theorem uncut_operand (o : Operand) : Uncut o.text :=
  fun opened rest hrest => o.passed.cut opened rest hrest fun hfalse => (nomatch hfalse)

theorem Uncut.before (h : Uncut text) (before : Blanks) : Uncut (before.text ++ text) := by
  intro opened rest hrest
  rw [List.append_assoc, cut_blanks before.narrow, h opened rest hrest, map_extendFirst]

/-- Pieces with commas between them are one piece inside brackets. -/
theorem cut_intercalate_opened (h : ∀ p ∈ pieces, Uncut p) {opened rest : List Char}
    (hopened : opened ≠ []) (hrest : Separated rest) :
    cut opened false (List.intercalate [','] pieces ++ rest) =
      (cut opened false rest).map (extendFirst (List.intercalate [','] pieces)) := by
  induction pieces with
  | nil => exact cut_blanks (List.forall_mem_nil _) opened rest
  | cons p pieces ih =>
      obtain ⟨hp, hpieces⟩ := List.forall_mem_cons.1 h
      cases pieces with
      | nil =>
          rw [List.intercalate_singleton]
          exact hp opened rest hrest
      | cons q pieces =>
          rw [List.intercalate_cons_cons, List.append_assoc, List.append_assoc,
            List.singleton_append, hp opened _ (separated_cons (Or.inr (Or.inl rfl)) _),
            cut_comma hopened, ih hpieces, map_extendFirst, map_extendFirst]

/-- Outside brackets they are cut apart. -/
theorem cut_intercalate (hne : pieces ≠ []) (h : ∀ p ∈ pieces, Uncut p) :
    cut [] false (List.intercalate [','] pieces) = .ok pieces := by
  induction pieces with
  | nil => exact absurd rfl hne
  | cons p pieces ih =>
      obtain ⟨hp, hpieces⟩ := List.forall_mem_cons.1 h
      cases pieces with
      | nil =>
          have hcut := hp [] [] separated_nil
          rw [List.append_nil] at hcut
          rw [List.intercalate_singleton, hcut, cut]
          show Except.ok [p ++ []] = _
          rw [List.append_nil]
      | cons q pieces =>
          rw [List.intercalate_cons_cons, List.append_assoc, List.singleton_append,
            hp [] _ (separated_cons (Or.inr (Or.inl rfl)) _), cut_topComma,
            ih (List.cons_ne_nil _ _) hpieces]
          show Except.ok ((p ++ []) :: q :: pieces) = _
          rw [List.append_nil]

/-- Pieces with commas between them, in braces. -/
def braced (pieces : List (List Char)) : List Char :=
  '\x7b' :: (List.intercalate [','] pieces ++ ['\x7d'])

theorem uncut_braced (h : ∀ p ∈ pieces, Uncut p) (before after : Blanks) :
    Uncut (before.text ++ braced pieces ++ after.text) := by
  have hbraced : Uncut (braced pieces ++ after.text) := by
    intro opened rest hrest
    have hclose : Separated ('\x7d' :: (after.text ++ rest)) := separated_cons (by simp) _
    rw [braced, List.cons_append, List.cons_append, List.append_assoc, List.append_assoc,
      List.singleton_append, cut_open,
      cut_intercalate_opened h (List.cons_ne_nil _ _) hclose, cut_close, cut_blanks after.narrow,
      map_extendFirst, map_extendFirst, map_extendFirst]
    simp only [List.append_assoc, List.cons_append, List.nil_append]
  rw [List.append_assoc]
  exact hbraced.before before

theorem trim_braced (pieces : List (List Char)) (before after : Blanks) :
    Text.trim (before.text ++ braced pieces ++ after.text) = braced pieces := by
  have hopen : Text.Trimmed ['\x7b'] := Text.trimmed_of_all (by decide)
  have hclose : Text.Trimmed ['\x7d'] := Text.trimmed_of_all (by decide)
  exact Text.trim_append (Text.trimmed_append hopen hclose (List.cons_ne_nil _ _)
    (List.cons_ne_nil _ _) _) before.isBlank after.isBlank

end Pieces

/-! ## Parts -/

namespace Part

variable {parts : List Part}

/-- An argument as it is written, blanks before it being allowed. -/
def ofOperand (before : Blanks) (o : Operand) : Part where
  text := before.text ++ o.text
  argument := o.meaning
  uncut := (uncut_operand o).before before
  read := Operand.read_text o before.text before.isBlank

def ofWord (w : Word) : Part := ofOperand .empty (.words w [])

theorem isAllBlank (p : Part) : Text.isAllBlank p.text = false := by
  rw [Bool.eq_false_iff]
  intro hblank
  have htrim := Text.trim_append Text.trimmed_nil (List.all_eq_true.1 hblank)
    (List.forall_mem_nil _)
  rw [List.append_nil, List.append_nil] at htrim
  have hread := p.read
  rw [Argument.read] at hread
  split at hread
  · cases hread
  · next heq => cases htrim.symm.trans heq
  · next heq => cases htrim.symm.trans heq

theorem uncut_of_mem (parts : List Part) : ∀ t ∈ parts.map text, Uncut t := by
  intro t ht
  obtain ⟨p, -, rfl⟩ := List.mem_map.1 ht
  exact p.uncut

theorem mapM_read (parts : List Part) :
    (parts.map text).mapM Argument.read = .ok (parts.map argument) :=
  mapM_map_eq_pure fun p _ => p.read

theorem isAllBlank_intercalate (hne : parts ≠ []) (more : List (List Char)) :
    Text.isAllBlank (List.intercalate [','] (parts.map text ++ more)) = false := by
  obtain ⟨p, parts, rfl⟩ := List.exists_cons_of_ne_nil hne
  have hblank := p.isAllBlank
  rw [List.map_cons, List.cons_append]
  generalize parts.map text ++ more = rest
  unfold Text.isAllBlank at hblank ⊢
  cases rest with
  | nil => rwa [List.intercalate_singleton]
  | cons q rest =>
      rw [List.intercalate_cons_cons, List.append_assoc, List.all_append, hblank, Bool.false_and]

/-- **Arguments with commas between them are read one by one.** -/
theorem readAll_intercalate (hne : parts ≠ []) :
    Argument.readAll (List.intercalate [','] (parts.map text)) = .ok (parts.map argument) := by
  have hcut := cut_intercalate (mt List.map_eq_nil_iff.1 hne) (uncut_of_mem parts)
  have hblank := isAllBlank_intercalate hne []
  rw [List.append_nil] at hblank
  rw [Argument.readAll, hblank, if_neg Bool.false_ne_true, hcut]
  exact mapM_read parts

/-- The piece behind a comma that ends a list. -/
def trailing : Option Blanks → List (List Char)
  | none => []
  | some b => [b.text]

theorem dropTrailing_append (hne : parts ≠ []) (tail : Option Blanks) :
    dropTrailing (parts.map text ++ trailing tail) = parts.map text := by
  have hlength : 0 < (parts.map text).length :=
    List.length_pos_iff.2 (mt List.map_eq_nil_iff.1 hne)
  cases tail with
  | none =>
      rw [trailing, List.append_nil]
      refine if_neg fun ⟨_, hlast⟩ => ?_
      rw [List.getLast?_map, List.getLast?_eq_some_getLast hne, Option.map_some, Option.map_some,
        isAllBlank] at hlast
      cases hlast
  | some b =>
      have hlast : ((parts.map text ++ [b.text]).getLast?.map Text.isAllBlank) = some true := by
        rw [List.getLast?_concat, Option.map_some, b.isAllBlank]
      have hmore : 1 < (parts.map text ++ [b.text]).length := by
        rw [List.length_append, List.length_singleton]
        omega
      rw [trailing, dropTrailing, if_pos ⟨hmore, hlast⟩, List.dropLast_concat]

theorem uncut_of_mem_append (parts : List Part) (tail : Option Blanks) :
    ∀ t ∈ parts.map text ++ trailing tail, Uncut t := by
  intro t ht
  rcases List.mem_append.1 ht with ht | ht
  · exact uncut_of_mem parts t ht
  · cases tail with
    | none => cases ht
    | some b =>
        rw [List.mem_singleton.1 ht]
        exact b.uncut

/-- **A list in braces is read as the list of what stands in it**, a comma at its end or not. -/
theorem read_braced (hne : parts ≠ []) (tail : Option Blanks) (before after : Blanks) :
    Argument.read (before.text ++ braced (parts.map text ++ trailing tail) ++ after.text) =
      .ok (.list (parts.map argument)) := by
  have hcut := cut_intercalate
    (List.append_ne_nil_of_left_ne_nil (mt List.map_eq_nil_iff.1 hne) (trailing tail))
    (uncut_of_mem_append parts tail)
  rw [Operand.read_list (trim_braced _ before after), isAllBlank_intercalate hne,
    if_neg Bool.false_ne_true, hcut]
  dsimp only
  rw [dropTrailing_append hne, mapM_read]
  rfl

/-- A list of at least one part. -/
def list (before : Blanks) (first : Part) (more : List Part) (tail : Option Blanks)
    (after : Blanks) : Part where
  text := before.text ++ braced ((first :: more).map text ++ trailing tail) ++ after.text
  argument := .list ((first :: more).map argument)
  uncut := uncut_braced (uncut_of_mem_append (first :: more) tail) before after
  read := read_braced (List.cons_ne_nil _ _) tail before after

/-- A list without parts. -/
def emptyList (before inner after : Blanks) : Part where
  text := before.text ++ braced [inner.text] ++ after.text
  argument := .list []
  uncut := uncut_braced (fun t ht => List.mem_singleton.1 ht ▸ inner.uncut) before after
  read := by
    rw [Operand.read_list (trim_braced _ before after), List.intercalate_singleton,
      inner.isAllBlank, if_pos rfl]

end Part

end EmbeddedBuffers.Source
